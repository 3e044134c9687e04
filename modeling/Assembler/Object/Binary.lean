import Assembler.Isa.Basic
import Assembler.Object.Basic

/-! # The binary object format

A section is its start address and its number of words, four bytes each, followed by the words in a
fixed number of bytes each. Everything is big-endian, and a word keeps its low bytes only. Symbols
are not part of the format.
-/

namespace Assembler

/-- A binary format: the number of bytes of a word, from 1 to 4. -/
structure BinaryFormat where
  /-- The number of bytes of a word. -/
  wordBytes : Nat
  /-- There is at least one. -/
  one_le : 1 ≤ wordBytes
  /-- A word has no more than four. -/
  le_four : wordBytes ≤ 4

namespace BinaryFormat

/-- The format with the number of bytes nearest to a wanted one. -/
def ofBytes (wanted : Nat) : BinaryFormat :=
  ⟨max 1 (min wanted 4), by omega, by omega⟩

/-- The format with the fewest bytes that hold a word of a machine. -/
def ofIsa (isa : Isa) : BinaryFormat := ofBytes ((isa.wordBits + 7) / 8)

/-- The low bytes of a word, the highest first. -/
def wordBytesOf (count : Nat) (word : UInt32) : List UInt8 :=
  (List.range count).reverse.map fun i => (word >>> UInt32.ofNat (8 * i)).toUInt8

/-- The word of a list of bytes, the highest first. -/
def wordOfBytes (bytes : List UInt8) : UInt32 :=
  bytes.foldl (fun acc b => (acc <<< 8) ||| b.toUInt32) 0

/-- The bytes of a section. -/
def sectionBytes (f : BinaryFormat) (s : ObjectSection) : List UInt8 :=
  wordBytesOf 4 s.start ++ wordBytesOf 4 (UInt32.ofNat s.words.length) ++
    s.words.flatMap (wordBytesOf f.wordBytes)

/-- The bytes of an object. -/
def write (f : BinaryFormat) (o : Object) : List UInt8 :=
  o.sections.flatMap f.sectionBytes

/-- The words of a list of bytes, given those before them in reverse. -/
def wordsFrom (size : Nat) (done : List UInt32) : (count : Nat) → List UInt8 → List UInt32
  | 0, _ => done.reverse
  | count + 1, bytes =>
      wordsFrom size (wordOfBytes (bytes.take size) :: done) count (bytes.drop size)

/-- The sections of a list of bytes, unless it ends inside one. -/
def readSections (f : BinaryFormat) (bytes : List UInt8) : Option (List ObjectSection) :=
  if bytes.isEmpty then some []
  else if bytes.length < 8 then none
  else
    let start := wordOfBytes (bytes.take 4)
    let count := (wordOfBytes ((bytes.drop 4).take 4)).toNat
    let body := bytes.drop 8
    if body.length < count * f.wordBytes then none
    else
      let words := wordsFrom f.wordBytes [] count body
      (f.readSections (body.drop (count * f.wordBytes))).map (⟨start, words⟩ :: ·)
termination_by bytes.length
decreasing_by
  simp only [List.length_drop]
  omega

/-- The object of a list of bytes, unless it ends inside a section. -/
def read? (f : BinaryFormat) (bytes : List UInt8) : Option Object :=
  (f.readSections bytes).map fun sections => ⟨.empty, sections⟩

end BinaryFormat

end Assembler
