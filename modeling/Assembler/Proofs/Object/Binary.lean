import Assembler.Object.Binary
import Mathlib

/-! # The binary format is exact

A word and its bytes determine each other as long as the word has no more bytes than are written. A
section announces its length, so what is read of it is what was written and the rest is left alone;
every list of bytes is therefore the form of at most one object, and the reader finds that object.
-/

namespace Assembler.BinaryFormat

variable {f : BinaryFormat} {count size : Nat} {word : UInt32} {bytes rest : List UInt8}

theorem wordBytesOf_succ (short : count < 4) (word : UInt32) :
    wordBytesOf (count + 1) word = wordBytesOf count (word >>> 8) ++ [word.toUInt8] := by
  have shift : ∀ i < count, (word >>> UInt32.ofNat (8 * (i + 1))).toUInt8 =
      (word >>> 8 >>> UInt32.ofNat (8 * i)).toUInt8 := by
    intro i below
    apply congrArg UInt32.toUInt8
    apply UInt32.toNat_inj.1
    have near : (UInt32.ofNat (8 * (i + 1))).toNat = 8 * (i + 1) :=
      UInt32.toNat_ofNat_of_lt (by simp only [UInt32.size]; omega)
    have next : (UInt32.ofNat (8 * i)).toNat = 8 * i :=
      UInt32.toNat_ofNat_of_lt (by simp only [UInt32.size]; omega)
    have eight : (8 : UInt32).toNat = 8 := rfl
    rw [UInt32.toNat_shiftRight, UInt32.toNat_shiftRight, UInt32.toNat_shiftRight, near, next,
      eight, Nat.mod_eq_of_lt (by omega : 8 * (i + 1) < 32),
      Nat.mod_eq_of_lt (by omega : 8 * i < 32), ← Nat.shiftRight_add,
      Nat.mod_eq_of_lt (by decide : 8 < 32), Nat.mul_add, Nat.add_comm]
  have low : (word >>> UInt32.ofNat (8 * 0)).toUInt8 = word.toUInt8 :=
    congrArg UInt32.toUInt8 (UInt32.shiftRight_zero)
  rw [wordBytesOf, List.range_succ_eq_map, List.reverse_cons, List.map_append, List.map_singleton,
    low, ← List.map_reverse, List.map_map, wordBytesOf]
  congr 1
  apply List.map_congr_left
  intro i member
  exact shift i (List.mem_range.1 (List.mem_reverse.1 member))

@[simp] theorem length_wordBytesOf (count : Nat) (word : UInt32) :
    (wordBytesOf count word).length = count := by
  simp [wordBytesOf]

theorem wordOfBytes_concat (bytes : List UInt8) (b : UInt8) :
    wordOfBytes (bytes ++ [b]) = (wordOfBytes bytes <<< 8) ||| b.toUInt32 := by
  rw [wordOfBytes, List.foldl_append]
  rfl

theorem toNat_shiftLeft_or {high : UInt32} (room : high.toNat < 2 ^ 24) (b : UInt8) :
    ((high <<< 8) ||| b.toUInt32).toNat = high.toNat * 2 ^ 8 + b.toNat := by
  have eight : (8 : UInt32).toNat = 8 := rfl
  have inside : high.toNat <<< 8 < 2 ^ 32 := by
    rw [Nat.shiftLeft_eq]
    omega
  rw [UInt32.toNat_or, UInt32.toNat_shiftLeft, eight, Nat.mod_eq_of_lt (by decide : 8 < 32),
    Nat.mod_eq_of_lt inside, UInt8.toNat_toUInt32, ← Nat.shiftLeft_add_eq_or_of_lt b.toNat_lt,
    Nat.shiftLeft_eq]

theorem toNat_wordOfBytes_lt (short : bytes.length ≤ 4) :
    (wordOfBytes bytes).toNat < 2 ^ (8 * bytes.length) := by
  induction bytes using List.reverseRecOn with
  | nil => decide
  | append_singleton bytes b ih =>
      rw [List.length_append, List.length_singleton] at short ⊢
      have high := ih (by omega)
      have room : 2 ^ (8 * bytes.length) ≤ 2 ^ 24 := Nat.pow_le_pow_right (by decide) (by omega)
      have byte := b.toNat_lt
      rw [wordOfBytes_concat, toNat_shiftLeft_or (by omega), Nat.mul_add, pow_add]
      omega

theorem toNat_wordOfBytes_concat (short : bytes.length < 4) (b : UInt8) :
    (wordOfBytes (bytes ++ [b])).toNat = (wordOfBytes bytes).toNat * 2 ^ 8 + b.toNat := by
  have high := toNat_wordOfBytes_lt (Nat.le_of_lt short)
  have room : 2 ^ (8 * bytes.length) ≤ 2 ^ 24 := Nat.pow_le_pow_right (by decide) (by omega)
  rw [wordOfBytes_concat, toNat_shiftLeft_or (by omega)]

theorem wordOfBytes_wordBytesOf (short : count ≤ 4) (small : word.toNat < 2 ^ (8 * count)) :
    wordOfBytes (wordBytesOf count word) = word := by
  induction count generalizing word with
  | zero =>
      apply UInt32.toNat_inj.1
      have zero : word.toNat = 0 := by simpa using small
      rw [zero]
      rfl
  | succ count ih =>
      have shifted : (word >>> 8).toNat = word.toNat / 2 ^ 8 := by
        rw [UInt32.toNat_shiftRight, Nat.shiftRight_eq_div_pow]
        rfl
      have high : (word >>> 8).toNat < 2 ^ (8 * count) := by
        rw [shifted]
        apply Nat.div_lt_of_lt_mul
        rwa [← pow_add, Nat.add_comm, ← Nat.mul_succ]
      apply UInt32.toNat_inj.1
      rw [wordBytesOf_succ short, toNat_wordOfBytes_concat (by simpa using short),
        ih (Nat.le_of_succ_le short) high, shifted, UInt32.toNat_toUInt8]
      omega

theorem wordBytesOf_wordOfBytes (short : count ≤ 4) (length : bytes.length = count) :
    wordBytesOf count (wordOfBytes bytes) = bytes := by
  subst length
  induction bytes using List.reverseRecOn with
  | nil => rfl
  | append_singleton bytes b ih =>
      rw [List.length_append, List.length_singleton] at short ⊢
      have value := toNat_wordOfBytes_concat (b := b) (Nat.lt_of_succ_le short)
      have byte := b.toNat_lt
      have high : wordOfBytes (bytes ++ [b]) >>> 8 = wordOfBytes bytes := by
        apply UInt32.toNat_inj.1
        have eight : (8 : UInt32).toNat % 32 = 8 := rfl
        rw [UInt32.toNat_shiftRight, eight, value, Nat.shiftRight_eq_div_pow]
        omega
      have low : (wordOfBytes (bytes ++ [b])).toUInt8 = b := by
        apply UInt8.toNat_inj.1
        rw [UInt32.toNat_toUInt8, value]
        omega
      rw [wordBytesOf_succ (Nat.lt_of_succ_le short), high, low, ih (by omega)]

theorem wordsFrom_eq (size count : Nat) (done : List UInt32) (bytes : List UInt8) :
    wordsFrom size done count bytes = done.reverse ++ wordsFrom size [] count bytes := by
  induction count generalizing done bytes with
  | zero => simp [wordsFrom]
  | succ count ih =>
      rw [wordsFrom, wordsFrom, ih, ih [_]]
      simp

theorem wordsFrom_succ (size count : Nat) (bytes : List UInt8) :
    wordsFrom size [] (count + 1) bytes =
      wordOfBytes (bytes.take size) :: wordsFrom size [] count (bytes.drop size) := by
  rw [wordsFrom, wordsFrom_eq]
  rfl

/-- Words are read back from the bytes in front, whatever stands behind them. -/
theorem wordsFrom_flatMap (short : size ≤ 4) {words : List UInt32}
    (small : ∀ w ∈ words, w.toNat < 2 ^ (8 * size)) (rest : List UInt8) :
    wordsFrom size [] words.length (words.flatMap (wordBytesOf size) ++ rest) = words := by
  induction words with
  | nil => rfl
  | cons word words ih =>
      obtain ⟨first, others⟩ := List.forall_mem_cons.1 small
      rw [List.length_cons, wordsFrom_succ, List.flatMap_cons, List.append_assoc,
        List.take_left' (length_wordBytesOf size word),
        List.drop_left' (length_wordBytesOf size word), wordOfBytes_wordBytesOf short first,
        ih others]

@[simp] theorem length_wordsFrom (size count : Nat) (bytes : List UInt8) :
    (wordsFrom size [] count bytes).length = count := by
  induction count generalizing bytes with
  | zero => rfl
  | succ count ih => rw [wordsFrom_succ, List.length_cons, ih]

theorem flatMap_wordsFrom (short : size ≤ 4) (enough : count * size ≤ bytes.length) :
    (wordsFrom size [] count bytes).flatMap (wordBytesOf size) = bytes.take (count * size) := by
  induction count generalizing bytes with
  | zero => simp [wordsFrom]
  | succ count ih =>
      rw [Nat.succ_mul] at enough
      have front : (bytes.take size).length = size := by
        rw [List.length_take]
        omega
      rw [wordsFrom_succ, List.flatMap_cons, wordBytesOf_wordOfBytes short front,
        ih (by rw [List.length_drop]; omega), Nat.succ_mul, Nat.add_comm, List.take_add]

theorem toNat_lt_of_mem_wordsFrom (short : size ≤ 4) (h : word ∈ wordsFrom size [] count bytes) :
    word.toNat < 2 ^ (8 * size) := by
  induction count generalizing bytes with
  | zero => cases h
  | succ count ih =>
      rw [wordsFrom_succ] at h
      rcases List.mem_cons.1 h with rfl | later
      · have front : (bytes.take size).length ≤ size := List.length_take_le _ _
        exact Nat.lt_of_lt_of_le (toNat_wordOfBytes_lt (front.trans short))
          (Nat.pow_le_pow_right (by decide) (by omega))
      · exact ih later

/-- A section that the format keeps: its length fits the header and its words their bytes. -/
structure Holds (f : BinaryFormat) (s : ObjectSection) : Prop where
  length : s.words.length < 2 ^ 32
  words : ∀ w ∈ s.words, w.toNat < 2 ^ (8 * f.wordBytes)

theorem length_flatMap_wordBytesOf (size : Nat) (words : List UInt32) :
    (words.flatMap (wordBytesOf size)).length = words.length * size := by
  simp [List.length_flatMap, Nat.mul_comm]

/-- A section in front is read, and the reader goes on behind it. -/
theorem readSections_sectionBytes {s : ObjectSection} (h : f.Holds s) (rest : List UInt8) :
    f.readSections (f.sectionBytes s ++ rest) = (f.readSections rest).map (s :: ·) := by
  obtain ⟨start, words⟩ := s
  have address : wordOfBytes (wordBytesOf 4 start) = start :=
    wordOfBytes_wordBytesOf (by decide) start.toNat_lt
  have length : (UInt32.ofNat words.length).toNat = words.length :=
    UInt32.toNat_ofNat_of_lt h.length
  have header : wordOfBytes (wordBytesOf 4 (UInt32.ofNat words.length)) =
      UInt32.ofNat words.length :=
    wordOfBytes_wordBytesOf (by decide) (UInt32.ofNat words.length).toNat_lt
  have body := length_flatMap_wordBytesOf f.wordBytes words
  have split : f.sectionBytes ⟨start, words⟩ ++ rest = wordBytesOf 4 start ++
      (wordBytesOf 4 (UInt32.ofNat words.length) ++
        (words.flatMap (wordBytesOf f.wordBytes) ++ rest)) := by
    simp [sectionBytes]
  have first : (f.sectionBytes ⟨start, words⟩ ++ rest).take 4 = wordBytesOf 4 start := by
    rw [split, List.take_left' (length_wordBytesOf 4 start)]
  have second : ((f.sectionBytes ⟨start, words⟩ ++ rest).drop 4).take 4 =
      wordBytesOf 4 (UInt32.ofNat words.length) := by
    rw [split, List.drop_left' (length_wordBytesOf 4 start),
      List.take_left' (length_wordBytesOf 4 _)]
  have behind : (f.sectionBytes ⟨start, words⟩ ++ rest).drop 8 =
      words.flatMap (wordBytesOf f.wordBytes) ++ rest := by
    rw [split, ← List.append_assoc, List.drop_left' (by simp)]
  have long : 8 ≤ (f.sectionBytes ⟨start, words⟩ ++ rest).length := by
    rw [split]
    simp only [List.length_append, length_wordBytesOf]
    omega
  rw [readSections, if_neg (by rw [List.isEmpty_iff_length_eq_zero]; omega), if_neg (by omega),
    first, second, behind, address, header, length]
  simp only
  rw [if_neg (by rw [List.length_append, body]; omega), wordsFrom_flatMap f.le_four h.words,
    List.drop_left' body]

theorem readSections_of_holds {sections : List ObjectSection} (h : ∀ s ∈ sections, f.Holds s) :
    f.readSections (sections.flatMap f.sectionBytes) = some sections := by
  induction sections with
  | nil =>
      rw [readSections]
      rfl
  | cons s sections ih =>
      obtain ⟨first, others⟩ := List.forall_mem_cons.1 h
      rw [List.flatMap_cons, readSections_sectionBytes first, ih others]
      rfl

theorem holds_of_readSections {sections : List ObjectSection}
    (h : f.readSections bytes = some sections) :
    (∀ s ∈ sections, f.Holds s) ∧ sections.flatMap f.sectionBytes = bytes := by
  fun_induction readSections f bytes generalizing sections with
  | case1 bytes empty =>
      cases h
      simpa using (List.isEmpty_iff.1 empty).symm
  | case2 => cases h
  | case3 => cases h
  | case4 bytes _ long start count body enough words =>
      rename_i ih
      obtain ⟨later, read, rfl⟩ := Option.map_eq_some_iff.1 h
      obtain ⟨others, written⟩ := ih read
      have front : (bytes.take 4).length = 4 := by
        rw [List.length_take]
        omega
      have header : ((bytes.drop 4).take 4).length = 4 := by
        rw [List.length_take, List.length_drop]
        omega
      have length : words.length = count := length_wordsFrom _ _ _
      have holds : f.Holds ⟨start, words⟩ :=
        ⟨length ▸ UInt32.toNat_lt _, fun w => toNat_lt_of_mem_wordsFrom f.le_four⟩
      refine ⟨List.forall_mem_cons.2 ⟨holds, others⟩, ?_⟩
      have address : wordBytesOf 4 start = bytes.take 4 :=
        wordBytesOf_wordOfBytes (by decide) front
      have announced : wordBytesOf 4 (UInt32.ofNat words.length) = (bytes.drop 4).take 4 := by
        rw [length, UInt32.ofNat_toNat]
        exact wordBytesOf_wordOfBytes (by decide) header
      have inside : words.flatMap (wordBytesOf f.wordBytes) = body.take (count * f.wordBytes) :=
        flatMap_wordsFrom f.le_four (Nat.not_lt.1 enough)
      calc
        (⟨start, words⟩ :: later).flatMap f.sectionBytes
          = bytes.take 4 ++ ((bytes.drop 4).take 4 ++
              (body.take (count * f.wordBytes) ++ body.drop (count * f.wordBytes))) := by
            rw [List.flatMap_cons, written, sectionBytes, address, announced, inside]
            simp only [List.append_assoc]
        _ = bytes.take 4 ++ ((bytes.drop 4).take 4 ++ (bytes.drop 4).drop 4) := by
            rw [List.take_append_drop, List.drop_drop]
        _ = bytes := by rw [List.take_append_drop, List.take_append_drop]

/-- The bytes of an object are read as that object, and bytes that are read are the bytes of what is
    read; all other bytes are refused. Symbols are not kept, nor is what does not fit. -/
theorem read?_exact (f : BinaryFormat) (bytes : List UInt8) :
    (∀ o : Object, f.read? bytes = some o ↔
      o.symbols = .empty ∧ (∀ s ∈ o.sections, f.Holds s) ∧ f.write o = bytes) ∧
    (f.read? bytes = none ↔
      ∀ o : Object, (∀ s ∈ o.sections, f.Holds s) → f.write o ≠ bytes) := by
  have reads : ∀ sections, f.readSections bytes = some sections ↔
      (∀ s ∈ sections, f.Holds s) ∧ sections.flatMap f.sectionBytes = bytes :=
    fun sections => ⟨holds_of_readSections, fun h => h.2 ▸ readSections_of_holds h.1⟩
  constructor
  · rintro ⟨symbols, sections⟩
    simp only [read?, write, Option.map_eq_some_iff, reads, Object.mk.injEq]
    constructor
    · rintro ⟨_, read, rfl, rfl⟩
      exact ⟨rfl, read⟩
    · rintro ⟨rfl, read⟩
      exact ⟨sections, read, rfl, rfl⟩
  · rw [read?, Option.map_eq_none_iff, Option.eq_none_iff_forall_ne_some]
    constructor
    · intro refused o held written
      exact refused o.sections ((reads _).2 ⟨held, written⟩)
    · intro refused sections read
      obtain ⟨held, written⟩ := (reads _).1 read
      exact refused ⟨.empty, sections⟩ held written

end Assembler.BinaryFormat
