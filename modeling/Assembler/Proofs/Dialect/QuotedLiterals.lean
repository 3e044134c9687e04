import Assembler.Dialect.Leaf
import Assembler.Isa.Lc3
import Assembler.Proofs.Lexical.Layout
import Assembler.Proofs.Lexical.Recognition
import Assembler.Proofs.Text.Literals

/-! # Quoted literals decode

Escapes are known in three places: to the automata that look for the closing quote, to decoding and
to printing. What keeps the three in step is the unit of a literal, a plain character or a backslash
with whatever stands behind it. An automaton cannot close a literal inside a unit, each unit decodes
to one character, and each character of a string is printed as one unit.
-/

open Computability

namespace Assembler

open Pattern

namespace TokenClass

/-- Read from its beginning, the text is a token of the class as a whole. -/
def Accepts (k : TokenClass) (text : List Char) : Prop :=
  text ≠ [] ∧ ((Recognizer.fresh k).feedAll text).accepted = text.length

instance (k : TokenClass) : DecidablePred k.Accepts :=
  fun _ => inferInstanceAs (Decidable (_ ∧ _))

variable {k : TokenClass} {text front : List Char}

theorem accepts_iff_mem : k.Accepts text ↔ text ∈ k.pattern := by
  have longest := Recognizer.longest_feedAll k text
  constructor
  · rintro ⟨filled, whole⟩
    rw [whole] at longest
    exact longest.mem filled
  · intro token
    obtain ⟨residual, recognizes⟩ := k.exists_recognizes
    refine ⟨?_, longest.unique (Longest.of_mem token)⟩
    rintro rfl
    exact recognizes.solid token

/-- A token that no character can extend is found whatever follows it. -/
theorem Accepts.feedAll_append (closes : ∀ s c s', k.automaton.move s c ≠ .accepts s')
    (h : k.Accepts text) (rest : List Char) :
    (Recognizer.fresh k).feedAll (text ++ rest) = (Recognizer.fresh k).feedAll text := by
  have found : ((Recognizer.fresh k).feedAll text).accepted ≠ 0 := by
    rw [h.2]
    simpa using h.1
  have dead := Recognizer.dead_of_accepted closes found
  rw [Recognizer.feedAll_append, Recognizer.feedAll_of_dead dead]

theorem Accepts.eq_of_prefix (closes : ∀ s c s', k.automaton.move s c ≠ .accepts s')
    (whole : k.Accepts text) (part : k.Accepts front) (begins : front <+: text) :
    front = text := by
  apply begins.eq_of_length
  obtain ⟨rest, rfl⟩ := begins
  rw [← whole.2, ← part.2, part.feedAll_append closes rest]

end TokenClass

theorem mem_quotedUnit_iff {quote : Char} {unit : List Char} : unit ∈ quotedUnit quote ↔
    (∃ c, c ≠ quote ∧ c ≠ '\\' ∧ unit = [c]) ∨ ∃ c, unit = ['\\', c] := by
  constructor
  · rintro (⟨c, sort, rfl⟩ | escaped)
    · have plain : c ≠ quote ∧ c ≠ '\\' := by simpa using sort
      exact .inl ⟨c, plain.1, plain.2, rfl⟩
    · obtain ⟨_, ⟨b, same, rfl⟩, _, ⟨c, -, rfl⟩, rfl⟩ := Language.mem_mul.1 escaped
      rw [beq_iff_eq] at same
      subst same
      exact .inr ⟨c, rfl⟩
  · rintro (⟨c, quote, backslash, rfl⟩ | ⟨c, rfl⟩)
    · exact .inl ⟨c, by simp [quote, backslash], rfl⟩
    · exact .inr (Language.mem_mul.2 ⟨['\\'], ⟨'\\', rfl, rfl⟩, [c], ⟨c, rfl, rfl⟩, rfl⟩)

namespace Text

/-! ### Decoding a unit -/

theorem exists_unescape_backslash (c : Char) :
    ∃ d, ∀ rest, unescape ('\\' :: c :: rest) = d :: unescape rest := by
  by_cases newline : c = 'n'
  · subst newline
    exact ⟨'\n', fun rest => by rw [unescape]⟩
  by_cases return' : c = 'r'
  · subst return'
    exact ⟨'\r', fun rest => by rw [unescape]⟩
  by_cases tab : c = 't'
  · subst tab
    exact ⟨'\t', fun rest => by rw [unescape]⟩
  exact ⟨c, fun rest => by rw [unescape] <;> assumption⟩

/-- A unit decodes to one character, whatever follows it. -/
theorem exists_unescape_unit {quote : Char} {unit : List Char} (h : unit ∈ quotedUnit quote) :
    ∃ c, ∀ rest, unescape (unit ++ rest) = c :: unescape rest := by
  rcases mem_quotedUnit_iff.1 h with ⟨c, -, plain, rfl⟩ | ⟨c, rfl⟩
  · exact ⟨c, unescape_cons plain⟩
  · exact exists_unescape_backslash c

theorem dropQuotes_mem_quotedUnit {text : List Char} (h : text ∈ TokenClass.char.pattern) :
    dropQuotes text ∈ quotedUnit '\'' := by
  obtain ⟨_, before, _, ⟨_, _, rfl⟩, rfl⟩ := Language.mem_mul.1 h
  obtain ⟨_, ⟨_, _, rfl⟩, unit, inside, rfl⟩ := Language.mem_mul.1 before
  simpa [dropQuotes] using inside

/-! ### Printing in units -/

theorem escapeChar_mem_quotedUnit (c : Char) : escapeChar c ∈ quotedUnit '"' := by
  rw [mem_quotedUnit_iff]
  rcases escapeChar_cases c with ⟨spelled, -, -, backslash, quote⟩ | ⟨e, spelled, -⟩
  · exact .inl ⟨c, quote, backslash, spelled⟩
  · exact .inr ⟨e, spelled⟩

theorem accepts_stringLiteral (text : List Char) :
    TokenClass.string.Accepts (stringLiteral text) := by
  have units : text.flatMap escapeChar ∈ (quotedUnit '"')∗ := by
    rw [List.flatMap_def]
    refine Language.join_mem_kstar fun unit member => ?_
    obtain ⟨c, -, rfl⟩ := List.mem_map.1 member
    exact escapeChar_mem_quotedUnit c
  have quote : ['"'] ∈ lit '"' := ⟨'"', rfl, rfl⟩
  rw [TokenClass.accepts_iff_mem]
  exact Language.append_mem_mul (Language.append_mem_mul quote units) quote

theorem unbroken_stringLiteral (text : List Char) : Munch.Unbroken (stringLiteral text) := by
  have quote : ('"' : Char) ≠ '\n' ∧ ('"' : Char) ≠ '\r' := by decide
  intro c member
  simp only [stringLiteral, List.cons_append, List.mem_cons, List.mem_append, List.mem_flatMap,
    List.not_mem_nil, or_false] at member
  rcases member with rfl | ⟨d, -, spelled⟩ | rfl
  · exact quote
  · rcases escapeChar_cases d with ⟨same, newline, return', -⟩ | ⟨e, same, newline, return', -⟩
    · rw [same, List.mem_singleton] at spelled
      exact spelled ▸ ⟨newline, return'⟩
    · simp only [same, List.mem_cons, List.not_mem_nil, or_false] at spelled
      rcases spelled with rfl | rfl
      · decide
      · exact ⟨newline, return'⟩
  · exact quote

end Text

/-- A leaf whose text is a character token decodes to the code point of exactly one character. A
    printed string has no line break, is a string token that begins with no other one, and decodes
    to the string. -/
theorem literals_decode :
    (∀ (isa : Isa) (leaf : Tree), leaf.symbol = TokenKind.char.name →
      TokenClass.char.Accepts leaf.text.toList →
      ∃ c, Text.unescape (Text.dropQuotes leaf.text.toList) = [c] ∧
        leaf.operand isa = .ok (.integer c.toNat)) ∧
    ∀ text : String,
      let printed := (Operand.string text).render.toList
      '\n' ∉ printed ∧ '\r' ∉ printed ∧
      TokenClass.string.Accepts printed ∧
      (∀ front, front <+: printed → front ≠ printed → ¬TokenClass.string.Accepts front) ∧
      Text.unescape (Text.dropQuotes printed) = text.toList := by
  constructor
  · intro isa leaf kind token
    have unit := Text.dropQuotes_mem_quotedUnit (TokenClass.accepts_iff_mem.1 token)
    obtain ⟨c, decodes⟩ := Text.exists_unescape_unit unit
    have single : Text.unescape (Text.dropQuotes leaf.text.toList) = [c] := by
      simpa [Text.unescape] using decodes []
    refine ⟨c, single, ?_⟩
    rw [Tree.operand, kind]
    simp only [TokenKind.name, Tree.charOperand, single]
  · intro text printed
    have spelled : printed = Text.stringLiteral text.toList := String.toList_ofList
    have whole := Text.accepts_stringLiteral text.toList
    have unbroken := Text.unbroken_stringLiteral text.toList
    rw [spelled]
    refine ⟨fun member => (unbroken _ member).1 rfl, fun member => (unbroken _ member).2 rfl,
      whole, ?_, ?_⟩
    · intro front begins proper part
      have closes := Automaton.stringMove_ne_accepts
      exact proper (whole.eq_of_prefix (k := .string) closes part begins)
    · rw [Text.dropQuotes_stringLiteral, Text.unescape_escape]

/-- A quote behind a backslash is a character, and a quote behind three ends no string. -/
theorem literals_decode_quote :
    (∃ c : Char, Text.unescape (Text.dropQuotes "'\\''".toList) = [c] ∧
      Tree.operand Lc3.isa ⟨"char", "'\\''", 1, 1, []⟩ = .ok (.integer c.toNat)) ∧
    ¬TokenClass.string.Accepts ['"', '\\', '\\', '\\', '"'] := by
  obtain ⟨chars, strings⟩ := literals_decode
  constructor
  · exact chars Lc3.isa ⟨"char", "'\\''", 1, 1, []⟩ rfl (by decide +kernel)
  · obtain ⟨-, -, -, proper, -⟩ := strings "\\\""
    exact proper _ (by decide +kernel) (by decide +kernel)

end Assembler
