import Assembler.Proofs.Lexical.Places
import Assembler.Proofs.Lexical.Recognition

/-! # What words are made of

Whatever is cut off a line is a token of one of the classes. Only one class has words, so the words
of a source are identifiers: no character of them ends a line or separates two tokens.
-/

namespace Assembler

open Pattern

variable {extra : List Char}

theorem isWordChar_of_start {c : Char} (h : isWordStart extra c = true) :
    isWordChar extra c = true := by
  simp only [isWordStart, isWordChar, Char.isAlphanum, Bool.or_eq_true] at h ⊢
  tauto

theorem cons_mem_identifier {c : Char} {cs : List Char} : c :: cs ∈ identifier extra ↔
    isWordStart extra c = true ∧ ∀ d ∈ cs, isWordChar extra d = true := by
  have letter : (c.isAlpha || c == '_' || extra.contains c) = isWordStart extra c := rfl
  have letters : (fun d : Char => d.isAlpha || d.isDigit || d == '_' || extra.contains d) =
      isWordChar extra := rfl
  rw [identifier, ← mem_after, after_mul nil_notMem_one, after_one, letter, letters]
  split
  · next start => rw [one_mul, mem_kstar_one, and_iff_right start]
  · next other => simp [other]

theorem isWordChar_of_mem_identifier {text : List Char} (h : text ∈ identifier extra) :
    text ≠ [] ∧ ∀ c ∈ text, isWordChar extra c = true := by
  cases text with
  | nil => simp [identifier] at h
  | cons c cs =>
      obtain ⟨start, later⟩ := cons_mem_identifier.1 h
      exact ⟨List.cons_ne_nil c cs, List.forall_mem_cons.2 ⟨isWordChar_of_start start, later⟩⟩

namespace Munch

variable {lexeme rest : List Char}

theorem exists_pattern_of_cuts {classes : List TokenClass} {kind : TokenKind}
    (h : Cuts classes lexeme (some kind) rest) :
    ∃ k ∈ classes, lexeme ∈ k.pattern ∧ ∃ s, k.automaton.kind? s = some kind := by
  obtain ⟨r, member, accepted, found⟩ := exists_of_kindOf h.kind
  obtain ⟨k, known, rfl⟩ := List.mem_map.1 member
  obtain ⟨s, same⟩ := Recognizer.exists_kind?_feedAll k (lexeme ++ rest)
  have longest := Recognizer.longest_feedAll k (lexeme ++ rest)
  rw [accepted] at longest
  refine ⟨k, known, ?_, s, same ▸ found⟩
  rcases longest.1 with empty | ⟨token, listed, front, size⟩
  · exact absurd (List.length_eq_zero_iff.1 empty) h.filled
  · rwa [List.prefix_iff_eq_take.1 front, size, List.take_left] at listed

theorem mem_identifier_of_cuts {cfg : LexConfig} (h : Cuts cfg.classes lexeme (some .word) rest) :
    lexeme ∈ identifier cfg.extraWordChars := by
  obtain ⟨k, known, token, s, kind⟩ := exists_pattern_of_cuts h
  simp only [LexConfig.classes, List.mem_cons, List.not_mem_nil, or_false] at known
  rcases known with rfl | rfl | rfl | rfl | rfl | rfl | rfl | rfl | rfl
  -- all classes but symbols and words have one kind, which is another
  any_goals cases kind
  · cases s <;> cases kind
  · exact token

end Munch

section Scanned

variable {cfg : LexConfig} {source : String} {lines : List Line}

theorem exists_cuts_of_scan (h : scan cfg source = .ok lines) : ∀ line ∈ lines,
    ∀ token ∈ line.tokens, ∃ lexeme rest,
      Munch.Cuts cfg.classes lexeme (some token.kind) rest ∧ token.text = String.ofList lexeme := by
  intro line member token listed
  rw [scan_eq_scanLines] at h
  obtain ⟨i, text, -, -, -, cut⟩ := Munch.exists_of_mem_scanLines h line member
  obtain ⟨before, lexeme, rest, -, cuts, spelled, -⟩ := Munch.cuts_of_mem_tokens cut token listed
  exact ⟨lexeme, rest, cuts, spelled⟩

theorem text_ne_empty_of_scan (h : scan cfg source = .ok lines) : ∀ line ∈ lines,
    ∀ token ∈ line.tokens, token.text ≠ "" := by
  intro line member token listed
  obtain ⟨lexeme, rest, cuts, spelled⟩ := exists_cuts_of_scan h line member token listed
  rw [spelled, ne_eq, String.ofList_eq_empty_iff]
  exact cuts.filled

theorem mem_identifier_of_scan (h : scan cfg source = .ok lines) : ∀ line ∈ lines,
    ∀ token ∈ line.tokens, token.kind = .word →
      token.text.toList ∈ identifier cfg.extraWordChars := by
  intro line member token listed kind
  obtain ⟨lexeme, rest, cuts, spelled⟩ := exists_cuts_of_scan h line member token listed
  rw [kind] at cuts
  rw [spelled, String.toList_ofList]
  exact Munch.mem_identifier_of_cuts cuts

end Scanned

end Assembler
