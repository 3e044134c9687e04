import Assembler.Proofs.Lexical.Tokens

/-! # Places in a source

The lines of a source are counted from 1, and so are the characters of a line. The scanner counts
both as it goes, and tokens and errors stand where it says.
-/

namespace Assembler

/-- The lines of a source without their line breaks. -/
def sourceLines (source : String) : List (List Char) :=
  (Munch.splitLines source.toList).1 :: (Munch.splitLines source.toList).2

theorem scan_eq_scanLines (cfg : LexConfig) (source : String) :
    scan cfg source = Munch.scanLines cfg.classes 1 (sourceLines source) :=
  Scanner.run_ofClasses cfg.classes source.toList

/-- A line and a column at which a text stands in a source. -/
def StandsAt (source : String) (line col : Nat) (text : List Char) : Prop :=
  ∃ i before after, line = i + 1 ∧ col = before.length + 1 ∧
    (sourceLines source)[i]? = some (before ++ (text ++ after))

/-- The number of a line that is not empty. -/
def HasLine (source : String) (n : Nat) : Prop :=
  ∃ i text, n = i + 1 ∧ (sourceLines source)[i]? = some text ∧ text ≠ []

variable {cfg : LexConfig} {source : String}

theorem HasLine.bounds {n : Nat} (h : HasLine source n) :
    1 ≤ n ∧ n ≤ (sourceLines source).length ∧ (sourceLines source)[n - 1]? ≠ some [] := by
  obtain ⟨i, text, rfl, known, filled⟩ := h
  have inside := (List.getElem?_eq_some_iff.1 known).1
  refine ⟨by omega, by omega, ?_⟩
  simpa [known] using filled

theorem StandsAt.hasLine {line col : Nat} {text : List Char} (h : StandsAt source line col text)
    (filled : text ≠ []) : HasLine source line := by
  obtain ⟨i, before, after, rfl, -, known⟩ := h
  exact ⟨i, _, rfl, known, by simp [filled]⟩

theorem scan_eq_error {e : LexError} (h : scan cfg source = .error e) :
    StandsAt source e.line e.col [e.char] := by
  rw [scan_eq_scanLines] at h
  obtain ⟨i, text, known, failed⟩ := Munch.scanLines_eq_error h
  obtain ⟨before, after, rfl, line, col⟩ := Munch.tokens_eq_error failed
  exact ⟨i, before, after, by omega, by omega, known⟩

/-- A line of tokens of a source. -/
structure Line.Of (cfg : LexConfig) (source : String) (line : Line) : Prop where
  hasLine : HasLine source line.number
  tokens : ∀ token ∈ line.tokens, token.Of cfg source.length
  standsAt : ∀ token ∈ line.tokens, StandsAt source line.number token.col token.text.toList

/-- The scanner counts lines and columns as they stand in the source. -/
theorem scan_lines {lines : List Line} (h : scan cfg source = .ok lines) :
    ∀ line ∈ lines, line.Of cfg source := by
  intro line member
  have tokens := scan_tokens h line member
  rw [scan_eq_scanLines] at h
  obtain ⟨i, text, number, known, filled, cut⟩ := Munch.exists_of_mem_scanLines h line member
  refine ⟨⟨i, text, by omega, known, ?_⟩, tokens, ?_⟩
  · rintro rfl
    rw [Munch.tokens] at cut
    exact filled (Except.ok.inj cut).symm
  · intro token listed
    obtain ⟨before, lexeme, rest, rfl, -, spelled, col⟩ := Munch.cuts_of_mem_tokens cut token listed
    refine ⟨i, before, rest, by omega, by omega, ?_⟩
    rw [known, spelled, String.toList_ofList]

end Assembler
