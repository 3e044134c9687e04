import Assembler.Grammar.Bnf
import Assembler.Proofs.Lexical.Lexemes
import Mathlib.Data.List.TakeWhile

/-! # The tokens of grammar text

The tokens of a text are the longest texts of the token patterns, one behind the other, with blanks
and comments left out. Tokens that are written with gaps between them are read back whatever the
gaps, since no pattern goes on over the beginning of a gap.
-/

namespace Assembler.Bnf

/-- The patterns of the tokens: which texts a token has. -/
inductive Lexeme : BnfToken → List Char → Prop where
  | name {c : Char} {tail : List Char} (start : isWordStart [] c = true)
      (inside : ∀ d ∈ tail, isWordChar [] d = true) :
      Lexeme (.name (String.ofList (c :: tail))) (c :: tail)
  | quoted {body : List Char} (filled : body ≠ []) (inside : ∀ d ∈ body, isQuotable d = true) :
      Lexeme (.quoted (String.ofList body)) ('\'' :: (body ++ ['\'']))
  | empty : Lexeme .empty ['%', 'e', 'm', 'p', 't', 'y']
  | arrow : Lexeme .arrow ['-', '>']
  | bar : Lexeme .bar ['|']
  | semicolon : Lexeme .semicolon [';']

/-- A token that can be written. -/
def Writable (token : BnfToken) : Prop := ∃ text, Lexeme token text

/-- The pattern of what is left out: blanks, or a comment up to the end of its line. -/
inductive Skipped : List Char → Prop where
  | blanks {text : List Char} (filled : text ≠ []) (inside : ∀ c ∈ text, isSpace c = true) :
      Skipped text
  | comment {body : List Char} (inside : '\n' ∉ body) : Skipped ('#' :: body)

/-- A text of one of the patterns. -/
def Declared (text : List Char) : Prop := Skipped text ∨ ∃ token, Lexeme token text

/-- No text of a pattern that stands at the beginning is longer than this one. -/
def Longest (front text : List Char) : Prop :=
  ∀ other, Declared other → other <+: text → other.length ≤ front.length

/-- The tokens of a text that starts at a byte position, if the longest text of a pattern is taken
    each time. Where no pattern fits, the tokens end. -/
inductive Lexes : (pos : Nat) → List Char → List LocatedToken → Prop where
  | done {pos : Nat} : Lexes pos [] []
  | skip {pos : Nat} {front text : List Char} {found : List LocatedToken}
      (skipped : Skipped front) (longest : Longest front (front ++ text))
      (behind : Lexes (pos + byteLength front) text found) : Lexes pos (front ++ text) found
  | token {pos : Nat} {token : BnfToken} {front text : List Char} {found : List LocatedToken}
      (lexeme : Lexeme token front) (longest : Longest front (front ++ text))
      (behind : Lexes (pos + byteLength front) text found) :
      Lexes pos (front ++ text) (⟨pos, some token⟩ :: found)
  | stuck {pos : Nat} {text : List Char} (filled : text ≠ [])
      (nowhere : ∀ front, Declared front → ¬ front <+: text) : Lexes pos text [⟨pos, none⟩]

/-- What may stand between two tokens: blanks, and comments with the line feeds that end them. -/
inductive Gap : List Char → Prop where
  | nil : Gap []
  | blank {c : Char} {gap : List Char} (blank : isSpace c = true) (behind : Gap gap) :
      Gap (c :: gap)
  | comment {body gap : List Char} (inside : '\n' ∉ body) (behind : Gap gap) :
      Gap ('#' :: (body ++ '\n' :: gap))

/-- Tokens with a gap between any two of them, and perhaps one behind the last. -/
inductive Spaced : List BnfToken → List Char → Prop where
  | nil : Spaced [] []
  | cons {token : BnfToken} {tokens : List BnfToken} {front gap text : List Char}
      (lexeme : Lexeme token front) (apart : Gap gap) (filled : tokens ≠ [] → gap ≠ [])
      (behind : Spaced tokens text) : Spaced (token :: tokens) (front ++ (gap ++ text))

/-- A text in which tokens are written. -/
inductive LaidOut (tokens : List BnfToken) : List Char → Prop where
  | intro {gap body : List Char} (apart : Gap gap) (spaced : Spaced tokens body) :
      LaidOut tokens (gap ++ body)

section Patterns

variable {c : Char} {cs tail rest : List Char} {token : BnfToken} {n : Nat}

theorem length_le_takeWhile {α : Type} {p : α → Bool} {front text : List α} (h : front <+: text)
    (inside : ∀ a ∈ front, p a = true) : front.length ≤ (text.takeWhile p).length := by
  obtain ⟨rest, rfl⟩ := h
  rw [List.takeWhile_append_of_pos inside, List.length_append]
  omega

theorem token?_name (start : isWordStart [] c = true) (cs : List Char) :
    token? c cs = some (.name (String.ofList (c :: cs.takeWhile (isWordChar []))),
      (cs.takeWhile (isWordChar [])).length) :=
  if_pos start

/-- A text of a pattern is found where it stands. Only a name can go on behind it. -/
theorem token?_of_lexeme (h : Lexeme token (c :: tail))
    (boundary : isWordStart [] c = true → ∀ d ∈ rest.head?, isWordChar [] d = false) :
    token? c (tail ++ rest) = some (token, tail.length) := by
  cases h with
  | name start inside => rw [token?_name start, takeWhile_run inside (boundary start)]
  | @quoted body filled inside =>
      have taken : (body ++ '\'' :: rest).takeWhile isQuotable = body :=
        takeWhile_run inside (by simp [isQuotable])
      have other : isWordStart [] '\'' = false := rfl
      simp [token?, other, taken, filled]
  | empty | arrow | bar | semicolon => rfl

theorem lexeme_of_token? (h : token? c cs = some (token, n)) :
    ∃ tail rest, cs = tail ++ rest ∧ tail.length = n ∧ Lexeme token (c :: tail) := by
  unfold token? at h
  split at h
  · next start =>
      cases h
      refine ⟨_, _, List.takeWhile_append_dropWhile.symm, rfl, ?_⟩
      exact .name start fun d => List.mem_takeWhile_imp
  split at h
  · next quote =>
      subst quote
      simp only [Option.ite_none_right_eq_some] at h
      obtain ⟨closed, h⟩ := h
      cases h
      simp only [Bool.and_eq_true, Bool.not_eq_true', List.isEmpty_eq_false_iff,
        beq_iff_eq] at closed
      obtain ⟨filled, closed⟩ := closed
      obtain ⟨rest, behind⟩ := List.head?_eq_some_iff.1 closed
      have whole : cs = cs.takeWhile isQuotable ++ '\'' :: rest := by
        rw [← behind]
        exact (List.prefix_iff_eq_append.1 (List.takeWhile_prefix isQuotable)).symm
      refine ⟨cs.takeWhile isQuotable ++ ['\''], rest, by simpa using whole, by simp, ?_⟩
      exact .quoted filled fun d => List.mem_takeWhile_imp
  split at h
  · next mark =>
      obtain ⟨rfl, front⟩ := mark
      obtain ⟨rest, rfl⟩ := List.isPrefixOf_iff_prefix.1 front
      cases h
      exact ⟨_, rest, rfl, rfl, .empty⟩
  split at h
  · next mark =>
      obtain ⟨rfl, front⟩ := mark
      obtain ⟨rest, rfl⟩ := List.head?_eq_some_iff.1 front
      cases h
      exact ⟨['>'], rest, rfl, rfl, .arrow⟩
  split at h
  · next mark =>
      subst mark
      cases h
      exact ⟨[], cs, rfl, rfl, .bar⟩
  split at h
  · next mark =>
      subst mark
      cases h
      exact ⟨[], cs, rfl, rfl, .semicolon⟩
  · cases h

theorem token?_of_isPrefix (h : Lexeme token (c :: tail)) (front : tail <+: cs) :
    ∃ found n, token? c cs = some (found, n) ∧ tail.length ≤ n := by
  cases start : isWordStart [] c with
  | true =>
      refine ⟨_, _, token?_name start cs, ?_⟩
      cases h with
      | name _ inside => exact length_le_takeWhile front inside
      | quoted | empty | arrow | bar | semicolon => cases start
  | false =>
      obtain ⟨rest, rfl⟩ := front
      exact ⟨_, _, token?_of_lexeme h (by simp [start]), Nat.le_refl _⟩

theorem isSpace_cases (blank : isSpace c = true) : c = ' ' ∨ c = '\t' ∨ c = '\r' ∨ c = '\n' := by
  simpa [isSpace, or_assoc] using blank

theorem token?_of_skipped (h : isSpace c = true ∨ c = '#') : token? c cs = none := by
  rcases h.imp_left isSpace_cases with (rfl | rfl | rfl | rfl) | rfl <;> rfl

theorem Lexeme.exists_cons {text : List Char} (h : Lexeme token text) :
    ∃ c tail, text = c :: tail := by
  cases h <;> exact ⟨_, _, rfl⟩

theorem Skipped.exists_cons {text : List Char} (h : Skipped text) :
    ∃ c tail, text = c :: tail ∧ (isSpace c = true ∨ c = '#') := by
  cases h with
  | blanks filled inside =>
      obtain ⟨c, tail, rfl⟩ := List.exists_cons_of_ne_nil filled
      exact ⟨c, tail, rfl, .inl (inside c List.mem_cons_self)⟩
  | comment inside => exact ⟨_, _, rfl, .inr rfl⟩

theorem Declared.cases {front : List Char} (h : Declared front) (begins : front <+: c :: cs) :
    ∃ tail, front = c :: tail ∧ tail <+: cs ∧
      (Skipped (c :: tail) ∧ token? c cs = none ∨
        ∃ token n, token? c cs = some (token, n) ∧ tail.length ≤ n) := by
  rcases h with skipped | ⟨token, lexeme⟩
  · obtain ⟨d, tail, rfl, left⟩ := skipped.exists_cons
    obtain ⟨rfl, behind⟩ := List.cons_prefix_cons.1 begins
    exact ⟨tail, rfl, behind, .inl ⟨skipped, token?_of_skipped left⟩⟩
  · obtain ⟨d, tail, rfl⟩ := lexeme.exists_cons
    obtain ⟨rfl, behind⟩ := List.cons_prefix_cons.1 begins
    exact ⟨tail, rfl, behind, .inr (token?_of_isPrefix lexeme behind)⟩

theorem longest_of_token? (h : token? c cs = some (token, tail.length)) :
    Longest (c :: tail) (c :: cs) := by
  intro other declared begins
  obtain ⟨tail', rfl, -, ⟨-, nothing⟩ | ⟨token', m, found, longer⟩⟩ := declared.cases begins
  · cases h.symm.trans nothing
  · cases h.symm.trans found
    simpa using longer

theorem Longest.boundary (longest : Longest (c :: tail) (c :: tail ++ rest))
    (lexeme : Lexeme token (c :: tail)) (start : isWordStart [] c = true) (d : Char)
    (next : d ∈ rest.head?) : isWordChar [] d = false := by
  obtain ⟨rest, rfl⟩ := List.head?_eq_some_iff.1 next
  by_contra more
  rw [Bool.not_eq_false] at more
  have inside : ∀ e ∈ tail ++ [d], isWordChar [] e = true := by
    cases lexeme with
    | name _ inside => exact List.forall_mem_append.2 ⟨inside, by simpa using more⟩
    | quoted | empty | arrow | bar | semicolon => cases start
  have bound := longest (c :: (tail ++ [d])) (.inr ⟨_, .name start inside⟩) (by simp)
  simp only [List.length_cons, List.length_append, List.length_nil] at bound
  omega

end Patterns

section Walk

variable {pos n : Nat} {c : Char} {cs front gap text rest : List Char} {token : BnfToken}
  {tokens : List BnfToken} {found : List LocatedToken}

/-! ### The tokens of a text -/

theorem tokensFrom_nil : tokensFrom pos [] = [] := by
  rw [tokensFrom]

theorem tokensFrom_blank (blank : isSpace c = true) :
    tokensFrom pos (c :: cs) = tokensFrom (pos + byteLength [c]) cs := by
  have single : c.utf8Size = 1 := by
    rcases isSpace_cases blank with rfl | rfl | rfl | rfl <;> rfl
  rw [tokensFrom, if_pos blank]
  simp [byteLength, single]

theorem tokensFrom_blanks (inside : ∀ c ∈ front, isSpace c = true) :
    tokensFrom pos (front ++ rest) = tokensFrom (pos + byteLength front) rest := by
  induction front generalizing pos with
  | nil => rfl
  | cons c front ih =>
      obtain ⟨blank, inside⟩ := List.forall_mem_cons.1 inside
      rw [List.cons_append, tokensFrom_blank blank, ih inside]
      simp [byteLength, Nat.add_assoc]

theorem tokensFrom_comment {body : List Char} (inside : '\n' ∉ body)
    (boundary : ∀ d ∈ rest.head?, d = '\n') :
    tokensFrom pos ('#' :: (body ++ rest)) = tokensFrom (pos + byteLength ('#' :: body)) rest := by
  have taken : (body ++ rest).takeWhile (· != '\n') = body := by
    refine takeWhile_run (fun d member => ?_) fun d next => by simp [boundary d next]
    simpa using ne_of_mem_of_not_mem member inside
  have sharp : isSpace '#' = false := rfl
  rw [tokensFrom]
  simp only [sharp, taken, List.drop_left]
  rw [Nat.add_assoc]
  rfl

theorem tokensFrom_token (h : token? c (front ++ rest) = some (token, front.length)) :
    tokensFrom pos (c :: (front ++ rest)) =
      ⟨pos, some token⟩ :: tokensFrom (pos + byteLength (c :: front)) rest := by
  have other : ¬ (isSpace c = true ∨ c = '#') := by
    intro left
    cases (token?_of_skipped left).symm.trans h
  rw [not_or] at other
  rw [tokensFrom, if_neg other.1, if_neg other.2, h]
  simp

theorem tokensFrom_stuck (solid : ¬ (isSpace c = true ∨ c = '#')) (h : token? c cs = none) :
    tokensFrom pos (c :: cs) = [⟨pos, none⟩] := by
  rw [not_or] at solid
  rw [tokensFrom, if_neg solid.1, if_neg solid.2, h]

/-! ### The longest text each time -/

theorem tokensFrom_skipped (skipped : Skipped front) (longest : Longest front (front ++ rest)) :
    tokensFrom pos (front ++ rest) = tokensFrom (pos + byteLength front) rest := by
  cases skipped with
  | blanks filled inside => exact tokensFrom_blanks inside
  | @comment body inside =>
      refine tokensFrom_comment inside fun d next => ?_
      obtain ⟨rest, rfl⟩ := List.head?_eq_some_iff.1 next
      by_contra more
      have longer : Skipped ('#' :: (body ++ [d])) := .comment (by simp [inside, Ne.symm more])
      have bound := longest _ (.inl longer) (by simp)
      simp only [List.length_cons, List.length_append, List.length_nil] at bound
      omega

theorem tokensFrom_lexeme (lexeme : Lexeme token front)
    (longest : Longest front (front ++ rest)) :
    tokensFrom pos (front ++ rest) =
      ⟨pos, some token⟩ :: tokensFrom (pos + byteLength front) rest := by
  obtain ⟨c, tail, rfl⟩ := lexeme.exists_cons
  exact tokensFrom_token (token?_of_lexeme lexeme (longest.boundary lexeme))

theorem exists_skipped (left : isSpace c = true ∨ c = '#') (cs : List Char) :
    ∃ tail rest, cs = tail ++ rest ∧ Skipped (c :: tail) ∧ Longest (c :: tail) (c :: cs) := by
  have silent : ∀ {token n}, token? c cs ≠ some (token, n) := by
    simp [token?_of_skipped left]
  rcases left with blank | rfl
  · refine ⟨_, _, (List.takeWhile_append_dropWhile (p := isSpace)).symm, .blanks (by simp) ?_, ?_⟩
    · exact List.forall_mem_cons.2 ⟨blank, fun d => List.mem_takeWhile_imp⟩
    · intro other declared begins
      obtain ⟨tail, rfl, behind, ⟨skipped, -⟩ | ⟨_, _, found, -⟩⟩ := declared.cases begins
      · cases skipped with
        | blanks _ inside =>
            simpa using length_le_takeWhile behind (List.forall_mem_cons.1 inside).2
        | comment => cases blank
      · exact (silent found).elim
  · refine ⟨_, _, (List.takeWhile_append_dropWhile (p := (· != '\n'))).symm, .comment ?_, ?_⟩
    · intro member
      simpa using List.mem_takeWhile_imp member
    · intro other declared begins
      obtain ⟨tail, rfl, behind, ⟨skipped, -⟩ | ⟨_, _, found, -⟩⟩ := declared.cases begins
      · cases skipped with
        | blanks _ inside => cases (List.forall_mem_cons.1 inside).1
        | comment inside =>
            have line : ∀ d ∈ tail, (d != '\n') = true := by
              intro d member
              simpa using ne_of_mem_of_not_mem member inside
            simpa using length_le_takeWhile behind line
      · exact (silent found).elim

theorem lexes_tokensFrom (pos : Nat) (text : List Char) : Lexes pos text (tokensFrom pos text) := by
  -- a blank text is skipped as a whole, so the rest is shorter by more than one character
  induction size : text.length using Nat.strong_induction_on generalizing pos text with
  | _ size' ih =>
      subst size
      cases text with
      | nil => exact tokensFrom_nil ▸ .done
      | cons c cs =>
          have shorter : ∀ tail rest : List Char, rest.length < (c :: (tail ++ rest)).length := by
            intro tail rest
            rw [List.length_cons, List.length_append]
            omega
          by_cases left : isSpace c = true ∨ c = '#'
          · obtain ⟨tail, rest, rfl, skipped, longest⟩ := exists_skipped left cs
            rw [← List.cons_append, tokensFrom_skipped skipped longest]
            exact .skip skipped longest (ih _ (shorter tail rest) _ rest rfl)
          · cases found : token? c cs with
            | none =>
                rw [tokensFrom_stuck left found]
                refine .stuck (by simp) fun front declared begins => ?_
                obtain ⟨tail, rfl, -, ⟨skipped, -⟩ | ⟨_, _, other, -⟩⟩ := declared.cases begins
                · obtain ⟨_, _, same, blank⟩ := skipped.exists_cons
                  cases same
                  exact left blank
                · cases found.symm.trans other
            | some result =>
                obtain ⟨token, n⟩ := result
                obtain ⟨tail, rest, rfl, rfl, lexeme⟩ := lexeme_of_token? found
                rw [tokensFrom_token found]
                exact .token lexeme (longest_of_token? found) (ih _ (shorter tail rest) _ rest rfl)

/-- The tokens of a text are its longest texts of a pattern, one behind the other. -/
theorem lexes_iff : Lexes pos text found ↔ tokensFrom pos text = found := by
  constructor
  · intro h
    induction h with
    | done => exact tokensFrom_nil
    | skip skipped longest _ ih => rw [tokensFrom_skipped skipped longest, ih]
    | token lexeme longest _ ih => rw [tokensFrom_lexeme lexeme longest, ih]
    | @stuck pos text filled nowhere =>
        obtain ⟨c, cs, rfl⟩ := List.exists_cons_of_ne_nil filled
        have solid : ¬ (isSpace c = true ∨ c = '#') := by
          intro left
          obtain ⟨tail, rest, rfl, skipped, -⟩ := exists_skipped left cs
          exact nowhere _ (.inl skipped) (by simp)
        refine tokensFrom_stuck solid (Option.eq_none_iff_forall_ne_some.2 ?_)
        rintro ⟨token, n⟩ found
        obtain ⟨tail, rest, rfl, -, lexeme⟩ := lexeme_of_token? found
        exact nowhere _ (.inr ⟨token, lexeme⟩) (by simp)
  · rintro rfl
    exact lexes_tokensFrom pos text

/-! ### Tokens with gaps between them -/

theorem tokensFrom_gap (apart : Gap gap) (pos : Nat) (rest : List Char) :
    ∃ next, tokensFrom pos (gap ++ rest) = tokensFrom next rest := by
  induction apart generalizing pos with
  | nil => exact ⟨pos, rfl⟩
  | blank blank _ ih =>
      rw [List.cons_append, tokensFrom_blank blank]
      exact ih _
  | @comment body gap inside _ ih =>
      obtain ⟨next, read⟩ := ih (pos + byteLength ('#' :: body) + byteLength ['\n'])
      refine ⟨next, ?_⟩
      rw [← read, ← tokensFrom_blank rfl, ← tokensFrom_comment inside (by simp)]
      simp

theorem Gap.boundary (apart : Gap gap) (next : c ∈ gap.head?) : isWordChar [] c = false := by
  cases apart with
  | nil => cases next
  | blank blank _ =>
      cases next
      rcases isSpace_cases blank with rfl | rfl | rfl | rfl <;> rfl
  | comment =>
      cases next
      rfl

/-- The tokens are found again, whatever stands in the gaps. -/
theorem Spaced.tokensFrom (spaced : Spaced tokens text) (pos : Nat) :
    (tokensFrom pos text).map (·.token?) = tokens.map some := by
  induction spaced generalizing pos with
  | nil => rw [tokensFrom_nil]; rfl
  | @cons token tokens front gap text lexeme apart filled behind ih =>
      obtain ⟨c, tail, rfl⟩ := lexeme.exists_cons
      have boundary : ∀ d ∈ (gap ++ text).head?, isWordChar [] d = false := by
        intro d next
        cases gap with
        | cons e gap => exact apart.boundary next
        | nil =>
            cases behind with
            | nil => cases next
            | cons => exact absurd rfl (filled (by simp))
      obtain ⟨next, read⟩ := tokensFrom_gap apart (pos + byteLength (c :: tail)) text
      rw [List.cons_append, tokensFrom_token (token?_of_lexeme lexeme fun _ => boundary), read]
      simp [ih]

theorem LaidOut.tokensFrom (laid : LaidOut tokens text) (pos : Nat) :
    (tokensFrom pos text).map (·.token?) = tokens.map some := by
  cases laid with
  | intro apart spaced =>
      obtain ⟨next, read⟩ := tokensFrom_gap apart pos _
      rw [read, spaced.tokensFrom]

theorem exists_laidOut (h : ∀ token ∈ tokens, Writable token) : ∃ text, LaidOut tokens text := by
  have spaced : ∃ text, Spaced tokens text := by
    induction tokens with
    | nil => exact ⟨[], .nil⟩
    | cons token tokens ih =>
        obtain ⟨⟨front, lexeme⟩, others⟩ := List.forall_mem_cons.1 h
        obtain ⟨text, behind⟩ := ih others
        exact ⟨_, .cons lexeme (.blank (c := ' ') rfl .nil) (by simp) behind⟩
  obtain ⟨text, spaced⟩ := spaced
  exact ⟨_, .intro .nil spaced⟩

end Walk

end Assembler.Bnf
