import Assembler.Proofs.Lexical.Lexemes

/-! # What is known of every token of a source

A token is a lexeme that maximal munch has cut off a line, so it is no longer than the source, and a
punctuation token is one of the characters that the dialect takes for punctuation. The scanner cuts
tokens off the characters that it holds, of which the recognisers have read no more.
-/

namespace Assembler

namespace Scanner

variable {classes : List TokenClass} {p : Nat} {s : Scanner}

/-- Neither the token to be cut off nor one that is cut off behind it is longer than the pending
    characters. -/
inductive CutsFit : Scanner → Prop where
  | intro {s : Scanner} (inside : (cut s.recognizers).1 ≤ s.pending.length)
      (behind : ∀ len kind, cut s.recognizers = (len + 1, kind) → CutsFit (s.rest (len + 1) kind)) :
      CutsFit s

/-- The scanner that `feedChar` cuts tokens off: it has read a character and done nothing else. -/
def extend (s : Scanner) (c : Char) : Scanner :=
  { s with
    recognizers := s.recognizers.map (·.feed c)
    pending := s.pending ++ [c]
    pendingCol := if s.pending.isEmpty then s.col else s.pendingCol
    col := s.col + 1 }

/-- A scanner that may end its line or read any character. -/
structure Steady (s : Scanner) : Prop where
  endLine : s.CutsFit
  feedChar : ∀ c, (s.extend c).CutsFit

/-- A scanner that is steady also behind a carriage return that it has held back. -/
structure Ready (s : Scanner) : Prop where
  plain : { s with afterReturn := false }.Steady
  held : ∀ s', feedChar { s with afterReturn := false } '\r' = .ok () s' → s'.Steady

/-- A scanner is ready for every character of an input and for its end. -/
def ScanFits (s : Scanner) : List Char → Prop
  | [] => s.Ready
  | c :: cs => s.Ready ∧ ∀ s', s.feed c = .ok () s' → s'.ScanFits cs

theorem cutsFit_of_readers (h : s.recognizers = Munch.readers classes s.pending) : s.CutsFit := by
  induction size : s.pending.length using Nat.strongRecOn generalizing s with
  | _ bound ih =>
      have inside : (cut s.recognizers).1 ≤ s.pending.length := by
        rw [Munch.cut_eq, h]
        exact Munch.greatest_readers_le _
      refine .intro inside fun len kind found => ?_
      rw [found] at inside
      have shorter : (s.rest (len + 1) kind).pending.length < bound := by
        simp only [rest, List.length_drop]
        omega
      exact ih _ shorter (readers_rest h _ _) rfl

theorem Aligned.steady (h : Aligned classes p s) : s.Steady where
  endLine := cutsFit_of_readers h.recognizers
  feedChar c := cutsFit_of_readers (h.feed c).recognizers

theorem Aligned.ready (h : Aligned classes p s) : s.Ready := by
  have released := h.setAfterReturn false
  refine ⟨released.steady, fun s' fed => ?_⟩
  have kept := feedChar_spec released '\r'
  rw [fed] at kept
  obtain ⟨p', aligned, -⟩ := kept
  exact aligned.steady

theorem Aligned.scanFits (h : Aligned classes p s) (input : List Char) : s.ScanFits input := by
  induction input generalizing p s with
  | nil => exact h.ready
  | cons c cs ih =>
      refine ⟨h.ready, fun s' fed => ?_⟩
      have kept := keeps_feed h c
      rw [fed] at kept
      obtain ⟨p', aligned, -⟩ := kept
      exact ih aligned

theorem scanFits_ofClasses (classes : List TokenClass) (input : List Char) :
    (ofClasses classes).ScanFits input :=
  Aligned.scanFits (p := 0) ⟨rfl, rfl, by simp [ofClasses]⟩ input

end Scanner

namespace Recognizer

theorem symbol_of_feedAll {set text : List Char} {c : Char}
    (h : ((fresh (.symbol set)).feedAll text).kind? = some (.symbol c)) : c ∈ set := by
  cases text with
  | nil => cases h
  | cons d text =>
      have step : (fresh (.symbol set)).feed d = if d ∈ set
          then ⟨.symbol set, some d, 1, 1, false⟩ else ⟨.symbol set, none, 1, 0, false⟩ := by
        by_cases known : d ∈ set <;>
          simp [feed, fresh, TokenClass.automaton, Automaton.symbol, known]
      have dead : ((fresh (.symbol set)).feed d).alive = false := by
        rw [step]
        split <;> rfl
      have done : (fresh (.symbol set)).feedAll (d :: text) = (fresh (.symbol set)).feed d :=
        feedAll_of_dead dead text
      rw [done, step] at h
      split at h
      · next known =>
          cases h
          exact known
      · cases h

end Recognizer

namespace Munch

variable {classes : List TokenClass} {lexeme rest : List Char}

theorem symbol_of_cuts {c : Char} (h : Cuts classes lexeme (some (.symbol c)) rest) :
    ∃ set, .symbol set ∈ classes ∧ c ∈ set := by
  obtain ⟨r, member, -, kind⟩ := exists_of_kindOf h.kind
  obtain ⟨k, known, rfl⟩ := List.mem_map.1 member
  obtain ⟨s, same⟩ := Recognizer.exists_kind?_feedAll k (lexeme ++ rest)
  cases k with
  | symbol set => exact ⟨set, known, Recognizer.symbol_of_feedAll kind⟩
  | register sigils named =>
      rw [same] at kind
      cases s <;> cases kind
  | _ =>
      rw [same] at kind
      cases kind

theorem length_le_of_splitLines (text : List Char) :
    ∀ line ∈ (splitLines text).1 :: (splitLines text).2, line.length ≤ text.length := by
  induction text with
  | nil => simp [splitLines]
  | cons c text ih =>
      obtain ⟨first, others⟩ := List.forall_mem_cons.1 ih
      rw [List.length_cons]
      have behind : ∀ line ∈ (splitLines text).2, line.length ≤ text.length + 1 :=
        fun line member => Nat.le_succ_of_le (others line member)
      by_cases newline : c = '\n'
      · subst newline
        rw [splitLines_newline]
        exact List.forall_mem_cons.2 ⟨Nat.zero_le _,
          List.forall_mem_cons.2 ⟨Nat.le_succ_of_le first, behind⟩⟩
      · by_cases return' : c = '\r' ∧ text.head? = some '\n'
        · obtain ⟨rfl, next⟩ := return'
          obtain ⟨more, rfl⟩ := List.head?_eq_some_iff.1 next
          rw [splitLines_return_newline]
          exact List.forall_mem_cons.2 ⟨Nat.le_succ_of_le first, behind⟩
        · rw [splitLines_char newline fun same next => return' ⟨same, next⟩]
          exact List.forall_mem_cons.2 ⟨Nat.succ_le_succ first, behind⟩

end Munch

/-- What is known of the tokens of a source that is scanned. -/
structure Token.Of (cfg : LexConfig) (bound : Nat) (token : Token) : Prop where
  short : token.text.length ≤ bound
  symbol : ∀ c, token.kind = .symbol c → c ∈ cfg.symbols

theorem scan_tokens {cfg : LexConfig} {source : String} {lines : List Line}
    (h : scan cfg source = .ok lines) :
    ∀ line ∈ lines, ∀ token ∈ line.tokens, token.Of cfg source.length := by
  have scanned : Munch.scan cfg.classes source.toList = .ok lines :=
    (Scanner.run_ofClasses cfg.classes source.toList).symm.trans h
  intro line member token listed
  obtain ⟨i, text, -, known, -, cut⟩ := Munch.exists_of_mem_scanLines scanned line member
  obtain ⟨before, lexeme, rest, split, cuts, spelled, -⟩ :=
    Munch.cuts_of_mem_tokens cut token listed
  have whole := Munch.length_le_of_splitLines source.toList text (List.mem_of_getElem? known)
  rw [String.length_toList] at whole
  refine ⟨?_, ?_⟩
  · rw [split, List.length_append, List.length_append] at whole
    rw [spelled, String.length_ofList]
    omega
  · intro c kind
    rw [kind] at cuts
    obtain ⟨set, class', listed⟩ := Munch.symbol_of_cuts cuts
    simp only [LexConfig.classes, List.mem_cons, TokenClass.symbol.injEq, reduceCtorEq,
      List.not_mem_nil, or_false, false_or] at class'
    exact class' ▸ listed

end Assembler
