import Assembler.Proofs.Lexical.Layout

/-! # What becomes of a lexical error

An error leaves the scanner at a character that starts no token, with what has been read behind it.
Inside a line no recogniser could go on there, and the error is final. At the end of a line one of
them may still be reading, as behind a quote that is not closed. The line break is then lost on it,
and the error lasts until it has found its token on a later line.
-/

namespace Assembler

namespace Munch

variable {classes : List TokenClass} {c : Char} {cs text : List Char}

/-- The lines of a text without the breaks between them. -/
def joined (text : List Char) : List Char :=
  (splitLines text).1 ++ (splitLines text).2.flatten

theorem joined_newline (cs : List Char) : joined ('\n' :: cs) = joined cs := by
  simp [joined, splitLines_newline]

theorem joined_return_newline (cs : List Char) : joined ('\r' :: '\n' :: cs) = joined cs := by
  rw [joined, splitLines_return_newline, ← joined, joined_newline]

theorem joined_char (inside : c ≠ '\n') (ordinary : c = '\r' → cs.head? ≠ some '\n') :
    joined (c :: cs) = c :: joined cs := by
  simp [joined, splitLines_char inside ordinary]

theorem greatest_eq_zero {rs : List Recognizer} : greatest rs = 0 ↔ ∀ r ∈ rs, r.accepted = 0 := by
  constructor
  · intro nothing r member
    exact Nat.le_zero.1 (nothing ▸ le_greatest member)
  · intro nothing
    exact Nat.le_zero.1 (greatest_le fun r member => Nat.le_of_eq (nothing r member))

/-- A token that has been found is not lost by reading on. -/
theorem greatest_readers_append (found : greatest (readers classes text) ≠ 0) (more : List Char) :
    greatest (readers classes (text ++ more)) ≠ 0 := by
  intro nothing
  refine found (greatest_eq_zero.2 fun r member => ?_)
  obtain ⟨k, known, rfl⟩ := List.mem_map.1 member
  have lost := greatest_eq_zero.1 nothing _ (List.mem_map.2 ⟨k, known, rfl⟩)
  rw [Recognizer.feedAll_append] at lost
  have kept := Recognizer.accepted_feedAll_cases ((Recognizer.fresh k).feedAll text) more
  omega

end Munch

namespace Scanner

/-- The scanner that an operation leaves, whether it fails or not. -/
def left : Result → Scanner
  | .ok () s => s
  | .error _ s => s

/-- The scanner after characters that are fed to it past all errors. -/
def readOn (s : Scanner) (cs : List Char) : Scanner :=
  cs.foldl (fun s c => left (s.feed c)) s

/-- What stands at the first pending character if an input is still to come and all its line breaks
    are lost. -/
def ahead (s : Scanner) (input : List Char) : List Char :=
  s.pending ++ Munch.joined (s.held ++ input)

/-- The error that an operation ends with. -/
def error? : Result → Option LexError
  | .ok () _ => none
  | .error e _ => some e

theorem eq_error_of_error? {result : Result} {e : LexError} (h : error? result = some e) :
    result = .error e (left result) := by
  cases result <;> cases h
  rfl

variable {classes : List TokenClass} {line line' p p' : Nat} {s : Scanner} {e : LexError} {c : Char}
  {result : Result} {text : List Char → List Char}

/-- The scanner is at the character that an error names: it is the first of those pending. -/
structure Holding (classes : List TokenClass) (p : Nat) (e : LexError) (s : Scanner) : Prop where
  aligned : Aligned classes p s
  pending : ∃ behind, s.pending = e.char :: behind
  line : e.line = s.lineNumber
  col : e.col = p + 1

theorem Holding.setAfterReturn (h : Holding classes p e s) (after : Bool) :
    Holding classes p e { s with afterReturn := after } :=
  ⟨h.aligned.setAfterReturn after, h.pending, h.line, h.col⟩

/-- A place of the text, or one behind it. -/
def NoEarlier (line p line' p' : Nat) : Prop :=
  line < line' ∨ line = line' ∧ p ≤ p'

theorem NoEarlier.trans {line'' p'' : Nat} (h : NoEarlier line p line' p')
    (h' : NoEarlier line' p' line'' p'') : NoEarlier line p line'' p'' := by
  unfold NoEarlier at *
  omega

/-- A scanner that is in good order, at a place or behind it. -/
def Reached (classes : List TokenClass) (line p : Nat) (s : Scanner) : Prop :=
  ∃ p', Aligned classes p' s ∧ NoEarlier line p s.lineNumber p'

/-- An operation that goes on from a place. If it fails, the scanner is where its error says, and no
    recogniser has found anything there. -/
def Reaches (classes : List TokenClass) (line p : Nat) : Result → Prop
  | .ok () s => Reached classes line p s
  | .error e s => ∃ p', Holding classes p' e s ∧ NoEarlier line p s.lineNumber p' ∧
      Munch.greatest s.recognizers = 0

theorem Reaches.trans (before : NoEarlier line p line' p') (h : Reaches classes line' p' result) :
    Reaches classes line p result := by
  cases result with
  | ok _ s =>
      obtain ⟨p'', aligned, later⟩ := h
      exact ⟨p'', aligned, before.trans later⟩
  | error e s =>
      obtain ⟨p'', holding, later, nothing⟩ := h
      exact ⟨p'', holding, before.trans later, nothing⟩

theorem Reaches.reached (h : Reaches classes line p result) :
    Reached classes line p (left result) := by
  cases result with
  | ok _ s => exact h
  | error e s =>
      obtain ⟨p', holding, later, -⟩ := h
      exact ⟨p', holding.aligned, later⟩

/-! ### Going on from a place -/

/-- The first token is cut off, unless there is something to wait for. -/
theorem munch_of_pending {cs : List Char} (atEnd : Bool) (pending : s.pending = c :: cs) :
    munch atEnd s =
      if !atEnd && s.recognizers.any (·.alive) then .ok () s
      else match Munch.greatest s.recognizers with
        | 0 => .error ⟨c, s.lineNumber, s.pendingCol⟩ s
        | n + 1 => munch atEnd (s.rest (n + 1) (Munch.kindOf s.recognizers (n + 1))) := by
  rw [munch]
  split
  · next empty => simp [pending] at empty
  · next d ds filled =>
      rw [pending] at filled
      cases filled
      rw [Munch.cut_eq]
      split
      · rfl
      · cases Munch.greatest s.recognizers <;> rfl

theorem munch_reaches (atEnd : Bool) (h : Aligned classes p s) :
    Reaches classes s.lineNumber p (munch atEnd s) := by
  fun_induction munch atEnd s generalizing p with
  | case1 s empty => exact ⟨p, h.reset empty, .inr ⟨rfl, Nat.le_refl p⟩⟩
  | case2 s c cs pending wait => exact ⟨p, h, .inr ⟨rfl, Nat.le_refl p⟩⟩
  | case3 s c cs pending go kind nothing =>
      rw [Munch.cut_eq, Prod.mk.injEq] at nothing
      have col := h.pendingCol (by simp [pending])
      exact ⟨p, ⟨h, ⟨cs, pending⟩, rfl, col⟩, .inr ⟨rfl, Nat.le_refl p⟩, nothing.1⟩
  | case4 s c cs pending go n kind len ih =>
      rw [Munch.cut_eq, Prod.mk.injEq] at len
      exact (ih (h.rest len.1 kind)).trans (.inr ⟨rfl, Nat.le_add_right p (n + 1)⟩)

theorem feedChar_reaches (h : Aligned classes p s) (c : Char) :
    Reaches classes s.lineNumber p (s.feedChar c) :=
  munch_reaches false (h.feed c)

theorem endLine_reaches_of_munch (h : Aligned classes p s) (before : line ≤ s.lineNumber)
    (munched : Reaches classes line p' (munch true s)) : Reaches classes line p' s.endLine := by
  have ended := endLine_spec h
  unfold endLine at ended ⊢
  cases result : munch true s with
  | error e s' =>
      rw [result] at munched
      exact munched
  | ok _ s' =>
      rw [result] at ended
      obtain ⟨found, -, aligned, -, -, -, number, -⟩ := ended
      exact ⟨0, aligned, .inl (number ▸ Nat.lt_succ_of_le before)⟩

theorem endLine_reaches (h : Aligned classes p s) : Reaches classes s.lineNumber p s.endLine :=
  endLine_reaches_of_munch h (Nat.le_refl s.lineNumber) (munch_reaches true h)

theorem feedPlain_reaches (h : Aligned classes p s) (c : Char) :
    Reaches classes s.lineNumber p (s.feedPlain c) := by
  unfold feedPlain
  split
  · exact endLine_reaches h
  · split
    · exact ⟨p, h.setAfterReturn true, .inr ⟨rfl, Nat.le_refl p⟩⟩
    · exact feedChar_reaches h c

theorem Reaches.andThen {next : Scanner → Result}
    (goes : ∀ s p', Aligned classes p' s → Reaches classes s.lineNumber p' (next s)) :
    Reaches classes line p result → Reaches classes line p (match result with
      | .error e s => .error e s
      | .ok () s => next s) := by
  intro h
  cases result with
  | error e s => exact h
  | ok _ s =>
      obtain ⟨p', aligned, later⟩ := h
      exact (goes s p' aligned).trans later

theorem feed_reaches (h : Aligned classes p s) (c : Char) :
    Reaches classes s.lineNumber p (s.feed c) := by
  have released := h.setAfterReturn false
  unfold feed
  split
  · dsimp only
    split
    · exact endLine_reaches released
    · exact (feedChar_reaches released '\r').andThen fun _ _ aligned => feedPlain_reaches aligned c
  · exact feedPlain_reaches h c

theorem Reached.readOn (h : Reached classes line p s) (cs : List Char) :
    Reached classes line p (s.readOn cs) := by
  induction cs generalizing s with
  | nil => exact h
  | cons c cs ih =>
      obtain ⟨p', aligned, later⟩ := h
      exact ih ((feed_reaches aligned c).trans later).reached

theorem close_reaches (h : Aligned classes p s) : Reaches classes s.lineNumber p s.close := by
  unfold close
  split
  · have released := h.setAfterReturn false
    exact (feedChar_reaches released '\r').andThen fun _ _ => endLine_reaches
  · exact endLine_reaches h

/-- Behind the place of an error it is not found again. -/
theorem Reaches.ne_error {s' : Scanner} (h : Reaches classes e.line e.col result) :
    result ≠ .error e s' := by
  rintro rfl
  obtain ⟨p', holding, later, -⟩ := h
  have line := holding.line
  have col := holding.col
  unfold NoEarlier at later
  omega

theorem Reached.finish_ne (h : Reached classes e.line e.col s) : s.finish ≠ .error e := by
  obtain ⟨p', aligned, later⟩ := h
  have closed := (close_reaches aligned).trans later
  unfold finish
  cases result : s.close with
  | error e' s' =>
      intro same
      cases same
      exact closed.ne_error result
  | ok _ s' => simp

/-! ### What a failed operation leaves -/

theorem afterReturn_munch (atEnd : Bool) (s : Scanner) :
    (left (munch atEnd s)).afterReturn = s.afterReturn := by
  fun_induction munch atEnd s with
  | case1 | case2 | case3 => rfl
  | case4 s c cs pending go n kind len ih => exact ih

theorem afterReturn_feedChar (s : Scanner) (c : Char) :
    (left (s.feedChar c)).afterReturn = s.afterReturn :=
  afterReturn_munch false (s.extend c)

theorem afterReturn_endLine (s : Scanner) : (left s.endLine).afterReturn = s.afterReturn := by
  have munched := afterReturn_munch true s
  unfold endLine
  cases result : munch true s <;> rwa [result] at munched

theorem munch_dead {s' : Scanner} (failed : munch false s = .error e s') :
    s'.recognizers.any (·.alive) = false := by
  generalize inside : false = atEnd at failed
  fun_induction munch atEnd s with
  | case1 | case2 => cases failed
  | case3 s c cs pending go =>
      subst inside
      cases failed
      simpa using go
  | case4 s c cs pending go n kind len ih => exact ih failed

theorem feedPlain_error {s' : Scanner} (plain : s.afterReturn = false)
    (failed : s.feedPlain c = .error e s') :
    s'.afterReturn = false ∧ (c ≠ '\n' → s'.recognizers.any (·.alive) = false) := by
  unfold feedPlain at failed
  split at failed
  · next newline =>
      have same := afterReturn_endLine s
      rw [failed] at same
      exact ⟨same.trans plain, fun inside => absurd newline inside⟩
  · split at failed
    · cases failed
    · have same := afterReturn_feedChar s c
      rw [failed] at same
      exact ⟨same.trans plain, fun _ => munch_dead failed⟩

theorem feed_error {s' : Scanner} (failed : s.feed c = .error e s') :
    s'.afterReturn = false ∧ (c ≠ '\n' → s'.recognizers.any (·.alive) = false) := by
  unfold feed at failed
  split at failed
  · dsimp only at failed
    split at failed
    · next newline =>
        have same := afterReturn_endLine { s with afterReturn := false }
        rw [failed] at same
        exact ⟨same, fun inside => absurd newline inside⟩
    · have same := afterReturn_feedChar { s with afterReturn := false } '\r'
      cases result : feedChar { s with afterReturn := false } '\r' with
      | error e' left =>
          rw [result] at failed same
          cases failed
          exact ⟨same, fun _ => munch_dead result⟩
      | ok _ left =>
          rw [result] at failed same
          exact feedPlain_error same failed
  · next plain => exact feedPlain_error (by simpa using plain) failed

/-! ### Staying at the place of an error -/

/-- An operation leaves the scanner at the place of an error with this text ahead, or a token is
    found in the text and the scanner goes on behind it. -/
def Settles (classes : List TokenClass) (e : LexError) (text : List Char → List Char)
    (result : Result) : Prop :=
  (∃ p, Holding classes p e (left result) ∧ ∀ input,
      Munch.readers classes ((left result).ahead input) = Munch.readers classes (text input)) ∨
    Reaches classes e.line e.col result ∧
      ∀ input, Munch.greatest (Munch.readers classes (text input)) ≠ 0

theorem Settles.congr {text' : List Char → List Char} (h : Settles classes e text result)
    (same : ∀ input, Munch.readers classes (text input) = Munch.readers classes (text' input)) :
    Settles classes e text' result := by
  simpa only [Settles, same] using h

theorem Holding.munch_cases (h : Holding classes p e s) (atEnd : Bool) :
    (munch atEnd s = .ok () s ∧ atEnd = false) ∨
      (munch atEnd s = .error e s ∧ Munch.greatest s.recognizers = 0) ∨
      Reaches classes e.line e.col (munch atEnd s) ∧ Munch.greatest s.recognizers ≠ 0 := by
  obtain ⟨cs, pending⟩ := h.pending
  rw [munch_of_pending atEnd pending]
  split
  · next wait => exact .inl ⟨rfl, by simp_all⟩
  · cases len : Munch.greatest s.recognizers with
    | zero =>
        have same : e = ⟨e.char, s.lineNumber, s.pendingCol⟩ := by
          rw [h.aligned.pendingCol (by simp [pending]), ← h.col, ← h.line]
        exact .inr (.inl ⟨by rw [← same], rfl⟩)
    | succ n =>
        have next := munch_reaches atEnd (h.aligned.rest len (Munch.kindOf s.recognizers (n + 1)))
        have behind : NoEarlier e.line e.col s.lineNumber (p + (n + 1)) :=
          .inr ⟨h.line, by rw [h.col]; omega⟩
        exact .inr (.inr ⟨next.trans behind, Nat.succ_ne_zero n⟩)

theorem ahead_of_plain (plain : s.afterReturn = false) (input : List Char) :
    s.ahead input = s.pending ++ Munch.joined input := by
  simp [ahead, held, plain]

theorem Holding.settles_feedChar (h : Holding classes p e s) (plain : s.afterReturn = false)
    (c : Char) :
    Settles classes e (fun input => s.pending ++ c :: Munch.joined input) (s.feedChar c) := by
  obtain ⟨cs, pending⟩ := h.pending
  have read : Holding classes p e (s.extend c) :=
    ⟨h.aligned.feed c, ⟨cs ++ [c], by simp [extend, pending]⟩, h.line, h.col⟩
  have still : (s.extend c).afterReturn = false := plain
  have same : ∀ input, (s.extend c).ahead input = s.pending ++ c :: Munch.joined input := by
    intro input
    rw [ahead_of_plain still, extend, List.append_assoc, List.singleton_append]
  have fed : s.feedChar c = munch false (s.extend c) := rfl
  rcases read.munch_cases false with ⟨waits, -⟩ | ⟨fails, -⟩ | ⟨reaches, found⟩
  · rw [fed, waits]
    exact .inl ⟨p, read, fun input => congrArg _ (same input)⟩
  · rw [fed, fails]
    exact .inl ⟨p, read, fun input => congrArg _ (same input)⟩
  · refine .inr ⟨reaches, fun input => ?_⟩
    rw [read.aligned.recognizers] at found
    have kept := Munch.greatest_readers_append found (Munch.joined input)
    rwa [← ahead_of_plain still, same] at kept

theorem Holding.endLine_cases (h : Holding classes p e s) :
    (s.endLine = .error e s ∧ Munch.greatest s.recognizers = 0) ∨
      Reaches classes e.line e.col s.endLine ∧ Munch.greatest s.recognizers ≠ 0 := by
  rcases h.munch_cases true with ⟨-, wait⟩ | ⟨fails, nothing⟩ | ⟨reaches, found⟩
  · cases wait
  · exact .inl ⟨by rw [endLine, fails], nothing⟩
  · exact .inr ⟨endLine_reaches_of_munch h.aligned (Nat.le_of_eq h.line) reaches, found⟩

theorem Holding.settles_endLine (h : Holding classes p e s) (plain : s.afterReturn = false) :
    Settles classes e (fun input => s.pending ++ Munch.joined input) s.endLine := by
  rcases h.endLine_cases with ⟨fails, -⟩ | ⟨reaches, found⟩
  · rw [fails]
    exact .inl ⟨p, h, fun input => congrArg _ (ahead_of_plain plain input)⟩
  · rw [h.aligned.recognizers] at found
    exact .inr ⟨reaches, fun input => Munch.greatest_readers_append found (Munch.joined input)⟩

theorem Holding.settles_feedPlain (h : Holding classes p e s) (plain : s.afterReturn = false)
    (c : Char) : Settles classes e (fun input => s.ahead (c :: input)) (s.feedPlain c) := by
  simp only [ahead_of_plain plain]
  unfold feedPlain
  split
  · next newline =>
      subst newline
      simp only [Munch.joined_newline]
      exact h.settles_endLine plain
  · next inside =>
      split
      · next carriage =>
          subst carriage
          exact .inl ⟨p, h.setAfterReturn true, fun _ => rfl⟩
      · next ordinary =>
          simp only [Munch.joined_char inside fun clash => absurd clash ordinary]
          exact h.settles_feedChar plain c

theorem readers_of_dead (h : Aligned classes p s) (dead : s.recognizers.any (·.alive) = false)
    (more : List Char) : Munch.readers classes (s.pending ++ more) = s.recognizers := by
  rw [h.recognizers] at dead ⊢
  exact Munch.readers_append_of_dead dead more

theorem Holding.settles_feed (h : Holding classes p e s) (c : Char) :
    Settles classes e (fun input => s.ahead (c :: input)) (s.feed c) := by
  unfold feed
  split
  · next after =>
      have released := h.setAfterReturn false
      have text : ∀ input, s.ahead (c :: input) =
          s.pending ++ Munch.joined ('\r' :: c :: input) := by
        simp [ahead, held, after]
      dsimp only
      split
      · next newline =>
          subst newline
          simp only [text, Munch.joined_return_newline]
          exact released.settles_endLine rfl
      · next inside =>
          have text : ∀ input, s.ahead (c :: input) =
              s.pending ++ '\r' :: Munch.joined (c :: input) := by
            intro input
            rw [text, Munch.joined_char (by decide) fun _ => by simpa using inside]
          simp only [text]
          have fed := released.settles_feedChar rfl '\r'
          have still := afterReturn_feedChar { s with afterReturn := false } '\r'
          cases result : feedChar { s with afterReturn := false } '\r' with
          | error e' s' =>
              -- no recogniser reads on, so it does not matter that the character is not fed
              rw [result] at fed
              rcases fed with ⟨p', holding, same⟩ | ⟨reaches, found⟩
              · have dead := readers_of_dead holding.aligned (munch_dead result)
                refine .inl ⟨p', holding, fun input => ?_⟩
                exact (dead _).trans ((dead _).symm.trans (same (c :: input)))
              · exact .inr ⟨reaches, fun input => found (c :: input)⟩
          | ok _ s' =>
              rw [result] at fed still
              rcases fed with ⟨p', holding, same⟩ | ⟨reaches, found⟩
              · exact (holding.settles_feedPlain still c).congr fun input => same (c :: input)
              · obtain ⟨p', aligned, later⟩ := reaches
                exact .inr ⟨(feedPlain_reaches aligned c).trans later,
                  fun input => found (c :: input)⟩
  · next plain => exact h.settles_feedPlain (by simpa using plain) c

theorem Holding.unique {e' : LexError} (h : Holding classes p e s) (h' : Holding classes p' e' s) :
    e' = e := by
  obtain ⟨cs, pending⟩ := h.pending
  obtain ⟨cs', pending'⟩ := h'.pending
  have place := h.aligned.col.symm.trans h'.aligned.col
  have line := h.line.trans h'.line.symm
  have col := h.col
  have col' := h'.col
  rw [pending, List.cons.injEq] at pending'
  cases e
  cases e'
  simp_all

theorem Holding.finish_of_plain (h : Holding classes p e s) (plain : s.afterReturn = false) :
    s.finish = .error e ↔ Munch.greatest (Munch.readers classes (s.ahead [])) = 0 := by
  have closes : s.close = s.endLine := by simp [close, plain]
  have all : s.ahead [] = s.pending := by
    simp [ahead_of_plain plain, Munch.joined, Munch.splitLines]
  rw [all, ← h.aligned.recognizers]
  rcases h.endLine_cases with ⟨fails, nothing⟩ | ⟨reaches, found⟩
  · simp [finish, closes, fails, nothing]
  · refine iff_of_false (fun failed => ?_) found
    simp only [finish, closes] at failed
    cases result : s.endLine with
    | error e' s' =>
        rw [result] at failed
        cases failed
        exact reaches.ne_error result
    | ok _ s' =>
        rw [result] at failed
        cases failed

/-- The error is found again at the end of the input, unless a token has been found there. -/
theorem Holding.finish_iff (h : Holding classes p e s) :
    s.finish = .error e ↔ Munch.greatest (Munch.readers classes (s.ahead [])) = 0 := by
  cases after : s.afterReturn with
  | false => exact h.finish_of_plain after
  | true =>
      have released := h.setAfterReturn false
      have fed := released.settles_feedChar rfl '\r'
      have reaches := feedChar_reaches released.aligned '\r'
      have still := afterReturn_feedChar { s with afterReturn := false } '\r'
      have text : s.ahead [] = s.pending ++ '\r' :: Munch.joined [] := by
        simp [ahead, held, after, Munch.joined, Munch.splitLines]
      rw [text]
      cases result : feedChar { s with afterReturn := false } '\r' with
      | error e' s' =>
          have ends : s.finish = .error e' := by simp [finish, close, after, result]
          rw [result] at fed reaches
          rw [ends]
          rcases fed with ⟨p', holding, same⟩ | ⟨reaches, found⟩
          · obtain ⟨p'', again, -, nothing⟩ := reaches
            have dead := readers_of_dead holding.aligned (munch_dead result)
            rw [← same []]
            exact iff_of_true (congrArg _ (holding.unique again))
              ((congrArg _ (dead _)).trans nothing)
          · refine iff_of_false (fun same => ?_) (found [])
            cases same
            exact reaches.ne_error rfl
      | ok _ s' =>
          rw [result] at fed still
          have plain : s'.afterReturn = false := still
          have ends : s.finish = s'.finish := by simp [finish, close, after, result, plain]
          rw [ends]
          rcases fed with ⟨p', holding, same⟩ | ⟨reaches, found⟩
          · rw [← same []]
            exact holding.finish_of_plain still
          · exact iff_of_false (Reached.finish_ne reaches) (found [])

theorem Holding.finish_readOn_iff (h : Holding classes p e s) (later : List Char) :
    (s.readOn later).finish = .error e ↔
      Munch.greatest (Munch.readers classes (s.ahead later)) = 0 := by
  induction later generalizing p s with
  | nil => exact h.finish_iff
  | cons c later ih =>
      rcases h.settles_feed c with ⟨p', holding, same⟩ | ⟨reaches, found⟩
      · rw [← same later]
        exact ih holding
      · exact iff_of_false (reaches.reached.readOn later).finish_ne (found later)

theorem aligned_readOn (classes : List TokenClass) (cs : List Char) :
    ∃ p, Aligned classes p ((ofClasses classes).readOn cs) := by
  have start : Aligned classes 0 (ofClasses classes) := ⟨rfl, rfl, by simp [ofClasses]⟩
  obtain ⟨p, aligned, -⟩ := Reached.readOn ⟨0, start, .inr ⟨rfl, Nat.le_refl 0⟩⟩ cs
  exact ⟨p, aligned⟩

/-- An error is found again until a token begins where it is. Inside a line that can never be. At
    the end of a line some recogniser may still be reading, and what comes on the next lines is read
    as if they were one line. -/
theorem error_lasts {before : List Char} {s : Scanner}
    (failed : ((ofClasses classes).readOn before).feed c = .error e s) :
    (∃ behind, s.pending = e.char :: behind) ∧
      (∀ later, (s.readOn later).finish = .error e ↔
        Munch.greatest (Munch.readers classes (s.pending ++ Munch.joined later)) = 0) ∧
      (c ≠ '\n' → ∀ later, (s.readOn later).finish = .error e) := by
  obtain ⟨p, aligned⟩ := aligned_readOn classes before
  have reaches := feed_reaches aligned c
  rw [failed] at reaches
  obtain ⟨p', holding, -, nothing⟩ := reaches
  obtain ⟨plain, dead⟩ := feed_error failed
  have lasts : ∀ later, (s.readOn later).finish = .error e ↔
      Munch.greatest (Munch.readers classes (s.pending ++ Munch.joined later)) = 0 := by
    intro later
    rw [holding.finish_readOn_iff, ahead_of_plain plain]
  refine ⟨holding.pending, lasts, fun inside later => ?_⟩
  rw [lasts, readers_of_dead holding.aligned (dead inside)]
  exact nothing

/-- A quote that is not closed on its line is an error until it is closed. -/
theorem error_lasts_quote : ∃ s,
    ((ofConfig {}).readOn ['"', 'a']).feed '\n' = .error ⟨'"', 1, 1⟩ s ∧
      (∃ behind, s.pending = '"' :: behind) ∧
      ∀ later, (s.readOn later).finish = .error ⟨'"', 1, 1⟩ ↔ Munch.greatest
        (Munch.readers (LexConfig.classes {}) (s.pending ++ Munch.joined later)) = 0 := by
  have failed : ((ofConfig {}).readOn ['"', 'a']).feed '\n' = .error ⟨'"', 1, 1⟩ _ :=
    eq_error_of_error? (by decide +kernel)
  obtain ⟨pending, lasts, -⟩ := error_lasts failed
  exact ⟨_, failed, pending, lasts⟩

/-- On the next line the same quote is closed, and the token goes over the line break. -/
theorem error_forgotten : ∃ e s, ((ofConfig {}).readOn ['"', 'a']).feed '\n' = .error e s ∧
    (s.readOn ['b', '"']).finish = .ok [⟨1, [⟨1, "\"ab\"", .string⟩]⟩] :=
  ⟨⟨'"', 1, 1⟩, _, eq_error_of_error? (by decide +kernel), by decide +kernel⟩

end Scanner

end Assembler
