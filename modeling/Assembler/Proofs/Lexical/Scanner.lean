import Assembler.Proofs.Lexical.Munch

/-! # The scanner is maximal munch

A scanner in the middle of a line holds tokens and pending characters. Its outlook, for any
characters that may still come on the line, is what maximal munch makes of the pending characters
and those, after the tokens it has. No operation changes the outlook: cutting a token early is right
because the recognisers that are stuck would not have read on.
-/

namespace Assembler

namespace Scanner

variable {classes : List TokenClass} {p : Nat} {s : Scanner}

/-- The first pending character stands at a position of the line, and the recognisers have read the
    pending characters. -/
structure Aligned (classes : List TokenClass) (p : Nat) (s : Scanner) : Prop where
  recognizers : s.recognizers = Munch.readers classes s.pending
  col : s.col = p + s.pending.length + 1
  pendingCol : s.pending ≠ [] → s.pendingCol = p + 1

/-- The tokens of the current line, if these characters are still to come on it. -/
def outlook (classes : List TokenClass) (p : Nat) (s : Scanner) (more : List Char) :
    Except LexError (List Token) :=
  (Munch.tokens classes s.lineNumber p (s.pending ++ more)).map (s.tokens ++ ·)

theorem Aligned.cut_le (h : Aligned classes p s) {n : Nat}
    (len : Munch.greatest s.recognizers = n + 1) : n + 1 ≤ s.pending.length := by
  rw [← len, h.recognizers]
  exact Munch.greatest_readers_le _

theorem readers_rest (h : s.recognizers = Munch.readers classes s.pending) (n : Nat)
    (kind : Option TokenKind) :
    (s.rest n kind).recognizers = Munch.readers classes (s.rest n kind).pending := by
  simp only [Scanner.rest, h, Munch.readers, List.map_map]
  refine List.map_congr_left fun k _ => ?_
  simp only [Function.comp_apply, Recognizer.reset, Recognizer.tokenClass_feedAll]
  rfl

theorem Aligned.rest (h : Aligned classes p s) {n : Nat}
    (len : Munch.greatest s.recognizers = n + 1) (kind : Option TokenKind) :
    Aligned classes (p + (n + 1)) (s.rest (n + 1) kind) := by
  have inside := h.cut_le len
  refine ⟨readers_rest h.recognizers _ _, ?_, ?_⟩
  · simp only [Scanner.rest, List.length_drop, h.col]
    omega
  · intro _
    simp only [Scanner.rest, h.pendingCol (List.ne_nil_of_length_pos (by omega))]
    omega

theorem Aligned.outlook_rest (h : Aligned classes p s) {n : Nat}
    (len : Munch.greatest s.recognizers = n + 1) {more : List Char}
    (same : Munch.readers classes (s.pending ++ more) = s.recognizers) :
    outlook classes (p + (n + 1)) (s.rest (n + 1) (Munch.kindOf s.recognizers (n + 1))) more =
      outlook classes p s more := by
  have inside := h.cut_le len
  have first : Munch.tokens classes s.lineNumber p (s.pending ++ more) = _ :=
    Munch.tokens_of_greatest (same ▸ len)
  rw [same, List.drop_append_of_le_length inside, List.take_append_of_le_length inside] at first
  rw [outlook, outlook, first]
  simp only [Scanner.rest, h.pendingCol (List.ne_nil_of_length_pos (by omega))]
  cases Munch.tokens classes s.lineNumber (p + (n + 1)) (s.pending.drop (n + 1) ++ more) with
  | error e => rfl
  | ok found => simp [Except.map]

/-- When tokens are cut off, the recognisers would not read on, or there is nothing to read. -/
theorem Aligned.readers_append (h : Aligned classes p s) {atEnd : Bool} {more : List Char}
    (go : ¬(!atEnd && s.recognizers.any (·.alive)) = true) (ends : atEnd = true → more = []) :
    Munch.readers classes (s.pending ++ more) = s.recognizers := by
  cases atEnd with
  | true => rw [ends rfl, List.append_nil, h.recognizers]
  | false =>
      rw [h.recognizers] at go ⊢
      exact Munch.readers_append_of_dead (by simpa using go) more

theorem Aligned.setAfterReturn (h : Aligned classes p s) (after : Bool) :
    Aligned classes p { s with afterReturn := after } :=
  ⟨h.recognizers, h.col, h.pendingCol⟩

theorem Aligned.reset (h : Aligned classes p s) (empty : s.pending = []) :
    Aligned classes p { s with recognizers := s.recognizers.map .reset } := by
  refine ⟨?_, h.col, h.pendingCol⟩
  simp only [h.recognizers, empty, Munch.readers, List.map_map]
  rfl

theorem Aligned.feed (h : Aligned classes p s) (c : Char) : Aligned classes p { s with
    recognizers := s.recognizers.map (·.feed c)
    pending := s.pending ++ [c]
    pendingCol := if s.pending.isEmpty then s.col else s.pendingCol
    col := s.col + 1 } := by
  refine ⟨?_, ?_, fun _ => ?_⟩
  · simp [h.recognizers, Munch.readers, Recognizer.feedAll]
  · simp [h.col, Nat.add_assoc]
  · cases pending : s.pending with
    | nil => simp [h.col, pending]
    | cons d ds => simpa [pending] using h.pendingCol (by simp [pending])

structure SameLine (s s' : Scanner) : Prop where
  lineNumber : s'.lineNumber = s.lineNumber
  lines : s'.lines = s.lines
  afterReturn : s'.afterReturn = s.afterReturn

/-- Cutting tokens off changes no outlook. At the end of the line nothing is to come. -/
theorem munch_spec (atEnd : Bool) (h : Aligned classes p s) :
    match munch atEnd s with
    | .error e _ => ∀ more, (atEnd = true → more = []) → outlook classes p s more = .error e
    | .ok () s' => ∃ p', Aligned classes p' s' ∧ (atEnd = true → s'.pending = []) ∧
        SameLine s s' ∧
        ∀ more, (atEnd = true → more = []) → outlook classes p' s' more = outlook classes p s more := by
  fun_induction munch atEnd s generalizing p with
  | case1 s empty =>
      exact ⟨p, h.reset empty, fun _ => empty, ⟨rfl, rfl, rfl⟩, fun _ _ => rfl⟩
  | case2 s c cs pending wait =>
      refine ⟨p, h, ?_, ⟨rfl, rfl, rfl⟩, fun _ _ => rfl⟩
      rintro rfl
      cases wait
  | case3 s c cs pending go kind nothing =>
      intro more ends
      have same := h.readers_append go ends
      rw [Munch.cut_eq, Prod.mk.injEq] at nothing
      rw [pending] at same
      rw [outlook, pending, List.cons_append, Munch.tokens_of_none (same ▸ nothing.1),
        h.pendingCol (by simp [pending])]
      rfl
  | case4 s c cs pending go n kind len ih =>
      rw [Munch.cut_eq, Prod.mk.injEq] at len
      obtain ⟨len, rfl⟩ := len
      rw [len] at ih ⊢
      have next := ih (h.rest len _)
      have shorter : ∀ more, (atEnd = true → more = []) → outlook classes (p + (n + 1))
          (s.rest (n + 1) (Munch.kindOf s.recognizers (n + 1))) more = outlook classes p s more :=
        fun more ends => h.outlook_rest len (h.readers_append go ends)
      cases result : munch atEnd (s.rest (n + 1) (Munch.kindOf s.recognizers (n + 1))) with
      | error e left =>
          rw [result] at next
          exact fun more ends => (shorter more ends).symm.trans (next more ends)
      | ok u left =>
          rw [result] at next
          obtain ⟨p', aligned, emptied, same, outlooks⟩ := next
          exact ⟨p', aligned, emptied, ⟨same.lineNumber, same.lines, same.afterReturn⟩,
            fun more ends => (outlooks more ends).trans (shorter more ends)⟩

/-- The outlook after a character is the outlook before it. -/
theorem feedChar_spec (h : Aligned classes p s) (c : Char) :
    match s.feedChar c with
    | .error e _ => ∀ more, outlook classes p s (c :: more) = .error e
    | .ok () s' => ∃ p', Aligned classes p' s' ∧ SameLine s s' ∧
        ∀ more, outlook classes p' s' more = outlook classes p s (c :: more) := by
  have munched := munch_spec false (h.feed c)
  cases result : s.feedChar c with
  | error e left =>
      rw [← feedChar, result] at munched
      intro more
      simpa [outlook] using munched more (by simp)
  | ok u left =>
      rw [← feedChar, result] at munched
      obtain ⟨p', aligned, -, same, outlooks⟩ := munched
      refine ⟨p', aligned, ⟨same.lineNumber, same.lines, same.afterReturn⟩, fun more => ?_⟩
      rw [outlooks more (by simp)]
      simp [outlook]

/-- The end of a line turns its outlook into a line. -/
theorem endLine_spec (h : Aligned classes p s) :
    match s.endLine with
    | .error e _ => outlook classes p s [] = .error e
    | .ok () s' => ∃ found, outlook classes p s [] = .ok found ∧ Aligned classes 0 s' ∧
        s'.pending = [] ∧ s'.tokens = [] ∧ s'.lines = s.lines ++ Munch.lineOf s.lineNumber found ∧
        s'.lineNumber = s.lineNumber + 1 ∧ s'.afterReturn = s.afterReturn := by
  have munched := munch_spec true h
  cases result : munch true s with
  | error e left =>
      rw [result] at munched
      rw [endLine, result]
      exact munched [] (by simp)
  | ok u left =>
      rw [result] at munched
      rw [endLine, result]
      obtain ⟨p', aligned, emptied, same, outlooks⟩ := munched
      have empty := emptied rfl
      have total : outlook classes p s [] = .ok left.tokens := by
        rw [← outlooks [] (by simp), outlook, empty]
        simp [Munch.tokens, Except.map]
      refine ⟨left.tokens, total, ⟨aligned.recognizers, by simp [empty], by simp [empty]⟩, empty, rfl,
        ?_, ?_, same.afterReturn⟩
      · simp only [same.lines, same.lineNumber, Munch.lineOf]
      · simp only [same.lineNumber]

/-- The lines in the end, if these characters are still to come. -/
def forecast (classes : List TokenClass) (p : Nat) (s : Scanner) (input : List Char) :
    Except LexError (List Line) := do
  let found ← outlook classes p s (Munch.splitLines input).1
  let later ← Munch.scanLines classes (s.lineNumber + 1) (Munch.splitLines input).2
  return s.lines ++ Munch.lineOf s.lineNumber found ++ later

/-- A carriage return that has been read but not yet understood. -/
def held (s : Scanner) : List Char :=
  if s.afterReturn then ['\r'] else []

theorem forecast_of_outlook {p' : Nat} {s' : Scanner} {c : Char} {input : List Char}
    (same : SameLine s s') (split : Munch.splitLines (c :: input) =
      (c :: (Munch.splitLines input).1, (Munch.splitLines input).2))
    (outlooks : ∀ more, outlook classes p' s' more = outlook classes p s (c :: more)) :
    forecast classes p' s' input = forecast classes p s (c :: input) := by
  simp only [forecast, outlooks, split, same.lineNumber, same.lines]

theorem forecast_error {e : LexError} {input : List Char}
    (failed : outlook classes p s (Munch.splitLines input).1 = .error e) :
    forecast classes p s input = .error e := by
  rw [forecast, failed]
  rfl

theorem outlook_of_fresh (pending : s.pending = []) (tokens : s.tokens = []) (line : List Char) :
    outlook classes p s line = Munch.tokens classes s.lineNumber p line := by
  rw [outlook, pending, tokens, List.nil_append]
  cases Munch.tokens classes s.lineNumber p line <;> rfl

theorem forecast_newline {s' : Scanner} {found : List Token}
    (total : outlook classes p s [] = .ok found) (pending : s'.pending = []) (tokens : s'.tokens = [])
    (lines : s'.lines = s.lines ++ Munch.lineOf s.lineNumber found)
    (number : s'.lineNumber = s.lineNumber + 1) (input : List Char) :
    forecast classes 0 s' input = forecast classes p s ('\n' :: input) := by
  simp only [forecast, Munch.splitLines_newline, total, outlook_of_fresh pending tokens, lines,
    number, Munch.scanLines]
  cases Munch.tokens classes (s.lineNumber + 1) 0 (Munch.splitLines input).1 with
  | error e => rfl
  | ok first =>
      cases Munch.scanLines classes (s.lineNumber + 1 + 1) (Munch.splitLines input).2 with
      | error e => rfl
      | ok later =>
          simp only [bind, Except.bind, pure, Except.pure, List.append_assoc]

/-- A result that keeps to what is foretold, whatever is still to come. -/
def Keeps (classes : List TokenClass) (foretold : List Char → Except LexError (List Line)) :
    Result → Prop
  | .error e _ => ∀ input, foretold input = .error e
  | .ok () s => ∃ p, Aligned classes p s ∧
      ∀ input, forecast classes p s (s.held ++ input) = foretold input

theorem Keeps.congr {foretold expected : List Char → Except LexError (List Line)} {result : Result}
    (h : Keeps classes foretold result) (same : ∀ input, foretold input = expected input) :
    Keeps classes expected result := by
  rwa [← funext same]

theorem keeps_feedChar (h : Aligned classes p s) (plain : s.afterReturn = false) {c : Char}
    (inside : c ≠ '\n') (ordinary : c ≠ '\r') :
    Keeps classes (fun input => forecast classes p s (c :: input)) (s.feedChar c) := by
  have split : ∀ input, Munch.splitLines (c :: input) =
      (c :: (Munch.splitLines input).1, (Munch.splitLines input).2) :=
    fun input => Munch.splitLines_char inside fun clash => absurd clash ordinary
  have fed := feedChar_spec h c
  cases result : s.feedChar c with
  | error e left =>
      rw [result] at fed
      intro input
      exact forecast_error (by rw [split]; exact fed _)
  | ok u left =>
      rw [result] at fed
      obtain ⟨p', aligned, same, outlooks⟩ := fed
      refine ⟨p', aligned, fun input => ?_⟩
      rw [held, same.afterReturn, plain]
      exact forecast_of_outlook same (split input) outlooks

theorem keeps_endLine (h : Aligned classes p s) (plain : s.afterReturn = false) :
    Keeps classes (fun input => forecast classes p s ('\n' :: input)) s.endLine := by
  have ended := endLine_spec h
  cases result : s.endLine with
  | error e left =>
      rw [result] at ended
      intro input
      exact forecast_error (by rw [Munch.splitLines_newline]; exact ended)
  | ok u left =>
      rw [result] at ended
      obtain ⟨found, total, aligned, pending, tokens, lines, number, after⟩ := ended
      refine ⟨0, aligned, fun input => ?_⟩
      rw [held, after, plain]
      exact forecast_newline total pending tokens lines number input

theorem keeps_feedPlain (h : Aligned classes p s) (plain : s.afterReturn = false) (c : Char) :
    Keeps classes (fun input => forecast classes p s (c :: input)) (s.feedPlain c) := by
  rw [feedPlain]
  split
  · next newline =>
      subst newline
      exact keeps_endLine h plain
  · next inside =>
      split
      · next carriage =>
          subst carriage
          exact ⟨p, h.setAfterReturn true, fun _ => rfl⟩
      · next ordinary => exact keeps_feedChar h plain inside ordinary

theorem keeps_feed (h : Aligned classes p s) (c : Char) :
    Keeps classes (fun input => forecast classes p s (s.held ++ c :: input)) (s.feed c) := by
  rw [feed]
  split
  · next after =>
      have released := h.setAfterReturn false
      simp only [held, after, if_true, List.cons_append, List.nil_append]
      split
      · next newline =>
          subst newline
          refine (keeps_endLine released rfl).congr fun input => ?_
          rw [forecast, forecast, Munch.splitLines_return_newline]
          rfl
      · next inside =>
          have split : ∀ input, Munch.splitLines ('\r' :: c :: input) =
              ('\r' :: (Munch.splitLines (c :: input)).1, (Munch.splitLines (c :: input)).2) :=
            fun input => Munch.splitLines_char (by decide) fun _ => by simpa using inside
          have fed := feedChar_spec released '\r'
          cases result : feedChar { s with afterReturn := false } '\r' with
          | error e left =>
              rw [result] at fed
              intro input
              exact forecast_error (by rw [split]; exact fed _)
          | ok u left =>
              rw [result] at fed
              obtain ⟨p', aligned, same, outlooks⟩ := fed
              refine (keeps_feedPlain aligned same.afterReturn c).congr fun input => ?_
              have step := forecast_of_outlook same (split input) outlooks
              exact step
  · next plain =>
      have unheld : s.afterReturn = false := by simpa using plain
      simp only [held, unheld]
      exact keeps_feedPlain h unheld c

theorem keeps_feedAll (h : Aligned classes p s) (cs : List Char) :
    Keeps classes (fun input => forecast classes p s (s.held ++ cs ++ input)) (s.feedAll cs) := by
  induction cs generalizing p s with
  | nil => exact ⟨p, h, fun input => by simp⟩
  | cons c cs ih =>
      have fed := keeps_feed h c
      rw [feedAll]
      cases result : s.feed c with
      | error e left =>
          rw [result] at fed
          intro input
          simpa using fed (cs ++ input)
      | ok u left =>
          rw [result] at fed
          obtain ⟨p', aligned, same⟩ := fed
          refine (ih aligned).congr fun input => ?_
          simpa using same (cs ++ input)

theorem finish_endLine (h : Aligned classes p s) :
    (match s.endLine with
      | .error e _ => Except.error e
      | .ok () s => .ok s.lines) = forecast classes p s [] := by
  have ended := endLine_spec h
  cases result : s.endLine with
  | error e left =>
      rw [result] at ended
      have failed : forecast classes p s [] = .error e := forecast_error ended
      exact failed.symm
  | ok u left =>
      rw [result] at ended
      obtain ⟨found, total, -, -, -, lines, -, -⟩ := ended
      rw [forecast, Munch.splitLines, total]
      simp [lines, Munch.scanLines, bind, Except.bind, pure, Except.pure]

theorem finish_eq (h : Aligned classes p s) : s.finish = forecast classes p s s.held := by
  cases after : s.afterReturn with
  | false =>
      simp only [finish, close, held, after]
      exact finish_endLine h
  | true =>
      have released := h.setAfterReturn false
      have fed := feedChar_spec released '\r'
      simp only [finish, close, held, after, if_true]
      cases result : feedChar { s with afterReturn := false } '\r' with
      | error e left =>
          rw [result] at fed
          have failed : forecast classes p { s with afterReturn := false } ['\r'] = .error e :=
            forecast_error (fed [])
          exact failed.symm
      | ok u left =>
          rw [result] at fed
          obtain ⟨p', aligned, same, outlooks⟩ := fed
          have step : forecast classes p' left [] =
              forecast classes p { s with afterReturn := false } ['\r'] :=
            forecast_of_outlook same (by simp [Munch.splitLines]) outlooks
          exact (finish_endLine aligned).trans step

theorem run_ofClasses (classes : List TokenClass) (input : List Char) :
    (Scanner.ofClasses classes).run input = Munch.scan classes input := by
  have start : Aligned classes 0 (.ofClasses classes) := ⟨rfl, rfl, by simp [ofClasses]⟩
  have fresh : forecast classes 0 (.ofClasses classes) input = Munch.scan classes input := by
    simp only [forecast, Munch.scan, Munch.scanLines]
    rw [outlook_of_fresh rfl rfl]
    rfl
  have fed := keeps_feedAll start input
  rw [run]
  cases result : (Scanner.ofClasses classes).feedAll input with
  | error e left =>
      rw [result] at fed
      rw [← fresh]
      simpa [held, ofClasses] using (fed []).symm
  | ok u left =>
      rw [result] at fed
      obtain ⟨p, aligned, same⟩ := fed
      have last := same []
      rw [← fresh]
      simpa [finish_eq aligned, held, ofClasses] using last

/-- Scanning is maximal munch line by line, for any token classes and so for any dialect. -/
theorem scan_eq_munch :
    (∀ (classes : List TokenClass) (input : List Char),
      (Scanner.ofClasses classes).run input = Munch.scan classes input) ∧
    ∀ (cfg : LexConfig) (source : String), scan cfg source = Munch.scan cfg.classes source.toList :=
  ⟨run_ofClasses, fun cfg source => run_ofClasses cfg.classes source.toList⟩

end Scanner

end Assembler
