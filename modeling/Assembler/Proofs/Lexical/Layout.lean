import Assembler.Dialect.Basic
import Assembler.Proofs.Lexical.Places
import Mathlib.Data.List.TakeWhile

/-! # Lines in another layout

A lexeme that maximal munch has cut off is cut off in the same way before a blank, before a comment
and at the end of the line. It is found alone because a recogniser that read on behind it would have
found something longer. Blanks and comment characters end every class of token but those that run to
a closing mark of their own, and a quoted literal has met its mark if it is a token.
-/

namespace Assembler

namespace Automaton

theorem stringMove_ne_accepts (s : QuoteState) (c : Char) (s' : QuoteState) :
    stringMove s c ≠ .accepts s' := by
  fun_cases stringMove s c <;> simp

theorem charMove_ne_accepts (s : QuoteState) (c : Char) (s' : QuoteState) :
    charMove s c ≠ .accepts s' := by
  fun_cases charMove s c <;> simp

end Automaton

namespace LexConfig

def isBlank (c : Char) : Bool := c == ' ' || c == '\t'

/-- Characters that may stand between two tokens or begin a comment behind them. -/
def isSeparator (cfg : LexConfig) (c : Char) : Bool :=
  isBlank c || cfg.commentChars.contains c

theorem blank_mem_classes (cfg : LexConfig) : .blank ∈ cfg.classes := by
  simp [classes]

theorem comment_mem_classes (cfg : LexConfig) : .comment cfg.commentChars ∈ cfg.classes := by
  simp [classes]

end LexConfig

namespace TokenClass

/-- Classes that take any character up to a closing mark, or have no kind. -/
def isEnclosed : TokenClass → Bool
  | .blank | .comment _ | .string | .char => true
  | _ => false

/-- The characters that enclosed classes begin with. -/
def openers : TokenClass → List Char
  | .blank => [' ', '\t']
  | .comment starts => starts
  | .string => ['"']
  | .char => ['\'']
  | _ => []

/-- A character that no token of the class begins with. -/
def refuses (k : TokenClass) (c : Char) : Bool :=
  (k.automaton.move k.automaton.start c).isStuck

theorem refuses_of_not_mem {k : TokenClass} (enclosed : k.isEnclosed = true) {c : Char}
    (h : c ∉ k.openers) : k.refuses c = true := by
  cases k with
  | blank => simp_all [openers, refuses, automaton, Automaton.blank, Move.isStuck]
  | comment => simp_all [openers, refuses, automaton, Automaton.comment, Move.isStuck]
  | string =>
      simp_all [openers, refuses, automaton, Automaton.string, Automaton.stringMove, Move.isStuck]
  | char => simp_all [openers, refuses, automaton, Automaton.char, Automaton.charMove, Move.isStuck]
  | _ => cases enclosed

end TokenClass

/-- Blanks, comments and quoted literals are known by their first character, and nothing else goes
    on over a separator. -/
structure LexConfig.Delimited (cfg : LexConfig) : Prop where
  sole : ∀ k ∈ cfg.classes, ∀ c ∈ k.openers, ∀ k' ∈ cfg.classes, k' ≠ k → k'.refuses c = true
  separates : ∀ k ∈ cfg.classes, k.isEnclosed = false → ∀ c, cfg.isSeparator c = true →
    ∀ s, k.automaton.move s c = .stuck

theorem Dialect.delimited_config (d : Dialect) : d.config.Delimited where
  sole := by
    have checked : ∀ k ∈ d.config.classes, (k.openers.all fun c =>
        decide (∀ k' ∈ d.config.classes, k' ≠ k → k'.refuses c = true)) = true := by
      cases d <;> decide
    intro k known c opens
    exact of_decide_eq_true (List.all_eq_true.1 (checked k known) c opens)
  separates := by
    intro k known enclosed c separator s
    simp only [LexConfig.isSeparator, LexConfig.isBlank, Bool.or_eq_true, beq_iff_eq,
      List.contains_iff_mem] at separator
    cases d with
    | complx =>
        simp only [Dialect.config, Complx.config, LexConfig.classes, List.mem_cons,
          List.not_mem_nil, or_false] at known separator
        rcases known with rfl | rfl | rfl | rfl | rfl | rfl | rfl | rfl | rfl <;>
          cases enclosed <;> rcases separator with (rfl | rfl) | rfl <;> cases s <;> rfl
    | lc2200 =>
        simp only [Dialect.config, Lc2200.config, LexConfig.classes, List.mem_cons,
          List.not_mem_nil, or_false] at known separator
        rcases known with rfl | rfl | rfl | rfl | rfl | rfl | rfl | rfl | rfl <;>
          cases enclosed <;> rcases separator with (rfl | rfl) | rfl | rfl | rfl <;> cases s <;> rfl

namespace Recognizer

variable {r : Recognizer} {k : TokenClass}

theorem feedAll_append (r : Recognizer) (text rest : List Char) :
    r.feedAll (text ++ rest) = (r.feedAll text).feedAll rest :=
  List.foldl_append

theorem accepted_feedAll_cases (r : Recognizer) (text : List Char) :
    (r.feedAll text).accepted = r.accepted ∨ r.fed < (r.feedAll text).accepted := by
  induction text generalizing r with
  | nil => exact .inl rfl
  | cons c text ih =>
      have step : (r.feed c).fed = r.fed + 1 ∧
          ((r.feed c).accepted = r.accepted ∨ (r.feed c).accepted = r.fed + 1) ∨ r.feed c = r := by
        simp only [feed]
        split
        · split <;> simp
        · simp
      have later : (r.feedAll (c :: text)).accepted = (r.feed c).accepted ∨
          (r.feed c).fed < (r.feedAll (c :: text)).accepted := ih (r.feed c)
      rcases step with ⟨fed, accepted⟩ | same
      · omega
      · rwa [same] at later

theorem fed_feedAll_of_alive {text : List Char} (h : (r.feedAll text).alive = true) :
    (r.feedAll text).fed = r.fed + text.length := by
  induction text generalizing r with
  | nil => rfl
  | cons c text ih =>
      have alive : r.alive = true := by
        cases before : r.alive with
        | true => rfl
        | false =>
            rw [feedAll_of_dead before] at h
            exact absurd h (by simp [before])
      have step : (r.feed c).fed = r.fed + 1 := by
        simp only [feed, alive, if_true]
        split <;> rfl
      have later : (r.feedAll (c :: text)).fed = (r.feed c).fed + text.length := ih h
      rw [later, step, List.length_cons]
      omega

/-- If nothing longer than a text is found behind it, what is found in the text counts. -/
theorem accepted_feedAll_append {text rest : List Char}
    (h : ((fresh k).feedAll (text ++ rest)).accepted ≤ text.length) :
    ((fresh k).feedAll (text ++ rest)).accepted = ((fresh k).feedAll text).accepted := by
  rw [feedAll_append] at h ⊢
  cases alive : ((fresh k).feedAll text).alive with
  | false => rw [feedAll_of_dead alive]
  | true =>
      -- still reading, it has read the whole text, and what it finds later would be too long
      have fed : ((fresh k).feedAll text).fed = 0 + text.length := fed_feedAll_of_alive alive
      have found := accepted_feedAll_cases ((fresh k).feedAll text) rest
      omega

theorem kind?_feedAll_append {text : List Char} (filled : text ≠ []) (rest : List Char) :
    ((fresh k).feedAll (text ++ rest)).kind? = ((fresh k).feedAll text).kind? := by
  cases k with
  | symbol set =>
      -- the only class whose kind depends on what it has read, and that is one character
      obtain ⟨c, text, rfl⟩ := List.exists_cons_of_ne_nil filled
      have dead : ((fresh (.symbol set)).feed c).alive = false := by
        by_cases known : c ∈ set <;>
          simp [feed, fresh, TokenClass.automaton, Automaton.symbol, known]
      have done : ∀ more,
          (fresh (.symbol set)).feedAll (c :: more) = (fresh (.symbol set)).feed c :=
        feedAll_of_dead dead
      rw [List.cons_append, done, done]
  | _ => rw [kind?_feedAll (fun _ => rfl), kind?_feedAll (fun _ => rfl)]

theorem dead_of_accepted (closes : ∀ s c s', k.automaton.move s c ≠ .accepts s') {text : List Char}
    (h : ((fresh k).feedAll text).accepted ≠ 0) : ((fresh k).feedAll text).alive = false := by
  have invariant : ∀ (r : Recognizer) (text : List Char), r.tokenClass = k →
      (r.alive = true → r.accepted = 0) →
      (r.feedAll text).alive = true → (r.feedAll text).accepted = 0 := by
    intro r text
    induction text generalizing r with
    | nil => exact fun _ start => start
    | cons c text ih =>
        intro same start
        apply ih (r.feed c) ((tokenClass_feed r c).trans same)
        subst same
        simp only [feed]
        split
        · next alive =>
            split
            · simp
            · exact fun _ => start alive
            · next s' accepts => exact absurd accepts (closes _ _ _)
            · simp
        · exact start
  cases alive : ((fresh k).feedAll text).alive with
  | false => rfl
  | true => exact absurd (invariant (fresh k) text rfl (fun _ => rfl) alive) h

end Recognizer

namespace Munch

variable {classes : List TokenClass} {lexeme rest : List Char} {kind : Option TokenKind}

theorem Cuts.alone (h : Cuts classes lexeme kind rest) : Cuts classes lexeme kind [] := by
  refine cuts_congr ?_ h
  rw [readers, readers, List.map_map, List.map_map]
  refine List.map_congr_left fun k known => ?_
  have member : (Recognizer.fresh k).feedAll (lexeme ++ rest) ∈ readers classes (lexeme ++ rest) :=
    List.mem_map.2 ⟨k, known, rfl⟩
  have short : ((Recognizer.fresh k).feedAll (lexeme ++ rest)).accepted ≤ lexeme.length :=
    h.length ▸ le_greatest member
  simp only [Function.comp_apply, finding, List.append_nil, Prod.mk.injEq]
  exact ⟨(Recognizer.accepted_feedAll_append short).symm,
    (Recognizer.kind?_feedAll_append h.filled rest).symm⟩

theorem Cuts.exists_class {kind : TokenKind} (h : Cuts classes lexeme (some kind) []) :
    ∃ k ∈ classes, ((Recognizer.fresh k).feedAll lexeme).accepted = lexeme.length ∧
      ((Recognizer.fresh k).feedAll lexeme).kind? = some kind := by
  obtain ⟨r, member, length, found⟩ := exists_of_kindOf h.kind
  rw [List.append_nil] at member
  obtain ⟨k, known, rfl⟩ := List.mem_map.1 member
  exact ⟨k, known, length, found⟩

section Delimited

variable {cfg : LexConfig}

theorem Cuts.class_of_sole (delimited : cfg.Delimited) {kind : TokenKind}
    (h : Cuts cfg.classes lexeme (some kind) []) {k : TokenClass} (known : k ∈ cfg.classes)
    {c : Char} {body : List Char} (starts : lexeme = c :: body) (opens : c ∈ k.openers) :
    ((Recognizer.fresh k).feedAll lexeme).accepted = lexeme.length ∧
      ((Recognizer.fresh k).feedAll lexeme).kind? = some kind := by
  obtain ⟨k', known', length, found⟩ := h.exists_class
  by_cases same : k' = k
  · rw [← same]
    exact ⟨length, found⟩
  · have refused := delimited.sole k known c opens k' known' same
    rw [starts, (Recognizer.dead_of_start refused body).1] at length
    cases length

/-- An enclosed class either does not begin like the token or has found it. -/
theorem Cuts.dead_of_enclosed (delimited : cfg.Delimited) {kind : TokenKind}
    (h : Cuts cfg.classes lexeme (some kind) []) {k : TokenClass} (known : k ∈ cfg.classes)
    (enclosed : k.isEnclosed = true) : ((Recognizer.fresh k).feedAll lexeme).alive = false := by
  obtain ⟨c, body, starts⟩ := List.exists_cons_of_ne_nil h.filled
  by_cases opens : c ∈ k.openers
  · obtain ⟨length, found⟩ := h.class_of_sole delimited known starts opens
    have positive : ((Recognizer.fresh k).feedAll lexeme).accepted ≠ 0 := by
      rw [length, starts]
      simp
    cases k with
    | blank | comment =>
        rw [Recognizer.kind?_feedAll (fun _ => rfl)] at found
        cases found
    | string =>
        exact Recognizer.dead_of_accepted (k := .string) Automaton.stringMove_ne_accepts positive
    | char => exact Recognizer.dead_of_accepted (k := .char) Automaton.charMove_ne_accepts positive
    | _ => cases enclosed
  · rw [starts]
    exact (Recognizer.dead_of_start (TokenClass.refuses_of_not_mem enclosed opens) body).2

/-- A text that does not continue what stands before it. -/
def Apart (cfg : LexConfig) (text : List Char) : Prop :=
  ∀ c ∈ text.head?, cfg.isSeparator c = true

/-- A token stays a token before a blank, a comment or the end of the line. -/
theorem Cuts.before_apart (delimited : cfg.Delimited) {kind : TokenKind}
    (h : Cuts cfg.classes lexeme (some kind) rest) {rest' : List Char}
    (apart : Apart cfg rest') : Cuts cfg.classes lexeme (some kind) rest' := by
  have alone := h.alone
  cases rest' with
  | nil => exact alone
  | cons c rest' =>
      -- a quoted literal has met its closing mark, and all else ends at a separator
      refine alone.before (fun k known => ?_) rest'
      cases enclosed : k.isEnclosed with
      | true => exact .inl (alone.dead_of_enclosed delimited known enclosed)
      | false =>
          apply Recognizer.stops_of_class (delimited.separates k known enclosed c (apart c rfl))
          exact Recognizer.tokenClass_feedAll _ _

theorem isSeparator_of_isBlank {c : Char} (h : LexConfig.isBlank c = true) :
    cfg.isSeparator c = true := by
  simp [LexConfig.isSeparator, h]

theorem Cuts.not_isSeparator (delimited : cfg.Delimited) {kind : TokenKind} {c : Char}
    {body : List Char} (h : Cuts cfg.classes (c :: body) (some kind) rest) :
    cfg.isSeparator c = false := by
  have kindless : ∀ k ∈ cfg.classes, (∀ s, k.automaton.kind? s = none) → c ∉ k.openers := by
    intro k known discarded opens
    have found := (h.alone.class_of_sole delimited known rfl opens).2
    rw [Recognizer.kind?_feedAll discarded] at found
    cases found
  have blank := kindless .blank cfg.blank_mem_classes fun _ => rfl
  have comment := kindless (.comment cfg.commentChars) cfg.comment_mem_classes fun _ => rfl
  simp_all [LexConfig.isSeparator, LexConfig.isBlank, TokenClass.openers]

theorem cuts_blanks (delimited : cfg.Delimited) {gap : List Char} (filled : gap ≠ [])
    (blank : ∀ c ∈ gap, LexConfig.isBlank c = true)
    (solid : ∀ c ∈ rest.head?, LexConfig.isBlank c = false) : Cuts cfg.classes gap none rest := by
  obtain ⟨c, gap, rfl⟩ := List.exists_cons_of_ne_nil filled
  have opens : c ∈ TokenClass.blank.openers := by
    simpa [LexConfig.isBlank, TokenClass.openers] using blank c List.mem_cons_self
  have taken : (c :: gap ++ rest).takeWhile LexConfig.isBlank = c :: gap :=
    takeWhile_run blank solid
  have loop := Recognizer.accepted_loop (k := .blank) (s := ()) (p := LexConfig.isBlank)
    (fun _ => rfl) 0 (c :: gap ++ rest)
  rw [taken, Nat.zero_add] at loop
  exact cuts_of_sole cfg.blank_mem_classes (delimited.sole _ cfg.blank_mem_classes c opens) loop
    (Recognizer.kind?_feedAll (fun _ => rfl) _)

theorem cuts_comment (delimited : cfg.Delimited) {c : Char} (starts : c ∈ cfg.commentChars)
    (text : List Char) : Cuts cfg.classes (c :: text) none [] := by
  have known := cfg.comment_mem_classes
  have step : (Recognizer.fresh (.comment cfg.commentChars)).feed c =
      ⟨.comment cfg.commentChars, .inside, 1, 1, true⟩ := by
    simp [Recognizer.feed, Recognizer.fresh, TokenClass.automaton, Automaton.comment, starts]
  have loop := Recognizer.accepted_loop (k := .comment cfg.commentChars)
    (s := Automaton.Progress.inside) (p := fun _ => true) (fun _ => rfl) 1 text
  have whole : text.takeWhile (fun _ => true) = text := List.takeWhile_eq_self_iff.2 (by simp)
  rw [whole, ← step] at loop
  refine cuts_of_sole known (delimited.sole _ known c starts) ?_
    (Recognizer.kind?_feedAll (fun _ => rfl) _)
  rw [List.append_nil, List.length_cons, Nat.add_comm]
  exact loop

theorem isBlank_of_commentChar (delimited : cfg.Delimited) {c : Char}
    (starts : c ∈ cfg.commentChars) : LexConfig.isBlank c = false := by
  have refused := delimited.sole _ cfg.comment_mem_classes c starts .blank cfg.blank_mem_classes
    (by simp)
  cases blank : LexConfig.isBlank c with
  | false => rfl
  | true =>
      have taken : (if LexConfig.isBlank c then Move.accepts () else .stuck).isStuck = true :=
        refused
      rw [blank] at taken
      cases taken

/-- Texts with one or more blanks between each and the next. -/
inductive Spaced : List String → List Char → Prop where
  | nil : Spaced [] []
  | single (text : String) : Spaced [text] text.toList
  | cons {text next : String} {texts : List String} {gap body : List Char} (filled : gap ≠ [])
      (blank : ∀ c ∈ gap, LexConfig.isBlank c = true) (behind : Spaced (next :: texts) body) :
      Spaced (text :: next :: texts) (text.toList ++ (gap ++ body))

/-- A line of texts: blanks may stand in front of them, and blanks and a comment behind them. -/
inductive LaidOut (cfg : LexConfig) (texts : List String) : List Char → Prop where
  | intro {before body after comment : List Char}
      (indented : ∀ c ∈ before, LexConfig.isBlank c = true) (spaced : Spaced texts body)
      (padded : ∀ c ∈ after, LexConfig.isBlank c = true)
      (remark : ∀ c ∈ comment.head?, c ∈ cfg.commentChars) :
      LaidOut cfg texts (before ++ (body ++ (after ++ comment)))

theorem spells_gap (delimited : cfg.Delimited) {gap : List Char}
    (blank : ∀ c ∈ gap, LexConfig.isBlank c = true)
    (solid : ∀ c ∈ rest.head?, LexConfig.isBlank c = false) {found : List (TokenKind × String)}
    (behind : Spells cfg.classes rest found) : Spells cfg.classes (gap ++ rest) found := by
  cases gap with
  | nil => exact behind
  | cons c gap => exact .skip (cuts_blanks delimited (by simp) blank solid) behind

theorem spells_comment (delimited : cfg.Delimited) {comment : List Char}
    (remark : ∀ c ∈ comment.head?, c ∈ cfg.commentChars) : Spells cfg.classes comment [] := by
  cases comment with
  | nil => exact .nil
  | cons c text =>
      have skipped : Spells cfg.classes (c :: text ++ []) [] :=
        .skip (cuts_comment delimited (remark c rfl) text) .nil
      rwa [List.append_nil] at skipped

/-- The text of a token of some source. -/
def IsLexeme (cfg : LexConfig) (token : TokenKind × String) : Prop :=
  ∃ rest, Cuts cfg.classes token.2.toList (some token.1) rest

theorem Spaced.solid (delimited : cfg.Delimited) {token : TokenKind × String}
    (lexeme : IsLexeme cfg token) {texts : List String} {body : List Char}
    (h : Spaced (token.2 :: texts) body) (rest : List Char) :
    ∀ c ∈ (body ++ rest).head?, LexConfig.isBlank c = false := by
  obtain ⟨kind, text⟩ := token
  obtain ⟨behind, cut⟩ := lexeme
  obtain ⟨c, cs, starts⟩ := List.exists_cons_of_ne_nil cut.filled
  rw [starts] at cut
  have first := cut.not_isSeparator delimited
  have solid : LexConfig.isBlank c = false := by
    simp only [LexConfig.isSeparator, Bool.or_eq_false_iff] at first
    exact first.1
  have head : (body ++ rest).head? = some c := by
    cases h with
    | single => simp [starts]
    | cons => simp [starts]
  simpa [head] using solid

theorem Spaced.spells (delimited : cfg.Delimited) {found : List (TokenKind × String)}
    (lexemes : ∀ token ∈ found, IsLexeme cfg token) {body : List Char}
    (h : Spaced (found.map (·.2)) body) {tail : List Char} (apart : Apart cfg tail)
    (behind : Spells cfg.classes tail []) : Spells cfg.classes (body ++ tail) found := by
  induction found generalizing body with
  | nil =>
      cases h
      exact behind
  | cons token found ih =>
      obtain ⟨⟨rest, cut⟩, others⟩ := List.forall_mem_cons.1 lexemes
      have token_eq : token = (token.1, String.ofList token.2.toList) := by simp
      rw [token_eq]
      cases found with
      | nil =>
          cases h
          exact .token (cut.before_apart delimited apart) behind
      | cons next found =>
          cases h with
          | @cons _ _ _ gap body filled blank spaced =>
              have inner := ih others spaced
              have solid := spaced.solid delimited (others next List.mem_cons_self) tail
              have apart : Apart cfg (gap ++ (body ++ tail)) := by
                obtain ⟨c, gap, rfl⟩ := List.exists_cons_of_ne_nil filled
                simpa [Apart] using isSeparator_of_isBlank (blank c List.mem_cons_self)
              rw [List.append_assoc, List.append_assoc]
              apply Spells.token (cut.before_apart delimited apart)
              exact spells_gap delimited blank solid inner

theorem LaidOut.spells (delimited : cfg.Delimited) {found : List (TokenKind × String)}
    (lexemes : ∀ token ∈ found, IsLexeme cfg token) {line : List Char}
    (h : LaidOut cfg (found.map (·.2)) line) : Spells cfg.classes line found := by
  cases h with
  | @intro before body after comment indented spaced padded remark =>
      have solid : ∀ c ∈ comment.head?, LexConfig.isBlank c = false :=
        fun c starts => isBlank_of_commentChar delimited (remark c starts)
      have ended := spells_comment delimited remark
      cases found with
      | nil =>
          cases spaced
          rw [List.nil_append, ← List.append_assoc]
          apply spells_gap delimited ?_ solid ended
          intro c member
          exact (List.mem_append.1 member).elim (indented c) (padded c)
      | cons token found =>
          have apart : Apart cfg (after ++ comment) := by
            intro c starts
            cases after with
            | nil =>
                have starts := remark c starts
                simp [LexConfig.isSeparator, starts]
            | cons d after =>
                obtain rfl : d = c := by simpa using starts
                exact isSeparator_of_isBlank (padded d List.mem_cons_self)
          have behind := spells_gap delimited padded solid ended
          have first := spaced.solid delimited (lexemes token List.mem_cons_self) (after ++ comment)
          exact spells_gap delimited indented first (spaced.spells delimited lexemes apart behind)

end Delimited

/-- The tokens of the lines of a number. -/
def tokensOn (lines : List Line) (number : Nat) : List Token :=
  (lines.filter (·.number == number)).flatMap (·.tokens)

theorem tokensOn_append (lines lines' : List Line) (number : Nat) :
    tokensOn (lines ++ lines') number = tokensOn lines number ++ tokensOn lines' number := by
  simp [tokensOn]

theorem tokensOn_of_ne {lines : List Line} {number : Nat}
    (h : ∀ line ∈ lines, line.number ≠ number) : tokensOn lines number = [] := by
  have absent : lines.filter (·.number == number) = [] := by simpa using h
  rw [tokensOn, absent, List.flatMap_nil]

theorem tokensOn_lineOf (number : Nat) (found : List Token) :
    tokensOn (lineOf number found) number = found := by
  cases found <;> simp [lineOf, tokensOn]

theorem content_lineOf (number : Nat) {found found' : List Token}
    (same : found'.map kindText = found.map kindText) :
    (lineOf number found').map content = (lineOf number found).map content := by
  have empty : found'.isEmpty = found.isEmpty := by
    rw [← List.isEmpty_map (f := kindText), same, List.isEmpty_map]
  simp only [lineOf, empty]
  split
  · rfl
  · simp [content, same]

theorem scanLines_congr {number : Nat} {texts texts' : List (List Char)} {lines : List Line}
    (h : scanLines classes number texts = .ok lines) (size : texts'.length = texts.length)
    (spells : ∀ i text, texts'[i]? = some text →
      Spells classes text ((tokensOn lines (number + i)).map kindText)) :
    ∃ lines', scanLines classes number texts' = .ok lines' ∧
      lines'.map content = lines.map content := by
  induction texts generalizing number texts' lines with
  | nil =>
      obtain rfl := List.length_eq_zero_iff.1 size
      exact ⟨lines, h, rfl⟩
  | cons text texts ih =>
      cases texts' with
      | nil => cases size
      | cons text' texts' =>
          simp only [scanLines, bind_eq_ok, pure_eq_ok] at h
          obtain ⟨found, -, rest, scanned, rfl⟩ := h
          have here : tokensOn (lineOf number found ++ rest) number = found := by
            rw [tokensOn_append, tokensOn_lineOf, tokensOn_of_ne, List.append_nil]
            intro line member
            obtain ⟨i, _, later, -⟩ := exists_of_mem_scanLines scanned line member
            omega
          have behind : ∀ i, tokensOn (lineOf number found ++ rest) (number + 1 + i) =
              tokensOn rest (number + 1 + i) := by
            intro i
            rw [tokensOn_append, tokensOn_of_ne, List.nil_append]
            intro line member
            obtain ⟨-, rfl⟩ := mem_lineOf.1 member
            dsimp only
            omega
          have first := spells 0 text' rfl
          rw [Nat.add_zero, here] at first
          obtain ⟨found', cut, same⟩ := first.tokens number 0
          obtain ⟨rest', scanned', contents⟩ := ih scanned (Nat.succ.inj size) fun i text at' => by
            rw [← behind, Nat.add_assoc, Nat.add_comm 1 i]
            exact spells (i + 1) text at'
          refine ⟨lineOf number found' ++ rest', ?_, ?_⟩
          · rw [scanLines, cut, scanned']
            rfl
          · rw [List.map_append, List.map_append, contents, content_lineOf number same]

end Munch

/-- A source whose lines lay out the tokens of the lines of another is scanned into the same lines,
    but for the columns. -/
theorem scan_laidOut {cfg : LexConfig} (delimited : cfg.Delimited) {source source' : String}
    {lines : List Line} (scanned : scan cfg source = .ok lines)
    (size : (sourceLines source').length = (sourceLines source).length)
    (laid : ∀ i line, (sourceLines source')[i]? = some line →
      Munch.LaidOut cfg ((Munch.tokensOn lines (i + 1)).map (·.text)) line) :
    ∃ lines', scan cfg source' = .ok lines' ∧
      lines'.map Munch.content = lines.map Munch.content := by
  rw [scan_eq_scanLines] at scanned ⊢
  refine Munch.scanLines_congr scanned size fun i text at' => ?_
  have laid := laid i text at'
  have texts : (Munch.tokensOn lines (i + 1)).map (·.text) =
      ((Munch.tokensOn lines (i + 1)).map Munch.kindText).map (·.2) := by simp [Munch.kindText]
  rw [texts] at laid
  rw [Nat.add_comm]
  refine laid.spells delimited fun token member => ?_
  obtain ⟨token, inside, rfl⟩ := List.mem_map.1 member
  obtain ⟨line, listed, here⟩ := List.mem_flatMap.1 inside
  obtain ⟨i, text, -, -, -, cut⟩ :=
    Munch.exists_of_mem_scanLines scanned line (List.mem_filter.1 listed).1
  obtain ⟨-, lexeme, rest, -, cuts, spelled, -⟩ := Munch.cuts_of_mem_tokens cut token here
  refine ⟨rest, ?_⟩
  rwa [Munch.kindText, spelled, String.toList_ofList]

end Assembler
