import Assembler.Proofs.Lexical.Scanner
import Assembler.Proofs.Outcome

/-! # Texts put together from lexemes

A text that is written lexeme by lexeme is cut apart in the same places if no recogniser reads on
behind the end of a lexeme. Where only one class can begin with the first character, that class
alone decides; and a recogniser that stops at the next character does not care what comes after it.
-/

namespace Assembler

section Runs

variable {α : Type} {p : α → Bool} {front rest : List α} (inside : ∀ a ∈ front, p a = true)
  (boundary : ∀ a ∈ rest.head?, p a = false)
include inside boundary

/-- A run of one sort ends where something else stands. -/
theorem takeWhile_run : (front ++ rest).takeWhile p = front := by
  rw [List.takeWhile_append_of_pos inside]
  cases rest with
  | nil => simp
  | cons a rest => simp [boundary a rfl]

theorem dropWhile_run : (front ++ rest).dropWhile p = rest := by
  rw [List.dropWhile_append_of_pos inside]
  cases rest with
  | nil => rfl
  | cons a rest => simp [boundary a rfl]

end Runs

def Move.isStuck {σ : Type} : Move σ → Bool
  | .stuck => true
  | _ => false

theorem Move.eq_stuck {σ : Type} {m : Move σ} (h : m.isStuck = true) : m = .stuck := by
  cases m with
  | stuck => rfl
  | reads => cases h
  | accepts => cases h
  | completes => cases h

namespace Recognizer

variable {r : Recognizer} {c : Char}

/-- The next character ends what the recogniser has read. -/
def Stops (r : Recognizer) (c : Char) : Prop :=
  r.alive = false ∨ r.tokenClass.automaton.move r.state c = .stuck

theorem stops_of_class {k : TokenClass} (h : ∀ s, k.automaton.move s c = .stuck)
    (same : r.tokenClass = k) : r.Stops c := by
  subst same
  exact .inr (h _)

theorem Stops.feedAll (h : r.Stops c) (rest : List Char) :
    (r.feedAll (c :: rest)).accepted = r.accepted ∧ (r.feedAll (c :: rest)).kind? = r.kind? := by
  have dead : (r.feed c).alive = false ∧ (r.feed c).accepted = r.accepted ∧
      (r.feed c).kind? = r.kind? := by
    by_cases alive : r.alive = true
    · have stuck := h.resolve_left (by simp [alive])
      have step : r.feed c = ⟨r.tokenClass, r.state, r.fed + 1, r.accepted, false⟩ := by
        simp [feed, alive, stuck]
      rw [step]
      exact ⟨rfl, rfl, rfl⟩
    · simp [feed, alive]
  rw [Recognizer.feedAll, List.foldl_cons]
  have same : List.foldl feed (r.feed c) rest = r.feed c := feedAll_of_dead dead.1 rest
  rw [same]
  exact dead.2

theorem stops_of_start {k : TokenClass}
    (h : (k.automaton.move k.automaton.start c).isStuck = true) : (fresh k).Stops c :=
  .inr (Move.eq_stuck h)

theorem dead_of_start {k : TokenClass} (h : (k.automaton.move k.automaton.start c).isStuck = true)
    (rest : List Char) : ((fresh k).feedAll (c :: rest)).accepted = 0 ∧
      ((fresh k).feedAll (c :: rest)).alive = false := by
  refine ⟨((stops_of_start h).feedAll rest).1, ?_⟩
  have dead : ((fresh k).feed c).alive = false := by
    simp [feed, fresh, Move.eq_stuck h]
  rw [feedAll, List.foldl_cons]
  have same : List.foldl feed ((fresh k).feed c) rest = (fresh k).feed c :=
    feedAll_of_dead dead rest
  rw [same, dead]

/-- A state that takes characters of one sort, as long as there are any. -/
theorem accepted_loop {k : TokenClass} {s : k.automaton.State} {p : Char → Bool}
    (h : ∀ c, k.automaton.move s c = if p c then .accepts s else .stuck) (n : Nat)
    (text : List Char) :
    ((⟨k, s, n, n, true⟩ : Recognizer).feedAll text).accepted = n + (text.takeWhile p).length := by
  induction text generalizing n with
  | nil => rfl
  | cons c text ih =>
      by_cases taken : p c = true
      · have step : (⟨k, s, n, n, true⟩ : Recognizer).feed c = ⟨k, s, n + 1, n + 1, true⟩ := by
          simp [feed, h, taken]
        rw [feedAll, List.foldl_cons, step, List.takeWhile_cons_of_pos taken, List.length_cons]
        refine (ih (n + 1)).trans ?_
        omega
      · have stops : (⟨k, s, n, n, true⟩ : Recognizer).Stops c := .inr (by simp [h, taken])
        rw [List.takeWhile_cons_of_neg taken]
        exact (stops.feedAll text).1

theorem exists_kind?_feedAll (k : TokenClass) (text : List Char) :
    ∃ s, ((fresh k).feedAll text).kind? = k.automaton.kind? s := by
  have same : ((fresh k).feedAll text).tokenClass = k := tokenClass_feedAll (fresh k) text
  generalize (fresh k).feedAll text = r at same ⊢
  subst same
  exact ⟨r.state, rfl⟩

theorem kind?_feedAll {k : TokenClass} {kind : Option TokenKind}
    (h : ∀ s, k.automaton.kind? s = kind) (text : List Char) :
    ((fresh k).feedAll text).kind? = kind := by
  obtain ⟨s, same⟩ := exists_kind?_feedAll k text
  rw [same, h]

end Recognizer

namespace Munch

variable {classes : List TokenClass} {lexeme rest : List Char} {kind : Option TokenKind}

/-- Maximal munch cuts a lexeme off the text that it is followed by. -/
structure Cuts (classes : List TokenClass) (lexeme : List Char) (kind : Option TokenKind)
    (rest : List Char) : Prop where
  filled : lexeme ≠ []
  length : greatest (readers classes (lexeme ++ rest)) = lexeme.length
  kind : kindOf (readers classes (lexeme ++ rest)) lexeme.length = kind

instance : Decidable (Cuts classes lexeme kind rest) :=
  decidable_of_iff (lexeme ≠ [] ∧ greatest (readers classes (lexeme ++ rest)) = lexeme.length ∧
      kindOf (readers classes (lexeme ++ rest)) lexeme.length = kind)
    ⟨fun h => ⟨h.1, h.2.1, h.2.2⟩, fun h => ⟨h.filled, h.length, h.kind⟩⟩

theorem Cuts.tokens (h : Cuts classes lexeme kind rest) (number p : Nat) :
    tokens classes number p (lexeme ++ rest) =
      (tokens classes number (p + lexeme.length) rest).map
        ((kind.map (Token.mk (p + 1) (String.ofList lexeme))).toList ++ ·) := by
  have positive := List.length_pos_iff.2 h.filled
  have size : lexeme.length - 1 + 1 = lexeme.length := by omega
  rw [tokens_of_greatest (h.length.trans size.symm), size, h.kind, List.drop_left, List.take_left]

theorem exists_of_kindOf {rs : List Recognizer} {n : Nat} {k : TokenKind}
    (h : kindOf rs n = some k) : ∃ r ∈ rs, r.accepted = n ∧ r.kind? = some k := by
  obtain ⟨r, found, kind⟩ := Option.bind_eq_some_iff.1 h
  exact ⟨r, List.mem_of_find?_eq_some found, by simpa using List.find?_some found, kind⟩

theorem cuts_of_sole {k : TokenClass} {c : Char} {body : List Char} (member : k ∈ classes)
    (sole : ∀ k' ∈ classes, k' ≠ k → (k'.automaton.move k'.automaton.start c).isStuck = true)
    (accepted : ((Recognizer.fresh k).feedAll (c :: body ++ rest)).accepted = (c :: body).length)
    (kind' : ((Recognizer.fresh k).feedAll (c :: body ++ rest)).kind? = kind) :
    Cuts classes (c :: body) kind rest := by
  have others : ∀ k' ∈ classes, k' ≠ k →
      ((Recognizer.fresh k').feedAll (c :: body ++ rest)).accepted = 0 :=
    fun k' known different => (Recognizer.dead_of_start (sole k' known different) _).1
  have here : (Recognizer.fresh k).feedAll (c :: body ++ rest) ∈
      readers classes (c :: body ++ rest) := List.mem_map.2 ⟨k, member, rfl⟩
  refine ⟨by simp, Nat.le_antisymm (greatest_le ?_) (accepted ▸ le_greatest here), ?_⟩
  · intro r found
    obtain ⟨k', known, rfl⟩ := List.mem_map.1 found
    by_cases same : k' = k
    · rw [same]
      exact Nat.le_of_eq accepted
    · rw [others k' known same]
      exact Nat.zero_le _
  · unfold kindOf
    cases found :
        (readers classes (c :: body ++ rest)).find? (·.accepted == (c :: body).length) with
    | none => exact absurd (List.find?_eq_none.1 found _ here) (by simpa using accepted)
    | some r =>
        obtain ⟨k', known, rfl⟩ := List.mem_map.1 (List.mem_of_find?_eq_some found)
        by_cases same : k' = k
        · rw [same]
          exact kind'
        · have length := List.find?_some found
          rw [others k' known same] at length
          simp at length

/-- What maximal munch looks at in a recogniser. -/
def finding (r : Recognizer) : Nat × Option TokenKind := (r.accepted, r.kind?)

theorem cuts_congr {rest' : List Char}
    (same : (readers classes (lexeme ++ rest)).map finding =
      (readers classes (lexeme ++ rest')).map finding)
    (h : Cuts classes lexeme kind rest') : Cuts classes lexeme kind rest := by
  have greatest_eq : ∀ rs, greatest rs = ((rs.map finding).map (·.1)).foldr max 0 := by
    intro rs
    simp [greatest, finding, Function.comp_def]
  have kindOf_eq : ∀ rs n, kindOf rs n = ((rs.map finding).find? (·.1 == n)).bind (·.2) := by
    intro rs n
    rw [kindOf, List.find?_map, Option.bind_map]
    rfl
  refine ⟨h.filled, ?_, ?_⟩
  · rw [greatest_eq, same, ← greatest_eq, h.length]
  · rw [kindOf_eq, same, ← kindOf_eq, h.kind]

/-- A lexeme is cut off before a character at which all recognisers stop. -/
theorem Cuts.before (h : Cuts classes lexeme kind []) {c : Char}
    (stops : ∀ k ∈ classes, ((Recognizer.fresh k).feedAll lexeme).Stops c) (rest : List Char) :
    Cuts classes lexeme kind (c :: rest) := by
  refine cuts_congr ?_ h
  rw [readers, readers, List.map_map, List.map_map]
  refine List.map_congr_left fun k known => ?_
  obtain ⟨accepted, found⟩ := (stops k known).feedAll rest
  simp only [Function.comp_apply, finding, List.append_nil, Prod.mk.injEq]
  rw [Recognizer.feedAll, List.foldl_append]
  exact ⟨accepted, found⟩

/-- A text that is cut into tokens of these kinds with these characters. -/
inductive Spells (classes : List TokenClass) : List Char → List (TokenKind × String) → Prop where
  | nil : Spells classes [] []
  | token {lexeme rest : List Char} {kind : TokenKind} {found : List (TokenKind × String)}
      (cut : Cuts classes lexeme (some kind) rest) (behind : Spells classes rest found) :
      Spells classes (lexeme ++ rest) ((kind, String.ofList lexeme) :: found)
  | skip {lexeme rest : List Char} {found : List (TokenKind × String)}
      (cut : Cuts classes lexeme none rest) (behind : Spells classes rest found) :
      Spells classes (lexeme ++ rest) found

/-- A token without its column. -/
def kindText (token : Token) : TokenKind × String := (token.kind, token.text)

theorem Spells.tokens {text : List Char} {found : List (TokenKind × String)}
    (h : Spells classes text found) (number p : Nat) : ∃ tokens,
      Munch.tokens classes number p text = .ok tokens ∧
      tokens.map kindText = found := by
  induction h generalizing p with
  | nil => exact ⟨[], by rw [Munch.tokens], rfl⟩
  | @token lexeme rest kind found cut _ ih =>
      obtain ⟨tokens, behind, rfl⟩ := ih (p + lexeme.length)
      refine ⟨⟨p + 1, String.ofList lexeme, kind⟩ :: tokens, ?_, rfl⟩
      rw [cut.tokens, behind]
      rfl
  | @skip lexeme rest found cut _ ih =>
      obtain ⟨tokens, behind, rfl⟩ := ih (p + lexeme.length)
      refine ⟨tokens, ?_, rfl⟩
      rw [cut.tokens, behind]
      rfl

/-- The tokens of a line without their columns, and its number. -/
def content (line : Line) : List (TokenKind × String) × Nat :=
  (line.tokens.map kindText, line.number)

theorem scanLines_of_spells {lines : List (List Char)} {found : List (List (TokenKind × String))}
    (h : List.Forall₂ (Spells classes) lines found) (filled : ∀ tokens ∈ found, tokens ≠ [])
    (number : Nat) : ∃ scanned, scanLines classes number lines = .ok scanned ∧
      scanned.map content = found.zipIdx number := by
  induction h generalizing number with
  | nil => exact ⟨[], rfl, rfl⟩
  | @cons line tokens lines found head _ ih =>
      obtain ⟨first, others⟩ := List.forall_mem_cons.1 filled
      obtain ⟨spelled, here, rfl⟩ := head.tokens number 0
      obtain ⟨scanned, behind, contents⟩ := ih others (number + 1)
      have nonempty : spelled.isEmpty = false := by
        cases spelled with
        | nil => exact absurd rfl first
        | cons token spelled => rfl
      refine ⟨⟨number, spelled⟩ :: scanned, ?_, ?_⟩
      · have found : lineOf number spelled = [⟨number, spelled⟩] := by simp [lineOf, nonempty]
        rw [scanLines, here, behind, ← List.singleton_append, ← found]
        rfl
      · rw [List.map_cons, contents, List.zipIdx_cons]
        rfl

/-- Lines without line breaks of their own. -/
def Unbroken (line : List Char) : Prop := ∀ c ∈ line, c ≠ '\n' ∧ c ≠ '\r'

theorem splitLines_unbroken {line : List Char} (h : Unbroken line) (rest : List Char) :
    splitLines (line ++ rest) = (line ++ (splitLines rest).1, (splitLines rest).2) := by
  induction line with
  | nil => rfl
  | cons c line ih =>
      obtain ⟨⟨newline, return'⟩, others⟩ := List.forall_mem_cons.1 h
      rw [List.cons_append, splitLines_char newline fun same => absurd same return', ih others]
      rfl

theorem splitLines_intercalate {line : List Char} {lines : List (List Char)}
    (h : ∀ l ∈ line :: lines, Unbroken l) :
    splitLines (['\n'].intercalate (line :: lines)) = (line, lines) := by
  induction lines generalizing line with
  | nil =>
      have whole := splitLines_unbroken (h line List.mem_cons_self) []
      simpa [splitLines] using whole
  | cons next lines ih =>
      obtain ⟨first, others⟩ := List.forall_mem_cons.1 h
      rw [List.intercalate_cons_cons, List.append_assoc, splitLines_unbroken first,
        List.singleton_append, splitLines_newline, ih others, List.append_nil]

theorem splitLines_fst (text : List Char) : '\n' ∉ (splitLines text).1 ∧
    (splitLines text).1.length ≤ text.length ∧
    ((splitLines text).1.length = text.length → (splitLines text).1 = text) := by
  induction text with
  | nil => simp [splitLines]
  | cons c text ih =>
      obtain ⟨unbroken, short, whole⟩ := ih
      by_cases newline : c = '\n'
      · subst newline
        simp [splitLines_newline]
      · by_cases return' : c = '\r' ∧ text.head? = some '\n'
        · obtain ⟨rfl, next⟩ := return'
          obtain ⟨more, rfl⟩ := List.head?_eq_some_iff.1 next
          rw [splitLines_return_newline, List.length_cons]
          exact ⟨unbroken, by omega, by omega⟩
        · rw [splitLines_char newline fun same next => return' ⟨same, next⟩]
          simp only [List.length_cons, List.mem_cons, not_or]
          refine ⟨⟨fun same => newline same.symm, unbroken⟩, by omega, ?_⟩
          intro same
          rw [whole (by omega)]

/-- A line with tokens begins with a lexeme, and its other tokens are those of the rest. -/
theorem tokens_eq_ok {number p : Nat} {c : Char} {cs : List Char} {found : List Token}
    (h : tokens classes number p (c :: cs) = .ok found) : ∃ n rest,
      greatest (readers classes (c :: cs)) = n + 1 ∧
      tokens classes number (p + (n + 1)) ((c :: cs).drop (n + 1)) = .ok rest ∧
      found = ((kindOf (readers classes (c :: cs)) (n + 1)).map
        (Token.mk (p + 1) (String.ofList ((c :: cs).take (n + 1))))).toList ++ rest := by
  cases len : greatest (readers classes (c :: cs)) with
  | zero =>
      rw [tokens_of_none len] at h
      cases h
  | succ n =>
      rw [tokens_of_greatest len] at h
      obtain ⟨rest, behind, rfl⟩ := map_eq_ok.1 h
      exact ⟨n, rest, rfl, behind, rfl⟩

theorem length_take_of_greatest {text : List Char} {n : Nat}
    (length : greatest (readers classes text) = n + 1) : (text.take (n + 1)).length = n + 1 := by
  rw [List.length_take]
  exact Nat.min_eq_left (Nat.le_trans (Nat.le_of_eq length.symm) (greatest_readers_le text))

theorem cuts_of_mem_tokens {number p : Nat} {text : List Char} {found : List Token}
    (h : tokens classes number p text = .ok found) : ∀ token ∈ found, ∃ before lexeme rest,
      text = before ++ (lexeme ++ rest) ∧ Cuts classes lexeme (some token.kind) rest ∧
        token.text = String.ofList lexeme ∧ token.col = p + before.length + 1 := by
  induction p, text using tokens.induct classes generalizing found with
  | case1 p =>
      rw [tokens] at h
      cases h
      simp
  | case2 p c cs =>
      rename_i nothing
      rw [tokens_of_none nothing] at h
      cases h
  | case3 p c cs n =>
      rename_i length ih
      have cut := length_take_of_greatest length
      rw [tokens_of_greatest length] at h
      obtain ⟨rest, behind, rfl⟩ := map_eq_ok.1 h
      intro token member
      rcases List.mem_append.1 member with first | later
      · obtain ⟨kind, found, rfl⟩ := Option.map_eq_some_iff.1 (Option.mem_toList.1 first)
        refine ⟨[], (c :: cs).take (n + 1), (c :: cs).drop (n + 1), ?_, ⟨by simp, ?_, ?_⟩, rfl,
          rfl⟩
        · rw [List.nil_append, List.take_append_drop]
        · rw [List.take_append_drop, cut]
          exact length
        · rw [List.take_append_drop, cut, found]
      · obtain ⟨before, lexeme, rest, split, cuts, text, col⟩ := ih behind token later
        refine ⟨(c :: cs).take (n + 1) ++ before, lexeme, rest, ?_, cuts, text, ?_⟩
        · rw [List.append_assoc, ← split, List.take_append_drop]
        · rw [col, List.length_append, cut, Nat.add_assoc p]

theorem tokens_eq_error {number p : Nat} {text : List Char} {e : LexError}
    (h : tokens classes number p text = .error e) : ∃ before after,
      text = before ++ e.char :: after ∧ e.line = number ∧ e.col = p + before.length + 1 := by
  induction p, text using tokens.induct classes with
  | case1 p =>
      rw [tokens] at h
      cases h
  | case2 p c cs =>
      rename_i nothing
      rw [tokens_of_none nothing] at h
      cases h
      exact ⟨[], cs, rfl, rfl, rfl⟩
  | case3 p c cs n =>
      rename_i length ih
      rw [tokens_of_greatest length] at h
      obtain ⟨before, after, split, line, col⟩ := ih (map_eq_error.1 h)
      refine ⟨(c :: cs).take (n + 1) ++ before, after, ?_, line, ?_⟩
      · rw [List.append_assoc, ← split, List.take_append_drop]
      · rw [col, List.length_append, length_take_of_greatest length, Nat.add_assoc p]

theorem mem_lineOf {number : Nat} {found : List Token} {line : Line} :
    line ∈ lineOf number found ↔ found ≠ [] ∧ line = ⟨number, found⟩ := by
  cases found <;> simp [lineOf]

theorem exists_of_mem_scanLines {number : Nat} {lines : List (List Char)} {found : List Line}
    (h : scanLines classes number lines = .ok found) : ∀ line ∈ found, ∃ i text,
      line.number = number + i ∧ lines[i]? = some text ∧ line.tokens ≠ [] ∧
        tokens classes (number + i) 0 text = .ok line.tokens := by
  induction lines generalizing number found with
  | nil =>
      cases h
      simp
  | cons text lines ih =>
      simp only [scanLines, bind_eq_ok, pure_eq_ok] at h
      obtain ⟨tokens, first, rest, behind, rfl⟩ := h
      intro line member
      rcases List.mem_append.1 member with here | later
      · obtain ⟨filled, rfl⟩ := mem_lineOf.1 here
        exact ⟨0, text, rfl, rfl, filled, first⟩
      · obtain ⟨i, text, place, known, rest⟩ := ih behind line later
        rw [Nat.add_assoc, Nat.add_comm 1 i] at place rest
        exact ⟨i + 1, text, place, known, rest⟩

theorem scanLines_eq_error {number : Nat} {lines : List (List Char)} {e : LexError}
    (h : scanLines classes number lines = .error e) :
    ∃ i text, lines[i]? = some text ∧ tokens classes (number + i) 0 text = .error e := by
  induction lines generalizing number with
  | nil => cases h
  | cons text lines ih =>
      cases first : tokens classes number 0 text with
      | error e' =>
          rw [scanLines, first] at h
          cases h
          exact ⟨0, text, rfl, first⟩
      | ok found =>
          cases behind : scanLines classes (number + 1) lines with
          | ok rest =>
              rw [scanLines, first, behind] at h
              cases h
          | error e' =>
              rw [scanLines, first, behind] at h
              cases h
              obtain ⟨i, text, known, failed⟩ := ih behind
              rw [Nat.add_assoc, Nat.add_comm 1 i] at failed
              exact ⟨i + 1, text, known, failed⟩

theorem tokens_of_scan {text : List Char} {found : List Token}
    (h : scan classes text = .ok [⟨1, found⟩]) :
    tokens classes 1 0 (splitLines text).1 = .ok found := by
  simp only [scan, scanLines, bind_eq_ok, pure_eq_ok] at h
  obtain ⟨first, scanned, rest, behind, all⟩ := h
  cases first with
  | nil =>
      -- the lines behind the first have other numbers
      obtain rfl : rest = [⟨1, found⟩] := all
      obtain ⟨i, _, late, -⟩ := exists_of_mem_scanLines behind _ List.mem_cons_self
      dsimp only at late
      omega
  | cons token others =>
      simp only [lineOf, List.isEmpty_cons, Bool.false_eq_true, if_false, List.singleton_append,
        List.cons.injEq, Line.mk.injEq, true_and] at all
      rw [scanned, all.1]

theorem greatest_of_tokens {number : Nat} {text : List Char} {spelling : String} {kind : TokenKind}
    (h : tokens classes number 0 text = .ok [⟨1, spelling, kind⟩]) : ∃ n,
      greatest (readers classes text) = n + 1 ∧ kindOf (readers classes text) (n + 1) = some kind ∧
        spelling.toList = text.take (n + 1) := by
  cases text with
  | nil =>
      rw [tokens] at h
      cases h
  | cons c cs =>
      obtain ⟨n, rest, length, behind, cut⟩ := tokens_eq_ok h
      refine ⟨n, length, ?_⟩
      cases first : kindOf (readers classes (c :: cs)) (n + 1) with
      | none =>
          rw [first] at cut
          -- the tokens behind a lexeme have other columns
          obtain rfl : [⟨1, spelling, kind⟩] = rest := cut
          obtain ⟨_, _, _, -, -, -, far⟩ := cuts_of_mem_tokens behind _ List.mem_cons_self
          dsimp only at far
          omega
      | some found =>
          rw [first] at cut
          obtain ⟨-, rfl, rfl⟩ := Token.mk.inj (List.cons.inj cut).1
          exact ⟨rfl, String.toList_ofList⟩

theorem cuts_of_scan {text : String} {kind : TokenKind}
    (h : scan classes text.toList = .ok [⟨1, [⟨1, text, kind⟩]⟩]) :
    Cuts classes text.toList (some kind) [] ∧ '\n' ∉ text.toList := by
  obtain ⟨unbroken, short, whole⟩ := splitLines_fst text.toList
  obtain ⟨n, length, first, spelled⟩ := greatest_of_tokens (tokens_of_scan h)
  have cut := length_take_of_greatest length
  rw [← spelled] at cut
  have all : (splitLines text.toList).1 = text.toList := by
    have bound := List.length_take_le' (n + 1) (splitLines text.toList).1
    rw [← spelled] at bound
    exact whole (Nat.le_antisymm short bound)
  rw [all] at length first unbroken
  refine ⟨⟨?_, ?_, ?_⟩, unbroken⟩
  · exact List.ne_nil_of_length_eq_add_one cut
  · rw [List.append_nil, length, cut]
  · rw [List.append_nil, cut, first]

end Munch

end Assembler
