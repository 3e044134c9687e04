import Assembler.Proofs.Grammar.Table
import Assembler.Proofs.Parsing.Derivation
import Mathlib.Logic.Relation

/-! # Runs over any reading

The parser as a relation between situations: a stack of states with the values that led to them, and
the input left. A step is a shift or a reduction, as the table says, and at most one is possible.
Over tokens and trees these are the steps of the parser itself, and its loop has a result where
finitely many of them lead to one.
-/

namespace Assembler

/-- A parse in the middle of its work. -/
structure Situation (β α : Type) where
  /-- The states above the start state with the value that led to each, topmost first. -/
  stack : List (Nat × α)
  input : List β

namespace Situation

variable {β α : Type}

def topOf : List (Nat × α) → Nat
  | [] => 0
  | frame :: _ => frame.1

/-- What a table wants done in a situation. -/
def action? (t : Table) (r : Reading β α) (c : Situation β α) : Option Action :=
  t.action? (topOf c.stack) (Table.columnOf t.grammar (r.lookahead c.input))

inductive Step (t : Table) (r : Reading β α) : Situation β α → Situation β α → Prop where
  | shift {stack : List (Nat × α)} {b : β} {rest : List β} {j : Nat}
      (wanted : action? t r ⟨stack, b :: rest⟩ = some (.shift j)) :
      Step t r ⟨stack, b :: rest⟩ ⟨(j, r.leaf b) :: stack, rest⟩
  | reduce {frames stack : List (Nat × α)} {input : List β} {p j : Nat} {production : Production}
      (wanted : action? t r ⟨frames ++ stack, input⟩ = some (.reduce p))
      (rule : t.grammar.productions[p]? = some production)
      (count : frames.length = production.rhs.length)
      (goto : t.goto? (topOf stack) production.lhs = some j) :
      Step t r ⟨frames ++ stack, input⟩
        ⟨(j, r.node p production (frames.reverse.map (·.2))) :: stack, input⟩

/-- The parse ends here with a value. -/
inductive Accepts (t : Table) (r : Reading β α) : Situation β α → α → Prop where
  | intro {frames stack : List (Nat × α)} {input : List β} {p : Nat} {production : Production}
      (wanted : action? t r ⟨frames ++ stack, input⟩ = some (.accept p))
      (rule : t.grammar.productions[p]? = some production)
      (count : frames.length = production.rhs.length) :
      Accepts t r ⟨frames ++ stack, input⟩ (r.node p production (frames.reverse.map (·.2)))

abbrev Reaches (t : Table) (r : Reading β α) : Situation β α → Situation β α → Prop :=
  Relation.ReflTransGen (Step t r)

variable {t : Table} {r : Reading β α}

theorem Step.unique {c a b : Situation β α} (ha : Step t r c a) (hb : Step t r c b) : a = b := by
  cases ha with
  | shift wanted =>
      generalize same : (⟨_, _⟩ : Situation β α) = d at hb
      cases hb with
      | shift wanted' =>
          cases same
          cases wanted.symm.trans wanted'
          rfl
      | reduce wanted' _ _ _ =>
          rw [← same] at wanted'
          cases wanted.symm.trans wanted'
  | @reduce frames stack input p j production wanted rule count goto =>
      generalize same : (⟨frames ++ stack, input⟩ : Situation β α) = d at hb
      cases hb with
      | shift wanted' =>
          rw [← same] at wanted'
          cases wanted.symm.trans wanted'
      | reduce wanted' rule' count' goto' =>
          rw [← same] at wanted'
          cases wanted.symm.trans wanted'
          cases rule.symm.trans rule'
          simp only [Situation.mk.injEq] at same
          obtain ⟨sameStack, rfl⟩ := same
          obtain ⟨rfl, rfl⟩ := List.append_inj sameStack (count.trans count'.symm)
          cases goto.symm.trans goto'
          rfl

theorem Step.input_suffix {c d : Situation β α} (h : Step t r c d) : d.input <:+ c.input := by
  cases h with
  | shift _ => exact List.suffix_cons _ _
  | reduce _ _ _ _ => exact List.suffix_rfl

theorem input_suffix_of_reaches {c d : Situation β α} (h : Reaches t r c d) :
    d.input <:+ c.input := by
  induction h with
  | refl => exact List.suffix_rfl
  | tail _ step ih => exact step.input_suffix.trans ih

theorem Accepts.unique {c : Situation β α} {v w : α} (hv : Accepts t r c v)
    (hw : Accepts t r c w) : v = w := by
  obtain ⟨wanted, rule, count⟩ := hv
  generalize same : (⟨_, _⟩ : Situation β α) = d at hw
  obtain ⟨wanted', rule', count'⟩ := hw
  rw [← same] at wanted'
  cases wanted.symm.trans wanted'
  cases rule.symm.trans rule'
  simp only [Situation.mk.injEq] at same
  obtain ⟨rfl, rfl⟩ := List.append_inj same.1 (count.trans count'.symm)
  rfl

theorem Accepts.no_step {c d : Situation β α} {v : α} (h : Accepts t r c v) : ¬Step t r c d := by
  intro step
  obtain ⟨wanted, -, -⟩ := h
  generalize same : (⟨_, _⟩ : Situation β α) = e at step
  cases step with
  | shift wanted' =>
      rw [← same] at wanted'
      cases wanted.symm.trans wanted'
  | reduce wanted' _ _ _ =>
      rw [← same] at wanted'
      cases wanted.symm.trans wanted'

theorem Accepts.unique_of_reaches {c a b : Situation β α} {v w : α} (ha : Reaches t r c a)
    (hb : Reaches t r c b) (hv : Accepts t r a v) (hw : Accepts t r b w) : v = w := by
  have unique : Relator.RightUnique (Step t r) := fun _ _ _ => Step.unique
  have same : a = b := by
    rcases ha.total_of_right_unique unique hb with ab | ba
    · rcases ab.cases_head with rfl | ⟨_, step, -⟩
      · rfl
      · exact absurd step hv.no_step
    · rcases ba.cases_head with rfl | ⟨_, step, -⟩
      · rfl
      · exact absurd step hw.no_step
  exact hv.unique (same ▸ hw)

end Situation

namespace Configuration

/-- The situation of a configuration of the parser. -/
def situation (c : Configuration) : Situation Token Tree :=
  ⟨c.stack.map fun frame => (frame.state, frame.tree), c.input⟩

theorem topOf_situation (stack : List Frame) :
    Situation.topOf (stack.map fun frame => (frame.state, frame.tree)) = topOf stack := by
  cases stack <;> rfl

end Configuration

/-- What a step ends the parse with, if it does. -/
def StepResult.outcome? : StepResult → Option (Except ParseError Tree)
  | .next _ => none
  | .accepted tree => some (.ok tree)
  | .failed e => some (.error e)

theorem StepResult.outcome?_eq_ok_iff {r : StepResult} {tree : Tree} :
    r.outcome? = some (.ok tree) ↔ r = .accepted tree := by
  cases r <;> simp [outcome?]

theorem StepResult.outcome?_eq_error_iff {r : StepResult} {e : ParseError} :
    r.outcome? = some (.error e) ↔ r = .failed e := by
  cases r <;> simp [outcome?]

namespace Table

variable {t : Table} {line : Nat}

/-- The column that the parser looks at is that of the lookahead. -/
def Sighted (t : Table) (line : Nat) (input : List Token) : Prop :=
  t.inputColumn? input = some (columnOf t.grammar ((Tree.reading t.grammar line).lookahead input))

theorem bind_action?_eq {c : Configuration} (sighted : t.Sighted line c.input) :
    (t.inputColumn? c.input).bind (t.action? c.top) =
      c.situation.action? t (Tree.reading t.grammar line) := by
  rw [sighted]
  simp only [Option.bind_some, Situation.action?, Configuration.situation,
    Configuration.topOf_situation]
  rfl

theorem reduce_eq_ok_iff {p : Nat} {stack below : List Frame} {n : Nat} {tree : Tree} :
    t.reduce line p stack = .ok (below, n, tree) ↔
      ∃ production, t.grammar.productions[p]? = some production ∧
        ∃ frames, frames.length = production.rhs.length ∧ stack = frames ++ below ∧
          n = production.lhs ∧
          tree = (Tree.reading t.grammar line).node p production (frames.reverse.map (·.tree)) := by
  simp only [Table.reduce]
  cases rule : t.grammar.productions[p]? with
  | none => simp
  | some production =>
      simp only [Option.some.injEq, exists_eq_left']
      split
      · next short =>
          simp only [reduceCtorEq, false_iff, not_exists, not_and]
          rintro frames count rfl
          simp only [List.length_append] at short
          omega
      · next long =>
          simp only [Except.ok.injEq, Prod.mk.injEq]
          constructor
          · rintro ⟨rfl, rfl, rfl⟩
            exact ⟨stack.take production.rhs.length, by rw [List.length_take]; omega,
              (List.take_append_drop _ _).symm, rfl, rfl⟩
          · rintro ⟨frames, count, rfl, rfl, rfl⟩
            simp [← count, Tree.reading]

/-- What the table wants done in a configuration. -/
def wanted? (t : Table) (c : Configuration) : Option Action :=
  (t.inputColumn? c.input).bind (t.action? c.top)

/-- All that a step can do: take the next token, or reduce. -/
theorem step_eq_next_iff {c d : Configuration} : t.step line c = .next d ↔
    (∃ j token, t.wanted? c = some (.shift j) ∧ c.input = token :: d.input ∧
      d.stack = ⟨j, .leaf line token⟩ :: c.stack) ∨
    ∃ p below n tree j, t.wanted? c = some (.reduce p) ∧
      t.reduce line p c.stack = .ok (below, n, tree) ∧
      t.goto? (Configuration.topOf below) n = some j ∧ d = ⟨⟨j, tree⟩ :: below, c.input⟩ := by
  unfold wanted?
  constructor
  · intro h
    unfold step at h
    split at h
    · cases h
    · next j wanted =>
        split at h
        · cases h
        · next token rest input =>
            cases h
            exact .inl ⟨j, token, wanted, input, rfl⟩
    · next p wanted =>
        split at h
        · cases h
        · next below n tree reduced =>
            split at h
            · cases h
            · next j goto =>
                cases h
                exact .inr ⟨p, below, n, tree, j, wanted, reduced, goto, rfl⟩
    · split at h <;> cases h
  · rintro (⟨j, token, wanted, input, stack⟩ | ⟨p, below, n, tree, j, wanted, reduced, goto, rfl⟩)
    · obtain ⟨below, whole⟩ := c
      obtain ⟨pushed, rest⟩ := d
      obtain rfl : whole = token :: rest := input
      cases stack
      simp only [step, wanted]
    · simp only [step, wanted, reduced, goto]

theorem step_eq_accepted_iff {c : Configuration} {tree : Tree} :
    t.step line c = .accepted tree ↔ ∃ p below n, t.wanted? c = some (.accept p) ∧
      t.reduce line p c.stack = .ok (below, n, tree) := by
  unfold wanted?
  constructor
  · intro h
    unfold step at h
    split at h
    · cases h
    · split at h <;> cases h
    · split at h
      · cases h
      · split at h <;> cases h
    · next p wanted =>
        split at h
        · cases h
        · next below n tree' reduced =>
            cases h
            exact ⟨p, below, n, wanted, reduced⟩
  · rintro ⟨p, below, n, wanted, reduced⟩
    simp only [step, wanted, reduced]

theorem loop_of_eq_next {c d : Configuration} (h : t.step line c = .next d) :
    t.loop line c = t.loop line d := by
  rw [loop, h]

theorem loop_of_eq_accepted {c : Configuration} {tree : Tree} (h : t.step line c = .accepted tree) :
    t.loop line c = some (.ok tree) := by
  rw [loop, h]

theorem parse_eq_ok_iff_loop {l : Line} {tree : Tree} :
    t.parse l = .ok tree ↔ t.loop l.number (.start l.tokens) = some (.ok tree) := by
  unfold parse
  cases t.loop l.number (.start l.tokens) <;> simp

theorem parse_eq_error_iff_loop {l : Line} {e : ParseError} : t.parse l = .error e ↔
    t.loop l.number (.start l.tokens) = some (.error e) ∨
      t.loop l.number (.start l.tokens) = none ∧ .fault .endlessParse = e := by
  unfold parse
  cases t.loop l.number (.start l.tokens) <;> simp

theorem step_of_eq_next {c d : Configuration} (sighted : t.Sighted line c.input)
    (h : t.step line c = .next d) :
    Situation.Step t (Tree.reading t.grammar line) c.situation d.situation := by
  have seen : t.wanted? c = c.situation.action? t (Tree.reading t.grammar line) :=
    bind_action?_eq sighted
  obtain ⟨stack, input⟩ := c
  rcases step_eq_next_iff.1 h with
    ⟨j, token, wanted, taken, pushed⟩ | ⟨p, below, n, tree, j, wanted, reduced, goto, rfl⟩
  · obtain ⟨stack', rest⟩ := d
    obtain rfl : input = token :: rest := taken
    cases pushed
    exact .shift (seen.symm.trans wanted)
  · obtain ⟨production, rule, frames, count, rfl, rfl, rfl⟩ := reduce_eq_ok_iff.1 reduced
    rw [seen] at wanted
    rw [← Configuration.topOf_situation] at goto
    simp only [Configuration.situation, List.map_append, List.map_cons] at wanted ⊢
    have step := Situation.Step.reduce wanted rule (by simpa using count) goto
    simpa [Function.comp_def] using step

theorem exists_reduce_eq_ok (line : Nat) {stack : List Frame} {popped left : List (Nat × Tree)}
    {p : Nat} {production : Production} (rule : t.grammar.productions[p]? = some production)
    (split : stack.map (fun frame => (frame.state, frame.tree)) = popped ++ left)
    (count : popped.length = production.rhs.length) :
    ∃ below : List Frame, below.map (fun frame => (frame.state, frame.tree)) = left ∧
      t.reduce line p stack = .ok (below, production.lhs,
        (Tree.reading t.grammar line).node p production (popped.reverse.map (·.2))) := by
  obtain ⟨frames, below, rfl, rfl, rfl⟩ := List.map_eq_append_iff.1 split
  refine ⟨below, rfl, reduce_eq_ok_iff.2 ⟨production, rule, frames, ?_, rfl, rfl, ?_⟩⟩
  · simpa using count
  · simp [Function.comp_def]

/-- Over tokens and trees every step is a step of the parser. -/
theorem exists_next_of_step {c : Configuration} {s : Situation Token Tree}
    (sighted : t.Sighted line c.input)
    (h : Situation.Step t (Tree.reading t.grammar line) c.situation s) :
    ∃ d : Configuration, d.situation = s ∧ t.step line c = .next d := by
  obtain ⟨stack, input⟩ := c
  have action := bind_action?_eq sighted
  generalize view : Configuration.situation ⟨stack, input⟩ = start at h action
  cases h with
  | @shift pairs token rest j wanted =>
      cases view
      refine ⟨⟨⟨j, .leaf line token⟩ :: stack, rest⟩, rfl, ?_⟩
      simp only [Table.step, action, wanted]
  | @reduce popped left tokens p j production wanted rule count goto =>
      simp only [Configuration.situation, Situation.mk.injEq] at view
      obtain ⟨split, rfl⟩ := view
      obtain ⟨below, rfl, reduced⟩ := exists_reduce_eq_ok line rule split count
      rw [Configuration.topOf_situation] at goto
      refine ⟨⟨⟨j, (Tree.reading t.grammar line).node p production (popped.reverse.map (·.2))⟩ ::
        below, input⟩, rfl, ?_⟩
      simp only [Table.step, action, wanted, reduced, goto]

theorem step_of_accepts {c : Configuration} {tree : Tree} (sighted : t.Sighted line c.input)
    (h : Situation.Accepts t (Tree.reading t.grammar line) c.situation tree) :
    t.step line c = .accepted tree := by
  obtain ⟨stack, input⟩ := c
  have action := bind_action?_eq sighted
  generalize view : Configuration.situation ⟨stack, input⟩ = start at h action
  cases h with
  | @intro popped left tokens p production wanted rule count =>
      simp only [Configuration.situation, Situation.mk.injEq] at view
      obtain ⟨split, rfl⟩ := view
      obtain ⟨below, -, reduced⟩ := exists_reduce_eq_ok line rule split count
      simp only [Table.step, action, wanted, reduced]

theorem accepts_of_step {c : Configuration} {tree : Tree} (sighted : t.Sighted line c.input)
    (h : t.step line c = .accepted tree) :
    Situation.Accepts t (Tree.reading t.grammar line) c.situation tree := by
  have seen : t.wanted? c = c.situation.action? t (Tree.reading t.grammar line) :=
    bind_action?_eq sighted
  obtain ⟨p, below, n, wanted, reduced⟩ := step_eq_accepted_iff.1 h
  obtain ⟨stack, input⟩ := c
  obtain ⟨production, rule, frames, count, rfl, rfl, rfl⟩ := reduce_eq_ok_iff.1 reduced
  rw [seen] at wanted
  simp only [Configuration.situation, List.map_append] at wanted ⊢
  have accepts := Situation.Accepts.intro wanted rule (by simpa using count)
  simpa [Function.comp_def] using accepts

/-- Finitely many steps lead from one configuration to another. -/
abbrev Runs (t : Table) (line : Nat) : Configuration → Configuration → Prop :=
  Relation.ReflTransGen fun c d => t.step line c = .next d

theorem loop_of_runs {c last : Configuration} {result : Except ParseError Tree}
    (run : t.Runs line c last) (ended : (t.step line last).outcome? = some result) :
    t.loop line c = some result := by
  induction run using Relation.ReflTransGen.head_induction_on with
  | refl =>
      rw [loop]
      cases stepped : t.step line last with
      | next d => simp [stepped, StepResult.outcome?] at ended
      | accepted tree => simpa [stepped, StepResult.outcome?] using ended
      | failed e => simpa [stepped, StepResult.outcome?] using ended
  | head step _ ih => rw [loop_of_eq_next step, ih]

/-- Taking steps until one ends the parse has a result just if finitely many steps lead to it. -/
theorem loop_eq_some_iff {c : Configuration} {result : Except ParseError Tree} :
    t.loop line c = some result ↔
      ∃ last, t.Runs line c last ∧ (t.step line last).outcome? = some result := by
  refine ⟨fun looped => ?_, fun ⟨last, run, ended⟩ => loop_of_runs run ended⟩
  refine loop.partial_correctness t line (fun c result => ∃ last, t.Runs line c last ∧
    (t.step line last).outcome? = some result) ?_ c result looped
  intro loop ih c result ended
  cases stepped : t.step line c with
  | next d =>
      rw [stepped] at ended
      obtain ⟨last, run, stops⟩ := ih d result ended
      exact ⟨last, .head stepped run, stops⟩
  | accepted tree =>
      rw [stepped] at ended
      exact ⟨c, .refl, stepped ▸ ended⟩
  | failed e =>
      rw [stepped] at ended
      exact ⟨c, .refl, stepped ▸ ended⟩

/-- The parser sees the lookahead, unless the next token has a kind that the grammar does not
    name. -/
theorem sighted_of_column (line : Nat) {input : List Token} {col : Nat}
    (h : t.inputColumn? input = some col) : t.Sighted line input := by
  cases input with
  | nil => rfl
  | cons token rest =>
      simp only [inputColumn?, column?] at h
      cases index : lastIndexOf? token.kind.name t.grammar.terminals with
      | some i =>
          simp [Sighted, inputColumn?, column?, Reading.lookahead, columnOf, Tree.reading, index]
      | none =>
          simp only [index] at h
          split at h
          · next named =>
              rw [named] at index
              simp [Sighted, inputColumn?, column?, Reading.lookahead, columnOf, Tree.reading,
                index, named, endColumn]
          · cases h

theorem action?_of_wanted? (line : Nat) {c : Configuration} {a : Action}
    (h : t.wanted? c = some a) : c.situation.action? t (Tree.reading t.grammar line) = some a := by
  obtain ⟨col, column, -⟩ := Option.bind_eq_some_iff.1 h
  exact (bind_action?_eq (sighted_of_column line column)).symm.trans h

theorem sighted_of_next {c d : Configuration} (h : t.step line c = .next d) :
    t.Sighted line c.input := by
  cases column : t.inputColumn? c.input with
  | none => simp [step, column] at h
  | some col => exact sighted_of_column line column

theorem reaches_of_runs {c d : Configuration} (run : t.Runs line c d) :
    Situation.Reaches t (Tree.reading t.grammar line) c.situation d.situation := by
  induction run with
  | refl => exact .refl
  | tail _ step ih => exact ih.tail (step_of_eq_next (sighted_of_next step) step)

end Table

end Assembler
