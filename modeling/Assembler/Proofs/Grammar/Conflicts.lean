import Assembler.Proofs.Grammar.Reachability

/-! # Which grammars have a table

A cell is wanted twice if two productions are complete before the same lookahead, or if one is
complete before a terminal that can be taken. An action that is already in its cell is not a
conflict, but then it comes from the same item, so no conflict is passed over. Conversely, whatever
is in a cell when an error is reported comes from an item of the state, and that item and the one
just entered are the conflict.
-/

namespace Assembler

variable {g : Grammar}

/-- The name that messages have for a lookahead. -/
def Lookahead.name (g : Grammar) : Lookahead → String
  | .terminal t => g.name (.terminal t)
  | .endOfInput => Table.endName

namespace ItemSet

/-- Two productions are complete before the same lookahead. -/
structure ReduceReduce (g : Grammar) (items : ItemSet) (first second : Item) : Prop where
  left : first ∈ items
  right : second ∈ items
  distinct : first ≠ second
  complete : first.isComplete g = true
  complete' : second.isComplete g = true
  lookahead : first.lookahead = second.lookahead

/-- A production is complete before a terminal that another item expects. -/
structure ShiftReduce (g : Grammar) (items : ItemSet) (reduced shifted : Item) : Prop where
  left : reduced ∈ items
  right : shifted ∈ items
  complete : reduced.isComplete g = true
  expected : ∃ t, reduced.lookahead = .terminal t ∧ shifted.next? g = some (.terminal t)

/-- Some lookahead does not tell what to do. -/
def Conflicted (g : Grammar) (items : ItemSet) : Prop :=
  ∃ a b, ReduceReduce g items a b ∨ ShiftReduce g items a b

end ItemSet

/-- Errors that name a state with a conflict of their kind, its lookahead and its productions. -/
inductive TableError.Arises (g : Grammar) (states : List State) : TableError → Prop where
  | shiftReduce {i : Nat} {s : State} {reduced shifted : Item} (found : states[i]? = some s)
      (conflict : s.items.ShiftReduce g reduced shifted) :
      Arises g states (.shiftReduce i (reduced.lookahead.name g)
        (g.productionText reduced.production))
  | reduceReduce {i : Nat} {s : State} {first second : Item} (found : states[i]? = some s)
      (conflict : s.items.ReduceReduce g first second) :
      Arises g states (.reduceReduce i (second.lookahead.name g)
        (g.productionText first.production) (g.productionText second.production))

theorem TableError.Arises.exists_conflicted {states : List State} {e : TableError}
    (h : e.Arises g states) : ∃ s ∈ states, s.items.Conflicted g := by
  cases h with
  | shiftReduce found conflict => exact ⟨_, List.mem_of_getElem? found, _, _, .inr conflict⟩
  | reduceReduce found conflict => exact ⟨_, List.mem_of_getElem? found, _, _, .inl conflict⟩

/-- A table that holds what the items and the transitions of the states ask for, and nothing
    else. -/
structure Table.Tabulates (t : Table) (g : Grammar) (states : List State) : Prop where
  grammar : t.grammar = g
  shift : ∀ i c j, t.action? i c = some (.shift j) ↔
    ∃ s, states[i]? = some s ∧ s.target? (.terminal c) = some j
  accept : ∀ i c p, t.action? i c = some (.accept p) ↔
    c = t.endColumn ∧ p ∈ g.productionsOf g.goal ∧
      ∃ s, states[i]? = some s ∧ ∃ item ∈ s.items, item.production = p ∧ item.isComplete g = true
  reduce : ∀ i c p, t.action? i c = some (.reduce p) ↔ p ∉ g.productionsOf g.goal ∧
    ∃ s, states[i]? = some s ∧ ∃ item ∈ s.items, item.production = p ∧ item.isComplete g = true ∧
      Table.columnOf g item.lookahead = c
  empty : ∀ i c, t.action? i c = none ↔ ∀ s, states[i]? = some s →
    s.target? (.terminal c) = none ∧
      ∀ item ∈ s.items, item.isComplete g = true → Table.columnOf g item.lookahead ≠ c
  goto : ∀ i n j, t.goto? i n = some j ↔
    ∃ s, states[i]? = some s ∧ s.target? (.nonterminal n) = some j

namespace Item.Of

variable {a b : Item}

theorem columnName_eq (h : a.Of g) :
    Table.columnName g (Table.columnOf g a.lookahead) = a.lookahead.name g := by
  cases ahead : a.lookahead with
  | terminal t =>
      have inside := h.lookahead_lt t ahead
      simp [Table.columnName, Table.columnOf, Lookahead.name, Grammar.name, inside]
  | endOfInput => simp [Table.columnName, Table.columnOf, Lookahead.name]

theorem eq_of_complete (ha : a.Of g) (hb : b.Of g) (complete : a.isComplete g = true)
    (complete' : b.isComplete g = true) (production : a.production = b.production)
    (lookahead : a.lookahead = b.lookahead) : a = b := by
  have cursor : a.cursor = b.cursor := by
    rw [ha.cursor_eq complete, hb.cursor_eq complete', production]
  cases a
  cases b
  simp_all

end Item.Of

namespace Table

/-! ### Errors come from conflicts -/

/-- An action that a complete item of a set puts in a column. -/
def Completes (g : Grammar) (items : ItemSet) (c : Nat) (a : Action) : Prop :=
  ∃ item ∈ items, item.isComplete g = true ∧ c = columnOf g item.lookahead ∧ a = completion g item

/-- A row that holds only some entries. -/
def Within (row : Row) (entries : Nat → Action → Prop) : Prop :=
  ∀ c a, row.getD c none = some a → entries c a

theorem Within.set {row : Row} {entries : Nat → Action → Prop} (h : Within row entries)
    {col : Nat} {action : Action} (entry : entries col action) :
    Within (row.set col (some action)) entries := by
  intro c a held
  simp only [List.getD_eq_getElem?_getD, List.getElem?_set] at held
  split at held
  · next here =>
      subst here
      split at held
      · cases held
        exact entry
      · cases held
  · exact h c a (by simpa using held)

section Errors

variable {states : List State} {i : Nat} {s : State} {row : Row}

theorem delivers_enterCompletion (of : ∀ item ∈ s.items, item.Of g) (found : states[i]? = some s)
    {item : Item} (member : item ∈ s.items) (complete : item.isComplete g = true)
    (h : Within row (Completes g s.items)) :
    Delivers (TableError.Arises g states) (fun row => Within row (Completes g s.items))
      (enterCompletion g i row item) := by
  unfold enterCompletion
  simp only
  split
  · exact delivers_ok.2 (h.set ⟨item, member, complete, rfl, rfl⟩)
  · next known held =>
      split
      · exact delivers_ok.2 h
      · next other =>
          obtain ⟨first, member', complete', column, rfl⟩ := h _ _ held
          have conflict : s.items.ReduceReduce g first item :=
            { left := member'
              right := member
              distinct := by
                rintro rfl
                exact other rfl
              complete := complete'
              complete' := complete
              lookahead :=
                columnOf_inj (of first member').lookahead_ne (of item member).lookahead_ne
                  column.symm }
          have arises := TableError.Arises.reduceReduce found conflict
          rw [(of item member).columnName_eq]
          cases action : completion g first with
          | shift j => exact absurd action (completion_ne_shift g first j)
          | reduce p =>
              rw [(completion_eq_reduce_iff.1 action).1] at arises
              exact delivers_error.2 arises
          | accept p =>
              rw [(completion_eq_accept_iff.1 action).1] at arises
              exact delivers_error.2 arises

/-- Shifts are entered over completions. -/
theorem delivers_enterTransition (of : ∀ item ∈ s.items, item.Of g) (found : states[i]? = some s)
    {e : Symbol × Nat} (expected : ∃ item ∈ s.items, item.next? g = some e.1)
    (inside : ∀ t, e.1 = .terminal t → t < g.terminals.length)
    (h : Within row fun c a => Completes g s.items c a ∨ ∃ j, a = .shift j) :
    Delivers (TableError.Arises g states)
      (fun row => Within row fun c a => Completes g s.items c a ∨ ∃ j, a = .shift j)
      (enterTransition g i row e) := by
  obtain ⟨x, target⟩ := e
  cases x with
  | nonterminal n => exact delivers_ok.2 h
  | terminal t =>
      obtain ⟨shifted, member, next⟩ := expected
      -- a reduction in the cell comes from an item before this terminal
      have conflict : ∀ a, row.getD t none = some a → (∀ j, a ≠ .shift j) → ∃ item ∈ s.items,
          a = completion g item ∧ item.lookahead = .terminal t ∧
            s.items.ShiftReduce g item shifted := by
        intro a held reduces
        rcases h t a held with ⟨item, member', complete, column, rfl⟩ | ⟨j, shift⟩
        · have known : Lookahead.terminal t ≠ .terminal g.terminals.length :=
            fun same => Nat.ne_of_lt (inside t rfl) (Lookahead.terminal.inj same)
          have ahead := columnOf_inj (of item member').lookahead_ne known column.symm
          exact ⟨item, member', rfl, ahead, member', member, complete, t, ahead, next⟩
        · exact absurd shift (reduces j)
      simp only [enterTransition]
      split
      · exact delivers_ok.2 (h.set (.inr ⟨target, rfl⟩))
      · exact delivers_ok.2 (h.set (.inr ⟨target, rfl⟩))
      · next p held =>
          obtain ⟨item, member', action, ahead, conflict⟩ := conflict _ held (by simp)
          have arises := TableError.Arises.shiftReduce found conflict
          rw [(completion_eq_reduce_iff.1 action.symm).1, ← (of item member').columnName_eq,
            ahead] at arises
          exact delivers_error.2 arises
      · next p held =>
          obtain ⟨item, member', action, ahead, conflict⟩ := conflict _ held (by simp)
          have arises := TableError.Arises.shiftReduce found conflict
          rw [(completion_eq_accept_iff.1 action.symm).1, ← (of item member').columnName_eq,
            ahead] at arises
          exact delivers_error.2 arises

end Errors

section Canonical

variable (wf : g.WellFormed)
include wf

theorem raisesOnly_actionRow {i : Nat} {s : State} (found : g.states[i]? = some s) :
    RaisesOnly (TableError.Arises g g.states) (actionRow g s) := by
  have of : ∀ item ∈ s.items, item.Of g :=
    Grammar.itemsAt_eq found ▸ (Grammar.closed_itemsAt wf i).of
  have number : s.id = i := (Collection.canonical_states wf).ids i s found
  have blank : Within (List.replicate (g.terminals.length + 1) none) (Completes g s.items) :=
    fun c a held => absurd held (((holds_blank g).cell c a).1)
  have completions : Delivers (TableError.Arises g g.states)
      (fun row => Within row (Completes g s.items))
      ((s.items.toList.filter (·.isComplete g)).foldlM (enterCompletion g s.id)
        (List.replicate (g.terminals.length + 1) none)) := by
    refine Delivers.foldlM (fun item listed row h => ?_) blank
    obtain ⟨member, complete⟩ := List.mem_filter.1 listed
    rw [number]
    exact delivers_enterCompletion of found member complete h
  have shifts : ∀ row, Within row (Completes g s.items) →
      Delivers (TableError.Arises g g.states)
        (fun row => Within row fun c a => Completes g s.items c a ∨ ∃ j, a = .shift j)
        (s.transitions.foldlM (enterTransition g s.id) row) := by
    intro row h
    refine Delivers.foldlM (fun e listed row h => ?_) fun c a held => .inl (h c a held)
    have edge := (Grammar.mem_transitions wf found).1 listed
    rw [number]
    refine delivers_enterTransition of found (Grammar.itemsAt_eq found ▸ edge.expected) ?_ h
    rintro t terminal
    rw [terminal] at edge
    exact edge.terminal_lt wf
  exact (completions.bind shifts).1

theorem raisesOnly_ofGrammar : RaisesOnly (TableError.Arises g g.states) (ofGrammar g) := by
  refine RaisesOnly.bind (RaisesOnly.mapM fun s member => ?_) fun _ _ => raisesOnly_pure _
  obtain ⟨i, found⟩ := List.mem_iff_getElem?.1 member
  exact raisesOnly_actionRow wf found

/-! ### Conflicts lead to errors -/

theorem not_conflicted {t : Table} (h : ofGrammar g = .ok t) {i : Nat} {s : State}
    (found : g.states[i]? = some s) : ¬s.items.Conflicted g := by
  have items := Grammar.itemsAt_eq found
  have of : ∀ item ∈ s.items, item.Of g := items ▸ (Grammar.closed_itemsAt wf i).of
  have completes : ∀ item ∈ s.items, item.isComplete g = true →
      t.action? i (columnOf g item.lookahead) = some (completion g item) := by
    intro item member complete
    exact (action?_eq_some_iff wf h).2 (.inl ⟨item, items ▸ member, complete, rfl, rfl⟩)
  rintro ⟨a, b, conflict | conflict⟩
  · have left := completes a conflict.left conflict.complete
    have right := completes b conflict.right conflict.complete'
    rw [conflict.lookahead, right] at left
    have production := production_of_completion_eq (Option.some.inj left).symm
    exact conflict.distinct ((of a conflict.left).eq_of_complete (of b conflict.right)
      conflict.complete conflict.complete' production conflict.lookahead)
  · obtain ⟨x, ahead, next⟩ := conflict.expected
    have reduces := completes a conflict.left conflict.complete
    obtain ⟨j, edge⟩ := Grammar.exists_edge wf (items ▸ conflict.right) next
    have shifts : t.action? i x = some (.shift j) :=
      (action?_eq_some_iff wf h).2 (.inr ⟨j, edge, rfl⟩)
    rw [ahead, columnOf, shifts] at reduces
    exact completion_ne_shift g a j (Option.some.inj reduces).symm

/-! ### What is in the table -/

/-- Productions of the goal stand before the end of the input only. -/
theorem lookahead_of_goal {i : Nat} {item : Item} (member : item ∈ g.itemsAt i)
    (goal : item.production ∈ g.productionsOf g.goal) : item.lookahead = .endOfInput := by
  obtain ⟨s, found⟩ := Grammar.exists_state_of_mem_itemsAt member
  have reached := Collection.reachable_states wf (List.getElem?_eq_some_iff.1 found).1
  clear found
  induction reached generalizing item with
  | refl =>
      rcases Grammar.itemsAt_zero_origin wf member with ⟨p, -, rfl⟩ | ⟨other, -, expanded⟩
      · rfl
      · exact absurd goal (Grammar.not_goal_of_mem_expand wf expanded)
  | tail _ connects ih =>
      obtain ⟨r, x, found, target⟩ := connects
      have edge := (Collection.target?_eq_some_iff wf found).1 target
      rw [edge.itemsAt_eq] at member
      rcases ItemSet.mem_goto_origin member with ⟨before, listed, -, rfl⟩ | ⟨other, -, expanded⟩
      · have start : before.lookahead = .endOfInput := ih listed goal
        exact start
      · exact absurd goal (Grammar.not_goal_of_mem_expand wf expanded)

theorem action?_eq_some_iff_state {t : Table} (h : ofGrammar g = .ok t) {i c : Nat} {a : Action} :
    t.action? i c = some a ↔ ∃ s, g.states[i]? = some s ∧
      (Completes g s.items c a ∨ ∃ j, s.target? (.terminal c) = some j ∧ a = .shift j) := by
  rw [action?_eq_some_iff wf h]
  constructor
  · rintro (⟨item, member, complete, column, rfl⟩ | ⟨j, edge, rfl⟩)
    · obtain ⟨s, found⟩ := Grammar.exists_state_of_mem_itemsAt member
      exact ⟨s, found, .inl ⟨item, Grammar.itemsAt_eq found ▸ member, complete, column, rfl⟩⟩
    · obtain ⟨item, member, -⟩ := edge.expected
      obtain ⟨s, found⟩ := Grammar.exists_state_of_mem_itemsAt member
      exact ⟨s, found, .inr ⟨j, (Collection.target?_eq_some_iff wf found).2 edge, rfl⟩⟩
  · rintro ⟨s, found, ⟨item, member, complete, column, rfl⟩ | ⟨j, target, rfl⟩⟩
    · exact .inl ⟨item, Grammar.itemsAt_eq found ▸ member, complete, column, rfl⟩
    · exact .inr ⟨j, (Collection.target?_eq_some_iff wf found).1 target, rfl⟩

section Fields

variable {t : Table} (h : ofGrammar g = .ok t)
include h

theorem action?_eq_shift_iff {i c j : Nat} : t.action? i c = some (.shift j) ↔
    ∃ s, g.states[i]? = some s ∧ s.target? (.terminal c) = some j := by
  rw [action?_eq_some_iff_state wf h]
  constructor
  · rintro ⟨s, found, ⟨item, -, -, -, clash⟩ | ⟨k, target, same⟩⟩
    · exact absurd clash.symm (completion_ne_shift g item j)
    · cases same
      exact ⟨s, found, target⟩
  · rintro ⟨s, found, target⟩
    exact ⟨s, found, .inr ⟨j, target, rfl⟩⟩

theorem action?_eq_accept_iff {i c p : Nat} : t.action? i c = some (.accept p) ↔
    c = t.endColumn ∧ p ∈ g.productionsOf g.goal ∧ ∃ s, g.states[i]? = some s ∧
      ∃ item ∈ s.items, item.production = p ∧ item.isComplete g = true := by
  rw [action?_eq_some_iff_state wf h, endColumn, (ofGrammar_eq_ok h).1]
  constructor
  · rintro ⟨s, found, ⟨item, member, complete, column, action⟩ | ⟨k, -, clash⟩⟩
    · obtain ⟨rfl, ended, goal⟩ := completion_eq_accept_iff.1 action.symm
      rw [ended] at column
      exact ⟨column, goal, s, found, item, member, rfl, complete⟩
    · cases clash
  · rintro ⟨rfl, goal, s, found, item, member, rfl, complete⟩
    have ended := lookahead_of_goal wf (Grammar.itemsAt_eq found ▸ member) goal
    refine ⟨s, found, .inl ⟨item, member, complete, by rw [ended, columnOf], ?_⟩⟩
    exact (completion_eq_accept_iff.2 ⟨rfl, ended, goal⟩).symm

theorem action?_eq_reduce_iff {i c p : Nat} : t.action? i c = some (.reduce p) ↔
    p ∉ g.productionsOf g.goal ∧ ∃ s, g.states[i]? = some s ∧ ∃ item ∈ s.items,
      item.production = p ∧ item.isComplete g = true ∧ columnOf g item.lookahead = c := by
  rw [action?_eq_some_iff_state wf h]
  constructor
  · rintro ⟨s, found, ⟨item, member, complete, rfl, action⟩ | ⟨k, -, clash⟩⟩
    · obtain ⟨rfl, other⟩ := completion_eq_reduce_iff.1 action.symm
      have notGoal : item.production ∉ g.productionsOf g.goal := fun goal =>
        other ⟨lookahead_of_goal wf (Grammar.itemsAt_eq found ▸ member) goal, goal⟩
      exact ⟨notGoal, s, found, item, member, rfl, complete, rfl⟩
    · cases clash
  · rintro ⟨notGoal, s, found, item, member, rfl, complete, rfl⟩
    refine ⟨s, found, .inl ⟨item, member, complete, rfl, ?_⟩⟩
    exact (completion_eq_reduce_iff.2 ⟨rfl, fun both => notGoal both.2⟩).symm

theorem action?_eq_none_iff {i c : Nat} : t.action? i c = none ↔ ∀ s, g.states[i]? = some s →
    s.target? (.terminal c) = none ∧
      ∀ item ∈ s.items, item.isComplete g = true → columnOf g item.lookahead ≠ c := by
  rw [Option.eq_none_iff_forall_ne_some]
  constructor
  · intro nothing s found
    refine ⟨Option.eq_none_iff_forall_ne_some.2 fun j target => ?_, ?_⟩
    · exact nothing _ ((action?_eq_some_iff_state wf h).2 ⟨s, found, .inr ⟨j, target, rfl⟩⟩)
    · rintro item member complete rfl
      exact nothing _ ((action?_eq_some_iff_state wf h).2
        ⟨s, found, .inl ⟨item, member, complete, rfl, rfl⟩⟩)
  · intro nothing a wanted
    obtain ⟨s, found, entry⟩ := (action?_eq_some_iff_state wf h).1 wanted
    obtain ⟨stays, incomplete⟩ := nothing s found
    rcases entry with ⟨item, member, complete, column, -⟩ | ⟨j, target, -⟩
    · exact incomplete item member complete column.symm
    · cases stays.symm.trans target

theorem goto?_eq_some_iff_state {i n j : Nat} : t.goto? i n = some j ↔
    ∃ s, g.states[i]? = some s ∧ s.target? (.nonterminal n) = some j := by
  rw [goto?_eq_some_iff wf h]
  constructor
  · intro edge
    obtain ⟨item, member, -⟩ := edge.expected
    obtain ⟨s, found⟩ := Grammar.exists_state_of_mem_itemsAt member
    exact ⟨s, found, (Collection.target?_eq_some_iff wf found).2 edge⟩
  · rintro ⟨s, found, target⟩
    exact (Collection.target?_eq_some_iff wf found).1 target

theorem tabulates : t.Tabulates g g.states where
  grammar := (ofGrammar_eq_ok h).1
  shift _ _ _ := action?_eq_shift_iff wf h
  accept _ _ _ := action?_eq_accept_iff wf h
  reduce _ _ _ := action?_eq_reduce_iff wf h
  empty _ _ := action?_eq_none_iff wf h
  goto _ _ _ := goto?_eq_some_iff_state wf h

end Fields

end Canonical

/-- There is no table exactly where the canonical collection has a conflict, and the error names
    one. Otherwise the table holds what the states ask for. -/
theorem ofGrammar_exact {goal : String} {rules : List Rule} {nonterminals terminals : List String}
    (ofRules : Grammar.ofRules goal rules nonterminals terminals = .ok g) :
    ((∃ e, ofGrammar g = .error e) ↔
      ∃ s ∈ Collection.ofGrammar g (.ofGrammar g), s.items.Conflicted g) ∧
    (∀ e, ofGrammar g = .error e → e.Arises g (Collection.ofGrammar g (.ofGrammar g))) ∧
    ∀ t, ofGrammar g = .ok t → t.Tabulates g (Collection.ofGrammar g (.ofGrammar g)) := by
  have wf := Grammar.ofRules_wellFormed ofRules
  refine ⟨⟨?_, ?_⟩, raisesOnly_ofGrammar wf, fun t => tabulates wf⟩
  · rintro ⟨e, failed⟩
    exact (raisesOnly_ofGrammar wf e failed).exists_conflicted
  · rintro ⟨s, member, conflicted⟩
    obtain ⟨i, found⟩ := List.mem_iff_getElem?.1 member
    cases result : ofGrammar g with
    | error e => exact ⟨e, rfl⟩
    | ok t => exact absurd conflicted (not_conflicted wf result found)

end Table

namespace Grammar

def clashingRules : List Rule :=
  [⟨"s", ["a"]⟩, ⟨"s", ["b"]⟩, ⟨"a", ["int"]⟩, ⟨"b", ["int"]⟩]

/-- An integer can be read in two ways. -/
def clashing : Grammar :=
  ⟨["s", "a", "b"], ["int"],
    [⟨0, [.nonterminal 1]⟩, ⟨0, [.nonterminal 2]⟩, ⟨1, [.terminal 0]⟩, ⟨2, [.terminal 0]⟩], 0⟩

end Grammar

open Grammar in
/-- The two readings meet at the end of the line, and nested parentheses have no such state. -/
theorem Table.ofGrammar_exact_clashing :
    ofGrammar clashing = .error (.reduceReduce 1 "$" "'a -> int'" "'b -> int'") ∧
    (∃ s ∈ Collection.ofGrammar clashing (.ofGrammar clashing), s.items.Conflicted clashing) ∧
    ofGrammar parens = .ok parensTable ∧
    parensTable.Tabulates parens (Collection.ofGrammar parens (.ofGrammar parens)) := by
  have named : ofRules "s" clashingRules ["s", "a", "b"] ["int"] = .ok clashing := by decide +kernel
  have failed : Table.ofGrammar clashing =
      .error (.reduceReduce 1 "$" "'a -> int'" "'b -> int'") := by decide +kernel
  refine ⟨failed, (Table.ofGrammar_exact named).1.1 ⟨_, failed⟩, ofGrammar_parens, ?_⟩
  exact (Table.ofGrammar_exact ofRules_parens).2.2 _ ofGrammar_parens

end Assembler
