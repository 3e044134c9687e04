import Assembler.Collections.SortedMap
import Assembler.Grammar.Table
import Assembler.Proofs.Grammar.Automaton

/-! # What a table holds

A row is filled one cell at a time, and entering an action in a cell that holds another one is an
error. So a row that is completed without error holds exactly the completions and the shifts of its
state, and a table can be read as the automaton that it was made from.
-/

namespace Assembler

namespace Table

variable {g : Grammar} {row row' : Row} {entries : Nat → Action → Prop}

/-- A row of the table of a grammar that holds exactly some entries. -/
structure Holds (g : Grammar) (row : Row) (entries : Nat → Action → Prop) : Prop where
  length : row.length = g.terminals.length + 1
  cell : ∀ c a, row.getD c none = some a ↔ entries c a

theorem Holds.congr {others : Nat → Action → Prop} (h : Holds g row entries)
    (same : ∀ c a, entries c a ↔ others c a) : Holds g row others :=
  ⟨h.length, fun c a => (h.cell c a).trans (same c a)⟩

theorem holds_blank (g : Grammar) :
    Holds g (List.replicate (g.terminals.length + 1) none) fun _ _ => False := by
  refine ⟨by simp, ?_⟩
  intro c a
  simp only [List.getD_eq_getElem?_getD, List.getElem?_replicate]
  split <;> simp

theorem Holds.set (h : Holds g row entries) {col : Nat} {action : Action}
    (inside : col < g.terminals.length + 1) (free : ∀ a, ¬entries col a) :
    Holds g (row.set col (some action)) fun c a => entries c a ∨ (c = col ∧ a = action) := by
  refine ⟨by simpa using h.length, ?_⟩
  intro c a
  by_cases here : col = c
  · subst here
    have cell : (row.set col (some action)).getD col none = some action := by
      simp [List.getElem?_set_self (h.length ▸ inside)]
    rw [cell]
    simp [free, eq_comm]
  · have cell : (row.set col (some action)).getD c none = row.getD c none := by
      simp [List.getElem?_set_ne here]
    rw [cell, h.cell]
    simp [Ne.symm here]

theorem columnOf_lt {item : Item} (h : item.Of g) :
    columnOf g item.lookahead < g.terminals.length + 1 := by
  cases y : item.lookahead with
  | terminal t => exact Nat.lt_succ_of_lt (h.lookahead_lt t y)
  | endOfInput => exact Nat.lt_succ_self _

/-- A lookahead is known by its column, unless it would be taken for the end of the input. -/
theorem columnOf_inj {x y : Lookahead} (hx : x ≠ .terminal g.terminals.length)
    (hy : y ≠ .terminal g.terminals.length) (same : columnOf g x = columnOf g y) : x = y := by
  cases x with
  | terminal t =>
      cases y with
      | terminal u => exact congrArg _ same
      | endOfInput => exact absurd (congrArg _ same) hx
  | endOfInput =>
      cases y with
      | terminal u => exact absurd (congrArg _ same.symm) hy
      | endOfInput => rfl

theorem completion_ne_shift (g : Grammar) (item : Item) (target : Nat) :
    completion g item ≠ .shift target := by
  simp only [completion]
  split <;> simp

theorem any_ofGoal_iff {p : Nat} :
    g.productions[p]?.any (·.lhs == g.goal) = true ↔ p ∈ g.productionsOf g.goal := by
  cases found : g.productions[p]? <;> simp [Grammar.mem_productionsOf, found]

theorem completion_eq_accept_iff {item : Item} {p : Nat} : completion g item = .accept p ↔
    item.production = p ∧ item.lookahead = .endOfInput ∧ p ∈ g.productionsOf g.goal := by
  simp only [completion, Bool.and_eq_true, beq_iff_eq, any_ofGoal_iff]
  split
  · next ofGoal =>
      simp only [Action.accept.injEq]
      refine ⟨?_, And.left⟩
      rintro rfl
      exact ⟨rfl, ofGoal⟩
  · next other =>
      simp only [reduceCtorEq, false_iff]
      rintro ⟨rfl, ofGoal⟩
      exact other ofGoal

theorem completion_eq_reduce_iff {item : Item} {p : Nat} : completion g item = .reduce p ↔
    item.production = p ∧ ¬(item.lookahead = .endOfInput ∧ p ∈ g.productionsOf g.goal) := by
  simp only [completion, Bool.and_eq_true, beq_iff_eq, any_ofGoal_iff]
  split
  · next ofGoal =>
      simp only [reduceCtorEq, false_iff]
      rintro ⟨rfl, other⟩
      exact other ofGoal
  · next other =>
      simp only [Action.reduce.injEq]
      refine ⟨?_, And.left⟩
      rintro rfl
      exact ⟨rfl, other⟩

theorem production_of_completion_eq {a b : Item} (same : completion g a = completion g b) :
    a.production = b.production := by
  cases action : completion g b with
  | shift j => exact absurd action (completion_ne_shift g b j)
  | reduce p =>
      rw [(completion_eq_reduce_iff.1 action).1]
      exact (completion_eq_reduce_iff.1 (same.trans action)).1
  | accept p =>
      rw [(completion_eq_accept_iff.1 action).1]
      exact (completion_eq_accept_iff.1 (same.trans action)).1

theorem Holds.enterCompletion (h : Holds g row entries) {state : Nat} {item : Item}
    (hitem : item.Of g) (ok : enterCompletion g state row item = .ok row') :
    Holds g row' fun c a =>
      entries c a ∨ (c = columnOf g item.lookahead ∧ a = completion g item) := by
  simp only [Table.enterCompletion] at ok
  split at ok
  · next empty =>
      cases ok
      refine h.set (columnOf_lt hitem) fun a held => ?_
      rw [← h.cell, empty] at held
      cases held
  · next known held =>
      split at ok
      · next same =>
          cases ok
          refine h.congr fun c a => ⟨.inl, ?_⟩
          rintro (held | ⟨rfl, rfl⟩)
          · exact held
          · exact (h.cell _ _).1 (same ▸ held)
      · split at ok <;> cases ok

theorem Holds.completions {state : Nat} {items : List Item} (hitems : ∀ item ∈ items, item.Of g)
    (h : Holds g row entries) (ok : items.foldlM (Table.enterCompletion g state) row = .ok row') :
    Holds g row' fun c a => entries c a ∨
      ∃ item ∈ items, c = columnOf g item.lookahead ∧ a = completion g item := by
  induction items generalizing row entries with
  | nil =>
      simp only [List.foldlM_nil, pure_eq_ok] at ok
      subst ok
      exact h.congr (by simp)
  | cons item items ih =>
      obtain ⟨between, first, rest⟩ := foldlM_cons_eq_ok.1 ok
      have entered := h.enterCompletion (hitems item List.mem_cons_self) first
      refine (ih (fun x hx => hitems x (List.mem_cons_of_mem _ hx)) entered rest).congr ?_
      intro c a
      simp only [List.mem_cons, exists_eq_or_imp, or_assoc]

theorem Holds.enterTransition (h : Holds g row entries) {state : Nat} {e : Symbol × Nat}
    (inside : ∀ t, e.1 = .terminal t → t < g.terminals.length)
    (free : ∀ t target, e.1 = .terminal t → ¬entries t (.shift target))
    (ok : enterTransition g state row e = .ok row') :
    Holds g row' fun c a => entries c a ∨ (e.1 = .terminal c ∧ a = .shift e.2) := by
  obtain ⟨x, target⟩ := e
  cases x with
  | nonterminal n =>
      cases ok
      exact h.congr (by simp)
  | terminal t =>
      simp only [Table.enterTransition] at ok
      split at ok
      · next empty =>
          cases ok
          refine (h.set (Nat.lt_succ_of_lt (inside t rfl)) fun a held => ?_).congr
            (by simp [eq_comm])
          rw [← h.cell, empty] at held
          cases held
      · next old held => exact absurd ((h.cell _ _).1 held) (free t old rfl)
      · cases ok
      · cases ok

theorem Holds.transitions {state : Nat} {ts : List (Symbol × Nat)}
    (inside : ∀ e ∈ ts, ∀ t, e.1 = .terminal t → t < g.terminals.length)
    (distinct : (ts.map (·.1)).Nodup) (h : Holds g row entries)
    (free : ∀ e ∈ ts, ∀ t target, e.1 = .terminal t → ¬entries t (.shift target))
    (ok : ts.foldlM (Table.enterTransition g state) row = .ok row') :
    Holds g row' fun c a => entries c a ∨ ∃ e ∈ ts, e.1 = .terminal c ∧ a = .shift e.2 := by
  induction ts generalizing row entries with
  | nil =>
      simp only [List.foldlM_nil, pure_eq_ok] at ok
      subst ok
      exact h.congr (by simp)
  | cons e ts ih =>
      obtain ⟨between, first, rest⟩ := foldlM_cons_eq_ok.1 ok
      simp only [List.map_cons, List.nodup_cons, List.mem_map, not_exists, not_and] at distinct
      have entered := h.enterTransition (inside e List.mem_cons_self)
        (free e List.mem_cons_self) first
      refine (ih (fun x hx => inside x (List.mem_cons_of_mem _ hx)) distinct.2 entered ?_
        rest).congr ?_
      · rintro x hx t target same (held | ⟨clash, -⟩)
        · exact free x (List.mem_cons_of_mem _ hx) t target same held
        · exact distinct.1 x hx (same.trans clash.symm)
      · intro c a
        simp only [List.mem_cons, exists_eq_or_imp, or_assoc]

theorem holds_actionRow {s : State} (hitems : ∀ item ∈ s.items, item.Of g)
    (inside : ∀ e ∈ s.transitions, ∀ t, e.1 = .terminal t → t < g.terminals.length)
    (distinct : (s.transitions.map (·.1)).Nodup) (ok : actionRow g s = .ok row) :
    Holds g row fun c a =>
      (∃ item ∈ s.items, item.isComplete g = true ∧ c = columnOf g item.lookahead ∧
        a = completion g item) ∨
      ∃ e ∈ s.transitions, e.1 = .terminal c ∧ a = .shift e.2 := by
  simp only [actionRow, bind_eq_ok] at ok
  obtain ⟨between, first, rest⟩ := ok
  have completed := (holds_blank g).completions
    (fun item member => hitems item (List.mem_of_mem_filter member)) first
  refine (completed.transitions inside distinct ?_ rest).congr ?_
  · rintro e - t target - (blank | ⟨item, -, -, same⟩)
    · exact blank
    · exact completion_ne_shift g item target same.symm
  · intro c a
    simp [and_assoc]

section Canonical

variable {t : Table}

theorem ofGrammar_eq_ok (h : ofGrammar g = .ok t) : t.grammar = g ∧
    List.Forall₂ (fun s row => actionRow g s = .ok row) g.states t.actions ∧
    t.gotos = g.states.map (gotoRow g) := by
  simp only [ofGrammar, bind_eq_ok, pure_eq_ok] at h
  obtain ⟨actions, rows, rfl⟩ := h
  exact ⟨rfl, mapM_eq_ok.1 rows, rfl⟩

variable (wf : g.WellFormed)
include wf

theorem holds_row_of_state {i : Nat} {s : State} (found : g.states[i]? = some s)
    (ok : actionRow g s = .ok row) :
    Holds g row fun c a =>
      (∃ item ∈ g.itemsAt i, item.isComplete g = true ∧ c = columnOf g item.lookahead ∧
        a = completion g item) ∨
      ∃ j, g.Edge i (.terminal c) j ∧ a = .shift j := by
  have follows := Grammar.follows_states wf found
  have items := Grammar.itemsAt_eq found
  refine (holds_actionRow ?_ ?_ ?_ ok).congr ?_
  · exact items ▸ (Grammar.closed_itemsAt wf i).of
  · rintro ⟨x, j⟩ member t rfl
    exact ((Grammar.mem_transitions wf found).1 member).terminal_lt wf
  · rw [follows.symbols]
    exact SortedSet.nodup _
  · intro c a
    rw [items]
    refine or_congr_right ⟨?_, ?_⟩
    · rintro ⟨⟨x, j⟩, member, rfl, rfl⟩
      exact ⟨j, (Grammar.mem_transitions wf found).1 member, rfl⟩
    · rintro ⟨j, edge, rfl⟩
      exact ⟨_, (Grammar.mem_transitions wf found).2 edge, rfl, rfl⟩

/-- The actions of a state are its completions and its edges on terminals. -/
theorem action?_eq_some_iff (h : ofGrammar g = .ok t) {i c : Nat} {a : Action} :
    t.action? i c = some a ↔
      (∃ item ∈ g.itemsAt i, item.isComplete g = true ∧ c = columnOf g item.lookahead ∧
        a = completion g item) ∨
      ∃ j, g.Edge i (.terminal c) j ∧ a = .shift j := by
  obtain ⟨-, rows, -⟩ := ofGrammar_eq_ok h
  cases found : g.states[i]? with
  | none =>
      have outside : t.actions[i]? = none := by
        rw [List.getElem?_eq_none_iff] at found ⊢
        exact rows.length_eq ▸ found
      have empty : ∀ item, item ∉ g.itemsAt i := by
        intro item member
        obtain ⟨s, same⟩ := Grammar.exists_state_of_mem_itemsAt member
        rw [found] at same
        cases same
      constructor
      · simp [action?, outside]
      · rintro (⟨item, member, -⟩ | ⟨j, ⟨⟨item, member, -⟩, -⟩, -⟩)
        · exact absurd member (empty item)
        · exact absurd member (empty item)
  | some s =>
      obtain ⟨inside, same⟩ := List.getElem?_eq_some_iff.1 found
      have inside' : i < t.actions.length := rows.length_eq ▸ inside
      have ok := rows.get inside inside'
      simp only [List.get_eq_getElem, same] at ok
      have cell := (holds_row_of_state wf found ok).cell c a
      simpa [action?, inside'] using cell

theorem lt_of_shift (h : ofGrammar g = .ok t) {i c j : Nat}
    (wanted : t.action? i c = some (.shift j)) : c < g.terminals.length := by
  rcases (action?_eq_some_iff wf h).1 wanted with ⟨item, -, -, -, clash⟩ | ⟨k, edge, -⟩
  · exact absurd clash.symm (completion_ne_shift g item j)
  · exact edge.terminal_lt wf

theorem action?_endColumn_ne_shift (h : ofGrammar g = .ok t) {i j : Nat} :
    t.action? i t.endColumn ≠ some (.shift j) := by
  intro wanted
  have inside := lt_of_shift wf h wanted
  rw [endColumn, (ofGrammar_eq_ok h).1] at inside
  exact Nat.lt_irrefl _ inside

theorem item_of_reduce (h : ofGrammar g = .ok t) {i c p : Nat}
    (wanted : t.action? i c = some (.reduce p)) : ∃ item ∈ g.itemsAt i,
      item.isComplete g = true ∧ item.production = p ∧ c = columnOf g item.lookahead := by
  rcases (action?_eq_some_iff wf h).1 wanted with
    ⟨item, member, complete, column, same⟩ | ⟨j, -, clash⟩
  · exact ⟨item, member, complete, (completion_eq_reduce_iff.1 same.symm).1, column⟩
  · cases clash

theorem item_of_accept (h : ofGrammar g = .ok t) {i c p : Nat}
    (wanted : t.action? i c = some (.accept p)) :
    ∃ item ∈ g.itemsAt i, item.isComplete g = true ∧ item.production = p ∧
      c = g.terminals.length ∧
      ∃ production, g.productions[p]? = some production ∧ production.lhs = g.goal := by
  rcases (action?_eq_some_iff wf h).1 wanted with
    ⟨item, member, complete, column, same⟩ | ⟨j, -, clash⟩
  · obtain ⟨rfl, ahead, goal⟩ := completion_eq_accept_iff.1 same.symm
    rw [ahead] at column
    exact ⟨item, member, complete, rfl, column, Grammar.mem_productionsOf.1 goal⟩
  · cases clash

/-- The successors of a state are its edges on nonterminals. -/
theorem goto?_eq_some_iff (h : ofGrammar g = .ok t) {i n j : Nat} :
    t.goto? i n = some j ↔ g.Edge i (.nonterminal n) j := by
  obtain ⟨-, -, gotos⟩ := ofGrammar_eq_ok h
  cases found : g.states[i]? with
  | none =>
      refine ⟨by simp [goto?, gotos, found], ?_⟩
      rintro ⟨⟨item, member, -⟩, -⟩
      obtain ⟨s, same⟩ := Grammar.exists_state_of_mem_itemsAt member
      rw [found] at same
      cases same
  | some s =>
      have distinct : (s.transitions.map (·.1)).Nodup := by
        rw [(Grammar.follows_states wf found).symbols]
        exact SortedSet.nodup _
      have cell : t.goto? i n =
          if n < g.nonterminals.length then s.target? (.nonterminal n) else none := by
        simp only [goto?, gotos, List.getD_eq_getElem?_getD, List.getElem?_map, found,
          Option.map_some, Option.getD_some, gotoRow]
        split <;> simp_all
      rw [cell, ← Grammar.mem_transitions wf found, ← lookup_eq_some_iff_mem distinct]
      constructor
      · intro entry
        split at entry
        · exact entry
        · cases entry
      · intro entry
        have member := (lookup_eq_some_iff_mem distinct).1 entry
        obtain ⟨item, -, next⟩ := ((Grammar.mem_transitions wf found).1 member).expected
        have inside : n < g.nonterminals.length := Grammar.declared_of_next? wf next
        rw [if_pos inside]
        exact entry

end Canonical

end Table

namespace Grammar

def parensRules : List Rule := [⟨"s", ["p"]⟩, ⟨"p", ["(", "p", ")"]⟩, ⟨"p", []⟩]

/-- Nested parentheses, the grammar that examples are about. -/
def parens : Grammar :=
  ⟨["s", "p"], ["(", ")"],
    [⟨0, [.nonterminal 1]⟩, ⟨1, [.terminal 0, .nonterminal 1, .terminal 1]⟩, ⟨1, []⟩], 0⟩

theorem ofRules_parens : ofRules "s" parensRules ["s", "p"] ["(", ")"] = .ok parens := by
  decide +kernel

def parensTable : Table where
  grammar := parens
  actions :=
    [[some (.shift 1), none, some (.reduce 2)],
      [some (.shift 3), some (.reduce 2), none],
      [none, none, some (.accept 0)],
      [some (.shift 3), some (.reduce 2), none],
      [none, some (.shift 6), none],
      [none, some (.shift 7), none],
      [none, none, some (.reduce 1)],
      [none, some (.reduce 1), none]]
  gotos :=
    [[none, some 2], [none, some 4], [none, none], [none, some 5], [none, none], [none, none],
      [none, none], [none, none]]

theorem ofGrammar_parens : Table.ofGrammar parens = .ok parensTable := by
  decide +kernel

end Grammar

end Assembler
