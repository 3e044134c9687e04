import Assembler.Proofs.Grammar.Collection

/-! # The automaton of a grammar

The canonical collection read as an automaton: numbered states with closed sets of items, and edges
that move the cursors past a symbol. This is all that the table and the parser are proved from.
-/

namespace Assembler

namespace Grammar

variable {g : Grammar}

/-- The states of the automaton. -/
def states (g : Grammar) : List State := Collection.ofGrammar g (.ofGrammar g)

/-- The items of a state, by its number. There are none beyond the last state. -/
def itemsAt (g : Grammar) (i : Nat) : ItemSet := (Collection.sets g.states).getD i .empty

/-- An edge of the automaton on a symbol that some item expects. -/
structure Edge (g : Grammar) (i : Nat) (x : Symbol) (j : Nat) : Prop where
  expected : ∃ item ∈ g.itemsAt i, item.next? g = some x
  target : (Collection.sets g.states)[j]? = some ((g.itemsAt i).goto g (.ofGrammar g) x)

theorem itemsAt_eq {i : Nat} {s : State} (h : g.states[i]? = some s) : g.itemsAt i = s.items := by
  simp [itemsAt, Collection.sets, h]

theorem exists_state_of_mem_itemsAt {i : Nat} {item : Item} (h : item ∈ g.itemsAt i) :
    ∃ s, g.states[i]? = some s := by
  cases found : g.states[i]? with
  | none => simp [itemsAt, Collection.sets, found] at h
  | some s => exact ⟨s, rfl⟩

theorem Edge.itemsAt_eq {i j : Nat} {x : Symbol} (h : g.Edge i x j) :
    g.itemsAt j = (g.itemsAt i).goto g (.ofGrammar g) x := by
  simp [itemsAt, h.target]

theorem Edge.advance {i j : Nat} {x : Symbol} (h : g.Edge i x j) {item : Item}
    (member : item ∈ g.itemsAt i) (next : item.next? g = some x) :
    item.advance ∈ g.itemsAt j := by
  rw [h.itemsAt_eq]
  exact ItemSet.advance_mem_goto member next

/-- Behind an edge, an item with symbols before its cursor has moved past the symbol of the
    edge. -/
theorem Edge.retreat {i j k : Nat} {x : Symbol} (h : g.Edge i x j) {item : Item}
    (member : item ∈ g.itemsAt j) (cursor : item.cursor = k + 1) :
    ∃ before ∈ g.itemsAt i, before.next? g = some x ∧ item = before.advance := by
  rw [h.itemsAt_eq] at member
  exact ItemSet.mem_goto_of_cursor member cursor

/-- Behind an edge, an item that starts a production is expected by another item there. -/
theorem Edge.expected_of_cursor_zero {i j : Nat} {x : Symbol} (h : g.Edge i x j) {item : Item}
    (member : item ∈ g.itemsAt j) (cursor : item.cursor = 0) :
    ∃ other ∈ g.itemsAt j, item ∈ other.expand g (.ofGrammar g) := by
  rw [h.itemsAt_eq] at member ⊢
  rcases ItemSet.mem_goto_origin member with ⟨before, -, -, rfl⟩ | found
  · simp [Item.advance] at cursor
  · exact found

section Canonical

variable (wf : g.WellFormed)
include wf

theorem consistent_states : Collection.Consistent g (.ofGrammar g) g.states :=
  Collection.consistent_ofGrammar wf (FirstSets.bounded_ofGrammar wf)

theorem closed_itemsAt (i : Nat) : (g.itemsAt i).Closed g (.ofGrammar g) := by
  cases found : (Collection.sets g.states)[i]? with
  | none => exact ⟨by simp [itemsAt, found], by simp [itemsAt, found]⟩
  | some items =>
      have member := List.mem_of_getElem? found
      simpa [itemsAt, found] using (consistent_states wf).closed items member

theorem itemsAt_zero : g.itemsAt 0 = Collection.startItems g (.ofGrammar g) := by
  simp [itemsAt, (consistent_states wf).start]

theorem start_mem_itemsAt {p : Nat} {production : Production}
    (h : g.productions[p]? = some production) (goal : production.lhs = g.goal) :
    ⟨p, 0, .endOfInput⟩ ∈ g.itemsAt 0 := by
  rw [itemsAt_zero wf]
  refine ItemSet.subset_closure _ _ ?_
  simp only [SortedSet.mem_ofList, List.mem_map]
  exact ⟨p, mem_productionsOf.2 ⟨production, h, goal⟩, rfl⟩

theorem itemsAt_zero_origin {item : Item} (member : item ∈ g.itemsAt 0) :
    (∃ p ∈ g.productionsOf g.goal, item = ⟨p, 0, .endOfInput⟩) ∨
      ∃ other ∈ g.itemsAt 0, item ∈ other.expand g (.ofGrammar g) := by
  rw [itemsAt_zero wf] at member ⊢
  refine (ItemSet.mem_closure_origin member).imp_left fun start => ?_
  simp only [SortedSet.mem_ofList, List.mem_map] at start
  obtain ⟨p, produced, rfl⟩ := start
  exact ⟨p, produced, rfl⟩

theorem cursor_of_mem_itemsAt_zero {item : Item} (member : item ∈ g.itemsAt 0) :
    item.cursor = 0 := by
  rcases itemsAt_zero_origin wf member with ⟨p, -, rfl⟩ | ⟨other, -, expanded⟩
  · rfl
  · exact Item.cursor_of_mem_expand expanded

/-- No two states have the same items, so a symbol leads to one state. -/
theorem Edge.unique {i j k : Nat} {x : Symbol} (hj : g.Edge i x j) (hk : g.Edge i x k) :
    j = k := by
  obtain ⟨insideJ, sameJ⟩ := List.getElem?_eq_some_iff.1 hj.target
  obtain ⟨insideK, sameK⟩ := List.getElem?_eq_some_iff.1 hk.target
  exact ((consistent_states wf).distinct.getElem_inj_iff).1 (sameJ.trans sameK.symm)

theorem follows_states {i : Nat} {s : State} (h : g.states[i]? = some s) :
    Collection.Follows g (.ofGrammar g) (Collection.sets g.states) s :=
  Collection.follows_ofGrammar wf (FirstSets.bounded_ofGrammar wf) s (List.mem_of_getElem? h)

theorem mem_transitions {i : Nat} {s : State} (h : g.states[i]? = some s) {x : Symbol} {j : Nat} :
    (x, j) ∈ s.transitions ↔ g.Edge i x j := by
  have follows := follows_states wf h
  have edge_of_mem : ∀ k, (x, k) ∈ s.transitions → g.Edge i x k := by
    intro k member
    refine ⟨?_, by rw [itemsAt_eq h]; exact follows.targets _ member⟩
    have symbol : x ∈ s.transitions.map (·.1) := List.mem_map.2 ⟨_, member, rfl⟩
    rw [follows.symbols] at symbol
    rw [itemsAt_eq h]
    exact ItemSet.mem_nextSymbols.1 symbol
  refine ⟨edge_of_mem j, ?_⟩
  intro edge
  have symbol : x ∈ s.transitions.map (·.1) := by
    rw [follows.symbols]
    exact ItemSet.mem_nextSymbols.2 (itemsAt_eq h ▸ edge.expected)
  obtain ⟨⟨y, k⟩, member, same⟩ := List.mem_map.1 symbol
  cases same
  exact edge.unique wf (edge_of_mem k member) ▸ member

theorem exists_edge {i : Nat} {item : Item} {x : Symbol} (member : item ∈ g.itemsAt i)
    (next : item.next? g = some x) : ∃ j, g.Edge i x j := by
  obtain ⟨s, found⟩ := exists_state_of_mem_itemsAt member
  have symbol : x ∈ s.transitions.map (·.1) := by
    rw [(follows_states wf found).symbols]
    exact ItemSet.mem_nextSymbols.2 ⟨item, itemsAt_eq found ▸ member, next⟩
  obtain ⟨⟨y, j⟩, entry, same⟩ := List.mem_map.1 symbol
  cases same
  exact ⟨j, (mem_transitions wf found).1 entry⟩

theorem declared_of_next? {item : Item} {x : Symbol} (next : item.next? g = some x) :
    g.Declared x :=
  wf.declared (List.mem_of_getElem? next)

theorem Edge.terminal_lt {i j x : Nat} (h : g.Edge i (.terminal x) j) : x < g.terminals.length := by
  obtain ⟨item, -, next⟩ := h.expected
  obtain ⟨name, found⟩ := declared_of_next? wf next
  exact lastIndexOf?_lt found

theorem ne_goal_of_next? {item : Item} {n : Nat} (next : item.next? g = some (.nonterminal n)) :
    n ≠ g.goal := by
  rintro rfl
  exact wf.goal_not_mem_rhs item.production (List.mem_of_getElem? next)

theorem not_goal_of_mem_expand {f : FirstSets} {item j : Item} (h : j ∈ item.expand g f) :
    j.production ∉ g.productionsOf g.goal := by
  obtain ⟨n, next, p, produced, y, -, rfl⟩ := Item.mem_expand.1 h
  obtain ⟨production, rule, rfl⟩ := mem_productionsOf.1 produced
  intro goal
  obtain ⟨production', rule', lhs⟩ := mem_productionsOf.1 goal
  cases rule.symm.trans rule'
  exact ne_goal_of_next? wf next lhs

end Canonical

end Grammar

end Assembler
