import Assembler.Grammar.Collection
import Assembler.Proofs.Grammar.Closure
import Mathlib.Data.Finset.Powerset

/-! # The canonical collection is closed under goto

Exploring keeps the sets of items of the states closed and pairwise different. They are made of items
of the grammar, so there are no more states than the limit allows to visit. At the end every
state has been visited, and a visited state has a transition on exactly the symbols after its
cursors, each to the state of the goto.
-/

namespace Assembler

variable {g : Grammar} {f : FirstSets}

/-- All items of a grammar. -/
def Item.all (g : Grammar) : List Item :=
  g.productions.zipIdx.flatMap fun entry =>
    (List.range (entry.1.rhs.length + 1)).flatMap fun cursor =>
      ((List.range g.terminals.length).map Lookahead.terminal ++ [Lookahead.endOfInput]).map fun y =>
        ⟨entry.2, cursor, y⟩

theorem Item.length_all (g : Grammar) : (Item.all g).length = Collection.itemCount g := by
  have each : ∀ entry : Production × Nat,
      ((List.range (entry.1.rhs.length + 1)).flatMap fun cursor =>
        ((List.range g.terminals.length).map Lookahead.terminal ++ [Lookahead.endOfInput]).map fun y =>
          (⟨entry.2, cursor, y⟩ : Item)).length =
      (entry.1.rhs.length + 1) * (g.terminals.length + 1) := by
    intro entry
    simp [List.length_flatMap]
  simp only [Item.all, List.length_flatMap, each, Collection.itemCount, List.sum_eq_foldr,
    List.foldr_map]
  conv_rhs => rw [← List.zipIdx_map_fst 0 g.productions, List.foldr_map]

theorem Item.Of.mem_all {item : Item} (h : item.Of g) : item ∈ Item.all g := by
  obtain ⟨p, cursor, y⟩ := item
  obtain ⟨inside, short, small⟩ := h
  have found : g.productions[p]? = some g.productions[p] := List.getElem?_eq_getElem inside
  refine List.mem_flatMap.2 ⟨(g.productions[p], p), List.mem_zipIdx_iff_getElem?.2 found, ?_⟩
  refine List.mem_flatMap.2 ⟨cursor, ?_, List.mem_map.2 ⟨y, ?_, rfl⟩⟩
  · simp only [Grammar.rhs_eq found] at short
    exact List.mem_range.2 (Nat.lt_succ_of_le short)
  · cases y with
    | terminal t =>
        refine List.mem_append_left _ (List.mem_map.2 ⟨t, ?_, rfl⟩)
        exact List.mem_range.2 (small t rfl)
    | endOfInput => exact List.mem_append_right _ List.mem_cons_self

namespace Collection

/-- The sets of items of a list of states. -/
def sets (states : List State) : List ItemSet := states.map (·.items)

/-- The transitions of a state lead from its items to their gotos, which are sets of a list. -/
structure Follows (g : Grammar) (f : FirstSets) (known : List ItemSet) (s : State) : Prop where
  symbols : s.transitions.map (·.1) = (s.items.nextSymbols g).toList
  targets : ∀ e ∈ s.transitions, known[e.2]? = some (s.items.goto g f e.1)

/-- What holds of the states while they are explored: states are numbered in order, and their sets of
    items are closed and pairwise different. -/
structure Consistent (g : Grammar) (f : FirstSets) (states : List State) : Prop where
  ids : states.map (·.id) = List.range states.length
  distinct : (sets states).Nodup
  closed : ∀ items ∈ sets states, items.Closed g f
  start : (sets states)[0]? = some (startItems g f)

/-- The states before a number have been visited. -/
structure Explored (g : Grammar) (f : FirstSets) (next : Nat) (states : List State) : Prop
    extends Consistent g f states where
  visited : ∀ i < next, ∀ s : State, states[i]? = some s → Follows g f (sets states) s

theorem Follows.mono {known more : List ItemSet} {s : State} (h : Follows g f known s)
    (grown : known <+: more) : Follows g f more s := by
  refine ⟨h.symbols, ?_⟩
  intro e member
  obtain ⟨rest, rfl⟩ := grown
  have found := h.targets e member
  rw [List.getElem?_append_left (List.getElem?_eq_some_iff.1 found).1]
  exact found

theorem Consistent.length_le {states : List State} (h : Consistent g f states) :
    states.length ≤ 2 ^ itemCount g := by
  let available := (Item.all g).toFinset
  let subsets := (sets states).map fun items => items.toList.toFinset
  have injective : Function.Injective fun items : ItemSet => items.toList.toFinset := by
    intro a b same
    ext item
    simpa using congrArg (item ∈ ·) same
  have nodup : subsets.Nodup := h.distinct.map injective
  have inside : ∀ subset ∈ subsets, subset ∈ available.powerset := by
    intro subset member
    obtain ⟨items, hitems, rfl⟩ := List.mem_map.1 member
    refine Finset.mem_powerset.2 fun item hitem => ?_
    exact List.mem_toFinset.2 ((h.closed items hitems).of item (List.mem_toFinset.1 hitem)).mem_all
  calc
    states.length = subsets.length := by simp [subsets, sets]
    _ = subsets.toFinset.card := (List.toFinset_card_of_nodup nodup).symm
    _ ≤ available.powerset.card :=
        Finset.card_le_card fun subset member => inside subset (List.mem_toFinset.1 member)
    _ = 2 ^ available.card := Finset.card_powerset available
    _ ≤ 2 ^ itemCount g := by
        refine Nat.pow_le_pow_right (by omega) ?_
        exact (List.toFinset_card_le (Item.all g)).trans (Item.length_all g).le

theorem Consistent.append {states : List State} (h : Consistent g f states) {items : ItemSet}
    (hitems : items.Closed g f) (new : items ∉ sets states) :
    Consistent g f (states ++ [⟨states.length, items, []⟩]) := by
  have grown : sets (states ++ [⟨states.length, items, []⟩]) = sets states ++ [items] := by
    simp [sets]
  refine ⟨?_, ?_, ?_, ?_⟩
  · simp [h.ids, List.range_succ]
  · rw [grown]
    exact h.distinct.append (List.nodup_singleton _) (List.disjoint_singleton.2 new)
  · intro set member
    rw [grown, List.mem_append, List.mem_singleton] at member
    rcases member with member | rfl
    · exact h.closed set member
    · exact hitems
  · rw [grown, List.getElem?_append_left (List.getElem?_eq_some_iff.1 h.start).1]
    exact h.start

/-- Numbering a set of items finds its state or adds one at the end. -/
theorem Consistent.number {states : List State} (h : Consistent g f states) {items : ItemSet}
    (hitems : items.Closed g f) :
    Consistent g f (number states items).1 ∧ states <+: (number states items).1 ∧
      (sets (number states items).1)[(number states items).2]? = some items := by
  simp only [Collection.number]
  split
  · next i found =>
      obtain ⟨inside, same, -⟩ := List.findIdx?_eq_some_iff_getElem.1 found
      refine ⟨h, List.prefix_rfl, ?_⟩
      simp [sets, inside, eq_of_beq same]
  · next fresh =>
      refine ⟨h.append hitems ?_, List.prefix_append _ _, by simp [sets]⟩
      intro member
      obtain ⟨s, hs, rfl⟩ := List.mem_map.1 member
      simpa using List.findIdx?_eq_none_iff.1 fresh s hs

theorem getElem?_eq_of_isPrefix {α : Type} {xs ys : List α} (h : xs <+: ys) {i : Nat}
    (inside : i < xs.length) : ys[i]? = xs[i]? := by
  obtain ⟨more, rfl⟩ := h
  exact List.getElem?_append_left inside

theorem sets_isPrefix {states more : List State} (h : states <+: more) : sets states <+: sets more :=
  h.map _

/-- Finding the targets of a state adds states at the end, and each target is the state of a
    goto. -/
theorem Consistent.targets (wf : g.WellFormed) (bounded : f.Bounded g) {items : ItemSet}
    (hitems : items.Closed g f) {states : List State} (h : Consistent g f states)
    (xs : List Symbol) :
    Consistent g f (targets g f items states xs).1 ∧
      states <+: (targets g f items states xs).1 ∧
      (targets g f items states xs).2.map (·.1) = xs ∧
      ∀ e ∈ (targets g f items states xs).2,
        (sets (targets g f items states xs).1)[e.2]? = some (items.goto g f e.1) := by
  induction xs generalizing states with
  | nil => exact ⟨h, List.prefix_rfl, rfl, by simp [Collection.targets]⟩
  | cons x xs ih =>
      obtain ⟨numbered, kept, found⟩ := h.number (hitems.goto wf bounded x)
      obtain ⟨rest, grown, symbols, correct⟩ := ih numbered
      refine ⟨rest, kept.trans grown, by simp [Collection.targets, symbols], ?_⟩
      intro e member
      simp only [Collection.targets] at member ⊢
      rcases List.mem_cons.1 member with rfl | member
      · rw [getElem?_eq_of_isPrefix (sets_isPrefix grown) (List.getElem?_eq_some_iff.1 found).1]
        exact found
      · exact correct e member

theorem map_set_transitions {α : Type} (view : State → α) {states : List State} {next : Nat}
    {s : State} (found : states[next]? = some s) {transitions : List (Symbol × Nat)}
    (same : view { s with transitions := transitions } = view s) :
    (states.set next { s with transitions := transitions }).map view = states.map view := by
  obtain ⟨inside, rfl⟩ := List.getElem?_eq_some_iff.1 found
  rw [List.map_set, same, ← List.getElem_map view (h := by simpa using inside),
    List.set_getElem_self]

theorem Explored.visit (wf : g.WellFormed) (bounded : f.Bounded g) {next : Nat}
    {states : List State} (h : Explored g f next states) {s : State}
    (found : states[next]? = some s) :
    Explored g f (next + 1)
      ((targets g f s.items states (s.items.nextSymbols g).toList).1.set next
        { s with transitions :=
            (targets g f s.items states (s.items.nextSymbols g).toList).2 }) := by
  have hitems : s.items.Closed g f :=
    h.closed s.items (List.mem_map.2 ⟨s, List.mem_of_getElem? found, rfl⟩)
  obtain ⟨rest, grown, symbols, correct⟩ := h.toConsistent.targets wf bounded hitems
    (s.items.nextSymbols g).toList
  generalize targets g f s.items states (s.items.nextSymbols g).toList = result at *
  have inside := (List.getElem?_eq_some_iff.1 found).1
  have still : result.1[next]? = some s := (getElem?_eq_of_isPrefix grown inside).trans found
  have sameSets : sets (result.1.set next { s with transitions := result.2 }) = sets result.1 :=
    map_set_transitions (·.items) still rfl
  have sameIds : (result.1.set next { s with transitions := result.2 }).map (·.id) =
      result.1.map (·.id) :=
    map_set_transitions (·.id) still rfl
  refine ⟨⟨?_, ?_, ?_, ?_⟩, ?_⟩
  · rw [sameIds, rest.ids, List.length_set]
  · rw [sameSets]
    exact rest.distinct
  · rw [sameSets]
    exact rest.closed
  · rw [sameSets]
    exact rest.start
  · intro i before r hr
    rw [sameSets]
    by_cases here : next = i
    · subst here
      rw [List.getElem?_set_self (List.getElem?_eq_some_iff.1 still).1, Option.some.injEq] at hr
      subst hr
      exact ⟨symbols, correct⟩
    · rw [List.getElem?_set_ne here] at hr
      have earlier : i < next := by omega
      have known : states[i]? = some r :=
        (getElem?_eq_of_isPrefix grown (by omega)).symm.trans hr
      exact (h.visited i earlier r known).mono (sets_isPrefix grown)

theorem Explored.explore (wf : g.WellFormed) (bounded : f.Bounded g) (limit : Nat) {next : Nat}
    {states : List State} (h : Explored g f next states)
    (room : 2 ^ itemCount g ≤ limit + next) :
    ∃ visited, Explored g f visited (explore g f limit next states) ∧
      (explore g f limit next states).length ≤ visited := by
  induction limit generalizing next states with
  | zero =>
      have few := h.length_le
      exact ⟨next, h, by simp only [Collection.explore]; omega⟩
  | succ limit ih =>
      simp only [Collection.explore]
      cases found : states[next]? with
      | none => exact ⟨next, h, List.getElem?_eq_none_iff.1 found⟩
      | some s => exact ih (h.visit wf bounded found) (by omega)

theorem closed_startItems (wf : g.WellFormed) (bounded : f.Bounded g) :
    (startItems g f).Closed g f := by
  refine ItemSet.closed_closure wf bounded ?_
  intro item member
  simp only [SortedSet.mem_ofList, List.mem_map] at member
  obtain ⟨p, hp, rfl⟩ := member
  obtain ⟨production, found, -⟩ := Grammar.mem_productionsOf.1 hp
  exact ⟨(List.getElem?_eq_some_iff.1 found).1, Nat.zero_le _, by simp⟩

theorem explored_start (wf : g.WellFormed) (bounded : f.Bounded g) :
    Explored g f 0 [⟨0, startItems g f, []⟩] := by
  refine ⟨⟨rfl, by simp [sets], ?_, rfl⟩, by simp⟩
  intro items member
  simp only [sets, List.map_cons, List.map_nil, List.mem_singleton] at member
  exact member ▸ closed_startItems wf bounded

theorem consistent_ofGrammar (wf : g.WellFormed) (bounded : f.Bounded g) :
    Consistent g f (ofGrammar g f) := by
  obtain ⟨_, explored, -⟩ := (explored_start wf bounded).explore wf bounded
    (1 <<< itemCount g + 1) (by rw [Nat.one_shiftLeft]; omega)
  exact explored.toConsistent

theorem follows_ofGrammar (wf : g.WellFormed) (bounded : f.Bounded g) :
    ∀ s ∈ ofGrammar g f, Follows g f (sets (ofGrammar g f)) s := by
  obtain ⟨_, explored, all⟩ := (explored_start wf bounded).explore wf bounded
    (1 <<< itemCount g + 1) (by rw [Nat.one_shiftLeft]; omega)
  intro s member
  obtain ⟨i, found⟩ := List.mem_iff_getElem?.1 member
  have inside := (List.getElem?_eq_some_iff.1 found).1
  exact explored.visited i (lt_of_lt_of_le inside all) s found

end Collection

end Assembler
