import Assembler.Proofs.Collections.Fixpoint
import Assembler.Proofs.Grammar.Table
import Mathlib.Logic.Relation

/-! # The canonical collection is the reachable automaton

A state is found while an earlier one is visited, and the visit records a transition to it. So every
state but the first has a transition from a state before it, and following these back leads to the
first. The visits end because there are no more sets of items than the limit allows, not because the
limit is reached.
-/

namespace Assembler

namespace Collection

variable {g : Grammar} {f : FirstSets}

/-- The states after a visit: those found are added, and the transitions to them are recorded. -/
def visit (g : Grammar) (f : FirstSets) (states : List State) (next : Nat) (s : State) :
    List State :=
  let found := targets g f s.items states (s.items.nextSymbols g).toList
  found.1.set next { s with transitions := found.2 }

/-- An exploration without a limit: states are visited in order until there is none left. -/
inductive Explores (g : Grammar) (f : FirstSets) : Nat → List State → List State → Prop where
  | done {next : Nat} {states : List State} (all : states[next]? = none) :
      Explores g f next states states
  | visit {next : Nat} {states last : List State} {s : State} (found : states[next]? = some s)
      (later : Explores g f (next + 1) (visit g f states next s) last) :
      Explores g f next states last

theorem Explored.explores (wf : g.WellFormed) (bounded : f.Bounded g) (limit : Nat) {next : Nat}
    {states : List State} (h : Explored g f next states)
    (room : 2 ^ itemCount g ≤ limit + next) :
    Explores g f next states (Collection.explore g f limit next states) := by
  induction limit generalizing next states with
  | zero =>
      have few := h.length_le
      exact .done (List.getElem?_eq_none_iff.2 (by omega))
  | succ limit ih =>
      simp only [Collection.explore]
      cases found : states[next]? with
      | none => exact .done found
      | some s => exact .visit found (ih (h.visit wf bounded found) (by omega))

theorem lt_length_number {states : List State} {items : ItemSet} {i : Nat}
    (inside : i < (number states items).1.length) :
    i < states.length ∨ i = (number states items).2 := by
  unfold number at inside ⊢
  split at inside
  · exact .inl inside
  · rw [List.length_append, List.length_singleton] at inside
    omega

theorem exists_mem_targets {items : ItemSet} {states : List State} {xs : List Symbol} {i : Nat}
    (new : states.length ≤ i) (inside : i < (targets g f items states xs).1.length) :
    ∃ x, (x, i) ∈ (targets g f items states xs).2 := by
  induction xs generalizing states with
  | nil => exact absurd inside (Nat.not_lt.2 new)
  | cons x xs ih =>
      simp only [targets] at inside ⊢
      by_cases known : i < (number states (items.goto g f x)).1.length
      · have here := (lt_length_number known).resolve_left (Nat.not_lt.2 new)
        exact ⟨x, here ▸ List.mem_cons_self⟩
      · obtain ⟨y, later⟩ := ih (Nat.not_lt.1 known) inside
        exact ⟨y, List.mem_cons_of_mem _ later⟩

/-- Every state but the first has a transition from a state that was visited before it. -/
def Rooted (next : Nat) (states : List State) : Prop :=
  ∀ j < states.length, j ≠ 0 →
    ∃ i s x, i < j ∧ i < next ∧ states[i]? = some s ∧ (x, j) ∈ s.transitions

theorem Rooted.visit (wf : g.WellFormed) (bounded : f.Bounded g) {next : Nat}
    {states : List State} (explored : Explored g f next states) (h : Rooted next states) {s : State}
    (found : states[next]? = some s) : Rooted (next + 1) (visit g f states next s) := by
  have member : s.items ∈ sets states := List.mem_map.2 ⟨s, List.mem_of_getElem? found, rfl⟩
  obtain ⟨-, grown, -, -⟩ := explored.toConsistent.targets wf bounded
    (explored.closed s.items member) (s.items.nextSymbols g).toList
  have before := (List.getElem?_eq_some_iff.1 found).1
  intro j inside first
  rw [Collection.visit, List.length_set] at inside
  by_cases known : j < states.length
  · obtain ⟨i, r, x, earlier, visited, parent, transition⟩ := h j known first
    refine ⟨i, r, x, earlier, by omega, ?_, transition⟩
    rw [Collection.visit, List.getElem?_set_ne (by omega),
      getElem?_eq_of_isPrefix grown (by omega), parent]
  · -- a new state is the target of a transition that this visit records
    obtain ⟨x, transition⟩ := exists_mem_targets (Nat.not_lt.1 known) inside
    refine ⟨next, { s with transitions := _ }, x, by omega, by omega, ?_, transition⟩
    rw [Collection.visit, List.getElem?_set_self (by omega)]

theorem Explores.rooted (wf : g.WellFormed) (bounded : f.Bounded g) {next : Nat}
    {states last : List State} (run : Explores g f next states last)
    (explored : Explored g f next states) (h : Rooted next states) :
    ∃ visited, Rooted visited last := by
  induction run with
  | done => exact ⟨_, h⟩
  | visit found _ ih => exact ih (explored.visit wf bounded found) (h.visit wf bounded explored found)

/-- A transition that a state has recorded. -/
def Connects (states : List State) (i j : Nat) : Prop :=
  ∃ s x, states[i]? = some s ∧ s.target? x = some j

/-- The states of an automaton whose edges are the gotos: numbered in order, without two of the same
    items, all of them reachable from the first, which has the productions of the goal. -/
structure Canonical (g : Grammar) (f : FirstSets) (states : List State) : Prop where
  ids : ∀ (i : Nat) (s : State), states[i]? = some s → s.id = i
  distinct : ∀ (i j : Nat) (s t : State), states[i]? = some s → states[j]? = some t →
    s.items = t.items → i = j
  start : ∃ s : State, states[0]? = some s ∧ s.items = .closure g f
    (.ofList ((g.productionsOf g.goal).map fun p => ⟨p, 0, .endOfInput⟩))
  reachable : ∀ i < states.length, Relation.ReflTransGen (Connects states) 0 i
  transitions : ∀ s ∈ states, ∀ x, (s.target? x).isSome ↔ ∃ item ∈ s.items, item.next? g = some x
  targets : ∀ s ∈ states, ∀ x j, s.target? x = some j →
    ∃ t : State, states[j]? = some t ∧ t.items = s.items.goto g f x

section Canonical

variable (wf : g.WellFormed)
include wf

theorem target?_eq_some_iff {i j : Nat} {s : State} (h : g.states[i]? = some s) {x : Symbol} :
    s.target? x = some j ↔ g.Edge i x j := by
  have distinct : (s.transitions.map (·.1)).Nodup := by
    rw [(Grammar.follows_states wf h).symbols]
    exact SortedSet.nodup _
  rw [← Grammar.mem_transitions wf h]
  exact lookup_eq_some_iff_mem distinct

theorem explores_states : Explores g (.ofGrammar g) 0 [⟨0, startItems g (.ofGrammar g), []⟩]
    g.states := by
  have bounded := FirstSets.bounded_ofGrammar wf
  apply (explored_start wf bounded).explores wf bounded
  rw [Nat.one_shiftLeft]
  omega

/-- Transitions backwards lead to ever smaller numbers, and so to the first state. -/
theorem reachable_states {i : Nat} (inside : i < g.states.length) :
    Relation.ReflTransGen (Connects g.states) 0 i := by
  have bounded := FirstSets.bounded_ofGrammar wf
  obtain ⟨visited, rooted⟩ := (explores_states wf).rooted wf bounded (explored_start wf bounded)
    (fun j below first => absurd (Nat.lt_one_iff.1 below) first)
  induction i using Nat.strongRecOn with
  | _ i ih =>
      by_cases first : i = 0
      · rw [first]
      · obtain ⟨k, s, x, earlier, -, found, transition⟩ := rooted i inside first
        have edge := (Grammar.mem_transitions wf found).1 transition
        have connects : Connects g.states k i := ⟨s, x, found, (target?_eq_some_iff wf found).2 edge⟩
        exact (ih k earlier (by omega)).tail connects

theorem canonical_states : Canonical g (.ofGrammar g) g.states := by
  have consistent := Grammar.consistent_states wf
  have itemsOf : ∀ {i : Nat} {items : ItemSet}, (sets g.states)[i]? = some items ↔
      ∃ s : State, g.states[i]? = some s ∧ s.items = items := by
    intro i items
    rw [sets, List.getElem?_map, Option.map_eq_some_iff]
  constructor
  case ids =>
    intro i s found
    have numbered := congrArg (·[i]?) consistent.ids
    obtain ⟨inside, rfl⟩ := List.getElem?_eq_some_iff.1 found
    simpa [inside] using numbered
  case distinct =>
    intro i j s t hs ht same
    obtain ⟨_, first⟩ := List.getElem?_eq_some_iff.1 (itemsOf.2 ⟨s, hs, rfl⟩)
    obtain ⟨_, second⟩ := List.getElem?_eq_some_iff.1 (itemsOf.2 ⟨t, ht, rfl⟩)
    exact (consistent.distinct.getElem_inj_iff).1 (first.trans (same.trans second.symm))
  case start =>
    exact itemsOf.1 consistent.start
  case reachable => exact fun i => reachable_states wf
  case transitions =>
    intro s member x
    obtain ⟨i, found⟩ := List.mem_iff_getElem?.1 member
    rw [Option.isSome_iff_exists, ← Grammar.itemsAt_eq found]
    constructor
    · rintro ⟨j, target⟩
      exact ((target?_eq_some_iff wf found).1 target).expected
    · rintro ⟨item, listed, next⟩
      obtain ⟨j, edge⟩ := Grammar.exists_edge wf listed next
      exact ⟨j, (target?_eq_some_iff wf found).2 edge⟩
  case targets =>
    intro s member x j target
    obtain ⟨i, found⟩ := List.mem_iff_getElem?.1 member
    have edge := (target?_eq_some_iff wf found).1 target
    rw [← Grammar.itemsAt_eq found]
    exact itemsOf.1 edge.target

end Canonical

/-- The closures and the visits end, and what they leave is the automaton of the states that can be
    reached. -/
theorem ofGrammar_canonical {goal : String} {rules : List Rule}
    {nonterminals terminals : List String}
    (ofRules : Grammar.ofRules goal rules nonterminals terminals = .ok g) :
    (∀ items, ComesToRest (ItemSet.closureStep g (.ofGrammar g)) items
      (items.closure g (.ofGrammar g))) ∧
    Explores g (.ofGrammar g) 0 [⟨0, startItems g (.ofGrammar g), []⟩]
      (ofGrammar g (.ofGrammar g)) ∧
    Canonical g (.ofGrammar g) (ofGrammar g (.ofGrammar g)) := by
  have wf := Grammar.ofRules_wellFormed ofRules
  have bounded := FirstSets.bounded_ofGrammar wf
  refine ⟨fun items => ?_, explores_states wf, canonical_states wf⟩
  exact comesToRest_stabilize (ItemSet.closureStep_closure wf bounded items)

/-- Nested parentheses need eight states. -/
theorem ofGrammar_canonical_parens :
    (ofGrammar Grammar.parens (.ofGrammar .parens)).length = 8 ∧
      Canonical Grammar.parens (.ofGrammar .parens) (ofGrammar .parens (.ofGrammar .parens)) :=
  ⟨by decide +kernel, (ofGrammar_canonical Grammar.ofRules_parens).2.2⟩

end Collection

end Assembler
