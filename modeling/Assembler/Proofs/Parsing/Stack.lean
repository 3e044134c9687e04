import Assembler.Proofs.Parsing.Soundness

/-! # What a stack knows

An item on top of a stack was begun further down, where its production was expected by another item,
and so on down to a production of the goal at the bottom. Induction along this chain is how facts
about whole parses are proved from facts about items.
-/

namespace Assembler

variable {g : Grammar}

theorem ItemSet.closure_induction_mem {f : FirstSets} (wf : g.WellFormed) (bounded : f.Bounded g)
    {P : Item → Prop} {items : ItemSet} (base : ∀ item ∈ items, P item)
    (expands : ∀ item ∈ closure g f items, P item → ∀ j ∈ item.expand g f, P j) :
    ∀ j ∈ closure g f items, P j := by
  have both : ∀ j ∈ closure g f items, j ∈ closure g f items ∧ P j := by
    refine closure_induction ?_ ?_
    · exact fun item member => ⟨subset_closure _ item member, base item member⟩
    · rintro item ⟨inside, known⟩ j member
      exact ⟨closure_closed wf bounded inside member, expands item inside known j member⟩
  exact fun j member => (both j member).2

namespace Situation

variable {β α : Type} {r : Reading β α}

/-- An item whose production was begun on top of a stack, with the frames and the word behind it. -/
structure Begun (r : Reading β α) (g : Grammar) (item : Item) (frames stack : List (Nat × α))
    (before word : List β) : Prop where
  count : frames.length = item.cursor
  covers : Covers r g stack before
  spelled : r.Derives g ((g.rhs item.production).take item.cursor) word (frames.reverse.map (·.2))
  start : { item with cursor := 0 } ∈ g.itemsAt (topOf stack)

theorem Covers.begun (wf : g.WellFormed) {stack : List (Nat × α)} {taken : List β}
    (h : Covers r g stack taken) {item : Item} (member : item ∈ g.itemsAt (topOf stack)) :
    ∃ frames below before word, stack = frames ++ below ∧ taken = before ++ word ∧
      Begun r g item frames below before word := by
  obtain ⟨frames, below, before, word, same, split, count, covers, spelled, start⟩ :=
    h.pop wf member
  exact ⟨frames, below, before, word, same, split, ⟨count, covers, spelled, start⟩⟩

/-- Items of the top state, from those that moved their cursors there or start a parse. -/
theorem Covers.itemsAt_induction (wf : g.WellFormed) {P : Item → Prop} {stack : List (Nat × α)}
    {taken : List β} (covers : Covers r g stack taken)
    (moved : ∀ item ∈ g.itemsAt (topOf stack), item.cursor ≠ 0 → P item)
    (goal : stack = [] → ∀ (p : Nat) (production : Production),
      g.productions[p]? = some production → production.lhs = g.goal → P ⟨p, 0, .endOfInput⟩)
    (expand : ∀ item ∈ g.itemsAt (topOf stack), P item →
      ∀ child ∈ item.expand g (.ofGrammar g), P child) :
    ∀ item ∈ g.itemsAt (topOf stack), P item := by
  have bounded := FirstSets.bounded_ofGrammar wf
  cases covers with
  | nil =>
      simp only [topOf, Grammar.itemsAt_zero wf, Collection.startItems] at expand ⊢
      refine ItemSet.closure_induction_mem wf bounded ?_ expand
      intro item member
      simp only [SortedSet.mem_ofList, List.mem_map] at member
      obtain ⟨p, produced, rfl⟩ := member
      obtain ⟨production, rule, lhs⟩ := Grammar.mem_productionsOf.1 produced
      exact goal rfl p production rule lhs
  | cons below edge derives =>
      simp only [topOf, edge.itemsAt_eq] at expand moved ⊢
      refine ItemSet.closure_induction_mem wf bounded ?_ expand
      intro item member
      obtain ⟨previous, -, -, rfl⟩ := ItemSet.mem_kernel.1 member
      exact moved _ (ItemSet.subset_closure _ _ member) (Nat.succ_ne_zero _)

/-- Starts of productions, from the productions of the goal at the bottom: a production is begun
    where an item expects it, and that item was begun at the same place or further down. -/
theorem Covers.begun_induction (wf : g.WellFormed) {P : List (Nat × α) → List β → Item → Prop}
    (goal : ∀ (p : Nat) (production : Production), g.productions[p]? = some production →
      production.lhs = g.goal → P [] [] ⟨p, 0, .endOfInput⟩)
    (expand : ∀ (frames stack : List (Nat × α)) (before word : List β) (parent child : Item),
      Covers r g (frames ++ stack) (before ++ word) → parent ∈ g.itemsAt (topOf (frames ++ stack)) →
      child ∈ parent.expand g (.ofGrammar g) → Begun r g parent frames stack before word →
      P stack before { parent with cursor := 0 } → P (frames ++ stack) (before ++ word) child)
    {stack : List (Nat × α)} {taken : List β} (covers : Covers r g stack taken) {item : Item}
    (member : item ∈ g.itemsAt (topOf stack)) (cursor : item.cursor = 0) : P stack taken item := by
  -- by the height of the stack, and for one height by how an item came into the closure
  induction height : stack.length using Nat.strong_induction_on generalizing stack taken item with
  | _ n lower =>
      refine covers.itemsAt_induction wf (P := fun item => item.cursor = 0 → P stack taken item)
        (fun _ _ moved start => absurd start moved) ?_ ?_ item member cursor
      · rintro rfl p production rule lhs -
        cases covers
        exact goal p production rule lhs
      · intro parent found known child expanded _
        obtain ⟨frames, below, before, word, rfl, rfl, begun⟩ := covers.begun wf found
        refine expand frames below before word parent child covers found expanded begun ?_
        cases frames with
        | nil =>
            have start : parent.cursor = 0 := begun.count.symm
            have spelled := begun.spelled
            rw [start, List.take_zero] at spelled
            cases spelled
            have here : P below before parent := by simpa using known start
            rwa [← start]
        | cons frame frames =>
            exact lower below.length (by simp at height; omega) begun.covers begun.start rfl rfl

theorem Covers.origin (wf : g.WellFormed) {stack : List (Nat × α)} {taken : List β}
    (covers : Covers r g stack taken) {item : Item} (member : item ∈ g.itemsAt (topOf stack))
    (cursor : item.cursor = 0) :
    (item.lookahead = .endOfInput ∧
      ∃ production, g.productions[item.production]? = some production ∧ production.lhs = g.goal) ∨
    ∃ other ∈ g.itemsAt (topOf stack), item ∈ other.expand g (.ofGrammar g) := by
  refine covers.begun_induction wf (P := fun stack _ item => (item.lookahead = .endOfInput ∧
    ∃ production, g.productions[item.production]? = some production ∧ production.lhs = g.goal) ∨
      ∃ other ∈ g.itemsAt (topOf stack), item ∈ other.expand g (.ofGrammar g)) ?_ ?_ member cursor
  · intro p production rule lhs
    exact .inl ⟨rfl, production, rule, lhs⟩
  · intro frames stack before word parent child _ found expanded _ _
    exact .inr ⟨parent, found, expanded⟩

section Canonical

variable {t : Table} (wf : g.WellFormed) (h : Table.ofGrammar g = .ok t)
include wf h

/-- A reduction finds the right-hand side of its production on top, and the state below has a
    successor on the left-hand side. A production of the goal is accepted over the whole stack. -/
theorem Covers.exists_frames {c : Situation β α} {taken : List β}
    (covers : Covers r g c.stack taken) {p : Nat}
    (wanted : action? t r c = some (.reduce p) ∨ action? t r c = some (.accept p)) :
    ∃ production frames below word, g.productions[p]? = some production ∧
      c.stack = frames ++ below ∧ frames.length = production.rhs.length ∧
      r.Derives g production.rhs word (frames.reverse.map (·.2)) ∧
      (action? t r c = some (.reduce p) → ∃ j, t.goto? (topOf below) production.lhs = some j) ∧
      (action? t r c = some (.accept p) → below = []) := by
  obtain ⟨item, member, complete, rfl, action⟩ : ∃ item ∈ g.itemsAt (topOf c.stack),
      item.isComplete g = true ∧ item.production = p ∧
        action? t r c = some (Table.completion g item) := by
    rcases wanted with wanted | wanted
    · obtain ⟨item, member, complete, column, action⟩ | ⟨j, -, clash⟩ :=
        (Table.action?_eq_some_iff wf h).1 wanted
      · exact ⟨item, member, complete, (Table.completion_eq_reduce_iff.1 action.symm).1,
          action ▸ wanted⟩
      · cases clash
    · obtain ⟨item, member, complete, column, action⟩ | ⟨j, -, clash⟩ :=
        (Table.action?_eq_some_iff wf h).1 wanted
      · exact ⟨item, member, complete, (Table.completion_eq_accept_iff.1 action.symm).1,
          action ▸ wanted⟩
      · cases clash
  have of := (Grammar.closed_itemsAt wf _).of item member
  obtain ⟨production, rule⟩ : ∃ production, g.productions[item.production]? = some production :=
    ⟨_, List.getElem?_eq_getElem of.production_lt⟩
  obtain ⟨frames, below, before, word, split, -, begun⟩ := covers.begun wf member
  have cursor := of.cursor_eq complete
  have spelled := begun.spelled
  rw [cursor, List.take_length, Grammar.rhs_eq rule] at spelled
  refine ⟨production, frames, below, word, rule, split, ?_, spelled, ?_, ?_⟩
  · rw [begun.count, cursor, Grammar.rhs_eq rule]
  · intro reduces
    have other := (Table.completion_eq_reduce_iff.1 (Option.some.inj (action.symm.trans reduces))).2
    -- a production that was not begun for another item is one of the goal
    rcases begun.covers.origin wf begun.start rfl with
      ⟨ahead, _, rule', goal⟩ | ⟨parent, found, expanded⟩
    · exact absurd ⟨ahead, Grammar.mem_productionsOf.2 ⟨_, rule', goal⟩⟩ other
    · obtain ⟨n, next, q, produced, y, -, same⟩ := Item.mem_expand.1 expanded
      cases same
      obtain ⟨_, rule', rfl⟩ := Grammar.mem_productionsOf.1 produced
      cases rule.symm.trans rule'
      obtain ⟨j, edge⟩ := Grammar.exists_edge wf found next
      exact ⟨j, (Table.goto?_eq_some_iff wf h).2 edge⟩
  · intro accepts
    obtain ⟨-, -, goal⟩ :=
      Table.completion_eq_accept_iff.1 (Option.some.inj (action.symm.trans accepts))
    exact (begun.covers.eq_nil_of_goal wf begun.start rfl goal).1

theorem Covers.progress {c : Situation β α} {taken : List β} (covers : Covers r g c.stack taken)
    {a : Action} (wanted : action? t r c = some a) :
    (∃ d, Step t r c d) ∨ ∃ value, Accepts t r c value := by
  obtain ⟨rfl, -⟩ := Table.ofGrammar_eq_ok h
  cases a with
  | shift j =>
      obtain ⟨stack, input⟩ := c
      cases input with
      | cons b rest => exact .inl ⟨_, .shift wanted⟩
      | nil => exact absurd wanted (Table.action?_endColumn_ne_shift wf h)
  | reduce p =>
      obtain ⟨production, frames, below, word, rule, split, count, -, successor, -⟩ :=
        covers.exists_frames wf h (.inl wanted)
      obtain ⟨j, goto⟩ := successor wanted
      obtain ⟨stack, input⟩ := c
      obtain rfl : stack = frames ++ below := split
      exact .inl ⟨_, .reduce wanted rule count goto⟩
  | accept p =>
      obtain ⟨production, frames, below, word, rule, split, count, -⟩ :=
        covers.exists_frames wf h (.inr wanted)
      obtain ⟨stack, input⟩ := c
      obtain rfl : stack = frames ++ below := split
      exact .inr ⟨_, .intro wanted rule count⟩

end Canonical

end Situation

end Assembler
