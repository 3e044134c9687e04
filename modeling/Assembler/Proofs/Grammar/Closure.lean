import Assembler.Grammar.Item
import Assembler.Proofs.Grammar.First

/-! # Closure and goto

The closure of a set of items is closed under expansion, and every item of it was put there by the
set itself or by an expansion. Expansions start a production, so an item with symbols behind its
cursor tells the item that it came from.
-/

namespace Assembler

variable {g : Grammar} {f : FirstSets}

namespace Item

theorem mem_expand {item j : Item} :
    j ∈ item.expand g f ↔ ∃ n, item.next? g = some (.nonterminal n) ∧ ∃ p ∈ g.productionsOf n,
      ∃ y ∈ f.firstOf (item.afterNext g) item.lookahead, j = ⟨p, 0, y⟩ := by
  simp only [expand]
  split
  · next n next =>
      simp only [List.mem_flatMap, List.mem_map, SortedSet.mem_toList, next, Option.some.injEq,
        Symbol.nonterminal.injEq, exists_eq_left', eq_comm]
  · next other =>
      simp only [List.not_mem_nil, false_iff, not_exists, not_and]
      intro n next
      exact absurd next (other n)

theorem cursor_of_mem_expand {item j : Item} (h : j ∈ item.expand g f) : j.cursor = 0 := by
  obtain ⟨n, -, p, -, y, -, rfl⟩ := mem_expand.1 h
  rfl

theorem production_lt_of_mem_expand {item j : Item} (h : j ∈ item.expand g f) :
    j.production < g.productions.length := by
  obtain ⟨n, -, p, hp, y, -, rfl⟩ := mem_expand.1 h
  obtain ⟨production, found, -⟩ := Grammar.mem_productionsOf.1 hp
  exact (List.getElem?_eq_some_iff.1 found).1

/-- An item of the grammar: a cursor inside one of its productions, before one of its terminals or
    the end of the input. -/
structure Of (g : Grammar) (item : Item) : Prop where
  production_lt : item.production < g.productions.length
  cursor_le : item.cursor ≤ (g.rhs item.production).length
  lookahead_lt : ∀ t, item.lookahead = .terminal t → t < g.terminals.length

theorem Of.cursor_eq {item : Item} (h : item.Of g) (complete : item.isComplete g = true) :
    item.cursor = (g.rhs item.production).length := by
  have inside := h.cursor_le
  simp only [isComplete, decide_eq_true_eq] at complete
  omega

theorem Of.lookahead_ne {item : Item} (h : item.Of g) :
    item.lookahead ≠ .terminal g.terminals.length :=
  fun same => Nat.lt_irrefl _ (h.lookahead_lt _ same)

end Item

theorem FirstSets.mem_firstOf {symbols : List Symbol} {next y : Lookahead} :
    y ∈ f.firstOf symbols next ↔ (∃ t ∈ (f.sequence symbols).terminals, y = .terminal t) ∨
      ((f.sequence symbols).nullable = true ∧ y = next) := by
  simp only [firstOf]
  split
  · next nullable =>
      simp only [SortedSet.mem_insert, SortedSet.mem_ofList, List.mem_map, SortedSet.mem_toList,
        nullable, true_and, eq_comm]
      exact or_comm
  · next nullable => simp [nullable, eq_comm]

theorem FirstSets.Bounded.firstOf (h : f.Bounded g) {symbols : List Symbol} {next y : Lookahead}
    (declared : ∀ s ∈ symbols, g.Declared s) (member : y ∈ f.firstOf symbols next) :
    (∃ t < g.terminals.length, y = .terminal t) ∨ y = next := by
  rcases FirstSets.mem_firstOf.1 member with ⟨t, ht, rfl⟩ | ⟨-, rfl⟩
  · exact .inl ⟨t, h.sequence declared t ht, rfl⟩
  · exact .inr rfl

namespace ItemSet

theorem declared_afterNext (wf : g.WellFormed) (item : Item) :
    ∀ s ∈ item.afterNext g, g.Declared s :=
  fun _ member => wf.declared (List.mem_of_mem_drop member)

theorem mem_closureStep {items : ItemSet} {j : Item} :
    j ∈ closureStep g f items ↔ j ∈ items ∨ ∃ item ∈ items, j ∈ item.expand g f := by
  simp only [closureStep, SortedSet.mem_insertAll, List.mem_flatMap, SortedSet.mem_toList]
  exact or_comm

theorem closure_induction {P : Item → Prop} {items : ItemSet} (base : ∀ item ∈ items, P item)
    (expands : ∀ item, P item → ∀ j ∈ item.expand g f, P j) :
    ∀ j ∈ closure g f items, P j := by
  refine stabilize_preserves (P := fun s : ItemSet => ∀ j ∈ s, P j) ?_ _ base
  intro s hs j member
  rcases mem_closureStep.1 member with member | ⟨item, hitem, member⟩
  · exact hs j member
  · exact expands item (hs item hitem) j member

theorem subset_closure (items : ItemSet) : ∀ item ∈ items, item ∈ closure g f items := by
  refine stabilize_preserves (P := fun s : ItemSet => ∀ item ∈ items, item ∈ s) ?_ _
    (fun _ h => h)
  intro s hs item member
  exact mem_closureStep.2 (.inl (hs item member))

theorem mem_closure_origin {items : ItemSet} {j : Item} (h : j ∈ closure g f items) :
    j ∈ items ∨ ∃ item ∈ closure g f items, j ∈ item.expand g f := by
  have origin : ∀ j ∈ closure g f items,
      j ∈ items ∨ ∃ item ∈ closure g f items, j ∈ item.expand g f := by
    refine (stabilize_preserves (P := fun s : ItemSet =>
      ∀ j ∈ s, j ∈ items ∨ ∃ item ∈ s, j ∈ item.expand g f) ?_ _ ?_)
    · intro s hs j member
      rcases mem_closureStep.1 member with member | ⟨item, hitem, member⟩
      · refine (hs j member).imp_right ?_
        rintro ⟨item, hitem, member⟩
        exact ⟨item, mem_closureStep.2 (.inl hitem), member⟩
      · exact .inr ⟨item, mem_closureStep.2 (.inl hitem), member⟩
    · exact fun _ h => .inl h
  exact origin j h

/-- Lookaheads that the closure of a set can have. -/
def lookaheads (g : Grammar) (items : ItemSet) : List Lookahead :=
  (List.range g.terminals.length).map .terminal ++ .endOfInput :: items.toList.map (·.lookahead)

/-- Items that the closure of a set can have. -/
def candidates (g : Grammar) (items : ItemSet) : List Item :=
  items.toList ++ (List.range g.productions.length).flatMap fun p =>
    (lookaheads g items).map fun y => ⟨p, 0, y⟩

theorem length_candidates (items : ItemSet) : (candidates g items).length =
    g.productions.length * (g.terminals.length + 1 + items.size) + items.size := by
  have each : ∀ p : Nat, ((lookaheads g items).map fun y => (⟨p, 0, y⟩ : Item)).length =
      g.terminals.length + 1 + items.size := by
    intro p
    simp only [lookaheads, List.length_map, List.length_append, List.length_cons,
      List.length_range, SortedSet.size]
    omega
  simp only [candidates, List.length_append, List.length_flatMap, each, List.map_const',
    List.length_range, List.sum_replicate_nat, SortedSet.size]
  omega

theorem lookahead_mem_of_candidate {items : ItemSet} {item : Item}
    (h : item ∈ candidates g items) : item.lookahead ∈ lookaheads g items := by
  rcases List.mem_append.1 h with h | h
  · refine List.mem_append_right _ (List.mem_cons_of_mem _ ?_)
    exact List.mem_map.2 ⟨item, h, rfl⟩
  · obtain ⟨p, -, h⟩ := List.mem_flatMap.1 h
    obtain ⟨y, hy, rfl⟩ := List.mem_map.1 h
    exact hy

theorem expand_candidate (wf : g.WellFormed) (bounded : f.Bounded g) {items : ItemSet}
    {item j : Item} (h : item ∈ candidates g items) (member : j ∈ item.expand g f) :
    j ∈ candidates g items := by
  obtain ⟨n, -, p, hp, y, hy, rfl⟩ := Item.mem_expand.1 member
  obtain ⟨production, found, -⟩ := Grammar.mem_productionsOf.1 hp
  refine List.mem_append_right _ (List.mem_flatMap.2 ⟨p, ?_, List.mem_map.2 ⟨y, ?_, rfl⟩⟩)
  · exact List.mem_range.2 (List.getElem?_eq_some_iff.1 found).1
  · rcases bounded.firstOf (declared_afterNext wf item) hy with ⟨t, inside, rfl⟩ | rfl
    · exact List.mem_append_left _ (List.mem_map.2 ⟨t, List.mem_range.2 inside, rfl⟩)
    · exact lookahead_mem_of_candidate h

/-- The rounds of closure come to rest within their limit. -/
theorem closureStep_closure (wf : g.WellFormed) (bounded : f.Bounded g) (items : ItemSet) :
    closureStep g f (closure g f items) = closure g f items := by
  refine step_stabilize (P := fun s : ItemSet => ∀ j ∈ s, j ∈ candidates g items)
    SortedSet.size (candidates g items).length ?_ ?_ ?_ _ ?_ ?_
  · intro s hs j member
    rcases mem_closureStep.1 member with member | ⟨item, hitem, member⟩
    · exact hs j member
    · exact expand_candidate wf bounded (hs item hitem) member
  · intro s hs
    exact SortedSet.size_le_of_subset hs
  · intro s _ changed
    by_contra small
    refine changed (SortedSet.eq_of_subset ?_ (by omega)).symm
    exact fun item member => mem_closureStep.2 (.inl member)
  · exact fun item member => List.mem_append_left _ member
  · rw [length_candidates]
    omega

theorem closure_closed (wf : g.WellFormed) (bounded : f.Bounded g) {items : ItemSet}
    {item j : Item} (h : item ∈ closure g f items) (member : j ∈ item.expand g f) :
    j ∈ closure g f items := by
  rw [← closureStep_closure wf bounded items]
  exact mem_closureStep.2 (.inr ⟨item, h, member⟩)

theorem mem_nextSymbols {items : ItemSet} {s : Symbol} :
    s ∈ items.nextSymbols g ↔ ∃ item ∈ items, item.next? g = some s := by
  simp [nextSymbols]

/-- The items whose cursors a goto moves. -/
def kernel (g : Grammar) (items : ItemSet) (s : Symbol) : ItemSet :=
  .ofList ((items.toList.filter (·.next? g == some s)).map Item.advance)

theorem mem_kernel {items : ItemSet} {s : Symbol} {j : Item} :
    j ∈ kernel g items s ↔ ∃ item ∈ items, item.next? g = some s ∧ j = item.advance := by
  simp only [kernel, SortedSet.mem_ofList, List.mem_map, List.mem_filter, beq_iff_eq,
    SortedSet.mem_toList, and_assoc, eq_comm (a := j)]

theorem advance_mem_goto {items : ItemSet} {s : Symbol} {item : Item} (h : item ∈ items)
    (next : item.next? g = some s) : item.advance ∈ goto g f items s :=
  subset_closure _ _ (mem_kernel.2 ⟨item, h, next, rfl⟩)

theorem mem_goto_origin {items : ItemSet} {s : Symbol} {j : Item} (h : j ∈ goto g f items s) :
    (∃ item ∈ items, item.next? g = some s ∧ j = item.advance) ∨
      ∃ item ∈ goto g f items s, j ∈ item.expand g f :=
  (mem_closure_origin h).imp_left mem_kernel.1

theorem mem_goto_of_cursor {items : ItemSet} {s : Symbol} {j : Item} {k : Nat}
    (h : j ∈ goto g f items s) (cursor : j.cursor = k + 1) :
    ∃ item ∈ items, item.next? g = some s ∧ j = item.advance := by
  rcases mem_goto_origin h with moved | ⟨item, -, member⟩
  · exact moved
  · have := Item.cursor_of_mem_expand member
    omega

end ItemSet

theorem Item.Of.expand (wf : g.WellFormed) (bounded : f.Bounded g) {item j : Item}
    (h : item.Of g) (member : j ∈ item.expand g f) : j.Of g := by
  have start := cursor_of_mem_expand member
  refine ⟨production_lt_of_mem_expand member, start ▸ Nat.zero_le _, ?_⟩
  obtain ⟨n, -, p, -, y, hy, rfl⟩ := Item.mem_expand.1 member
  intro t same
  rcases bounded.firstOf (ItemSet.declared_afterNext wf item) hy with ⟨x, inside, rfl⟩ | rfl
  · cases same
    exact inside
  · exact h.lookahead_lt t same

theorem Item.Of.advance {item : Item} {s : Symbol} (h : item.Of g)
    (next : item.next? g = some s) : item.advance.Of g :=
  ⟨h.production_lt, (List.getElem?_eq_some_iff.1 next).1, h.lookahead_lt⟩

namespace ItemSet

/-- A set of items of the grammar that contains all expansions of its items. -/
structure Closed (g : Grammar) (f : FirstSets) (items : ItemSet) : Prop where
  of : ∀ item ∈ items, item.Of g
  expand : ∀ item ∈ items, ∀ j ∈ item.expand g f, j ∈ items

theorem closed_closure (wf : g.WellFormed) (bounded : f.Bounded g) {items : ItemSet}
    (h : ∀ item ∈ items, item.Of g) : Closed g f (closure g f items) :=
  ⟨closure_induction h fun _ hitem _ member => hitem.expand wf bounded member,
    fun _ hitem _ member => closure_closed wf bounded hitem member⟩

theorem Closed.goto (wf : g.WellFormed) (bounded : f.Bounded g) {items : ItemSet}
    (h : Closed g f items) (s : Symbol) : Closed g f (items.goto g f s) := by
  refine closed_closure wf bounded ?_
  intro j member
  obtain ⟨item, hitem, next, rfl⟩ := mem_kernel.1 member
  exact (h.of item hitem).advance next

end ItemSet

end Assembler
