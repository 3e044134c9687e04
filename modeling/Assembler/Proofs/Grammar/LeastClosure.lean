import Assembler.Proofs.Collections.Fixpoint
import Assembler.Proofs.Grammar.Closure
import Assembler.Proofs.Grammar.Table

/-! # Closures are least saturated sets

The loop that closes a set compares sizes to see whether a round has added an item. It ends, and
what it ends with is the only least saturated set around the items that it starts from. The laws of
a closure operator follow from that alone.
-/

namespace Assembler

variable {g : Grammar} {f : FirstSets}

namespace ItemSet

/-- One round of the loop: the next set, and whether it is of another size. -/
def closureRound (g : Grammar) (f : FirstSets) (items : ItemSet) : ItemSet × Bool :=
  let next := closureStep g f items
  (next, next.size != items.size)

/-- The loop from a set to its result: rounds follow each other until one leaves the size alone. -/
inductive ClosesTo (g : Grammar) (f : FirstSets) : ItemSet → ItemSet → Prop where
  | last {items next : ItemSet} (round : closureRound g f items = (next, false)) :
      ClosesTo g f items next
  | again {items next result : ItemSet} (round : closureRound g f items = (next, true))
      (later : ClosesTo g f next result) : ClosesTo g f items result

/-- A set that has `[B → • γ, y]` for every production of `B` and every `y` in FIRST(`β x`), as soon
    as it has `[A → α • B β, x]`. -/
def Saturated (g : Grammar) (f : FirstSets) (items : ItemSet) : Prop :=
  ∀ item ∈ items, ∀ n, item.next? g = some (.nonterminal n) →
    ∀ p ∈ g.productionsOf n, ∀ y ∈ f.firstOf (item.afterNext g) item.lookahead,
      (⟨p, 0, y⟩ : Item) ∈ items

/-- The least saturated set around some items. -/
structure LeastSaturated (g : Grammar) (f : FirstSets) (items result : ItemSet) : Prop where
  contains : ∀ item ∈ items, item ∈ result
  saturated : Saturated g f result
  least : ∀ other, (∀ item ∈ items, item ∈ other) → Saturated g f other →
    ∀ item ∈ result, item ∈ other

/-! ### The loop -/

theorem size_closureStep_iff {items : ItemSet} :
    (closureStep g f items).size ≠ items.size ↔ closureStep g f items ≠ items := by
  refine ⟨fun grown same => grown (by rw [same]), fun changed same => changed ?_⟩
  exact (SortedSet.eq_of_subset (fun _ h => mem_closureStep.2 (.inl h)) same.le).symm

theorem closureRound_grown_iff {items : ItemSet} : (closureRound g f items).2 = true ↔
    ∃ item ∈ (closureRound g f items).1, item ∉ items := by
  simp only [closureRound, bne_iff_ne, size_closureStep_iff]
  constructor
  · intro changed
    by_contra nothing
    have within : ∀ item ∈ closureStep g f items, item ∈ items :=
      fun item member => by_contra fun absent => nothing ⟨item, member, absent⟩
    refine changed (SortedSet.ext fun item => ⟨within item, fun member => ?_⟩)
    exact mem_closureStep.2 (.inl member)
  · rintro ⟨item, member, absent⟩ same
    exact absent (same ▸ member)

theorem closesTo_of_comesToRest {items result : ItemSet}
    (h : ComesToRest (closureStep g f) items result) : ClosesTo g f items result := by
  induction h with
  | @rest items same =>
      refine .last ?_
      simp [closureRound, same]
  | @round items result changed _ ih =>
      refine .again ?_ ih
      simpa [closureRound] using size_closureStep_iff.2 changed

theorem ClosesTo.unique {items result other : ItemSet} (h : ClosesTo g f items result)
    (h' : ClosesTo g f items other) : result = other := by
  induction h with
  | last round =>
      cases h' with
      | last round' => simp_all
      | again round' => simp_all
  | again round _ ih =>
      cases h' with
      | last round' => simp_all
      | again round' later =>
          obtain ⟨rfl, -⟩ := Prod.mk.inj (round.symm.trans round')
          exact ih later

theorem closesTo_iff (wf : g.WellFormed) (bounded : f.Bounded g) {items result : ItemSet} :
    ClosesTo g f items result ↔ result = closure g f items := by
  have ends : ClosesTo g f items (closure g f items) :=
    closesTo_of_comesToRest (comesToRest_stabilize (closureStep_closure wf bounded items))
  exact ⟨fun h => h.unique ends, fun same => same ▸ ends⟩

/-! ### The least saturated set -/

theorem saturated_iff {items : ItemSet} :
    Saturated g f items ↔ ∀ item ∈ items, ∀ j ∈ item.expand g f, j ∈ items := by
  constructor
  · intro h item member j expands
    obtain ⟨n, next, p, hp, y, hy, rfl⟩ := Item.mem_expand.1 expands
    exact h item member n next p hp y hy
  · intro h item member n next p hp y hy
    exact h item member _ (Item.mem_expand.2 ⟨n, next, p, hp, y, hy, rfl⟩)

theorem leastSaturated_closure (wf : g.WellFormed) (bounded : f.Bounded g) (items : ItemSet) :
    LeastSaturated g f items (closure g f items) where
  contains := subset_closure items
  saturated := saturated_iff.2 fun _ member _ => closure_closed wf bounded member
  least _ contains saturated := closure_induction contains (saturated_iff.1 saturated)

theorem Saturated.union {a b : ItemSet} (ha : Saturated g f a) (hb : Saturated g f b) :
    Saturated g f (a ∪ b) := by
  intro item member n next p hp y hy
  refine SortedSet.mem_union.2 ((SortedSet.mem_union.1 member).imp ?_ ?_)
  · exact fun left => ha item left n next p hp y hy
  · exact fun right => hb item right n next p hp y hy

namespace LeastSaturated

variable {items others result result' : ItemSet}

theorem unique (h : LeastSaturated g f items result) (h' : LeastSaturated g f items result') :
    result = result' :=
  SortedSet.ext fun item => ⟨h.least _ h'.contains h'.saturated item,
    h'.least _ h.contains h.saturated item⟩

theorem of_saturated (h : Saturated g f items) : LeastSaturated g f items items :=
  ⟨fun _ member => member, h, fun _ contains _ => contains⟩

theorem mono (h : LeastSaturated g f items result) (h' : LeastSaturated g f others result')
    (within : ∀ item ∈ items, item ∈ others) : ∀ item ∈ result, item ∈ result' :=
  h.least _ (fun item member => h'.contains item (within item member)) h'.saturated

theorem union (h : LeastSaturated g f items result) (h' : LeastSaturated g f others result') :
    LeastSaturated g f (items ∪ others) (result ∪ result') where
  contains item member :=
    SortedSet.mem_union.2 ((SortedSet.mem_union.1 member).imp (h.contains item) (h'.contains item))
  saturated := h.saturated.union h'.saturated
  least other contains saturated item member := by
    have left : ∀ item ∈ items, item ∈ other :=
      fun item member => contains item (SortedSet.mem_union.2 (.inl member))
    have right : ∀ item ∈ others, item ∈ other :=
      fun item member => contains item (SortedSet.mem_union.2 (.inr member))
    rcases SortedSet.mem_union.1 member with member | member
    · exact h.least other left saturated item member
    · exact h'.least other right saturated item member

end LeastSaturated

/-- The loop ends on every set of items of the grammar's productions. Its result is the least
    saturated set around them, so closing is idempotent and monotone and can be done part by
    part; and a round says that it has changed something exactly when it has added an item. -/
theorem closure_least {goal : String} {rules : List Rule} {nonterminals terminals : List String}
    (ofRules : Grammar.ofRules goal rules nonterminals terminals = .ok g) {items : ItemSet}
    (inside : ∀ item ∈ items, item.production < g.productions.length) :
    let f := FirstSets.ofGrammar g
    (∀ result, ClosesTo g f items result ↔ result = closure g f items) ∧
    LeastSaturated g f items (closure g f items) ∧
    (∀ item ∈ closure g f items, item.production < g.productions.length) ∧
    closure g f (closure g f items) = closure g f items ∧
    (∀ others : ItemSet, (∀ item ∈ items, item ∈ others) →
      ∀ item ∈ closure g f items, item ∈ closure g f others) ∧
    (∀ others, closure g f (items ∪ others) = closure g f items ∪ closure g f others) ∧
    ((closureRound g f items).2 = true ↔
      ∃ item ∈ (closureRound g f items).1, item ∉ items) := by
  intro f
  have wf := Grammar.ofRules_wellFormed ofRules
  have bounded : f.Bounded g := FirstSets.bounded_ofGrammar wf
  have least := leastSaturated_closure wf bounded
  have productions : ∀ item ∈ closure g f items, item.production < g.productions.length :=
    closure_induction inside fun _ _ _ => Item.production_lt_of_mem_expand
  have idempotent : closure g f (closure g f items) = closure g f items :=
    (least (closure g f items)).unique (.of_saturated (least items).saturated)
  have parts : ∀ others, closure g f (items ∪ others) = closure g f items ∪ closure g f others :=
    fun others => (least (items ∪ others)).unique ((least items).union (least others))
  exact ⟨fun result => closesTo_iff wf bounded, least items, productions, idempotent,
    fun others => (least items).mono (least others), parts, closureRound_grown_iff⟩

/-- Behind an opening parenthesis, both productions are expected before the closing one. -/
theorem closure_least_parens :
    LeastSaturated Grammar.parens (.ofGrammar .parens) (.ofList [⟨1, 1, .endOfInput⟩])
      (.ofList [⟨1, 1, .endOfInput⟩, ⟨1, 0, .terminal 1⟩, ⟨2, 0, .terminal 1⟩]) := by
  have inside : ∀ item ∈ (SortedSet.ofList [⟨1, 1, .endOfInput⟩] : ItemSet),
      item.production < Grammar.parens.productions.length := by decide
  have least := (closure_least Grammar.ofRules_parens inside).2.1
  have items : closure Grammar.parens (.ofGrammar .parens) (.ofList [⟨1, 1, .endOfInput⟩]) =
      .ofList [⟨1, 1, .endOfInput⟩, ⟨1, 0, .terminal 1⟩, ⟨2, 0, .terminal 1⟩] := by
    decide +kernel
  exact items ▸ least

end ItemSet

end Assembler
