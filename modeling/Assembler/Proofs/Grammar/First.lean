import Assembler.Grammar.First
import Assembler.Proofs.Collections.SortedSet
import Assembler.Proofs.Grammar.WellFormed
import Mathlib

/-! # FIRST sets are a solution

A round never takes anything away from a set, and the sets of a grammar have only its terminals to
draw from. So the rounds come to rest within their limit, and the sets they leave contain what every
production of their nonterminal can begin with.
-/

namespace Assembler

namespace FirstSet

/-- Whatever can come first in `a` can come first in `b`. -/
structure Within (a b : FirstSet) : Prop where
  terminals : ∀ t ∈ a.terminals, t ∈ b.terminals
  nullable : a.nullable = true → b.nullable = true

/-- How much a set has been filled. -/
def weight (a : FirstSet) : Nat := a.terminals.size + a.nullable.toNat

theorem Within.refl (a : FirstSet) : a.Within a := ⟨fun _ h => h, id⟩

theorem Within.trans {a b c : FirstSet} (hab : a.Within b) (hbc : b.Within c) : a.Within c :=
  ⟨fun t h => hbc.terminals t (hab.terminals t h), fun h => hbc.nullable (hab.nullable h)⟩

theorem within_union_left (a b : FirstSet) : a.Within (a.union b) :=
  ⟨fun _ h => SortedSet.mem_union.2 (.inl h), fun h => by simp [union, h]⟩

theorem within_union_right (a b : FirstSet) : b.Within (a.union b) :=
  ⟨fun _ h => SortedSet.mem_union.2 (.inr h), fun h => by simp [union, h]⟩

theorem Within.weight_le {a b : FirstSet} (h : a.Within b) : a.weight ≤ b.weight := by
  have terminals : a.terminals.size ≤ b.terminals.size := SortedSet.size_le_of_subset h.terminals
  have nullable : a.nullable.toNat ≤ b.nullable.toNat := Bool.toNat_le_toNat h.nullable
  exact Nat.add_le_add terminals nullable

theorem Within.eq_of_weight_le {a b : FirstSet} (h : a.Within b) (heavy : b.weight ≤ a.weight) :
    a = b := by
  have terminals : a.terminals.size ≤ b.terminals.size := SortedSet.size_le_of_subset h.terminals
  have nullable : a.nullable.toNat ≤ b.nullable.toNat := Bool.toNat_le_toNat h.nullable
  simp only [weight] at heavy
  have sameTerminals : a.terminals = b.terminals :=
    SortedSet.eq_of_subset h.terminals (by omega)
  have sameNullable : a.nullable = b.nullable := by
    have sameCount : a.nullable.toNat = b.nullable.toNat := by omega
    cases ha : a.nullable <;> cases hb : b.nullable <;> simp_all
  cases a
  cases b
  simp_all

end FirstSet

namespace FirstSets

variable {g : Grammar} {f : FirstSets}

theorem within_foldl_union (sets : Nat → FirstSet) (ps : List Nat) (a : FirstSet) :
    a.Within (ps.foldl (fun acc p => acc.union (sets p)) a) ∧
      ∀ p ∈ ps, (sets p).Within (ps.foldl (fun acc p => acc.union (sets p)) a) := by
  induction ps generalizing a with
  | nil => exact ⟨.refl a, by simp⟩
  | cons q ps ih =>
      obtain ⟨kept, added⟩ := ih (a.union (sets q))
      refine ⟨(FirstSet.within_union_left a _).trans kept, ?_⟩
      intro p member
      rcases List.mem_cons.1 member with rfl | member
      · exact (FirstSet.within_union_right a _).trans kept
      · exact added p member

theorem forall₂_within_step (g : Grammar) (f : FirstSets) :
    List.Forall₂ FirstSet.Within f.sets (step g f).sets := by
  rw [List.forall₂_iff_get]
  refine ⟨by simp [step], ?_⟩
  intro n hn hn'
  simp only [step, List.get_eq_getElem, List.getElem_mapIdx]
  exact (within_foldl_union (fun p => f.sequence (g.rhs p)) (g.productionsOf n) f.sets[n]).1

theorem sum_weight_le {as bs : List FirstSet} (h : List.Forall₂ FirstSet.Within as bs) :
    (as.map FirstSet.weight).sum ≤ (bs.map FirstSet.weight).sum := by
  induction h with
  | nil => exact Nat.le_refl _
  | cons head _ ih => simpa using Nat.add_le_add head.weight_le ih

theorem eq_of_sum_weight_le {as bs : List FirstSet} (h : List.Forall₂ FirstSet.Within as bs)
    (heavy : (bs.map FirstSet.weight).sum ≤ (as.map FirstSet.weight).sum) : as = bs := by
  induction h with
  | nil => rfl
  | cons head tail ih =>
      have headLe := head.weight_le
      have tailLe := sum_weight_le tail
      simp only [List.map_cons, List.sum_cons] at heavy
      rw [head.eq_of_weight_le (by omega), ih (by omega)]

/-- One set for each nonterminal, filled with terminals of the grammar. -/
structure Bounded (g : Grammar) (f : FirstSets) : Prop where
  length : f.sets.length = g.nonterminals.length
  terminals : ∀ set ∈ f.sets, ∀ t ∈ set.terminals, t < g.terminals.length

theorem Bounded.get (h : f.Bounded g) (n : Nat) : ∀ t ∈ f.first n, t < g.terminals.length := by
  intro t member
  simp only [first, FirstSets.get, List.getD_eq_getElem?_getD] at member
  cases found : f.sets[n]? with
  | none => simp [found, FirstSet.empty] at member
  | some set =>
      rw [found] at member
      exact h.terminals set (List.mem_of_getElem? found) t member

theorem Bounded.sequence (h : f.Bounded g) {symbols : List Symbol}
    (declared : ∀ s ∈ symbols, g.Declared s) :
    ∀ t ∈ (f.sequence symbols).terminals, t < g.terminals.length := by
  induction symbols with
  | nil => simp [FirstSets.sequence]
  | cons s rest ih =>
      have tail := ih fun x member => declared x (List.mem_cons_of_mem _ member)
      have head : ∀ t ∈ (f.symbol s).terminals, t < g.terminals.length := by
        cases s with
        | terminal x =>
            obtain ⟨name, found⟩ := declared (.terminal x) List.mem_cons_self
            intro t member
            simp only [FirstSets.symbol, SortedSet.mem_ofList, List.mem_singleton] at member
            exact member ▸ lastIndexOf?_lt found
        | nonterminal n => exact h.get n
      intro t member
      rcases FirstSet.mem_terminals_seq.1 member with member | ⟨-, member⟩
      · exact head t member
      · exact tail t member

theorem Bounded.step (wf : g.WellFormed) (h : f.Bounded g) : (step g f).Bounded g := by
  refine ⟨by simpa [FirstSets.step] using h.length, ?_⟩
  intro set member
  simp only [FirstSets.step, List.mem_mapIdx] at member
  obtain ⟨n, inside, rfl⟩ := member
  -- Folding the productions in keeps the bound, whatever the set was before.
  have fold : ∀ (ps : List Nat) (a : FirstSet), (∀ t ∈ a.terminals, t < g.terminals.length) →
      ∀ t ∈ (ps.foldl (fun acc p => acc.union (f.sequence (g.rhs p))) a).terminals,
        t < g.terminals.length := by
    intro ps
    induction ps with
    | nil => exact fun a ha => ha
    | cons p ps ih =>
        intro a ha
        apply ih
        intro t member
        rcases SortedSet.mem_union.1 member with member | member
        · exact ha t member
        · exact h.sequence (fun _ inside => wf.declared inside) t member
  exact fold _ _ (h.terminals _ (List.getElem_mem inside))

theorem bounded_start (g : Grammar) : (start g).Bounded g := by
  refine ⟨by simp [start], ?_⟩
  intro set member t ht
  simp only [start, List.mem_map] at member
  obtain ⟨_, -, rfl⟩ := member
  exact absurd ht SortedSet.not_mem_empty

theorem Bounded.weight_le (h : f.Bounded g) :
    (f.sets.map FirstSet.weight).sum ≤ g.nonterminals.length * (g.terminals.length + 1) := by
  have each : ∀ w ∈ f.sets.map FirstSet.weight, w ≤ g.terminals.length + 1 := by
    intro w member
    obtain ⟨set, hset, rfl⟩ := List.mem_map.1 member
    have size : set.terminals.size ≤ (List.range g.terminals.length).length :=
      SortedSet.size_le_of_subset fun t ht => List.mem_range.2 (h.terminals set hset t ht)
    have nullable : set.nullable.toNat ≤ 1 := Bool.toNat_le set.nullable
    simp only [List.length_range] at size
    simp only [FirstSet.weight]
    omega
  have total := List.sum_le_card_nsmul _ _ each
  simpa [h.length] using total

theorem bounded_ofGrammar (wf : g.WellFormed) : (ofGrammar g).Bounded g :=
  stabilize_preserves (P := Bounded g) (fun _ => Bounded.step wf) _ (bounded_start g)

/-- A further round changes nothing. -/
theorem step_ofGrammar (wf : g.WellFormed) : step g (ofGrammar g) = ofGrammar g := by
  refine step_stabilize (P := Bounded g) (fun f => (f.sets.map FirstSet.weight).sum) _
    (fun _ => Bounded.step wf) (fun _ => Bounded.weight_le) ?_ _ (bounded_start g) (by omega)
  intro f _ changed
  by_contra light
  refine changed ?_
  have same := eq_of_sum_weight_le (forall₂_within_step g f) (by omega)
  cases f
  exact congrArg FirstSets.mk same.symm

theorem sequence_within (wf : g.WellFormed) {p : Nat} {production : Production}
    (h : g.productions[p]? = some production) :
    ((ofGrammar g).sequence production.rhs).Within ((ofGrammar g).get production.lhs) := by
  have inside : production.lhs < (ofGrammar g).sets.length := by
    rw [(bounded_ofGrammar wf).length]
    exact wf.lhs_lt production (List.mem_of_getElem? h)
  have member : p ∈ g.productionsOf production.lhs := Grammar.mem_productionsOf.2 ⟨_, h, rfl⟩
  have added := (within_foldl_union (fun p => (ofGrammar g).sequence (g.rhs p))
    (g.productionsOf production.lhs) (ofGrammar g).sets[production.lhs]).2 p member
  have target : (ofGrammar g).get production.lhs = (g.productionsOf production.lhs).foldl
      (fun acc p => acc.union ((ofGrammar g).sequence (g.rhs p)))
      (ofGrammar g).sets[production.lhs] := by
    conv_lhs => rw [← step_ofGrammar wf]
    simp [FirstSets.get, FirstSets.step, inside]
  rw [target, ← Grammar.rhs_eq h]
  exact added

end FirstSets

end Assembler
