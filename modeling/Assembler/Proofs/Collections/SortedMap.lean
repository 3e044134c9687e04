import Assembler.Collections.SortedMap
import Assembler.Proofs.Collections.SortedSet

/-! # Sorted maps as partial functions

A map is determined by its look-ups.
-/

namespace Assembler

namespace SortedMap

open Std

variable {κ ν : Type} [Ord κ] [DecidableEq κ] [TransOrd κ]

@[ext] theorem ext {m m' : SortedMap κ ν} (h : ∀ k, m.get? k = m'.get? k) : m = m' := by
  have lists : m.toList = m'.toList := by
    refine m.sorted.eq_of_mem_iff m'.sorted ?_
    rintro ⟨k, v⟩
    rw [← get?_eq_some_iff, ← get?_eq_some_iff, h]
  cases m
  cases m'
  cases lists
  rfl

omit [DecidableEq κ] [TransOrd κ] in
/-- The map with every value changed. -/
def mapValues {ν' : Type} (f : ν → ν') (m : SortedMap κ ν) : SortedMap κ ν' :=
  ⟨m.toList.map fun e => (e.1, f e.2), List.pairwise_map.2 m.sorted⟩

theorem get?_mapValues {ν' : Type} (f : ν → ν') (m : SortedMap κ ν) (k : κ) :
    (m.mapValues f).get? k = (m.get? k).map f := by
  ext w
  simp [get?_eq_some_iff, mapValues]

variable [LawfulEqOrd κ]

theorem get?_foldl_insert {es : List (κ × ν)} (distinct : (es.map (·.1)).Nodup)
    (m : SortedMap κ ν) (k : κ) :
    (es.foldl (fun m e => m.insert e.1 e.2) m).get? k = (es.lookup k).or (m.get? k) := by
  induction es generalizing m with
  | nil => simp
  | cons e es ih =>
      obtain ⟨j, v⟩ := e
      simp only [List.map_cons, List.nodup_cons] at distinct
      rw [List.foldl_cons, ih distinct.2, get?_insert, lookup_cons_eq_ite]
      by_cases same : k = j
      · subst same
        have absent : es.lookup k = none := by
          cases found : es.lookup k with
          | none => rfl
          | some w =>
              have member := (lookup_eq_some_iff_mem distinct.2).1 found
              exact absurd (List.mem_map.2 ⟨_, member, rfl⟩) distinct.1
        simp [absent]
      · simp [same]

theorem get?_foldl_insert_const {keys : List κ} {v : ν} {m : SortedMap κ ν} {k : κ} :
    (keys.foldl (fun m key => m.insert key v) m).get? k =
      if k ∈ keys then some v else m.get? k := by
  induction keys generalizing m with
  | nil => simp
  | cons key keys ih =>
      rw [List.foldl_cons, ih, get?_insert]
      by_cases later : k ∈ keys
      · simp [later]
      · by_cases here : k = key <;> simp [later, here]

theorem get?_ofList {es : List (κ × ν)} (distinct : (es.map (·.1)).Nodup) {k : κ} {v : ν} :
    (ofList es).get? k = some v ↔ (k, v) ∈ es := by
  rw [ofList, get?_foldl_insert distinct, get?_empty, Option.or_none,
    lookup_eq_some_iff_mem distinct]

theorem ofList_toList (m : SortedMap κ ν) : ofList m.toList = m := by
  ext k v
  rw [get?_ofList m.nodup_keys, get?_eq_some_iff]

end SortedMap

end Assembler
