/-! # Finite maps as sorted association lists

The entries stand in strictly increasing order of their keys, so a map is determined by its
look-ups and its listing is sorted by name. Label sites and symbol tables are such maps.
-/

namespace Assembler

open Std

/-- Bind a key in a sorted association list, replacing the entry it had. -/
def bindSorted {κ ν : Type} [Ord κ] (k : κ) (v : ν) : List (κ × ν) → List (κ × ν)
  | [] => [(k, v)]
  | e :: es =>
      match compare k e.1 with
      | .lt => (k, v) :: e :: es
      | .eq => (k, v) :: es
      | .gt => e :: bindSorted k v es

/-- Every key precedes all keys after it. -/
abbrev KeySorted {κ ν : Type} [Ord κ] (es : List (κ × ν)) : Prop :=
  es.Pairwise (fun a b => compare a.1 b.1 = .lt)

theorem fst_of_mem_bindSorted {κ ν : Type} [Ord κ] {k : κ} {v : ν} {e : κ × ν}
    {es : List (κ × ν)} (h : e ∈ bindSorted k v es) : e.1 = k ∨ e ∈ es := by
  induction es with
  | nil => simp_all [bindSorted]
  | cons d ds ih =>
      rw [bindSorted] at h
      split at h
      · rcases List.mem_cons.1 h with rfl | h
        · exact .inl rfl
        · exact .inr h
      · rcases List.mem_cons.1 h with rfl | h
        · exact .inl rfl
        · exact .inr (List.mem_cons_of_mem _ h)
      · rcases List.mem_cons.1 h with rfl | h
        · exact .inr List.mem_cons_self
        · exact (ih h).imp_right (List.mem_cons_of_mem _)

theorem keySorted_bindSorted {κ ν : Type} [Ord κ] [TransOrd κ] [LawfulEqOrd κ] (k : κ) (v : ν)
    {es : List (κ × ν)} (h : KeySorted es) : KeySorted (bindSorted k v es) := by
  induction es with
  | nil => simp [bindSorted, KeySorted]
  | cons d ds ih =>
      have hd := List.pairwise_cons.1 h
      rw [bindSorted]
      split
      · next hlt =>
          refine List.pairwise_cons.2 ⟨?_, h⟩
          intro z hz
          rcases List.mem_cons.1 hz with rfl | hz
          · exact hlt
          · exact TransCmp.lt_trans hlt (hd.1 z hz)
      · next heq =>
          have hk : k = d.1 := LawfulEqCmp.eq_of_compare heq
          exact List.pairwise_cons.2 ⟨fun z hz => hk ▸ hd.1 z hz, hd.2⟩
      · next hgt =>
          refine List.pairwise_cons.2 ⟨?_, ih hd.2⟩
          intro z hz
          rcases fst_of_mem_bindSorted hz with hk | hz
          · exact hk ▸ OrientedCmp.lt_of_gt hgt
          · exact hd.1 z hz

theorem lookup_cons_eq_ite {κ ν : Type} [DecidableEq κ] (a k : κ) (v : ν) (es : List (κ × ν)) :
    ((k, v) :: es).lookup a = if a = k then some v else es.lookup a := by
  by_cases h : a = k
  · simp [h]
  · have hb : (a == k) = false := beq_eq_false_iff_ne.2 h
    simp [List.lookup_cons, hb, h]

theorem lookup_eq_some_iff_mem {κ ν : Type} [DecidableEq κ] {es : List (κ × ν)}
    (distinct : (es.map (·.1)).Nodup) {a : κ} {w : ν} : es.lookup a = some w ↔ (a, w) ∈ es := by
  induction es with
  | nil => simp
  | cons e es ih =>
      obtain ⟨k, v⟩ := e
      simp only [List.map_cons, List.nodup_cons, List.mem_map, not_exists, not_and] at distinct
      rw [lookup_cons_eq_ite, List.mem_cons]
      by_cases same : a = k
      · subst same
        have fresh : (a, w) ∉ es := fun member => distinct.1 _ member rfl
        simp [fresh, eq_comm]
      · simp [same, ih distinct.2]

/-- A finite map, listed in increasing order of its keys. -/
structure SortedMap (κ ν : Type) [Ord κ] where
  /-- The entries in increasing order of their keys. -/
  toList : List (κ × ν)
  /-- The keys are strictly increasing. -/
  sorted : KeySorted toList
  deriving DecidableEq

namespace SortedMap

variable {κ ν : Type} [Ord κ]

/-- The map without entries. -/
def empty : SortedMap κ ν := ⟨[], .nil⟩

instance : Inhabited (SortedMap κ ν) := ⟨empty⟩

/-- The value bound to a key. -/
def get? [DecidableEq κ] (m : SortedMap κ ν) (k : κ) : Option ν :=
  m.toList.lookup k

/-- Whether a key is bound. -/
def contains [DecidableEq κ] (m : SortedMap κ ν) (k : κ) : Bool :=
  (m.get? k).isSome

/-- Bind a key, replacing the value it had. -/
def insert [TransOrd κ] [LawfulEqOrd κ] (m : SortedMap κ ν) (k : κ) (v : ν) : SortedMap κ ν :=
  ⟨bindSorted k v m.toList, keySorted_bindSorted k v m.sorted⟩

/-- The map of a list of entries, of which a later one replaces an earlier one of its key. -/
def ofList [TransOrd κ] [LawfulEqOrd κ] (es : List (κ × ν)) : SortedMap κ ν :=
  es.foldl (fun m e => m.insert e.1 e.2) empty

/-- The number of entries. -/
def size (m : SortedMap κ ν) : Nat := m.toList.length

/-- Whether there are no entries. -/
def isEmpty (m : SortedMap κ ν) : Bool := m.toList.isEmpty

theorem lookup_bindSorted [DecidableEq κ] [TransOrd κ] [LawfulEqOrd κ] (k a : κ) (v : ν)
    (es : List (κ × ν)) :
    (bindSorted k v es).lookup a = if a = k then some v else es.lookup a := by
  induction es with
  | nil => exact lookup_cons_eq_ite a k v []
  | cons d ds ih =>
      obtain ⟨j, w⟩ := d
      rw [bindSorted]
      split
      · exact lookup_cons_eq_ite a k v _
      · next heq =>
          have hk : k = j := LawfulEqCmp.eq_of_compare heq
          subst hk
          simp only [lookup_cons_eq_ite]
          split <;> rfl
      · next hgt =>
          have hne : k ≠ j := by
            rintro rfl
            simp at hgt
          simp only [lookup_cons_eq_ite, ih]
          by_cases hj : a = j
          · subst hj
            simp [Ne.symm hne]
          · simp [hj]

@[simp] theorem get?_empty [DecidableEq κ] (a : κ) : (empty : SortedMap κ ν).get? a = none := rfl

@[simp] theorem get?_insert [DecidableEq κ] [TransOrd κ] [LawfulEqOrd κ] (m : SortedMap κ ν)
    (k a : κ) (v : ν) : (m.insert k v).get? a = if a = k then some v else m.get? a :=
  lookup_bindSorted k a v m.toList

theorem nodup_keys [TransOrd κ] (m : SortedMap κ ν) : (m.toList.map (·.1)).Nodup := by
  rw [List.Nodup, List.pairwise_map]
  refine m.sorted.imp ?_
  intro a b precedes same
  simp [same] at precedes

theorem get?_eq_some_iff [DecidableEq κ] [TransOrd κ] {m : SortedMap κ ν} {a : κ} {w : ν} :
    m.get? a = some w ↔ (a, w) ∈ m.toList :=
  lookup_eq_some_iff_mem m.nodup_keys

end SortedMap

end Assembler
