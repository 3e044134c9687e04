import Assembler.Codegen.Overlap
import Mathlib.Data.List.NodupEquivFin
import Mathlib.Data.List.Pairwise
import Mathlib.Data.List.Permutation

/-! # The check for overlap is exact

The sweep compares an extent with one other only, and still finds every overlap: among extents that
start no later, the one that reaches furthest shares an address with a later extent as soon as any
of them does. What it reports are two different sections, since a pair of entries of a list comes
from a pair of entries of any list that it was sorted or filtered from.
-/

namespace Assembler

/-! ### Pairs of entries -/

section Pairs

variable {α β : Type} {xs : List α}

theorem exists_getElem?_of_subperm {x y : α} (h : List.Subperm [x, y] xs) :
    ∃ i j : Nat, i ≠ j ∧ xs[i]? = some x ∧ xs[j]? = some y := by
  obtain ⟨pair, same, sub⟩ := h
  obtain ⟨place, found⟩ := List.sublist_iff_exists_orderEmbedding_getElem?_eq.1 sub
  have apart : place 0 ≠ place 1 := fun same => absurd (place.injective same) (by decide)
  rcases List.perm_pair.1 same with rfl | rfl
  · exact ⟨place 0, place 1, apart, (found 0).symm, (found 1).symm⟩
  · exact ⟨place 1, place 0, apart.symm, (found 1).symm, (found 0).symm⟩

theorem exists_of_subperm_map {f : α → β} {a b : β} (h : List.Subperm [a, b] (xs.map f)) :
    ∃ x y, List.Subperm [x, y] xs ∧ f x = a ∧ f y = b := by
  obtain ⟨pair, same, sub⟩ := h
  obtain ⟨origin, inside, rfl⟩ := List.sublist_map_iff.1 sub
  have two : origin.length = 2 := by simpa using same.length_eq
  obtain ⟨x, y, rfl⟩ := List.length_eq_two.1 two
  rcases List.perm_pair.1 same with order | order
  · cases order
    exact ⟨x, y, inside.subperm, rfl, rfl⟩
  · cases order
    exact ⟨y, x, (List.Perm.swap x y []).subperm.trans inside.subperm, rfl, rfl⟩

end Pairs

/-! ### Sections and extents -/

/-- A section holds a word at an address. -/
def ObjectSection.Occupies (s : ObjectSection) (address : Nat) : Prop :=
  s.start.toNat ≤ address ∧ address < s.stop

/-- Two sections share no address. -/
def ObjectSection.Disjoint (a b : ObjectSection) : Prop :=
  min a.stop b.stop ≤ max a.start.toNat b.start.toNat

instance (a b : ObjectSection) : Decidable (a.Disjoint b) :=
  inferInstanceAs (Decidable (_ ≤ _))

theorem ObjectSection.disjoint_iff {a b : ObjectSection} :
    a.Disjoint b ↔ ∀ address, ¬(a.Occupies address ∧ b.Occupies address) := by
  simp only [Disjoint, Occupies]
  constructor
  · intro apart address shared
    omega
  · intro apart
    have here := apart (max a.start.toNat b.start.toNat)
    omega

theorem ObjectSection.Disjoint.symm {a b : ObjectSection} (h : a.Disjoint b) : b.Disjoint a := by
  unfold Disjoint at h ⊢
  rwa [Nat.min_comm, Nat.max_comm]

namespace Extent

theorem overlaps_comm (a b : Extent) : a.overlaps b = b.overlaps a :=
  Bool.and_comm _ _

theorem overlaps_eq_false_iff {a b : Extent} (order : a.start ≤ b.start)
    (solid : b.start.toNat < b.stop) : a.overlaps b = false ↔ a.stop ≤ b.start.toNat := by
  have order : a.start.toNat ≤ b.start.toNat := order
  have before : a.start.toNat < b.stop := by omega
  simp [overlaps, before]

theorem sweep_eq_ok_iff {furthest : Extent} {rest : List Extent}
    (sorted : (furthest :: rest).Pairwise (·.start ≤ ·.start))
    (solid : ∀ e ∈ rest, e.start.toNat < e.stop) :
    sweep furthest rest = .ok () ↔
      (furthest :: rest).Pairwise (fun a b => a.overlaps b = false) := by
  induction rest generalizing furthest with
  | nil => simp [sweep]
  | cons e rest ih =>
      obtain ⟨first, later⟩ := List.pairwise_cons.1 sorted
      obtain ⟨second, -⟩ := List.pairwise_cons.1 later
      have solidE := solid e List.mem_cons_self
      have solidRest : ∀ x ∈ rest, x.start.toNat < x.stop :=
        fun x hx => solid x (List.mem_cons_of_mem _ hx)
      have order := first e List.mem_cons_self
      have apart := overlaps_eq_false_iff order solidE
      simp only [sweep]
      split
      · next clash =>
          simp only [reduceCtorEq, false_iff]
          intro all
          have := (List.pairwise_cons.1 all).1 e List.mem_cons_self
          simp [clash] at this
      · next free =>
          have ends := apart.1 (by simpa using free)
          have further : furthest.stop < e.stop := by omega
          rw [if_pos further, ih later solidRest]
          refine ⟨fun all => List.pairwise_cons.2 ⟨?_, all⟩, fun all => (List.pairwise_cons.1 all).2⟩
          -- what starts behind `e` starts behind the end of everything before `e`
          intro x member
          rcases List.mem_cons.1 member with rfl | member
          · simpa using free
          · have behind : e.start.toNat ≤ x.start.toNat := second x member
            exact (overlaps_eq_false_iff (first x (List.mem_cons_of_mem _ member))
              (solidRest x member)).2 (by omega)

theorem exists_of_sweep {furthest : Extent} {rest : List Extent} {e : CodegenError}
    (h : sweep furthest rest = .error e) : ∃ a b, List.Sublist [a, b] (furthest :: rest) ∧
      a.overlaps b = true ∧ e = .overlappingSections a.start b.start b.line := by
  induction rest generalizing furthest with
  | nil => cases h
  | cons next rest ih =>
      rw [sweep] at h
      split at h
      · next clash =>
          cases h
          exact ⟨furthest, next, by simp, clash, rfl⟩
      · obtain ⟨a, b, pair, reported⟩ := ih h
        refine ⟨a, b, pair.trans ?_, reported⟩
        split
        · exact List.sublist_cons_self furthest _
        · exact (List.sublist_cons_self next rest).cons_cons furthest

theorem sorted_mergeSort (extents : List Extent) :
    (extents.mergeSort (fun a b => a.start ≤ b.start)).Pairwise (·.start ≤ ·.start) := by
  have ordered : (extents.mergeSort (fun a b => a.start ≤ b.start)).Pairwise
      (fun a b => decide (a.start ≤ b.start) = true) :=
    List.pairwise_mergeSort (by simpa using fun a b c => UInt32.le_trans)
      (by simpa using fun a b => UInt32.le_total _ _) extents
  simpa using ordered

theorem checkAll_eq_ok_iff {extents : List Extent}
    (solid : ∀ e ∈ extents, e.start.toNat < e.stop) :
    checkAll extents = .ok () ↔ extents.Pairwise (fun a b => a.overlaps b = false) := by
  have same := List.mergeSort_perm extents (fun a b => a.start ≤ b.start)
  have sorted := sorted_mergeSort extents
  rw [← same.pairwise_iff (fun h => by rwa [overlaps_comm] at h)]
  simp only [checkAll]
  split
  · next empty => simp [empty]
  · next first rest order =>
      rw [order] at sorted same ⊢
      refine sweep_eq_ok_iff sorted fun e member => ?_
      exact solid e (same.subset (List.mem_cons_of_mem _ member))

theorem exists_of_checkAll {extents : List Extent} {e : CodegenError}
    (h : checkAll extents = .error e) : ∃ a b, List.Subperm [a, b] extents ∧ a.start ≤ b.start ∧
      a.overlaps b = true ∧ e = .overlappingSections a.start b.start b.line := by
  have same := List.mergeSort_perm extents (fun a b => a.start ≤ b.start)
  have sorted := sorted_mergeSort extents
  rw [checkAll] at h
  split at h
  · cases h
  · next first rest order =>
      rw [order] at sorted same
      obtain ⟨a, b, pair, reported⟩ := exists_of_sweep h
      have inOrder := sorted.sublist pair
      exact ⟨a, b, pair.subperm.trans same.subperm, by simpa using inOrder, reported⟩

end Extent

namespace ObjectSection

theorem isEmpty_eq_false_iff {s : ObjectSection} :
    s.isEmpty = false ↔ s.start.toNat < s.stop := by
  have size : s.isEmpty = false ↔ 0 < s.words.length := by
    rw [isEmpty, List.isEmpty_eq_false_iff, List.length_pos_iff]
  rw [size, stop]
  omega

theorem Occupies.isEmpty {s : ObjectSection} {address : Nat} (h : s.Occupies address) :
    s.isEmpty = false :=
  isEmpty_eq_false_iff.2 (Nat.lt_of_le_of_lt h.1 h.2)

theorem disjoint_iff_overlaps {a b : ObjectSection} {line line' : Nat} : a.Disjoint b ↔
    (a.isEmpty = false → b.isEmpty = false →
      Extent.overlaps ⟨a.start, a.stop, line⟩ ⟨b.start, b.stop, line'⟩ = false) := by
  have sizeA : a.start.toNat ≤ a.stop := Nat.le_add_right _ _
  have sizeB : b.start.toNat ≤ b.stop := Nat.le_add_right _ _
  simp only [isEmpty_eq_false_iff, Disjoint, Extent.overlaps, Bool.and_eq_false_iff,
    decide_eq_false_iff_not]
  omega

end ObjectSection

theorem solid_of_mem {sections : List (ObjectSection × Nat)} :
    ∀ e ∈ (sections.filter (!·.1.isEmpty)).map
      (fun s => (⟨s.1.start, s.1.stop, s.2⟩ : Extent)), e.start.toNat < e.stop := by
  intro e member
  simp only [List.mem_map, List.mem_filter, Bool.not_eq_true'] at member
  obtain ⟨s, ⟨-, filled⟩, rfl⟩ := member
  exact ObjectSection.isEmpty_eq_false_iff.1 filled

theorem checkOverlap_eq_ok_iff_pairwise {sections : List (ObjectSection × Nat)} :
    checkOverlap sections = .ok () ↔ sections.Pairwise (fun a b => a.1.Disjoint b.1) := by
  rw [checkOverlap, Extent.checkAll_eq_ok_iff solid_of_mem, List.pairwise_map, List.pairwise_filter]
  refine List.Pairwise.iff ?_
  intro a b
  simp only [Bool.not_eq_true']
  exact ObjectSection.disjoint_iff_overlaps.symm

theorem checkOverlap_eq_ok_iff {sections : List ObjectSection} {lines : List Nat}
    (count : sections.length = lines.length) :
    checkOverlap (sections.zip lines) = .ok () ↔ sections.Pairwise ObjectSection.Disjoint := by
  have firsts : ((sections.zip lines).map Prod.fst).Pairwise ObjectSection.Disjoint ↔ _ :=
    List.pairwise_map
  rw [List.map_fst_zip (Nat.le_of_eq count)] at firsts
  rw [checkOverlap_eq_ok_iff_pairwise, firsts]

theorem exists_of_checkOverlap {sections : List (ObjectSection × Nat)} {e : CodegenError}
    (h : checkOverlap sections = .error e) : ∃ a b, List.Subperm [a, b] sections ∧
      (a.1.isEmpty = false ∧ b.1.isEmpty = false) ∧ a.1.start ≤ b.1.start ∧
      ¬a.1.Disjoint b.1 ∧ e = .overlappingSections a.1.start b.1.start b.2 := by
  obtain ⟨_, _, found, order, clash, rfl⟩ := Extent.exists_of_checkAll h
  obtain ⟨a, b, pair, rfl, rfl⟩ := exists_of_subperm_map found
  have filled : ∀ s ∈ [a, b], s.1.isEmpty = false := by
    intro s member
    simpa using (List.mem_filter.1 (pair.subset member)).2
  refine ⟨a, b, pair.trans List.filter_sublist.subperm,
    ⟨filled a (by simp), filled b (by simp)⟩, order, ?_, rfl⟩
  intro apart
  have free : Extent.overlaps ⟨a.1.start, a.1.stop, a.2⟩ ⟨b.1.start, b.1.stop, b.2⟩ = false :=
    ObjectSection.disjoint_iff_overlaps.1 apart (filled a (by simp)) (filled b (by simp))
  exact Bool.false_ne_true (free.symm.trans clash)

/-- Sections that share no address pass the check in every order, and only these do. An error names
    two different ones that do share an address, the one that starts first in front, and the line of
    the other. -/
theorem checkOverlap_exact (sections : List (ObjectSection × Nat)) :
    (checkOverlap sections = .ok () ↔ ∀ (i j : Nat) (a b : ObjectSection × Nat),
      i ≠ j → sections[i]? = some a → sections[j]? = some b →
      a.1.isEmpty = false → b.1.isEmpty = false →
      ∀ address, ¬(a.1.Occupies address ∧ b.1.Occupies address)) ∧
    (∀ other, other.Perm sections →
      (checkOverlap other = .ok () ↔ checkOverlap sections = .ok ())) ∧
    ∀ e, checkOverlap sections = .error e → ∃ (i j : Nat) (a b : ObjectSection × Nat),
      i ≠ j ∧ sections[i]? = some a ∧ sections[j]? = some b ∧
      a.1.isEmpty = false ∧ b.1.isEmpty = false ∧
      (∃ address, a.1.Occupies address ∧ b.1.Occupies address) ∧
      a.1.start ≤ b.1.start ∧ e = .overlappingSections a.1.start b.1.start b.2 := by
  refine ⟨?_, ?_, ?_⟩
  · rw [checkOverlap_eq_ok_iff_pairwise]
    constructor
    · intro apart i j a b different here there _ _
      obtain ⟨hi, rfl⟩ := List.getElem?_eq_some_iff.1 here
      obtain ⟨hj, rfl⟩ := List.getElem?_eq_some_iff.1 there
      rw [← ObjectSection.disjoint_iff]
      rcases Nat.lt_or_gt_of_ne different with before | behind
      · exact List.pairwise_iff_getElem.1 apart i j hi hj before
      · exact (List.pairwise_iff_getElem.1 apart j i hj hi behind).symm
    · intro free
      refine List.pairwise_iff_getElem.2 fun i j hi hj before => ?_
      refine ObjectSection.disjoint_iff.2 fun address shared => ?_
      exact free i j _ _ (Nat.ne_of_lt before) (List.getElem?_eq_getElem hi)
        (List.getElem?_eq_getElem hj) shared.1.isEmpty shared.2.isEmpty address shared
  · intro other same
    rw [checkOverlap_eq_ok_iff_pairwise, checkOverlap_eq_ok_iff_pairwise]
    exact same.pairwise_iff fun h => h.symm
  · intro e failed
    obtain ⟨a, b, pair, ⟨filled, filled'⟩, order, clash, rfl⟩ := exists_of_checkOverlap failed
    obtain ⟨i, j, different, here, there⟩ := exists_getElem?_of_subperm pair
    rw [ObjectSection.disjoint_iff] at clash
    exact ⟨i, j, a, b, different, here, there, filled, filled', by simpa using clash, order, rfl⟩

end Assembler
