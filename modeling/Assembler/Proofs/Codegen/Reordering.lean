import Assembler.Proofs.Codegen.Reassembly

/-! # The order of the sections does not matter

Another order of the sections turns references forward into references back, but a complete layout
does not know which is which: it is rearranged as a whole, with all addresses, words and symbols the
same, and a layout that passes all checks is all that the generator needs.
-/

namespace Assembler

/-- The elements of a list in another order: at position `k` stands what stood at `σ k`. -/
def arrange {α : Type} {n : Nat} (σ : Equiv.Perm (Fin n)) (xs : List α) : List α :=
  (List.finRange n).filterMap fun k => xs[(σ k).val]?

/-- A label stays in front of its statement, wherever its section goes. -/
def Site.arrange {n : Nat} (σ : Equiv.Perm (Fin n)) (site : Site) : Site :=
  if h : site.sectionIndex < n then ⟨(σ.symm ⟨site.sectionIndex, h⟩).val, site.index⟩ else site

/-- The assembly with its sections in another order. -/
def Assembly.arrange {n : Nat} (σ : Equiv.Perm (Fin n)) (asm : Assembly) : Assembly :=
  ⟨Assembler.arrange σ asm.sections, asm.labels.mapValues (Site.arrange σ)⟩

/-- The object with its sections in another order. -/
def Object.arrange {n : Nat} (σ : Equiv.Perm (Fin n)) (obj : Object) : Object :=
  ⟨obj.symbols, Assembler.arrange σ obj.sections⟩

section Lists

variable {α β : Type} {n : Nat} (σ : Equiv.Perm (Fin n)) {xs : List α} {ys : List β}

theorem arrange_eq_ofFn (length : xs.length = n) :
    arrange σ xs = List.ofFn fun k => xs.get (Fin.cast length.symm (σ k)) := by
  have found : (fun k => xs[(σ k).val]?) =
      fun k => some (xs.get (Fin.cast length.symm (σ k))) := by
    funext k
    exact List.getElem?_eq_getElem _
  rw [arrange, found, List.ofFn_eq_map]
  exact congrFun List.filterMap_eq_map _

theorem length_arrange (length : xs.length = n) : (arrange σ xs).length = n := by
  rw [arrange_eq_ofFn σ length, List.length_ofFn]

theorem getElem?_arrange (length : xs.length = n) (k : Fin n) :
    (arrange σ xs)[k.val]? = xs[(σ k).val]? := by
  rw [arrange_eq_ofFn σ length, List.getElem?_ofFn, dif_pos k.isLt]
  exact (List.getElem?_eq_getElem _).symm

theorem perm_arrange (length : xs.length = n) : (arrange σ xs).Perm xs := by
  have same : List.ofFn (fun k : Fin n => xs.get (Fin.cast length.symm k)) = xs := by
    subst length
    exact List.ofFn_get xs
  have moved := σ.ofFn_comp_perm fun k : Fin n => xs.get (Fin.cast length.symm k)
  rw [same] at moved
  rw [arrange_eq_ofFn σ length]
  exact moved

theorem forall₂_arrange {R : α → β → Prop} (length : xs.length = n) (h : List.Forall₂ R xs ys) :
    List.Forall₂ R (arrange σ xs) (arrange σ ys) := by
  rw [arrange_eq_ofFn σ length, arrange_eq_ofFn σ (h.length_eq ▸ length), List.ofFn_eq_map,
    List.ofFn_eq_map, List.forall₂_map_left_iff, List.forall₂_map_right_iff]
  exact List.forall₂_same.2 fun k _ => h.get _ _

theorem arrange_symm (length : xs.length = n) : arrange σ.symm (arrange σ xs) = xs := by
  apply List.ext_getElem?
  intro i
  by_cases inside : i < n
  · have back := getElem?_arrange σ.symm (length_arrange σ length) ⟨i, inside⟩
    rw [back, getElem?_arrange σ length, σ.apply_symm_apply]
  · have outside : n ≤ i := Nat.not_lt.1 inside
    rw [List.getElem?_eq_none (by rwa [length_arrange σ.symm (length_arrange σ length)]),
      List.getElem?_eq_none (by rwa [length])]

end Lists

section Order

variable {n : Nat} (σ : Equiv.Perm (Fin n)) {t : Target} {asm : Assembly} {layouts : List Layout}
  {labels : SortedMap String Site} {obj : Object}

theorem Site.arrange_symm (site : Site) : (site.arrange σ).arrange σ.symm = site := by
  by_cases inside : site.sectionIndex < n
  · simp [Site.arrange, inside]
  · simp [Site.arrange, inside]

theorem Assembly.arrange_symm (length : asm.sections.length = n) :
    (asm.arrange σ).arrange σ.symm = asm := by
  obtain ⟨sections, labels⟩ := asm
  have same : (labels.mapValues (Site.arrange σ)).mapValues (Site.arrange σ.symm) = labels := by
    ext label site
    simp only [SortedMap.get?_mapValues, Option.map_map, Function.comp_def, Site.arrange_symm,
      Option.map_id']
  simp only [Assembly.arrange, same, Assembler.arrange_symm σ length]

namespace Layout

theorem siteAddress?_arrange (length : layouts.length = n) (site : Site) :
    siteAddress? (Assembler.arrange σ layouts) (site.arrange σ) = siteAddress? layouts site := by
  obtain ⟨k, i⟩ := site
  by_cases inside : k < n
  · have found := getElem?_arrange σ length (σ.symm ⟨k, inside⟩)
    rw [σ.apply_symm_apply] at found
    simp only [Site.arrange, inside, dif_pos, siteAddress?, found]
  · have outside : n ≤ k := Nat.not_lt.1 inside
    have here : layouts[k]? = none := List.getElem?_eq_none (by rwa [length])
    have there : (Assembler.arrange σ layouts)[k]? = none :=
      List.getElem?_eq_none (by rwa [length_arrange σ length])
    simp only [Site.arrange, inside, dif_neg, not_false_iff, siteAddress?, here, there]

theorem symbols_arrange (length : layouts.length = n) :
    symbols (Assembler.arrange σ layouts) (labels.mapValues (Site.arrange σ)) =
      symbols layouts labels := by
  ext label address
  simp only [get?_symbols, SortedMap.get?_mapValues, Option.map_eq_some_iff]
  constructor
  · rintro ⟨_, a, ⟨site, entry, rfl⟩, found, same⟩
    exact ⟨site, a, entry, siteAddress?_arrange σ length site ▸ found, same⟩
  · rintro ⟨site, a, entry, found, same⟩
    exact ⟨_, a, ⟨site, entry, rfl⟩, (siteAddress?_arrange σ length site).trans found, same⟩

theorem Addressable.arrange (length : layouts.length = n) (h : Addressable layouts labels) :
    Addressable (Assembler.arrange σ layouts) (labels.mapValues (Site.arrange σ)) := by
  intro label moved address entry found
  rw [SortedMap.get?_mapValues] at entry
  obtain ⟨site, known, rfl⟩ := Option.map_eq_some_iff.1 entry
  exact h label site address known (siteAddress?_arrange σ length site ▸ found)

end Layout

/-- A layout that passes all checks passes them in every order. -/
theorem Target.Laid.arrange (length : asm.sections.length = n) (h : t.Laid asm layouts obj) :
    t.Laid (asm.arrange σ) (Assembler.arrange σ layouts) (obj.arrange σ) := by
  have size : layouts.length = n := h.measured.length_eq ▸ length
  have count : obj.sections.length = n := h.encoded.length_eq ▸ size
  have same := perm_arrange σ size
  refine
    { measured := forall₂_arrange σ length h.measured
      fits := fun l member => h.fits l (same.subset member)
      room := ?_
      near := h.near.arrange σ size
      encoded := forall₂_arrange σ size h.encoded
      apart := ?_
      symbols := ?_ }
  · rw [(same.map fun l => Sized.total l.items).sum_eq]
    exact h.room
  · exact ((perm_arrange σ count).pairwise_iff ObjectSection.Disjoint.symm).2 h.apart
  · exact h.symbols.trans (Layout.symbols_arrange σ size).symm

theorem Object.perm_cells_arrange (count : obj.sections.length = n) :
    (obj.arrange σ).cells.Perm obj.cells :=
  (perm_arrange σ count).flatMap_right _

end Order

/-- With its sections in another order an assembly is generated if and only if it was before, into
    the sections it had in that order, with the same symbols and the same words at all addresses. -/
theorem Target.generate_arrange (t : Target)
    (exact : ∀ a ∈ t.isa.aliases, a.size = a.expansion.length) (asm : Assembly)
    (σ : Equiv.Perm (Fin asm.sections.length)) :
    (∀ moved, t.generate (asm.arrange σ) = .ok moved ↔
      ∃ obj, t.generate asm = .ok obj ∧ moved = obj.arrange σ) ∧
    ∀ obj, t.generate asm = .ok obj →
      (∀ k, (obj.arrange σ).sections[k.val]? = obj.sections[(σ k).val]?) ∧
      (obj.arrange σ).cells.Perm obj.cells := by
  constructor
  · intro moved
    constructor
    · intro ok
      obtain ⟨layouts, laid⟩ := (generate_eq_ok_iff_laid exact).1 ok
      have length : (asm.arrange σ).sections.length = asm.sections.length := length_arrange σ rfl
      have count : moved.sections.length = asm.sections.length :=
        laid.encoded.length_eq ▸ laid.measured.length_eq ▸ length
      have back := laid.arrange σ.symm length
      rw [Assembly.arrange_symm σ rfl] at back
      refine ⟨_, (generate_eq_ok_iff_laid exact).2 ⟨_, back⟩, ?_⟩
      have same := arrange_symm σ.symm count
      rw [σ.symm_symm] at same
      simp only [Object.arrange, same]
    · rintro ⟨obj, ok, rfl⟩
      obtain ⟨layouts, laid⟩ := (generate_eq_ok_iff_laid exact).1 ok
      exact (generate_eq_ok_iff_laid exact).2 ⟨_, laid.arrange σ rfl⟩
  · intro obj ok
    obtain ⟨layouts, laid⟩ := (generate_eq_ok_iff_laid exact).1 ok
    have count : obj.sections.length = asm.sections.length :=
      (laid.measured.length_eq.trans laid.encoded.length_eq).symm
    exact ⟨getElem?_arrange σ count, Object.perm_cells_arrange σ count⟩

open Lc2200 in
/-- In the other order, the reference from the first section to the second goes back and the one
    from the second to the first goes forward. -/
theorem Target.generate_arrange_sample : sampleTarget.generate
    ⟨[⟨64, [.directive ⟨"word", some (.label "loop"), 5⟩], 4⟩,
      ⟨16, [.instruction ⟨"la", [.register '$' 3, .label "data"], 1⟩,
        .instruction ⟨"push", [.register '$' 15], 2⟩,
        .instruction ⟨"beq", [.register '$' 0, .register '$' 0, .label "loop"], 3⟩], 0⟩],
      .ofList [("loop", ⟨1, 1⟩), ("data", ⟨0, 0⟩)]⟩ =
    .ok ⟨.ofList [("loop", 17), ("data", 64)],
      [⟨64, [17]⟩, ⟨16, [0x8300002F, 0x2DDFFFFF, 0x4FD00000, 0x500FFFFD]⟩]⟩ := by
  have ok : sampleTarget.generate sample = .ok sampleObject :=
    generate_of_apart (by decide +kernel) rfl (by decide)
  let swapped : Equiv.Perm (Fin sample.sections.length) :=
    Equiv.swap ⟨0, by decide⟩ ⟨1, by decide⟩
  have moved := ((Target.generate_arrange sampleTarget (by decide) sample swapped).1 _).2
    ⟨sampleObject, ok, rfl⟩
  have source : sample.arrange swapped =
      ⟨[⟨64, [.directive ⟨"word", some (.label "loop"), 5⟩], 4⟩,
        ⟨16, [.instruction ⟨"la", [.register '$' 3, .label "data"], 1⟩,
          .instruction ⟨"push", [.register '$' 15], 2⟩,
          .instruction ⟨"beq", [.register '$' 0, .register '$' 0, .label "loop"], 3⟩], 0⟩],
        .ofList [("loop", ⟨1, 1⟩), ("data", ⟨0, 0⟩)]⟩ := by
    decide +kernel
  have object : sampleObject.arrange swapped =
      ⟨.ofList [("loop", 17), ("data", 64)],
        [⟨64, [17]⟩, ⟨16, [0x8300002F, 0x2DDFFFFF, 0x4FD00000, 0x500FFFFD]⟩]⟩ := by
    decide +kernel
  rwa [source, object] at moved

end Assembler
