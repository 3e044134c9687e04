import Assembler.Proofs.Codegen.Encode
import Assembler.Proofs.Codegen.Plain

/-! # Labels of the first pass

The first pass comes past the sites of labels one after the other. At each point the symbol table
has exactly the labels whose sites lie behind, with the addresses of their sites, and in the end all
labels that have a place in the sections.
-/

namespace Assembler

/-- The first pass has come past a site when it has placed `i` statements of section `k`. -/
def Site.Behind (k i : Nat) (site : Site) : Prop :=
  site.sectionIndex < k ∨ site.sectionIndex = k ∧ site.index < i

theorem Site.behind_succ {k i : Nat} {site : Site} :
    site.Behind k (i + 1) ↔ site.Behind k i ∨ site = ⟨k, i⟩ := by
  obtain ⟨section', index⟩ := site
  simp only [Behind, Site.mk.injEq]
  omega

theorem Assembly.mem_labelsAt {asm : Assembly} {site : Site} {label : String} :
    label ∈ asm.labelsAt site ↔ asm.labels.get? label = some site := by
  rw [SortedMap.get?_eq_some_iff]
  simp [Assembly.labelsAt]

theorem Place.bind_eq_ok {place : Place} {index pc : Nat} {symbols symbols' : SymbolTable} :
    place.bind index pc symbols = .ok symbols' ↔
      (place.assembly.labelsAt ⟨place.sectionIndex, index⟩ ≠ [] → pc < UInt32.size) ∧
      symbols' = (place.assembly.labelsAt ⟨place.sectionIndex, index⟩).foldl
        (fun symbols label => symbols.insert label (UInt32.ofNat pc)) symbols := by
  simp only [Place.bind]
  split
  · next unlabelled =>
      simp only [unlabelled, ne_eq, not_true_eq_false, false_implies, true_and, List.foldl_nil,
        Except.ok.injEq]
      exact eq_comm
  · next labelled =>
      split
      · next near =>
          simp only [near, implies_true, true_and, Except.ok.injEq]
          exact eq_comm
      · next far =>
          constructor
          · intro stopped
            cases stopped
          · intro bound
            exact absurd (bound.1 labelled) far

/-- A symbol table has exactly the labels behind a point of the first pass. -/
structure Binds (asm : Assembly) (layouts : List Layout) (k i : Nat) (symbols : SymbolTable) :
    Prop where
  sound : ∀ label a, symbols.get? label = some a → ∃ site address,
    asm.labels.get? label = some site ∧ site.Behind k i ∧
      Layout.siteAddress? layouts site = some address ∧ a = UInt32.ofNat address
  complete : ∀ label site address, asm.labels.get? label = some site → site.Behind k i →
    Layout.siteAddress? layouts site = some address →
      address < UInt32.size ∧ symbols.get? label = some (UInt32.ofNat address)

namespace Binds

variable {asm : Assembly} {layouts : List Layout} {k i : Nat} {symbols symbols' : SymbolTable}

theorem start (asm : Assembly) (layouts : List Layout) : Binds asm layouts 0 0 .empty := by
  refine ⟨by simp, ?_⟩
  rintro label site address - (behind | ⟨-, behind⟩) <;> omega

theorem within (h : Binds asm layouts k i symbols) :
    symbols.Within (Layout.symbols layouts asm.labels) := by
  intro label a found
  obtain ⟨site, address, entry, -, place, rfl⟩ := h.sound label a found
  exact Layout.get?_symbols.2 ⟨site, address, entry, place, rfl⟩

/-- Binding the labels of a site moves past it. -/
theorem bind (h : Binds asm layouts k i symbols) {place : Place} (whole : place.assembly = asm)
    (here : place.sectionIndex = k) {l : Layout} (found : layouts[k]? = some l)
    (inside : i ≤ l.items.length) (ok : place.bind i (l.address i) symbols = .ok symbols') :
    Binds asm layouts k (i + 1) symbols' := by
  subst whole here
  obtain ⟨near, rfl⟩ := Place.bind_eq_ok.1 ok
  have site : Layout.siteAddress? layouts ⟨place.sectionIndex, i⟩ = some (l.address i) := by
    simp [Layout.siteAddress?, found, inside]
  refine ⟨?_, ?_⟩
  · intro label a bound
    rw [SortedMap.get?_foldl_insert_const] at bound
    split at bound
    · next now =>
        cases bound
        exact ⟨_, _, Assembly.mem_labelsAt.1 now, Site.behind_succ.2 (.inr rfl), site, rfl⟩
    · obtain ⟨old, address, entry, behind, rest⟩ := h.sound label a bound
      exact ⟨old, address, entry, Site.behind_succ.2 (.inl behind), rest⟩
  · intro label other address entry behind place'
    rw [SortedMap.get?_foldl_insert_const]
    rcases Site.behind_succ.1 behind with behind | rfl
    · have absent : label ∉ place.assembly.labelsAt ⟨place.sectionIndex, i⟩ := by
        intro member
        cases entry.symm.trans (Assembly.mem_labelsAt.1 member)
        rcases behind with behind | ⟨-, behind⟩ <;> simp only at behind <;> omega
      rw [if_neg absent]
      exact h.complete label other address entry behind place'
    · have member := Assembly.mem_labelsAt.2 entry
      cases site.symm.trans place'
      exact ⟨near (List.ne_nil_of_mem member), if_pos member⟩

/-- Behind the last site of a section comes the next section. -/
theorem next {l : Layout} (h : Binds asm layouts k (l.items.length + 1) symbols)
    (found : layouts[k]? = some l) : Binds asm layouts (k + 1) 0 symbols := by
  refine ⟨?_, ?_⟩
  · intro label a bound
    obtain ⟨site, address, entry, behind, rest⟩ := h.sound label a bound
    exact ⟨site, address, entry, .inl (by rcases behind with behind | ⟨behind, -⟩ <;> omega), rest⟩
  · intro label site address entry behind place
    refine h.complete label site address entry ?_ place
    by_cases here : site.sectionIndex = k
    · simp only [Layout.siteAddress?, here, found] at place
      split at place
      · exact .inr ⟨here, by omega⟩
      · cases place
    · rcases behind with behind | ⟨-, behind⟩
      · exact .inl (by omega)
      · omega

/-- Behind the last section the symbol table is complete. -/
theorem finish (h : Binds asm layouts layouts.length 0 symbols) :
    symbols = Layout.symbols layouts asm.labels ∧ Layout.Addressable layouts asm.labels := by
  have behind : ∀ site address, Layout.siteAddress? layouts site = some address →
      site.Behind layouts.length 0 := by
    intro site address place
    simp only [Layout.siteAddress?] at place
    split at place
    · next found => exact .inl (List.getElem?_eq_some_iff.1 found).1
    · cases place
  refine ⟨?_, fun label site address entry place =>
    (h.complete label site address entry (behind site address place) place).1⟩
  ext label : 1
  refine Option.ext fun a => ⟨h.within label a, ?_⟩
  intro bound
  obtain ⟨site, address, entry, place, rfl⟩ := Layout.get?_symbols.1 bound
  exact (h.complete label site address entry (behind site address place) place).2

end Binds

end Assembler
