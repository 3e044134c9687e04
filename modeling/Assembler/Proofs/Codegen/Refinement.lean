import Assembler.Isa.Lc2200
import Assembler.Proofs.Codegen.FirstPass

/-! # The generator refines the plain assembler

Both passes put together: whatever mix of references forward, backward and across sections an
assembly has, two passes give what complete knowledge gives from the start.
-/

namespace Assembler

theorem Reached.start {asm : Assembly} {layouts rest : List Layout} {k : Nat} {l : Layout}
    {s : UInt32} {draft : Draft} (drop : layouts.drop k = l :: rest) (same : l.start = s)
    (binds : Binds asm layouts k 0 draft.symbols) :
    Reached asm layouts k l 0 ⟨draft, s.toNat, []⟩ := by
  refine ⟨?_, Nat.zero_le _, ?_, binds⟩
  · rw [← List.head?_drop, drop]
    rfl
  · simp [Layout.address, Sized.total, same]

namespace Target

variable {t : Target} {asm : Assembly} {layouts : List Layout} {k : Nat}
variable (exact : ∀ a ∈ t.isa.aliases, a.size = a.expansion.length)
include exact

/-- What the first pass over the sections that are left has found and left to do. -/
theorem firstPass_run {sections : List Section} {objects : List ObjectSection}
    {draft draft' : Draft}
    (measured : List.Forall₂ (fun s l => t.layout s = .ok l) sections (layouts.drop k))
    (inside : k ≤ layouts.length) (binds : Binds asm layouts k 0 draft.symbols)
    (room : draft.total ≤ maxOutputWords)
    (ok : t.firstPass asm k sections draft = .ok (draft', objects)) :
    Binds asm layouts layouts.length 0 draft'.symbols ∧
      draft'.total = draft.total + ((layouts.drop k).map fun l => Sized.total l.items).sum ∧
      draft'.total ≤ maxOutputWords ∧
      (∀ l ∈ layouts.drop k, Sized.fit t.isa.space l.start.toNat l.items = true) ∧
      ∃ deferred, draft'.deferred = draft.deferred ++ deferred ∧
        DraftsAll t.isa (Layout.symbols layouts asm.labels) k (layouts.drop k) objects deferred := by
  generalize left : layouts.drop k = rest at measured ⊢
  induction measured generalizing k draft objects with
  | nil =>
      cases ok
      have last : k = layouts.length := Nat.le_antisymm inside (List.drop_eq_nil_iff.1 left)
      exact ⟨last ▸ binds, by simp, room, by simp, [], by simp, .nil⟩
  | @cons s l sections rest measured others ih =>
      simp only [firstPass, bind_eq_ok, pure_eq_ok, Prod.mk.injEq] at ok
      obtain ⟨placed, first, ⟨after, objects⟩, following, rfl, rfl⟩ := ok
      obtain ⟨start, statements⟩ := layout_eq_ok.1 measured
      have reached := Reached.start left start binds
      obtain ⟨binds, total, room, fits, words, deferred, front, noted, drafts⟩ :=
        reached.run exact (by simpa using statements) room first
      simp only [List.drop_zero, List.nil_append, List.length_nil] at total fits front drafts
      obtain ⟨inside, left⟩ := drop_succ left
      obtain ⟨binds, total', room, fits', later, noted', tail⟩ := ih inside binds room following left
      rw [← start] at fits drafts ⊢
      refine ⟨binds, ?_, room, ?_, deferred ++ later, ?_, front ▸ .cons drafts tail⟩
      · simp only [List.map_cons, List.sum_cons] at total' ⊢
        omega
      · simpa using ⟨fits, fits'⟩
      · rw [noted', noted, List.append_assoc]

theorem exists_firstPass {sections : List Section} {draft : Draft} {all : List ObjectSection}
    (measured : List.Forall₂ (fun s l => t.layout s = .ok l) sections (layouts.drop k))
    (binds : Binds asm layouts k 0 draft.symbols)
    (near : Layout.Addressable layouts asm.labels)
    (fits : ∀ l ∈ layouts.drop k, Sized.fit t.isa.space l.start.toNat l.items = true)
    (room : draft.total + ((layouts.drop k).map fun l => Sized.total l.items).sum ≤ maxOutputWords)
    (encoded : (layouts.drop k).mapM (Layout.encode t.isa (Layout.symbols layouts asm.labels)) =
      .ok all) :
    ∃ result, t.firstPass asm k sections draft = .ok result := by
  generalize left : layouts.drop k = rest at measured fits room encoded
  induction measured generalizing k draft all with
  | nil => exact ⟨_, rfl⟩
  | @cons s l sections rest measured others ih =>
      obtain ⟨start, statements⟩ := layout_eq_ok.1 measured
      have reached := Reached.start left start binds
      simp only [List.mapM_cons, bind_eq_ok, pure_eq_ok, Layout.encode_eq_ok] at encoded
      obtain ⟨_, ⟨words, here, -⟩, behind, more, -⟩ := encoded
      simp only [List.map_cons, List.sum_cons] at room
      rw [start] at here
      have fit := fits l List.mem_cons_self
      rw [start] at fit
      obtain ⟨placed, first⟩ := reached.exists_run exact (by simpa using statements) near
        (by simpa using fit) (by simp only [List.drop_zero]; omega) (by simpa using here)
      obtain ⟨binds, total, -⟩ := reached.run exact (by simpa using statements)
        (by simp only; omega) first
      simp only [List.drop_zero] at total
      obtain ⟨result, run⟩ := ih binds (drop_succ left).2
        (fun l member => fits l (List.mem_cons_of_mem _ member)) (by omega) more
      exact ⟨_, by rw [firstPass, first]; simp only [bind, Except.bind, run]; rfl⟩

/-- After the first pass, only encoding and overlap can fail. -/
theorem generate_eq_ok_of_firstPass {draft : Draft} {objects : List ObjectSection} {obj : Object}
    (measured : List.Forall₂ (fun s l => t.layout s = .ok l) asm.sections layouts)
    (first : t.firstPass asm 0 asm.sections ⟨.empty, 0, []⟩ = .ok (draft, objects)) :
    t.generate asm = .ok obj ↔
      layouts.mapM (Layout.encode t.isa (Layout.symbols layouts asm.labels)) = .ok obj.sections ∧
      obj.sections.Pairwise ObjectSection.Disjoint ∧
      obj.symbols = Layout.symbols layouts asm.labels := by
  obtain ⟨binds, -, -, -, deferred, noted, drafts⟩ := firstPass_run exact measured (Nat.zero_le _)
    (Binds.start asm layouts) (Nat.zero_le _) first
  have symbols := binds.finish.1
  have second : ∀ {sections}, draft.deferred.foldlM (t.complete draft.symbols) objects = .ok sections ↔
      layouts.mapM (Layout.encode t.isa (Layout.symbols layouts asm.labels)) = .ok sections := by
    intro sections
    have completed : deferred.foldlM (t.complete (Layout.symbols layouts asm.labels))
        ([] ++ objects) = .ok sections ↔ _ := drafts.complete rfl
    simp only [List.nil_append] at noted completed
    rw [noted, symbols, completed]
    simp
  have count : ∀ {sections}, layouts.mapM (Layout.encode t.isa (Layout.symbols layouts asm.labels)) =
      .ok sections → sections.length = (asm.sections.map (·.line)).length := by
    intro sections encoded
    rw [List.length_map, measured.length_eq, (mapM_eq_ok.1 encoded).length_eq]
  simp only [generate, bind_eq_ok, pure_eq_ok, first, Except.ok.injEq, exists_eq_left', second]
  constructor
  · rintro ⟨sections, encoded, _, free, rfl⟩
    exact ⟨encoded, (checkOverlap_eq_ok_iff (count encoded)).1 free, symbols⟩
  · rintro ⟨encoded, apart, same⟩
    refine ⟨obj.sections, encoded, (), (checkOverlap_eq_ok_iff (count encoded)).2 apart, ?_⟩
    rw [symbols, ← same]

/-- An object is generated just if there is a layout that passes all checks. -/
theorem generate_eq_ok_iff_laid {obj : Object} :
    t.generate asm = .ok obj ↔ ∃ layouts, t.Laid asm layouts obj := by
  constructor
  · intro ok
    obtain ⟨⟨draft, objects⟩, first, -⟩ := bind_eq_ok.1 ok
    obtain ⟨layouts, measured⟩ := measured_of_firstPass first
    obtain ⟨binds, total, room, fits, -⟩ := firstPass_run exact measured (Nat.zero_le _)
      (Binds.start asm layouts) (Nat.zero_le _) first
    obtain ⟨encoded, apart, symbols⟩ := (generate_eq_ok_of_firstPass exact measured first).1 ok
    exact ⟨layouts,
      { measured := measured
        fits := fits
        room := by simpa [total] using room
        near := binds.finish.2
        encoded := mapM_eq_ok.1 (symbols ▸ encoded)
        apart := apart
        symbols := symbols }⟩
  · rintro ⟨layouts, laid⟩
    have encoded := mapM_eq_ok.2 laid.encoded
    rw [laid.symbols] at encoded
    obtain ⟨⟨draft, objects⟩, first⟩ : ∃ result,
        t.firstPass asm 0 asm.sections ⟨.empty, 0, []⟩ = .ok result :=
      exists_firstPass exact laid.measured (Binds.start asm layouts) laid.near laid.fits
        (by simpa using laid.room) encoded
    exact (generate_eq_ok_of_firstPass exact laid.measured first).2
      ⟨encoded, laid.apart, laid.symbols⟩

end Target

/-- The generator and the plain assembler give the same object, or neither gives one. -/
theorem Target.generate_eq_ok_iff (t : Target)
    (exact : ∀ a ∈ t.isa.aliases, a.size = a.expansion.length) (asm : Assembly) (obj : Object) :
    t.generate asm = .ok obj ↔ t.plain asm = some obj :=
  (generate_eq_ok_iff_laid exact).trans plain_eq_some_iff.symm

namespace Lc2200

def sampleTarget : Target := ⟨isa, [⟨"word", .label, .word⟩]⟩

/-- A reference forward and across sections, a macro of two words, and references back. -/
def sample : Assembly where
  sections :=
    [⟨16, [.instruction ⟨"la", [.register '$' 3, .label "data"], 1⟩,
        .instruction ⟨"push", [.register '$' 15], 2⟩,
        .instruction ⟨"beq", [.register '$' 0, .register '$' 0, .label "loop"], 3⟩], 0⟩,
      ⟨64, [.directive ⟨"word", some (.label "loop"), 5⟩], 4⟩]
  labels := .ofList [("loop", ⟨0, 1⟩), ("data", ⟨1, 0⟩)]

def sampleObject : Object where
  symbols := .ofList [("loop", 17), ("data", 64)]
  sections :=
    [⟨16, [0x8300002F, 0x2DDFFFFF, 0x4FD00000, 0x500FFFFD]⟩, ⟨64, [17]⟩]

end Lc2200

open Lc2200 in
theorem Target.generate_sample : sampleTarget.generate sample = .ok sampleObject :=
  (Target.generate_eq_ok_iff sampleTarget (by decide) sample sampleObject).2 (by decide +kernel)

end Assembler
