import Assembler.Proofs.Codegen.Fields
import Assembler.Proofs.Codegen.Positions

/-! # The words of an object and their addresses

Every word of an object is a word of some statement, so it is as wide as the machine allows. The
addresses of a section run on from its start for as many words as its statements take, and the
checks on memory, on the size of the output and on overlap were made for these very numbers.
-/

namespace Assembler

/-- All fields of the instructions lie in the words of the machine. -/
def Isa.FieldsBelow (isa : Isa) : Prop :=
  ∀ e ∈ isa.encodings, ∀ f ∈ e.fields, f.bits.lo < isa.wordBits ∧ f.bits.hi < isa.wordBits

instance (isa : Isa) : Decidable isa.FieldsBelow :=
  inferInstanceAs (Decidable (∀ e ∈ isa.encodings, ∀ f ∈ e.fields, _))

namespace Context

variable {ctx : Context} {pc : Nat} {words : List UInt32}

theorem toNat_dataWord_lt (narrow : ctx.isa.wordBits ≤ 32) {text : String} {value : Int}
    {word : UInt32} (h : ctx.dataWord text value = .ok word) :
    word.toNat < 2 ^ ctx.isa.wordBits := by
  obtain ⟨signed, fits⟩ := fitWord_eq_ok (check_rangeFailure_eq_ok.1 h)
  exact toNat_lt_of_fit narrow fits

theorem toNat_expansion_lt (narrow : ctx.isa.wordBits ≤ 32) (below : ctx.isa.FieldsBelow)
    {parts : List (String × List Operand)} (h : ctx.expansion pc parts = .ok words) :
    ∀ word ∈ words, word.toNat < 2 ^ ctx.isa.wordBits := by
  intro word member
  obtain ⟨e, known, pc, operands, encoded⟩ := exists_instruction_of_expansion h word member
  exact toNat_fields_lt narrow (below e known) encoded

theorem toNat_payload_lt (narrow : ctx.isa.wordBits ≤ 32) (below : ctx.isa.FieldsBelow)
    {p : Payload} (known : ∀ e operands, p = .instruction e operands → e ∈ ctx.isa.encodings)
    (h : ctx.payload pc p = .ok words) : ∀ word ∈ words, word.toNat < 2 ^ ctx.isa.wordBits := by
  have zero : (0 : UInt32).toNat < 2 ^ ctx.isa.wordBits := Nat.two_pow_pos _
  intro word member
  cases p with
  | instruction e operands =>
      simp only [payload, bind_eq_ok, pure_eq_ok] at h
      obtain ⟨only, encoded, rfl⟩ := h
      obtain rfl := List.mem_singleton.1 member
      exact toNat_fields_lt narrow (below e (known e operands rfl)) encoded
  | expansion used operands => exact toNat_expansion_lt narrow below h word member
  | word value =>
      simp only [payload, bind_eq_ok, pure_eq_ok] at h
      obtain ⟨only, fits, rfl⟩ := h
      obtain rfl := List.mem_singleton.1 member
      exact toNat_dataWord_lt narrow fits
  | address label =>
      simp only [payload, bind_eq_ok, pure_eq_ok] at h
      obtain ⟨a, -, only, fits, rfl⟩ := h
      obtain rfl := List.mem_singleton.1 member
      exact toNat_dataWord_lt narrow fits
  | block count =>
      cases h
      rw [List.eq_of_mem_replicate member]
      exact zero
  | text content =>
      simp only [payload, bind_eq_ok, pure_eq_ok] at h
      obtain ⟨characters, fits, rfl⟩ := h
      rcases List.mem_append.1 member with inside | last
      · obtain ⟨c, -, fit⟩ := exists_of_mem_mapM fits inside
        exact toNat_dataWord_lt narrow fit
      · rw [List.mem_singleton.1 last]
        exact zero

end Context

theorem Sized.exists_payload_of_mem_encode {isa : Isa} {symbols : SymbolTable} {pc : Nat}
    {items : List Sized} {words : List UInt32} (h : encode isa symbols pc items = .ok words)
    {word : UInt32} (member : word ∈ words) : ∃ item ∈ items, ∃ address part,
      (Context.mk isa symbols item.line).payload address item.payload = .ok part ∧ word ∈ part := by
  induction items generalizing pc words with
  | nil =>
      cases h
      cases member
  | cons item items ih =>
      obtain ⟨first, rest, here, behind, rfl⟩ := encode_cons_eq_ok.1 h
      rcases List.mem_append.1 member with inside | later
      · exact ⟨item, List.mem_cons_self, pc, first, here, inside⟩
      · obtain ⟨other, found, emitted⟩ := ih behind later
        exact ⟨other, List.mem_cons_of_mem _ found, emitted⟩

namespace Object

theorem addresses_eq (o : Object) : o.cells.map (·.1) =
    o.sections.flatMap fun s => List.range' s.start.toNat s.words.length := by
  simp only [cells, List.map_flatMap, List.map_map]
  congr 1
  funext s
  have shifted : (Prod.fst ∘ fun cell : UInt32 × Nat => (s.start.toNat + cell.2, cell.1)) =
      (s.start.toNat + ·) ∘ Prod.snd := rfl
  rw [shifted, ← List.map_map, List.zipIdx_map_snd, List.map_add_range', Nat.add_zero]

theorem mem_cells {o : Object} {a : Nat} {word : UInt32} (h : (a, word) ∈ o.cells) :
    ∃ s ∈ o.sections, word ∈ s.words ∧ s.start.toNat ≤ a ∧ a < s.stop := by
  simp only [cells, List.mem_flatMap, List.mem_map, Prod.mk.injEq, Prod.exists] at h
  obtain ⟨s, member, word, i, held, rfl, rfl⟩ := h
  obtain ⟨-, inside, value⟩ := List.mem_zipIdx held
  refine ⟨s, member, value ▸ List.getElem_mem _, Nat.le_add_right _ _, ?_⟩
  rw [ObjectSection.stop]
  omega

theorem nodup_addresses {o : Object} (apart : o.sections.Pairwise ObjectSection.Disjoint) :
    (o.cells.map (·.1)).Nodup := by
  rw [addresses_eq, List.nodup_flatMap]
  refine ⟨fun s _ => List.nodup_range', apart.imp ?_⟩
  intro a b disjoint address inA inB
  exact ObjectSection.disjoint_iff.1 disjoint address
    ⟨List.mem_range'_1.1 inA, List.mem_range'_1.1 inB⟩

theorem length_cells (o : Object) :
    o.cells.length = (o.sections.map fun s => s.words.length).sum := by
  simp [cells, List.length_flatMap]

end Object

namespace Target

variable {t : Target} {asm : Assembly} {layouts : List Layout} {obj : Object}

theorem Laid.exists_statement (h : t.Laid asm layouts obj) {l : Layout} (member : l ∈ layouts)
    {item : Sized} (inside : item ∈ l.items) : ∃ s, t.measure s = .ok item := by
  obtain ⟨s, -, measured⟩ := exists_mem_of_forall₂ h.measured member
  obtain ⟨statement, -, sized⟩ := exists_mem_of_forall₂ (layout_eq_ok.1 measured).2 inside
  exact ⟨statement, sized⟩

theorem Laid.filled (h : t.Laid asm layouts obj)
    (exact : ∀ a ∈ t.isa.aliases, a.size = a.expansion.length) :
    List.Forall₂ (fun l s => s.start = l.start ∧ s.words.length = Sized.total l.items ∧
      Sized.encode t.isa obj.symbols l.start.toNat l.items = .ok s.words) layouts obj.sections := by
  have exactItems : ∀ l ∈ layouts, ∀ item ∈ l.items, item.Exact := by
    intro l member item inside
    obtain ⟨s, sized⟩ := h.exists_statement member inside
    exact exact_of_measure exact sized
  refine ((List.forall₂_and_left _ _).2 ⟨exactItems, h.encoded⟩).imp ?_
  rintro l s ⟨exactItems, encoded⟩
  obtain ⟨words, filled, rfl⟩ := Layout.encode_eq_ok.1 encoded
  exact ⟨rfl, Sized.length_encode exactItems filled, filled⟩

theorem Laid.stop_le (h : t.Laid asm layouts obj)
    (exact : ∀ a ∈ t.isa.aliases, a.size = a.expansion.length) {placed : ObjectSection}
    (member : placed ∈ obj.sections) (positive : 0 < placed.words.length) :
    placed.stop ≤ t.isa.space := by
  obtain ⟨l, layout, start, length, -⟩ := exists_mem_of_forall₂ (h.filled exact) member
  rw [ObjectSection.stop, start, length]
  exact Sized.le_of_fit (h.fits l layout) (length ▸ positive)

theorem Laid.length_cells_le (h : t.Laid asm layouts obj)
    (exact : ∀ a ∈ t.isa.aliases, a.size = a.expansion.length) :
    obj.cells.length ≤ maxOutputWords := by
  have sizes : layouts.map (fun l => Sized.total l.items) =
      obj.sections.map (fun s => s.words.length) := by
    rw [← List.forall₂_eq_eq_eq, List.forall₂_map_left_iff, List.forall₂_map_right_iff]
    exact (h.filled exact).imp fun l s filled => filled.2.1.symm
  rw [Object.length_cells, ← sizes]
  exact h.room

theorem Laid.toNat_lt (h : t.Laid asm layouts obj) (narrow : t.isa.wordBits ≤ 32)
    (below : t.isa.FieldsBelow) {placed : ObjectSection} (member : placed ∈ obj.sections)
    {word : UInt32} (held : word ∈ placed.words) : word.toNat < 2 ^ t.isa.wordBits := by
  obtain ⟨l, layout, encoded⟩ := exists_mem_of_forall₂ h.encoded member
  obtain ⟨words, filled, rfl⟩ := Layout.encode_eq_ok.1 encoded
  obtain ⟨item, inside, pc, part, emitted, found⟩ := Sized.exists_payload_of_mem_encode filled held
  obtain ⟨s, sized⟩ := h.exists_statement layout inside
  have resolved := (measure_eq_ok.1 sized).1
  refine Context.toNat_payload_lt narrow below ?_ emitted word found
  intro e operands same
  exact mem_encodings_of_resolve (same ▸ resolved)

theorem Laid.section_size (h : t.Laid asm layouts obj)
    (exact : ∀ a ∈ t.isa.aliases, a.size = a.expansion.length) {k : Nat} {s : Section}
    (found : asm.sections[k]? = some s) : ∃ placed, obj.sections[k]? = some placed ∧
      placed.start = s.start ∧ t.wordCount s.statements = .ok placed.words.length := by
  obtain ⟨l, placed, -, section', -, start, measured, encoded⟩ := h.exists_section found
  refine ⟨placed, section', start, ?_⟩
  rw [Sized.length_encode (exact_of_measured exact measured) encoded]
  exact wordCount_of_measured measured

/-- The addresses of an object are distinct and in memory, its words are words of the machine and no
    more than the limit, and each section has the start and the size that the source gives it. -/
theorem generate_layout (t : Target) (narrow : t.isa.wordBits ≤ 32) (below : t.isa.FieldsBelow)
    (exact : ∀ a ∈ t.isa.aliases, a.size = a.expansion.length) (asm : Assembly) (obj : Object)
    (ok : t.generate asm = .ok obj) :
    (obj.cells.map (·.1)).Nodup ∧
    (∀ a word, (a, word) ∈ obj.cells → a < t.isa.space ∧ word.toNat < 2 ^ t.isa.wordBits) ∧
    obj.cells.length ≤ maxOutputWords ∧
    obj.sections.length = asm.sections.length ∧
    ∀ (k : Nat) (s : Section), asm.sections[k]? = some s → ∃ placed,
      obj.sections[k]? = some placed ∧ placed.start = s.start ∧
        t.wordCount s.statements = .ok placed.words.length := by
  obtain ⟨layouts, laid⟩ := (generate_eq_ok_iff_laid exact).1 ok
  refine ⟨Object.nodup_addresses laid.apart, ?_, laid.length_cells_le exact, ?_,
    fun k s => laid.section_size exact⟩
  · intro a word member
    obtain ⟨placed, section', held, -, high⟩ := Object.mem_cells member
    have stop := laid.stop_le exact section' (List.length_pos_of_mem held)
    exact ⟨by omega, laid.toNat_lt narrow below section' held⟩
  · exact (laid.measured.length_eq.trans laid.encoded.length_eq).symm

end Target

open Lc2200 in
theorem Target.generate_layout_sample : (sampleObject.cells.map (·.1)).Nodup ∧
    (∀ a word, (a, word) ∈ sampleObject.cells → a < 2 ^ 32 ∧ word.toNat < 2 ^ 32) ∧
    ∃ placed, sampleObject.sections[0]? = some placed ∧ placed.start = 16 ∧
      placed.words.length = 4 := by
  have ok : sampleTarget.generate sample = .ok sampleObject :=
    generate_of_apart (by decide +kernel) rfl (by decide)
  obtain ⟨distinct, inside, -, -, sizes⟩ := Target.generate_layout sampleTarget (by decide)
    (by decide) (by decide) sample sampleObject ok
  have size : sampleTarget.wordCount
      [.instruction ⟨"la", [.register '$' 3, .label "data"], 1⟩,
        .instruction ⟨"push", [.register '$' 15], 2⟩,
        .instruction ⟨"beq", [.register '$' 0, .register '$' 0, .label "loop"], 3⟩] = .ok 4 := by
    decide +kernel
  obtain ⟨placed, found, start, count⟩ := sizes 0 _ rfl
  exact ⟨distinct, inside, placed, found, start, Except.ok.inj (count.symm.trans size)⟩

end Assembler
