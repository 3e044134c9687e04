import Assembler.Disassembly
import Assembler.Proofs.Codegen.Encode
import Assembler.Proofs.Isa.Bits

/-! # Words filled field by field

A word is the `|||` of its placed fields, and each field takes the operands that it needs off the
front. Reading a field of the finished word gives what was placed there, as long as the fields of
the encoding are separate.
-/

namespace Assembler

/-- The operand that fills the field at a position. -/
def Encoding.operandAt? (e : Encoding) (operands : List Operand) (i : Nat) : Option Operand :=
  operands[((e.fields.take i).filterMap Field.slot?).length]?

theorem and_lowMask_of_fit {value : Int} {bits : Nat} {signed : Bool} {word : UInt32}
    (narrow : bits ≤ 32) (h : fit value bits signed = .ok word) : word &&& lowMask bits = word :=
  and_lowMask_of_lt narrow (toNat_lt_of_fit narrow h)

theorem Encoding.operandOf?_of_fit {bits : BitRange} (inside : bits.Within 32) {signed : Bool}
    {value : Int} {fitted word : UInt32} (fits : fit value bits.width signed = .ok fitted)
    (held : bits.extract word = fitted) :
    Encoding.operandOf? word (.immediate bits signed) = some (.integer value) := by
  cases signed with
  | true =>
      have positive : 0 < bits.width := Nat.succ_pos _
      rw [operandOf?, held, signExtend_of_fit positive inside.width_le fits]
  | false =>
      rw [operandOf?, held, toNat_of_fit_unsigned inside.width_le fits]

namespace Context

variable {ctx : Context} {pc : Nat} {operands : List Operand}

theorem check_rangeFailure_eq_ok {α : Type} {text : String} {line : Nat} {x : Except RangeError α}
    {a : α} : check (rangeFailure text line x) = .ok a ↔ x = .ok a := by
  cases x <;> simp [check, rangeFailure]

theorem address_eq_ok {label : String} {a : UInt32} :
    ctx.address label = .ok a ↔ ctx.symbols.get? label = some a := by
  unfold address
  cases ctx.symbols.get? label <;> simp

/-- A label as an immediate stands for the distance to it. -/
theorem immediate_label_eq_ok {label text : String} {distance : Int} :
    ctx.immediate pc (.label label) = .ok (text, distance) ↔ text = label ∧
      ∃ a, ctx.symbols.get? label = some a ∧
        distance = (a.toNat : Int) - ((pc + ctx.isa.increment : Nat) : Int) := by
  simp only [immediate, bind_eq_ok, address_eq_ok, pure_eq_ok, Prod.mk.injEq]
  constructor
  · rintro ⟨a, found, rfl, rfl⟩
    exact ⟨rfl, a, found, rfl⟩
  · rintro ⟨rfl, a, found, rfl⟩
    exact ⟨a, found, rfl, rfl⟩

theorem field_immediate_eq_ok {bits : BitRange} {signed : Bool} {part : UInt32}
    {rest : List Operand} (h : ctx.field pc operands (.immediate bits signed) = .ok (part, rest)) :
    ∃ operand text value fitted, operands = operand :: rest ∧
      ctx.immediate pc operand = .ok (text, value) ∧ fit value bits.width signed = .ok fitted ∧
      part = bits.place fitted := by
  unfold field at h
  cases operands with
  | nil => cases h
  | cons operand others =>
      simp only [bind_eq_ok, check_rangeFailure_eq_ok, pure_eq_ok, Prod.mk.injEq] at h
      obtain ⟨⟨text, value⟩, found, fitted, fits, rfl, rfl⟩ := h
      exact ⟨operand, text, value, fitted, rfl, found, fits, rfl⟩

theorem field_register_eq_ok {bits : BitRange} {sigil : Char} {part : UInt32}
    {rest : List Operand} (h : ctx.field pc operands (.register bits sigil) = .ok (part, rest)) :
    ∃ (mark : Char) (num : Nat) (fitted : UInt32), operands = .register mark num :: rest ∧
      fit num bits.width false = .ok fitted ∧ part = bits.place fitted := by
  unfold field at h
  cases operands with
  | nil => cases h
  | cons operand others =>
      cases operand with
      | register mark num =>
          simp only [bind_eq_ok, check_rangeFailure_eq_ok, pure_eq_ok, Prod.mk.injEq] at h
          obtain ⟨fitted, fits, rfl, rfl⟩ := h
          exact ⟨mark, num, fitted, rfl, fits, rfl⟩
      | integer => cases h
      | label => cases h
      | string => cases h

theorem field_eq_ok {f : Field} {part : UInt32} {rest : List Operand}
    (h : ctx.field pc operands f = .ok (part, rest)) :
    (∃ value, part = f.bits.place value) ∧ rest = operands.drop f.slot?.toList.length := by
  cases f with
  | const bits value =>
      cases h
      exact ⟨⟨value, rfl⟩, rfl⟩
  | register bits sigil =>
      obtain ⟨mark, num, fitted, rfl, -, rfl⟩ := field_register_eq_ok h
      exact ⟨⟨fitted, rfl⟩, rfl⟩
  | immediate bits signed =>
      obtain ⟨operand, text, value, fitted, rfl, -, -, rfl⟩ := field_immediate_eq_ok h
      exact ⟨⟨fitted, rfl⟩, rfl⟩

theorem fields_cons_eq_ok {f : Field} {fs : List Field} {word : UInt32} :
    ctx.fields pc (f :: fs) operands = .ok word ↔ ∃ part rest others,
      ctx.field pc operands f = .ok (part, rest) ∧ ctx.fields pc fs rest = .ok others ∧
      word = part ||| others := by
  simp only [fields, bind_eq_ok, pure_eq_ok]
  constructor
  · rintro ⟨⟨part, rest⟩, first, others, behind, rfl⟩
    exact ⟨part, rest, others, first, behind, rfl⟩
  · rintro ⟨part, rest, others, first, behind, rfl⟩
    exact ⟨⟨part, rest⟩, first, others, behind, rfl⟩

/-- Fields leave the bits of other ranges alone. -/
theorem extract_fields_of_disjoint {r : BitRange} (inside : r.Within 32) {fs : List Field}
    (apart : ∀ f ∈ fs, f.bits.Within 32 ∧ r.Disjoint f.bits) {word : UInt32}
    (h : ctx.fields pc fs operands = .ok word) : r.extract word = 0 := by
  induction fs generalizing operands word with
  | nil =>
      cases h
      simp [BitRange.extract]
  | cons f fs ih =>
      obtain ⟨part, rest, others, first, behind, rfl⟩ := fields_cons_eq_ok.1 h
      obtain ⟨⟨value, rfl⟩, -⟩ := field_eq_ok first
      obtain ⟨within, disjoint⟩ := apart f List.mem_cons_self
      rw [BitRange.extract_or inside, BitRange.extract_place_of_disjoint inside within disjoint,
        ih (fun g member => apart g (List.mem_cons_of_mem _ member)) behind]
      rfl

/-- Each field of a word holds what was placed there, from the operands that are left for it. -/
theorem exists_field_of_fields {fs : List Field} (within : ∀ f ∈ fs, f.bits.Within 32)
    (apart : fs.Pairwise fun f g => f.bits.Disjoint g.bits) {word : UInt32}
    (h : ctx.fields pc fs operands = .ok word) {i : Nat} {f : Field} (found : fs[i]? = some f) :
    ∃ part rest, ctx.field pc (operands.drop ((fs.take i).filterMap Field.slot?).length) f =
      .ok (part, rest) ∧ f.bits.extract word = f.bits.extract part := by
  induction fs generalizing operands word i with
  | nil => cases found
  | cons g fs ih =>
      obtain ⟨part, rest, others, first, behind, rfl⟩ := fields_cons_eq_ok.1 h
      obtain ⟨before, later⟩ := List.pairwise_cons.1 apart
      have withinRest : ∀ x ∈ fs, x.bits.Within 32 :=
        fun x member => within x (List.mem_cons_of_mem _ member)
      cases i with
      | zero =>
          obtain rfl : g = f := Option.some.inj found
          have inside := within g List.mem_cons_self
          have rest_zero : g.bits.extract others = 0 :=
            extract_fields_of_disjoint inside
              (fun x member => ⟨withinRest x member, before x member⟩) behind
          refine ⟨part, rest, first, ?_⟩
          rw [BitRange.extract_or inside, rest_zero, UInt32.or_zero]
      | succ i =>
          obtain ⟨⟨value, rfl⟩, left⟩ := field_eq_ok first
          have member : f ∈ fs := List.mem_of_getElem? found
          have inside := withinRest f member
          obtain ⟨piece, tail, filled, held⟩ := ih withinRest later behind found
          refine ⟨piece, tail, ?_, ?_⟩
          · rw [left, List.drop_drop] at filled
            rw [← filled]
            congr 2
            cases slot : g.slot? <;> simp [slot, Nat.add_comm]
          · rw [BitRange.extract_or inside, BitRange.extract_place_of_disjoint inside
              (within g List.mem_cons_self) (before f member).symm, UInt32.zero_or, held]

theorem extract_const {e : Encoding} (separate : e.Separate) {word : UInt32}
    (h : ctx.instruction pc e operands = .ok word) {bits : BitRange} {value : UInt32}
    (member : .const bits value ∈ e.fields) :
    bits.extract word = value &&& lowMask bits.width := by
  obtain ⟨i, found⟩ := List.mem_iff_getElem?.1 member
  obtain ⟨part, rest, placed, held⟩ := exists_field_of_fields separate.1 separate.2 h found
  cases placed
  calc
    bits.extract word = bits.extract (bits.place value) := held
    _ = value &&& lowMask bits.width := BitRange.extract_place (separate.1 _ member) value

theorem operandOf?_of_label {e : Encoding} (separate : e.Separate) {word : UInt32}
    (h : ctx.instruction pc e operands = .ok word) {i : Nat} {bits : BitRange} {signed : Bool}
    {label : String} (found : e.fields[i]? = some (.immediate bits signed))
    (filled : e.operandAt? operands i = some (.label label)) :
    ∃ a, ctx.symbols.get? label = some a ∧
      Encoding.operandOf? word (.immediate bits signed) =
        some (.integer ((a.toNat : Int) - ((pc + ctx.isa.increment : Nat) : Int))) := by
  obtain ⟨part, rest, placed, held⟩ := exists_field_of_fields separate.1 separate.2 h found
  obtain ⟨operand, text, value, fitted, left, immediate, fits, rfl⟩ := field_immediate_eq_ok placed
  have first : operand = .label label := by
    have head : (operands.drop ((e.fields.take i).filterMap Field.slot?).length).head? =
        some operand := by rw [left]; rfl
    rw [List.head?_drop] at head
    exact Option.some.inj (head.symm.trans filled)
  subst first
  obtain ⟨-, a, bound, rfl⟩ := immediate_label_eq_ok.1 immediate
  have inside : bits.Within 32 := separate.1 _ (List.mem_of_getElem? found)
  have read : bits.extract word = fitted := by
    calc
      bits.extract word = bits.extract (bits.place fitted) := held
      _ = fitted &&& lowMask bits.width := BitRange.extract_place inside fitted
      _ = fitted := and_lowMask_of_fit inside.width_le fits
  exact ⟨a, bound, Encoding.operandOf?_of_fit inside fits read⟩

theorem toNat_fields_lt {n : Nat} (narrow : n ≤ 32) {fs : List Field}
    (below : ∀ f ∈ fs, f.bits.lo < n ∧ f.bits.hi < n) {word : UInt32}
    (h : ctx.fields pc fs operands = .ok word) : word.toNat < 2 ^ n := by
  induction fs generalizing operands word with
  | nil =>
      cases h
      exact Nat.two_pow_pos n
  | cons f fs ih =>
      obtain ⟨part, rest, others, first, behind, rfl⟩ := fields_cons_eq_ok.1 h
      obtain ⟨⟨value, rfl⟩, -⟩ := field_eq_ok first
      obtain ⟨low, high⟩ := below f List.mem_cons_self
      have room : f.bits.lo + f.bits.width ≤ n := by
        simp only [BitRange.width]
        omega
      rw [UInt32.toNat_or]
      exact Nat.or_lt_two_pow (BitRange.toNat_place_lt narrow room value)
        (ih (fun g member => below g (List.mem_cons_of_mem _ member)) behind)

end Context

end Assembler
