import Assembler.Isa.Lc2200
import Assembler.Isa.Lc3
import Assembler.Proofs.Codegen.Bounds

/-! # Decoding and encoding a word

The disassembler chooses an encoding by fixed bits and the generator by mnemonic and operands. The
two choices agree as soon as an encoding is known by its mnemonic and slots, and a word is the same
again if no bit of it escapes the fields of its encoding. What a machine must satisfy for that is
`Isa.Reversible`, which can be checked.
-/

namespace Assembler

namespace Encoding

/-- Every bit of a word of `n` bits belongs to a field. -/
def Covers (n : Nat) (e : Encoding) : Prop :=
  ∀ i < n, ∃ f ∈ e.fields, f.bits.lo ≤ i ∧ i ≤ f.bits.hi

instance (n : Nat) (e : Encoding) : Decidable (e.Covers n) :=
  inferInstanceAs (Decidable (∀ i < n, ∃ f ∈ e.fields, _))

end Encoding

/-- The value of a fixed field has no bits that are cut off. -/
def Field.Holds : Field → Prop
  | .const bits value => value &&& lowMask bits.width = value
  | _ => True

instance : DecidablePred Field.Holds
  | .const _ _ => inferInstanceAs (Decidable (_ = _))
  | .register _ _ => .isTrue trivial
  | .immediate _ _ => .isTrue trivial

/-- A machine whose words can be read back. -/
structure Isa.Reversible (isa : Isa) : Prop where
  narrow : isa.wordBits ≤ 32
  below : isa.FieldsBelow
  exact : ∀ a ∈ isa.aliases, a.size = a.expansion.length
  separate : ∀ e ∈ isa.encodings, e.Separate
  covers : ∀ e ∈ isa.encodings, e.Covers isa.wordBits
  holds : ∀ e ∈ isa.encodings, ∀ f ∈ e.fields, f.Holds
  distinct : ∀ e ∈ isa.encodings, ∀ e' ∈ isa.encodings, e.op = e'.op → e.slots = e'.slots → e = e'

theorem Lc3.reversible : isa.Reversible where
  narrow := by decide
  below := by decide
  exact := by decide
  separate := by decide
  covers := by decide +kernel
  holds := by decide +kernel
  distinct := by decide +kernel

theorem Lc2200.reversible : isa.Reversible where
  narrow := by decide
  below := by decide
  exact := by decide
  separate := by decide
  covers := by decide +kernel
  holds := by decide +kernel
  distinct := by decide +kernel

theorem BitRange.toNat_extract_lt {r : BitRange} (h : r.Within 32) (word : UInt32) :
    (r.extract word).toNat < 2 ^ r.width := by
  rw [toNat_extract h]
  exact Nat.mod_lt _ (Nat.two_pow_pos _)

theorem BitRange.testBit_place_extract {r : BitRange} (h : r.Within 32) (word : UInt32) (i : Nat) :
    (r.place (r.extract word)).toNat.testBit i =
      (decide (r.lo ≤ i ∧ i ≤ r.hi) && word.toNat.testBit i) := by
  rw [testBit_place h, testBit_extract h]
  by_cases inside : r.lo ≤ i ∧ i ≤ r.hi
  · have near : i - r.lo < r.width := by
      unfold width
      omega
    have back : r.lo + (i - r.lo) = i := by omega
    simp [inside, near, back]
  · rw [← Bool.decide_and]
    simp [inside]

theorem fit_toNat {word : UInt32} {bits : Nat} (narrow : bits ≤ 32) (h : word.toNat < 2 ^ bits) :
    fit (word.toNat : Int) bits false = .ok word := by
  apply fit_eq_ok_iff.2
  constructor
  · exact ⟨Int.natCast_nonneg _, by exact_mod_cast h⟩
  · apply UInt32.toNat_inj.1
    rw [toNat_and_lowMask narrow]
    have value := toNat_wordOfInt (word.toNat : Int)
    have bound := word.toNat_lt
    have same : (wordOfInt (word.toNat : Int)).toNat = word.toNat := by omega
    rw [same, Nat.mod_eq_of_lt h]

theorem fit_signExtend_extract {bits : BitRange} (within : bits.Within 32) (word : UInt32) :
    fit (signExtend (bits.extract word) bits.width) bits.width true =
      .ok (bits.extract word) := by
  have filled : 0 < bits.width := Nat.succ_pos _
  have short := BitRange.toNat_extract_lt within word
  rw [fit_signExtend _ filled within.width_le, and_lowMask_of_lt within.width_le short]

theorem Encoding.fixedBitsMatch_iff {e : Encoding} {word : UInt32} :
    e.fixedBitsMatch word = true ↔
      ∀ bits value, .const bits value ∈ e.fields → bits.extract word = value := by
  rw [fixedBitsMatch, List.all_eq_true]
  constructor
  · intro all bits value member
    simpa using all _ member
  · intro all f member
    cases f with
    | const bits value => simpa using all bits value member
    | register bits sigil => rfl
    | immediate bits signed => rfl

namespace Context

variable {ctx : Context} {pc : Nat} {word : UInt32}

theorem field_register_of_fit {bits : BitRange} {sigil mark : Char} {num : Nat} {fitted : UInt32}
    (fits : fit (num : Int) bits.width false = .ok fitted) (rest : List Operand) :
    ctx.field pc (.register mark num :: rest) (.register bits sigil) =
      .ok (bits.place fitted, rest) := by
  simp only [field, bind_eq_ok, check_rangeFailure_eq_ok, pure_eq_ok]
  exact ⟨fitted, fits, rfl⟩

theorem field_integer_of_fit {bits : BitRange} {signed : Bool} {value : Int} {fitted : UInt32}
    (fits : fit value bits.width signed = .ok fitted) (rest : List Operand) :
    ctx.field pc (.integer value :: rest) (.immediate bits signed) =
      .ok (bits.place fitted, rest) := by
  simp only [field, immediate, bind_eq_ok, check_rangeFailure_eq_ok, pure_eq_ok]
  exact ⟨_, rfl, fitted, fits, rfl⟩

theorem field_operandOf? {f : Field} (within : f.bits.Within 32)
    (fixed : ∀ bits value, f = .const bits value → bits.extract word = value)
    (rest : List Operand) :
    ctx.field pc ((Encoding.operandOf? word f).toList ++ rest) f =
      .ok (f.bits.place (f.bits.extract word), rest) := by
  have short := BitRange.toNat_extract_lt within word
  have narrow := within.width_le
  cases f with
  | const bits value =>
      rw [Field.bits, fixed bits value rfl]
      rfl
  | register bits sigil => exact field_register_of_fit (fit_toNat narrow short) rest
  | immediate bits signed =>
      cases signed with
      | true => exact field_integer_of_fit (fit_signExtend_extract within word) rest
      | false => exact field_integer_of_fit (fit_toNat narrow short) rest

theorem exists_fields_operandOf? {fs : List Field} (within : ∀ f ∈ fs, f.bits.Within 32)
    (fixed : ∀ bits value, .const bits value ∈ fs → bits.extract word = value) :
    ∃ filled, ctx.fields pc fs (fs.filterMap (Encoding.operandOf? word)) = .ok filled ∧
      ∀ i, filled.toNat.testBit i =
        (decide (∃ f ∈ fs, f.bits.lo ≤ i ∧ i ≤ f.bits.hi) && word.toNat.testBit i) := by
  induction fs with
  | nil => exact ⟨0, rfl, by simp⟩
  | cons f fs ih =>
      obtain ⟨others, behind, bits⟩ := ih (fun g member => within g (List.mem_cons_of_mem _ member))
        (fun bits value member => fixed bits value (List.mem_cons_of_mem _ member))
      have inside := within f List.mem_cons_self
      have split : (f :: fs).filterMap (Encoding.operandOf? word) =
          (Encoding.operandOf? word f).toList ++ fs.filterMap (Encoding.operandOf? word) := by
        cases held : Encoding.operandOf? word f <;> simp [held]
      refine ⟨f.bits.place (f.bits.extract word) ||| others, ?_, ?_⟩
      · rw [fields_cons_eq_ok, split]
        refine ⟨_, _, others, field_operandOf? inside ?_ _, behind, rfl⟩
        intro bits value same
        exact fixed bits value (same ▸ List.mem_cons_self)
      · intro i
        rw [UInt32.toNat_or, Nat.testBit_or, BitRange.testBit_place_extract inside, bits,
          ← Bool.and_or_distrib_right, ← Bool.decide_or]
        simp only [List.mem_cons, exists_eq_or_imp]

/-- An encoding that covers words gives a word back from the operands that the word holds. -/
theorem instruction_operandsOf {e : Encoding} (separate : e.Separate)
    (covers : e.Covers ctx.isa.wordBits) (small : word.toNat < 2 ^ ctx.isa.wordBits)
    (matching : e.fixedBitsMatch word = true) :
    ctx.instruction pc e (e.operandsOf word) = .ok word := by
  obtain ⟨filled, encoded, bits⟩ : ∃ filled, ctx.fields pc e.fields (e.operandsOf word) =
      .ok filled ∧ _ :=
    exists_fields_operandOf? separate.1 (Encoding.fixedBitsMatch_iff.1 matching)
  have same : filled = word := by
    apply UInt32.toNat_inj.1
    apply Nat.eq_of_testBit_eq
    intro i
    rw [bits]
    by_cases inside : i < ctx.isa.wordBits
    · simp [covers i inside]
    · have high : word.toNat < 2 ^ i :=
        Nat.lt_of_lt_of_le small (Nat.pow_le_pow_right (by decide) (Nat.le_of_not_lt inside))
      simp [Nat.testBit_lt_two_pow high]
  rw [instruction, encoded, same]

theorem fixedBitsMatch_of_instruction {e : Encoding} (separate : e.Separate)
    (holds : ∀ f ∈ e.fields, f.Holds) {operands : List Operand}
    (h : ctx.instruction pc e operands = .ok word) : e.fixedBitsMatch word = true := by
  apply Encoding.fixedBitsMatch_iff.2
  intro bits value member
  exact (extract_const separate h member).trans (holds _ member)

end Context

namespace Slot

theorem eq_of_accepts {slot slot' : Slot} {operand : Operand} (h : slot.accepts operand = true)
    (h' : slot'.accepts operand = true) : slot = slot' := by
  cases operand with
  | register sigil num =>
      cases slot <;> cases slot' <;> simp_all [accepts]
  | string text => cases slot <;> simp [accepts] at h
  | integer value => cases slot <;> cases slot' <;> simp_all [accepts]
  | label name => cases slot <;> cases slot' <;> simp_all [accepts]

theorem acceptAll_nil {operands : List Operand} : acceptAll [] operands = true ↔ operands = [] := by
  cases operands <;> simp [acceptAll]

theorem acceptAll_cons {slot : Slot} {slots : List Slot} {operands : List Operand} :
    acceptAll (slot :: slots) operands = true ↔ ∃ operand rest, operands = operand :: rest ∧
      slot.accepts operand = true ∧ acceptAll slots rest = true := by
  cases operands with
  | nil => simp [acceptAll]
  | cons operand rest =>
      simp only [acceptAll, List.length_cons, List.zip_cons_cons, List.all_cons, Bool.and_eq_true,
        beq_iff_eq, Nat.add_right_cancel_iff, List.cons.injEq]
      constructor
      · intro h
        exact ⟨operand, rest, ⟨rfl, rfl⟩, h.2.1, h.1, h.2.2⟩
      · rintro ⟨_, _, ⟨rfl, rfl⟩, first, length, others⟩
        exact ⟨length, first, others⟩

theorem eq_of_acceptAll {slots slots' : List Slot} {operands : List Operand}
    (h : acceptAll slots operands = true) (h' : acceptAll slots' operands = true) :
    slots = slots' := by
  induction slots generalizing slots' operands with
  | nil =>
      cases acceptAll_nil.1 h
      cases slots' with
      | nil => rfl
      | cons slot slots => simp [acceptAll] at h'
  | cons slot slots ih =>
      obtain ⟨operand, rest, rfl, first, others⟩ := acceptAll_cons.1 h
      cases slots' with
      | nil => simp [acceptAll] at h'
      | cons slot' slots' =>
          obtain ⟨_, _, same, first', others'⟩ := acceptAll_cons.1 h'
          cases same
          rw [eq_of_accepts first first', ih others others']

end Slot

theorem Encoding.accepts_operandsOf (e : Encoding) (word : UInt32) :
    e.accepts (e.operandsOf word) = true := by
  rw [accepts, slots, operandsOf]
  induction e.fields with
  | nil => rfl
  | cons f fs ih =>
      cases f with
      | const bits value => exact ih
      | register bits sigil =>
          exact Slot.acceptAll_cons.2 ⟨_, _, rfl, by simp [Slot.accepts], ih⟩
      | immediate bits signed =>
          cases signed <;> exact Slot.acceptAll_cons.2 ⟨_, _, rfl, rfl, ih⟩

theorem Encoding.mem_of_mostSpecific {es : List Encoding} {e : Encoding}
    (h : mostSpecific es = some e) : e ∈ es := by
  cases es with
  | nil => cases h
  | cons first es =>
      cases h
      induction es generalizing first with
      | nil => exact List.mem_cons_self
      | cons next es ih =>
          rw [List.foldl_cons]
          split
          · exact List.mem_cons_of_mem _ (ih next)
          · rcases List.mem_cons.1 (ih first) with same | member
            · rw [same]
              exact List.mem_cons_self
            · exact List.mem_cons_of_mem _ (List.mem_cons_of_mem _ member)

namespace Isa

variable {isa : Isa} {word : UInt32} {i : Instruction}

theorem disassemble?_eq_some (h : isa.disassemble? word = some i) : ∃ e ∈ isa.encodings,
    e.fixedBitsMatch word = true ∧ i = ⟨e.op, e.operandsOf word, 0⟩ := by
  obtain ⟨e, chosen, rfl⟩ := Option.map_eq_some_iff.1 h
  obtain ⟨member, matching⟩ := List.mem_filter.1 (Encoding.mem_of_mostSpecific chosen)
  exact ⟨e, member, matching, rfl⟩

theorem exists_disassemble? {e : Encoding} (member : e ∈ isa.encodings)
    (matching : e.fixedBitsMatch word = true) : ∃ i, isa.disassemble? word = some i := by
  unfold disassemble?
  have found : e ∈ isa.encodings.filter (·.fixedBitsMatch word) :=
    List.mem_filter.2 ⟨member, matching⟩
  cases candidates : isa.encodings.filter (·.fixedBitsMatch word) with
  | nil =>
      rw [candidates] at found
      cases found
  | cons first rest => exact ⟨_, rfl⟩

/-- The generator chooses the encoding that the disassembler has chosen. -/
theorem Reversible.find?_accepts (reversible : isa.Reversible) {e : Encoding}
    (member : e ∈ isa.encodings) (word : UInt32) :
    (isa.encodingsOf e.op).find? (·.accepts (e.operandsOf word)) = some e := by
  have candidate : e ∈ isa.encodingsOf e.op := List.mem_filter.2 ⟨member, by simp⟩
  have accepted := e.accepts_operandsOf word
  cases chosen : (isa.encodingsOf e.op).find? (·.accepts (e.operandsOf word)) with
  | none => exact absurd accepted (List.find?_eq_none.1 chosen e candidate)
  | some e' =>
      obtain ⟨known, named⟩ := List.mem_filter.1 (List.mem_of_find?_eq_some chosen)
      have accepted' : e'.accepts (e.operandsOf word) = true := by
        simpa using List.find?_some chosen
      rw [reversible.distinct e' known e member (by simpa using named)
        (Slot.eq_of_acceptAll accepted' accepted)]

end Isa

end Assembler
