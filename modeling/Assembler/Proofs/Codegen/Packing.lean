import Assembler.Proofs.Codegen.Decode

/-! # Packing loses nothing

What a field of an instruction's word holds is the number of the operand that filled it, read with
the sign that the field has. Every other bit is clear. So a word and the numbers of its operands
determine each other, wherever the instruction stands and whatever its labels are called.
-/

namespace Assembler

/-- The number that an operand stands for at an address: the number of a register, an integer, or
    the distance to a label. -/
def Context.number? (ctx : Context) (pc : Nat) : Operand → Option Int
  | .register _ num => some num
  | .integer value => some value
  | .label label => (ctx.symbols.get? label).map fun address =>
      (address.toNat : Int) - ((pc + ctx.isa.increment : Nat) : Int)
  | .string _ => none

namespace Field

/-- Whether the machine extends the bits of the field by their sign, rather than by zeros. -/
def signed : Field → Bool
  | .immediate _ signed => signed
  | _ => false

/-- The number that a word holds in a field. -/
def numberIn (word : UInt32) (f : Field) : Int :=
  if f.signed then signExtend (f.bits.extract word) f.bits.width else (f.bits.extract word).toNat

theorem const_or_slot (f : Field) : (∃ bits value, f = .const bits value) ∨
    f.isConst = false ∧ ∃ slot, f.slot? = some slot := by
  cases f with
  | const bits value => exact .inl ⟨bits, value, rfl⟩
  | register bits sigil => exact .inr ⟨rfl, _, rfl⟩
  | immediate bits signed => exact .inr ⟨rfl, _, rfl⟩

variable {f : Field} {word : UInt32}

theorem numberIn_of_extract_eq {word' : UInt32}
    (same : f.bits.extract word = f.bits.extract word') : f.numberIn word = f.numberIn word' := by
  simp only [numberIn, same]

theorem numberIn_place (within : f.bits.Within 32) {value : Int} {fitted : UInt32}
    (fits : fit value f.bits.width f.signed = .ok fitted) :
    f.numberIn (f.bits.place fitted) = value := by
  have narrow := within.width_le
  rw [numberIn, BitRange.extract_place within, and_lowMask_of_fit narrow fits]
  cases sign : f.signed with
  | true => exact signExtend_of_fit (Nat.succ_pos _) narrow (sign ▸ fits)
  | false => exact toNat_of_fit_unsigned narrow (sign ▸ fits)

end Field

/-- The numbers that a word holds in the fields that operands fill. -/
def Encoding.numbersIn (e : Encoding) (word : UInt32) : List Int :=
  (e.fields.filter (!·.isConst)).map (·.numberIn word)

namespace Context

variable {ctx ctx' : Context} {pc pc' : Nat} {operands operands' : List Operand}
  {word word' : UInt32}

theorem number?_of_immediate {operand : Operand} {text : String} {value : Int}
    (h : ctx.immediate pc operand = .ok (text, value)) : ctx.number? pc operand = some value := by
  cases operand with
  | register sigil num => cases h
  | string content => cases h
  | integer value =>
      cases h
      rfl
  | label label =>
      obtain ⟨-, address, bound, rfl⟩ := immediate_label_eq_ok.1 h
      simp [number?, bound]

theorem exists_number_of_field {f : Field} (filled : f.isConst = false) {part : UInt32}
    {rest : List Operand} (h : ctx.field pc operands f = .ok (part, rest)) :
    ∃ operand value fitted, operands = operand :: rest ∧ ctx.number? pc operand = some value ∧
      fit value f.bits.width f.signed = .ok fitted ∧ part = f.bits.place fitted := by
  cases f with
  | const bits value => cases filled
  | register bits sigil =>
      obtain ⟨mark, num, fitted, rfl, fits, rfl⟩ := field_register_eq_ok h
      exact ⟨_, num, fitted, rfl, rfl, fits, rfl⟩
  | immediate bits signed =>
      obtain ⟨operand, text, value, fitted, rfl, found, fits, rfl⟩ := field_immediate_eq_ok h
      exact ⟨operand, value, fitted, rfl, number?_of_immediate found, fits, rfl⟩

/-- Operands of the same numbers are packed into the same word. -/
theorem eq_of_numbers {fs : List Field} (h : ctx.fields pc fs operands = .ok word)
    (h' : ctx'.fields pc' fs operands' = .ok word')
    (same : operands.map (ctx.number? pc) = operands'.map (ctx'.number? pc')) : word = word' := by
  induction fs generalizing operands operands' word word' with
  | nil =>
      cases h
      cases h'
      rfl
  | cons f fs ih =>
      obtain ⟨part, rest, others, first, behind, rfl⟩ := fields_cons_eq_ok.1 h
      obtain ⟨part', rest', others', first', behind', rfl⟩ := fields_cons_eq_ok.1 h'
      rcases f.const_or_slot with ⟨bits, value, rfl⟩ | ⟨filled, -⟩
      · cases first
        cases first'
        rw [ih behind behind' same]
      · obtain ⟨operand, value, fitted, rfl, number, fits, rfl⟩ :=
          exists_number_of_field filled first
        obtain ⟨operand', value', fitted', rfl, number', fits', rfl⟩ :=
          exists_number_of_field filled first'
        simp only [List.map_cons, List.cons.injEq, number, number', Option.some.injEq] at same
        obtain ⟨rfl, others⟩ := same
        obtain rfl : fitted = fitted' := Except.ok.inj (fits.symm.trans fits')
        rw [ih behind behind' others]

/-- The fields that operands fill hold the numbers of the operands, in order. -/
theorem numbers_of_fields {fs : List Field} (within : ∀ f ∈ fs, f.bits.Within 32)
    (apart : fs.Pairwise fun f g => f.bits.Disjoint g.bits)
    (accepts : Slot.acceptAll (fs.filterMap Field.slot?) operands = true)
    (h : ctx.fields pc fs operands = .ok word) : operands.map (ctx.number? pc) =
      (fs.filter (!·.isConst)).map fun f => some (f.numberIn word) := by
  induction fs generalizing operands word with
  | nil =>
      cases Slot.acceptAll_nil.1 accepts
      rfl
  | cons f fs ih =>
      obtain ⟨part, rest, others, first, behind, rfl⟩ := fields_cons_eq_ok.1 h
      obtain ⟨before, later⟩ := List.pairwise_cons.1 apart
      have inside := within f List.mem_cons_self
      have insideRest : ∀ g ∈ fs, g.bits.Within 32 :=
        fun g member => within g (List.mem_cons_of_mem _ member)
      -- the bits of the other fields are not touched by this one, and it is not by theirs
      have held : f.bits.extract (part ||| others) = f.bits.extract part := by
        have clear : f.bits.extract others = 0 := extract_fields_of_disjoint inside
          (fun g member => ⟨insideRest g member, before g member⟩) behind
        rw [BitRange.extract_or inside, clear, UInt32.or_zero]
      have kept : ∀ g ∈ fs, g.numberIn (part ||| others) = g.numberIn others := by
        intro g member
        obtain ⟨⟨value, rfl⟩, -⟩ := field_eq_ok first
        refine Field.numberIn_of_extract_eq ?_
        rw [BitRange.extract_or (insideRest g member), BitRange.extract_place_of_disjoint
          (insideRest g member) inside (before g member).symm, UInt32.zero_or]
      have behindNumbers : (fs.filter (!·.isConst)).map (fun g => some (g.numberIn others)) =
          (fs.filter (!·.isConst)).map fun g => some (g.numberIn (part ||| others)) := by
        refine List.map_congr_left fun g member => ?_
        rw [kept g (List.mem_of_mem_filter member)]
      rcases f.const_or_slot with ⟨bits, value, rfl⟩ | ⟨filled, slot, found⟩
      · cases first
        rw [ih insideRest later accepts behind, behindNumbers]
        rfl
      · obtain ⟨operand, value, fitted, rfl, number, fits, rfl⟩ :=
          exists_number_of_field filled first
        have number' : f.numberIn (f.bits.place fitted ||| others) = value :=
          (Field.numberIn_of_extract_eq held).trans (Field.numberIn_place inside fits)
        rw [List.filterMap_cons, found, Slot.acceptAll_cons] at accepts
        obtain ⟨_, _, same, -, acceptsRest⟩ := accepts
        cases same
        rw [List.map_cons, number, ih insideRest later acceptsRest behind, behindNumbers,
          List.filter_cons_of_pos (by simp [filled]), List.map_cons, number']

theorem testBit_fields {fs : List Field} (within : ∀ f ∈ fs, f.bits.Within 32)
    (h : ctx.fields pc fs operands = .ok word) {i : Nat}
    (outside : ∀ f ∈ fs, ¬(f.bits.lo ≤ i ∧ i ≤ f.bits.hi)) : word.toNat.testBit i = false := by
  induction fs generalizing operands word with
  | nil =>
      cases h
      simp
  | cons f fs ih =>
      obtain ⟨part, rest, others, first, behind, rfl⟩ := fields_cons_eq_ok.1 h
      obtain ⟨⟨value, rfl⟩, -⟩ := field_eq_ok first
      have here : (f.bits.place value).toNat.testBit i = false := by
        have beside := outside f List.mem_cons_self
        rw [BitRange.testBit_place (within f List.mem_cons_self), ← Bool.decide_and,
          decide_eq_false beside, Bool.false_and]
      have behindBits := ih (fun g member => within g (List.mem_cons_of_mem _ member)) behind
        (fun g member => outside g (List.mem_cons_of_mem _ member))
      rw [UInt32.toNat_or, Nat.testBit_or, here, behindBits, Bool.or_false]

/-- A word that an encoding packs holds the values of the fixed fields and the numbers of the
    operands, and nothing else. So two lists of operands are packed into one word, whatever the
    addresses and labels of either, exactly when their numbers are the same. -/
theorem instruction_packs {e : Encoding} (separate : e.Separate)
    (accepts : e.accepts operands = true) (h : ctx.instruction pc e operands = .ok word) :
    (∀ bits value, .const bits value ∈ e.fields →
      bits.extract word = value &&& lowMask bits.width) ∧
    operands.map (ctx.number? pc) = (e.numbersIn word).map some ∧
    (∀ i, (∀ f ∈ e.fields, ¬(f.bits.lo ≤ i ∧ i ≤ f.bits.hi)) →
      word.toNat.testBit i = false) ∧
    ∀ (ctx' : Context) (pc' : Nat) (operands' : List Operand) (word' : UInt32),
      e.accepts operands' = true → ctx'.instruction pc' e operands' = .ok word' →
      (word = word' ↔ operands.map (ctx.number? pc) = operands'.map (ctx'.number? pc')) := by
  have numbers : ∀ {ctx : Context} {pc : Nat} {operands : List Operand} {word : UInt32},
      e.accepts operands = true → ctx.instruction pc e operands = .ok word →
        operands.map (ctx.number? pc) = (e.numbersIn word).map some := by
    intro ctx pc operands word accepts h
    rw [Encoding.numbersIn, List.map_map]
    exact numbers_of_fields separate.1 separate.2 accepts h
  refine ⟨fun bits value => extract_const separate h, numbers accepts h,
    fun i => testBit_fields separate.1 h, ?_⟩
  intro ctx' pc' operands' word' accepts' h'
  constructor
  · rintro rfl
    rw [numbers accepts h, numbers accepts' h']
  · exact eq_of_numbers h h'

/-- A branch back to a label is the branch by the distance, and its sign stays in its field. -/
theorem instruction_packs_brn :
    [Operand.label "loop"].map
        ((Context.mk Lc3.isa (.ofList [("loop", 0x3000)]) 1).number? 0x3004) =
      [Operand.integer (-5)].map ((Context.mk Lc3.isa .empty 1).number? 0) ∧
    (⟨11, 9⟩ : BitRange).extract 0x09fb = 0b100 := by
  have back : (Context.mk Lc3.isa (.ofList [("loop", 0x3000)]) 1).instruction 0x3004
      (Lc3.branch "brn" 0b100) [.label "loop"] = .ok 0x09fb := by decide +kernel
  obtain ⟨fixed, -, -, only⟩ := instruction_packs (by decide) rfl back
  have same := (only ⟨Lc3.isa, .empty, 1⟩ 0 [.integer (-5)] 0x09fb rfl (by decide +kernel)).1 rfl
  exact ⟨same, fixed ⟨11, 9⟩ 0b100 (by decide)⟩

end Context

end Assembler
