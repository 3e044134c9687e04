import Assembler.Codegen.Encode
import Assembler.Proofs.Outcome

/-! # Encoding under growing symbol tables

Once encoding has come to a result, further labels do not change it: only a stop at an unbound label
is provisional. And what a statement encodes to has the size that was announced for it, provided
that macro instructions announce the length of their expansion.
-/

namespace Assembler

def SortedMap.Within {κ ν : Type} [Ord κ] [DecidableEq κ] (m m' : SortedMap κ ν) : Prop :=
  ∀ k v, m.get? k = some v → m'.get? k = some v

/-- A second attempt gives the same as the first, unless that stopped at an unbound label. -/
def Settles {α : Type} (first second : Except EncodeStop α) : Prop :=
  second = first ∨ ∃ label, first = .error (.unbound label)

namespace Settles

variable {α β : Type}

theorem rfl {x : Except EncodeStop α} : Settles x x := .inl (Eq.refl x)

theorem bind {x x' : Except EncodeStop α} {f f' : α → Except EncodeStop β} (h : Settles x x')
    (hf : ∀ a, Settles (f a) (f' a)) : Settles (x >>= f) (x' >>= f') := by
  rcases h with rfl | ⟨label, rfl⟩
  · cases x' with
    | error stop => exact .rfl
    | ok a => exact hf a
  · exact .inr ⟨label, Eq.refl _⟩

theorem ok {x x' : Except EncodeStop α} (h : Settles x x') {a : α} (first : x = .ok a) :
    x' = .ok a := by
  rcases h with rfl | ⟨label, stopped⟩
  · exact first
  · cases first.symm.trans stopped

theorem failed {x x' : Except EncodeStop α} (h : Settles x x') {e : CodegenError}
    (first : x = .error (.failed e)) : x' = .error (.failed e) := by
  rcases h with rfl | ⟨label, stopped⟩
  · exact first
  · cases first.symm.trans stopped

end Settles

namespace Context

variable {isa : Isa} {symbols symbols' : SymbolTable} {line : Nat}

theorem settles_address (within : symbols.Within symbols') (label : String) :
    Settles ((Context.mk isa symbols line).address label)
      ((Context.mk isa symbols' line).address label) := by
  simp only [address]
  cases found : symbols.get? label with
  | none => exact .inr ⟨label, rfl⟩
  | some a =>
      rw [within label a found]
      exact .rfl

theorem settles_immediate (within : symbols.Within symbols') (pc : Nat) (operand : Operand) :
    Settles ((Context.mk isa symbols line).immediate pc operand)
      ((Context.mk isa symbols' line).immediate pc operand) := by
  cases operand with
  | label label => exact (settles_address within label).bind fun _ => .rfl
  | _ => exact .rfl

theorem settles_field (within : symbols.Within symbols') (pc : Nat) (operands : List Operand)
    (f : Field) : Settles ((Context.mk isa symbols line).field pc operands f)
      ((Context.mk isa symbols' line).field pc operands f) := by
  cases f with
  | const bits value => exact .rfl
  | register bits sigil => exact .rfl
  | immediate bits signed =>
      cases operands with
      | nil => exact .rfl
      | cons operand rest => exact (settles_immediate within pc operand).bind fun _ => .rfl

theorem settles_fields (within : symbols.Within symbols') (pc : Nat) (fs : List Field)
    (operands : List Operand) : Settles ((Context.mk isa symbols line).fields pc fs operands)
      ((Context.mk isa symbols' line).fields pc fs operands) := by
  induction fs generalizing operands with
  | nil => exact .rfl
  | cons f fs ih =>
      exact (settles_field within pc operands f).bind fun first =>
        (ih first.2).bind fun _ => .rfl

theorem settles_expansion (within : symbols.Within symbols') (pc : Nat)
    (parts : List (String × List Operand)) :
    Settles ((Context.mk isa symbols line).expansion pc parts)
      ((Context.mk isa symbols' line).expansion pc parts) := by
  induction parts generalizing pc with
  | nil => exact .rfl
  | cons part parts ih =>
      obtain ⟨op, operands⟩ := part
      simp only [expansion]
      cases (isa.encodingsOf op).find? (·.accepts operands) with
      | none => exact .rfl
      | some encoding =>
          exact (settles_fields within pc encoding.fields operands).bind fun _ =>
            (ih (pc + 1)).bind fun _ => .rfl

/-- A payload that is encoded, or fails, stays so when more labels are bound. -/
theorem settles_payload (within : symbols.Within symbols') (pc : Nat) (p : Payload) :
    Settles ((Context.mk isa symbols line).payload pc p)
      ((Context.mk isa symbols' line).payload pc p) := by
  cases p with
  | instruction encoding operands =>
      exact (settles_fields within pc encoding.fields operands).bind fun _ => .rfl
  | expansion used operands => exact settles_expansion within pc _
  | address label =>
      exact (settles_address within label).bind fun _ => .rfl
  | _ => exact .rfl

end Context

/-- Only a macro instruction can announce a size of its own, and it is to be that of its
    expansion. -/
def Payload.Exact : Payload → Prop
  | .expansion used _ => used.size = used.expansion.length
  | _ => True

/-- What a payload is resolved from. -/
inductive Target.Resolves (t : Target) : Statement → Payload → Prop where
  | instruction {i : Instruction} {e : Encoding}
      (found : (t.isa.encodingsOf i.op).find? (·.accepts i.operands) = some e) :
      Resolves t (.instruction i) (.instruction e i.operands)
  | expansion {i : Instruction} {used : Alias}
      (found : (t.isa.aliasesOf i.op).find? (·.accepts i.operands) = some used) :
      Resolves t (.instruction i) (.expansion used i.operands)
  | word {d : Directive} {value : Int} (given : d.operand? = some (.integer value)) :
      Resolves t (.directive d) (.word value)
  | address {d : Directive} {label : String} (given : d.operand? = some (.label label)) :
      Resolves t (.directive d) (.address label)
  | block {d : Directive} {count : Int} (given : d.operand? = some (.integer count)) :
      Resolves t (.directive d) (.block count)
  | text {d : Directive} {content : String} (given : d.operand? = some (.string content)) :
      Resolves t (.directive d) (.text content)

theorem Target.resolves {t : Target} {s : Statement} {p : Payload} (h : t.resolve s = .ok p) :
    t.Resolves s p := by
  cases s with
  | instruction i =>
      simp only [resolve, resolveInstruction] at h
      split at h
      · next found =>
          cases h
          exact .instruction found
      · split at h
        · next found =>
            cases h
            exact .expansion found
        · cases h
  | directive d =>
      simp only [resolve, resolveDirective] at h
      split at h
      · cases h
      · next operand given =>
          split at h
          · unfold payloadOf at h
            split at h <;> cases h
            · exact .word given
            · exact .address given
            · exact .block given
            · exact .text given
          · cases h

theorem Isa.mem_of_find? {isa : Isa} {op : String} {operands : List Operand} {e : Encoding}
    (h : (isa.encodingsOf op).find? (·.accepts operands) = some e) : e ∈ isa.encodings :=
  List.mem_of_mem_filter (List.mem_of_find?_eq_some h)

theorem Target.mem_encodings_of_resolve {t : Target} {s : Statement} {e : Encoding}
    {operands : List Operand} (h : t.resolve s = .ok (.instruction e operands)) :
    e ∈ t.isa.encodings := by
  cases resolves h with
  | instruction found => exact Isa.mem_of_find? found

theorem Target.mem_aliases_of_resolve {t : Target} {s : Statement} {used : Alias}
    {operands : List Operand} (h : t.resolve s = .ok (.expansion used operands)) :
    used ∈ t.isa.aliases := by
  cases resolves h with
  | expansion found => exact List.mem_of_mem_filter (List.mem_of_find?_eq_some found)

theorem Target.exact_of_resolve {t : Target}
    (exact : ∀ a ∈ t.isa.aliases, a.size = a.expansion.length) {s : Statement} {p : Payload}
    (h : t.resolve s = .ok p) : p.Exact := by
  cases p with
  | expansion used operands => exact exact used (mem_aliases_of_resolve h)
  | _ => trivial

theorem toNat_of_fit {value : Int} {word : UInt32} (h : fit value 32 false = .ok word) :
    word.toNat = value.toNat := by
  simp only [fit, Bool.false_eq_true, if_false] at h
  split at h
  · next range =>
      cases h
      have mask : lowMask 32 = -1 := by decide
      have all : capacity 32 = UInt32.size := by decide
      rw [all] at range
      rw [mask, UInt32.and_neg_one, wordOfInt, UInt32.toNat_ofNat']
      simp only [UInt32.size] at range ⊢
      omega
  · cases h

namespace Context

theorem expansion_cons_eq_ok {ctx : Context} {pc : Nat} {op : String} {operands : List Operand}
    {parts : List (String × List Operand)} {words : List UInt32} :
    ctx.expansion pc ((op, operands) :: parts) = .ok words ↔ ∃ e word rest,
      (ctx.isa.encodingsOf op).find? (·.accepts operands) = some e ∧
      ctx.instruction pc e operands = .ok word ∧ ctx.expansion (pc + 1) parts = .ok rest ∧
      words = word :: rest := by
  simp only [expansion]
  cases (ctx.isa.encodingsOf op).find? (·.accepts operands) with
  | none => simp
  | some e =>
      simp only [bind_eq_ok, pure_eq_ok, Option.some.injEq]
      constructor
      · rintro ⟨word, here, rest, behind, rfl⟩
        exact ⟨e, word, rest, rfl, here, behind, rfl⟩
      · rintro ⟨_, word, rest, rfl, here, behind, rfl⟩
        exact ⟨word, here, rest, behind, rfl⟩

theorem length_expansion {ctx : Context} {pc : Nat} {parts : List (String × List Operand)}
    {words : List UInt32} (h : ctx.expansion pc parts = .ok words) :
    words.length = parts.length := by
  induction parts generalizing pc words with
  | nil =>
      cases h
      rfl
  | cons part parts ih =>
      obtain ⟨-, word, rest, -, -, encoded, rfl⟩ := expansion_cons_eq_ok.1 h
      simp [ih encoded]

/-- Words are expanded from instructions, each in an encoding of its own. -/
theorem exists_instruction_of_expansion {ctx : Context} {pc : Nat}
    {parts : List (String × List Operand)} {words : List UInt32}
    (h : ctx.expansion pc parts = .ok words) : ∀ word ∈ words,
      ∃ e ∈ ctx.isa.encodings, ∃ pc operands, ctx.instruction pc e operands = .ok word := by
  induction parts generalizing pc words with
  | nil =>
      cases h
      exact fun _ => nofun
  | cons part parts ih =>
      obtain ⟨op, operands⟩ := part
      obtain ⟨e, word, rest, chosen, here, behind, rfl⟩ := expansion_cons_eq_ok.1 h
      intro other member
      rcases List.mem_cons.1 member with rfl | member
      · exact ⟨e, Isa.mem_of_find? chosen, pc, operands, here⟩
      · exact ih behind other member

theorem length_payload {ctx : Context} {pc line size : Nat} {p : Payload} {words : List UInt32}
    (exact : p.Exact) (sized : p.size line = .ok size) (h : ctx.payload pc p = .ok words) :
    words.length = size := by
  cases p with
  | instruction encoding operands =>
      simp only [payload, bind_eq_ok, pure_eq_ok] at h
      obtain ⟨word, -, rfl⟩ := h
      cases sized
      rfl
  | expansion used operands =>
      cases sized
      rw [length_expansion h, Alias.expand, List.length_map]
      exact exact.symm
  | word value =>
      simp only [payload, bind_eq_ok, pure_eq_ok] at h
      obtain ⟨word, -, rfl⟩ := h
      cases sized
      rfl
  | address label =>
      simp only [payload, bind_eq_ok, pure_eq_ok] at h
      obtain ⟨a, -, word, -, rfl⟩ := h
      cases sized
      rfl
  | block count =>
      cases h
      simp only [Payload.size, bind_eq_ok, pure_eq_ok] at sized
      obtain ⟨word, fits, rfl⟩ := sized
      cases fitted : fit count 32 false with
      | error cause => simp [fitted, rangeFailure] at fits
      | ok value =>
          simp only [fitted, rangeFailure, Except.ok.injEq] at fits
          rw [← fits, toNat_of_fit fitted, List.length_replicate]
  | text content =>
      simp only [payload, bind_eq_ok, pure_eq_ok] at h
      obtain ⟨letters, encoded, rfl⟩ := h
      cases sized
      simp [(mapM_eq_ok.1 encoded).length_eq]

end Context

end Assembler
