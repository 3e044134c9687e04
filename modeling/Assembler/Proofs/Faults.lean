import Assembler.Codegen.Error
import Assembler.Program.Error
import Assembler.Proofs.Outcome

/-! # Computations without faults

A computation is faultless if none of its errors is a broken invariant.
-/

namespace Assembler

/-- The broken invariant, if the error is one. -/
def SemanticError.fault? : SemanticError → Option Fault
  | .fault f => some f
  | _ => none

@[inherit_doc SemanticError.fault?]
def CodegenError.fault? : CodegenError → Option Fault
  | .fault f => some f
  | _ => none

variable {ε α β : Type} {fault? : ε → Option Fault}

/-- A computation whose errors are no faults. -/
def Faultless (fault? : ε → Option Fault) (x : Except ε α) : Prop :=
  ∀ e, x = .error e → fault? e = none

@[simp] theorem faultless_pure (a : α) : Faultless fault? (pure a : Except ε α) := nofun

@[simp] theorem faultless_throw {e : ε} :
    Faultless fault? (throw e : Except ε α) ↔ fault? e = none :=
  raisesOnly_throw

theorem Faultless.bind {x : Except ε α} {f : α → Except ε β} (h : Faultless fault? x)
    (next : ∀ a, x = .ok a → Faultless fault? (f a)) : Faultless fault? (x >>= f) :=
  RaisesOnly.bind h next

end Assembler
