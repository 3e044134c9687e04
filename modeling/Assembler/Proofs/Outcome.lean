import Mathlib.Data.List.Forall2

/-! # Taking a computation apart

A computation that may fail succeeds exactly if all its parts do. These equivalences peel the parts
off one at a time, so that no proof about a stage has to open the plumbing of errors. What is known
of the errors and the results of the parts is put together in the same way.
-/

namespace Assembler

variable {ε α β : Type}

theorem bind_eq_ok {x : Except ε α} {f : α → Except ε β} {b : β} :
    x >>= f = .ok b ↔ ∃ a, x = .ok a ∧ f a = .ok b := by
  cases x with
  | error e => simp [bind, Except.bind]
  | ok a => simp [bind, Except.bind]

@[simp] theorem pure_eq_ok {a b : α} : (pure a : Except ε α) = .ok b ↔ a = b := by
  simp [pure, Except.pure]

theorem map_eq_ok {x : Except ε α} {f : α → β} {b : β} :
    x.map f = .ok b ↔ ∃ a, x = .ok a ∧ f a = b := by
  cases x <;> simp [Except.map]

theorem map_eq_error {x : Except ε α} {f : α → β} {e : ε} : x.map f = .error e ↔ x = .error e := by
  cases x <;> simp [Except.map]

theorem toOption_eq_some {x : Except ε α} {a : α} : x.toOption = some a ↔ x = .ok a := by
  cases x <;> simp [Except.toOption]

theorem mapM_eq_ok {f : α → Except ε β} {xs : List α} {ys : List β} :
    xs.mapM f = .ok ys ↔ List.Forall₂ (fun x y => f x = .ok y) xs ys := by
  induction xs generalizing ys with
  | nil =>
      simp only [List.mapM_nil, pure_eq_ok, List.forall₂_nil_left_iff]
      exact eq_comm
  | cons x xs ih =>
      simp only [List.mapM_cons, bind_eq_ok, pure_eq_ok, ih, List.forall₂_cons_left_iff]
      constructor
      · rintro ⟨y, hy, zs, hzs, rfl⟩
        exact ⟨y, zs, hy, hzs, rfl⟩
      · rintro ⟨y, zs, hy, hzs, rfl⟩
        exact ⟨y, hy, zs, hzs, rfl⟩

theorem exists_getElem?_of_forall₂ {R : α → β → Prop} {xs : List α} {ys : List β}
    (h : List.Forall₂ R xs ys) {i : Nat} {x : α} (found : xs[i]? = some x) :
    ∃ y, ys[i]? = some y ∧ R x y := by
  induction h generalizing i with
  | nil => cases found
  | cons head tail ih =>
      cases i with
      | zero =>
          cases found
          exact ⟨_, rfl, head⟩
      | succ i => exact ih found

theorem exists_mem_of_forall₂ {R : α → β → Prop} {xs : List α} {ys : List β}
    (h : List.Forall₂ R xs ys) {y : β} (member : y ∈ ys) : ∃ x ∈ xs, R x y := by
  obtain ⟨i, found⟩ := List.mem_iff_getElem?.1 member
  obtain ⟨x, held, related⟩ := exists_getElem?_of_forall₂ h.flip found
  exact ⟨x, List.mem_of_getElem? held, related⟩

theorem exists_forall₂ {R : α → β → Prop} {xs : List α} (h : ∀ x ∈ xs, ∃ y, R x y) :
    ∃ ys, List.Forall₂ R xs ys := by
  induction xs with
  | nil => exact ⟨[], .nil⟩
  | cons x xs ih =>
      obtain ⟨⟨y, first⟩, others⟩ := List.forall_mem_cons.1 h
      obtain ⟨ys, behind⟩ := ih others
      exact ⟨y :: ys, .cons first behind⟩

theorem exists_of_mem_mapM {f : α → Except ε β} {xs : List α} {ys : List β} {y : β}
    (h : xs.mapM f = .ok ys) (member : y ∈ ys) : ∃ x ∈ xs, f x = .ok y :=
  exists_mem_of_forall₂ (mapM_eq_ok.1 h) member

theorem exists_mapM_eq_ok {f : α → Except ε β} {xs : List α} :
    (∃ ys, xs.mapM f = .ok ys) ↔ ∀ x ∈ xs, ∃ y, f x = .ok y := by
  simp only [mapM_eq_ok]
  constructor
  · rintro ⟨ys, steps⟩ x member
    obtain ⟨y, -, found⟩ := exists_mem_of_forall₂ steps.flip member
    exact ⟨y, found⟩
  · exact exists_forall₂

theorem throw_bind_eq_ok {failure : ε} {f : α → Except ε β} {b : β} :
    (throw failure >>= f) = .ok b ↔ False :=
  iff_false_intro fun h => nomatch h

theorem ite_throw_bind_eq_ok {c : Prop} [Decidable c] {failure : ε} {f : α → Except ε β}
    {x : Except ε β} {b : β} :
    (if c then throw failure >>= f else x) = .ok b ↔ ¬c ∧ x = .ok b := by
  by_cases h : c <;> simp [h, throw_bind_eq_ok]

theorem foldlM_cons_eq_ok {f : β → α → Except ε β} {x : α} {xs : List α} {b c : β} :
    (x :: xs).foldlM f b = .ok c ↔ ∃ d, f b x = .ok d ∧ xs.foldlM f d = .ok c := by
  simp only [List.foldlM_cons, bind_eq_ok]

/-! ### Properties of errors and results -/

/-- A computation whose errors have a property. -/
def RaisesOnly (Q : ε → Prop) (x : Except ε α) : Prop :=
  ∀ e, x = .error e → Q e

/-- A computation whose errors have one property and whose results have another. -/
def Delivers (Q : ε → Prop) (P : α → Prop) (x : Except ε α) : Prop :=
  RaisesOnly Q x ∧ ∀ a, x = .ok a → P a

section Properties

variable {Q : ε → Prop} {P : α → Prop}

@[simp] theorem raisesOnly_ok (a : α) : RaisesOnly Q (.ok a) := nofun

@[simp] theorem raisesOnly_pure (a : α) : RaisesOnly Q (pure a : Except ε α) := nofun

@[simp] theorem raisesOnly_error {e : ε} : RaisesOnly Q (.error e : Except ε α) ↔ Q e := by
  simp [RaisesOnly]

@[simp] theorem raisesOnly_throw {e : ε} : RaisesOnly Q (throw e : Except ε α) ↔ Q e :=
  raisesOnly_error

namespace RaisesOnly

theorem imp {Q' : ε → Prop} {x : Except ε α} (h : RaisesOnly Q x) (weaker : ∀ e, Q e → Q' e) :
    RaisesOnly Q' x :=
  fun e failed => weaker e (h e failed)

theorem bind {x : Except ε α} {f : α → Except ε β} (h : RaisesOnly Q x)
    (next : ∀ a, x = .ok a → RaisesOnly Q (f a)) : RaisesOnly Q (x >>= f) := by
  cases x with
  | error e => exact fun e' failed => h e' (by cases failed; rfl)
  | ok a => exact next a rfl

theorem guarded {c : Prop} [Decidable c] {e : ε} {f : α → Except ε β} {x : Except ε β}
    (failure : Q e) (h : RaisesOnly Q x) : RaisesOnly Q (if c then throw e >>= f else x) := by
  split
  · exact (raisesOnly_throw.2 failure).bind nofun
  · exact h

theorem mapM {f : α → Except ε β} {xs : List α} (h : ∀ x ∈ xs, RaisesOnly Q (f x)) :
    RaisesOnly Q (xs.mapM f) := by
  induction xs with
  | nil => exact raisesOnly_pure []
  | cons x xs ih =>
      obtain ⟨first, others⟩ := List.forall_mem_cons.1 h
      rw [List.mapM_cons]
      exact first.bind fun y _ => (ih others).bind fun ys _ => raisesOnly_pure _

theorem foldlM {f : β → α → Except ε β} {xs : List α} (h : ∀ x ∈ xs, ∀ b, RaisesOnly Q (f b x))
    (b : β) : RaisesOnly Q (xs.foldlM f b) := by
  induction xs generalizing b with
  | nil => exact raisesOnly_pure b
  | cons x xs ih =>
      obtain ⟨first, others⟩ := List.forall_mem_cons.1 h
      rw [List.foldlM_cons]
      exact (first b).bind fun b' _ => ih others b'

theorem delivers_bind {x : Except ε α} {f : α → Except ε β} {P : β → Prop} (h : RaisesOnly Q x)
    (next : ∀ a, Delivers Q P (f a)) : Delivers Q P (x >>= f) := by
  refine ⟨h.bind fun a _ => (next a).1, fun b done => ?_⟩
  obtain ⟨a, -, found⟩ := bind_eq_ok.1 done
  exact (next a).2 b found

end RaisesOnly

@[simp] theorem delivers_ok {a : α} : Delivers Q P (.ok a) ↔ P a := by simp [Delivers]

@[simp] theorem delivers_pure {a : α} : Delivers Q P (pure a : Except ε α) ↔ P a := delivers_ok

@[simp] theorem delivers_error {e : ε} : Delivers Q P (.error e) ↔ Q e := by simp [Delivers]

namespace Delivers

theorem bind {x : Except ε α} {f : α → Except ε β} {P' : β → Prop} (h : Delivers Q P x)
    (next : ∀ a, P a → Delivers Q P' (f a)) : Delivers Q P' (x >>= f) := by
  cases x with
  | error e => exact delivers_error.2 (delivers_error.1 h)
  | ok a => exact next a (h.2 a rfl)

theorem mapM {f : α → Except ε β} {xs : List α} {P : β → Prop}
    (h : ∀ x ∈ xs, Delivers Q P (f x)) : Delivers Q (fun ys => ∀ y ∈ ys, P y) (xs.mapM f) := by
  induction xs with
  | nil => exact delivers_pure.2 (by simp)
  | cons x xs ih =>
      obtain ⟨first, others⟩ := List.forall_mem_cons.1 h
      rw [List.mapM_cons]
      exact first.bind fun y hy => (ih others).bind fun ys hys =>
        delivers_pure.2 (List.forall_mem_cons.2 ⟨hy, hys⟩)

theorem foldlM {f : β → α → Except ε β} {xs : List α} {I : β → Prop}
    (h : ∀ x ∈ xs, ∀ b, I b → Delivers Q I (f b x)) {b : β} (start : I b) :
    Delivers Q I (xs.foldlM f b) := by
  induction xs generalizing b with
  | nil => exact delivers_pure.2 start
  | cons x xs ih =>
      obtain ⟨first, others⟩ := List.forall_mem_cons.1 h
      rw [List.foldlM_cons]
      exact (first b start).bind fun b' next => ih others next

end Delivers

end Properties

end Assembler
