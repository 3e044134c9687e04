import Assembler.Proofs.Program.Sections
import Mathlib.Data.List.Forall2

/-! # Lines that a builder refuses

Labels are defined one by one, so a line that is refused at one of its labels leaves those in front
of it in the builder. It is then the builder that a line of only these labels makes, and a source
that is read past its errors is another source, read without errors.
-/

namespace Assembler.Builder

/-- The labels of a refused line that stay in the builder: those in front of a label that is already
    defined. Every other fault is found before the first label is defined. -/
inductive Leaves (b : Builder) (line : Nat) : List String → SemanticError → List String → Prop where
  | none {labels : List String} {e : SemanticError}
      (other : ∀ label n, e ≠ .duplicateLabel label n) : Leaves b line labels e []
  | front {kept behind : List String} {label : String} (fresh : Fresh b.defined kept)
      (known : label ∈ b.defined ∨ label ∈ kept) :
      Leaves b line (kept ++ label :: behind) (.duplicateLabel label line) kept

section Refused

variable {b b' : Builder} {line : Nat} {e : SemanticError} {labels kept : List String}
  {s : Statement} {name : String} {labeled : Bool} {operand? : Option Operand}

theorem withLabels_nil : b.withLabels [] = b := by
  simp [withLabels, SortedSet.insertAll]

theorem addLabels_closed (refused : addLabels line labels b = .error e b')
    (closed : b.opened? = none) : e = .strayLabel line ∧ b' = b := by
  cases labels with
  | nil => simp [addLabels] at refused
  | cons label labels =>
      simp only [addLabels, closed, Option.isNone_none, if_true] at refused
      cases refused
      exact ⟨rfl, rfl⟩

theorem addLabels_opened (refused : addLabels line labels b = .error e b')
    (opened : b.opened? ≠ none) : ∃ kept label behind,
      labels = kept ++ label :: behind ∧ e = .duplicateLabel label line ∧ Fresh b.defined kept ∧
        (label ∈ b.defined ∨ label ∈ kept) ∧ b' = b.withLabels kept := by
  induction labels generalizing b with
  | nil => simp [addLabels] at refused
  | cons first labels ih =>
      simp only [addLabels, Option.isNone_iff_eq_none, opened, if_false] at refused
      split at refused
      · next known =>
          cases refused
          exact ⟨[], first, labels, rfl, rfl, ⟨.nil, by simp⟩, .inl known, withLabels_nil.symm⟩
      · next new =>
          -- the section is still open, so only a duplicate can stop the labels that follow
          obtain ⟨kept, label, behind, rfl, rfl, fresh, known, rfl⟩ := ih refused opened
          refine ⟨first :: kept, label, behind, rfl, rfl, fresh_cons.2 ⟨new, fresh⟩, ?_, ?_⟩
          · rw [SortedSet.mem_insert] at known
            simp only [List.mem_cons]
            tauto
          · simp [withLabels, SortedSet.insertAll]

/-- However labels are refused, those in front of the fault could be defined. -/
theorem addLabels_eq_error (refused : addLabels line labels b = .error e b') :
    ∃ kept, Leaves b line labels e kept ∧ addLabels line kept b = .ok () b' := by
  by_cases closed : b.opened? = none
  · obtain ⟨rfl, rfl⟩ := addLabels_closed refused closed
    exact ⟨[], .none (by simp), rfl⟩
  · obtain ⟨kept, label, behind, rfl, rfl, fresh, known, rfl⟩ := addLabels_opened refused closed
    exact ⟨kept, .front fresh known, addLabels_eq_ok.2 ⟨by simp [closed], fresh, rfl⟩⟩

theorem addStatement_eq_error (refused : addStatement line s b = .error e b') :
    b.opened? = none ∧ b' = b ∧ ∀ label n, e ≠ .duplicateLabel label n := by
  unfold addStatement at refused
  split at refused
  · next closed => cases s <;> cases refused <;> simpa using closed
  · simp at refused

theorem openSection_eq_error (refused : b.openSection line name labeled operand? = .error e b') :
    b' = b ∧ ∀ label n, e ≠ .duplicateLabel label n := by
  unfold openSection at refused
  split at refused
  · cases refused
    simp
  · split at refused
    · cases refused
      simp
    · split at refused
      · split at refused
        · simp at refused
        · cases refused
          simp
      · cases refused
        simp

theorem closeSection_eq_error (refused : b.closeSection line name labeled operand? = .error e b') :
    b' = b ∧ ∀ label n, e ≠ .duplicateLabel label n := by
  unfold closeSection at refused
  split at refused
  · cases refused
    simp
  · split at refused
    · cases refused
      simp
    · split at refused
      · cases refused
        simp
      · simp at refused

/-- Labels stand only in an open section, so behind them a statement is not refused. -/
theorem addContents_eq_error {contents : LineContents}
    (refused : b.addContents line contents = .error e b') :
    ∃ kept, Leaves b line contents.labels e kept ∧ addLabels line kept b = .ok () b' := by
  unfold addContents at refused
  split at refused
  · next atLabel =>
      cases refused
      exact addLabels_eq_error atLabel
  · next added =>
      split at refused
      · simp at refused
      · obtain ⟨closed, rfl, other⟩ := addStatement_eq_error refused
        obtain ⟨need, -, rfl⟩ := addLabels_eq_ok.1 added
        exact ⟨[], .none other, by rw [need closed, withLabels_nil]; rfl⟩

theorem push_labels (b : Builder) (line : Nat) (labels : List String) :
    b.push line ⟨labels, none⟩ = addLabels line labels b := by
  have plain : b.push line ⟨labels, none⟩ = b.addContents line ⟨labels, none⟩ := by
    unfold push
    cases b.policy <;> rfl
  rw [plain, addContents]
  cases addLabels line labels b <;> rfl

theorem push_eq_error {contents : LineContents} (refused : b.push line contents = .error e b') :
    ∃ kept, Leaves b line contents.labels e kept ∧ b.push line ⟨kept, none⟩ = .ok () b' := by
  simp only [push_labels]
  unfold push at refused
  split at refused
  · dsimp only at refused
    split at refused
    · obtain ⟨rfl, other⟩ := openSection_eq_error refused
      exact ⟨[], .none other, rfl⟩
    · split at refused
      · obtain ⟨rfl, other⟩ := closeSection_eq_error refused
        exact ⟨[], .none other, rfl⟩
      · exact addContents_eq_error refused
  · exact addContents_eq_error refused

end Refused

/-- A line that is refused changes nothing, or adds just the labels in front of a duplicate. Either
    way the builder goes on as if the line had been these labels. -/
theorem push_refused {b b' : Builder} {line : Nat} {contents : LineContents} {e : SemanticError}
    (refused : b.push line contents = .error e b') :
    ∃ kept, Leaves b line contents.labels e kept ∧
      b' = { b with defined := b.defined.insertAll kept, pending := b.pending ++ kept } ∧
      (b' = b ↔ kept = []) ∧ b.push line ⟨kept, none⟩ = .ok () b' ∧
      ∀ rest, b'.run rest = b.run ((line, ⟨kept, none⟩) :: rest) := by
  obtain ⟨kept, leaves, taken⟩ := push_eq_error refused
  have added := taken
  rw [push_labels, addLabels_eq_ok] at added
  obtain ⟨-, -, rfl⟩ := added
  refine ⟨kept, leaves, rfl, ?_, taken, ?_⟩
  · constructor
    · intro same
      simpa [withLabels] using congrArg Builder.pending same
    · rintro rfl
      exact withLabels_nil
  · intro rest
    simp only [run, pushAll, taken]

/-- The second of two labels is a duplicate. -/
theorem push_refused_halfway : ∃ b b', (start (.implicit 0)).push 1 ⟨["A"], none⟩ = .ok () b ∧
    b.push 2 ⟨["B", "A"], none⟩ = .error (.duplicateLabel "A" 2) b' ∧
    ∃ kept, Leaves b 2 ["B", "A"] (.duplicateLabel "A" 2) kept ∧
      b' = { b with defined := b.defined.insertAll kept, pending := b.pending ++ kept } ∧
      (b' = b ↔ kept = []) ∧ b.push 2 ⟨kept, none⟩ = .ok () b' ∧
      ∀ rest, b'.run rest = b.run ((2, ⟨kept, none⟩) :: rest) := by
  have second : ∃ b b', (start (.implicit 0)).push 1 ⟨["A"], none⟩ = .ok () b ∧
      b.push 2 ⟨["B", "A"], none⟩ = .error (.duplicateLabel "A" 2) b' := ⟨_, _, rfl, rfl⟩
  obtain ⟨b, b', first, refused⟩ := second
  exact ⟨b, b', first, refused, push_refused refused⟩

/-- The label in front of a duplicate stays, and the corrected line is a duplicate itself. -/
theorem push_keeps_front : ∃ b b', (start (.implicit 0)).push 1 ⟨["A"], none⟩ = .ok () b ∧
    b.push 2 ⟨["B", "A"], none⟩ = .error (.duplicateLabel "A" 2) b' ∧
    b'.pending ≠ b.pending ∧ b'.defined ≠ b.defined ∧
    (∃ after, b.push 3 ⟨["B"], some (.instruction ⟨"halt", [], 3⟩)⟩ = .ok () after) ∧
    ∃ after, b'.push 3 ⟨["B"], some (.instruction ⟨"halt", [], 3⟩)⟩ =
      .error (.duplicateLabel "B" 3) after := by
  refine ⟨_, _, rfl, rfl, ?_, ?_, ⟨_, rfl⟩, _, rfl⟩
  · decide
  · decide

/-- The builder that a line leaves, taken or refused. -/
def pass (b : Builder) (entry : Nat × LineContents) : Builder :=
  match b.push entry.1 entry.2 with
  | .ok () b' => b'
  | .error _ b' => b'

/-- The builder that lines leave if errors are passed over. -/
def readOn (b : Builder) (lines : List (Nat × LineContents)) : Builder := lines.foldl pass b

/-- What a builder makes of a line: all of it, or just labels at its front. -/
def Keeps (entry entry' : Nat × LineContents) : Prop :=
  entry' = entry ∨ ∃ kept, kept <+: entry.2.labels ∧ entry' = (entry.1, ⟨kept, none⟩)

theorem Leaves.isPrefix {b : Builder} {line : Nat} {e : SemanticError} {labels kept : List String}
    (h : Leaves b line labels e kept) : kept <+: labels := by
  cases h with
  | none => exact List.nil_prefix
  | front => exact List.prefix_append ..

theorem push_pass (b : Builder) (entry : Nat × LineContents) :
    ∃ entry', Keeps entry entry' ∧ b.push entry'.1 entry'.2 = .ok () (b.pass entry) := by
  unfold pass
  cases taken : b.push entry.1 entry.2 with
  | ok _ b' => exact ⟨entry, .inl rfl, taken⟩
  | error e b' =>
      obtain ⟨kept, leaves, taken⟩ := push_eq_error taken
      exact ⟨_, .inr ⟨kept, leaves.isPrefix, rfl⟩, taken⟩

theorem pushAll_readOn (b : Builder) (lines : List (Nat × LineContents)) :
    ∃ taken, List.Forall₂ Keeps lines taken ∧ b.pushAll taken = .ok () (b.readOn lines) := by
  induction lines generalizing b with
  | nil => exact ⟨[], .nil, rfl⟩
  | cons entry lines ih =>
      obtain ⟨entry', keeps, step⟩ := push_pass b entry
      obtain ⟨taken, all, behind⟩ := ih (b.pass entry)
      refine ⟨entry' :: taken, .cons keeps all, ?_⟩
      rw [pushAll, step]
      exact behind

/-- A source that is read past its errors makes what another source makes without errors: the lines
    that were refused have lost their statements and the labels from the fault on. -/
theorem finish_readOn (policy : SectionPolicy) (lines : List (Nat × LineContents)) :
    ∃ taken, List.Forall₂ Keeps lines taken ∧
      ((start policy).readOn lines).finish = build policy taken := by
  obtain ⟨taken, keeps, all⟩ := pushAll_readOn (start policy) lines
  refine ⟨taken, keeps, ?_⟩
  rw [build, run, all]

end Assembler.Builder
