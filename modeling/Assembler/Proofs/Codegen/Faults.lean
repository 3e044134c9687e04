import Assembler.Proofs.Codegen.Decode
import Assembler.Proofs.Faults
import Assembler.Proofs.Outcome

/-! # Errors of code generation name their origin

Every error points to the line of a statement or names a section, and none is a fault. An encoding
is chosen because it accepts the operands, so encoding finds an operand of the right kind for every
field. A directive is chosen by the kind of its operand, and its action has to go with that kind. No
error in between depends on the state of the generator, so that this holds of both passes on any
state.
-/

namespace Assembler

/-! ### Where deferred statements stand -/

/-- The statement `d` waits for a label, at the place of an item of section `k`, whose words are
    written from `offset` on. -/
structure Deferred.At (d : Deferred) (k offset size space : Nat) (item : Sized) : Prop where
  sectionIndex : d.sectionIndex = k
  payload : d.payload = item.payload
  line : d.line = item.line
  inside : d.offset + item.size ≤ offset + size
  space : d.pc + item.size ≤ space

theorem Drafts.deferred_at {isa : Isa} {symbols : SymbolTable} {k offset pc space : Nat}
    {items : List Sized} {words : List UInt32} {deferred : List Deferred}
    (h : Drafts isa symbols k offset pc items words deferred)
    (fits : Sized.fit space pc items = true) :
    ∀ d ∈ deferred, ∃ item ∈ items, d.At k offset words.length space item := by
  induction h with
  | nil => simp
  | @final offset pc item items words rest deferred _ length _ ih =>
      simp only [Sized.fit, Bool.and_eq_true, decide_eq_true_eq] at fits
      intro d member
      obtain ⟨later, listed, place⟩ := ih fits.2 d member
      refine ⟨later, List.mem_cons_of_mem _ listed, { place with inside := ?_ }⟩
      rw [List.length_append, length, ← Nat.add_assoc]
      exact place.inside
  | @waiting offset pc item items rest deferred _ _ ih =>
      simp only [Sized.fit, Bool.and_eq_true, decide_eq_true_eq] at fits
      intro d member
      rcases List.mem_cons.1 member with rfl | member
      · refine ⟨item, List.mem_cons_self, ⟨rfl, rfl, rfl, ?_, fits.1⟩⟩
        rw [List.length_append, List.length_replicate]
        exact Nat.add_le_add_left (Nat.le_add_right _ _) offset
      · obtain ⟨later, listed, place⟩ := ih fits.2 d member
        refine ⟨later, List.mem_cons_of_mem _ listed, { place with inside := ?_ }⟩
        rw [List.length_append, List.length_replicate, ← Nat.add_assoc]
        exact place.inside

theorem DraftsAll.deferred_at {isa : Isa} {symbols : SymbolTable} {k space : Nat}
    {layouts : List Layout} {sections : List ObjectSection} {deferred : List Deferred}
    (h : DraftsAll isa symbols k layouts sections deferred)
    (fits : ∀ l ∈ layouts, Sized.fit space l.start.toNat l.items = true) :
    ∀ d ∈ deferred, ∃ i l s item, layouts[i]? = some l ∧ sections[i]? = some s ∧
      item ∈ l.items ∧ d.At (k + i) 0 s.words.length space item := by
  induction h with
  | nil => simp
  | @cons k l layouts words sections deferred later head _ ih =>
      obtain ⟨first, others⟩ := List.forall_mem_cons.1 fits
      intro d member
      rcases List.mem_append.1 member with here | there
      · obtain ⟨item, listed, place⟩ := head.deferred_at first d here
        exact ⟨0, l, ⟨l.start, words⟩, item, rfl, rfl, listed, place⟩
      · obtain ⟨i, l', s, item, layout, found, listed, place⟩ := ih others d there
        refine ⟨i + 1, l', s, item, layout, found, listed, ?_⟩
        rwa [Nat.add_assoc, Nat.add_comm 1 i] at place

theorem Target.deferred_of_firstPass {t : Target} {asm : Assembly} {draft : Draft}
    {sections : List ObjectSection} (exact : ∀ a ∈ t.isa.aliases, a.size = a.expansion.length)
    (first : t.firstPass asm 0 asm.sections ⟨.empty, 0, []⟩ = .ok (draft, sections)) :
    ∀ d ∈ draft.deferred, ∃ placed ∈ asm.sections, ∃ s ∈ placed.statements, ∃ object size,
      s.line = d.line ∧ t.resolve s = .ok d.payload ∧
      d.payload.size d.line = .ok size ∧ d.pc + size ≤ t.isa.space ∧
      sections[d.sectionIndex]? = some object ∧ d.offset + size ≤ object.words.length := by
  obtain ⟨layouts, measured⟩ := measured_of_firstPass first
  obtain ⟨-, -, -, fits, deferred, noted, drafts⟩ := firstPass_run exact measured (Nat.zero_le _)
    (Binds.start asm layouts) (Nat.zero_le _) first
  intro d member
  rw [noted, List.nil_append] at member
  obtain ⟨i, l, object, item, layout, found, listed, place⟩ := drafts.deferred_at fits d member
  obtain ⟨placed, known, measured⟩ := exists_mem_of_forall₂ measured (List.mem_of_getElem? layout)
  obtain ⟨-, statements⟩ := layout_eq_ok.1 measured
  obtain ⟨s, stands, measured⟩ := exists_mem_of_forall₂ statements listed
  obtain ⟨resolved, sized, line⟩ := measure_eq_ok.1 measured
  refine ⟨placed, known, s, stands, object, item.size, ?_, ?_, ?_, place.space, ?_, ?_⟩
  · rw [place.line, line]
  · rw [place.payload, resolved]
  · rw [place.payload, place.line, line, sized]
  · rw [place.sectionIndex, Nat.zero_add, found]
  · have inside := place.inside
    omega

/-! ### Origins of errors -/

/-- An error that points to a line. It is no fault then. -/
def CodegenError.On (line : Nat) (e : CodegenError) : Prop := e.line? = some line

theorem CodegenError.On.fault? {line : Nat} {e : CodegenError} (h : e.On line) :
    e.fault? = none := by
  cases e with
  | fault f => cases h
  | _ => rfl

/-- A label that is missing, or an error that points to a line. -/
def EncodeStop.On (line : Nat) : EncodeStop → Prop
  | .unbound _ => True
  | .failed e => e.On line

/-- Errors that point to a statement of sections or name a section. -/
inductive CodegenError.Names (sections : List Section) : CodegenError → Prop where
  | statement {e : CodegenError} {placed : Section} {s : Statement} (member : placed ∈ sections)
      (listed : s ∈ placed.statements) (on : e.On s.line) : Names sections e
  | pastEnd {placed : Section} (member : placed ∈ sections) :
      Names sections (.pastEndOfMemory placed.start placed.line)
  | overlap {placed : Section} (member : placed ∈ sections) (first second : UInt32) :
      Names sections (.overlappingSections first second placed.line)

namespace CodegenError.Names

variable {sections : List Section} {e : CodegenError}

theorem fault? (h : e.Names sections) : e.fault? = none := by
  cases h with
  | statement _ _ on => exact on.fault?
  | pastEnd => rfl
  | overlap => rfl

/-- A line that an error points to is that of a statement, or that of a directive which opened a
    section. -/
theorem line? (h : e.Names sections) {n : Nat} (points : e.line? = some n) :
    ∃ placed ∈ sections, (placed.line = n ∧ n ≠ 0) ∨ ∃ s ∈ placed.statements, s.line = n := by
  cases h with
  | statement member listed on =>
      exact ⟨_, member, .inr ⟨_, listed, Option.some.inj (on.symm.trans points)⟩⟩
  | pastEnd member =>
      simp only [CodegenError.line?, Option.ite_none_left_eq_some, Option.some.injEq] at points
      exact ⟨_, member, .inl ⟨points.2, points.2 ▸ points.1⟩⟩
  | overlap member =>
      simp only [CodegenError.line?, Option.ite_none_left_eq_some, Option.some.injEq] at points
      exact ⟨_, member, .inl ⟨points.2, points.2 ▸ points.1⟩⟩

theorem mono {more : List Section} (h : e.Names sections) (subset : ∀ s ∈ sections, s ∈ more) :
    e.Names more := by
  cases h with
  | statement member listed on => exact .statement (subset _ member) listed on
  | pastEnd member => exact .pastEnd (subset _ member)
  | overlap member first second => exact .overlap (subset _ member) first second

end CodegenError.Names

/-- The action of a directive is one for operands of its kind. -/
def DirectiveSpec.Coherent (spec : DirectiveSpec) : Prop :=
  (spec.action, spec.operand) ∈
    [(.word, .integer), (.word, .label), (.block, .integer), (.stringz, .string)]

instance : DecidablePred DirectiveSpec.Coherent :=
  fun _ => inferInstanceAs (Decidable (_ ∈ _))

/-- The operands of an instruction are accepted by its encoding. -/
def Payload.Accepted : Payload → Prop
  | .instruction encoding operands => encoding.accepts operands = true
  | _ => True

theorem raisesOnly_rangeFailure {α : Type} (text : String) (line : Nat) (x : Except RangeError α) :
    RaisesOnly (CodegenError.On line) (rangeFailure text line x) := by
  cases x with
  | ok value => exact raisesOnly_ok value
  | error cause => exact raisesOnly_error.2 rfl

theorem Payload.raisesOnly_size (line : Nat) (p : Payload) :
    RaisesOnly (CodegenError.On line) (p.size line) := by
  cases p with
  | block count => exact (raisesOnly_rangeFailure _ _ _).bind fun _ _ => raisesOnly_pure _
  | _ => exact raisesOnly_ok _

namespace Context

variable {ctx : Context} {line pc : Nat} {operands : List Operand}

theorem raisesOnly_check {α : Type} {x : Except CodegenError α}
    (h : RaisesOnly (CodegenError.On line) x) : RaisesOnly (EncodeStop.On line) (check x) := by
  cases x with
  | ok value => exact raisesOnly_ok value
  | error e =>
      have on : e.On line := raisesOnly_error.1 h
      exact raisesOnly_error.2 on

theorem raisesOnly_address (label : String) :
    RaisesOnly (EncodeStop.On line) (ctx.address label) := by
  unfold address
  split
  · exact raisesOnly_ok _
  · exact raisesOnly_error.2 trivial

theorem raisesOnly_immediate {operand : Operand} (h : Slot.immediate.accepts operand = true) :
    RaisesOnly (EncodeStop.On line) (ctx.immediate pc operand) := by
  cases operand with
  | integer value => exact raisesOnly_ok _
  | label label => exact (raisesOnly_address label).bind fun _ _ => raisesOnly_pure _
  | register sigil num => cases h
  | string text => cases h

theorem delivers_field (ctx : Context) (pc : Nat) {f : Field} {slots : List Slot}
    (h : Slot.acceptAll (f.slot?.toList ++ slots) operands = true) :
    Delivers (EncodeStop.On ctx.line) (fun filled => Slot.acceptAll slots filled.2 = true)
      (ctx.field pc operands f) := by
  cases f with
  | const bits value => exact delivers_ok.2 h
  | register bits sigil =>
      obtain ⟨operand, rest, rfl, first, others⟩ := Slot.acceptAll_cons.1 h
      cases operand with
      | register sigil' num =>
          exact (raisesOnly_check (raisesOnly_rangeFailure _ _ _)).delivers_bind fun _ =>
            delivers_pure.2 others
      | integer value => cases first
      | label name => cases first
      | string text => cases first
  | immediate bits signed =>
      obtain ⟨operand, rest, rfl, first, others⟩ := Slot.acceptAll_cons.1 h
      exact (raisesOnly_immediate first).delivers_bind fun _ =>
        (raisesOnly_check (raisesOnly_rangeFailure _ _ _)).delivers_bind fun _ =>
          delivers_pure.2 others

theorem raisesOnly_fields {fs : List Field}
    (h : Slot.acceptAll (fs.filterMap Field.slot?) operands = true) :
    RaisesOnly (EncodeStop.On ctx.line) (ctx.fields pc fs operands) := by
  induction fs generalizing operands with
  | nil => exact raisesOnly_ok _
  | cons f fs ih =>
      have split : (f :: fs).filterMap Field.slot? =
          f.slot?.toList ++ fs.filterMap Field.slot? := by
        cases slot : f.slot? <;> simp [slot]
      rw [split] at h
      obtain ⟨first, behind⟩ := delivers_field ctx pc h
      refine first.bind fun filled found => ?_
      exact (ih (behind filled found)).bind fun _ _ => raisesOnly_pure _

theorem raisesOnly_expansion (parts : List (String × List Operand)) (pc : Nat) :
    RaisesOnly (EncodeStop.On ctx.line) (ctx.expansion pc parts) := by
  induction parts generalizing pc with
  | nil => exact raisesOnly_ok _
  | cons part parts ih =>
      obtain ⟨op, operands⟩ := part
      unfold expansion
      split
      · exact raisesOnly_error.2 rfl
      · next encoding found =>
          have accepted := List.find?_some found
          exact (raisesOnly_fields accepted).bind fun _ _ =>
            (ih (pc + 1)).bind fun _ _ => raisesOnly_pure _

theorem raisesOnly_dataWord (text : String) (value : Int) :
    RaisesOnly (EncodeStop.On ctx.line) (ctx.dataWord text value) :=
  raisesOnly_check (raisesOnly_rangeFailure _ _ _)

theorem raisesOnly_payload (ctx : Context) (pc : Nat) {p : Payload} (h : p.Accepted) :
    RaisesOnly (EncodeStop.On ctx.line) (ctx.payload pc p) := by
  cases p with
  | instruction encoding operands =>
      exact (raisesOnly_fields h).bind fun _ _ => raisesOnly_pure _
  | expansion used operands => exact raisesOnly_expansion _ pc
  | word value => exact (raisesOnly_dataWord _ value).bind fun _ _ => raisesOnly_pure _
  | address label =>
      exact (raisesOnly_address label).bind fun _ _ =>
        (raisesOnly_dataWord _ _).bind fun _ _ => raisesOnly_pure _
  | block count => exact raisesOnly_ok _
  | text content =>
      exact (RaisesOnly.mapM fun c _ => raisesOnly_dataWord _ _).bind fun _ _ => raisesOnly_pure _

end Context

namespace Target

variable {t : Target}

theorem delivers_payloadOf {Q : CodegenError → Prop} {spec : DirectiveSpec}
    (coherent : spec.Coherent) {operand : Operand} (kind : spec.operand = operand.kind) :
    Delivers Q Payload.Accepted (payloadOf spec.action operand) := by
  simp only [DirectiveSpec.Coherent, kind, List.mem_cons, Prod.mk.injEq, List.not_mem_nil,
    or_false] at coherent
  rcases coherent with ⟨action, kind⟩ | ⟨action, kind⟩ | ⟨action, kind⟩ | ⟨action, kind⟩ <;>
    cases operand <;> cases kind <;> rw [action] <;> exact delivers_ok.2 trivial

theorem delivers_resolve (coherent : ∀ spec ∈ t.directives, spec.Coherent) (s : Statement) :
    Delivers (CodegenError.On s.line) Payload.Accepted (t.resolve s) := by
  cases s with
  | instruction i =>
      simp only [resolve, resolveInstruction]
      split
      · next encoding found =>
          have accepted := List.find?_some found
          exact delivers_ok.2 accepted
      · split
        · exact delivers_ok.2 trivial
        · exact delivers_error.2 rfl
  | directive d =>
      simp only [resolve, resolveDirective]
      split
      · exact delivers_error.2 rfl
      · next operand _ =>
          split
          · next spec found =>
              have matched := List.find?_some found
              simp only [Bool.and_eq_true, beq_iff_eq] at matched
              exact delivers_payloadOf (coherent spec (List.mem_of_find?_eq_some found)) matched.2
          · exact delivers_error.2 rfl

theorem raisesOnly_bind (place : Place) (index pc : Nat) (symbols : SymbolTable) :
    RaisesOnly (· = place.pastEnd) (place.bind index pc symbols) := by
  unfold Place.bind
  split
  · exact raisesOnly_ok _
  · split
    · exact raisesOnly_ok _
    · exact raisesOnly_error.2 rfl

theorem raisesOnly_placeStatement (coherent : ∀ spec ∈ t.directives, spec.Coherent) (place : Place)
    (index : Nat) (s : Statement) (p : Placement) :
    RaisesOnly (fun e => e.On s.line ∨ e = place.pastEnd) (t.placeStatement place index s p) := by
  obtain ⟨resolves, accepted⟩ := delivers_resolve coherent s
  refine ((raisesOnly_bind _ _ _ _).imp fun _ => .inr).bind fun symbols _ => ?_
  refine (resolves.imp fun _ => .inl).bind fun payload resolved => ?_
  refine ((payload.raisesOnly_size _).imp fun _ => .inl).bind fun size _ => ?_
  have encodes := Context.raisesOnly_payload ⟨t.isa, symbols, s.line⟩ p.pc
    (accepted payload resolved)
  dsimp only
  refine .guarded (.inr rfl) (.guarded (.inl rfl) ?_)
  split
  · exact raisesOnly_pure _
  · exact raisesOnly_pure _
  · next e stopped => exact raisesOnly_throw.2 (.inl (encodes _ stopped))

theorem raisesOnly_placeStatements (coherent : ∀ spec ∈ t.directives, spec.Coherent)
    (place : Place) (statements : List Statement) (index : Nat) (p : Placement) :
    RaisesOnly (fun e => (∃ s ∈ statements, e.On s.line) ∨ e = place.pastEnd)
      (t.placeStatements place index statements p) := by
  induction statements generalizing index p with
  | nil =>
      exact ((raisesOnly_bind _ _ _ _).imp fun _ => .inr).bind fun _ _ => raisesOnly_pure _
  | cons s statements ih =>
      refine RaisesOnly.bind ?_ fun p' _ => (ih (index + 1) p').imp ?_
      · refine (raisesOnly_placeStatement coherent place index s p).imp fun e => ?_
        exact Or.imp_left fun on => ⟨s, List.mem_cons_self, on⟩
      · rintro e (⟨later, listed, on⟩ | past)
        · exact .inl ⟨later, List.mem_cons_of_mem _ listed, on⟩
        · exact .inr past

theorem raisesOnly_firstPass (coherent : ∀ spec ∈ t.directives, spec.Coherent) (asm : Assembly)
    (sections : List Section) (index : Nat) (draft : Draft) :
    RaisesOnly (CodegenError.Names sections) (t.firstPass asm index sections draft) := by
  induction sections generalizing index draft with
  | nil => exact raisesOnly_ok _
  | cons s sections ih =>
      refine RaisesOnly.bind ?_ fun placed _ => ?_
      · refine (raisesOnly_placeStatements coherent _ _ _ _).imp ?_
        rintro e (⟨statement, listed, on⟩ | rfl)
        · exact .statement List.mem_cons_self listed on
        · exact .pastEnd List.mem_cons_self
      · refine ((ih (index + 1) placed.draft).imp fun e names => ?_).bind fun _ _ =>
          raisesOnly_pure _
        exact names.mono fun s member => List.mem_cons_of_mem _ member

theorem raisesOnly_complete {d : Deferred} (accepted : d.payload.Accepted) (symbols : SymbolTable)
    (sections : List ObjectSection) :
    RaisesOnly (CodegenError.On d.line) (t.complete symbols sections d) := by
  have encodes := Context.raisesOnly_payload ⟨t.isa, symbols, d.line⟩ d.pc accepted
  unfold complete
  split
  · exact raisesOnly_ok _
  · exact raisesOnly_error.2 rfl
  · next e stopped => exact raisesOnly_error.2 (encodes _ stopped)

theorem raisesOnly_sweep (furthest : Extent) (extents : List Extent) :
    RaisesOnly (fun e => ∃ extent ∈ extents, ∃ first second,
      e = .overlappingSections first second extent.line) (Extent.sweep furthest extents) := by
  induction extents generalizing furthest with
  | nil => exact raisesOnly_ok _
  | cons e extents ih =>
      unfold Extent.sweep
      split
      · exact raisesOnly_error.2 ⟨e, List.mem_cons_self, _, _, rfl⟩
      · refine (ih _).imp ?_
        rintro error ⟨extent, member, named⟩
        exact ⟨extent, List.mem_cons_of_mem _ member, named⟩

theorem raisesOnly_checkOverlap {sections : List Section} (objects : List ObjectSection) :
    RaisesOnly (CodegenError.Names sections)
      (checkOverlap (objects.zip (sections.map (·.line)))) := by
  unfold checkOverlap Extent.checkAll
  split
  · exact raisesOnly_ok _
  · next first rest sorted =>
      refine (raisesOnly_sweep first rest).imp ?_
      rintro e ⟨extent, member, low, high, rfl⟩
      have listed : extent ∈ first :: rest := List.mem_cons_of_mem _ member
      rw [← sorted, List.mem_mergeSort] at listed
      obtain ⟨⟨object, line⟩, paired, rfl⟩ := List.mem_map.1 listed
      have known := (List.of_mem_zip (List.mem_filter.1 paired).1).2
      obtain ⟨placed, given, rfl⟩ := List.mem_map.1 known
      exact .overlap given low high

theorem raisesOnly_generate (exact : ∀ a ∈ t.isa.aliases, a.size = a.expansion.length)
    (coherent : ∀ spec ∈ t.directives, spec.Coherent) (asm : Assembly) :
    RaisesOnly (CodegenError.Names asm.sections) (t.generate asm) := by
  refine (raisesOnly_firstPass coherent asm _ _ _).bind fun ⟨draft, sections⟩ first => ?_
  have completes : ∀ d ∈ draft.deferred, ∀ sections,
      RaisesOnly (CodegenError.Names asm.sections) (t.complete draft.symbols sections d) := by
    intro d member sections
    obtain ⟨placed, known, s, listed, _, _, line, resolved, -⟩ :=
      deferred_of_firstPass exact first d member
    have accepted := (delivers_resolve coherent s).2 _ resolved
    exact (raisesOnly_complete accepted _ _).imp fun e on => .statement known listed (line ▸ on)
  exact (RaisesOnly.foldlM completes sections).bind fun _ _ =>
    (raisesOnly_checkOverlap _).bind fun _ _ => raisesOnly_pure _

theorem faultless_generate (exact : ∀ a ∈ t.isa.aliases, a.size = a.expansion.length)
    (coherent : ∀ spec ∈ t.directives, spec.Coherent) (asm : Assembly) :
    Faultless CodegenError.fault? (t.generate asm) :=
  (raisesOnly_generate exact coherent asm).imp fun _ names => names.fault?

end Target

end Assembler
