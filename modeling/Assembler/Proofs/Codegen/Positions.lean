import Assembler.Proofs.Codegen.Refinement

/-! # Where the words of an object stand

Both passes leave the words of a statement behind those of the statements before it, so a position
in an object is a count of words, and the address of a word is the start of its section and that
count.
-/

namespace Assembler

/-- The number of words that statements take. -/
def Target.wordCount (t : Target) (statements : List Statement) : Except CodegenError Nat := do
  let sizes ← statements.mapM fun s => do (← t.resolve s).size s.line
  return sizes.sum

/-- The word at a position of a section, with its address. -/
def Object.cell? (o : Object) (k offset : Nat) : Option (Nat × UInt32) := do
  let s ← o.sections[k]?
  let word ← s.words[offset]?
  return (s.start.toNat + offset, word)

theorem Object.cell?_eq_some_iff {o : Object} {k offset a : Nat} {word : UInt32} :
    o.cell? k offset = some (a, word) ↔ ∃ s, o.sections[k]? = some s ∧
      s.words[offset]? = some word ∧ a = s.start.toNat + offset := by
  simp only [cell?, Option.bind_eq_bind, Option.bind_eq_some_iff, Option.pure_def,
    Option.some.injEq, Prod.mk.injEq]
  constructor
  · rintro ⟨s, found, word, held, rfl, rfl⟩
    exact ⟨s, found, held, rfl⟩
  · rintro ⟨s, found, held, rfl⟩
    exact ⟨s, found, word, held, rfl, rfl⟩

namespace Sized

variable {isa : Isa} {symbols : SymbolTable}

/-- The statement takes as many words as it says. -/
def Exact (item : Sized) : Prop :=
  ∀ (ctx : Context) (pc : Nat) (words : List UInt32),
    ctx.payload pc item.payload = .ok words → words.length = item.size

@[simp] theorem total_cons (item : Sized) (items : List Sized) :
    total (item :: items) = item.size + total items := by
  simp [total]

theorem length_encode {pc : Nat} {items : List Sized} {words : List UInt32}
    (exact : ∀ item ∈ items, item.Exact) (h : encode isa symbols pc items = .ok words) :
    words.length = total items := by
  induction items generalizing pc words with
  | nil =>
      cases h
      rfl
  | cons item items ih =>
      obtain ⟨first, rest, here, behind, rfl⟩ := encode_cons_eq_ok.1 h
      rw [List.length_append, total_cons, exact item List.mem_cons_self _ _ _ here,
        ih (fun x member => exact x (List.mem_cons_of_mem _ member)) behind]

/-- The words of a statement stand behind those of the statements before it. -/
theorem exists_words_of_encode {pc : Nat} {items : List Sized} {all : List UInt32}
    (exact : ∀ item ∈ items, item.Exact) (h : encode isa symbols pc items = .ok all) {i : Nat}
    {item : Sized} (found : items[i]? = some item) :
    ∃ words, (Context.mk isa symbols item.line).payload (pc + total (items.take i)) item.payload =
        .ok words ∧
      ∀ j word, words[j]? = some word → all[total (items.take i) + j]? = some word := by
  induction items generalizing pc all i with
  | nil => cases found
  | cons first items ih =>
      obtain ⟨words, rest, here, behind, rfl⟩ := encode_cons_eq_ok.1 h
      cases i with
      | zero =>
          obtain rfl : first = item := Option.some.inj found
          refine ⟨words, by simpa [total] using here, ?_⟩
          intro j word held
          have inside := (List.getElem?_eq_some_iff.1 held).1
          simpa [total, List.getElem?_append_left inside] using held
      | succ i =>
          obtain ⟨later, encoded, stands⟩ :=
            ih (fun x member => exact x (List.mem_cons_of_mem _ member)) behind found
          refine ⟨later, ?_, ?_⟩
          · rw [List.take_succ_cons, total_cons, ← Nat.add_assoc]
            exact encoded
          · intro j word held
            have size := exact first List.mem_cons_self _ _ _ here
            rw [List.take_succ_cons, total_cons, ← size, Nat.add_assoc, List.getElem?_append_right
              (Nat.le_add_right _ _), Nat.add_sub_cancel_left]
            exact stands j word held

theorem le_of_fit {space pc : Nat} {items : List Sized} (h : fit space pc items = true)
    (filled : 0 < total items) : pc + total items ≤ space := by
  induction items generalizing pc with
  | nil => simp [total] at filled
  | cons item items ih =>
      simp only [fit, Bool.and_eq_true, decide_eq_true_eq] at h
      rw [total_cons] at filled ⊢
      by_cases more : 0 < total items
      · have behind := ih h.2 more
        omega
      · omega

theorem fit_of_total_le {space pc : Nat} {items : List Sized} (h : pc + total items ≤ space) :
    fit space pc items = true := by
  induction items generalizing pc with
  | nil => rfl
  | cons item items ih =>
      rw [total_cons] at h
      simp only [fit, Bool.and_eq_true, decide_eq_true_eq]
      exact ⟨by omega, ih (by omega)⟩

end Sized

namespace Target

variable {t : Target} {asm : Assembly} {obj : Object}

theorem generate_of_apart (passes : (do
      let (draft, sections) ← t.firstPass asm 0 asm.sections ⟨.empty, 0, []⟩
      let sections ← draft.deferred.foldlM (t.complete draft.symbols) sections
      return (⟨draft.symbols, sections⟩ : Object)) = .ok obj)
    (count : obj.sections.length = asm.sections.length)
    (apart : obj.sections.Pairwise ObjectSection.Disjoint) : t.generate asm = .ok obj := by
  simp only [bind_eq_ok, pure_eq_ok] at passes
  obtain ⟨⟨draft, drafts⟩, first, sections, second, rfl⟩ := passes
  have lines : sections.length = (asm.sections.map (·.line)).length := by simpa using count
  have free := (checkOverlap_eq_ok_iff lines).2 apart
  simp only [generate, bind_eq_ok, pure_eq_ok]
  exact ⟨_, first, sections, second, (), free, rfl⟩

theorem exact_of_measure (exact : ∀ a ∈ t.isa.aliases, a.size = a.expansion.length) {s : Statement}
    {item : Sized} (h : t.measure s = .ok item) : item.Exact := by
  obtain ⟨resolved, sized, -⟩ := measure_eq_ok.1 h
  intro ctx pc words encoded
  exact Context.length_payload (exact_of_resolve exact resolved) sized encoded

theorem exact_of_measured (exact : ∀ a ∈ t.isa.aliases, a.size = a.expansion.length)
    {statements : List Statement} {items : List Sized}
    (h : List.Forall₂ (fun s item => t.measure s = .ok item) statements items) :
    ∀ item ∈ items, item.Exact := by
  intro item member
  obtain ⟨s, -, sized⟩ := exists_mem_of_forall₂ h member
  exact exact_of_measure exact sized

theorem wordCount_of_measured {statements : List Statement} {items : List Sized}
    (h : List.Forall₂ (fun s item => t.measure s = .ok item) statements items) :
    t.wordCount statements = .ok (Sized.total items) := by
  have sizes : List.Forall₂ (fun s n => (do (← t.resolve s).size s.line) = Except.ok n) statements
      (items.map (·.size)) := by
    rw [List.forall₂_map_right_iff]
    refine h.imp ?_
    intro s item measured
    obtain ⟨resolved, sized, -⟩ := measure_eq_ok.1 measured
    exact bind_eq_ok.2 ⟨item.payload, resolved, sized⟩
  simp only [wordCount, bind_eq_ok, pure_eq_ok]
  exact ⟨_, mapM_eq_ok.2 sizes, rfl⟩

theorem Laid.exists_section {layouts : List Layout} (h : t.Laid asm layouts obj) {k : Nat}
    {s : Section} (found : asm.sections[k]? = some s) : ∃ l placed, layouts[k]? = some l ∧
      obj.sections[k]? = some placed ∧ l.start = s.start ∧ placed.start = s.start ∧
      List.Forall₂ (fun s item => t.measure s = .ok item) s.statements l.items ∧
      Sized.encode t.isa obj.symbols s.start.toNat l.items = .ok placed.words := by
  obtain ⟨l, layout, measured⟩ := exists_getElem?_of_forall₂ h.measured found
  obtain ⟨placed, section', encoded⟩ := exists_getElem?_of_forall₂ h.encoded layout
  obtain ⟨start, statements⟩ := layout_eq_ok.1 measured
  obtain ⟨words, filled, rfl⟩ := Layout.encode_eq_ok.1 encoded
  exact ⟨l, ⟨l.start, words⟩, layout, section', start, start, statements, start ▸ filled⟩

end Target

end Assembler
