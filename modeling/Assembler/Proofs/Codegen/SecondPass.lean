import Assembler.Proofs.Codegen.Plain

/-! # What is left to the second pass

A section of the first pass has final words and zeros. Every stretch of zeros belongs to one
deferred statement, has its size and stands where it has been noted. Encoding the deferred statements
in order turns such a draft into the words of the plain assembler, and stops where that one does.
-/

namespace Assembler

/-- A draft of statements that start at an address: words, the first of which stands at `offset` in
    section `k`, and the deferred statements whose words are still zeros. -/
inductive Drafts (isa : Isa) (symbols : SymbolTable) (k : Nat) :
    (offset pc : Nat) → List Sized → List UInt32 → List Deferred → Prop where
  | nil {offset pc : Nat} : Drafts isa symbols k offset pc [] [] []
  | final {offset pc : Nat} {item : Sized} {items : List Sized} {words rest : List UInt32}
      {deferred : List Deferred}
      (encoded : (Context.mk isa symbols item.line).payload pc item.payload = .ok words)
      (length : words.length = item.size)
      (tail : Drafts isa symbols k (offset + item.size) (pc + item.size) items rest deferred) :
      Drafts isa symbols k offset pc (item :: items) (words ++ rest) deferred
  | waiting {offset pc : Nat} {item : Sized} {items : List Sized} {rest : List UInt32}
      {deferred : List Deferred}
      (length : ∀ words, (Context.mk isa symbols item.line).payload pc item.payload = .ok words →
        words.length = item.size)
      (tail : Drafts isa symbols k (offset + item.size) (pc + item.size) items rest deferred) :
      Drafts isa symbols k offset pc (item :: items) (List.replicate item.size 0 ++ rest)
        (⟨k, offset, pc, item.line, item.payload⟩ :: deferred)

/-- Drafts of all sections from the `k`th on. -/
inductive DraftsAll (isa : Isa) (symbols : SymbolTable) :
    (k : Nat) → List Layout → List ObjectSection → List Deferred → Prop where
  | nil {k : Nat} : DraftsAll isa symbols k [] [] []
  | cons {k : Nat} {l : Layout} {layouts : List Layout} {words : List UInt32}
      {sections : List ObjectSection} {deferred later : List Deferred}
      (head : Drafts isa symbols k 0 l.start.toNat l.items words deferred)
      (tail : DraftsAll isa symbols (k + 1) layouts sections later) :
      DraftsAll isa symbols k (l :: layouts) (⟨l.start, words⟩ :: sections) (deferred ++ later)

theorem overwrite_append {before new old after : List UInt32} (same : new.length = old.length) :
    overwrite before.length new (before ++ (old ++ after)) = before ++ (new ++ after) := by
  have all : new.take (old ++ after).length = new := List.take_of_length_le (by simp [same])
  simp only [overwrite, List.drop_left, List.take_left, all]
  rw [same, List.drop_left, List.append_assoc]

theorem Sized.encode_cons_eq_ok {isa : Isa} {symbols : SymbolTable} {pc : Nat} {item : Sized}
    {items : List Sized} {all : List UInt32} :
    Sized.encode isa symbols pc (item :: items) = .ok all ↔ ∃ words rest,
      (Context.mk isa symbols item.line).payload pc item.payload = .ok words ∧
      Sized.encode isa symbols (pc + item.size) items = .ok rest ∧ all = words ++ rest := by
  simp only [Sized.encode, bind_eq_ok, pure_eq_ok]
  constructor
  · rintro ⟨words, encoded, rest, others, rfl⟩
    exact ⟨words, rest, encoded, others, rfl⟩
  · rintro ⟨words, rest, encoded, others, rfl⟩
    exact ⟨words, encoded, rest, others, rfl⟩

theorem Layout.encode_eq_ok {isa : Isa} {symbols : SymbolTable} {l : Layout} {s : ObjectSection} :
    l.encode isa symbols = .ok s ↔ ∃ words,
      Sized.encode isa symbols l.start.toNat l.items = .ok words ∧ s = ⟨l.start, words⟩ := by
  simp only [Layout.encode, bind_eq_ok, pure_eq_ok]
  exact exists_congr fun words => and_congr_right fun _ => eq_comm

theorem modify_eq_set_of_getElem? {α : Type} {xs : List α} {i : Nat} {a : α} (f : α → α)
    (found : xs[i]? = some a) : xs.modify i f = xs.set i (f a) := by
  obtain ⟨inside, rfl⟩ := List.getElem?_eq_some_iff.1 found
  rw [List.modify_eq_take_cons_drop inside, List.set_eq_take_append_cons_drop, if_pos inside]

variable {t : Target} {symbols : SymbolTable}

theorem Target.complete_eq_ok {sections sections' : List ObjectSection} {d : Deferred} :
    t.complete symbols sections d = .ok sections' ↔ ∃ words,
      (Context.mk t.isa symbols d.line).payload d.pc d.payload = .ok words ∧
      sections' = sections.modify d.sectionIndex
        fun s => { s with words := overwrite d.offset words s.words } := by
  simp only [Target.complete]
  split
  · next words encoded => simp [encoded, eq_comm]
  · next label stopped => simp [stopped]
  · next e stopped => simp [stopped]

theorem Drafts.complete {k offset pc : Nat} {items : List Sized} {words : List UInt32}
    {deferred : List Deferred} (h : Drafts t.isa symbols k offset pc items words deferred)
    {before : List UInt32} (length : before.length = offset) {start : UInt32}
    {sections sections' : List ObjectSection} (found : sections[k]? = some ⟨start, before ++ words⟩) :
    deferred.foldlM (t.complete symbols) sections = .ok sections' ↔ ∃ all,
      Sized.encode t.isa symbols pc items = .ok all ∧
      sections' = sections.set k ⟨start, before ++ all⟩ := by
  induction h generalizing before sections with
  | nil =>
      have same : sections.set k ⟨start, before ++ []⟩ = sections := by
        obtain ⟨inside, here⟩ := List.getElem?_eq_some_iff.1 found
        rw [← here, List.set_getElem_self]
      simp only [List.foldlM_nil, pure_eq_ok, Sized.encode, Except.ok.injEq, exists_eq_left', same]
      exact eq_comm
  | @final offset pc item items words rest deferred encoded size tail ih =>
      rw [← List.append_assoc] at found
      rw [ih (by simp [length, size]) found]
      simp only [Sized.encode_cons_eq_ok, encoded, Except.ok.injEq]
      constructor
      · rintro ⟨all, others, rfl⟩
        exact ⟨words ++ all, ⟨words, all, rfl, others, rfl⟩, by rw [List.append_assoc]⟩
      · rintro ⟨_, ⟨_, all, rfl, others, rfl⟩, rfl⟩
        exact ⟨all, others, by rw [List.append_assoc]⟩
  | @waiting offset pc item items rest deferred size tail ih =>
      subst length
      -- once its words are written, the statement is like one that did not wait
      have written : ∀ words,
          (Context.mk t.isa symbols item.line).payload pc item.payload = .ok words →
          (sections.modify k fun s => { s with words := overwrite before.length words s.words }) =
            sections.set k ⟨start, (before ++ words) ++ rest⟩ := by
        intro words encoded
        rw [modify_eq_set_of_getElem? _ found, overwrite_append (by simp [size _ encoded]),
          List.append_assoc]
      have inside := (List.getElem?_eq_some_iff.1 found).1
      simp only [foldlM_cons_eq_ok, Target.complete_eq_ok, Sized.encode_cons_eq_ok]
      constructor
      · rintro ⟨_, ⟨words, encoded, rfl⟩, rest⟩
        rw [written words encoded, ih (by simp [size _ encoded])
          (List.getElem?_set_self (by simpa using inside))] at rest
        obtain ⟨all, others, rfl⟩ := rest
        exact ⟨words ++ all, ⟨words, all, encoded, others, rfl⟩, by simp⟩
      · rintro ⟨_, ⟨words, all, encoded, others, rfl⟩, rfl⟩
        refine ⟨_, ⟨words, encoded, rfl⟩, ?_⟩
        rw [written words encoded, ih (by simp [size _ encoded])
          (List.getElem?_set_self (by simpa using inside))]
        exact ⟨all, others, by simp⟩

theorem DraftsAll.complete {k : Nat} {layouts : List Layout} {sections : List ObjectSection}
    {deferred : List Deferred} (h : DraftsAll t.isa symbols k layouts sections deferred)
    {done result : List ObjectSection} (length : done.length = k) :
    deferred.foldlM (t.complete symbols) (done ++ sections) = .ok result ↔ ∃ all,
      layouts.mapM (Layout.encode t.isa symbols) = .ok all ∧ result = done ++ all := by
  induction h generalizing done with
  | nil => 
      simp only [List.foldlM_nil, pure_eq_ok, List.mapM_nil, exists_eq_left']
      exact eq_comm
  | @cons k l layouts words sections deferred later head tail ih =>
      subst length
      have found : (done ++ ⟨l.start, words⟩ :: sections)[done.length]? =
          some ⟨l.start, [] ++ words⟩ := by simp
      have replaced : ∀ all : List UInt32, (done ++ ⟨l.start, words⟩ :: sections).set done.length
          ⟨l.start, [] ++ all⟩ = (done ++ [⟨l.start, all⟩]) ++ sections := by simp
      simp only [List.foldlM_append, bind_eq_ok, head.complete rfl found, replaced, List.mapM_cons,
        Layout.encode_eq_ok, pure_eq_ok]
      constructor
      · rintro ⟨_, ⟨words, encoded, rfl⟩, rest⟩
        obtain ⟨all, others, rfl⟩ := (ih (by simp)).1 rest
        exact ⟨⟨l.start, words⟩ :: all, ⟨_, ⟨words, encoded, rfl⟩, all, others, rfl⟩, by simp⟩
      · rintro ⟨_, ⟨_, ⟨words, encoded, rfl⟩, all, others, rfl⟩, rfl⟩
        refine ⟨_, ⟨words, encoded, rfl⟩, (ih (by simp)).2 ⟨all, others, by simp⟩⟩

end Assembler
