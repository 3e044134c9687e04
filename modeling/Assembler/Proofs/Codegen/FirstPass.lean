import Assembler.Proofs.Codegen.Labels
import Assembler.Proofs.Codegen.SecondPass

/-! # What the first pass does

The first pass leaves a draft of every section under the complete symbol table, although it knows
only a part of that table at any time: what it has encoded does not depend on further labels, and
all else is deferred. It fails only where the plain assembler fails.
-/

namespace Assembler

theorem drop_succ {α : Type} {xs rest : List α} {x : α} {k : Nat} (drop : xs.drop k = x :: rest) :
    k + 1 ≤ xs.length ∧ xs.drop (k + 1) = rest := by
  have length := congrArg List.length drop
  simp only [List.length_drop, List.length_cons] at length
  refine ⟨by omega, ?_⟩
  rw [← List.tail_drop, drop]
  rfl

namespace Target

variable {t : Target} {place : Place} {index : Nat} {s : Statement} {p p' : Placement}

/-- A statement is placed with its words, or with zeros where it waits for a label. -/
theorem placeStatement_eq_ok : t.placeStatement place index s p = .ok p' ↔ ∃ item symbols,
    t.measure s = .ok item ∧ place.bind index p.pc p.draft.symbols = .ok symbols ∧
    p.pc + item.size ≤ t.isa.space ∧ p.draft.total + item.size ≤ maxOutputWords ∧
    ((∃ words, (Context.mk t.isa symbols item.line).payload p.pc item.payload = .ok words ∧
        p' = ⟨⟨symbols, p.draft.total + item.size, p.draft.deferred⟩, p.pc + item.size,
          p.words ++ words⟩) ∨
      ∃ label, (Context.mk t.isa symbols item.line).payload p.pc item.payload =
          .error (.unbound label) ∧
        p' = ⟨⟨symbols, p.draft.total + item.size, p.draft.deferred ++
          [⟨place.sectionIndex, p.words.length, p.pc, item.line, item.payload⟩]⟩,
          p.pc + item.size, p.words ++ List.replicate item.size 0⟩) := by
  simp only [placeStatement, bind_eq_ok, ite_throw_bind_eq_ok, Nat.not_lt]
  constructor
  · rintro ⟨symbols, bound, payload, resolved, size, sized, space, room, placed⟩
    refine ⟨⟨payload, size, s.line⟩, symbols, measure_eq_ok.2 ⟨resolved, sized, rfl⟩, bound, space,
      room, ?_⟩
    split at placed
    · next words encoded => exact .inl ⟨words, encoded, (pure_eq_ok.1 placed).symm⟩
    · next label stopped => exact .inr ⟨label, stopped, (pure_eq_ok.1 placed).symm⟩
    · cases placed
  · rintro ⟨item, symbols, measured, bound, space, room, placed⟩
    obtain ⟨resolved, sized, line⟩ := measure_eq_ok.1 measured
    refine ⟨symbols, bound, item.payload, resolved, item.size, sized, space, room, ?_⟩
    rw [← line]
    rcases placed with ⟨words, encoded, rfl⟩ | ⟨label, stopped, rfl⟩
    · rw [encoded]
      rfl
    · rw [stopped]
      rfl

theorem measured_of_placeStatements {statements : List Statement}
    (ok : t.placeStatements place index statements p = .ok p') :
    ∃ items, List.Forall₂ (fun s item => t.measure s = .ok item) statements items := by
  induction statements generalizing index p with
  | nil => exact ⟨[], .nil⟩
  | cons s statements ih =>
      simp only [placeStatements, bind_eq_ok] at ok
      obtain ⟨between, first, rest⟩ := ok
      obtain ⟨item, -, measured, -⟩ := placeStatement_eq_ok.1 first
      obtain ⟨items, others⟩ := ih rest
      exact ⟨item :: items, .cons measured others⟩

theorem measured_of_firstPass {asm : Assembly} {k : Nat} {sections : List Section}
    {draft : Draft} {result : Draft × List ObjectSection}
    (ok : t.firstPass asm k sections draft = .ok result) :
    ∃ layouts, List.Forall₂ (fun s l => t.layout s = .ok l) sections layouts := by
  induction sections generalizing k draft result with
  | nil => exact ⟨[], .nil⟩
  | cons s sections ih =>
      simp only [firstPass, bind_eq_ok] at ok
      obtain ⟨placed, first, rest, others, -⟩ := ok
      obtain ⟨items, measured⟩ := measured_of_placeStatements first
      obtain ⟨layouts, more⟩ := ih others
      exact ⟨⟨s.start, items⟩ :: layouts, .cons (layout_eq_ok.2 ⟨rfl, measured⟩) more⟩

end Target

theorem Layout.address_succ {l : Layout} {i : Nat} {item : Sized} {rest : List Sized}
    (drop : l.items.drop i = item :: rest) : l.address (i + 1) = l.address i + item.size := by
  have next : l.items[i]? = some item := by rw [← List.head?_drop, drop]; rfl
  simp [address, Sized.total, List.take_add_one, next, Nat.add_assoc]

/-- The first pass stands in section `k`, before statement `i` of its layout. -/
structure Reached (asm : Assembly) (layouts : List Layout) (k : Nat) (l : Layout) (i : Nat)
    (p : Placement) : Prop where
  found : layouts[k]? = some l
  inside : i ≤ l.items.length
  pc : p.pc = l.address i
  binds : Binds asm layouts k i p.draft.symbols

namespace Reached

variable {t : Target} {asm : Assembly} {layouts : List Layout} {k i : Nat} {l : Layout}
  {p p' : Placement} {start : UInt32} {line : Nat}
variable (exact : ∀ a ∈ t.isa.aliases, a.size = a.expansion.length)
include exact

theorem step (h : Reached asm layouts k l i p) {s : Statement} {item : Sized} {rest : List Sized}
    (drop : l.items.drop i = item :: rest) (measured : t.measure s = .ok item)
    (ok : t.placeStatement ⟨asm, k, start, line⟩ i s p = .ok p') :
    Reached asm layouts k l (i + 1) p' ∧ p'.pc = p.pc + item.size ∧
      p'.draft.total = p.draft.total + item.size ∧ p'.draft.total ≤ maxOutputWords ∧
      p.pc + item.size ≤ t.isa.space ∧
      ∃ words deferred, p'.words = p.words ++ words ∧ words.length = item.size ∧
        p'.draft.deferred = p.draft.deferred ++ deferred ∧
        ∀ {items more later}, Drafts t.isa (Layout.symbols layouts asm.labels) k
            (p.words.length + item.size) (p.pc + item.size) items more later →
          Drafts t.isa (Layout.symbols layouts asm.labels) k p.words.length p.pc (item :: items)
            (words ++ more) (deferred ++ later) := by
  obtain ⟨item', symbols, measured', bound, space, room, placed⟩ :=
    Target.placeStatement_eq_ok.1 ok
  cases measured.symm.trans measured'
  have binds := h.binds.bind rfl rfl h.found h.inside (h.pc ▸ bound)
  obtain ⟨resolved, sized, -⟩ := Target.measure_eq_ok.1 measured
  have fills : ∀ {ctx : Context} {words}, ctx.payload p.pc item.payload = .ok words →
      words.length = item.size :=
    Context.length_payload (Target.exact_of_resolve exact resolved) sized
  have pc : p.pc + item.size = l.address (i + 1) := by rw [h.pc, Layout.address_succ drop]
  rcases placed with ⟨words, encoded, rfl⟩ | ⟨label, stopped, rfl⟩
  · refine ⟨⟨h.found, (drop_succ drop).1, pc, binds⟩, rfl, rfl, room, space, words, [], rfl,
      fills encoded, by simp, ?_⟩
    exact fun tail => .final ((Context.settles_payload binds.within _ _).ok encoded) (fills encoded)
      tail
  · refine ⟨⟨h.found, (drop_succ drop).1, pc, binds⟩, rfl, rfl, room, space,
      List.replicate item.size 0, _, rfl, by simp, rfl, ?_⟩
    exact fun tail => .waiting (fun _ => fills) tail

theorem run (h : Reached asm layouts k l i p) {statements : List Statement}
    (measured : List.Forall₂ (fun s item => t.measure s = .ok item) statements (l.items.drop i))
    (room : p.draft.total ≤ maxOutputWords)
    (ok : t.placeStatements ⟨asm, k, start, line⟩ i statements p = .ok p') :
    Binds asm layouts (k + 1) 0 p'.draft.symbols ∧
      p'.draft.total = p.draft.total + Sized.total (l.items.drop i) ∧
      p'.draft.total ≤ maxOutputWords ∧ Sized.fit t.isa.space p.pc (l.items.drop i) = true ∧
      ∃ words deferred, p'.words = p.words ++ words ∧
        p'.draft.deferred = p.draft.deferred ++ deferred ∧
        Drafts t.isa (Layout.symbols layouts asm.labels) k p.words.length p.pc (l.items.drop i)
          words deferred := by
  generalize left : l.items.drop i = items at measured ⊢
  induction measured generalizing i p with
  | nil =>
      simp only [Target.placeStatements, bind_eq_ok, pure_eq_ok] at ok
      obtain ⟨symbols, bound, rfl⟩ := ok
      have last : i = l.items.length := by
        have length := List.drop_eq_nil_iff.1 left
        exact Nat.le_antisymm h.inside length
      have binds := h.binds.bind rfl rfl h.found h.inside (h.pc ▸ bound)
      exact ⟨(last ▸ binds).next h.found, by simp [Sized.total], room, rfl, [], [], by simp, by simp,
        .nil⟩
  | @cons s item statements items measured others ih =>
      simp only [Target.placeStatements, bind_eq_ok] at ok
      obtain ⟨between, first, rest⟩ := ok
      obtain ⟨reached, pc, total, room', space, words, deferred, front, size, noted, drafts⟩ :=
        h.step exact left measured first
      have length : between.words.length = p.words.length + item.size := by
        rw [front, List.length_append, size]
      obtain ⟨binds, total', room', fits, more, later, back, noted', tail⟩ :=
        ih reached room' rest (drop_succ left).2
      rw [length, pc] at tail
      refine ⟨binds, ?_, room', ?_, words ++ more, deferred ++ later, ?_, ?_, drafts tail⟩
      · simp only [total', total, Sized.total, List.map_cons, List.sum_cons]
        omega
      · rw [pc] at fits
        simp [Sized.fit, space, fits]
      · rw [back, front, List.append_assoc]
      · rw [noted', noted, List.append_assoc]

omit exact

theorem exists_bind (h : Reached asm layouts k l i p)
    (near : Layout.Addressable layouts asm.labels) :
    ∃ symbols, (Place.mk asm k start line).bind i p.pc p.draft.symbols = .ok symbols := by
  refine ⟨_, Place.bind_eq_ok.2 ⟨?_, rfl⟩⟩
  intro labelled
  obtain ⟨label, member⟩ := List.exists_mem_of_ne_nil _ labelled
  have site : Layout.siteAddress? layouts ⟨k, i⟩ = some (l.address i) := by
    simp [Layout.siteAddress?, h.found, h.inside]
  rw [h.pc]
  exact near label ⟨k, i⟩ _ (Assembly.mem_labelsAt.1 member) site

theorem exists_step (h : Reached asm layouts k l i p) {s : Statement} {item : Sized}
    (measured : t.measure s = .ok item) (near : Layout.Addressable layouts asm.labels)
    (space : p.pc + item.size ≤ t.isa.space)
    (room : p.draft.total + item.size ≤ maxOutputWords) {words : List UInt32}
    (encoded : (Context.mk t.isa (Layout.symbols layouts asm.labels) item.line).payload p.pc
      item.payload = .ok words) :
    ∃ p', t.placeStatement ⟨asm, k, start, line⟩ i s p = .ok p' := by
  obtain ⟨symbols, bound⟩ := h.exists_bind near
  have within := (h.binds.bind rfl rfl h.found h.inside (h.pc ▸ bound)).within
  simp only [Target.placeStatement_eq_ok]
  cases attempt : (Context.mk t.isa symbols item.line).payload p.pc item.payload with
  | ok words =>
      exact ⟨_, item, symbols, measured, bound, space, room, .inl ⟨words, attempt, rfl⟩⟩
  | error stop =>
      cases stop with
      | unbound label =>
          exact ⟨_, item, symbols, measured, bound, space, room, .inr ⟨label, attempt, rfl⟩⟩
      | failed e =>
          -- a failure would have been final
          have fails := (Context.settles_payload within _ _).failed attempt
          cases fails.symm.trans encoded

theorem exists_run (h : Reached asm layouts k l i p) {statements : List Statement}
    (exact : ∀ a ∈ t.isa.aliases, a.size = a.expansion.length)
    (measured : List.Forall₂ (fun s item => t.measure s = .ok item) statements (l.items.drop i))
    (near : Layout.Addressable layouts asm.labels)
    (fits : Sized.fit t.isa.space p.pc (l.items.drop i) = true)
    (room : p.draft.total + Sized.total (l.items.drop i) ≤ maxOutputWords) {all : List UInt32}
    (encoded : Sized.encode t.isa (Layout.symbols layouts asm.labels) p.pc (l.items.drop i) =
      .ok all) :
    ∃ p', t.placeStatements ⟨asm, k, start, line⟩ i statements p = .ok p' := by
  generalize left : l.items.drop i = items at measured fits room encoded
  induction measured generalizing i p all with
  | nil =>
      obtain ⟨symbols, bound⟩ := h.exists_bind near
      exact ⟨_, by rw [Target.placeStatements, bound]; rfl⟩
  | @cons s item statements items measured others ih =>
      obtain ⟨words, rest, here, behind, -⟩ := Sized.encode_cons_eq_ok.1 encoded
      simp only [Sized.fit, Bool.and_eq_true, decide_eq_true_eq] at fits
      simp only [Sized.total, List.map_cons, List.sum_cons] at room
      obtain ⟨between, first⟩ := h.exists_step measured near fits.1 (by omega) here
      obtain ⟨reached, pc, total, -⟩ := h.step exact left measured first
      obtain ⟨last, run⟩ := ih reached (drop_succ left).2 (pc ▸ fits.2)
        (by simp only [total, Sized.total]; omega) (pc ▸ behind)
      exact ⟨last, by rw [Target.placeStatements, first]; exact run⟩

end Reached

end Assembler
