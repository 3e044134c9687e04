import Assembler.Pipeline
import Assembler.Proofs.Outcome
import Assembler.Proofs.Program.Sections

/-! # What a source text is made of

A source text is scanned into lines, each line is parsed and sorted on its own, and what the lines
contain is built into an assembly.
-/

namespace Assembler.Dialect

variable {d : Dialect} {t : Table}

theorem lineContents_eq_ok {line : Line} {c : LineContents} :
    d.lineContents t line = .ok c ↔ ∃ tree, t.parse line = .ok tree ∧ d.contents tree = .ok c := by
  unfold lineContents
  cases t.parse line with
  | error e => simp
  | ok tree => cases contents : d.contents tree <;> simp [contents]

/-- Contents of lines, with the numbers of the lines. -/
def Contains (d : Dialect) (t : Table) (line : Line) (found : Nat × LineContents) : Prop :=
  found.1 = line.number ∧ d.lineContents t line = .ok found.2

theorem pushLines_eq_ok {lines : List Line} {b b' : Builder} :
    d.pushLines t lines b = .ok b' ↔ ∃ found, List.Forall₂ (d.Contains t) lines found ∧
      b.pushAll found = .ok () b' := by
  induction lines generalizing b with
  | nil => simp [pushLines, Builder.pushAll]
  | cons line lines ih =>
      simp only [pushLines, bind_eq_ok, List.forall₂_cons_left_iff]
      constructor
      · rintro ⟨c, contents, rest⟩
        cases pushed : b.push line.number c with
        | error e b => simp [pushed] at rest
        | ok _ next =>
            simp only [pushed] at rest
            obtain ⟨found, behind, all⟩ := ih.1 rest
            refine ⟨_, ⟨(line.number, c), found, ⟨rfl, contents⟩, behind, rfl⟩, ?_⟩
            simp [Builder.pushAll, pushed, all]
      · rintro ⟨_, ⟨⟨n, c⟩, found, ⟨rfl, contents⟩, behind, rfl⟩, all⟩
        refine ⟨c, contents, ?_⟩
        cases pushed : b.push line.number c with
        | error e b => simp [Builder.pushAll, pushed] at all
        | ok _ next =>
            simp only [Builder.pushAll, pushed] at all
            exact ih.2 ⟨found, behind, all⟩

/-- The lines of a source that is parsed, what they contain, and what is built from that. -/
theorem parseLines_eq_ok (table : d.table = .ok t) {lines : List Line} {asm : Assembly} :
    d.parseLines lines = .ok asm ↔ ∃ found, List.Forall₂ (d.Contains t) lines found ∧
      Builder.build d.sections found = .ok asm := by
  simp only [parseLines, table, bind_eq_ok, Except.ok.injEq, exists_eq_left', pushLines_eq_ok,
    Builder.build, Builder.run]
  constructor
  · rintro ⟨b, ⟨found, contents, all⟩, finished⟩
    refine ⟨found, contents, ?_⟩
    cases result : b.finish with
    | error e => simp [result] at finished
    | ok asm => simpa [all, result] using finished
  · rintro ⟨found, contents, built⟩
    cases all : (Builder.start d.sections).pushAll found with
    | error e b => simp [all] at built
    | ok _ b =>
        simp only [all] at built
        exact ⟨b, ⟨found, contents, all⟩, by simp [built]⟩

theorem parse_eq_ok {source : String} {asm : Assembly} :
    d.parse source = .ok asm ↔ ∃ lines, scan d.config source = .ok lines ∧
      d.parseLines lines = .ok asm := by
  unfold parse
  cases scan d.config source <;> simp

/-- A source that is parsed is scanned, each line is read, and what they contain is built. -/
theorem exists_contents_of_parse (table : d.table = .ok t) {source : String} {asm : Assembly}
    (parsed : d.parse source = .ok asm) : ∃ lines found, scan d.config source = .ok lines ∧
      List.Forall₂ (d.Contains t) lines found ∧ Builder.build d.sections found = .ok asm := by
  obtain ⟨lines, scanned, parsed⟩ := parse_eq_ok.1 parsed
  obtain ⟨found, contents, built⟩ := (parseLines_eq_ok table).1 parsed
  exact ⟨lines, found, scanned, contents, built⟩

end Assembler.Dialect
