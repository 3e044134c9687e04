import Assembler.Proofs.Codegen.Faults
import Assembler.Proofs.Dialect.Contents
import Assembler.Proofs.Dialect.Grammars
import Assembler.Proofs.Dialect.Lines
import Assembler.Proofs.Lexical.Places
import Assembler.Proofs.Parsing.Soundness
import Assembler.Proofs.Parsing.Termination

/-! # Errors are reported where they are

A line number is handed on from stage to stage: the scanner gives it to the tokens, the parser to
the trees, the adapters to the statements, the builder to the sections, and the generator finds it
there. An error of any stage takes its line from what the stage was given, so it points to a line of
the source, and none is a fault. Tokens and characters are reported with the column they stand at.
-/

namespace Assembler

theorem Table.parse_eq_error {t : Table} {g : Grammar} (wf : g.WellFormed)
    (ofGrammar : Table.ofGrammar g = .ok t) (unblocked : g.Unblocked) {line : Line} {e : ParseError}
    (failed : t.parse line = .error e) :
    ∃ taken rest, taken ++ rest = line.tokens ∧ e = errorAt line.number rest := by
  have bottom : Situation.Covers (Tree.reading g line.number) g
      (Configuration.start line.tokens).situation.stack [] := .nil
  obtain ⟨last, result, run, ended⟩ := exists_outcome wf ofGrammar unblocked bottom
  rw [parse, loop_of_runs run ended] at failed
  subst failed
  obtain ⟨taken, covers, split⟩ := covers_of_runs wf ofGrammar run
  cases stepped : t.step line.number last with
  | next d => simp [stepped, StepResult.outcome?] at ended
  | accepted tree => simp [stepped, StepResult.outcome?] at ended
  | failed e' =>
      obtain rfl : e' = e := by simpa [stepped, StepResult.outcome?] using ended
      exact ⟨taken, last.input, split, eq_errorAt_of_failed wf ofGrammar covers stepped⟩

namespace Reading.Derives

variable {g : Grammar} {line : Nat} {symbols : List Symbol} {word : List Token} {trees : List Tree}

theorem placed {n : Nat} (h : (Tree.reading g line).Derives g symbols word trees)
    (short : ∀ token ∈ word, token.text.length ≤ n) : ∀ tree ∈ trees, tree.Placed line n := by
  induction h with
  | nil => simp
  | leaf _ _ ih =>
      obtain ⟨first, others⟩ := List.forall_mem_cons.1 short
      refine List.forall_mem_cons.2 ⟨⟨.intro first ?_, .intro rfl ?_⟩, ih others⟩
      · simp [Tree.reading, Tree.leaf]
      · simp [Tree.reading, Tree.leaf]
  | node _ _ _ ihInner ihRest =>
      have inner := ihInner fun token member => short token (List.mem_append_left _ member)
      have rest := ihRest fun token member => short token (List.mem_append_right _ member)
      exact List.forall_mem_cons.2 ⟨⟨.intro (Nat.zero_le _) fun child member =>
        (inner child member).bounded, .intro rfl fun child member => (inner child member).onLine⟩,
        rest⟩

theorem exists_production (h : (Tree.reading g line).Derives g symbols word trees) :
    ∀ tree ∈ trees, tree.children = [] ∨ ∃ production ∈ g.productions, ∃ below,
      (Tree.reading g line).Derives g production.rhs below tree.children := by
  induction h with
  | nil => simp
  | leaf _ _ ih => exact List.forall_mem_cons.2 ⟨.inl rfl, ih⟩
  | node rule inner _ _ ih =>
      exact List.forall_mem_cons.2
        ⟨.inr ⟨_, List.mem_of_getElem? rule, _, inner⟩, ih⟩

end Reading.Derives

namespace Complx

/-- In every production with a colon in the second place there is a word. -/
theorem word_of_colon : ∀ production ∈ grammar.productions,
    (production.rhs.map grammar.name)[1]? = some ":" →
      "word" ∈ production.rhs.map grammar.name := by
  decide +kernel

theorem wordsOf_ne_nil {line : Nat} {symbols : List Symbol} {word : List Token} {trees : List Tree}
    (h : (Tree.reading grammar line).Derives grammar symbols word trees) :
    ∀ tree ∈ trees, hasColon tree = true → wordsOf tree ≠ [] := by
  intro tree member colon
  have wf := Dialect.complx.wellFormed_grammar
  rcases h.exists_production tree member with childless | ⟨production, rule, below, derives⟩
  · simp [hasColon, childless] at colon
  · have names := derives.map_symbol (wf.rhs_declared production rule)
    have second : (production.rhs.map grammar.name)[1]? = some ":" := by
      rw [← names, List.getElem?_map]
      unfold hasColon at colon
      cases child : tree.children[1]? with
      | none => simp [child] at colon
      | some child => simpa [child] using colon
    have named := word_of_colon production rule second
    rw [← names] at named
    obtain ⟨child, listed, symbol⟩ := List.mem_map.1 named
    apply List.ne_nil_of_mem (a := child.text)
    exact List.mem_map_of_mem (List.mem_filter.2 ⟨listed, by simp [symbol]⟩)

end Complx

theorem Sectioned.mem_of_mem_body {opening closing : String} {lines : List (Nat × LineContents)}
    {groups : List Group} (h : Sectioned opening closing lines groups) :
    ∀ g ∈ groups, ∀ line ∈ g.body, line ∈ lines := by
  induction h with
  | nil => simp
  | blank _ ih => exact fun g member line inside => List.mem_cons_of_mem _ (ih g member line inside)
  | group _ _ _ ih =>
      refine List.forall_mem_cons.2 ⟨?_, fun g member line inside => ?_⟩
      · exact fun line inside => List.mem_cons_of_mem _ (List.mem_append_left _ inside)
      · exact List.mem_cons_of_mem _
          (List.mem_append_right _ (List.mem_cons_of_mem _ (ih g member line inside)))

theorem Sectioned.exists_opening {opening closing : String} {lines : List (Nat × LineContents)}
    {groups : List Group} (h : Sectioned opening closing lines groups) :
    ∀ g ∈ groups, ∃ c, (g.line, c) ∈ lines := by
  induction h with
  | nil => simp
  | blank _ ih =>
      intro g member
      obtain ⟨c, known⟩ := ih g member
      exact ⟨c, List.mem_cons_of_mem _ known⟩
  | group _ _ _ ih =>
      refine List.forall_mem_cons.2 ⟨⟨_, List.mem_cons_self⟩, fun g member => ?_⟩
      obtain ⟨c, known⟩ := ih g member
      exact ⟨c, List.mem_cons_of_mem _ (List.mem_append_right _ (List.mem_cons_of_mem _ known))⟩

namespace Builder

variable {b b' : Builder} {line : Nat} {e : SemanticError}

theorem mem_of_mem_assembly {groups : List Group} {placed : Section} {s : Statement}
    (member : placed ∈ (Group.assembly groups).sections) (listed : s ∈ placed.statements) :
    ∃ g ∈ groups, ∃ line ∈ g.body, line.2.statement? = some s := by
  obtain ⟨g, known, rfl⟩ := List.mem_map.1 member
  obtain ⟨line, inside, found⟩ := List.mem_filterMap.1 listed
  exact ⟨g, known, line, inside, found⟩

theorem exists_groups_of_build {d : Dialect} {lines : List (Nat × LineContents)} {asm : Assembly}
    (built : build d.sections lines = .ok asm) : ∃ groups, asm = Group.assembly groups ∧
      (groups.flatMap fun g => Group.labelsOf g.body).Nodup ∧
      (∀ g ∈ groups, ∀ line ∈ g.body, line ∈ lines) ∧
      ∀ g ∈ groups, g.line = 0 ∨ ∃ c, (g.line, c) ∈ lines := by
  cases d with
  | complx =>
      obtain ⟨groups, sectioned, distinct, rfl⟩ :=
        (build_explicit (by decide : "orig" ≠ "end")).1 built
      refine ⟨groups, rfl, sectioned.labelsOf ▸ distinct, sectioned.mem_of_mem_body, ?_⟩
      exact fun g known => .inr (sectioned.exists_opening g known)
  | lc2200 =>
      obtain ⟨distinct, rfl⟩ := build_implicit.1 built
      refine ⟨_, rfl, by simpa using distinct, ?_, ?_⟩
      · exact List.forall_mem_singleton.2 fun line inside => inside
      · exact List.forall_mem_singleton.2 (.inl rfl)

theorem exists_line_of_build {d : Dialect} {lines : List (Nat × LineContents)} {asm : Assembly}
    (built : build d.sections lines = .ok asm) : ∀ placed ∈ asm.sections, ∀ s ∈ placed.statements,
      ∃ line ∈ lines, line.2.statement? = some s := by
  intro placed member s listed
  obtain ⟨groups, rfl, -, bodies, -⟩ := exists_groups_of_build built
  obtain ⟨g, known, line, inside, found⟩ := mem_of_mem_assembly member listed
  exact ⟨line, bodies g known line inside, found⟩

theorem exists_opening_of_build {d : Dialect} {lines : List (Nat × LineContents)} {asm : Assembly}
    (built : build d.sections lines = .ok asm) :
    ∀ placed ∈ asm.sections, placed.line = 0 ∨ ∃ c, (placed.line, c) ∈ lines := by
  intro placed member
  obtain ⟨groups, rfl, -, -, openings⟩ := exists_groups_of_build built
  obtain ⟨g, known, rfl⟩ := List.mem_map.1 member
  exact openings g known

theorem on_of_addLabels {labels : List String} (h : addLabels line labels b = .error e b') :
    e.On line := by
  induction labels generalizing b with
  | nil => cases h
  | cons label labels ih =>
      unfold addLabels at h
      split at h
      · cases h
        rfl
      · split at h
        · cases h
          rfl
        · exact ih h

theorem on_of_addContents {c : LineContents} (h : b.addContents line c = .error e b') :
    e.On line := by
  unfold addContents at h
  split at h
  · next failed =>
      cases h
      exact on_of_addLabels failed
  · split at h
    · cases h
    · unfold addStatement at h
      split at h
      · split at h <;> cases h <;> rfl
      · cases h

theorem on_of_openSection {opening : String} {labeled : Bool} {operand? : Option Operand}
    (h : b.openSection line opening labeled operand? = .error e b') : e.On line := by
  unfold openSection at h
  repeat' split at h
  all_goals cases h
  all_goals rfl

theorem on_of_closeSection {closing : String} {labeled : Bool} {operand? : Option Operand}
    (h : b.closeSection line closing labeled operand? = .error e b') : e.On line := by
  unfold closeSection at h
  repeat' split at h
  all_goals cases h
  all_goals rfl

theorem on_of_push {c : LineContents} (h : b.push line c = .error e b') : e.On line := by
  unfold push at h
  split at h
  · split at h
    · exact on_of_openSection h
    · split at h
      · exact on_of_closeSection h
      · exact on_of_addContents h
  · exact on_of_addContents h

/-- A builder whose open section, if a directive opened it, was opened on one of these lines. -/
def OpenedOn (P : Nat → Prop) (b : Builder) : Prop :=
  ∀ opening closing, b.policy = .explicit opening closing → ∀ n, b.opened? = some n → P n

theorem openedOn_start (P : Nat → Prop) (policy : SectionPolicy) : (start policy).OpenedOn P := by
  cases policy with
  | explicit opening closing => exact fun _ _ _ n opened => nomatch opened
  | implicit address => exact fun _ _ explicit => nomatch explicit

theorem opened?_of_addContents {c : LineContents} (h : b.addContents line c = .ok () b') :
    b'.policy = b.policy ∧ b'.opened? = b.opened? := by
  unfold addContents at h
  split at h
  · cases h
  · next added =>
      obtain ⟨-, -, rfl⟩ := addLabels_eq_ok.1 added
      split at h
      · cases h
        exact ⟨rfl, rfl⟩
      · unfold addStatement at h
        split at h
        · split at h <;> cases h
        · cases h
          exact ⟨rfl, rfl⟩

theorem opened?_of_openSection {opening : String} {labeled : Bool} {operand? : Option Operand}
    (h : b.openSection line opening labeled operand? = .ok () b') : b'.opened? = some line := by
  unfold openSection at h
  repeat' split at h
  all_goals cases h
  rfl

theorem opened?_of_closeSection {closing : String} {labeled : Bool} {operand? : Option Operand}
    (h : b.closeSection line closing labeled operand? = .ok () b') : b'.opened? = none := by
  unfold closeSection at h
  repeat' split at h
  all_goals cases h
  rfl

theorem OpenedOn.push {P : Nat → Prop} (opened : b.OpenedOn P) (here : P line) {c : LineContents}
    (h : b.push line c = .ok () b') : b'.OpenedOn P := by
  have kept : b.addContents line c = .ok () b' → b'.OpenedOn P := by
    intro added
    obtain ⟨policy, same⟩ := opened?_of_addContents added
    rw [OpenedOn, policy, same]
    exact opened
  unfold Builder.push at h
  split at h
  · split at h
    · intro _ _ _ n found
      rw [opened?_of_openSection h] at found
      exact Option.some.inj found ▸ here
    · split at h
      · intro _ _ _ n found
        rw [opened?_of_closeSection h] at found
        cases found
      · exact kept h
  · exact kept h

theorem OpenedOn.finish {P : Nat → Prop} (opened : b.OpenedOn P) (h : b.finish = .error e) :
    ∃ n, P n ∧ e.On n := by
  unfold Builder.finish at h
  split at h
  · next opening closing n explicit found =>
      cases h
      exact ⟨n, opened opening closing explicit n found, rfl⟩
  · cases h

end Builder

/-- An error that is no fault and points to what is in the source. -/
structure Diagnostic.Reported (source : String) (e : Diagnostic) : Prop where
  fault? : e.fault? = none
  line : ∀ n, e.line? = some n → HasLine source n
  char : ∀ error, e = .lexical error → StandsAt source error.line error.col [error.char]
  token : ∀ text line col, e = .parse (.unexpectedToken text line col) →
    StandsAt source line col text.toList

namespace Diagnostic

variable {source : String}

theorem fault?_semantic {e : SemanticError} : (semantic e).fault? = e.fault? := by
  cases e <;> rfl

theorem fault?_codegen {e : CodegenError} : (codegen e).fault? = e.fault? := by
  cases e <;> rfl

theorem reported_lexical {e : LexError} (stands : StandsAt source e.line e.col [e.char]) :
    (lexical e).Reported source where
  fault? := rfl
  line := by
    rintro n ⟨⟩
    exact stands.hasLine (by simp)
  char := by
    rintro _ ⟨⟩
    exact stands
  token := nofun

theorem reported_semantic {n : Nat} {e : SemanticError} (on : e.On n) (hasLine : HasLine source n) :
    (semantic e).Reported source where
  fault? := fault?_semantic.trans on.fault?
  line _ points := Option.some.inj (on.symm.trans points) ▸ hasLine
  char := nofun
  token := nofun

theorem reported_codegen {e : CodegenError} (fault : e.fault? = none)
    (line : ∀ n, e.line? = some n → HasLine source n) : (codegen e).Reported source where
  fault? := fault?_codegen.trans fault
  line := line
  char := nofun
  token := nofun

end Diagnostic

namespace Dialect

open Diagnostic

variable {d : Dialect} {t : Table} {source : String}

theorem unblocked_grammar (d : Dialect) : d.grammar.Unblocked := by
  cases d <;> decide +kernel

theorem delivers_contents {line n : Nat} {tokens : List Token} {tree : Tree}
    (derives : (Tree.reading d.grammar line).Derives d.grammar [.nonterminal d.grammar.goal] tokens
      [tree]) (short : ∀ token ∈ tokens, token.text.length ≤ n) :
    Delivers (SemanticError.On line) (LineContents.Placed line n) (d.contents tree) := by
  have placed := derives.placed short tree List.mem_cons_self
  cases d with
  | lc2200 => exact Lc2200.delivers_contents placed
  | complx =>
      refine Complx.delivers_contents placed fun node member => ?_
      rcases derives.exists_production tree List.mem_cons_self with childless | ⟨_, _, _, inner⟩
      · rw [childless] at member
        cases member
      · exact Complx.wordsOf_ne_nil inner node member

theorem reported_parse {line : Line} (within : line.Of d.config source)
    (ofGrammar : Table.ofGrammar d.grammar = .ok t) {e : ParseError}
    (failed : t.parse line = .error e) : (Diagnostic.parse e).Reported source := by
  obtain ⟨taken, rest, split, rfl⟩ :=
    Table.parse_eq_error d.wellFormed_grammar ofGrammar d.unblocked_grammar failed
  cases rest with
  | nil =>
      refine ⟨rfl, ?_, nofun, nofun⟩
      rintro n ⟨⟩
      exact within.hasLine
  | cons token rest =>
      have member : token ∈ line.tokens := split ▸ List.mem_append_right _ List.mem_cons_self
      refine ⟨rfl, ?_, nofun, ?_⟩
      · rintro n ⟨⟩
        exact within.hasLine
      · rintro text number col ⟨⟩
        exact within.standsAt token member

theorem delivers_lineContents (ofGrammar : Table.ofGrammar d.grammar = .ok t) {line : Line}
    (within : line.Of d.config source) :
    Delivers (Reported source) (LineContents.Placed line.number source.length)
      (d.lineContents t line) := by
  unfold lineContents
  split
  · next e failed => exact delivers_error.2 (reported_parse within ofGrammar failed)
  · next tree parsed =>
      have derives := Table.derives_of_parse d.wellFormed_grammar ofGrammar
        (.of_ne fun token member => name_ne_endName (within.tokens token member).symbol) parsed
      obtain ⟨raises, placed⟩ :=
        delivers_contents derives fun token member => (within.tokens token member).short
      split
      · next e failed =>
          exact delivers_error.2 (reported_semantic (raises e failed) within.hasLine)
      · next c read => exact delivers_ok.2 (placed c read)

/-- The builder keeps the line of an open section for an error at the end of the source. -/
theorem delivers_pushLines (ofGrammar : Table.ofGrammar d.grammar = .ok t) {lines : List Line}
    (within : ∀ line ∈ lines, line.Of d.config source) {b : Builder}
    (opened : b.OpenedOn (HasLine source)) :
    Delivers (Reported source) (Builder.OpenedOn (HasLine source)) (d.pushLines t lines b) := by
  induction lines generalizing b with
  | nil => exact delivers_ok.2 opened
  | cons line lines ih =>
      obtain ⟨first, others⟩ := List.forall_mem_cons.1 within
      refine (delivers_lineContents ofGrammar first).1.delivers_bind fun c => ?_
      split
      · next failed =>
          exact delivers_error.2 (reported_semantic (Builder.on_of_push failed) first.hasLine)
      · next pushed => exact ih others (opened.push first.hasLine pushed)

theorem raisesOnly_parseLines {lines : List Line}
    (within : ∀ line ∈ lines, line.Of d.config source) :
    RaisesOnly (Reported source) (d.parseLines lines) := by
  obtain ⟨t, ofGrammar, table⟩ := d.exists_table
  have found : RaisesOnly (Reported source) d.table := by simp [table]
  refine found.bind fun t' same => ?_
  obtain rfl : t = t' := by simpa [table] using same
  have pushes := delivers_pushLines ofGrammar within (Builder.openedOn_start _ d.sections)
  refine pushes.1.bind fun b pushed => ?_
  split
  · next failed =>
      obtain ⟨n, hasLine, on⟩ := (pushes.2 b pushed).finish failed
      exact raisesOnly_throw.2 (reported_semantic on hasLine)
  · exact raisesOnly_pure _

theorem raisesOnly_parse (d : Dialect) (source : String) :
    RaisesOnly (Reported source) (d.parse source) := by
  unfold parse
  split
  · next failed => exact raisesOnly_error.2 (reported_lexical (scan_eq_error failed))
  · next lines scanned => exact raisesOnly_parseLines (scan_lines scanned)

theorem placed_of_parse {asm : Assembly} (parsed : d.parse source = .ok asm) :
    ∀ placed ∈ asm.sections, (placed.line = 0 ∨ HasLine source placed.line) ∧
      ∀ s ∈ placed.statements, ∃ n, HasLine source n ∧ s.Placed n source.length := by
  obtain ⟨t, ofGrammar, table⟩ := d.exists_table
  obtain ⟨lines, found, scanned, contents, built⟩ := exists_contents_of_parse table parsed
  intro placed member
  constructor
  · refine (Builder.exists_opening_of_build built placed member).imp_right ?_
    rintro ⟨c, known⟩
    obtain ⟨line, listed, number, -⟩ := exists_mem_of_forall₂ contents known
    have number : placed.line = line.number := number
    exact number ▸ (scan_lines scanned line listed).hasLine
  · intro s listed
    obtain ⟨⟨n, c⟩, known, statement⟩ := Builder.exists_line_of_build built placed member s listed
    obtain ⟨line, listed, -, read⟩ := exists_mem_of_forall₂ contents known
    have within := scan_lines scanned line listed
    exact ⟨line.number, within.hasLine,
      (delivers_lineContents ofGrammar within).2 c read s statement⟩

theorem exact_aliases (d : Dialect) :
    ∀ a ∈ d.target.isa.aliases, a.size = a.expansion.length := by
  cases d <;> decide

theorem coherent (d : Dialect) : ∀ spec ∈ d.target.directives, spec.Coherent := by
  cases d <;> decide

end Dialect

open Diagnostic in
theorem raisesOnly_assemble (d : Dialect) (source : String) :
    RaisesOnly (Reported source) (assemble d source) := by
  refine (d.raisesOnly_parse source).bind fun asm parsed => ?_
  split
  · next e failed =>
      have names := Target.raisesOnly_generate d.exact_aliases d.coherent asm e failed
      -- what the generator names is a section or a statement of the assembly
      refine raisesOnly_throw.2 (reported_codegen names.fault? fun n points => ?_)
      obtain ⟨placed, member, ⟨rfl, opened⟩ | ⟨s, listed, rfl⟩⟩ := names.line? points
      · exact (Dialect.placed_of_parse parsed placed member).1.resolve_left opened
      · obtain ⟨n, hasLine, stands⟩ := (Dialect.placed_of_parse parsed placed member).2 s listed
        exact stands.line ▸ hasLine
  · exact raisesOnly_pure _

/-- The line that an error points to is a line of the source with something on it; a character or a
    token that is reported stands at the line and the column of the report. -/
theorem assemble_points (d : Dialect) {source : String} {e : Diagnostic}
    (failed : assemble d source = .error e) :
    (∀ n, e.line? = some n → 1 ≤ n ∧ n ≤ (sourceLines source).length ∧
      (sourceLines source)[n - 1]? ≠ some []) ∧
    (∀ error, e = .lexical error → StandsAt source error.line error.col [error.char]) ∧
    ∀ text line col, e = .parse (.unexpectedToken text line col) →
      StandsAt source line col text.toList := by
  have reported := raisesOnly_assemble d source e failed
  exact ⟨fun n points => (reported.line n points).bounds, reported.char, reported.token⟩

/-- A character behind a comment, a line break of two characters and a tab. -/
theorem assemble_points_at :
    assemble .complx "nop ;;\r\n\t@" = .error (.lexical ⟨'@', 2, 2⟩) ∧
    2 ≤ (sourceLines "nop ;;\r\n\t@").length ∧ StandsAt "nop ;;\r\n\t@" 2 2 ['@'] := by
  have scanned : scan Complx.config "nop ;;\r\n\t@" = .error ⟨'@', 2, 2⟩ := by cbv
  have failed : assemble .complx "nop ;;\r\n\t@" = .error (.lexical ⟨'@', 2, 2⟩) := by
    simp only [assemble, Dialect.parse, Dialect.config, scanned]
    rfl
  obtain ⟨line, char, -⟩ := assemble_points .complx failed
  exact ⟨failed, (line 2 rfl).2.1, char _ rfl⟩

end Assembler
