import Assembler.Proofs.Codegen.Positions
import Assembler.Proofs.Dialect.ComplxLines
import Assembler.Proofs.Dialect.Lc2200Lines
import Assembler.Proofs.Dialect.Reports
import Assembler.Proofs.Lexical.Words
import Assembler.Proofs.Object.SymbolText

/-! # Labels are words of the source

No stage makes up a label or changes one. The symbols of an object are labels of the assembly, which
stand on lines, and the adapters find them among the words of a line, so the symbol file can show
the labels of every program and is read as the table it was written from.
-/

namespace Assembler

open SymbolText (Writable)

namespace Complx

variable {isa : Isa} {n : Nat} {front tokens : List Token} {tree : Tree} {c : LineContents}

theorem marked_le (isFront : IsFront (front.map (·.kind))) :
    marked front ≤ (listed front).length := by
  unfold marked
  split
  · exact (length_listed_bounds isFront).1
  · exact Nat.zero_le _

theorem bareLabels_le (isa : Isa) (words : List Token) : bareLabels isa words ≤ words.length := by
  unfold bareLabels
  split
  · exact Nat.le_refl 0
  · split <;> simp
  · repeat' split
    all_goals simp
  · next nonempty _ _ =>
      exact List.length_pos_iff.2 nonempty

theorem labelsBefore_le (isFront : IsFront (front.map (·.kind))) {next : Option TokenKind} {k : Nat}
    (h : labelsBefore isa front next = some k) : k ≤ (listed front).length := by
  have but : ∀ last, labelsBut front last = some k → k ≤ (listed front).length := by
    intro last h
    obtain ⟨-, same⟩ := Option.ite_none_right_eq_some.1 h
    exact Option.some.inj same ▸ Nat.sub_le _ _
  unfold labelsBefore at h
  split at h
  · cases h
    exact Nat.le_refl _
  · exact but 2 h
  · exact but 1 h
  · cases h
    have first := marked_le isFront
    have behind := bareLabels_le isa ((listed front).drop (marked front))
    rw [List.length_drop] at behind
    omega

theorem exists_word_of_label
    (derives : (Tree.reading grammar n).Derives grammar [.nonterminal 0] tokens [tree])
    (filled : ∀ token ∈ tokens, token.text ≠ "") (read : contents isa tree = .ok c) :
    ∀ label ∈ c.labels, ∃ token ∈ tokens, token.kind = .word ∧ token.text = label := by
  obtain ⟨k, count, labels, -⟩ := (contents_eq_ok_iff derives filled).1 read
  rw [labels]
  intro label member
  obtain ⟨token, taken, rfl⟩ := List.mem_map.1 member
  refine ⟨token, (List.mem_filter.1 (List.mem_of_mem_take taken)).1, ?_, rfl⟩
  rcases derives_line_iff.1 derives with
    ⟨pseudo, below, -⟩ | ⟨front, behind, trees, rfl, isFront, tail, -⟩
  · obtain ⟨name, rest, -, rfl, kind, -⟩ := derives_pseudo_iff.1 below
    -- the line begins with its directive, so it has no label
    obtain rfl : 0 = k := by
      simpa [labelCount?, isFrontToken, kind, labelsBefore, listed] using count
    cases taken
  · rw [labelCount?_append (all_isFrontToken isFront) (exists_tailTrees_iff.1 ⟨_, tail⟩)] at count
    rw [listed_append, List.take_append_of_le_length (labelsBefore_le isFront count)] at taken
    exact kind_of_mem_drop isFront 0 token (List.mem_of_mem_take taken)

end Complx

namespace Lc2200

variable {isa : Isa} {n : Nat} {tokens : List Token} {tree : Tree} {c : LineContents}

theorem exists_word_of_label
    (derives : (Tree.reading grammar n).Derives grammar [.nonterminal 0] tokens [tree])
    (filled : ∀ token ∈ tokens, token.text ≠ "") (read : contents isa tree = .ok c) :
    ∀ label ∈ c.labels, ∃ token ∈ tokens, token.kind = .word ∧ token.text = label := by
  obtain ⟨labels, -⟩ := (contents_eq_ok_iff derives filled).1 read
  obtain ⟨-, front, behind, trees, statements, rfl, label, statement, -⟩ :=
    derives_line_iff.1 derives
  rw [labels, (labelOf_append label statement).1]
  cases label with
  | none => simp
  | some below =>
      obtain ⟨name, colon, rfl, kind, -⟩ :=
        List.map_eq_cons_iff.1 (List.mem_singleton.1 (derives_label_iff.1 below).1)
      intro label member
      obtain rfl := List.mem_singleton.1 member
      exact ⟨name, by simp, kind, rfl⟩

end Lc2200

theorem Builder.exists_line_of_label {d : Dialect} {lines : List (Nat × LineContents)}
    {asm : Assembly} (built : build d.sections lines = .ok asm) {label : String} {site : Site}
    (entry : asm.labels.get? label = some site) : ∃ line ∈ lines, label ∈ line.2.labels := by
  obtain ⟨groups, rfl, distinct, bodies, -⟩ := exists_groups_of_build built
  obtain ⟨g, j, line, known, found, member, -⟩ := (Group.get?_assembly distinct).1 entry
  exact ⟨line, bodies g (List.mem_of_getElem? known) line (List.mem_of_getElem? found), member⟩

namespace Dialect

variable {d : Dialect} {source : String}

theorem exists_word_of_contents {line : Line} {tree : Tree} {c : LineContents}
    (derives : (Tree.reading d.grammar line.number).Derives d.grammar
      [.nonterminal d.grammar.goal] line.tokens [tree])
    (filled : ∀ token ∈ line.tokens, token.text ≠ "") (read : d.contents tree = .ok c) :
    ∀ label ∈ c.labels, ∃ token ∈ line.tokens, token.kind = .word ∧ token.text = label := by
  cases d with
  | complx => exact Complx.exists_word_of_label derives filled read
  | lc2200 => exact Lc2200.exists_word_of_label derives filled read

theorem exists_word_of_parse {asm : Assembly} (parsed : d.parse source = .ok asm) {label : String}
    {site : Site} (entry : asm.labels.get? label = some site) :
    ∃ lines, scan d.config source = .ok lines ∧ ∃ line ∈ lines, ∃ token ∈ line.tokens,
      token.kind = .word ∧ token.text = label := by
  obtain ⟨t, ofGrammar, table⟩ := d.exists_table
  obtain ⟨lines, found, scanned, contents, built⟩ := exists_contents_of_parse table parsed
  obtain ⟨placed, known, member⟩ := Builder.exists_line_of_label built entry
  obtain ⟨line, listed, -, read⟩ := exists_mem_of_forall₂ contents known
  obtain ⟨tree, accepted, read⟩ := lineContents_eq_ok.1 read
  have symbols := (scan_lines scanned line listed).tokens
  have derives := Table.derives_of_parse d.wellFormed_grammar ofGrammar
    (.of_ne fun token inside => name_ne_endName (symbols token inside).symbol) accepted
  exact ⟨lines, scanned, line, listed,
    exists_word_of_contents derives (text_ne_empty_of_scan scanned line listed) read label member⟩

/-- The symbol file can show every label of an assembly. -/
theorem writable_of_parse {asm : Assembly} (parsed : d.parse source = .ok asm) {label : String}
    {site : Site} (entry : asm.labels.get? label = some site) : Writable label := by
  obtain ⟨lines, scanned, line, listed, token, inside, kind, rfl⟩ :=
    exists_word_of_parse parsed entry
  have plain : d.config.extraWordChars = [] := by cases d <;> rfl
  have word := mem_identifier_of_scan scanned line listed token inside kind
  rw [plain] at word
  obtain ⟨-, chars⟩ := isWordChar_of_mem_identifier word
  have filled := text_ne_empty_of_scan scanned line listed token inside
  refine ⟨filled, fun member => ?_, fun member => ?_⟩
  · exact absurd (chars _ member) (by decide)
  · exact absurd (chars _ member) (by decide)

end Dialect

theorem assemble_eq_ok {d : Dialect} {source : String} {o : Object} : assemble d source = .ok o ↔
    ∃ asm, d.parse source = .ok asm ∧ d.target.generate asm = .ok o := by
  refine bind_eq_ok.trans (exists_congr fun asm => and_congr_right fun _ => ?_)
  cases d.target.generate asm <;> simp

theorem writable_of_assemble {d : Dialect} {source : String} {o : Object}
    (ok : assemble d source = .ok o) {label : String} {address : UInt32}
    (bound : o.symbols.get? label = some address) : Writable label := by
  obtain ⟨asm, parsed, generated⟩ := assemble_eq_ok.1 ok
  obtain ⟨layouts, laid⟩ := (Target.generate_eq_ok_iff_laid d.exact_aliases).1 generated
  rw [laid.symbols] at bound
  obtain ⟨site, -, entry, -, -⟩ := Layout.get?_symbols.1 bound
  exact Dialect.writable_of_parse parsed entry

namespace SymbolText

/-- A symbol file is read as the table that it was written from if its labels are filled and have no
    tab and no line feed. All labels of programs are so, and all that have been read. -/
theorem read_back :
    (∀ o : Object, (∀ label address, o.symbols.get? label = some address → Writable label) →
      read? (write o) = some ⟨o.symbols, []⟩) ∧
    (∀ d source o, assemble d source = .ok o →
      ∀ label address, o.symbols.get? label = some address → Writable label) ∧
    ∀ text o, read? text = some o → read? (write o) = some o := by
  refine ⟨fun o => read?_write, fun d source o ok label address => writable_of_assemble ok, ?_⟩
  intro text o read
  obtain ⟨bare, writable⟩ := writable_of_read? read
  rw [read?_write writable, ← bare]

/-- A program with a label, and a file with an empty line and white space around addresses. -/
theorem read_back_halt :
    (∃ o, assemble .lc2200 "Go:HALT" = .ok o ∧ o.symbols.toList = [("Go", 0)] ∧
      read? (write o) = some ⟨o.symbols, []⟩) ∧
    ∃ o, read? "b c\t ff\r\n\na\t+0B" = some o ∧
      o.symbols.toList = [("a", 11), ("b c", 255)] ∧ read? (write o) = some o := by
  obtain ⟨written, labels, again⟩ := read_back
  constructor
  · let tokens : List Token := [⟨1, "Go", .word⟩, ⟨3, ":", .symbol ':'⟩, ⟨4, "HALT", .word⟩]
    let c : LineContents := ⟨["Go"], some (.instruction ⟨"halt", [], 1⟩)⟩
    have scanned : scan Lc2200.config "Go:HALT" = .ok [⟨1, tokens⟩] := by cbv
    have symbols : ∀ token ∈ tokens, ∀ c, token.kind = .symbol c → c ∈ Lc2200.config.symbols := by
      simp [tokens, Lc2200.config]
    have shape : Lc2200.IsLine (tokens.map (·.kind)) :=
      ⟨by decide, [.word, .symbol ':'], _, .inr rfl, .inr .mnemonic, rfl⟩
    obtain ⟨t, table, parse_iff⟩ := Dialect.lc2200.exists_table_parse_iff
    obtain ⟨tree, derives⟩ := Lc2200.exists_line_iff (n := 1).2 shape
    have lower : "HALT".toLower = "halt" := by decide +kernel
    have read : Lc2200.contents Lc2200.isa tree = .ok c := by
      refine (Lc2200.contents_eq_ok_iff derives (by decide)).2 ⟨rfl, _, rfl, ?_⟩
      rw [← lower]
      exact .instruction rfl .nil
    have contains : Dialect.lc2200.Contains t ⟨1, tokens⟩ (1, c) :=
      ⟨rfl, Dialect.lineContents_eq_ok.2 ⟨tree, (parse_iff symbols).2 derives, read⟩⟩
    have parsed : Dialect.lc2200.parse "Go:HALT" = .ok (Group.assembly [⟨0, 0, [(1, c)]⟩]) :=
      Dialect.parse_eq_ok.2 ⟨_, scanned, (Dialect.parseLines_eq_ok table).2
        ⟨_, .cons contains .nil, Builder.build_implicit.2 ⟨by decide, rfl⟩⟩⟩
    have generated : Dialect.lc2200.target.generate (Group.assembly [⟨0, 0, [(1, c)]⟩]) =
        .ok ⟨.ofList [("Go", 0)], [⟨0, [0x70000000]⟩]⟩ := by
      decide +kernel
    have ok := assemble_eq_ok.2 ⟨_, parsed, generated⟩
    exact ⟨_, ok, by decide +kernel, written _ (labels _ _ _ ok)⟩
  · have read : read? "b c\t ff\r\n\na\t+0B" = some ⟨.ofList [("a", 11), ("b c", 255)], []⟩ := by
      decide +kernel
    exact ⟨_, read, by decide +kernel, again _ _ read⟩

end SymbolText

end Assembler
