import Assembler.Dialect.Leaf
import Assembler.Program.Builder
import Assembler.Proofs.Dialect.Grammars
import Assembler.Proofs.Outcome
import Assembler.Proofs.Parsing.Inversion

/-! # What lines of tokens look like

Both dialects write operands with commas between them and read a statement off its name and the
tokens of its operands. What is said about that here knows neither grammar.
-/

namespace Assembler

/-- Rows of kinds with commas between them: split at the commas, every part is one of the rows. -/
def Separated (rows : List (List TokenKind)) (kinds : List TokenKind) : Prop :=
  ∀ part ∈ kinds.splitOn (.symbol ','), part ∈ rows

instance (rows : List (List TokenKind)) (kinds : List TokenKind) :
    Decidable (Separated rows kinds) :=
  inferInstanceAs (Decidable (∀ part ∈ kinds.splitOn (.symbol ','), part ∈ rows))

theorem separated_append {rows : List (List TokenKind)} {front last : List TokenKind} :
    Separated rows (front ++ .symbol ',' :: last) ↔ Separated rows front ∧ Separated rows last := by
  simp only [Separated, List.splitOn_append_cons_self, List.forall_mem_append]

theorem separated_of_not_mem {rows : List (List TokenKind)} {kinds : List TokenKind}
    (h : .symbol ',' ∉ kinds) : Separated rows kinds ↔ kinds ∈ rows := by
  simp only [Separated, List.splitOn_eq_singleton h, List.forall_mem_singleton]

theorem Separated.mem {rows : List (List TokenKind)} {kinds : List TokenKind}
    (h : Separated rows kinds) : ∀ kind ∈ kinds, kind = .symbol ',' ∨ ∃ row ∈ rows, kind ∈ row := by
  induction size : kinds.length using Nat.strong_induction_on generalizing kinds with
  | _ size ih =>
      subst size
      intro kind member
      by_cases divided : .symbol ',' ∈ kinds
      · obtain ⟨front, last, rfl, free⟩ := List.eq_append_cons_of_mem divided
        obtain ⟨first, rest⟩ := separated_append.1 h
        have shorter : last.length < (front ++ .symbol ',' :: last).length := by
          simp only [List.length_append, List.length_cons]
          omega
        rcases List.mem_append.1 member with early | late
        · exact .inr ⟨front, (separated_of_not_mem free).1 first, early⟩
        · rcases List.mem_cons.1 late with comma | late
          · exact .inl comma
          · exact ih _ shorter rest rfl kind late
      · exact .inr ⟨kinds, (separated_of_not_mem divided).1 h, member⟩

section Lists

variable {g : Grammar} {n list item : Nat} {word : List Token} {trees : List Tree}
variable (known : (TokenKind.symbol ',').name ∈ g.terminals)
  (rules : g.rows list = [[.nonterminal item],
    [.nonterminal list, g.symbolOfKind (.symbol ','), .nonterminal item]])
include known rules

theorem derives_list_iff : (Tree.reading g n).Derives g [.nonterminal list] word trees ↔
    (∃ last, (Tree.reading g n).Derives g [.nonterminal item] word [last] ∧
      trees = [.node (g.name (.nonterminal list)) n [last]]) ∨
    ∃ front comma behind before last, word = front ++ comma :: behind ∧
      comma.kind = .symbol ',' ∧ (Tree.reading g n).Derives g [.nonterminal list] front [before] ∧
      (Tree.reading g n).Derives g [.nonterminal item] behind [last] ∧
      trees = [.node (g.name (.nonterminal list)) n [before, .leaf n comma, last]] := by
  rw [derives_nonterminal_iff, rules]
  simp only [List.mem_cons, List.not_mem_nil, or_false, exists_eq_or_imp, exists_eq_left]
  constructor
  · rintro (⟨children, inner, rfl⟩ | ⟨children, inner, rfl⟩)
    · obtain ⟨last, rfl⟩ := List.length_eq_one_iff.1 inner.length_eq
      exact .inl ⟨last, inner, rfl⟩
    · obtain ⟨front, _, before, _, rfl, rfl, left, inner⟩ := Reading.derives_cons_iff.1 inner
      obtain ⟨comma, behind, _, rfl, rfl, kind, inner⟩ := (derives_kind_cons_iff known).1 inner
      obtain ⟨last, rfl⟩ := List.length_eq_one_iff.1 inner.length_eq
      exact .inr ⟨front, comma, behind, before, last, rfl, kind, left, inner, rfl⟩
  · rintro (⟨last, here, rfl⟩ | ⟨front, comma, behind, before, last, rfl, kind, left, right, rfl⟩)
    · exact .inl ⟨[last], here, rfl⟩
    · have inner := (derives_kind_cons_iff known).2 ⟨comma, behind, _, rfl, rfl, kind, right⟩
      exact .inr ⟨_, left.append inner, rfl⟩

/-- Lists of items are items with commas between them. -/
theorem derives_separated_iff {rows : List (List TokenKind)}
    (items : ∀ word, (∃ tree, (Tree.reading g n).Derives g [.nonterminal item] word [tree]) ↔
      word.map (·.kind) ∈ rows)
    (plain : ∀ row ∈ rows, .symbol ',' ∉ row) :
    (∃ tree, (Tree.reading g n).Derives g [.nonterminal list] word [tree]) ↔
      Separated rows (word.map (·.kind)) := by
  induction size : word.length using Nat.strong_induction_on generalizing word with
  | _ size ih =>
      subst size
      constructor
      · rintro ⟨tree, derives⟩
        rcases (derives_list_iff known rules).1 derives with
          ⟨last, here, -⟩ | ⟨front, comma, behind, before, last, rfl, kind, left, right, -⟩
        · have row := (items word).1 ⟨last, here⟩
          exact (separated_of_not_mem (plain _ row)).2 row
        · have row := (items behind).1 ⟨last, right⟩
          have shorter : front.length < (front ++ comma :: behind).length := by simp
          rw [List.map_append, List.map_cons, kind, separated_append]
          exact ⟨(ih _ shorter rfl).1 ⟨before, left⟩, (separated_of_not_mem (plain _ row)).2 row⟩
      · intro separated
        by_cases divided : .symbol ',' ∈ word.map (·.kind)
        · -- the last comma splits off the last item
          obtain ⟨late, early, reversed, free⟩ :=
            List.eq_append_cons_of_mem (List.mem_reverse.2 divided)
          have split := congrArg List.reverse reversed
          rw [List.reverse_reverse, List.reverse_append, List.reverse_cons, List.append_assoc,
            List.singleton_append] at split
          obtain ⟨front, rest, rfl, before, split⟩ := List.map_eq_append_iff.1 split
          obtain ⟨comma, behind, rfl, kind, after⟩ := List.map_eq_cons_iff.1 split
          rw [List.map_append, List.map_cons, kind, separated_append] at separated
          have shorter : front.length < (front ++ comma :: behind).length := by simp
          have plainly : .symbol ',' ∉ behind.map (·.kind) := by
            rw [after, List.mem_reverse]
            exact free
          obtain ⟨before, left⟩ := (ih _ shorter rfl).2 separated.1
          obtain ⟨last, right⟩ :=
            (items behind).2 ((separated_of_not_mem plainly).1 separated.2)
          exact ⟨_, (derives_list_iff known rules).2
            (.inr ⟨front, comma, behind, before, last, rfl, kind, left, right, rfl⟩)⟩
        · obtain ⟨last, here⟩ := (items word).2 ((separated_of_not_mem divided).1 separated)
          exact ⟨_, (derives_list_iff known rules).2 (.inl ⟨last, here, rfl⟩)⟩

end Lists

/-- What begins with a token of a kind has an item behind it or nothing. -/
theorem derives_headed_iff {g : Grammar} {n head item : Nat} {kind : TokenKind} {word : List Token}
    {trees : List Tree} (known : kind.name ∈ g.terminals)
    (rules : g.rows head = [[g.symbolOfKind kind], [g.symbolOfKind kind, .nonterminal item]]) :
    (Tree.reading g n).Derives g [.nonterminal head] word trees ↔
      ∃ name rest behind, word = name :: rest ∧ name.kind = kind ∧
        ((rest = [] ∧ behind = []) ∨ ∃ tree,
          (Tree.reading g n).Derives g [.nonterminal item] rest [tree] ∧ behind = [tree]) ∧
        trees = [.node (g.name (.nonterminal head)) n (.leaf n name :: behind)] := by
  rw [derives_nonterminal_iff, rules]
  simp only [List.mem_cons, List.not_mem_nil, or_false, exists_eq_or_imp, exists_eq_left,
    derives_kind_cons_iff known, Reading.derives_nil_iff]
  constructor
  · rintro (⟨_, ⟨name, rest, behind, rfl, rfl, here, alone⟩, rfl⟩ |
      ⟨_, ⟨name, rest, behind, rfl, rfl, here, inner⟩, rfl⟩)
    · exact ⟨name, rest, behind, rfl, here, .inl alone, rfl⟩
    · obtain ⟨tree, rfl⟩ := List.length_eq_one_iff.1 inner.length_eq
      exact ⟨name, rest, [tree], rfl, here, .inr ⟨tree, inner, rfl⟩, rfl⟩
  · rintro ⟨name, rest, behind, rfl, here, alone | ⟨tree, inner, rfl⟩, rfl⟩
    · exact .inl ⟨_, ⟨name, rest, behind, rfl, rfl, here, alone⟩, rfl⟩
    · exact .inr ⟨_, ⟨name, rest, [tree], rfl, rfl, here, inner⟩, rfl⟩

/-- Statements that are read off the token of their name and the tokens of their operands. -/
inductive Statement.ReadFrom (isa : Isa) (n : Nat) : Token → List Token → Statement → Prop where
  | instruction {name : Token} {tokens : List Token} {operands : List Operand}
      (kind : name.kind = .word)
      (decoded : List.Forall₂ (fun token operand => (Tree.leaf n token).operand isa = .ok operand)
        tokens operands) :
      ReadFrom isa n name tokens (.instruction ⟨name.text.toLower, operands, n⟩)
  | directive {name : Token} {tokens : List Token} {operand? : Option Operand}
      (kind : name.kind = .directive)
      (decoded : List.Forall₂ (fun token operand => (Tree.leaf n token).operand isa = .ok operand)
        tokens operand?.toList) :
      ReadFrom isa n name tokens (.directive ⟨Tree.directiveName name.text, operand?, n⟩)

/-- Contents that tokens list: the labels, then the name of the statement, if there is one, and its
    operands. -/
def LineContents.ListedBy (isa : Isa) (n : Nat) (labels statement : List Token) (c : LineContents) :
    Prop :=
  c.labels = labels.map (·.text) ∧
    match statement with
    | [] => c.statement? = none
    | name :: operands => ∃ s, c.statement? = some s ∧ s.ReadFrom isa n name operands

section Reading

variable {isa : Isa} {n : Nat} {name : Token} {labels tokens : List Token} {s : Statement}
  {c : LineContents}

theorem Statement.readFrom_word_iff (kind : name.kind = .word) :
    s.ReadFrom isa n name tokens ↔ ∃ operands,
      List.Forall₂ (fun token operand => (Tree.leaf n token).operand isa = .ok operand)
        tokens operands ∧ .instruction ⟨name.text.toLower, operands, n⟩ = s := by
  constructor
  · intro h
    cases h with
    | instruction _ decoded => exact ⟨_, decoded, rfl⟩
    | directive other _ =>
        rw [kind] at other
        cases other
  · rintro ⟨operands, decoded, rfl⟩
    exact .instruction kind decoded

theorem Statement.readFrom_directive_iff (kind : name.kind = .directive) :
    s.ReadFrom isa n name tokens ↔ ∃ operand?,
      List.Forall₂ (fun token operand => (Tree.leaf n token).operand isa = .ok operand)
        tokens operand?.toList ∧ .directive ⟨Tree.directiveName name.text, operand?, n⟩ = s := by
  constructor
  · intro h
    cases h with
    | instruction other _ =>
        rw [kind] at other
        cases other
    | directive _ decoded => exact ⟨_, decoded, rfl⟩
  · rintro ⟨operand?, decoded, rfl⟩
    exact .directive kind decoded

theorem LineContents.listedBy_nil_iff :
    c.ListedBy isa n labels [] ↔ ⟨labels.map (·.text), none⟩ = c := by
  obtain ⟨names, statement?⟩ := c
  rw [eq_comm, LineContents.mk.injEq]
  exact Iff.rfl

theorem LineContents.listedBy_cons_iff : c.ListedBy isa n labels (name :: tokens) ↔
    ∃ s, s.ReadFrom isa n name tokens ∧ ⟨labels.map (·.text), some s⟩ = c := by
  constructor
  · rintro ⟨same, s, found, read⟩
    exact ⟨s, read, by rw [← same, ← found]⟩
  · rintro ⟨s, read, rfl⟩
    exact ⟨rfl, s, rfl, read⟩

namespace Tree

theorem symbol_leaf_eq_iff {token : Token} (kind : TokenKind) :
    (leaf n token).symbol = kind.name ↔ token.kind = kind :=
  TokenKind.name_injective.eq_iff

theorem directive_eq_ok_iff {node : Tree} {d : Directive} (line : node.line = n)
    (leaves : node.leaves = (name :: tokens).map (leaf n)) :
    node.directive isa = .ok d ↔ ∃ operand?,
      List.Forall₂ (fun token operand => (leaf n token).operand isa = .ok operand)
        tokens operand?.toList ∧ ⟨directiveName name.text, operand?, n⟩ = d := by
  rw [directive, leaves, line]
  constructor
  · intro h
    match tokens, h with
    | [], h =>
        cases h
        exact ⟨none, .nil, rfl⟩
    | [token], h =>
        obtain ⟨operand, decoded, same⟩ := bind_eq_ok.1 h
        exact ⟨some operand, .cons decoded .nil, pure_eq_ok.1 same⟩
  · rintro ⟨operand?, decoded, rfl⟩
    cases operand? with
    | none =>
        cases decoded
        rfl
    | some operand =>
        obtain ⟨token, _, here, ended, rfl⟩ := List.forall₂_cons_right_iff.1 decoded
        cases ended
        exact bind_eq_ok.2 ⟨operand, here, rfl⟩

theorem readFrom_iff_directive {node : Tree} (kind : name.kind = .directive) (line : node.line = n)
    (leaves : node.leaves = (name :: tokens).map (leaf n)) :
    s.ReadFrom isa n name tokens ↔ ∃ d, node.directive isa = .ok d ∧ .directive d = s := by
  simp only [Statement.readFrom_directive_iff kind, directive_eq_ok_iff line leaves]
  constructor
  · rintro ⟨operand?, decoded, rfl⟩
    exact ⟨_, ⟨operand?, decoded, rfl⟩, rfl⟩
  · rintro ⟨_, ⟨operand?, decoded, rfl⟩, rfl⟩
    exact ⟨operand?, decoded, rfl⟩

end Tree

end Reading

theorem Dialect.exists_table_parse_iff (d : Dialect) : ∃ t, d.table = .ok t ∧
    ∀ {line : Line} {tree : Tree},
      (∀ token ∈ line.tokens, ∀ c, token.kind = .symbol c → c ∈ d.config.symbols) →
      (t.parse line = .ok tree ↔ (Tree.reading d.grammar line.number).Derives d.grammar
        [.nonterminal d.grammar.goal] line.tokens [tree]) := by
  obtain ⟨t, ofGrammar, table⟩ := d.exists_table
  refine ⟨t, table, fun symbols => ?_⟩
  exact Table.parse_eq_ok_iff d.wellFormed_grammar ofGrammar fun token member =>
    name_ne_endName (symbols token member)

end Assembler
