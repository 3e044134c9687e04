import Assembler.Proofs.Dialect.Shapes

/-! # Lines of the LC-2200 dialect

A line has a label, a statement or both. The grammar grows operands to the left, so what a tree of
operands flattens into is shown from its last operand, and no order is lost: the operands stand as
in the line, and only a memory operand has its base before its offset. Symbols have their numbers in
`Lc2200.grammar`.
-/

namespace Assembler.Lc2200

variable {isa : Isa} {n : Nat} {word tokens : List Token} {tree : Tree}

/-- Operands of one token. -/
def plainRows : List (List TokenKind) := [[.register], [.integer], [.word]]

/-- Memory operands: an offset, and a base in parentheses. -/
def memoryRows : List (List TokenKind) :=
  [[.integer, .symbol '(', .register, .symbol ')'], [.word, .symbol '(', .register, .symbol ')']]

/-- The kinds of the tokens of an operand. -/
def operandRows : List (List TokenKind) := plainRows ++ memoryRows

/-- A mnemonic with operands or a directive with at most one. -/
inductive IsStatement : List TokenKind → Prop where
  | mnemonic : IsStatement [.word]
  | instruction {kinds : List TokenKind} (operands : Separated operandRows kinds) :
      IsStatement (.word :: kinds)
  | directive : IsStatement [.directive]
  | directiveOf {kinds : List TokenKind} (operand : kinds ∈ operandRows) :
      IsStatement (.directive :: kinds)

/-- The kinds of the tokens of a line: a label with its colon, a statement or both. -/
def IsLine (kinds : List TokenKind) : Prop :=
  kinds ≠ [] ∧ ∃ label statement, (label = [] ∨ label = [.word, .symbol ':']) ∧
    (statement = [] ∨ IsStatement statement) ∧ kinds = label ++ statement

theorem derives_label_iff {trees : List Tree} :
    (Tree.reading grammar n).Derives grammar [.nonterminal 1] word trees ↔
      word.map (·.kind) ∈ [[.word, .symbol ':']] ∧
        trees = [.node "label" n (word.map (Tree.leaf n))] :=
  derives_rows_iff (by decide +kernel) (by decide +kernel)

theorem derives_operand_iff {trees : List Tree} :
    (Tree.reading grammar n).Derives grammar [.nonterminal 5] word trees ↔
      word.map (·.kind) ∈ operandRows ∧ trees = [.node "operand" n (word.map (Tree.leaf n))] :=
  derives_rows_iff (by decide +kernel) (by decide +kernel)

theorem derives_operands_iff {trees : List Tree} :
    (Tree.reading grammar n).Derives grammar [.nonterminal 4] word trees ↔
      (∃ last, (Tree.reading grammar n).Derives grammar [.nonterminal 5] word [last] ∧
        trees = [.node "operands" n [last]]) ∨
      ∃ front comma behind before last, word = front ++ comma :: behind ∧
        comma.kind = .symbol ',' ∧
        (Tree.reading grammar n).Derives grammar [.nonterminal 4] front [before] ∧
        (Tree.reading grammar n).Derives grammar [.nonterminal 5] behind [last] ∧
        trees = [.node "operands" n [before, .leaf n comma, last]] :=
  derives_list_iff (by decide) (by decide +kernel)

theorem derives_instr_iff {trees : List Tree} :
    (Tree.reading grammar n).Derives grammar [.nonterminal 3] word trees ↔
      ∃ name rest behind, word = name :: rest ∧ name.kind = .word ∧
        ((rest = [] ∧ behind = []) ∨ ∃ list,
          (Tree.reading grammar n).Derives grammar [.nonterminal 4] rest [list] ∧
          behind = [list]) ∧
        trees = [.node "instr" n (.leaf n name :: behind)] :=
  derives_headed_iff (by decide) (by decide +kernel)

theorem derives_pseudo_iff {trees : List Tree} :
    (Tree.reading grammar n).Derives grammar [.nonterminal 6] word trees ↔
      ∃ name rest behind, word = name :: rest ∧ name.kind = .directive ∧
        ((rest = [] ∧ behind = []) ∨ ∃ operand,
          (Tree.reading grammar n).Derives grammar [.nonterminal 5] rest [operand] ∧
          behind = [operand]) ∧
        trees = [.node "pseudo" n (.leaf n name :: behind)] :=
  derives_headed_iff (by decide) (by decide +kernel)

theorem derives_stmt_iff : (Tree.reading grammar n).Derives grammar [.nonterminal 2] word [tree] ↔
    ∃ inner, ((Tree.reading grammar n).Derives grammar [.nonterminal 3] word [inner] ∨
      (Tree.reading grammar n).Derives grammar [.nonterminal 6] word [inner]) ∧
      tree = .node "stmt" n [inner] := by
  have rules : grammar.rows 2 = [[.nonterminal 3], [.nonterminal 6]] := by decide +kernel
  have named : grammar.name (.nonterminal 2) = "stmt" := rfl
  rw [derives_nonterminal_iff, rules, named]
  simp only [List.mem_cons, List.not_mem_nil, or_false, exists_eq_or_imp, exists_eq_left,
    List.singleton_inj]
  constructor
  · rintro (⟨children, inner, rfl⟩ | ⟨children, inner, rfl⟩)
    · obtain ⟨instr, rfl⟩ := List.length_eq_one_iff.1 inner.length_eq
      exact ⟨instr, .inl inner, rfl⟩
    · obtain ⟨pseudo, rfl⟩ := List.length_eq_one_iff.1 inner.length_eq
      exact ⟨pseudo, .inr inner, rfl⟩
  · rintro ⟨inner, instr | pseudo, rfl⟩
    · exact .inl ⟨_, instr, rfl⟩
    · exact .inr ⟨_, pseudo, rfl⟩

theorem exists_operand_iff (word : List Token) :
    (∃ tree, (Tree.reading grammar n).Derives grammar [.nonterminal 5] word [tree]) ↔
      word.map (·.kind) ∈ operandRows := by
  simp only [derives_operand_iff, List.singleton_inj, exists_and_left, exists_eq, and_true]

theorem exists_operands_iff (word : List Token) :
    (∃ tree, (Tree.reading grammar n).Derives grammar [.nonterminal 4] word [tree]) ↔
      Separated operandRows (word.map (·.kind)) :=
  derives_separated_iff (by decide) (by decide +kernel) exists_operand_iff (by decide)

theorem exists_stmt_iff (word : List Token) :
    (∃ tree, (Tree.reading grammar n).Derives grammar [.nonterminal 2] word [tree]) ↔
      IsStatement (word.map (·.kind)) := by
  simp only [derives_stmt_iff]
  constructor
  · rintro ⟨_, inner, instr | pseudo, -⟩
    · obtain ⟨name, rest, _, rfl, kind, ⟨rfl, -⟩ | ⟨list, below, -⟩, -⟩ := derives_instr_iff.1 instr
      · rw [List.map_singleton, kind]
        exact .mnemonic
      · rw [List.map_cons, kind]
        exact .instruction ((exists_operands_iff rest).1 ⟨list, below⟩)
    · obtain ⟨name, rest, _, rfl, kind, ⟨rfl, -⟩ | ⟨operand, below, -⟩, -⟩ :=
        derives_pseudo_iff.1 pseudo
      · rw [List.map_singleton, kind]
        exact .directive
      · rw [List.map_cons, kind]
        exact .directiveOf ((exists_operand_iff rest).1 ⟨operand, below⟩)
  · intro h
    generalize same : word.map (·.kind) = kinds at h
    cases h with
    | mnemonic =>
        obtain ⟨name, rfl, kind⟩ := List.map_eq_singleton_iff.1 same
        have instr := derives_instr_iff (n := n).2 ⟨name, [], [], rfl, kind, .inl ⟨rfl, rfl⟩, rfl⟩
        exact ⟨_, _, .inl instr, rfl⟩
    | instruction operands =>
        obtain ⟨name, rest, rfl, kind, rfl⟩ := List.map_eq_cons_iff.1 same
        obtain ⟨list, below⟩ := (exists_operands_iff rest).2 operands
        have instr := derives_instr_iff (n := n).2
          ⟨name, rest, [list], rfl, kind, .inr ⟨list, below, rfl⟩, rfl⟩
        exact ⟨_, _, .inl instr, rfl⟩
    | directive =>
        obtain ⟨name, rfl, kind⟩ := List.map_eq_singleton_iff.1 same
        have pseudo := derives_pseudo_iff (n := n).2 ⟨name, [], [], rfl, kind, .inl ⟨rfl, rfl⟩, rfl⟩
        exact ⟨_, _, .inr pseudo, rfl⟩
    | directiveOf operand =>
        obtain ⟨name, rest, rfl, kind, rfl⟩ := List.map_eq_cons_iff.1 same
        obtain ⟨leaf, below⟩ := (exists_operand_iff rest).2 operand
        have pseudo := derives_pseudo_iff (n := n).2
          ⟨name, rest, [leaf], rfl, kind, .inr ⟨leaf, below, rfl⟩, rfl⟩
        exact ⟨_, _, .inr pseudo, rfl⟩

/-- The tree of the label in front of a line, if there is one. -/
inductive LabelTrees (n : Nat) : List Token → List Tree → Prop where
  | none : LabelTrees n [] []
  | some {word : List Token} {tree : Tree}
      (h : (Tree.reading grammar n).Derives grammar [.nonterminal 1] word [tree]) :
      LabelTrees n word [tree]

/-- The tree of the statement of a line, if there is one. -/
inductive StatementTrees (n : Nat) : List Token → List Tree → Prop where
  | none : StatementTrees n [] []
  | some {word : List Token} {tree : Tree}
      (h : (Tree.reading grammar n).Derives grammar [.nonterminal 2] word [tree]) :
      StatementTrees n word [tree]

theorem exists_labelTrees_iff (word : List Token) : (∃ trees, LabelTrees n word trees) ↔
    word.map (·.kind) = [] ∨ word.map (·.kind) = [.word, .symbol ':'] := by
  constructor
  · rintro ⟨_, h⟩
    cases h with
    | none => exact .inl rfl
    | some h => exact .inr (List.mem_singleton.1 (derives_label_iff.1 h).1)
  · rintro (empty | same)
    · obtain rfl := List.map_eq_nil_iff.1 empty
      exact ⟨[], .none⟩
    · exact ⟨_, .some (derives_label_iff.2 ⟨List.mem_singleton.2 same, rfl⟩)⟩

theorem exists_statementTrees_iff (word : List Token) : (∃ trees, StatementTrees n word trees) ↔
    word.map (·.kind) = [] ∨ IsStatement (word.map (·.kind)) := by
  constructor
  · rintro ⟨_, h⟩
    cases h with
    | none => exact .inl rfl
    | some h => exact .inr ((exists_stmt_iff word).1 ⟨_, h⟩)
  · rintro (empty | shape)
    · obtain rfl := List.map_eq_nil_iff.1 empty
      exact ⟨[], .none⟩
    · obtain ⟨tree, derives⟩ := (exists_stmt_iff word).2 shape
      exact ⟨[tree], .some derives⟩

theorem IsStatement.ne_nil {kinds : List TokenKind} (h : IsStatement kinds) : kinds ≠ [] := by
  cases h <;> simp

/-- The tree of a line has those of its label and its statement below it, in this order. -/
theorem derives_line_iff :
    (Tree.reading grammar n).Derives grammar [.nonterminal 0] tokens [tree] ↔
      tokens ≠ [] ∧ ∃ front behind labels statements, tokens = front ++ behind ∧
        LabelTrees n front labels ∧ StatementTrees n behind statements ∧
        tree = .node "line" n (labels ++ statements) := by
  have rules : grammar.rows 0 =
      [[.nonterminal 1], [.nonterminal 1, .nonterminal 2], [.nonterminal 2]] := by
    decide +kernel
  have named : grammar.name (.nonterminal 0) = "line" := rfl
  rw [derives_nonterminal_iff, rules, named]
  simp only [List.mem_cons, List.not_mem_nil, or_false, exists_eq_or_imp, exists_eq_left,
    List.singleton_inj]
  constructor
  · have labelled : ∀ {word trees},
        (Tree.reading grammar n).Derives grammar [.nonterminal 1] word trees → word ≠ [] := by
      rintro word trees h rfl
      simpa using (derives_label_iff.1 h).1
    rintro (⟨children, inner, rfl⟩ | ⟨children, inner, rfl⟩ | ⟨children, inner, rfl⟩)
    · obtain ⟨label, rfl⟩ := List.length_eq_one_iff.1 inner.length_eq
      exact ⟨labelled inner, tokens, [], _, _, (List.append_nil _).symm, .some inner, .none, rfl⟩
    · obtain ⟨front, behind, label, statements, rfl, rfl, first, rest⟩ :=
        Reading.derives_cons_iff.1 inner
      obtain ⟨statement, rfl⟩ := List.length_eq_one_iff.1 rest.length_eq
      exact ⟨List.append_ne_nil_of_left_ne_nil (labelled first) _, front, behind, _, _, rfl,
        .some first, .some rest, rfl⟩
    · obtain ⟨statement, rfl⟩ := List.length_eq_one_iff.1 inner.length_eq
      have filled := ((exists_stmt_iff tokens).1 ⟨_, inner⟩).ne_nil
      exact ⟨by simpa using filled, [], tokens, _, _, rfl, .none, .some inner, rfl⟩
  · rintro ⟨filled, front, behind, labels, statements, rfl, label, statement, rfl⟩
    cases label with
    | none =>
        cases statement with
        | none => exact absurd rfl filled
        | some inner => exact .inr (.inr ⟨_, inner, rfl⟩)
    | some first =>
        cases statement with
        | none =>
            rw [List.append_nil]
            exact .inl ⟨_, first, rfl⟩
        | some rest => exact .inr (.inl ⟨_, first.append rest, rfl⟩)

theorem exists_line_iff :
    (∃ tree, (Tree.reading grammar n).Derives grammar [.nonterminal 0] tokens [tree]) ↔
      IsLine (tokens.map (·.kind)) := by
  simp only [derives_line_iff, IsLine, ne_eq, List.map_eq_nil_iff]
  constructor
  · rintro ⟨_, filled, front, behind, labels, statements, rfl, label, statement, -⟩
    exact ⟨filled, _, _, (exists_labelTrees_iff front).1 ⟨labels, label⟩,
      (exists_statementTrees_iff behind).1 ⟨statements, statement⟩, List.map_append⟩
  · rintro ⟨filled, label, statement, isLabel, isStatement, same⟩
    obtain ⟨front, behind, rfl, rfl, rfl⟩ := List.map_eq_append_iff.1 same
    obtain ⟨labels, label⟩ := (exists_labelTrees_iff front).2 isLabel
    obtain ⟨statements, statement⟩ := (exists_statementTrees_iff behind).2 isStatement
    exact ⟨_, filled, front, behind, labels, statements, rfl, label, statement, rfl⟩

/-- Whether a line begins with a label. -/
def hasLabel (tokens : List Token) : Bool :=
  tokens[1]?.any (·.kind == .symbol ':')

/-- The label of a line, if it has one. -/
def labelOf (tokens : List Token) : List Token :=
  if hasLabel tokens then tokens.take 1 else []

/-- The tokens of a line behind its label. -/
def statementOf (tokens : List Token) : List Token :=
  if hasLabel tokens then tokens.drop 2 else tokens

/-- The tokens of an operand that denote something: of a memory operand its base and then its
    offset. -/
def operandTokens : List Token → List Token
  | [offset, _, base, _] => [base, offset]
  | tokens => tokens

/-- The tokens of operands with commas between them. -/
def flatTokens (tokens : List Token) : List Token :=
  (tokens.splitOnP (·.kind == .symbol ',')).flatMap operandTokens

/-- The name of a statement and the tokens of its operands. -/
def statementTokens : List Token → List Token
  | [] => []
  | name :: operands => name :: flatTokens operands

theorem flatTokens_append {front behind : List Token} {comma : Token}
    (kind : comma.kind = .symbol ',') :
    flatTokens (front ++ comma :: behind) = flatTokens front ++ flatTokens behind := by
  rw [flatTokens, List.splitOnP_append_cons _ _ (by simp [kind]), List.flatMap_append]
  rfl

theorem flatTokens_operand (h : word.map (·.kind) ∈ operandRows) :
    flatTokens word = operandTokens word := by
  have rows : ∀ row ∈ operandRows, .symbol ',' ∉ row := by decide
  have plain : ∀ token ∈ word, (token.kind == .symbol ',') = false := by
    intro token member
    rw [beq_eq_false_iff_ne]
    exact ne_of_mem_of_not_mem (List.mem_map_of_mem member) (rows _ h)
  rw [flatTokens, List.splitOnP_eq_singleton plain, List.flatMap_singleton]

theorem exists_of_mem_operandRows (h : word.map (·.kind) ∈ operandRows) :
    (∃ token, word = [token]) ∨
      ∃ offset opening base closing, word = [offset, opening, base, closing] := by
  have lengths : ∀ row ∈ operandRows, row.length = 1 ∨ row.length = 4 := by decide
  have length := lengths _ h
  rw [List.length_map] at length
  match word, length with
  | [token], _ => exact .inl ⟨token, rfl⟩
  | [offset, opening, base, closing], _ => exact .inr ⟨offset, opening, base, closing, rfl⟩

theorem operandsOf_node (h : word.map (·.kind) ∈ operandRows) :
    operandsOf isa (.node "operand" n (word.map (Tree.leaf n))) =
      (operandTokens word).mapM fun token => (Tree.leaf n token).operand isa := by
  obtain ⟨token, rfl⟩ | ⟨offset, opening, base, closing, rfl⟩ := exists_of_mem_operandRows h
  · simp [operandsOf, Tree.node, operandTokens]
  · simp [operandsOf, Tree.node, operandTokens]

theorem flatten_operand {operand : Tree}
    (h : (Tree.reading grammar n).Derives grammar [.nonterminal 5] word [operand]) :
    flatten isa operand = (flatTokens word).mapM fun token => (Tree.leaf n token).operand isa := by
  obtain ⟨row, same⟩ := derives_operand_iff.1 h
  obtain rfl := List.singleton_inj.1 same
  rw [flatTokens_operand row, ← operandsOf_node row]
  rfl

theorem flattenAll_cons {part : Tree} (parts : List Tree) (h : part.symbol ≠ ",") :
    flattenAll isa (part :: parts) =
      (do return (← flatten isa part) ++ (← flattenAll isa parts)) := by
  rw [flattenAll, if_neg h]

theorem flattenAll_singleton {part : Tree} (h : part.symbol ≠ ",") :
    flattenAll isa [part] = flatten isa part := by
  rw [flattenAll_cons [] h, flattenAll]
  cases flatten isa part with
  | error e => rfl
  | ok operands => exact congrArg Except.ok (List.append_nil operands)

/-- Operands flatten into what their tokens denote, from left to right. -/
theorem flatten_operands {list : Tree}
    (h : (Tree.reading grammar n).Derives grammar [.nonterminal 4] word [list]) :
    flatten isa list = (flatTokens word).mapM fun token => (Tree.leaf n token).operand isa := by
  have named : ∀ {word : List Token} {operand : Tree},
      (Tree.reading grammar n).Derives grammar [.nonterminal 5] word [operand] →
      operand.symbol ≠ "," := by
    intro word operand h
    rw [List.singleton_inj.1 (derives_operand_iff.1 h).2]
    exact (by decide : "operand" ≠ ",")
  -- the grammar splits the last operand off, so the induction is on the number of tokens
  induction size : word.length using Nat.strong_induction_on generalizing word list with
  | _ size ih =>
      subst size
      rcases derives_operands_iff.1 h with ⟨last, here, same⟩ |
        ⟨front, comma, behind, before, last, rfl, kind, left, right, same⟩
      · obtain rfl := List.singleton_inj.1 same
        calc flatten isa (.node "operands" n [last])
            = flattenAll isa [last] := rfl
          _ = flatten isa last := flattenAll_singleton (named here)
          _ = _ := flatten_operand here
      · obtain rfl := List.singleton_inj.1 same
        have shorter : front.length < (front ++ comma :: behind).length := by simp
        have list : before.symbol ≠ "," := by
          obtain ⟨_, -, _, -, same⟩ := derives_nonterminal_iff.1 left
          rw [List.singleton_inj.1 same]
          exact (by decide : "operands" ≠ ",")
        have skipped : flattenAll isa [.leaf n comma, last] = flatten isa last := by
          have symbol : (Tree.leaf n comma).symbol = "," := congrArg TokenKind.name kind
          rw [flattenAll, if_pos symbol, flattenAll_singleton (named right)]
        calc flatten isa (.node "operands" n [before, .leaf n comma, last])
            = flattenAll isa [before, .leaf n comma, last] := rfl
          _ = (do return (← flatten isa before) ++ (← flatten isa last)) := by
            rw [flattenAll_cons _ list, skipped]
          _ = _ := by
            rw [flatTokens_append kind, List.mapM_append, ih _ shorter left rfl,
              flatten_operand right]

section Contents

variable {s : Statement} {c : LineContents}

theorem statement_pseudo {pseudo : Tree}
    (h : (Tree.reading grammar n).Derives grammar [.nonterminal 6] word [pseudo])
    (filled : ∀ token ∈ word, token.text ≠ "") : statement isa (.node "stmt" n [pseudo]) =
      if word.length > 2 then .error (.malformed n)
      else (pseudo.directive isa).map .directive := by
  have length : pseudo.leaves.length = word.length := by
    rw [h.leaves filled, List.length_map]
  obtain ⟨_, _, _, -, -, -, same⟩ := derives_pseudo_iff.1 h
  obtain rfl := List.singleton_inj.1 same
  rw [← length]
  rfl

theorem statement_instr_iff {name : Token} {rest : List Token} {instr : Tree}
    (h : (Tree.reading grammar n).Derives grammar [.nonterminal 3] (name :: rest) [instr]) :
    statement isa (.node "stmt" n [instr]) = .ok s ↔ s.ReadFrom isa n name (flatTokens rest) := by
  obtain ⟨_, _, _, whole, kind, shape, same⟩ := derives_instr_iff.1 h
  obtain ⟨rfl, rfl⟩ := List.cons.inj whole
  obtain rfl := List.singleton_inj.1 same
  rw [Statement.readFrom_word_iff kind]
  rcases shape with ⟨rfl, rfl⟩ | ⟨list, below, rfl⟩
  · constructor
    · intro read
      cases read
      exact ⟨[], .nil, rfl⟩
    · rintro ⟨operands, decoded, rfl⟩
      cases decoded
      rfl
  · simp only [← mapM_eq_ok, ← flatten_operands below]
    exact map_eq_ok

/-- A directive is read off its name and its operand, of which a memory operand has too many
    tokens. -/
theorem statement_pseudo_iff {name : Token} {rest : List Token} {pseudo : Tree}
    (h : (Tree.reading grammar n).Derives grammar [.nonterminal 6] (name :: rest) [pseudo])
    (filled : ∀ token ∈ name :: rest, token.text ≠ "") :
    statement isa (.node "stmt" n [pseudo]) = .ok s ↔ s.ReadFrom isa n name (flatTokens rest) := by
  have leaves := h.leaves filled
  rw [statement_pseudo h filled]
  obtain ⟨_, _, _, whole, kind, shape, same⟩ := derives_pseudo_iff.1 h
  obtain ⟨rfl, rfl⟩ := List.cons.inj whole
  obtain rfl := List.singleton_inj.1 same
  have cases : rest.length ≤ 1 ∧ flatTokens rest = rest ∨
      rest.length = 4 ∧ (flatTokens rest).length = 2 := by
    rcases shape with ⟨rfl, -⟩ | ⟨operand, below, -⟩
    · exact .inl ⟨by decide, rfl⟩
    · have row := (exists_operand_iff rest).1 ⟨operand, below⟩
      rw [flatTokens_operand row]
      obtain ⟨token, rfl⟩ | ⟨offset, opening, base, closing, rfl⟩ := exists_of_mem_operandRows row
      · exact .inl ⟨Nat.le_refl 1, rfl⟩
      · exact .inr ⟨rfl, rfl⟩
  rcases cases with ⟨short, flat⟩ | ⟨long, flat⟩
  · rw [if_neg (by rw [List.length_cons]; omega), map_eq_ok, flat]
    exact (Tree.readFrom_iff_directive kind rfl leaves).symm
  · rw [if_pos (by rw [List.length_cons]; omega), Statement.readFrom_directive_iff kind]
    constructor
    · intro read
      cases read
    · rintro ⟨operand?, decoded, -⟩
      have length := decoded.length_eq
      rw [flat] at length
      cases operand? <;> cases length

theorem statement_eq_ok_iff {name : Token} {rest : List Token}
    (h : (Tree.reading grammar n).Derives grammar [.nonterminal 2] (name :: rest) [tree])
    (filled : ∀ token ∈ name :: rest, token.text ≠ "") :
    statement isa tree = .ok s ↔ s.ReadFrom isa n name (flatTokens rest) := by
  obtain ⟨inner, instr | pseudo, rfl⟩ := derives_stmt_iff.1 h
  · exact statement_instr_iff instr
  · exact statement_pseudo_iff pseudo filled

theorem statement_memory {name : Token} {rest : List Token}
    (h : (Tree.reading grammar n).Derives grammar [.nonterminal 2] (name :: rest) [tree])
    (filled : ∀ token ∈ name :: rest, token.text ≠ "") (kind : name.kind = .directive)
    (memory : rest.map (·.kind) ∈ memoryRows) : statement isa tree = .error (.malformed n) := by
  have lengths : ∀ row ∈ memoryRows, row.length = 4 := by decide
  have length := lengths _ memory
  rw [List.length_map] at length
  obtain ⟨inner, instr | pseudo, rfl⟩ := derives_stmt_iff.1 h
  · obtain ⟨other, _, _, same, word, -⟩ := derives_instr_iff.1 instr
    obtain ⟨rfl, -⟩ := List.cons.inj same
    rw [kind] at word
    cases word
  · rw [statement_pseudo pseudo filled, List.length_cons, length]
    rfl

theorem foldlM_labels {front : List Token} {labels : List Tree} (h : LabelTrees n front labels)
    (filled : ∀ token ∈ front, token.text ≠ "") :
    labels.foldlM (addPart isa n) ⟨[], none⟩ = .ok ⟨(front.take 1).map (·.text), none⟩ := by
  cases h with
  | none => rfl
  | @some _ label derives =>
      have leaves := derives.leaves filled
      have symbol : label.symbol = "label" := by
        rw [List.singleton_inj.1 (derives_label_iff.1 derives).2]
        rfl
      rw [List.foldlM_cons, addPart, if_pos symbol, leaves, List.head?_map]
      cases front with
      | nil => rfl
      | cons name colon => rfl

theorem foldlM_statement (acc : LineContents)
    (h : (Tree.reading grammar n).Derives grammar [.nonterminal 2] word [tree]) :
    [tree].foldlM (addPart isa n) acc =
      (statement isa tree).map fun s => { acc with statement? := some s } := by
  obtain ⟨inner, -, rfl⟩ := derives_stmt_iff.1 h
  rw [List.foldlM_cons]
  exact bind_pure _

theorem IsStatement.plain {kinds : List TokenKind} (h : IsStatement kinds) :
    .symbol ':' ∉ kinds := by
  have rows : ∀ row ∈ operandRows, .symbol ':' ∉ row := by decide
  cases h with
  | mnemonic => decide
  | instruction operands =>
      intro member
      rcases List.mem_cons.1 member with head | member
      · cases head
      · rcases operands.mem _ member with comma | ⟨row, listed, inside⟩
        · cases comma
        · exact rows row listed inside
  | directive => decide
  | directiveOf operand =>
      intro member
      rcases List.mem_cons.1 member with head | member
      · cases head
      · exact rows _ operand member

/-- A colon behind the first word tells a label from a statement. -/
theorem labelOf_append {front behind : List Token} {labels statements : List Tree}
    (label : LabelTrees n front labels) (statement : StatementTrees n behind statements) :
    labelOf (front ++ behind) = front.take 1 ∧ statementOf (front ++ behind) = behind := by
  cases label with
  | none =>
      have plain : ∀ token ∈ behind, token.kind ≠ .symbol ':' := by
        rcases (exists_statementTrees_iff behind).1 ⟨_, statement⟩ with empty | shape
        · simp [List.map_eq_nil_iff.1 empty]
        · intro token member
          exact ne_of_mem_of_not_mem (List.mem_map_of_mem member) shape.plain
      have unlabelled : hasLabel behind = false := by
        rw [hasLabel, Option.any_eq_false]
        intro token second
        simpa using plain token (List.mem_of_getElem? second)
      simp [labelOf, statementOf, unlabelled]
  | some derives =>
      obtain ⟨name, rest, rfl, -, same⟩ :=
        List.map_eq_cons_iff.1 (List.mem_singleton.1 (derives_label_iff.1 derives).1)
      obtain ⟨colon, rfl, kind⟩ := List.map_eq_singleton_iff.1 same
      have labelled : hasLabel ([name, colon] ++ behind) = true := by simp [hasLabel, kind]
      rw [labelOf, statementOf, if_pos labelled, if_pos labelled]
      exact ⟨rfl, rfl⟩

theorem contents_line {front : List Token} {labels : List Tree} (statements : List Tree)
    (h : LabelTrees n front labels) (filled : ∀ token ∈ front, token.text ≠ "") :
    contents isa (.node "line" n (labels ++ statements)) =
      statements.foldlM (addPart isa n) ⟨(front.take 1).map (·.text), none⟩ := by
  have parts : contents isa (.node "line" n (labels ++ statements)) =
    (labels ++ statements).foldlM (addPart isa n) ⟨[], none⟩ := rfl
  rw [parts, List.foldlM_append, foldlM_labels h filled]
  rfl

theorem contents_eq_ok_iff
    (derives : (Tree.reading grammar n).Derives grammar [.nonterminal 0] tokens [tree])
    (filled : ∀ token ∈ tokens, token.text ≠ "") : contents isa tree = .ok c ↔
      c.ListedBy isa n (labelOf tokens) (statementTokens (statementOf tokens)) := by
  obtain ⟨-, front, behind, labels, statements, rfl, label, parts, rfl⟩ :=
    derives_line_iff.1 derives
  obtain ⟨early, late⟩ := List.forall_mem_append.1 filled
  obtain ⟨first, second⟩ := labelOf_append label parts
  rw [first, second, contents_line statements label early]
  cases parts with
  | none => exact pure_eq_ok.trans LineContents.listedBy_nil_iff.symm
  | @some _ part below =>
      have shape := (exists_stmt_iff behind).1 ⟨part, below⟩
      obtain ⟨name, rest, rfl⟩ := List.exists_cons_of_ne_nil (List.map_eq_nil_iff.not.1 shape.ne_nil)
      simp only [statementTokens, LineContents.listedBy_cons_iff, ← statement_eq_ok_iff below late]
      rw [foldlM_statement _ below, map_eq_ok]

theorem contents_memory {name : Token} {operand : List Token}
    (derives : (Tree.reading grammar n).Derives grammar [.nonterminal 0] tokens [tree])
    (filled : ∀ token ∈ tokens, token.text ≠ "") (split : statementOf tokens = name :: operand)
    (kind : name.kind = .directive) (memory : operand.map (·.kind) ∈ memoryRows) :
    contents isa tree = .error (.malformed n) := by
  obtain ⟨-, front, behind, labels, statements, rfl, label, parts, rfl⟩ :=
    derives_line_iff.1 derives
  obtain ⟨early, late⟩ := List.forall_mem_append.1 filled
  rw [(labelOf_append label parts).2] at split
  subst split
  rw [contents_line statements label early]
  cases parts with
  | some below =>
      rw [foldlM_statement _ below, statement_memory below late kind memory]
      rfl

end Contents

/-- The lines that are parsed are those with a label, a statement or both. The label is the first
    word, and the statement is read off its name and its operands from left to right, where a memory
    operand has its base before its offset. No directive takes a memory operand. -/
theorem line_flattened (line : Line) (filled : ∀ token ∈ line.tokens, token.text ≠ "")
    (symbols : ∀ token ∈ line.tokens, ∀ c, token.kind = .symbol c → c ∈ config.symbols) :
    ∃ t, Lc2200.table = .ok t ∧
      ((∃ tree, t.parse line = .ok tree) ↔ IsLine (line.tokens.map (·.kind))) ∧
      ∀ isa tree, t.parse line = .ok tree →
        (∀ c, contents isa tree = .ok c ↔ c.ListedBy isa line.number (labelOf line.tokens)
          (statementTokens (statementOf line.tokens))) ∧
        ∀ name operand, statementOf line.tokens = name :: operand → name.kind = .directive →
          operand.map (·.kind) ∈ memoryRows →
          contents isa tree = .error (.malformed line.number) := by
  obtain ⟨t, table, parse_iff⟩ := Dialect.lc2200.exists_table_parse_iff
  refine ⟨t, table, ?_, ?_⟩
  · simp only [parse_iff symbols]
    exact exists_line_iff
  · intro isa tree parsed
    have derives := (parse_iff symbols).1 parsed
    refine ⟨fun c => contents_eq_ok_iff derives filled, fun name operand split kind memory => ?_⟩
    exact contents_memory derives filled split kind memory

/-- The line `loop: LW $a0, -4($sp)`, and a directive with such an operand. -/
theorem line_flattened_lw :
    let memory : List Token := [⟨15, "-4", .integer⟩, ⟨17, "(", .symbol '('⟩,
      ⟨18, "$sp", .register⟩, ⟨21, ")", .symbol ')'⟩]
    (∃ t tree, Lc2200.table = .ok t ∧
      t.parse ⟨2, [⟨1, "loop", .word⟩, ⟨5, ":", .symbol ':'⟩, ⟨7, "LW", .word⟩,
        ⟨10, "$a0", .register⟩, ⟨13, ",", .symbol ','⟩] ++ memory⟩ = .ok tree ∧
      contents Lc2200.isa tree = .ok ⟨["loop"], some (.instruction
        ⟨"lw", [.register '$' 3, .register '$' 13, .integer (-4)], 2⟩)⟩) ∧
    ∃ t tree, Lc2200.table = .ok t ∧
      t.parse ⟨3, ⟨8, ".word", .directive⟩ :: memory⟩ = .ok tree ∧
      contents Lc2200.isa tree = .error (.malformed 3) := by
  intro memory
  constructor
  · let tokens : List Token := [⟨1, "loop", .word⟩, ⟨5, ":", .symbol ':'⟩, ⟨7, "LW", .word⟩,
      ⟨10, "$a0", .register⟩, ⟨13, ",", .symbol ','⟩] ++ memory
    have symbols : ∀ token ∈ tokens, ∀ c, token.kind = .symbol c → c ∈ config.symbols := by
      simp [tokens, memory, config]
    have shape : IsLine (tokens.map (·.kind)) :=
      ⟨by decide, [.word, .symbol ':'], _, .inr rfl, .inr (.instruction (by decide)), rfl⟩
    obtain ⟨t, table, accepted, flattened⟩ := line_flattened ⟨2, tokens⟩ (by decide) symbols
    obtain ⟨tree, parsed⟩ := accepted.2 shape
    refine ⟨t, tree, table, parsed, ((flattened Lc2200.isa tree parsed).1 _).2 ⟨rfl, _, rfl, ?_⟩⟩
    have lower : "LW".toLower = "lw" := by decide +kernel
    have target : (Tree.leaf 2 ⟨10, "$a0", .register⟩).operand Lc2200.isa =
        .ok (.register '$' 3) := by
      decide +kernel
    have base : (Tree.leaf 2 ⟨18, "$sp", .register⟩).operand Lc2200.isa =
        .ok (.register '$' 13) := by
      decide +kernel
    have offset : (Tree.leaf 2 ⟨15, "-4", .integer⟩).operand Lc2200.isa = .ok (.integer (-4)) := by
      decide +kernel
    rw [← lower]
    exact .instruction rfl (.cons target (.cons base (.cons offset .nil)))
  · have symbols : ∀ token ∈ ⟨8, ".word", .directive⟩ :: memory,
        ∀ c, token.kind = .symbol c → c ∈ config.symbols := by
      simp [memory, config]
    obtain ⟨t, table, accepted, flattened⟩ :=
      line_flattened ⟨3, ⟨8, ".word", .directive⟩ :: memory⟩ (by decide) symbols
    obtain ⟨tree, parsed⟩ := accepted.2
      ⟨by decide, [], _, .inl rfl, .inr (.directiveOf (by decide)), rfl⟩
    exact ⟨t, tree, table, parsed,
      (flattened Lc2200.isa tree parsed).2 _ memory rfl rfl (by decide)⟩

end Assembler.Lc2200
