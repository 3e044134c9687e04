import Assembler.Proofs.Dialect.Grammars
import Assembler.Proofs.Dialect.Lines
import Assembler.Proofs.Dialect.Spelling

/-! # Printed programs are read back

The tokens of a printed statement have a derivation in the line grammar, from which the statement
is put together again. Where the first operand is a label, the grammar takes it for one of the words
in front of the line, and the mnemonic before it tells what it is. Symbols and productions have
their numbers in `Complx.grammar`, where lines, words, directives, lists of operands, operands and
arguments are the nonterminals 0 to 5.
-/

namespace Assembler

/-- A statement on another line. -/
def Statement.withLine (n : Nat) : Statement → Statement
  | .instruction i => .instruction { i with line := n }
  | .directive d => .directive { d with line := n }

namespace Complx

open Munch

variable {n : Nat} {token : Token} {tokens : List Token} {operand : Operand}
  {operands : List Operand}

theorem derives_node {p : Nat} {production : Production} {name : String} {children : List Tree}
    (rule : grammar.productions[p]? = some production)
    (named : grammar.name (.nonterminal production.lhs) = name)
    (inner : (Tree.reading grammar n).Derives grammar production.rhs tokens children) :
    (Tree.reading grammar n).Derives grammar [.nonterminal production.lhs] tokens
      [.node name n children] := by
  have whole := Reading.Derives.node rule inner .nil
  rw [List.append_nil] at whole
  exact named ▸ whole

theorem derives_leaf {kind : TokenKind} {i : Nat} {symbols : List Symbol} {rest : List Token}
    {trees : List Tree} (h : token.kind = kind)
    (index : lastIndexOf? kind.name grammar.terminals = some i)
    (behind : (Tree.reading grammar n).Derives grammar symbols rest trees) :
    (Tree.reading grammar n).Derives grammar (.terminal i :: symbols) (token :: rest)
      (.leaf n token :: trees) :=
  .leaf (by simp [Tree.reading, h, index]) behind

theorem derives_arg (h : kindText token = operandToken operand)
    (unlabelled : operand.kind ≠ .label) : (Tree.reading grammar n).Derives grammar
      [.nonterminal 5] [token] [.node "arg" n [.leaf n token]] := by
  cases operand with
  | register sigil num =>
      have kind : token.kind = .register := congrArg Prod.fst h
      exact derives_node (p := 18) rfl rfl (derives_leaf kind (by decide) .nil)
  | integer value =>
      have kind : token.kind = .integer := congrArg Prod.fst h
      exact derives_node (p := 19) rfl rfl (derives_leaf kind (by decide) .nil)
  | label name => exact absurd rfl unlabelled
  | string text =>
      have kind : token.kind = .string := congrArg Prod.fst h
      exact derives_node (p := 20) rfl rfl (derives_leaf kind (by decide) .nil)

theorem exists_label_of_kind (h : operand.kind = .label) : ∃ name, operand = .label name := by
  cases operand with
  | label name => exact ⟨name, rfl⟩
  | register => cases h
  | integer => cases h
  | string => cases h

theorem derives_operand (h : kindText token = operandToken operand) : ∃ tree,
    (Tree.reading grammar n).Derives grammar [.nonterminal 4] [token] [tree] := by
  by_cases labelled : operand.kind = .label
  · obtain ⟨name, rfl⟩ := exists_label_of_kind labelled
    have kind : token.kind = .word := congrArg Prod.fst h
    exact ⟨_, derives_node (p := 16) rfl rfl (derives_leaf kind (by decide) .nil)⟩
  · exact ⟨_, derives_node (p := 17) rfl rfl (derives_arg h labelled)⟩

/-- Further operands, each behind a comma. -/
def moreTokens (operands : List Operand) : List (TokenKind × String) :=
  operands.flatMap fun operand => [(.symbol ',', ","), operandToken operand]

theorem operandTokens_cons (operand : Operand) (operands : List Operand) :
    operandTokens (operand :: operands) = operandToken operand :: moreTokens operands := by
  induction operands generalizing operand with
  | nil => rfl
  | cons next operands ih =>
      have behind := ih next
      simp only [operandTokens, List.map_cons, List.intersperse_cons_cons] at behind ⊢
      rw [behind]
      rfl

theorem exists_more {rest : List Token} (h : rest.map kindText = moreTokens (operand :: operands)) :
    ∃ comma token more, rest = comma :: token :: more ∧ comma.kind = .symbol ',' ∧
      comma.text = "," ∧ kindText token = operandToken operand ∧
      more.map kindText = moreTokens operands := by
  obtain ⟨comma, behind, rfl, first, h⟩ := List.map_eq_cons_iff.1 h
  obtain ⟨token, more, rfl, second, others⟩ := List.map_eq_cons_iff.1 h
  exact ⟨comma, token, more, rfl, congrArg Prod.fst first, congrArg Prod.snd first, second, others⟩

/-- A list of operands grows to the right. -/
theorem derives_oplist {tree : Tree} {rest : List Token}
    (front : (Tree.reading grammar n).Derives grammar [.nonterminal 3] tokens [tree])
    (h : rest.map kindText = moreTokens operands) : ∃ tree,
      (Tree.reading grammar n).Derives grammar [.nonterminal 3] (tokens ++ rest) [tree] := by
  induction operands generalizing tokens tree rest with
  | nil =>
      obtain rfl := List.map_eq_nil_iff.1 h
      exact ⟨tree, by rwa [List.append_nil]⟩
  | cons operand operands ih =>
      obtain ⟨comma, token, more, rfl, kind, -, second, others⟩ := exists_more h
      obtain ⟨last, derives⟩ := derives_operand (n := n) second
      -- oplist -> oplist ',' operand
      have longer := derives_node (n := n) (p := 15) rfl rfl
        (front.append (derives_leaf kind (by decide) derives))
      obtain ⟨whole, derives⟩ := ih longer others
      exact ⟨whole, by simpa using derives⟩

theorem operand_leaf (h : kindText token = operandToken operand)
    (printable : PrintableOperand operand) :
    (Tree.leaf n token).operand Lc3.isa = .ok operand := by
  obtain ⟨kind, text⟩ := Prod.mk.inj (h.trans (operandToken_eq operand))
  rw [String.ofList_toList] at text
  cases operand with
  | register sigil num =>
      obtain ⟨rfl, small⟩ := printable
      obtain ⟨sigil, number⟩ := registerNumber?_render num small
      have symbol : (Tree.leaf n token).symbol = "reg" := congrArg TokenKind.name kind
      rw [Tree.operand, symbol]
      simp only [Tree.registerOperand, Tree.leaf, text, sigil, number]
  | integer value =>
      have symbol : (Tree.leaf n token).symbol = "int" := congrArg TokenKind.name kind
      have spelled : token.text.toList = '#' :: (toString value).toList := by
        rw [text, Operand.render, String.toList_append]
        rfl
      rw [Tree.operand, symbol]
      simp only [Tree.leaf, spelled, Literal.value?_toString printable]
  | label name =>
      have symbol : (Tree.leaf n token).symbol = "word" := congrArg TokenKind.name kind
      rw [Tree.operand, symbol]
      exact congrArg (fun text => Except.ok (Operand.label text)) text
  | string value =>
      have symbol : (Tree.leaf n token).symbol = "string" := congrArg TokenKind.name kind
      have spelled : token.text.toList = Text.stringLiteral value.toList := by
        rw [text, Operand.render, String.toList_ofList]
      rw [Tree.operand, symbol]
      simp only [Tree.leaf, spelled, Text.dropQuotes_stringLiteral, Text.unescape_escape,
        String.ofList_toList]

theorem text_ne_empty (h : kindText token = operandToken operand)
    (printable : PrintableOperand operand) : token.text ≠ "" := by
  have text : token.text = operand.render := by
    have spelled := congrArg Prod.snd (h.trans (operandToken_eq operand))
    rwa [String.ofList_toList] at spelled
  intro empty
  apply (lexeme_operand printable).alone.filled
  rw [← text, empty]
  rfl

theorem text_ne_empty_of_more {rest : List Token} (h : rest.map kindText = moreTokens operands)
    (printable : ∀ o ∈ operands, PrintableOperand o) : ∀ token ∈ rest, token.text ≠ "" := by
  induction operands generalizing rest with
  | nil =>
      obtain rfl := List.map_eq_nil_iff.1 h
      simp
  | cons operand operands ih =>
      obtain ⟨first, others⟩ := List.forall_mem_cons.1 printable
      obtain ⟨comma, token, more, rfl, -, text, second, behind⟩ := exists_more h
      refine List.forall_mem_cons.2 ⟨by simp [text], ?_⟩
      exact List.forall_mem_cons.2 ⟨text_ne_empty second first, ih behind others⟩

theorem symbol_ne_comma (h : kindText token = operandToken operand) :
    ((Tree.leaf n token).symbol != ",") = true := by
  have kind : token.kind = (operandToken operand).1 := congrArg Prod.fst h
  cases operand <;> simp [Tree.leaf, kind, operandToken, TokenKind.name]

theorem operands_of_more {rest : List Token} (h : rest.map kindText = moreTokens operands)
    (printable : ∀ o ∈ operands, PrintableOperand o) :
    ((rest.map (Tree.leaf n)).filter (·.symbol != ",")).mapM (Tree.operand Lc3.isa) =
      .ok operands := by
  induction operands generalizing rest with
  | nil =>
      obtain rfl := List.map_eq_nil_iff.1 h
      rfl
  | cons operand operands ih =>
      obtain ⟨first, others⟩ := List.forall_mem_cons.1 printable
      obtain ⟨comma, token, more, rfl, kind, -, second, behind⟩ := exists_more h
      have skipped : ((Tree.leaf n comma).symbol != ",") = false := by
        simp [Tree.leaf, kind, TokenKind.name]
      rw [List.map_cons, List.map_cons, List.filter_cons_of_neg (by simp [skipped]),
        List.filter_cons_of_pos (by exact symbol_ne_comma second), List.mapM_cons,
        operand_leaf second first, ih behind others]
      rfl

theorem operandLeaves_eq {tree : Tree} {symbols : List Symbol}
    (h : (Tree.reading grammar n).Derives grammar symbols tokens [tree])
    (filled : ∀ token ∈ tokens, token.text ≠ "") :
    operandLeaves tree = (tokens.map (Tree.leaf n)).filter (·.symbol != ",") := by
  rw [operandLeaves, h.leaves filled]

theorem exists_oplist {rest : List Token} (h : rest.map kindText = moreTokens (operand :: operands))
    (printable : ∀ o ∈ operand :: operands, PrintableOperand o) :
    ∃ comma list tree, rest = comma :: list ∧ comma.kind = .symbol ',' ∧
      (Tree.reading grammar n).Derives grammar [.nonterminal 3] list [tree] ∧
      (operandLeaves tree).mapM (Tree.operand Lc3.isa) = .ok (operand :: operands) := by
  have filled := text_ne_empty_of_more h printable
  have read := operands_of_more (n := n) h printable
  obtain ⟨comma, token, more, rfl, kind, -, second, others⟩ := exists_more h
  obtain ⟨first, derives⟩ := derives_operand (n := n) second
  -- oplist -> operand
  obtain ⟨tree, derives⟩ := derives_oplist (derives_node (p := 14) rfl rfl derives) others
  refine ⟨comma, token :: more, tree, rfl, kind, derives, ?_⟩
  have skipped : ((Tree.leaf n comma).symbol != ",") = false := by
    simp [Tree.leaf, kind, TokenKind.name]
  rw [List.map_cons, List.filter_cons_of_neg (by simp [skipped])] at read
  rw [operandLeaves_eq derives fun token member => filled token (List.mem_cons_of_mem _ member)]
  exact read

theorem classify_words {isa : Isa} {words : List Token} (h : ∀ word ∈ words, word.kind = .word)
    (line : Nat) (tail : Tail) :
    classify isa line (.node "words" n (words.map (Tree.leaf n))) tail =
      sortWords isa line [] tail (words.map (·.text)) := by
  have symbols : ∀ leaf ∈ words.map (Tree.leaf n), leaf.symbol = "word" := by
    intro leaf member
    obtain ⟨word, known, rfl⟩ := List.mem_map.1 member
    exact congrArg TokenKind.name (h word known)
  have texts : wordsOf (.node "words" n (words.map (Tree.leaf n))) = words.map (·.text) := by
    unfold wordsOf
    rw [List.filter_eq_self.2 fun leaf member => by simp [symbols leaf member]]
    exact List.map_map
  have plain : hasColon (.node "words" n (words.map (Tree.leaf n))) = false := by
    unfold hasColon
    cases second : (words.map (Tree.leaf n))[1]? with
    | none => simp [Tree.node, second]
    | some leaf => simp [Tree.node, second, symbols leaf (List.mem_of_getElem? second)]
  simp [classify, plain, texts]

theorem contents_arg {op first : Token} {rest : List Token} (word : op.kind = .word)
    (lower : op.text.toLower = op.text) (h : kindText first = operandToken operand)
    (others : rest.map kindText = moreTokens operands)
    (printable : ∀ o ∈ operand :: operands, PrintableOperand o)
    (unlabelled : operand.kind ≠ .label) : ∃ tree,
      (Tree.reading grammar n).Derives grammar [.nonterminal 0] (op :: first :: rest) [tree] ∧
        contents Lc3.isa tree =
          .ok ⟨[], some (.instruction ⟨op.text, operand :: operands, n⟩)⟩ := by
  obtain ⟨printable, behind⟩ := List.forall_mem_cons.1 printable
  have words : (Tree.reading grammar n).Derives grammar [.nonterminal 1] [op]
      [.node "words" n [.leaf n op]] :=
    derives_node (p := 6) rfl rfl (derives_leaf word (by decide) .nil)
  have arg := derives_arg (n := n) h unlabelled
  have read := operand_leaf (n := n) h printable
  have leaves : operandLeaves (.node "arg" n [.leaf n first]) = [.leaf n first] := by
    rw [operandLeaves_eq arg (by simpa using text_ne_empty h printable)]
    exact List.filter_cons_of_pos (symbol_ne_comma h)
  have sorted (tail : Tail) : classify Lc3.isa n (.node "words" n [.leaf n op]) tail =
      sortWords Lc3.isa n [] tail [op.text] :=
    classify_words (List.forall_mem_singleton.2 word) n tail
  cases operands with
  | nil =>
      obtain rfl := List.map_eq_nil_iff.1 others
      -- line -> words arg
      refine ⟨_, derives_node (p := 2) rfl rfl (words.append arg), ?_⟩
      calc contents Lc3.isa (.node "line" n
            [.node "words" n [.leaf n op], .node "arg" n [.leaf n first]])
          = classify Lc3.isa n (.node "words" n [.leaf n op])
            (.operands (operandLeaves (.node "arg" n [.leaf n first]))) := rfl
        _ = sortWords Lc3.isa n [] (.operands [.leaf n first]) [op.text] := by rw [leaves, sorted]
        _ = .ok ⟨[], some (.instruction ⟨op.text, [operand], n⟩)⟩ := by
          simp [sortWords, read, instruction, lower]
  | cons next operands =>
      obtain ⟨comma, list, tree, rfl, kind, derives, further⟩ :=
        exists_oplist (n := n) others behind
      -- line -> words arg ',' oplist
      refine ⟨_, derives_node (p := 3) rfl rfl
        (words.append (arg.append (derives_leaf kind (by decide) derives))), ?_⟩
      calc contents Lc3.isa (.node "line" n [.node "words" n [.leaf n op],
            .node "arg" n [.leaf n first], .leaf n comma, tree])
          = classify Lc3.isa n (.node "words" n [.leaf n op])
            (.operands (operandLeaves (.node "arg" n [.leaf n first]) ++ operandLeaves tree)) := rfl
        _ = sortWords Lc3.isa n [] (.operands (.leaf n first :: operandLeaves tree)) [op.text] := by
          rw [leaves, sorted, List.singleton_append]
        _ = .ok ⟨[], some (.instruction ⟨op.text, operand :: next :: operands, n⟩)⟩ := by
          simp only [sortWords, List.reverse_singleton, List.mapM_cons, read, further, instruction,
            lower]
          rfl

theorem contents_label {op first : Token} {rest : List Token} (word : op.kind = .word)
    (lower : op.text.toLower = op.text) (mnemonic : Lc3.isa.isMnemonic op.text = true)
    (label : first.kind = .word) (others : rest.map kindText = moreTokens operands)
    (printable : ∀ o ∈ operands, PrintableOperand o) : ∃ tree,
      (Tree.reading grammar n).Derives grammar [.nonterminal 0] (op :: first :: rest) [tree] ∧
        contents Lc3.isa tree =
          .ok ⟨[], some (.instruction ⟨op.text, .label first.text :: operands, n⟩)⟩ := by
  have words : (Tree.reading grammar n).Derives grammar [.nonterminal 1] [op, first]
      [.node "words" n [.leaf n op, .leaf n first]] :=
    derives_node (p := 8) rfl rfl
      (derives_leaf word (by decide) (derives_leaf label (by decide) .nil))
  have sorted (tail : Tail) :
      classify Lc3.isa n (.node "words" n [.leaf n op, .leaf n first]) tail =
        sortWords Lc3.isa n [] tail [op.text, first.text] :=
    classify_words (List.forall_mem_cons.2 ⟨word, List.forall_mem_singleton.2 label⟩) n tail
  cases operands with
  | nil =>
      obtain rfl := List.map_eq_nil_iff.1 others
      -- line -> words, and that the first word is a mnemonic makes the second an operand
      refine ⟨_, derives_node (p := 0) rfl rfl words, ?_⟩
      calc contents Lc3.isa (.node "line" n [.node "words" n [.leaf n op, .leaf n first]])
          = classify Lc3.isa n (.node "words" n [.leaf n op, .leaf n first]) .nothing := rfl
        _ = sortWords Lc3.isa n [] .nothing [op.text, first.text] := sorted _
        _ = .ok ⟨[], some (.instruction ⟨op.text, [.label first.text], n⟩)⟩ := by
          simp [sortWords, mnemonic, instruction, lower]
  | cons next operands =>
      obtain ⟨comma, list, tree, rfl, kind, derives, further⟩ :=
        exists_oplist (n := n) others printable
      -- line -> words ',' oplist, where the comma alone makes the last word an operand
      refine ⟨_, derives_node (p := 1) rfl rfl
        (words.append (derives_leaf kind (by decide) derives)), ?_⟩
      have symbol : (Tree.leaf n comma).symbol = "," := congrArg TokenKind.name kind
      calc contents Lc3.isa (.node "line" n [.node "words" n [.leaf n op, .leaf n first],
            .leaf n comma, tree])
          = classify Lc3.isa n (.node "words" n [.leaf n op, .leaf n first])
            (.comma (operandLeaves tree)) := if_pos symbol
        _ = sortWords Lc3.isa n [] (.comma (operandLeaves tree)) [op.text, first.text] := sorted _
        _ = .ok ⟨[], some (.instruction ⟨op.text, .label first.text :: next :: operands, n⟩)⟩ := by
          simp [sortWords, further, instruction, lower]

theorem contents_mnemonic {op : Token} (word : op.kind = .word)
    (lower : op.text.toLower = op.text) (mnemonic : Lc3.isa.isMnemonic op.text = true) : ∃ tree,
      (Tree.reading grammar n).Derives grammar [.nonterminal 0] [op] [tree] ∧
        contents Lc3.isa tree = .ok ⟨[], some (.instruction ⟨op.text, [], n⟩)⟩ := by
  refine ⟨_, derives_node (p := 0) rfl rfl (derives_node (p := 6) rfl rfl
    (derives_leaf word (by decide) .nil)), ?_⟩
  calc contents Lc3.isa (.node "line" n [.node "words" n [.leaf n op]])
      = classify Lc3.isa n (.node "words" n [.leaf n op]) .nothing := rfl
    _ = sortWords Lc3.isa n [] .nothing [op.text] :=
      classify_words (List.forall_mem_singleton.2 word) n .nothing
    _ = .ok ⟨[], some (.instruction ⟨op.text, [], n⟩)⟩ := by
      simp [sortWords, mnemonic, instruction, lower]

theorem contents_instruction {i : Instruction} (h : PrintableStatement (.instruction i))
    (spelled : tokens.map kindText = statementTokens (.instruction i)) : ∃ tree,
      (Tree.reading grammar n).Derives grammar [.nonterminal 0] tokens [tree] ∧
        contents Lc3.isa tree = .ok ⟨[], some (.instruction { i with line := n })⟩ := by
  obtain ⟨named, printable⟩ := h
  obtain ⟨lower, mnemonic⟩ := isMnemonic_of_mem named
  obtain ⟨op, behind, rfl, first, rest⟩ := List.map_eq_cons_iff.1 spelled
  have word : op.kind = .word := congrArg Prod.fst first
  have text : op.text = i.op := congrArg Prod.snd first
  rw [← text] at lower mnemonic
  obtain ⟨name, operands, line⟩ := i
  cases operands with
  | nil =>
      obtain rfl := List.map_eq_nil_iff.1 rest
      rw [← text]
      exact contents_mnemonic word lower mnemonic
  | cons operand operands =>
      rw [operandTokens_cons] at rest
      obtain ⟨token, more, rfl, second, others⟩ := List.map_eq_cons_iff.1 rest
      rw [← text]
      by_cases labelled : operand.kind = .label
      · obtain ⟨name, rfl⟩ := exists_label_of_kind labelled
        have label : token.kind = .word := congrArg Prod.fst second
        have name : token.text = name := congrArg Prod.snd second
        rw [← name]
        exact contents_label word lower mnemonic label others (List.forall_mem_cons.1 printable).2
      · exact contents_arg word lower second others printable labelled

theorem directiveName_dot {op : String} (h : IsName op.toList) (lower : op.toLower = op) :
    Tree.directiveName ("." ++ op) = op := by
  have undotted : op.toList.dropWhile (· == '.') = op.toList := by
    apply List.dropWhile_eq_self_iff.2
    intro filled
    have first := h.isWordChar _ (List.getElem_mem filled)
    simpa using ne_of_isWordChar first (by decide : isWordChar [] '.' = false)
  have dotted : ("." ++ op).toList = '.' :: op.toList := by rw [String.toList_append]; rfl
  rw [Tree.directiveName, dotted, List.dropWhile_cons_of_pos (by decide), undotted,
    ← String.toList_map, String.ofList_toList]
  exact lower

theorem contents_pseudo {children : List Tree} {d : Directive}
    (h : (Tree.node "pseudo" n children).directive Lc3.isa = .ok d) :
    contents Lc3.isa (.node "line" n [.node "pseudo" n children]) =
      .ok ⟨[], some (.directive d)⟩ := by
  have read : contents Lc3.isa (.node "line" n [.node "pseudo" n children]) =
      ((Tree.node "pseudo" n children).directive Lc3.isa).map fun d => ⟨[], some (.directive d)⟩ :=
    rfl
  rw [read, h]
  rfl

theorem contents_directive {d : Directive} (h : PrintableStatement (.directive d))
    (spelled : tokens.map kindText = statementTokens (.directive d)) : ∃ tree,
      (Tree.reading grammar n).Derives grammar [.nonterminal 0] tokens [tree] ∧
        contents Lc3.isa tree = .ok ⟨[], some (.directive { d with line := n })⟩ := by
  obtain ⟨named, lower, printable⟩ := h
  obtain ⟨op, behind, rfl, first, rest⟩ := List.map_eq_cons_iff.1 spelled
  have kind : op.kind = .directive := congrArg Prod.fst first
  have text : op.text = "." ++ d.op := congrArg Prod.snd first
  have name : Tree.directiveName op.text = d.op := by rw [text, directiveName_dot named lower]
  have filled : op.text ≠ "" := by
    intro empty
    have length := congrArg String.length (text.symm.trans empty)
    simp [String.length_append] at length
  obtain ⟨directive, operand?, line⟩ := d
  cases operand? with
  | none =>
      obtain rfl := List.map_eq_nil_iff.1 rest
      have pseudo : (Tree.reading grammar n).Derives grammar [.nonterminal 2] [op]
          [.node "pseudo" n [.leaf n op]] :=
        derives_node (p := 12) rfl rfl (derives_leaf kind (by decide) .nil)
      have leaves := pseudo.leaves (List.forall_mem_singleton.2 filled)
      refine ⟨_, derives_node (p := 5) rfl rfl pseudo, contents_pseudo ?_⟩
      rw [Tree.directive, leaves]
      exact congrArg (fun name => Except.ok (Directive.mk name none n)) name
  | some operand =>
      obtain ⟨token, more, rfl, second, others⟩ := List.map_eq_cons_iff.1 rest
      obtain rfl := List.map_eq_nil_iff.1 others
      obtain ⟨tree, derives⟩ := derives_operand (n := n) second
      replace printable := printable operand rfl
      have pseudo : (Tree.reading grammar n).Derives grammar [.nonterminal 2] [op, token]
          [.node "pseudo" n [.leaf n op, tree]] :=
        derives_node (p := 13) rfl rfl (derives_leaf kind (by decide) derives)
      have leaves := pseudo.leaves (List.forall_mem_cons.2
        ⟨filled, List.forall_mem_singleton.2 (text_ne_empty second printable)⟩)
      refine ⟨_, derives_node (p := 5) rfl rfl pseudo, contents_pseudo ?_⟩
      rw [Tree.directive, leaves]
      simp only [List.map_cons, List.map_nil, operand_leaf second printable]
      exact congrArg (fun name => Except.ok (Directive.mk name (some operand) n)) name

/-- A line of a printed statement contains that statement. -/
theorem contents_statement {s : Statement} (h : PrintableStatement s)
    (spelled : tokens.map kindText = statementTokens s) : ∃ tree,
      (Tree.reading grammar n).Derives grammar [.nonterminal 0] tokens [tree] ∧
        contents Lc3.isa tree = .ok ⟨[], some (s.withLine n)⟩ := by
  cases s with
  | instruction i => exact contents_instruction h spelled
  | directive d => exact contents_directive h spelled

theorem contains_statement {t : Table} (table : Table.ofGrammar grammar = .ok t) {s : Statement}
    (h : PrintableStatement s) {line : Line} (spelled : content line = (statementTokens s, n)) :
    Dialect.complx.Contains t line (n, ⟨[], some (s.withLine n)⟩) := by
  obtain ⟨tokens, rfl⟩ := Prod.mk.inj spelled
  obtain ⟨tree, derives, contents⟩ := contents_statement h tokens
  exact ⟨rfl, Dialect.lineContents_eq_ok.2
    ⟨tree, Table.parse_of_derives Dialect.complx.wellFormed_grammar table derives, contents⟩⟩

/-- The source text of statements. -/
def text (statements : List Statement) : String :=
  "\n".intercalate (statements.map (·.render))

theorem scan_text {s : Statement} {statements : List Statement}
    (h : ∀ s' ∈ s :: statements, PrintableStatement s') : ∃ lines,
      scan config (text (s :: statements)) = .ok lines ∧
        lines.map content = ((s :: statements).map statementTokens).zipIdx 1 := by
  have phrases : List.Forall₂
      (fun s s' => Spells config.classes s.render.toList (statementTokens s'))
      (s :: statements) (s :: statements) :=
    List.forall₂_same.2 fun s' member => (phrase_statement (h s' member)).spells
  have filled : ∀ tokens ∈ (s :: statements).map statementTokens, tokens ≠ [] := by
    intro tokens member
    obtain ⟨s', -, rfl⟩ := List.mem_map.1 member
    cases s' <;> simp [statementTokens]
  have unbroken : ∀ line ∈ (s :: statements).map (·.render.toList), Unbroken line := by
    intro line member
    obtain ⟨s', known, rfl⟩ := List.mem_map.1 member
    exact (phrase_statement (h s' known)).unbroken
  obtain ⟨lines, scanned, contents⟩ :=
    scanLines_of_spells (List.forall₂_map_left_iff.2 (List.forall₂_map_right_iff.2 phrases))
      filled 1
  refine ⟨lines, ?_, contents⟩
  have characters : (text (s :: statements)).toList =
      ['\n'].intercalate ((s :: statements).map (·.render.toList)) := by
    rw [text, String.toList_intercalate, List.map_map]
    rfl
  have whole : scan config (text (s :: statements)) =
      Munch.scan config.classes (text (s :: statements)).toList :=
    Scanner.run_ofClasses config.classes _
  rw [whole, characters, Munch.scan, List.map_cons, splitLines_intercalate unbroken]
  exact scanned

/-- What the lines of printed statements contain, from a line on. -/
def found (statements : List Statement) (n : Nat) : List (Nat × LineContents) :=
  (statements.zipIdx n).map fun (s, n) => (n, ⟨[], some (s.withLine n)⟩)

theorem contains_statements {t : Table} (table : Table.ofGrammar grammar = .ok t)
    {statements : List Statement} (h : ∀ s ∈ statements, PrintableStatement s) {lines : List Line}
    (spelled : lines.map content = (statements.map statementTokens).zipIdx n) :
    List.Forall₂ (Dialect.complx.Contains t) lines (found statements n) := by
  induction statements generalizing lines n with
  | nil =>
      obtain rfl := List.map_eq_nil_iff.1 spelled
      exact .nil
  | cons s statements ih =>
      obtain ⟨first, others⟩ := List.forall_mem_cons.1 h
      obtain ⟨line, rest, rfl, here, behind⟩ := List.map_eq_cons_iff.1 spelled
      exact .cons (contains_statement table first here) (ih others behind)

theorem found_cons (s : Statement) (statements : List Statement) (n : Nat) :
    found (s :: statements) n = (n, ⟨[], some (s.withLine n)⟩) :: found statements (n + 1) := rfl

theorem statementsOf_found (statements : List Statement) (n : Nat) :
    Group.statementsOf (found statements n) = statements.mapIdx fun i s => s.withLine (i + n) := by
  induction statements generalizing n with
  | nil => rfl
  | cons s statements ih =>
      have shift : (fun i s => Statement.withLine (i + 1 + n) s) =
          fun i s => Statement.withLine (i + (n + 1)) s := by
        funext i s
        rw [Nat.add_assoc, Nat.add_comm 1 n]
      rw [found_cons, Group.statementsOf_cons, ih, List.mapIdx_cons, Nat.zero_add, shift]
      rfl

theorem labelsOf_found (statements : List Statement) (n : Nat) :
    Group.labelsOf (found statements n) = [] := by
  induction statements generalizing n with
  | nil => rfl
  | cons s statements ih =>
      rw [found_cons]
      exact ih (n + 1)

theorem build_found {start : UInt32} {statements : List Statement}
    (h : ∀ d, .directive d ∈ statements → d.op ≠ "orig" ∧ d.op ≠ "end") :
    Builder.build sections (found (.directive ⟨"orig", some (.integer start.toNat), 1⟩ ::
      (statements ++ [.directive ⟨"end", none, 1⟩])) 1) =
      .ok ⟨[⟨start, statements.mapIdx fun i s => s.withLine (i + 2), 1⟩], .empty⟩ := by
  have lines : found (.directive ⟨"orig", some (.integer start.toNat), 1⟩ ::
      (statements ++ [.directive ⟨"end", none, 1⟩])) 1 =
      (1, ⟨[], some (.directive ⟨"orig", some (.integer start.toNat), 1⟩)⟩) ::
        (found statements 2 ++ [(2 + statements.length,
          ⟨[], some (.directive ⟨"end", none, 2 + statements.length⟩)⟩)]) := by
    simp [found, List.zipIdx_append, Statement.withLine]
  have inside : ∀ line ∈ found statements 2, ¬line.2.Delimits "orig" "end" := by
    rintro line member ⟨d, statement, delimits⟩
    obtain ⟨⟨s, n⟩, known, rfl⟩ := List.mem_map.1 member
    have listed : s ∈ statements := List.fst_mem_of_mem_zipIdx known
    cases s with
    | instruction i => cases statement
    | directive d' =>
        cases statement
        obtain ⟨opening, closing⟩ := h d' listed
        exact delimits.elim opening closing
  have labels : Group.sites 0 0 (found statements 2) = [] := by
    apply List.map_eq_nil_iff.1
    rw [Group.map_fst_sites, labelsOf_found]
  apply (Builder.build_explicit (by decide)).2
  refine ⟨[⟨start, 1, found statements 2⟩], ?_, ?_, ?_⟩
  · have range : (0 : Int) ≤ start.toNat ∧ (start.toNat : Int) < 2 ^ 32 := by
      have := start.toNat_lt
      omega
    have grouped := @Sectioned.group _ _ 1 (2 + statements.length) 1 (2 + statements.length) _ _ _ _
      range inside .nil
    rw [lines]
    simpa using grouped
  · rw [labelsOf_found]
    exact List.nodup_nil
  · simp only [Group.assembly, Group.toSection, statementsOf_found, Group.sitesFrom, labels,
      List.map_cons, List.map_nil, List.append_nil]
    rfl

/-- Printed statements between the directives of a section are read back, each on its line. -/
theorem parse_render (start : UInt32) {statements : List Statement}
    (printable : ∀ s ∈ statements, PrintableStatement s)
    (within : ∀ d, .directive d ∈ statements → d.op ≠ "orig" ∧ d.op ≠ "end") :
    Dialect.complx.parse ("\n".intercalate
        ((".orig #" ++ toString start.toNat) :: statements.map Statement.render ++ [".end"])) =
      .ok ⟨[⟨start, statements.mapIdx fun i s => s.withLine (i + 2), 1⟩], .empty⟩ := by
  have opening : PrintableStatement (.directive ⟨"orig", some (.integer start.toNat), 1⟩) := by
    have named : IsName "orig".toList := by decide
    have lower : "orig".toLower = "orig" := by decide +kernel
    have small : start.toNat < 2 ^ 63 := Nat.lt_trans start.toNat_lt (by decide)
    exact ⟨named, lower, by simpa [PrintableOperand] using small⟩
  have closing : PrintableStatement (.directive ⟨"end", none, 1⟩) := by
    have named : IsName "end".toList := by decide
    have lower : "end".toLower = "end" := by decide +kernel
    exact ⟨named, lower, by simp⟩
  have all : ∀ s ∈ .directive ⟨"orig", some (.integer start.toNat), 1⟩ ::
      (statements ++ [.directive ⟨"end", none, 1⟩]), PrintableStatement s := by
    refine List.forall_mem_cons.2 ⟨opening, fun s member => ?_⟩
    rcases List.mem_append.1 member with member | member
    · exact printable s member
    · rw [List.mem_singleton.1 member]
      exact closing
  obtain ⟨t, ofGrammar, table⟩ := Dialect.complx.exists_table
  obtain ⟨lines, scanned, spelled⟩ := scan_text all
  have built := (Dialect.parseLines_eq_ok table).2
    ⟨_, contains_statements ofGrammar all spelled, build_found within⟩
  have source : "\n".intercalate ((".orig #" ++ toString start.toNat) ::
      statements.map Statement.render ++ [".end"]) =
      text (.directive ⟨"orig", some (.integer start.toNat), 1⟩ ::
        (statements ++ [.directive ⟨"end", none, 1⟩])) := by
    have first : (Statement.directive ⟨"orig", some (.integer start.toNat), 1⟩).render =
        ".orig #" ++ toString start.toNat := rfl
    rw [text, List.map_cons, List.map_append, first]
    rfl
  rw [source]
  exact Dialect.parse_eq_ok.2 ⟨lines, scanned, built⟩

/-- A label spelled like a mnemonic, and a string with a quote, a backslash and a newline. -/
theorem parse_render_jsr : Dialect.complx.parse
    ".orig #12288\nadd r1, r2, #-5\njsr add\n.stringz \"\\\"\\\\\\n\"\nhalt\n.end" =
      .ok ⟨[⟨12288, [.instruction ⟨"add", [.register 'r' 1, .register 'r' 2, .integer (-5)], 2⟩,
        .instruction ⟨"jsr", [.label "add"], 3⟩,
        .directive ⟨"stringz", some (.string "\"\\\n"), 4⟩, .instruction ⟨"halt", [], 5⟩], 1⟩],
        .empty⟩ := by
  let statements : List Statement :=
    [.instruction ⟨"add", [.register 'r' 1, .register 'r' 2, .integer (-5)], 0⟩,
      .instruction ⟨"jsr", [.label "add"], 0⟩, .directive ⟨"stringz", some (.string "\"\\\n"), 0⟩,
      .instruction ⟨"halt", [], 0⟩]
  have source : ".orig #12288\nadd r1, r2, #-5\njsr add\n.stringz \"\\\"\\\\\\n\"\nhalt\n.end" =
      "\n".intercalate ((".orig #" ++ toString (12288 : UInt32).toNat) ::
        statements.map Statement.render ++ [".end"]) := by
    decide +kernel
  rw [source]
  apply parse_render 12288
  · decide +kernel
  · simp [statements]

end Complx

end Assembler
