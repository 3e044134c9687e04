import Assembler.Proofs.Dialect.Lines
import Assembler.Proofs.Dialect.Shapes
import Assembler.Proofs.Lexical.Layout

/-! # Layout does not matter

What a line contains depends on the kinds and the texts of its tokens. Trees record columns for the
sake of messages, but no adapter looks at them, so a tree may be moved to column 0 before it is
read. Together with what maximal munch makes of a line in another layout, a source may be laid out
anew, line by line.
-/

namespace Assembler

def Token.flush (token : Token) : Token := { token with col := 0 }

namespace Tree

mutual
/-- A tree without its columns. -/
def flush : Tree → Tree
  | ⟨symbol, text, line, _, children⟩ => ⟨symbol, text, line, 0, flushAll children⟩

@[inherit_doc flush]
def flushAll : List Tree → List Tree
  | [] => []
  | t :: ts => t.flush :: flushAll ts
end

theorem flushAll_eq_map (trees : List Tree) : flushAll trees = trees.map flush := by
  induction trees with
  | nil => rfl
  | cons t ts ih => rw [flushAll, ih, List.map_cons]

variable {isa : Isa} (tree : Tree)

@[simp] theorem symbol_flush : tree.flush.symbol = tree.symbol := by
  cases tree
  rfl

@[simp] theorem text_flush : tree.flush.text = tree.text := by
  cases tree
  rfl

@[simp] theorem line_flush : tree.flush.line = tree.line := by
  cases tree
  rfl

@[simp] theorem col_flush : tree.flush.col = 0 := by
  cases tree
  rfl

@[simp] theorem children_flush : tree.flush.children = tree.children.map flush := by
  cases tree
  exact flushAll_eq_map _

mutual
@[simp] theorem leaves_flush (tree : Tree) : tree.flush.leaves = tree.leaves.map flush := by
  obtain ⟨symbol, text, line, col, children⟩ := tree
  cases children with
  | nil =>
      simp only [flush, flushAll, leaves]
      split <;> simp [flush, flushAll]
  | cons child children =>
      simp only [flush, flushAll, leaves, leaves_flush child, leavesOf_flushAll children,
        List.map_append]

theorem leavesOf_flushAll (trees : List Tree) :
    leavesOf (flushAll trees) = (leavesOf trees).map flush := by
  cases trees with
  | nil => rfl
  | cons tree trees =>
      simp only [flushAll, leavesOf, leaves_flush tree, leavesOf_flushAll trees, List.map_append]
end

theorem flush_node (symbol : String) (line : Nat) (children : List Tree) :
    (node symbol line children).flush = node symbol line (children.map flush) := by
  have col : ((children.map flush).head?.map (·.col)).getD 0 = 0 := by cases children <;> simp
  rw [node, node, flush, flushAll_eq_map, col]

@[simp] theorem operand_flush : tree.flush.operand isa = tree.operand isa := by
  simp only [operand, registerOperand, charOperand, symbol_flush, text_flush, line_flush]

@[simp] theorem mapM_operand_flush (trees : List Tree) :
    (trees.map flush).mapM (operand isa) = trees.mapM (operand isa) := by
  simp [List.mapM_map, Function.comp_def]

@[simp] theorem directive_flush : tree.flush.directive isa = tree.directive isa := by
  simp only [directive, leaves_flush, line_flush]
  rcases tree.leaves with _ | ⟨name, _ | ⟨leaf, _ | ⟨other, rest⟩⟩⟩
  · rfl
  · simp
  · simp
  · rfl

end Tree

namespace Complx

variable {isa : Isa} (tree : Tree)

@[simp] theorem wordsOf_flush : wordsOf tree.flush = wordsOf tree := by
  simp [wordsOf, List.filter_map, Function.comp_def]

@[simp] theorem hasColon_flush : hasColon tree.flush = hasColon tree := by
  cases second : tree.children[1]? <;> simp [hasColon, second]

@[simp] theorem operandLeaves_flush :
    operandLeaves tree.flush = (operandLeaves tree).map .flush := by
  simp [operandLeaves, List.filter_map, Function.comp_def]

/-- What follows the words of a line, without columns. -/
def Tail.flush : Tail → Tail
  | .nothing => .nothing
  | .operands leaves => .operands (leaves.map .flush)
  | .comma leaves => .comma (leaves.map .flush)

theorem sortWords_flush {line : Nat} (labels : List String) (tail : Tail) (words : List String) :
    sortWords isa line labels tail.flush words = sortWords isa line labels tail words := by
  cases tail <;> simp only [Tail.flush, sortWords, Tree.mapM_operand_flush]

theorem classify_flush {line : Nat} (tail : Tail) :
    classify isa line tree.flush tail.flush = classify isa line tree tail := by
  simp only [classify, hasColon_flush, wordsOf_flush, sortWords_flush]

theorem contents_flush : contents isa tree.flush = contents isa tree := by
  have sorted : ∀ (node : Tree) (tail : Tail), classify isa tree.line node.flush tail.flush =
      classify isa tree.line node tail := fun node tail => classify_flush node tail
  simp only [contents, Tree.children_flush, Tree.line_flush]
  match tree.children with
  | [] => rfl
  | [only] => simp [← sorted only, Tail.flush]
  | [words, second] => simp [← sorted words, Tail.flush]
  | [words, comma, list] => simp [← sorted words, Tail.flush]
  | [words, first, comma, list] => simp [← sorted words, Tail.flush]
  | _ :: _ :: _ :: _ :: _ :: _ => rfl

end Complx

namespace Lc2200

variable {isa : Isa} (tree : Tree)

theorem operandsOf_flush : operandsOf isa tree.flush = operandsOf isa tree := by
  simp only [operandsOf, Tree.children_flush, Tree.line_flush]
  match tree.children with
  | [] => rfl
  | [leaf] => simp
  | [_, _] => rfl
  | [_, _, _] => rfl
  | [offset, _, base, _] => simp
  | _ :: _ :: _ :: _ :: _ :: _ => rfl

mutual
theorem flatten_flush (tree : Tree) : flatten isa tree.flush = flatten isa tree := by
  obtain ⟨symbol, text, line, col, children⟩ := tree
  have operands : operandsOf isa ⟨symbol, text, line, 0, Tree.flushAll children⟩ =
      operandsOf isa ⟨symbol, text, line, col, children⟩ :=
    operandsOf_flush ⟨symbol, text, line, col, children⟩
  simp only [Tree.flush, flatten, flattenAll_flush children, operands]

theorem flattenAll_flush (trees : List Tree) :
    flattenAll isa (Tree.flushAll trees) = flattenAll isa trees := by
  cases trees with
  | nil => rfl
  | cons tree trees =>
      simp only [Tree.flushAll, flattenAll, Tree.symbol_flush, flatten_flush tree,
        flattenAll_flush trees]
end

theorem statement_flush : statement isa tree.flush = statement isa tree := by
  simp only [statement, Tree.children_flush, Tree.line_flush]
  match tree.children with
  | [] => rfl
  | inner :: _ =>
      simp only [List.map_cons, Tree.symbol_flush, Tree.leaves_flush, List.length_map,
        Tree.directive_flush, Tree.children_flush]
      match inner.children with
      | [] => rfl
      | [op] => simp
      | [op, list] => simp [flatten_flush]
      | _ :: _ :: _ :: _ => rfl

theorem addPart_flush {line : Nat} (acc : LineContents) :
    addPart isa line acc tree.flush = addPart isa line acc tree := by
  simp [addPart, statement_flush, Function.comp_def]

theorem contents_flush : contents isa tree.flush = contents isa tree := by
  simp only [contents, Tree.children_flush, Tree.line_flush, List.foldlM_map, addPart_flush]

end Lc2200

/-- A change of elements and values that a reading respects carries derivations along. -/
theorem Reading.Derives.map {β β' α α' : Type} {r : Reading β α} {r' : Reading β' α'} {g : Grammar}
    {f : β → β'} {h : α → α'} (terminal : ∀ b, r'.terminal (f b) = r.terminal b)
    (leaf : ∀ b, r'.leaf (f b) = h (r.leaf b))
    (node : ∀ p production children,
      r'.node p production (children.map h) = h (r.node p production children))
    {symbols : List Symbol} {word : List β} {values : List α}
    (derives : r.Derives g symbols word values) :
    r'.Derives g symbols (word.map f) (values.map h) := by
  induction derives with
  | nil => exact .nil
  | @leaf b t symbols word values reads _ ih =>
      rw [List.map_cons, List.map_cons, ← leaf]
      exact .leaf ((terminal b).trans reads) ih
  | @node p production symbols below word children values rule _ _ inner rest =>
      rw [List.map_append, List.map_cons, ← node]
      exact .node rule inner rest

theorem Reading.Derives.flush {g : Grammar} {line : Nat} {symbols : List Symbol}
    {word : List Token} {trees : List Tree}
    (h : (Tree.reading g line).Derives g symbols word trees) :
    (Tree.reading g line).Derives g symbols (word.map .flush) (trees.map .flush) :=
  h.map (f := Token.flush) (fun _ => rfl) (fun _ => rfl)
    fun _ _ children => (Tree.flush_node _ line children).symm

namespace Dialect

variable {d : Dialect}

theorem contents_flush (tree : Tree) : d.contents tree.flush = d.contents tree := by
  cases d with
  | complx => exact Complx.contents_flush tree
  | lc2200 => exact Lc2200.contents_flush tree

/-- What a line contains does not depend on where its tokens stand. -/
theorem exists_table_contains_congr (d : Dialect) : ∃ t, d.table = .ok t ∧
    ∀ {line line' : Line} {found : Nat × LineContents},
      (∀ token ∈ line.tokens, ∀ c, token.kind = .symbol c → c ∈ d.config.symbols) →
      (∀ token ∈ line'.tokens, ∀ c, token.kind = .symbol c → c ∈ d.config.symbols) →
      Munch.content line = Munch.content line' → d.Contains t line found →
      d.Contains t line' found := by
  obtain ⟨t, table, parse_iff⟩ := d.exists_table_parse_iff
  refine ⟨t, table, ?_⟩
  intro line line' found symbols symbols' same ⟨number, contents⟩
  obtain ⟨number', tokens'⟩ := line'
  simp only [Munch.content, Prod.mk.injEq] at same
  obtain ⟨kinds, rfl⟩ := same
  obtain ⟨tree, parsed, contents⟩ := lineContents_eq_ok.1 contents
  have derives := (parse_iff symbols).1 parsed
  have flushed : line.tokens.map Token.flush = tokens'.map Token.flush := by
    have names := congrArg (List.map fun known => Token.mk 0 known.2 known.1) kinds
    rwa [List.map_map, List.map_map] at names
  have terminals : line.tokens.map (Tree.reading d.grammar line.number).terminal =
      tokens'.map (Tree.reading d.grammar line.number).terminal := by
    have names := congrArg (List.map (Tree.reading d.grammar line.number).terminal) flushed
    rwa [List.map_map, List.map_map] at names
  obtain ⟨trees, derives'⟩ := derives.transfer _ tokens' terminals
  obtain ⟨tree', rfl⟩ := List.length_eq_one_iff.1 derives'.length_eq
  -- without columns the two lines are one, which has one tree
  have unique : tree.flush = tree'.flush := by
    have symbols : ∀ token ∈ line.tokens.map Token.flush, ∀ c, token.kind = .symbol c →
        c ∈ d.config.symbols := by
      intro token member
      obtain ⟨known, listed, rfl⟩ := List.mem_map.1 member
      exact symbols known listed
    have first := (@parse_iff ⟨line.number, _⟩ _ symbols).2 derives.flush
    have second := (@parse_iff ⟨line.number, _⟩ _ symbols).2 (flushed ▸ derives'.flush)
    exact Except.ok.inj (first.symm.trans second)
  refine ⟨number, lineContents_eq_ok.2 ⟨tree', (parse_iff symbols').2 derives', ?_⟩⟩
  rw [← contents_flush, ← unique, contents_flush, contents]

/-- A source may be laid out anew, line by line: the token texts with blanks between them, and
    perhaps blanks in front and blanks and a comment behind. The tokens of the lines stay what they
    are, and so does the assembly. -/
theorem parse_laidOut (d : Dialect) {source source' : String} {lines : List Line}
    (scanned : scan d.config source = .ok lines)
    (size : (sourceLines source').length = (sourceLines source).length)
    (laid : ∀ i line, (sourceLines source')[i]? = some line →
      Munch.LaidOut d.config ((Munch.tokensOn lines (i + 1)).map (·.text)) line) :
    (∃ lines', scan d.config source' = .ok lines' ∧
      lines'.map Munch.content = lines.map Munch.content) ∧
    ∀ asm, d.parse source = .ok asm → d.parse source' = .ok asm := by
  obtain ⟨lines', scanned', same⟩ := scan_laidOut d.delimited_config scanned size laid
  refine ⟨⟨lines', scanned', same⟩, fun asm parsed => ?_⟩
  obtain ⟨t, table, contains_congr⟩ := d.exists_table_contains_congr
  have tokens := scan_tokens scanned
  have tokens' := scan_tokens scanned'
  obtain ⟨known, again, all⟩ := parse_eq_ok.1 parsed
  obtain rfl : lines = known := Except.ok.inj (scanned.symm.trans again)
  obtain ⟨found, contents, built⟩ := (parseLines_eq_ok table).1 all
  refine parse_eq_ok.2 ⟨lines', scanned', (parseLines_eq_ok table).2 ⟨found, ?_, built⟩⟩
  clear scanned scanned' size laid parsed again all built
  induction contents generalizing lines' with
  | nil =>
      obtain rfl := List.map_eq_nil_iff.1 same
      exact .nil
  | cons head _ ih =>
      obtain ⟨line', rest', rfl, first, others⟩ := List.map_eq_cons_iff.1 same
      obtain ⟨here, later⟩ := List.forall_mem_cons.1 tokens
      obtain ⟨here', later'⟩ := List.forall_mem_cons.1 tokens'
      refine .cons ?_ (ih rest' others later later')
      exact contains_congr (fun token member => (here token member).symbol)
        (fun token member => (here' token member).symbol) first.symm head

/-- A line without blanks and an empty one, which get blanks, comments and another line break. -/
theorem parse_laidOut_label :
    (∃ lines', scan Lc2200.config "\tgo  : halt #!\r\n ;x" = .ok lines' ∧
      lines'.map Munch.content = [([(.word, "go"), (.symbol ':', ":"), (.word, "halt")], 1)]) ∧
    ∀ asm, Dialect.lc2200.parse "go:halt;\n" = .ok asm →
      Dialect.lc2200.parse "\tgo  : halt #!\r\n ;x" = .ok asm := by
  have scanned : scan Lc2200.config "go:halt;\n" =
      .ok [⟨1, [⟨1, "go", .word⟩, ⟨3, ":", .symbol ':'⟩, ⟨4, "halt", .word⟩]⟩] := by cbv
  have split : sourceLines "\tgo  : halt #!\r\n ;x" = [['\t'] ++ (("go".toList ++ ([' ', ' '] ++
      (":".toList ++ ([' '] ++ "halt".toList)))) ++ ([' '] ++ ['#', '!'])),
      [' '] ++ ([] ++ ([] ++ [';', 'x']))] := by decide
  have blank : ∀ c ∈ [' '], LexConfig.isBlank c = true := by simp [LexConfig.isBlank]
  have words : Munch.Spaced ["go", ":", "halt"] ("go".toList ++ ([' ', ' '] ++
      (":".toList ++ ([' '] ++ "halt".toList)))) :=
    .cons (by simp) (by simp [LexConfig.isBlank]) (.cons (by simp) blank (.single _))
  refine parse_laidOut .lc2200 scanned (by decide) fun i line at' => ?_
  rw [split] at at'
  rcases i with _ | _ | i
  · cases at'
    exact .intro (by simp [LexConfig.isBlank]) words blank (by simp [config, Lc2200.config])
  · cases at'
    exact .intro blank .nil (by simp) (by simp [config, Lc2200.config])
  · cases at'

end Dialect

end Assembler
