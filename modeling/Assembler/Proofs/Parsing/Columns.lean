import Assembler.Proofs.Parsing.Inversion
import Assembler.Proofs.Parsing.UnknownTokens

/-! # Columns of parse trees

A node takes its column from its first child. Followed down the first children, this is the column
of the first token that the node covers, unless the way ends at an empty production. Then the column
is 0, also if tokens come after the empty part. This does not happen in a grammar whose right-hand
sides end with their first symbol if that can be empty.
-/

namespace Assembler

namespace Tree

/-- The nodes of a tree are reached by going down to children. -/
abbrev Contains : Tree → Tree → Prop :=
  Relation.ReflTransGen fun tree child => child ∈ tree.children

/-- The way down the first children ends at a node that is no token. -/
inductive StartsEmpty : Tree → Prop where
  | empty {tree : Tree} (children : tree.children = []) (text : tree.text = "") : StartsEmpty tree
  | first {tree child : Tree} {rest : List Tree} (children : tree.children = child :: rest)
      (below : StartsEmpty child) : StartsEmpty tree

/-- The column is that of the first token, and 0 just if there is no token. -/
def Aligned (tree : Tree) : Prop :=
  tree.col = (tree.leaves.head?.map (·.col)).getD 0 ∧ (tree.col = 0 ↔ tree.leaves = [])

theorem not_startsEmpty_leaf {line : Nat} {token : Token} (text : token.text ≠ "") :
    ¬(leaf line token).StartsEmpty := by
  intro h
  cases h with
  | empty _ blank => exact text blank
  | first children _ => cases children

theorem startsEmpty_node_iff {symbol : String} {line : Nat} {child : Tree} {rest : List Tree} :
    (node symbol line (child :: rest)).StartsEmpty ↔ child.StartsEmpty := by
  refine ⟨fun h => ?_, .first rfl⟩
  cases h with
  | empty children _ => cases children
  | first children below =>
      cases children
      exact below

end Tree

/-- Right-hand sides do not go on behind a first symbol that can be empty. -/
def Grammar.Headed (g : Grammar) : Prop :=
  ∀ production ∈ g.productions, ∀ s ∈ production.rhs.head?, 1 < production.rhs.length →
    ((FirstSets.ofGrammar g).symbol s).nullable = false

instance (g : Grammar) : Decidable g.Headed :=
  inferInstanceAs (Decidable (∀ production ∈ g.productions, ∀ s ∈ production.rhs.head?, _))

theorem Grammar.Headed.eq_nil_of_nullable {g : Grammar} (headed : g.Headed)
    {production : Production} (member : production ∈ g.productions) {s : Symbol}
    {symbols : List Symbol}
    (rhs : production.rhs = s :: symbols)
    (nullable : ((FirstSets.ofGrammar g).symbol s).nullable = true) : symbols = [] := by
  by_contra more
  have visible := headed production member s (by simp [rhs])
    (by simpa [rhs] using List.length_pos_iff.2 more)
  cases visible.symm.trans nullable

theorem Reading.Derives.exists_of_mem {β α : Type} {r : Reading β α} {g : Grammar}
    {symbols : List Symbol} {word : List β} {values : List α}
    (h : r.Derives g symbols word values) {value : α} (member : value ∈ values) :
    ∃ s inner, inner <:+: word ∧ r.Derives g [s] inner [value] := by
  induction symbols generalizing word values with
  | nil =>
      obtain ⟨-, rfl⟩ := derives_nil_iff.1 h
      cases member
  | cons s symbols ih =>
      obtain ⟨front, rest, first, others, rfl, rfl, head, behind⟩ := derives_cons_iff.1 h
      rcases List.mem_cons.1 member with rfl | member
      · exact ⟨s, front, (List.prefix_append _ _).isInfix, head⟩
      · obtain ⟨s, inner, within, derives⟩ := ih behind member
        exact ⟨s, inner, within.trans (List.suffix_append _ _).isInfix, derives⟩

section Trees

variable {g : Grammar} {line : Nat} {s : Symbol} {word : List Token} {tree : Tree}

theorem Reading.Derives.leaf_or_node (h : (Tree.reading g line).Derives g [s] word [tree]) :
    (∃ token, word = [token] ∧ tree = .leaf line token) ∨
    ∃ production ∈ g.productions, ∃ children,
      (Tree.reading g line).Derives g production.rhs word children ∧
      tree = .node (g.name (.nonterminal production.lhs)) line children := by
  cases s with
  | terminal i =>
      cases h with
      | leaf _ rest =>
          obtain ⟨rfl, -⟩ := Reading.derives_nil_iff.1 rest
          exact .inl ⟨_, rfl, rfl⟩
  | nonterminal m =>
      obtain ⟨row, member, children, inner, same⟩ := derives_nonterminal_iff.1 h
      simp only [Grammar.rows, List.mem_map, List.mem_filter, beq_iff_eq] at member
      obtain ⟨production, ⟨member, rfl⟩, rfl⟩ := member
      exact .inr ⟨production, member, children, inner, List.singleton_inj.1 same⟩

theorem Reading.Derives.exists_of_contains (h : (Tree.reading g line).Derives g [s] word [tree])
    {u : Tree} (contains : tree.Contains u) :
    ∃ x inner, inner <:+: word ∧ (Tree.reading g line).Derives g [x] inner [u] := by
  induction contains with
  | refl => exact ⟨s, word, List.infix_rfl, h⟩
  | tail _ member ih =>
      obtain ⟨x, outer, within, derives⟩ := ih
      rcases derives.leaf_or_node with ⟨token, -, rfl⟩ | ⟨production, -, children, row, rfl⟩
      · cases member
      · obtain ⟨y, inner, inside, derives⟩ := row.exists_of_mem member
        exact ⟨y, inner, inside.trans within, derives⟩

theorem Reading.Derives.col_first {symbols : List Symbol} {trees : List Tree}
    (h : (Tree.reading g line).Derives g symbols word trees)
    (texts : ∀ token ∈ word, token.text ≠ "") : ∀ first ∈ trees.head?,
      first.StartsEmpty ∧ first.col = 0 ∨
      ¬first.StartsEmpty ∧ ∃ token rest, word = token :: rest ∧ first.col = token.col := by
  induction h with
  | nil => simp
  | @leaf token _ _ word _ _ _ _ =>
      rintro _ ⟨⟩
      exact .inr ⟨Tree.not_startsEmpty_leaf (texts token List.mem_cons_self), token, word, rfl, rfl⟩
  | @node _ production _ below word children _ _ _ _ ih _ =>
      rintro _ ⟨⟩
      cases children with
      | nil => exact .inl ⟨.empty rfl rfl, rfl⟩
      | cons child rest =>
          have texts : ∀ token ∈ below, token.text ≠ "" :=
            fun token member => texts token (List.mem_append_left _ member)
          rcases ih texts child rfl with ⟨empty, zero⟩ | ⟨starts, token, behind, rfl, col⟩
          · exact .inl ⟨Tree.startsEmpty_node_iff.2 empty, zero⟩
          · exact .inr ⟨mt Tree.startsEmpty_node_iff.1 starts, token, behind ++ word, rfl, col⟩

theorem Reading.Derives.eq_nil_of_startsEmpty (wf : g.WellFormed) (headed : g.Headed)
    (h : (Tree.reading g line).Derives g [s] word [tree])
    (texts : ∀ token ∈ word, token.text ≠ "") (empty : tree.StartsEmpty) : word = [] := by
  induction empty generalizing s word with
  | empty childless text =>
      rcases h.leaf_or_node with ⟨token, rfl, rfl⟩ | ⟨production, -, children, row, rfl⟩
      · exact absurd text (texts token List.mem_cons_self)
      · obtain rfl : children = [] := childless
        have noSymbols := row.length_eq
        rw [List.length_nil, eq_comm, List.length_eq_zero_iff] at noSymbols
        rw [noSymbols] at row
        exact (derives_nil_iff.1 row).1
  | @first tree child rest children _ ih =>
      rcases h.leaf_or_node with ⟨token, rfl, rfl⟩ | ⟨production, member, trees, row, rfl⟩
      · cases children
      · obtain rfl : trees = child :: rest := children
        cases symbols : production.rhs with
        | nil =>
            rw [symbols] at row
            cases row
        | cons x others =>
            rw [symbols] at row
            obtain ⟨front, behind, _, _, rfl, same, head, after⟩ := derives_cons_iff.1 row
            cases same
            obtain rfl := ih head fun token member => texts token (List.mem_append_left _ member)
            have nullable : ((FirstSets.ofGrammar g).symbol x).nullable = true := by
              simpa [FirstSets.sequence] using (head.first wf).1 rfl
            rw [headed.eq_nil_of_nullable member symbols nullable] at after
            exact (derives_nil_iff.1 after).1

theorem Reading.Derives.aligned_iff (h : (Tree.reading g line).Derives g [s] word [tree])
    (texts : ∀ token ∈ word, token.text ≠ "") (cols : ∀ token ∈ word, 0 < token.col) :
    (tree.col = 0 ↔ tree.StartsEmpty) ∧
      (tree.Aligned ↔ (tree.StartsEmpty → tree.leaves = [])) := by
  have leaves := h.leaves texts
  rcases h.col_first texts tree rfl with ⟨empty, zero⟩ | ⟨starts, token, rest, rfl, col⟩
  · refine ⟨by simp [empty, zero], ?_⟩
    simp only [Tree.Aligned, zero, empty, true_iff, true_imp_iff]
    exact ⟨And.right, fun bare => ⟨by simp [bare], bare⟩⟩
  · have positive := cols token List.mem_cons_self
    refine ⟨by simp [starts, col]; omega, ?_⟩
    simp only [starts, false_imp_iff, iff_true, Tree.Aligned, leaves, col]
    refine ⟨rfl, by simp; omega⟩

end Trees

namespace Table

/-- A node of a parse tree has the column of the first token that it covers, unless it covers tokens
    and begins empty. -/
theorem parse_columns {g : Grammar} {t : Table} {goal : String} {rules : List Rule}
    {nonterminals terminals : List String}
    (ofRules : Grammar.ofRules goal rules nonterminals terminals = .ok g)
    (ofGrammar : Table.ofGrammar g = .ok t) (line : Line)
    (texts : ∀ token ∈ line.tokens, token.text ≠ "") (cols : ∀ token ∈ line.tokens, 0 < token.col)
    (tree : Tree) (parsed : t.parse line = .ok tree) (u : Tree) (contains : tree.Contains u) :
    (u.col = 0 ↔ u.StartsEmpty) ∧ (u.Aligned ↔ (u.StartsEmpty → u.leaves = [])) ∧
      (g.Headed → u.Aligned) := by
  have wf := Grammar.ofRules_wellFormed ofRules
  obtain ⟨front, rest, split, derives⟩ := exists_derives_of_parse wf ofGrammar parsed
  obtain ⟨s, word, within, derives⟩ := derives.exists_of_contains contains
  have part : word ⊆ line.tokens := fun token member =>
    split ▸ List.mem_append_left _ (within.subset member)
  have texts : ∀ token ∈ word, token.text ≠ "" := fun token member => texts token (part member)
  obtain ⟨zero, aligned⟩ := derives.aligned_iff texts fun token member => cols token (part member)
  refine ⟨zero, aligned, fun headed => aligned.2 fun empty => ?_⟩
  rw [derives.leaves texts, derives.eq_nil_of_startsEmpty wf headed texts empty]
  rfl

open Grammar in
/-- The root begins with a bracket, and the node between the brackets is empty as a whole. -/
theorem parse_columns_parens : parensTree.Aligned ∧ (Tree.node "p" 1 []).Aligned := by
  have parsed : parensTable.parse parensLine = .ok parensTree :=
    parse_eq_ok_iff_loop.2 <| (loop_of_eq_next rfl).trans <| (loop_of_eq_next rfl).trans <|
      (loop_of_eq_next rfl).trans <| (loop_of_eq_next rfl).trans <| loop_of_eq_accepted rfl
  have headed : parens.Headed := by decide +kernel
  have aligned : ∀ u, parensTree.Contains u → u.Aligned := fun u contains =>
    (parse_columns ofRules_parens ofGrammar_parens parensLine (by decide) (by decide) parensTree
      parsed u contains).2.2 headed
  have outer : parensTree.Contains (.node "p" 1 [.leaf 1 ⟨1, "(", .symbol '('⟩, .node "p" 1 [],
    .leaf 1 ⟨2, ")", .symbol ')'⟩]) := .single List.mem_cons_self
  exact ⟨aligned _ .refl, aligned _ (outer.tail (List.mem_cons_of_mem _ List.mem_cons_self))⟩

end Table

namespace Grammar

def indentedRules : List Rule := [⟨"goal", ["a", "word"]⟩, ⟨"a", []⟩]

/-- A word stands behind a nonterminal that is always empty. -/
def indented : Grammar :=
  ⟨["goal", "a"], ["word"], [⟨0, [.nonterminal 1, .terminal 0]⟩, ⟨1, []⟩], 0⟩

def indentedTable : Table where
  grammar := indented
  actions := [[some (.reduce 1), none], [some (.shift 2), none], [none, some (.accept 0)]]
  gotos := [[none, some 1], [none, none], [none, none]]

def wordLine : Line := ⟨1, [⟨1, "b", .word⟩]⟩

def indentedTree : Tree := .node "goal" 1 [.node "a" 1 [], .leaf 1 ⟨1, "b", .word⟩]

end Grammar

open Grammar in
/-- The root of a tree has column 0, but covers a token in column 1. -/
theorem Table.parse_indented :
    ofRules "goal" indentedRules ["goal", "a"] ["word"] = .ok indented ∧
    Table.ofGrammar indented = .ok indentedTable ∧
    (∀ token ∈ wordLine.tokens, token.text ≠ "" ∧ 0 < token.col) ∧
    indentedTable.parse wordLine = .ok indentedTree ∧
    indentedTree.col = 0 ∧ indentedTree.leaves.map (·.col) = [1] ∧ ¬indentedTree.Aligned := by
  have parsed : indentedTable.parse wordLine = .ok indentedTree :=
    parse_eq_ok_iff_loop.2 <| (loop_of_eq_next rfl).trans <| (loop_of_eq_next rfl).trans <|
      loop_of_eq_accepted rfl
  refine ⟨by decide +kernel, by decide +kernel, by decide, parsed, rfl, by decide, ?_⟩
  rintro ⟨-, covers⟩
  exact absurd (covers.1 rfl) (by decide)

end Assembler
