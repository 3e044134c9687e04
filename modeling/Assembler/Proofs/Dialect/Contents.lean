import Assembler.Dialect.Basic
import Assembler.Proofs.Faults
import Assembler.Proofs.Outcome
import Assembler.Proofs.Text.Literals

/-! # Where the operands of a statement come from

Every operand of a line is a word of the line or is read off a token of its tree, so no string is
longer than the tokens are, and every integer has 64 bits. The statement and all errors carry the
number of the line, which every node of the tree has. The adapters follow the shape of the tree, the
proofs follow the adapters.
-/

namespace Assembler

/-- A tree whose tokens have at most `n` characters. -/
inductive Tree.Bounded (n : Nat) : Tree → Prop where
  | intro {t : Tree} (text : t.text.length ≤ n) (children : ∀ child ∈ t.children, Bounded n child) :
      Bounded n t

/-- A tree whose nodes are all on one line. -/
inductive Tree.OnLine (line : Nat) : Tree → Prop where
  | intro {t : Tree} (self : t.line = line) (children : ∀ child ∈ t.children, OnLine line child) :
      OnLine line t

/-- A tree of a line, with tokens of at most `n` characters. -/
structure Tree.Placed (line n : Nat) (tree : Tree) : Prop where
  bounded : tree.Bounded n
  onLine : tree.OnLine line

/-- An operand of a token with at most `n` characters. -/
def Operand.Bounded (n : Nat) : Operand → Prop
  | .integer value => value.natAbs < 2 ^ 63
  | .string text => text.length ≤ n
  | _ => True

/-- A statement of a line, with operands of tokens of at most `n` characters. -/
structure Statement.Placed (line n : Nat) (s : Statement) : Prop where
  line : s.line = line
  operands : ∀ o ∈ s.operands, o.Bounded n

/-- An error that points to a line. It is no fault then. -/
def SemanticError.On (line : Nat) (e : SemanticError) : Prop := e.line? = some line

theorem SemanticError.On.fault? {line : Nat} {e : SemanticError} (h : e.On line) :
    e.fault? = none := by
  cases e <;> cases h <;> rfl

namespace Tree

variable {line n : Nat} {isa : Isa} {tree : Tree}

theorem mem_leavesOf {trees : List Tree} {leaf : Tree} :
    leaf ∈ leavesOf trees ↔ ∃ tree ∈ trees, leaf ∈ tree.leaves := by
  induction trees with
  | nil => simp [leavesOf]
  | cons t ts ih => simp [leavesOf, ih]

theorem Bounded.text (h : tree.Bounded n) : tree.text.length ≤ n := by
  cases h with
  | intro text _ => exact text

theorem OnLine.self (h : tree.OnLine line) : tree.line = line := by
  cases h with
  | intro self _ => exact self

theorem Placed.child (h : tree.Placed line n) : ∀ child ∈ tree.children, child.Placed line n := by
  obtain ⟨⟨_, bounded⟩, ⟨_, onLine⟩⟩ := h
  exact fun child member => ⟨bounded child member, onLine child member⟩

theorem Placed.leaves (h : tree.Placed line n) : ∀ leaf ∈ tree.leaves, leaf.Placed line n := by
  obtain ⟨bounded, onLine⟩ := h
  induction bounded with
  | @intro t text children ih =>
      have below := Placed.child ⟨.intro text children, onLine⟩
      obtain ⟨symbol, own, line, col, parts⟩ := t
      cases parts with
      | nil =>
          intro leaf member
          simp only [Tree.leaves] at member
          split at member
          · cases member
          · rw [List.mem_singleton.1 member]
            exact ⟨.intro text children, onLine⟩
      | cons child rest =>
          intro leaf member
          obtain ⟨c, known, inside⟩ : ∃ c ∈ child :: rest, leaf ∈ c.leaves :=
            mem_leavesOf.1 member
          exact ih c known (below c known).onLine leaf inside

theorem delivers_registerOperand (on : tree.line = line) :
    Delivers (SemanticError.On line) (Operand.Bounded n) (tree.registerOperand isa) := by
  unfold registerOperand
  extract_lets sigil
  split
  · exact delivers_ok.2 trivial
  · exact delivers_error.2 (congrArg some on)

theorem delivers_charOperand (on : tree.line = line) :
    Delivers (SemanticError.On line) (Operand.Bounded n) tree.charOperand := by
  unfold charOperand
  split
  · next c _ =>
      have small : c.toNat < 2 ^ 32 := c.val.toNat_lt
      refine delivers_ok.2 ?_
      rw [Operand.Bounded, Int.natAbs_natCast]
      omega
  · exact delivers_error.2 (congrArg some on)

theorem delivers_operand (h : tree.Placed line n) :
    Delivers (SemanticError.On line) (Operand.Bounded n) (tree.operand isa) := by
  have on := h.onLine.self
  unfold operand
  split
  · exact delivers_registerOperand on
  · split
    · next value found => exact delivers_ok.2 (Literal.natAbs_lt_of_value? found)
    · exact delivers_error.2 (congrArg some on)
  · exact delivers_charOperand on
  · have decoded := Text.length_unescape_le (Text.dropQuotes tree.text.toList)
    have inside := Text.length_dropQuotes_le tree.text.toList
    have text := h.bounded.text
    rw [String.length_toList] at inside
    refine delivers_ok.2 ?_
    rw [Operand.Bounded, String.length_ofList]
    omega
  · exact delivers_ok.2 trivial
  · exact delivers_error.2 (congrArg some on)

theorem delivers_directive (h : tree.Placed line n) : Delivers (SemanticError.On line)
    (fun d => (Statement.directive d).Placed line n) (tree.directive isa) := by
  have leaves := h.leaves
  have on := h.onLine.self
  unfold directive
  split
  · exact delivers_ok.2 ⟨on, by simp [Statement.operands]⟩
  · next name leaf found =>
      have second : leaf.Placed line n := leaves leaf (by simp [found])
      exact (delivers_operand second).bind fun o bounded =>
        delivers_pure.2 ⟨on, by simpa [Statement.operands] using bounded⟩
  · exact delivers_error.2 (congrArg some on)

end Tree

/-- What a line contains, if it contains a statement of that line. -/
def LineContents.Placed (line n : Nat) (c : LineContents) : Prop :=
  ∀ s ∈ c.statement?, s.Placed line n

namespace Complx

variable {line n : Nat} {isa : Isa}

theorem placed_instruction {labels : List String} {op : String} {operands : List Operand}
    (h : ∀ o ∈ operands, o.Bounded n) :
    LineContents.Placed line n ⟨labels, instruction line op operands⟩ := by
  intro s statement
  cases statement
  exact ⟨rfl, h⟩

/-- The operands of what follows the words in front of a line. -/
def Tail.Placed (line n : Nat) : Tail → Prop
  | .nothing => True
  | .operands leaves => ∀ leaf ∈ leaves, leaf.Placed line n
  | .comma leaves => ∀ leaf ∈ leaves, leaf.Placed line n

theorem bounded_label (name : String) : ∀ o ∈ [Operand.label name], o.Bounded n :=
  List.forall_mem_singleton.2 trivial

theorem delivers_sortWords {tail : Tail} (h : tail.Placed line n) (labels words : List String) :
    Delivers (SemanticError.On line) (LineContents.Placed line n)
      (sortWords isa line labels tail words) := by
  have bare : ∀ labels, LineContents.Placed line n ⟨labels, none⟩ := nofun
  have single : ∀ labels op, LineContents.Placed line n ⟨labels, instruction line op []⟩ :=
    fun labels op => placed_instruction (by simp)
  unfold sortWords
  split
  · exact delivers_ok.2 (bare _)
  · split
    · exact delivers_ok.2 (single _ _)
    · exact delivers_ok.2 (bare _)
  · split
    · exact delivers_ok.2 (placed_instruction (bounded_label _))
    · split
      · exact delivers_ok.2 (single _ _)
      · exact delivers_ok.2 (bare _)
  · exact delivers_ok.2 (placed_instruction (bounded_label _))
  · exact delivers_error.2 rfl
  · split
    · exact (Delivers.mapM fun leaf member => Tree.delivers_operand (h leaf member)).bind
        fun operands bounded => delivers_pure.2 (placed_instruction bounded)
    · exact delivers_error.2 rfl
  · split
    · exact (Delivers.mapM fun leaf member => Tree.delivers_operand (h leaf member)).bind
        fun operands bounded => delivers_pure.2
          (placed_instruction (List.forall_mem_cons.2 ⟨trivial, bounded⟩))
    · exact delivers_error.2 rfl

theorem placed_operandLeaves {tree : Tree} (h : tree.Placed line n) :
    ∀ leaf ∈ operandLeaves tree, leaf.Placed line n :=
  fun leaf member => h.leaves leaf (List.mem_of_mem_filter member)

theorem delivers_classify {node : Tree} (worded : hasColon node = true → wordsOf node ≠ [])
    {tail : Tail} (h : tail.Placed line n) : Delivers (SemanticError.On line)
      (LineContents.Placed line n) (classify isa line node tail) := by
  unfold classify
  split
  · next colon =>
      split
      · next wordless => exact absurd wordless (worded colon)
      · exact delivers_sortWords h _ _
  · exact delivers_sortWords h _ _

theorem delivers_contents {tree : Tree} (h : tree.Placed line n)
    (worded : ∀ node ∈ tree.children, hasColon node = true → wordsOf node ≠ []) :
    Delivers (SemanticError.On line) (LineContents.Placed line n) (contents isa tree) := by
  have below := h.child
  have on := h.onLine.self
  have pseudo : ∀ {node : Tree} {labels : List String}, node.Placed line n →
      Delivers (SemanticError.On line) (LineContents.Placed line n)
        (do return ⟨labels, some (.directive (← node.directive isa))⟩) := by
    intro node labels placed
    refine (Tree.delivers_directive placed).bind fun d operand => delivers_pure.2 ?_
    intro s statement
    cases statement
    exact operand
  unfold contents
  rw [on]
  split
  · next only children =>
      simp only [children, List.forall_mem_singleton] at below worded
      split
      · exact pseudo below
      · exact delivers_classify worded trivial
  · next words second children =>
      simp only [children, List.forall_mem_cons] at below worded
      split
      · exact pseudo below.2.1
      · exact delivers_classify worded.1 (placed_operandLeaves below.2.1)
  · next words comma list children =>
      simp only [children, List.forall_mem_cons] at below worded
      split
      · exact delivers_classify worded.1 (placed_operandLeaves below.2.2.1)
      · exact delivers_error.2 rfl
  · next words first comma list children =>
      simp only [children, List.forall_mem_cons] at below worded
      refine delivers_classify worded.1 fun leaf member => ?_
      rcases List.mem_append.1 member with member | member
      · exact placed_operandLeaves below.2.1 leaf member
      · exact placed_operandLeaves below.2.2.2.1 leaf member
  · exact delivers_error.2 rfl

end Complx

namespace Lc2200

variable {line n : Nat} {isa : Isa} {tree : Tree}

theorem delivers_operandsOf (h : tree.Placed line n) : Delivers (SemanticError.On line)
    (fun operands => ∀ o ∈ operands, o.Bounded n) (operandsOf isa tree) := by
  have below := h.child
  unfold operandsOf
  split
  · next leaf children =>
      simp only [children, List.forall_mem_singleton] at below
      exact (Tree.delivers_operand below).bind fun o bounded =>
        delivers_pure.2 (List.forall_mem_singleton.2 bounded)
  · next offset _ base _ children =>
      simp only [children, List.forall_mem_cons] at below
      exact (Tree.delivers_operand below.2.2.1).bind fun o bounded =>
        (Tree.delivers_operand below.1).bind fun o' bounded' =>
          delivers_pure.2 (List.forall_mem_cons.2 ⟨bounded, List.forall_mem_singleton.2 bounded'⟩)
  · exact delivers_error.2 (congrArg some h.onLine.self)

mutual
theorem delivers_flatten (tree : Tree) (h : tree.Placed line n) : Delivers (SemanticError.On line)
    (fun operands => ∀ o ∈ operands, o.Bounded n) (flatten isa tree) := by
  obtain ⟨symbol, text, own, col, children⟩ := tree
  unfold flatten
  split
  · exact delivers_flattenAll children h.child
  · split
    · exact delivers_operandsOf h
    · exact delivers_error.2 (congrArg some h.onLine.self)

theorem delivers_flattenAll (trees : List Tree) (h : ∀ tree ∈ trees, tree.Placed line n) :
    Delivers (SemanticError.On line) (fun operands => ∀ o ∈ operands, o.Bounded n)
      (flattenAll isa trees) := by
  cases trees with
  | nil =>
      unfold flattenAll
      exact delivers_ok.2 (by simp)
  | cons tree trees =>
      obtain ⟨first, others⟩ := List.forall_mem_cons.1 h
      unfold flattenAll
      split
      · exact delivers_flattenAll trees others
      · exact (delivers_flatten tree first).bind fun here bounded =>
          (delivers_flattenAll trees others).bind fun rest bounded' => delivers_pure.2
            fun o member => (List.mem_append.1 member).elim (bounded o) (bounded' o)
end

theorem delivers_statement (h : tree.Placed line n) : Delivers (SemanticError.On line)
    (Statement.Placed line n) (statement isa tree) := by
  have below := h.child
  unfold statement
  rw [h.onLine.self]
  split
  · exact delivers_error.2 rfl
  · next inner _ children =>
      have first : inner.Placed line n := below inner (by simp [children])
      have inside := first.child
      split
      · split
        · exact delivers_error.2 rfl
        · exact (Tree.delivers_directive first).bind fun d placed => delivers_pure.2 placed
      · split
        · split
          · exact delivers_ok.2 ⟨rfl, by simp [Statement.operands]⟩
          · next op list parts =>
              have second : list.Placed line n := inside list (by simp [parts])
              exact (delivers_flatten list second).bind fun operands bounded =>
                delivers_pure.2 ⟨rfl, bounded⟩
          · exact delivers_error.2 rfl
        · exact delivers_error.2 rfl

theorem delivers_contents (h : tree.Placed line n) : Delivers (SemanticError.On line)
    (LineContents.Placed line n) (contents isa tree) := by
  refine Delivers.foldlM (fun part member acc placed => ?_) nofun
  unfold addPart
  split
  · exact delivers_ok.2 placed
  · split
    · refine (delivers_statement (h.child part member)).bind fun s operands => delivers_pure.2 ?_
      intro s' statement
      cases statement
      exact operands
    · exact delivers_error.2 (congrArg some h.onLine.self)

end Lc2200

end Assembler
