import Assembler.Parsing.ShiftReduce
import Assembler.Proofs.Grammar.Closure

/-! # Derivations

A grammar derives words, and every derivation of a word has a value: its parse tree, if the word is
a line of tokens, or its bare structure, if the word is a list of terminals. What the two have in
common is a reading, which says what terminal an element of the word is and how values are built.
-/

namespace Assembler

/-- How words are read and what is built from them. -/
structure Reading (β α : Type) where
  /-- The terminal of an element. -/
  terminal : β → Nat
  /-- The value of an element by itself. -/
  leaf : β → α
  /-- The value of the production at a position over the values of its right-hand side. -/
  node : Nat → Production → List α → α

namespace Reading

variable {β α : Type}

/-- Words of a row of symbols, with one value for each symbol: a terminal derives an element that
    reads as it, and a nonterminal what the right-hand side of one of its productions derives. -/
inductive Derives (r : Reading β α) (g : Grammar) : List Symbol → List β → List α → Prop where
  | nil : Derives r g [] [] []
  | leaf {b : β} {t : Nat} {symbols : List Symbol} {word : List β} {values : List α}
      (reads : r.terminal b = t) (rest : Derives r g symbols word values) :
      Derives r g (.terminal t :: symbols) (b :: word) (r.leaf b :: values)
  | node {p : Nat} {production : Production} {symbols : List Symbol} {below word : List β}
      {children values : List α} (rule : g.productions[p]? = some production)
      (inner : Derives r g production.rhs below children)
      (rest : Derives r g symbols word values) :
      Derives r g (.nonterminal production.lhs :: symbols) (below ++ word)
        (r.node p production children :: values)

variable (r : Reading β α) {g : Grammar}

def lookahead : List β → Lookahead
  | [] => .endOfInput
  | b :: _ => .terminal (r.terminal b)

theorem lookahead_ne {input : List β} {n : Nat} (known : ∀ b ∈ input.head?, r.terminal b ≠ n) :
    r.lookahead input ≠ .terminal n := by
  cases input with
  | nil => exact nofun
  | cons b rest => exact fun same => known b rfl (Lookahead.terminal.inj same)

variable {r}

theorem Derives.length_eq {symbols : List Symbol} {word : List β} {values : List α}
    (h : r.Derives g symbols word values) : values.length = symbols.length := by
  induction h with
  | nil => rfl
  | leaf _ _ ih => simp [ih]
  | node _ _ _ _ ih => simp [ih]

theorem Derives.append {symbols symbols' : List Symbol} {word word' : List β}
    {values values' : List α} (h : r.Derives g symbols word values)
    (h' : r.Derives g symbols' word' values') :
    r.Derives g (symbols ++ symbols') (word ++ word') (values ++ values') := by
  induction h with
  | nil => exact h'
  | leaf reads _ ih => exact .leaf reads ih
  | node rule inner _ _ ih =>
      rw [List.append_assoc]
      exact .node rule inner ih

/-- What is derived depends on the terminals of a word only. -/
theorem Derives.transfer {β' α' : Type} (r' : Reading β' α') {symbols : List Symbol}
    {word : List β} {values : List α} (h : r.Derives g symbols word values) (word' : List β')
    (same : word.map r.terminal = word'.map r'.terminal) :
    ∃ values', r'.Derives g symbols word' values' := by
  induction h generalizing word' with
  | nil =>
      obtain rfl := List.map_eq_nil_iff.1 same.symm
      exact ⟨[], .nil⟩
  | leaf reads _ ih =>
      obtain ⟨b, rest, rfl, first, behind⟩ := List.map_eq_cons_iff.1 same.symm
      obtain ⟨values, derives⟩ := ih rest behind.symm
      exact ⟨_, .leaf (first.trans reads) derives⟩
  | node rule _ _ ihInner ihRest =>
      rw [List.map_append] at same
      obtain ⟨below, rest, rfl, inside, behind⟩ := List.map_eq_append_iff.1 same.symm
      obtain ⟨children, inner⟩ := ihInner below inside.symm
      obtain ⟨values, derives⟩ := ihRest rest behind.symm
      exact ⟨_, .node rule inner derives⟩

theorem Derives.first (wf : g.WellFormed) {symbols : List Symbol} {word : List β}
    {values : List α} (h : r.Derives g symbols word values) :
    (word = [] → ((FirstSets.ofGrammar g).sequence symbols).nullable = true) ∧
      ∀ b rest, word = b :: rest →
        r.terminal b ∈ ((FirstSets.ofGrammar g).sequence symbols).terminals := by
  induction h with
  | nil => exact ⟨fun _ => rfl, by simp⟩
  | leaf reads _ _ =>
      refine ⟨by simp, ?_⟩
      rintro b rest same
      cases same
      simp [FirstSets.sequence, FirstSets.symbol, reads]
  | @node p production symbols below word children values rule _ _ inner rest =>
      have within := FirstSets.sequence_within wf rule
      simp only [FirstSets.sequence, FirstSets.symbol, FirstSet.nullable_seq,
        FirstSet.mem_terminals_seq, Bool.and_eq_true]
      cases below with
      | nil =>
          have vanishes := within.nullable (inner.1 rfl)
          exact ⟨fun empty => ⟨vanishes, rest.1 empty⟩,
            fun b tail same => .inr ⟨vanishes, rest.2 b tail same⟩⟩
      | cons b tail =>
          refine ⟨by simp, ?_⟩
          rintro c more same
          cases same
          exact .inl (within.terminals _ (inner.2 b tail rfl))

/-- After a derived word comes what FIRST allows between the word and what follows it. -/
theorem Derives.lookahead_mem_firstOf (wf : g.WellFormed) {symbols : List Symbol}
    {word : List β} {values : List α} (h : r.Derives g symbols word values) (rest : List β) :
    r.lookahead (word ++ rest) ∈ (FirstSets.ofGrammar g).firstOf symbols (r.lookahead rest) := by
  rw [FirstSets.mem_firstOf]
  cases word with
  | nil => exact .inr ⟨(h.first wf).1 rfl, rfl⟩
  | cons b tail => exact .inl ⟨_, (h.first wf).2 b tail rfl, rfl⟩

theorem Derives.declared (wf : g.WellFormed) {symbols : List Symbol} {word : List β}
    {values : List α} (h : r.Derives g symbols word values)
    (known : ∀ s ∈ symbols, g.Declared s) :
    ∀ b ∈ word, g.Declared (.terminal (r.terminal b)) := by
  induction h with
  | nil => simp
  | leaf reads _ ih =>
      intro b member
      rcases List.mem_cons.1 member with rfl | member
      · exact known _ (reads ▸ List.mem_cons_self)
      · exact ih (fun s hs => known s (List.mem_cons_of_mem _ hs)) b member
  | node rule _ _ inner rest =>
      intro b member
      rcases List.mem_append.1 member with member | member
      · exact inner (wf.rhs_declared _ (List.mem_of_getElem? rule)) b member
      · exact rest (fun s hs => known s (List.mem_cons_of_mem _ hs)) b member

end Reading

/-- Lines of tokens and their parse trees. A token reads as the terminal that its kind names, and as
    none of them if there is no such terminal. -/
def Tree.reading (g : Grammar) (line : Nat) : Reading Token Tree where
  terminal token := (lastIndexOf? token.kind.name g.terminals).getD g.terminals.length
  leaf token := .leaf line token
  node _ production children := .node (g.name (.nonterminal production.lhs)) line children

namespace Grammar

variable {g : Grammar} {line : Nat}

theorem lastIndexOf?_name {i : Nat} (declared : g.Declared (.terminal i)) :
    lastIndexOf? (g.name (.terminal i)) g.terminals = some i := by
  obtain ⟨name, found⟩ := declared
  simpa [Grammar.name, lastIndexOf?_getElem? found] using found

theorem exists_lastIndexOf?_of_declared {token : Token}
    (declared : g.Declared (.terminal ((Tree.reading g line).terminal token))) :
    ∃ i, lastIndexOf? token.kind.name g.terminals = some i := by
  obtain ⟨name, found⟩ := declared
  have inside := lastIndexOf?_lt found
  cases index : lastIndexOf? token.kind.name g.terminals with
  | none => simp [Tree.reading, index] at inside
  | some i => exact ⟨i, rfl⟩

theorem name_terminal {token : Token}
    (declared : g.Declared (.terminal ((Tree.reading g line).terminal token))) :
    g.name (.terminal ((Tree.reading g line).terminal token)) = token.kind.name := by
  obtain ⟨i, index⟩ := exists_lastIndexOf?_of_declared declared
  simp [Tree.reading, index, Grammar.name, lastIndexOf?_getElem? index]

end Grammar

theorem Reading.Derives.map_symbol {g : Grammar} {line : Nat} {symbols : List Symbol}
    {word : List Token} {trees : List Tree}
    (h : (Tree.reading g line).Derives g symbols word trees)
    (declared : ∀ s ∈ symbols, g.Declared s) : trees.map (·.symbol) = symbols.map g.name := by
  induction h with
  | nil => rfl
  | leaf reads _ ih =>
      obtain ⟨first, others⟩ := List.forall_mem_cons.1 declared
      subst reads
      rw [List.map_cons, List.map_cons, ih others, Grammar.name_terminal first]
      rfl
  | node _ _ _ _ ih =>
      obtain ⟨-, others⟩ := List.forall_mem_cons.1 declared
      rw [List.map_cons, List.map_cons, ih others]
      rfl

theorem Tree.leaves_node (symbol : String) (line : Nat) (children : List Tree) :
    (Tree.node symbol line children).leaves = Tree.leavesOf children := by
  cases children <;> simp [Tree.node, Tree.leaves, Tree.leavesOf]

theorem Reading.Derives.leavesOf {g : Grammar} {line : Nat} {symbols : List Symbol}
    {word : List Token} {trees : List Tree}
    (h : (Tree.reading g line).Derives g symbols word trees)
    (texts : ∀ token ∈ word, token.text ≠ "") :
    Tree.leavesOf trees = word.map (Tree.leaf line) := by
  induction h with
  | nil => rfl
  | @leaf token _ _ _ _ _ _ ih =>
      have single : (Tree.leaf line token).leaves = [.leaf line token] := by
        simp [Tree.leaf, Tree.leaves, texts token List.mem_cons_self]
      simp only [Tree.leavesOf, Tree.reading, single, List.map_cons, List.singleton_append]
      rw [ih fun token member => texts token (List.mem_cons_of_mem _ member)]
  | node _ _ _ ihInner ihRest =>
      simp only [Tree.leavesOf, Tree.reading, Tree.leaves_node, List.map_append]
      rw [ihInner fun token member => texts token (List.mem_append_left _ member),
        ihRest fun token member => texts token (List.mem_append_right _ member)]

theorem Reading.Derives.leaves {g : Grammar} {line : Nat} {symbols : List Symbol}
    {word : List Token} {tree : Tree}
    (h : (Tree.reading g line).Derives g symbols word [tree])
    (texts : ∀ token ∈ word, token.text ≠ "") : tree.leaves = word.map (Tree.leaf line) := by
  have leaves := h.leavesOf texts
  rwa [Tree.leavesOf, Tree.leavesOf, List.append_nil] at leaves

/-- The structure of a derivation: which terminals and productions it is made of. -/
inductive Derivation where
  | leaf (t : Nat)
  | node (p : Nat) (children : List Derivation)

/-- Words of terminals and the structures of their derivations. -/
def Derivation.reading : Reading Nat Derivation where
  terminal t := t
  leaf := .leaf
  node p _ children := .node p children

namespace Grammar

def parensLine : Line := ⟨1, [⟨1, "(", .symbol '('⟩, ⟨2, ")", .symbol ')'⟩]⟩

def parensTree : Tree :=
  .node "s" 1 [.node "p" 1
    [.leaf 1 ⟨1, "(", .symbol '('⟩, .node "p" 1 [], .leaf 1 ⟨2, ")", .symbol ')'⟩]]

end Grammar

end Assembler
