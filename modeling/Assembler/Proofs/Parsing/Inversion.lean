import Assembler.Proofs.Parsing.Completeness
import Assembler.Proofs.Parsing.Soundness

/-! # Reading a grammar off its derivations

What a row of symbols derives is put together from what its symbols derive, and what a nonterminal
derives is what the right-hand sides of its productions derive. Followed through a grammar, these
equivalences turn derivations into a description of the lines that have one, with their trees.
-/

namespace Assembler

theorem TokenKind.name_injective : Function.Injective TokenKind.name := by
  intro a b same
  have letters := congrArg String.toList same
  clear same
  cases a <;> cases b <;> simp_all [TokenKind.name]

namespace Grammar

/-- The right-hand sides of the productions of a nonterminal. -/
def rows (g : Grammar) (m : Nat) : List (List Symbol) :=
  (g.productions.filter (·.lhs == m)).map (·.rhs)

/-- The terminal that tokens of a kind read as. -/
def symbolOfKind (g : Grammar) (kind : TokenKind) : Symbol :=
  .terminal ((lastIndexOf? kind.name g.terminals).getD g.terminals.length)

end Grammar

namespace Reading

variable {β α : Type} {r : Reading β α} {g : Grammar} {s : Symbol} {symbols : List Symbol}
  {word : List β} {values : List α}

theorem derives_nil_iff : r.Derives g [] word values ↔ word = [] ∧ values = [] := by
  constructor
  · intro h
    cases h
    exact ⟨rfl, rfl⟩
  · rintro ⟨rfl, rfl⟩
    exact .nil

theorem derives_cons_iff : r.Derives g (s :: symbols) word values ↔
    ∃ front rest value others, word = front ++ rest ∧ values = value :: others ∧
      r.Derives g [s] front [value] ∧ r.Derives g symbols rest others := by
  constructor
  · intro h
    cases h with
    | leaf reads rest => exact ⟨_, _, _, _, rfl, rfl, .leaf reads .nil, rest⟩
    | @node p production _ below word children values rule inner rest =>
        have whole := Derives.node rule inner .nil
        rw [List.append_nil] at whole
        exact ⟨below, word, _, _, rfl, rfl, whole, rest⟩
  · rintro ⟨front, rest, value, others, rfl, rfl, first, behind⟩
    exact first.append behind

end Reading

section Tokens

variable {g : Grammar} {n m : Nat} {kind : TokenKind} {kinds : List TokenKind} {word : List Token}
  {trees : List Tree}

theorem derives_nonterminal_iff : (Tree.reading g n).Derives g [.nonterminal m] word trees ↔
    ∃ row ∈ g.rows m, ∃ children, (Tree.reading g n).Derives g row word children ∧
      trees = [.node (g.name (.nonterminal m)) n children] := by
  simp only [Grammar.rows, List.mem_map, List.mem_filter, beq_iff_eq]
  constructor
  · generalize roots : [Symbol.nonterminal m] = symbols
    intro h
    cases h with
    | nil => cases roots
    | leaf _ _ => cases roots
    | node rule inner rest =>
        obtain ⟨same, rfl⟩ := List.cons.inj roots
        obtain ⟨rfl, rfl⟩ := Reading.derives_nil_iff.1 rest
        obtain rfl := Symbol.nonterminal.inj same
        rw [List.append_nil]
        exact ⟨_, ⟨_, ⟨List.mem_of_getElem? rule, rfl⟩, rfl⟩, _, inner, rfl⟩
  · rintro ⟨_, ⟨production, ⟨member, rfl⟩, rfl⟩, children, inner, rfl⟩
    obtain ⟨p, rule⟩ := List.mem_iff_getElem?.1 member
    have whole := Reading.Derives.node rule inner .nil
    rw [List.append_nil] at whole
    exact whole

theorem exists_derives_iff :
    (∃ tree, (Tree.reading g n).Derives g [.nonterminal m] word [tree]) ↔
      ∃ row ∈ g.rows m, ∃ children, (Tree.reading g n).Derives g row word children := by
  simp only [derives_nonterminal_iff]
  constructor
  · rintro ⟨tree, row, member, children, inner, -⟩
    exact ⟨row, member, children, inner⟩
  · rintro ⟨row, member, children, inner⟩
    exact ⟨_, row, member, children, inner, rfl⟩

theorem terminal_eq_iff (known : kind.name ∈ g.terminals) {token : Token} :
    .terminal ((Tree.reading g n).terminal token) = g.symbolOfKind kind ↔ token.kind = kind := by
  constructor
  · intro same
    obtain ⟨i, index⟩ : ∃ i, lastIndexOf? kind.name g.terminals = some i := by
      cases found : lastIndexOf? kind.name g.terminals with
      | none => exact absurd known (lastIndexOf?_eq_none_iff.1 found)
      | some i => exact ⟨i, rfl⟩
    have inside := lastIndexOf?_lt index
    simp only [Grammar.symbolOfKind, Tree.reading, index, Option.getD_some,
      Symbol.terminal.injEq] at same
    apply TokenKind.name_injective
    cases found : lastIndexOf? token.kind.name g.terminals with
    | none =>
        rw [found, Option.getD_none] at same
        omega
    | some j =>
        rw [found, Option.getD_some] at same
        subst same
        have named := lastIndexOf?_getElem? found
        rw [lastIndexOf?_getElem? index] at named
        exact (Option.some.inj named).symm
  · rintro rfl
    rfl

theorem derives_kind_cons_iff (known : kind.name ∈ g.terminals) {symbols : List Symbol} :
    (Tree.reading g n).Derives g (g.symbolOfKind kind :: symbols) word trees ↔
      ∃ token rest others, word = token :: rest ∧ trees = .leaf n token :: others ∧
        token.kind = kind ∧ (Tree.reading g n).Derives g symbols rest others := by
  constructor
  · intro h
    generalize symbol : g.symbolOfKind kind = s at h
    cases h with
    | leaf reads rest =>
        have here := (terminal_eq_iff known).1 ((congrArg _ reads).trans symbol.symm)
        exact ⟨_, _, _, rfl, rfl, here, rest⟩
    | node _ _ _ => cases symbol
  · rintro ⟨token, rest, others, rfl, rfl, here, behind⟩
    rw [← (terminal_eq_iff (n := n) known).2 here]
    exact .leaf rfl behind

theorem derives_kinds_iff (known : ∀ kind ∈ kinds, kind.name ∈ g.terminals) :
    (Tree.reading g n).Derives g (kinds.map g.symbolOfKind) word trees ↔
      word.map (·.kind) = kinds ∧ trees = word.map (Tree.leaf n) := by
  induction kinds generalizing word trees with
  | nil =>
      rw [List.map_nil, Reading.derives_nil_iff, List.map_eq_nil_iff]
      constructor
      · rintro ⟨rfl, rfl⟩
        exact ⟨rfl, rfl⟩
      · rintro ⟨rfl, rfl⟩
        exact ⟨rfl, rfl⟩
  | cons kind kinds ih =>
      obtain ⟨first, others⟩ := List.forall_mem_cons.1 known
      rw [List.map_cons, derives_kind_cons_iff first]
      constructor
      · rintro ⟨token, rest, trees, rfl, rfl, here, behind⟩
        obtain ⟨same, rfl⟩ := (ih others).1 behind
        exact ⟨by rw [List.map_cons, here, same], rfl⟩
      · rintro ⟨same, rfl⟩
        obtain ⟨token, rest, rfl, here, behind⟩ := List.map_eq_cons_iff.1 same
        exact ⟨token, rest, _, rfl, rfl, here, (ih others).2 ⟨behind, rfl⟩⟩

/-- A nonterminal whose right-hand sides have terminals only derives rows of tokens. -/
theorem derives_rows_iff {rows : List (List TokenKind)}
    (known : ∀ row ∈ rows, ∀ kind ∈ row, kind.name ∈ g.terminals)
    (rules : g.rows m = rows.map (·.map g.symbolOfKind)) :
    (Tree.reading g n).Derives g [.nonterminal m] word trees ↔
      word.map (·.kind) ∈ rows ∧
        trees = [.node (g.name (.nonterminal m)) n (word.map (Tree.leaf n))] := by
  rw [derives_nonterminal_iff, rules]
  constructor
  · rintro ⟨_, listed, children, inner, rfl⟩
    obtain ⟨row, member, rfl⟩ := List.mem_map.1 listed
    obtain ⟨rfl, rfl⟩ := (derives_kinds_iff (known row member)).1 inner
    exact ⟨member, rfl⟩
  · rintro ⟨member, rfl⟩
    exact ⟨_, List.mem_map_of_mem member, _, (derives_kinds_iff (known _ member)).2 ⟨rfl, rfl⟩, rfl⟩

end Tokens

theorem Table.parse_eq_ok_iff {t : Table} {g : Grammar} (wf : g.WellFormed)
    (ofGrammar : Table.ofGrammar g = .ok t) {line : Line}
    (unmarked : ∀ token ∈ line.tokens, token.kind.name ≠ endName) {tree : Tree} :
    t.parse line = .ok tree ↔
      (Tree.reading g line.number).Derives g [.nonterminal g.goal] line.tokens [tree] :=
  ⟨derives_of_parse wf ofGrammar (.of_ne unmarked), parse_of_derives wf ofGrammar⟩

end Assembler
