import Assembler.Proofs.Dialect.Shapes

/-! # Lines of the Complx dialect

The grammar is read off as the shapes that a line can have: a directive, or up to three words and
what may stand behind them. Which of the words are labels is counted, for every shape, and the
tokens of a line are then its labels, its mnemonic or directive and its operands, one after another.
Symbols have their numbers in `Complx.grammar`.
-/

namespace Assembler.Complx

variable {isa : Isa} {n : Nat} {word front behind tokens : List Token} {tree : Tree}

/-- Tokens that can only be operands. -/
def argumentKinds : List TokenKind := [.register, .integer, .string, .char]

/-- Tokens that can be operands. -/
def operandKinds : List TokenKind := .word :: argumentKinds

/-- Operands with commas between them. -/
def IsOperandList (kinds : List TokenKind) : Prop :=
  Separated (operandKinds.map ([·])) kinds

/-- A directive with or without an operand. -/
def IsDirective (kinds : List TokenKind) : Prop :=
  kinds = [.directive] ∨ ∃ kind ∈ operandKinds, kinds = [.directive, kind]

/-- One to three words, of which the first may be followed by a colon. -/
def IsFront (kinds : List TokenKind) : Prop :=
  ∃ more ≤ 2, kinds = .word :: List.replicate more .word ∨
    kinds = .word :: .symbol ':' :: List.replicate more .word

/-- What may follow the words. -/
inductive IsTail : List TokenKind → Prop where
  | nothing : IsTail []
  | directive {kinds : List TokenKind} (h : IsDirective kinds) : IsTail kinds
  | argument {kind : TokenKind} (h : kind ∈ argumentKinds) : IsTail [kind]
  | arguments {kind : TokenKind} {kinds : List TokenKind} (first : kind ∈ argumentKinds)
      (rest : IsOperandList kinds) : IsTail (kind :: .symbol ',' :: kinds)
  | comma {kinds : List TokenKind} (rest : IsOperandList kinds) : IsTail (.symbol ',' :: kinds)

/-- The kinds of the tokens of a line. -/
def IsLine (kinds : List TokenKind) : Prop :=
  IsDirective kinds ∨ ∃ front tail, IsFront front ∧ IsTail tail ∧ kinds = front ++ tail

/-- The words in front of a line, row by row. -/
def frontRows : List (List TokenKind) :=
  [[.word], [.word, .symbol ':'], [.word, .word], [.word, .symbol ':', .word],
    [.word, .word, .word], [.word, .symbol ':', .word, .word]]

theorem isFront_iff {kinds : List TokenKind} : IsFront kinds ↔ kinds ∈ frontRows := by
  constructor
  · rintro ⟨more, short, rfl | rfl⟩
    · interval_cases more <;> decide
    · interval_cases more <;> decide
  · intro member
    fin_cases member
    · exact ⟨0, by decide, .inl rfl⟩
    · exact ⟨0, by decide, .inr rfl⟩
    · exact ⟨1, by decide, .inl rfl⟩
    · exact ⟨1, by decide, .inr rfl⟩
    · exact ⟨2, by decide, .inl rfl⟩
    · exact ⟨2, by decide, .inr rfl⟩

theorem derives_words_iff {trees : List Tree} :
    (Tree.reading grammar n).Derives grammar [.nonterminal 1] word trees ↔
      IsFront (word.map (·.kind)) ∧ trees = [.node "words" n (word.map (Tree.leaf n))] := by
  rw [isFront_iff]
  exact derives_rows_iff (by decide +kernel) (by decide +kernel)

theorem derives_arg_iff {trees : List Tree} :
    (Tree.reading grammar n).Derives grammar [.nonterminal 5] word trees ↔
      word.map (·.kind) ∈ argumentKinds.map ([·]) ∧
        trees = [.node "arg" n (word.map (Tree.leaf n))] :=
  derives_rows_iff (by decide +kernel) (by decide +kernel)

theorem exists_operand_iff (word : List Token) :
    (∃ tree, (Tree.reading grammar n).Derives grammar [.nonterminal 4] word [tree]) ↔
      word.map (·.kind) ∈ operandKinds.map ([·]) := by
  have rules : grammar.rows 4 = [[grammar.symbolOfKind .word], [.nonterminal 5]] := by
    decide +kernel
  have named : ∀ {trees : List Tree},
      (Tree.reading grammar n).Derives grammar [grammar.symbolOfKind .word] word trees ↔
        word.map (·.kind) = [.word] ∧ trees = word.map (Tree.leaf n) :=
    derives_kinds_iff (by decide : ∀ kind ∈ [TokenKind.word], kind.name ∈ grammar.terminals)
  rw [exists_derives_iff, rules, operandKinds, List.map_cons, List.mem_cons]
  simp only [List.mem_cons, List.not_mem_nil, or_false, exists_eq_or_imp, exists_eq_left, named,
    derives_arg_iff, exists_and_left, exists_eq, and_true]

theorem exists_oplist_iff (word : List Token) :
    (∃ tree, (Tree.reading grammar n).Derives grammar [.nonterminal 3] word [tree]) ↔
      IsOperandList (word.map (·.kind)) :=
  derives_separated_iff (by decide) (by decide +kernel) exists_operand_iff (by decide)

theorem derives_pseudo_iff {trees : List Tree} :
    (Tree.reading grammar n).Derives grammar [.nonterminal 2] word trees ↔
      ∃ name rest behind, word = name :: rest ∧ name.kind = .directive ∧
        ((rest = [] ∧ behind = []) ∨ ∃ operand,
          (Tree.reading grammar n).Derives grammar [.nonterminal 4] rest [operand] ∧
          behind = [operand]) ∧
        trees = [.node "pseudo" n (.leaf n name :: behind)] :=
  derives_headed_iff (by decide) (by decide +kernel)

theorem exists_pseudo_iff (word : List Token) :
    (∃ tree, (Tree.reading grammar n).Derives grammar [.nonterminal 2] word [tree]) ↔
      IsDirective (word.map (·.kind)) := by
  simp only [derives_pseudo_iff, IsDirective]
  constructor
  · rintro ⟨_, name, rest, _, rfl, kind, ⟨rfl, -⟩ | ⟨operand, derives, -⟩, -⟩
    · exact .inl (by rw [List.map_singleton, kind])
    · obtain ⟨other, member, same⟩ := List.mem_map.1 ((exists_operand_iff rest).1 ⟨_, derives⟩)
      exact .inr ⟨other, member, by rw [List.map_cons, kind, ← same]⟩
  · rintro (same | ⟨other, member, same⟩)
    · obtain ⟨name, rfl, kind⟩ := List.map_eq_singleton_iff.1 same
      exact ⟨_, name, [], [], rfl, kind, .inl ⟨rfl, rfl⟩, rfl⟩
    · obtain ⟨name, rest, rfl, kind, behind⟩ := List.map_eq_cons_iff.1 same
      obtain ⟨operand, derives⟩ :=
        (exists_operand_iff rest).2 (List.mem_map.2 ⟨other, member, behind.symm⟩)
      exact ⟨_, name, rest, [operand], rfl, kind, .inr ⟨operand, derives, rfl⟩, rfl⟩

/-- The trees behind the words of a line. -/
inductive TailTrees (n : Nat) : List Token → List Tree → Prop where
  | nothing : TailTrees n [] []
  | directive {word : List Token} {pseudo : Tree}
      (h : (Tree.reading grammar n).Derives grammar [.nonterminal 2] word [pseudo]) :
      TailTrees n word [pseudo]
  | argument {word : List Token} {arg : Tree}
      (h : (Tree.reading grammar n).Derives grammar [.nonterminal 5] word [arg]) :
      TailTrees n word [arg]
  | arguments {word rest : List Token} {comma : Token} {arg list : Tree}
      (first : (Tree.reading grammar n).Derives grammar [.nonterminal 5] word [arg])
      (kind : comma.kind = .symbol ',')
      (others : (Tree.reading grammar n).Derives grammar [.nonterminal 3] rest [list]) :
      TailTrees n (word ++ comma :: rest) [arg, .leaf n comma, list]
  | comma {rest : List Token} {comma : Token} {list : Tree} (kind : comma.kind = .symbol ',')
      (others : (Tree.reading grammar n).Derives grammar [.nonterminal 3] rest [list]) :
      TailTrees n (comma :: rest) [.leaf n comma, list]

theorem exists_tailTrees_iff :
    (∃ trees, TailTrees n behind trees) ↔ IsTail (behind.map (·.kind)) := by
  constructor
  · rintro ⟨_, h⟩
    cases h with
    | nothing => exact .nothing
    | directive h => exact .directive ((exists_pseudo_iff behind).1 ⟨_, h⟩)
    | argument h =>
        obtain ⟨kind, member, same⟩ := List.mem_map.1 (derives_arg_iff.1 h).1
        rw [← same]
        exact .argument member
    | @arguments word rest comma arg list first named others =>
        obtain ⟨kind, member, same⟩ := List.mem_map.1 (derives_arg_iff.1 first).1
        rw [List.map_append, ← same, List.map_cons, named]
        exact .arguments member ((exists_oplist_iff rest).1 ⟨_, others⟩)
    | @comma rest comma list named others =>
        rw [List.map_cons, named]
        exact .comma ((exists_oplist_iff rest).1 ⟨_, others⟩)
  · intro h
    generalize same : behind.map (·.kind) = kinds at h
    cases h with
    | nothing =>
        obtain rfl := List.map_eq_nil_iff.1 same
        exact ⟨_, .nothing⟩
    | directive h =>
        obtain ⟨pseudo, derives⟩ := (exists_pseudo_iff behind).2 (same ▸ h)
        exact ⟨_, .directive derives⟩
    | argument h =>
        exact ⟨_, .argument (derives_arg_iff.2 ⟨List.mem_map.2 ⟨_, h, same.symm⟩, rfl⟩)⟩
    | arguments first rest =>
        obtain ⟨token, others, rfl, kind, same⟩ := List.map_eq_cons_iff.1 same
        obtain ⟨comma, others, rfl, named, rfl⟩ := List.map_eq_cons_iff.1 same
        obtain ⟨list, derives⟩ := (exists_oplist_iff others).2 rest
        have single : [token].map (·.kind) ∈ argumentKinds.map ([·]) :=
          List.mem_map.2 ⟨_, first, by rw [List.map_singleton, kind]⟩
        exact ⟨_, .arguments (derives_arg_iff.2 ⟨single, rfl⟩) named derives⟩
    | comma rest =>
        obtain ⟨comma, others, rfl, named, rfl⟩ := List.map_eq_cons_iff.1 same
        obtain ⟨list, derives⟩ := (exists_oplist_iff others).2 rest
        exact ⟨_, .comma named derives⟩

/-- What the rows of a line have behind the words. -/
def tailRows : List (List Symbol) :=
  [[], [grammar.symbolOfKind (.symbol ','), .nonterminal 3], [.nonterminal 5],
    [.nonterminal 5, grammar.symbolOfKind (.symbol ','), .nonterminal 3], [.nonterminal 2]]

theorem tailTrees_iff {trees : List Tree} : TailTrees n behind trees ↔
    ∃ row ∈ tailRows, (Tree.reading grammar n).Derives grammar row behind trees := by
  have known : (TokenKind.symbol ',').name ∈ grammar.terminals := by decide
  simp only [tailRows, List.mem_cons, List.not_mem_nil, or_false, exists_eq_or_imp, exists_eq_left]
  constructor
  · intro h
    cases h with
    | nothing => exact .inl .nil
    | comma kind others =>
        have inner := (derives_kind_cons_iff known).2 ⟨_, _, _, rfl, rfl, kind, others⟩
        exact .inr (.inl inner)
    | argument h => exact .inr (.inr (.inl h))
    | arguments first kind others =>
        have inner := (derives_kind_cons_iff known).2 ⟨_, _, _, rfl, rfl, kind, others⟩
        exact .inr (.inr (.inr (.inl (first.append inner))))
    | directive h => exact .inr (.inr (.inr (.inr h)))
  · rintro (h | h | h | h | h)
    · obtain ⟨rfl, rfl⟩ := Reading.derives_nil_iff.1 h
      exact .nothing
    · obtain ⟨comma, rest, _, rfl, rfl, kind, others⟩ := (derives_kind_cons_iff known).1 h
      obtain ⟨list, rfl⟩ := List.length_eq_one_iff.1 others.length_eq
      exact .comma kind others
    · obtain ⟨arg, rfl⟩ := List.length_eq_one_iff.1 h.length_eq
      exact .argument h
    · obtain ⟨word, _, arg, _, rfl, rfl, first, inner⟩ := Reading.derives_cons_iff.1 h
      obtain ⟨comma, rest, _, rfl, rfl, kind, others⟩ := (derives_kind_cons_iff known).1 inner
      obtain ⟨list, rfl⟩ := List.length_eq_one_iff.1 others.length_eq
      exact .arguments first kind others
    · obtain ⟨pseudo, rfl⟩ := List.length_eq_one_iff.1 h.length_eq
      exact .directive h

/-- The tree of a line has a directive below it, or words and what follows them. -/
theorem derives_line_iff :
    (Tree.reading grammar n).Derives grammar [.nonterminal 0] tokens [tree] ↔
      (∃ pseudo, (Tree.reading grammar n).Derives grammar [.nonterminal 2] tokens [pseudo] ∧
        tree = .node "line" n [pseudo]) ∨
      ∃ front behind trees, tokens = front ++ behind ∧ IsFront (front.map (·.kind)) ∧
        TailTrees n behind trees ∧
        tree = .node "line" n (.node "words" n (front.map (Tree.leaf n)) :: trees) := by
  have rules : grammar.rows 0 = tailRows.map (.nonterminal 1 :: ·) ++ [[.nonterminal 2]] := by
    decide +kernel
  have named : grammar.name (.nonterminal 0) = "line" := rfl
  rw [derives_nonterminal_iff, rules, named]
  constructor
  · rintro ⟨row, member, children, inner, same⟩
    obtain rfl := List.singleton_inj.1 same
    rcases List.mem_append.1 member with member | member
    · obtain ⟨tail, listed, rfl⟩ := List.mem_map.1 member
      obtain ⟨front, behind, _, trees, rfl, rfl, first, rest⟩ := Reading.derives_cons_iff.1 inner
      obtain ⟨isFront, same⟩ := derives_words_iff.1 first
      obtain rfl := List.singleton_inj.1 same
      exact .inr ⟨front, behind, trees, rfl, isFront, tailTrees_iff.2 ⟨tail, listed, rest⟩, rfl⟩
    · obtain rfl := List.mem_singleton.1 member
      obtain ⟨pseudo, rfl⟩ := List.length_eq_one_iff.1 inner.length_eq
      exact .inl ⟨pseudo, inner, rfl⟩
  · rintro (⟨pseudo, inner, rfl⟩ | ⟨front, behind, trees, rfl, isFront, rest, rfl⟩)
    · exact ⟨_, List.mem_append_right _ (List.mem_singleton.2 rfl), _, inner, rfl⟩
    · obtain ⟨tail, listed, rest⟩ := tailTrees_iff.1 rest
      have first := derives_words_iff (n := n).2 ⟨isFront, rfl⟩
      exact ⟨_, List.mem_append_left _ (List.mem_map_of_mem listed), _, first.append rest, rfl⟩

theorem exists_line_iff :
    (∃ tree, (Tree.reading grammar n).Derives grammar [.nonterminal 0] tokens [tree]) ↔
      IsLine (tokens.map (·.kind)) := by
  simp only [derives_line_iff, IsLine]
  constructor
  · rintro ⟨tree, ⟨pseudo, derives, -⟩ | ⟨front, behind, trees, rfl, isFront, tail, -⟩⟩
    · exact .inl ((exists_pseudo_iff tokens).1 ⟨pseudo, derives⟩)
    · exact .inr ⟨_, _, isFront, exists_tailTrees_iff.1 ⟨trees, tail⟩, List.map_append⟩
  · rintro (isDirective | ⟨kinds, others, isFront, tail, same⟩)
    · obtain ⟨pseudo, derives⟩ := (exists_pseudo_iff tokens).2 isDirective
      exact ⟨_, .inl ⟨pseudo, derives, rfl⟩⟩
    · obtain ⟨front, behind, rfl, rfl, rfl⟩ := List.map_eq_append_iff.1 same
      obtain ⟨trees, tail⟩ := exists_tailTrees_iff.2 tail
      exact ⟨_, .inr ⟨front, behind, trees, rfl, isFront, tail, rfl⟩⟩

/-- Whether a token can belong to the words in front of a line. -/
def isFrontToken (token : Token) : Bool :=
  token.kind == .word || token.kind == .symbol ':'

/-- The tokens of a line but for commas and colons. -/
def listed (tokens : List Token) : List Token :=
  tokens.filter fun token => token.kind != .symbol ',' && token.kind != .symbol ':'

/-- How many words have a colon behind them: the first or none. -/
def marked (front : List Token) : Nat :=
  if front[1]?.any (·.kind == .symbol ':') then 1 else 0

/-- How many of the words are labels on a line that has nothing else: a lone word unless it is a
    mnemonic; of two words none if the first is a mnemonic, and else the first and, like a lone
    word, the second; of three words the first. -/
def bareLabels (isa : Isa) : List Token → Nat
  | [] => 0
  | [a] => if isa.isMnemonic a.text then 0 else 1
  | [a, b] => if isa.isMnemonic a.text then 0 else if isa.isMnemonic b.text then 1 else 2
  | _ => 1

/-- How many words are labels if the last ones are a mnemonic and operands: the others, unless the
    word with a colon, which is a label, is among the last ones. -/
def labelsBut (front : List Token) (last : Nat) : Option Nat :=
  if marked front + last ≤ (listed front).length then some ((listed front).length - last) else none

/-- How many words in front of a line are labels, by the token behind them: all before a directive,
    all but the last before operands, all but the last two before a comma, and before nothing the
    one with a colon and those among the others that the words themselves tell. -/
def labelsBefore (isa : Isa) (front : List Token) : Option TokenKind → Option Nat
  | some .directive => some (listed front).length
  | some (.symbol _) => labelsBut front 2
  | some _ => labelsBut front 1
  | none => some (marked front + bareLabels isa ((listed front).drop (marked front)))

/-- How many tokens of a line, commas and colons not counted, are labels, unless there are too few
    words for a statement. -/
def labelCount? (isa : Isa) (tokens : List Token) : Option Nat :=
  labelsBefore isa (tokens.takeWhile isFrontToken)
    ((tokens.dropWhile isFrontToken).head?.map (·.kind))

/-- Contents that the tokens of a line list: its labels, and behind them the statement. -/
def Lists (isa : Isa) (n : Nat) (tokens : List Token) (c : LineContents) : Prop :=
  ∃ k, labelCount? isa tokens = some k ∧
    c.ListedBy isa n ((listed tokens).take k) ((listed tokens).drop k)

theorem IsFront.mem {kinds : List TokenKind} (h : IsFront kinds) :
    ∀ kind ∈ kinds, kind = .word ∨ kind = .symbol ':' := by
  obtain ⟨more, -, rfl | rfl⟩ := h
  · intro kind member
    simp only [List.mem_cons, List.mem_replicate] at member
    tauto
  · intro kind member
    simp only [List.mem_cons, List.mem_replicate] at member
    tauto

theorem IsTail.head {kinds : List TokenKind} (h : IsTail kinds) :
    ∀ kind ∈ kinds.head?, kind ≠ .word ∧ kind ≠ .symbol ':' := by
  have arguments : ∀ kind ∈ argumentKinds, kind ≠ .word ∧ kind ≠ .symbol ':' := by decide
  cases h with
  | nothing => simp
  | directive h =>
      obtain rfl | ⟨kind, -, rfl⟩ := h
      · simp
      · simp
  | argument h => simpa using arguments _ h
  | arguments first _ => simpa using arguments _ first
  | comma _ => simp

theorem isFrontToken_eq_true {token : Token} :
    isFrontToken token = true ↔ token.kind = .word ∨ token.kind = .symbol ':' := by
  simp [isFrontToken]

theorem all_isFrontToken (h : IsFront (front.map (·.kind))) :
    ∀ token ∈ front, isFrontToken token = true :=
  fun _ member => isFrontToken_eq_true.2 (h.mem _ (List.mem_map_of_mem member))

theorem labelCount?_append (all : ∀ token ∈ front, isFrontToken token = true)
    (tail : IsTail (behind.map (·.kind))) :
    labelCount? isa (front ++ behind) = labelsBefore isa front (behind.head?.map (·.kind)) := by
  have stop : ∀ token ∈ behind.head?, isFrontToken token = false := by
    intro token first
    have kind : token.kind ∈ (behind.map (·.kind)).head? := by
      rw [List.head?_map]
      exact Option.mem_map_of_mem _ first
    have other := tail.head _ kind
    simp [isFrontToken, other.1, other.2]
  rw [labelCount?, takeWhile_run all stop, dropWhile_run all stop]

theorem IsOperandList.mem {kinds : List TokenKind} (h : IsOperandList kinds) :
    ∀ kind ∈ kinds, kind ≠ .symbol ':' := by
  have rows : ∀ row ∈ operandKinds.map ([·]), .symbol ':' ∉ row := by decide
  rintro kind member rfl
  rcases Separated.mem h _ member with comma | ⟨row, listed, inside⟩
  · cases comma
  · exact rows row listed inside

theorem listed_append (front behind : List Token) :
    listed (front ++ behind) = listed front ++ listed behind :=
  List.filter_append ..

theorem listed_comma {comma : Token} (kind : comma.kind = .symbol ',') (rest : List Token) :
    listed (comma :: rest) = listed rest :=
  List.filter_cons_of_neg (by simp [kind])

theorem operandLeaves_eq_listed {symbols : List Symbol}
    (h : (Tree.reading grammar n).Derives grammar symbols word [tree])
    (filled : ∀ token ∈ word, token.text ≠ "") (plain : ∀ token ∈ word, token.kind ≠ .symbol ':') :
    operandLeaves tree = (listed word).map (Tree.leaf n) := by
  have same : ∀ token ∈ word, ((Tree.leaf n token).symbol != ",") =
      (token.kind != .symbol ',' && token.kind != .symbol ':') := by
    intro token member
    have comma : (Tree.leaf n token).symbol = "," ↔ token.kind = .symbol ',' :=
      Tree.symbol_leaf_eq_iff (.symbol ',')
    have colon := plain token member
    rw [Bool.eq_iff_iff]
    simp [comma, colon]
  rw [operandLeaves, h.leaves filled, List.filter_map, listed, ← List.filter_congr same]
  rfl

theorem wordsOf_front (isFront : IsFront (front.map (·.kind))) :
    wordsOf (.node "words" n (front.map (Tree.leaf n))) = (listed front).map (·.text) := by
  have same : ∀ token ∈ front, ((Tree.leaf n token).symbol == "word") =
      (token.kind != .symbol ',' && token.kind != .symbol ':') := by
    intro token member
    have named : (Tree.leaf n token).symbol = "word" ↔ token.kind = .word :=
      Tree.symbol_leaf_eq_iff .word
    rw [Bool.eq_iff_iff]
    rcases isFront.mem _ (List.mem_map_of_mem member) with kind | kind
    · simp [named, kind]
    · simp [named, kind]
  rw [wordsOf, Tree.node, List.filter_map, List.map_map, listed, ← List.filter_congr same]
  rfl

theorem hasColon_front : hasColon (.node "words" n (front.map (Tree.leaf n))) =
    front[1]?.any (·.kind == .symbol ':') := by
  rw [hasColon, Tree.node, List.getElem?_map, Option.any_map]
  congr 1
  funext token
  have colon : (Tree.leaf n token).symbol = ":" ↔ token.kind = .symbol ':' :=
    Tree.symbol_leaf_eq_iff (.symbol ':')
  rw [Bool.eq_iff_iff]
  simp [colon]

theorem kind_of_mem_drop (isFront : IsFront (front.map (·.kind))) (k : Nat) :
    ∀ token ∈ (listed front).drop k, token.kind = .word := by
  intro token member
  obtain ⟨member, plain⟩ := List.mem_filter.1 (List.mem_of_mem_drop member)
  rcases isFront.mem _ (List.mem_map_of_mem member) with kind | kind
  · exact kind
  · simp [kind] at plain

theorem classify_front (isFront : IsFront (front.map (·.kind))) (tail : Tail) :
    classify isa n (.node "words" n (front.map (Tree.leaf n))) tail =
      sortWords isa n (((listed front).take (marked front)).map (·.text)) tail
        (((listed front).drop (marked front)).map (·.text)) := by
  rw [classify, hasColon_front, wordsOf_front isFront, marked]
  by_cases colon : front[1]?.any (·.kind == .symbol ':')
  · obtain ⟨first, rest, rfl, kind⟩ : ∃ first rest, front = first :: rest ∧ first.kind = .word := by
      obtain ⟨more, -, same | same⟩ := isFront
      · obtain ⟨first, rest, rfl, kind, -⟩ := List.map_eq_cons_iff.1 same
        exact ⟨first, rest, rfl, kind⟩
      · obtain ⟨first, rest, rfl, kind, -⟩ := List.map_eq_cons_iff.1 same
        exact ⟨first, rest, rfl, kind⟩
    have head : listed (first :: rest) = first :: listed rest :=
      List.filter_cons_of_pos (by simp [kind])
    rw [if_pos colon, if_pos colon, head]
    rfl
  · rw [if_neg colon, if_neg colon]
    rfl

theorem length_listed_bounds (isFront : IsFront (front.map (·.kind))) :
    0 < (listed front).length ∧ (listed front).length ≤ 3 := by
  have rows : ∀ row ∈ frontRows,
      0 < (row.filter fun kind => kind != .symbol ',' && kind != .symbol ':').length ∧
        (row.filter fun kind => kind != .symbol ',' && kind != .symbol ':').length ≤ 3 := by
    decide
  have kinds := rows _ (isFront_iff.1 isFront)
  rwa [List.filter_map, List.length_map] at kinds

section Sorting

variable {known words leaves : List Token} {c : LineContents}

theorem operand_of_word (isa : Isa) {token : Token} (kind : token.kind = .word) :
    (Tree.leaf n token).operand isa = .ok (.label token.text) := by
  have symbol : (Tree.leaf n token).symbol = "word" := congrArg TokenKind.name kind
  rw [Tree.operand, symbol]
  rfl

theorem listedBy_instruction_iff {labels : List Token} {op : Token} (kind : op.kind = .word) :
    c.ListedBy isa n labels (op :: leaves) ↔
      ∃ operands, (leaves.map (Tree.leaf n)).mapM (Tree.operand isa) = .ok operands ∧
        ⟨labels.map (·.text), instruction n op.text operands⟩ = c := by
  simp only [LineContents.listedBy_cons_iff, Statement.readFrom_word_iff kind, mapM_eq_ok,
    List.forall₂_map_left_iff]
  constructor
  · rintro ⟨_, ⟨operands, decoded, rfl⟩, rfl⟩
    exact ⟨operands, decoded, rfl⟩
  · rintro ⟨operands, decoded, rfl⟩
    exact ⟨_, ⟨operands, decoded, rfl⟩, rfl⟩

theorem sortWords_nothing (kinds : ∀ token ∈ words, token.kind = .word) (few : words.length ≤ 3) :
    sortWords isa n (known.map (·.text)) .nothing (words.map (·.text)) = .ok c ↔
      c.ListedBy isa n (known ++ words.take (bareLabels isa words))
        (words.drop (bareLabels isa words)) := by
  match words, kinds, few with
  | [], _, _ =>
      simp [LineContents.listedBy_nil_iff, sortWords]
  | [a], kinds, _ =>
      have kind := kinds a (by simp)
      by_cases mnemonic : isa.isMnemonic a.text
      · simp [bareLabels, mnemonic, sortWords, listedBy_instruction_iff kind]
      · simp [bareLabels, mnemonic, sortWords, LineContents.listedBy_nil_iff]
  | [a, b], kinds, _ =>
      have first := kinds a (by simp)
      have second := kinds b (by simp)
      by_cases mnemonic : isa.isMnemonic a.text
      · simp [bareLabels, mnemonic, sortWords, listedBy_instruction_iff first,
          operand_of_word isa second]
      · by_cases behind : isa.isMnemonic b.text
        · simp [bareLabels, mnemonic, behind, sortWords, listedBy_instruction_iff second]
        · simp [bareLabels, mnemonic, behind, sortWords, LineContents.listedBy_nil_iff]
  | [a, b, d], kinds, _ =>
      have second := kinds b (by simp)
      have third := kinds d (by simp)
      simp [bareLabels, sortWords, listedBy_instruction_iff second, operand_of_word isa third]

/-- Words with operands behind them: the last word is the mnemonic. -/
theorem sortWords_operands (kinds : ∀ token ∈ words, token.kind = .word) :
    sortWords isa n (known.map (·.text)) (.operands (leaves.map (Tree.leaf n)))
      (words.map (·.text)) = .ok c ↔
      1 ≤ words.length ∧ c.ListedBy isa n (known ++ words.take (words.length - 1))
        (words.drop (words.length - 1) ++ leaves) := by
  obtain rfl | ⟨before, op, rfl⟩ := List.eq_nil_or_concat' words
  · simp [sortWords]
  · have kind := kinds op (by simp)
    simp [-bind_pure_comp, sortWords, listedBy_instruction_iff kind, bind_eq_ok]

/-- Words with a comma behind them: the last word is the first operand. -/
theorem sortWords_comma (kinds : ∀ token ∈ words, token.kind = .word) :
    sortWords isa n (known.map (·.text)) (.comma (leaves.map (Tree.leaf n)))
      (words.map (·.text)) = .ok c ↔
      2 ≤ words.length ∧ c.ListedBy isa n (known ++ words.take (words.length - 2))
        (words.drop (words.length - 2) ++ leaves) := by
  obtain rfl | ⟨others, first, rfl⟩ := List.eq_nil_or_concat' words
  · simp [sortWords]
  · obtain rfl | ⟨before, op, rfl⟩ := List.eq_nil_or_concat' others
    · simp [sortWords]
    · have kind := kinds op (by simp)
      have label := operand_of_word (n := n) isa (kinds first (by simp))
      simp [-bind_pure_comp, sortWords, listedBy_instruction_iff kind, bind_eq_ok, label]

theorem exists_labelsBut_iff {last : Nat} (positive : 0 < last)
    (split : words = (listed front).drop (marked front)) :
    (∃ k, labelsBut front last = some k ∧
      c.ListedBy isa n ((listed front ++ leaves).take k) ((listed front ++ leaves).drop k)) ↔
    last ≤ words.length ∧ c.ListedBy isa n
      ((listed front).take (marked front) ++ words.take (words.length - last))
      (words.drop (words.length - last) ++ leaves) := by
  subst split
  rw [List.length_drop, labelsBut]
  by_cases enough : marked front + last ≤ (listed front).length
  · have whole : marked front + ((listed front).length - marked front - last) =
        (listed front).length - last := by
      omega
    have inside : (listed front).length - last ≤ (listed front).length := Nat.sub_le _ _
    have behind : last ≤ (listed front).length - marked front := by omega
    rw [if_pos enough, ← List.take_add, List.drop_drop, whole]
    simp only [Option.some.injEq, exists_eq_left', List.take_append_of_le_length inside,
      List.drop_append_of_le_length inside, behind, true_and]
  · have missing : ¬ last ≤ (listed front).length - marked front := by omega
    simp only [if_neg enough, reduceCtorEq, false_and, exists_false, missing]

theorem classify_nothing (isFront : IsFront (front.map (·.kind))) :
    classify isa n (.node "words" n (front.map (Tree.leaf n))) .nothing = .ok c ↔
      ∃ k, labelsBefore isa front none = some k ∧
        c.ListedBy isa n ((listed front).take k) ((listed front).drop k) := by
  have few : ((listed front).drop (marked front)).length ≤ 3 := by
    have all := (length_listed_bounds isFront).2
    rw [List.length_drop]
    omega
  rw [classify_front isFront, sortWords_nothing (kind_of_mem_drop isFront _) few]
  simp only [labelsBefore, Option.some.injEq, exists_eq_left', List.take_add, List.drop_drop]

theorem classify_operands (isFront : IsFront (front.map (·.kind))) :
    classify isa n (.node "words" n (front.map (Tree.leaf n)))
      (.operands (leaves.map (Tree.leaf n))) = .ok c ↔
      ∃ k, labelsBut front 1 = some k ∧
        c.ListedBy isa n ((listed front ++ leaves).take k) ((listed front ++ leaves).drop k) := by
  rw [classify_front isFront, sortWords_operands (kind_of_mem_drop isFront _)]
  exact (exists_labelsBut_iff (by decide) rfl).symm

theorem classify_comma (isFront : IsFront (front.map (·.kind))) :
    classify isa n (.node "words" n (front.map (Tree.leaf n)))
      (.comma (leaves.map (Tree.leaf n))) = .ok c ↔
      ∃ k, labelsBut front 2 = some k ∧
        c.ListedBy isa n ((listed front ++ leaves).take k) ((listed front ++ leaves).drop k) := by
  rw [classify_front isFront, sortWords_comma (kind_of_mem_drop isFront _)]
  exact (exists_labelsBut_iff (by decide) rfl).symm

end Sorting

theorem exists_argument {arg : Tree}
    (h : (Tree.reading grammar n).Derives grammar [.nonterminal 5] word [arg]) :
    ∃ token, word = [token] ∧ token.kind ∈ argumentKinds ∧ arg = .node "arg" n [.leaf n token] := by
  obtain ⟨row, same⟩ := derives_arg_iff.1 h
  obtain ⟨kind, member, single⟩ := List.mem_map.1 row
  obtain ⟨token, rfl, rfl⟩ := List.map_eq_singleton_iff.1 single.symm
  exact ⟨token, rfl, member, List.singleton_inj.1 same⟩

theorem operandLeaves_argument {arg : Tree}
    (h : (Tree.reading grammar n).Derives grammar [.nonterminal 5] word [arg])
    (filled : ∀ token ∈ word, token.text ≠ "") :
    operandLeaves arg = (listed word).map (Tree.leaf n) := by
  have arguments : .symbol ':' ∉ argumentKinds := by decide
  obtain ⟨token, rfl, kind, -⟩ := exists_argument h
  refine operandLeaves_eq_listed h filled (List.forall_mem_singleton.2 ?_)
  exact ne_of_mem_of_not_mem kind arguments

theorem operandLeaves_list {list : Tree}
    (h : (Tree.reading grammar n).Derives grammar [.nonterminal 3] word [list])
    (filled : ∀ token ∈ word, token.text ≠ "") :
    operandLeaves list = (listed word).map (Tree.leaf n) := by
  have isList := (exists_oplist_iff word).1 ⟨list, h⟩
  exact operandLeaves_eq_listed h filled fun token member =>
    isList.mem _ (List.mem_map_of_mem member)

section Contents

variable {c : LineContents}

theorem labelsBefore_argument {kind : TokenKind} (h : kind ∈ argumentKinds) :
    labelsBefore isa front (some kind) = labelsBut front 1 := by
  fin_cases h <;> rfl

theorem directive_lists_iff {pseudo : Tree} (all : ∀ token ∈ front, isFrontToken token = true)
    (derives : (Tree.reading grammar n).Derives grammar [.nonterminal 2] behind [pseudo])
    (filled : ∀ token ∈ behind, token.text ≠ "") :
    (∃ d, pseudo.directive isa = .ok d ∧ ⟨(listed front).map (·.text), some (.directive d)⟩ = c) ↔
      Lists isa n (front ++ behind) c := by
  have shape := (exists_pseudo_iff behind).1 ⟨pseudo, derives⟩
  have plain : listed behind = behind := by
    have kinds : ∀ kind ∈ behind.map (·.kind), kind ∈ TokenKind.directive :: operandKinds := by
      obtain same | ⟨kind, member, same⟩ := shape
      · simp [same]
      · simp [same, member]
    have others : ∀ kind ∈ TokenKind.directive :: operandKinds,
        kind ≠ .symbol ',' ∧ kind ≠ .symbol ':' := by
      decide
    refine List.filter_eq_self.2 fun token member => ?_
    simpa using others _ (kinds _ (List.mem_map_of_mem member))
  obtain ⟨name, operands, children, rfl, kind, -, same⟩ := derives_pseudo_iff.1 derives
  obtain rfl := List.singleton_inj.1 same
  have count : labelCount? isa (front ++ name :: operands) = some (listed front).length := by
    rw [labelCount?_append all (.directive shape), List.head?_cons, Option.map_some, kind]
    rfl
  have read : ∀ s : Statement, s.ReadFrom isa n name operands ↔ _ :=
    fun s => Tree.readFrom_iff_directive kind rfl (derives.leaves filled)
  simp only [Lists, count, Option.some.injEq, exists_eq_left', listed_append, plain,
    List.take_left, List.drop_left, LineContents.listedBy_cons_iff, read]
  constructor
  · rintro ⟨d, directive, rfl⟩
    exact ⟨_, ⟨d, directive, rfl⟩, rfl⟩
  · rintro ⟨_, ⟨d, directive, rfl⟩, rfl⟩
    exact ⟨d, directive, rfl⟩

/-- What follows the words decides how they are sorted. -/
theorem contents_tail {trees : List Tree} (isFront : IsFront (front.map (·.kind)))
    (tail : TailTrees n behind trees) (filled : ∀ token ∈ behind, token.text ≠ "") :
    contents isa (.node "line" n (.node "words" n (front.map (Tree.leaf n)) :: trees)) = .ok c ↔
      Lists isa n (front ++ behind) c := by
  have all := all_isFrontToken isFront
  have count : labelCount? isa (front ++ behind) = labelsBefore isa front _ :=
    labelCount?_append all (exists_tailTrees_iff.1 ⟨trees, tail⟩)
  cases tail with
  | nothing =>
      rw [Lists, count, List.append_nil]
      exact classify_nothing isFront
  | directive derives =>
      rw [← directive_lists_iff all derives filled, ← wordsOf_front isFront, ← map_eq_ok]
      obtain ⟨_, _, _, -, -, -, same⟩ := derives_pseudo_iff.1 derives
      obtain rfl := List.singleton_inj.1 same
      exact Iff.rfl
  | argument derives =>
      obtain ⟨token, rfl, kind, rfl⟩ := exists_argument derives
      replace count := count.trans (labelsBefore_argument kind)
      rw [Lists, count, listed_append, ← classify_operands isFront,
        ← operandLeaves_argument derives filled]
      exact Iff.rfl
  | @arguments _ rest comma arg list first kind others =>
      obtain ⟨filled, behind⟩ := List.forall_mem_append.1 filled
      rw [List.forall_mem_cons] at behind
      obtain ⟨token, rfl, argument, -⟩ := exists_argument first
      replace count := count.trans (labelsBefore_argument argument)
      rw [Lists, count, listed_append, listed_append, listed_comma kind,
        ← classify_operands isFront, List.map_append, ← operandLeaves_argument first filled,
        ← operandLeaves_list others behind.2]
      exact Iff.rfl
  | @comma rest comma list kind others =>
      have symbol : (Tree.leaf n comma).symbol = "," := congrArg TokenKind.name kind
      rw [List.forall_mem_cons] at filled
      have read : contents isa (.node "line" n
          [.node "words" n (front.map (Tree.leaf n)), .leaf n comma, list]) =
          classify isa n (.node "words" n (front.map (Tree.leaf n)))
            (.comma (operandLeaves list)) :=
        if_pos symbol
      rw [read, Lists, count, List.head?_cons, Option.map_some, kind, listed_append,
        listed_comma kind, labelsBefore, ← classify_comma isFront,
        operandLeaves_list others filled.2]

theorem contents_eq_ok_iff
    (derives : (Tree.reading grammar n).Derives grammar [.nonterminal 0] tokens [tree])
    (filled : ∀ token ∈ tokens, token.text ≠ "") :
    contents isa tree = .ok c ↔ Lists isa n tokens c := by
  rcases derives_line_iff.1 derives with
    ⟨pseudo, below, rfl⟩ | ⟨front, behind, trees, rfl, isFront, tail, rfl⟩
  · refine Iff.trans ?_ (directive_lists_iff (List.forall_mem_nil _) below filled)
    obtain ⟨_, _, _, -, -, -, same⟩ := derives_pseudo_iff.1 below
    obtain rfl := List.singleton_inj.1 same
    rw [← map_eq_ok]
    exact Iff.rfl
  · exact contents_tail isFront tail fun token member =>
      filled token (List.mem_append_right _ member)

end Contents

/-- The lines that are parsed are those of the documented shapes. Their labels, their mnemonic or
    directive and their operands are all their tokens but commas and colons, in order, split where
    the words are labels no more; a line without such a split, or with an operand that denotes
    nothing, has no contents. -/
theorem line_listed (line : Line) (filled : ∀ token ∈ line.tokens, token.text ≠ "")
    (symbols : ∀ token ∈ line.tokens, ∀ c, token.kind = .symbol c → c ∈ config.symbols) :
    ∃ t, Complx.table = .ok t ∧
      ((∃ tree, t.parse line = .ok tree) ↔ IsLine (line.tokens.map (·.kind))) ∧
      ∀ isa tree c, t.parse line = .ok tree →
        (contents isa tree = .ok c ↔ Lists isa line.number line.tokens c) := by
  obtain ⟨t, table, parse_iff⟩ := Dialect.complx.exists_table_parse_iff
  refine ⟨t, table, ?_, ?_⟩
  · simp only [parse_iff symbols]
    exact exists_line_iff
  · intro isa tree c parsed
    exact contents_eq_ok_iff ((parse_iff symbols).1 parsed) filled

theorem line_listed_jmp : ∃ t tree, Complx.table = .ok t ∧
    t.parse ⟨3, [⟨1, "Loop", .word⟩, ⟨5, ":", .symbol ':'⟩, ⟨7, "JMP", .word⟩,
      ⟨11, "R2", .register⟩]⟩ = .ok tree ∧
    contents Lc3.isa tree =
      .ok ⟨["Loop"], some (.instruction ⟨"jmp", [.register 'r' 2], 3⟩)⟩ := by
  let tokens : List Token :=
    [⟨1, "Loop", .word⟩, ⟨5, ":", .symbol ':'⟩, ⟨7, "JMP", .word⟩, ⟨11, "R2", .register⟩]
  have symbols : ∀ token ∈ tokens, ∀ c, token.kind = .symbol c → c ∈ config.symbols := by
    simp [tokens, config]
  have shape : IsLine (tokens.map (·.kind)) :=
    .inr ⟨[.word, .symbol ':', .word], [.register], isFront_iff.2 (by decide),
      .argument (by decide), rfl⟩
  obtain ⟨t, table, accepted, contents_iff⟩ := line_listed ⟨3, tokens⟩ (by decide) symbols
  obtain ⟨tree, parsed⟩ := accepted.2 shape
  refine ⟨t, tree, table, parsed, (contents_iff Lc3.isa tree _ parsed).2 ⟨1, rfl, rfl, _, rfl, ?_⟩⟩
  have lower : "JMP".toLower = "jmp" := by decide +kernel
  have decoded : (Tree.leaf 3 ⟨11, "R2", .register⟩).operand Lc3.isa = .ok (.register 'r' 2) := by
    decide +kernel
  rw [← lower]
  exact .instruction rfl (.cons decoded .nil)

end Assembler.Complx
