import Assembler.Proofs.Parsing.Stack

/-! # What has been taken can be continued

Where every nonterminal derives some word, every item on top of a stack can be finished: what is
behind its cursor derives a word, and so does what is left of the item that expected its production,
down to a production of the goal. So the input taken begins a sentence.
-/

namespace Assembler

namespace Grammar

variable {g : Grammar}

/-- Every nonterminal derives a word. -/
def Productive (g : Grammar) : Prop :=
  ∀ n < g.nonterminals.length, ∃ word values,
    Derivation.reading.Derives g [.nonterminal n] word values

/-- The names of the terminals of a word that the goal derives. -/
def Sentence (g : Grammar) (names : List String) : Prop :=
  ∃ word values, Derivation.reading.Derives g [.nonterminal g.goal] word values ∧
    names = word.map fun i => g.name (.terminal i)

/-- Names that some sentence begins with. -/
def Viable (g : Grammar) (names : List String) : Prop :=
  ∃ rest, g.Sentence (names ++ rest)

theorem Sentence.viable {names : List String} (h : g.Sentence names) : g.Viable names :=
  ⟨[], by rwa [List.append_nil]⟩

theorem Viable.of_prefix {names longer : List String} (h : g.Viable longer)
    (shorter : names <+: longer) : g.Viable names := by
  obtain ⟨more, rfl⟩ := shorter
  obtain ⟨rest, sentence⟩ := h
  exact ⟨more ++ rest, by rwa [← List.append_assoc]⟩

theorem le_of_viable {names : List String} {k m : Nat} (viable : g.Viable (names.take m))
    (stops : ¬g.Viable (names.take (k + 1))) : m ≤ k := by
  by_contra more
  exact stops (viable.of_prefix (List.take_prefix_take_left (by omega)))

theorem Productive.exists_derives (productive : g.Productive) {symbols : List Symbol}
    (declared : ∀ s ∈ symbols, g.Declared s) :
    ∃ word values, Derivation.reading.Derives g symbols word values := by
  induction symbols with
  | nil => exact ⟨[], [], .nil⟩
  | cons s symbols ih =>
      obtain ⟨word, values, rest⟩ := ih fun x member => declared x (List.mem_cons_of_mem _ member)
      cases s with
      | terminal t => exact ⟨t :: word, _, .leaf rfl rest⟩
      | nonterminal n =>
          obtain ⟨first, value, derives⟩ := productive n (declared _ List.mem_cons_self)
          exact ⟨_, _, derives.append rest⟩

end Grammar

namespace Situation

variable {g : Grammar}

/-- A production begun on top of a stack can be finished, whatever word its right-hand side
    derives. -/
theorem Covers.exists_derives_of_start (wf : g.WellFormed) (productive : g.Productive)
    {stack : List (Nat × Derivation)} {taken : List Nat}
    (covers : Covers Derivation.reading g stack taken) {item : Item}
    (member : item ∈ g.itemsAt (topOf stack)) (cursor : item.cursor = 0) :
    ∀ word values, Derivation.reading.Derives g (g.rhs item.production) word values →
      ∃ rest values', Derivation.reading.Derives g [.nonterminal g.goal] (taken ++ word ++ rest)
        values' := by
  refine covers.begun_induction wf (P := fun _ taken item => ∀ word values,
    Derivation.reading.Derives g (g.rhs item.production) word values → ∃ rest values',
      Derivation.reading.Derives g [.nonterminal g.goal] (taken ++ word ++ rest) values') ?_ ?_
    member cursor
  · intro p production rule lhs word values derives
    rw [Grammar.rhs_eq rule] at derives
    have whole := Reading.Derives.node rule derives .nil
    rw [lhs] at whole
    exact ⟨[], _, whole⟩
  · intro frames stack before word parent child _ found expanded begun finish inner values derives
    obtain ⟨n, next, p, produced, y, -, rfl⟩ := Item.mem_expand.1 expanded
    obtain ⟨production, rule, rfl⟩ := Grammar.mem_productionsOf.1 produced
    rw [Grammar.rhs_eq rule] at derives
    obtain ⟨behind, others, left⟩ :=
      productive.exists_derives (ItemSet.declared_afterNext wf parent)
    have whole := begun.spelled.append (Reading.Derives.node rule derives left)
    have symbols : (g.rhs parent.production).take parent.cursor ++
        .nonterminal production.lhs :: parent.afterNext g = g.rhs parent.production := by
      obtain ⟨inside, here⟩ := List.getElem?_eq_some_iff.1 next
      rw [← here, Item.afterNext, List.getElem_cons_drop, List.take_append_drop]
    rw [symbols] at whole
    obtain ⟨rest, values', sentence⟩ := finish _ _ whole
    exact ⟨behind ++ rest, values', by simpa using sentence⟩

theorem Covers.exists_item {β α : Type} {r : Reading β α} (wf : g.WellFormed)
    {stack : List (Nat × α)} {taken : List β} (covers : Covers r g stack taken) :
    ∃ item, item ∈ g.itemsAt (topOf stack) := by
  cases covers with
  | nil =>
      obtain ⟨p, produced⟩ := List.exists_mem_of_ne_nil _ (wf.productive g.goal wf.goal_lt)
      obtain ⟨production, rule, lhs⟩ := Grammar.mem_productionsOf.1 produced
      exact ⟨_, Grammar.start_mem_itemsAt wf rule lhs⟩
  | cons _ edge _ =>
      obtain ⟨item, member, next⟩ := edge.expected
      exact ⟨_, edge.advance member next⟩

theorem Covers.exists_derives (wf : g.WellFormed) (productive : g.Productive)
    {stack : List (Nat × Derivation)} {taken : List Nat}
    (covers : Covers Derivation.reading g stack taken) :
    ∃ rest values, Derivation.reading.Derives g [.nonterminal g.goal] (taken ++ rest) values := by
  obtain ⟨item, member⟩ := covers.exists_item wf
  obtain ⟨frames, below, before, word, rfl, rfl, begun⟩ := covers.begun wf member
  have declared : ∀ s ∈ (g.rhs item.production).drop item.cursor, g.Declared s :=
    fun s inside => wf.declared (List.mem_of_mem_drop inside)
  obtain ⟨behind, others, left⟩ := productive.exists_derives declared
  have whole := begun.spelled.append left
  rw [List.take_append_drop] at whole
  obtain ⟨rest, values, sentence⟩ :=
    begun.covers.exists_derives_of_start wf productive begun.start rfl _ _ whole
  exact ⟨behind ++ rest, values, by simpa using sentence⟩

theorem topOf_eq_of_states {α α' : Type} {stack : List (Nat × α)} {stack' : List (Nat × α')}
    (states : stack.map (·.1) = stack'.map (·.1)) : topOf stack = topOf stack' := by
  cases stack <;> cases stack' <;> simp_all [topOf]

theorem Covers.transfer {β α β' α' : Type} {r : Reading β α} (r' : Reading β' α')
    {stack : List (Nat × α)} {taken : List β} (covers : Covers r g stack taken) (taken' : List β')
    (same : taken.map r.terminal = taken'.map r'.terminal) :
    ∃ stack', stack.map (·.1) = stack'.map (·.1) ∧ Covers r' g stack' taken' := by
  induction covers generalizing taken' with
  | nil =>
      obtain rfl := List.map_eq_nil_iff.1 same.symm
      exact ⟨[], rfl, .nil⟩
  | cons _ edge derives ih =>
      rw [List.map_append] at same
      obtain ⟨before, word, rfl, inside, behind⟩ := List.map_eq_append_iff.1 same.symm
      obtain ⟨stack', states, below⟩ := ih before inside.symm
      obtain ⟨values, derives'⟩ := derives.transfer r' word behind.symm
      obtain ⟨value, rfl⟩ := List.length_eq_one_iff.1 derives'.length_eq
      exact ⟨(_, value) :: stack', by simp [states],
        .cons below (topOf_eq_of_states states ▸ edge) derives'⟩

end Situation

end Assembler
