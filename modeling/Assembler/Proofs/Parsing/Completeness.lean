import Assembler.Proofs.Parsing.Run

/-! # Every derivation is found

A run follows a derivation from left to right. While it does, the state on top has the item of the
production that is being read, with its cursor where the run stands and with the lookahead that
will come after the production. A row without conflicts leaves no other choice, so the run ends
with the value of the derivation, and there is only one.
-/

namespace Assembler

namespace Item

variable {g : Grammar} {item : Item} {s : Symbol} {symbols : List Symbol}

/-- The item with its cursor some symbols further. -/
def skip (item : Item) (count : Nat) : Item :=
  { item with cursor := item.cursor + count }

theorem advance_skip (item : Item) (count : Nat) :
    item.advance.skip count = item.skip (count + 1) := by
  simp only [skip, advance, Item.mk.injEq, true_and, and_true]
  omega

theorem next?_of_drop (h : (g.rhs item.production).drop item.cursor = s :: symbols) :
    item.next? g = some s := by
  rw [next?, ← List.head?_drop, h]
  rfl

theorem afterNext_of_drop (h : (g.rhs item.production).drop item.cursor = s :: symbols) :
    item.afterNext g = symbols := by
  rw [afterNext, ← List.tail_drop, h]
  rfl

end Item

namespace Situation

variable {β α : Type} {r : Reading β α} {g : Grammar} {t : Table}
variable (wf : g.WellFormed) (h : Table.ofGrammar g = .ok t)
include wf h

theorem action?_of_complete {c : Situation β α} {item : Item}
    (member : item ∈ g.itemsAt (topOf c.stack)) (complete : item.isComplete g = true)
    (ahead : item.lookahead = r.lookahead c.input) :
    action? t r c = some (Table.completion g item) := by
  obtain ⟨rfl, -⟩ := Table.ofGrammar_eq_ok h
  exact (Table.action?_eq_some_iff wf h).2 (.inl ⟨item, member, complete, by rw [ahead], rfl⟩)

theorem exists_shift {stack : List (Nat × α)} {item : Item} {b : β}
    (member : item ∈ g.itemsAt (topOf stack))
    (next : item.next? g = some (.terminal (r.terminal b))) (rest : List β) :
    ∃ j, Step t r ⟨stack, b :: rest⟩ ⟨(j, r.leaf b) :: stack, rest⟩ ∧
      item.advance ∈ g.itemsAt j := by
  obtain ⟨rfl, -⟩ := Table.ofGrammar_eq_ok h
  obtain ⟨j, edge⟩ := Grammar.exists_edge wf member next
  have wanted : action? t r ⟨stack, b :: rest⟩ = some (.shift j) :=
    (Table.action?_eq_some_iff wf h).2 (.inr ⟨j, edge, rfl⟩)
  exact ⟨j, .shift wanted, edge.advance member next⟩

theorem exists_reduce {frames stack : List (Nat × α)} {input : List β} {item reduced : Item}
    {production : Production} (rule : g.productions[reduced.production]? = some production)
    (count : frames.length = production.rhs.length)
    (top : reduced ∈ g.itemsAt (topOf (frames ++ stack)))
    (complete : reduced.isComplete g = true) (ahead : reduced.lookahead = r.lookahead input)
    (member : item ∈ g.itemsAt (topOf stack))
    (next : item.next? g = some (.nonterminal production.lhs)) :
    ∃ j, Step t r ⟨frames ++ stack, input⟩
        ⟨(j, r.node reduced.production production (frames.reverse.map (·.2))) :: stack, input⟩ ∧
      item.advance ∈ g.itemsAt j := by
  have notGoal := Grammar.ne_goal_of_next? wf next
  have wanted := action?_of_complete (r := r) (c := ⟨frames ++ stack, input⟩) wf h top complete ahead
  have completion : Table.completion g reduced = .reduce reduced.production := by
    simp [Table.completion, rule, notGoal]
  rw [completion] at wanted
  obtain ⟨j, edge⟩ := Grammar.exists_edge wf member next
  have goto := (Table.goto?_eq_some_iff wf h).2 edge
  obtain ⟨rfl, -⟩ := Table.ofGrammar_eq_ok h
  exact ⟨j, .reduce wanted rule count goto, edge.advance member next⟩

end Situation

namespace Reading

variable {β α : Type} {r : Reading β α} {g : Grammar} {t : Table}
variable (wf : g.WellFormed) (h : Table.ofGrammar g = .ok t)
include wf h

omit wf h in
theorem Derives.length_frames {symbols : List Symbol} {word : List β} {values : List α}
    {frames : List (Nat × α)} (derives : r.Derives g symbols word values)
    (built : frames.reverse.map (·.2) = values) : frames.length = symbols.length := by
  rw [← derives.length_eq, ← built]
  simp

open Situation in
/-- A run over a derived word puts the values of the derivation on the stack. -/
theorem Derives.reaches {symbols : List Symbol} {word : List β} {values : List α}
    (derives : r.Derives g symbols word values) (stack : List (Nat × α)) (rest : List β)
    (item : Item) (member : item ∈ g.itemsAt (topOf stack))
    (drop : (g.rhs item.production).drop item.cursor = symbols)
    (ahead : item.lookahead = r.lookahead rest) :
    ∃ frames : List (Nat × α), frames.reverse.map (·.2) = values ∧
      Reaches t r ⟨stack, word ++ rest⟩ ⟨frames ++ stack, rest⟩ ∧
      item.skip symbols.length ∈ g.itemsAt (topOf (frames ++ stack)) := by
  induction derives generalizing stack rest item with
  | nil => exact ⟨[], rfl, .refl, member⟩
  | @leaf b _ symbols word values reads _ ih =>
      subst reads
      have next := Item.next?_of_drop drop
      obtain ⟨j, step, member⟩ := exists_shift wf h member next (word ++ rest)
      obtain ⟨frames, built, run, member⟩ := ih ((j, r.leaf b) :: stack) rest item.advance member
        (Item.afterNext_of_drop drop) ahead
      refine ⟨frames ++ [(j, r.leaf b)], by simp [built], ?_, ?_⟩
      · simpa using run.head step
      · simpa [Item.advance_skip] using member
  | @node p production symbols below word children values rule inner outer ihInner ihOuter =>
      have next := Item.next?_of_drop drop
      -- the state has the production itself, before what the rest of the word begins with
      have start : ⟨p, 0, r.lookahead (word ++ rest)⟩ ∈ g.itemsAt (topOf stack) := by
        refine (Grammar.closed_itemsAt wf _).expand item member _ (Item.mem_expand.2 ?_)
        refine ⟨_, next, p, Grammar.mem_productionsOf.2 ⟨production, rule, rfl⟩, _, ?_, rfl⟩
        rw [Item.afterNext_of_drop drop, ahead]
        exact outer.lookahead_mem_firstOf wf rest
      obtain ⟨popped, built, run, top⟩ := ihInner stack (word ++ rest) _ start
        (by simp [Grammar.rhs_eq rule]) rfl
      obtain ⟨j, step, member⟩ := exists_reduce wf h rule (inner.length_frames built) top
        (by simp [Item.isComplete, Item.skip, Grammar.rhs_eq rule]) rfl member next
      rw [built] at step
      obtain ⟨frames, built', run', member⟩ := ihOuter ((j, r.node p production children) :: stack)
        rest item.advance member (Item.afterNext_of_drop drop) ahead
      refine ⟨frames ++ [(j, r.node p production children)], by simp [built'], ?_, ?_⟩
      · simpa using (run.tail step).trans run'
      · simpa [Item.advance_skip] using member

open Situation in
theorem Derives.accepts {word : List β} {value : α}
    (derives : r.Derives g [.nonterminal g.goal] word [value]) :
    ∃ last, Reaches t r ⟨[], word⟩ last ∧ Accepts t r last value := by
  generalize roots : [Symbol.nonterminal g.goal] = symbols at derives
  generalize tops : [value] = values at derives
  cases derives with
  | nil => cases roots
  | leaf _ _ => cases roots
  | @node p production symbols below word children values rule inner rest =>
      obtain ⟨goal, rfl⟩ := List.cons.inj roots
      obtain ⟨rfl, rfl⟩ := List.cons.inj tops
      cases rest
      have goal : production.lhs = g.goal := (Symbol.nonterminal.inj goal).symm
      have start := Grammar.start_mem_itemsAt wf rule goal
      obtain ⟨frames, built, run, top⟩ := inner.reaches wf h [] [] _ start
        (by simp [Grammar.rhs_eq rule]) rfl
      have wanted := action?_of_complete (r := r) (c := ⟨frames ++ [], []⟩) wf h top
        (by simp [Item.isComplete, Item.skip, Grammar.rhs_eq rule]) rfl
      have completion : Table.completion g (Item.skip ⟨p, 0, .endOfInput⟩ production.rhs.length) =
          .accept p := by
        simp [Table.completion, Item.skip, rule, goal]
      rw [completion] at wanted
      obtain ⟨rfl, -⟩ := Table.ofGrammar_eq_ok h
      exact ⟨_, run, built ▸ Accepts.intro wanted rule (inner.length_frames built)⟩

end Reading

namespace Table

variable {t : Table} {line : Nat} {tree : Tree}

theorem sighted_of_declared {input : List Token} (declared : ∀ token ∈ input,
    t.grammar.Declared (.terminal ((Tree.reading t.grammar line).terminal token))) :
    t.Sighted line input := by
  cases input with
  | nil => rfl
  | cons token rest =>
      obtain ⟨i, index⟩ :=
        Grammar.exists_lastIndexOf?_of_declared (declared token List.mem_cons_self)
      simp [Sighted, inputColumn?, column?, Reading.lookahead, columnOf, Tree.reading, index]

/-- The parser takes every step of a run that is accepted in the end. -/
theorem loop_of_reaches {first last : Situation Token Tree}
    (run : Situation.Reaches t (Tree.reading t.grammar line) first last)
    (accepts : Situation.Accepts t (Tree.reading t.grammar line) last tree)
    (c : Configuration) (view : c.situation = first) (declared : ∀ token ∈ c.input,
      t.grammar.Declared (.terminal ((Tree.reading t.grammar line).terminal token))) :
    t.loop line c = some (.ok tree) := by
  induction run using Relation.ReflTransGen.head_induction_on generalizing c with
  | refl =>
      subst view
      exact loop_of_eq_accepted (step_of_accepts (sighted_of_declared declared) accepts)
  | head step _ ih =>
      subst view
      obtain ⟨d, view, next⟩ := exists_next_of_step (sighted_of_declared declared) step
      rw [loop_of_eq_next next]
      refine ih d view fun token member => declared token ?_
      subst view
      exact step.input_suffix.subset member

theorem parse_of_derives {g : Grammar} (wf : g.WellFormed) (h : ofGrammar g = .ok t) {line : Line}
    (derives : (Tree.reading g line.number).Derives g [.nonterminal g.goal] line.tokens [tree]) :
    t.parse line = .ok tree := by
  obtain ⟨last, run, accepts⟩ := derives.accepts wf h
  have declared := derives.declared wf (by simpa [Grammar.Declared] using wf.goal_lt)
  obtain ⟨rfl, -⟩ := ofGrammar_eq_ok h
  have looped := loop_of_reaches run accepts (.start line.tokens) rfl declared
  simp [parse, looped]

/-- The parser finds the tree of every derivation, and no word has two derivations. -/
theorem parse_complete {g : Grammar} {goal : String} {rules : List Rule}
    {nonterminals terminals : List String}
    (ofRules : Grammar.ofRules goal rules nonterminals terminals = .ok g)
    (ofGrammar : Table.ofGrammar g = .ok t) :
    (∀ (line : Line) (tree : Tree),
      (Tree.reading g line.number).Derives g [.nonterminal g.goal] line.tokens [tree] →
        t.parse line = .ok tree) ∧
    ∀ (word : List Nat) (d d' : Derivation),
      Derivation.reading.Derives g [.nonterminal g.goal] word [d] →
        Derivation.reading.Derives g [.nonterminal g.goal] word [d'] → d = d' := by
  have wf := Grammar.ofRules_wellFormed ofRules
  constructor
  · intro line tree derives
    exact parse_of_derives wf ofGrammar derives
  · intro word d d' derives derives'
    obtain ⟨last, run, accepts⟩ := derives.accepts wf ofGrammar
    obtain ⟨last', run', accepts'⟩ := derives'.accepts wf ofGrammar
    exact accepts.unique_of_reaches run run' accepts'

open Grammar in
theorem parse_complete_parens : parensTable.parse parensLine = .ok parensTree := by
  refine (parse_complete ofRules_parens ofGrammar_parens).1 parensLine parensTree ?_
  have last : (Tree.reading parens 1).Derives parens [.terminal 1]
      [⟨2, ")", .symbol ')'⟩] [.leaf 1 ⟨2, ")", .symbol ')'⟩] :=
    .leaf (by decide) .nil
  have empty := Reading.Derives.node (p := 2) rfl .nil last
  have spelled : (Tree.reading parens 1).Derives parens
      [.terminal 0, .nonterminal 1, .terminal 1] parensLine.tokens
      [.leaf 1 ⟨1, "(", .symbol '('⟩, .node "p" 1 [], .leaf 1 ⟨2, ")", .symbol ')'⟩] :=
    .leaf (by decide) empty
  have rule : parens.productions[1]? =
      some ⟨1, [.terminal 0, .nonterminal 1, .terminal 1]⟩ := rfl
  have goal : parens.productions[0]? = some ⟨0, [.nonterminal 1]⟩ := rfl
  have pair := Reading.Derives.node rule spelled .nil
  exact Reading.Derives.node goal pair .nil

end Table

end Assembler
