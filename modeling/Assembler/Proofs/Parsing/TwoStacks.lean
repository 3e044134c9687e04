import Assembler.Proofs.Grammar.Reachability
import Assembler.Proofs.Parsing.Termination

/-! # States and trees on two stacks

The parser keeps each tree together with the state reached after it, and refuses a reduction that
needs more entries than there are. Neither is needed. With the states on one stack and the trees on
another, and reductions that take as many entries as they find, a parse goes through the same
configurations: at every step there is one state more than there are trees, the trees are named for
the symbols on the path of the states through the automaton, and a complete production has its whole
right-hand side on top.
-/

namespace Assembler

/-- The symbol that the name of a tree stands for. -/
def Tree.symbolIn (g : Grammar) (tree : Tree) : Except GrammarError Symbol :=
  Grammar.symbolOf g.nonterminals g.terminals tree.symbol

/-- A parse with its states and its trees on stacks of their own, topmost first. -/
structure TwoStacks where
  states : List Nat
  trees : List Tree
  input : List Token

/-- The stacks of a configuration, with the start state at the bottom. -/
def Configuration.apart (c : Configuration) : TwoStacks :=
  ⟨c.stack.map (·.state) ++ [0], c.stack.map (·.tree), c.input⟩

namespace TwoStacks

def start (tokens : List Token) : TwoStacks := ⟨[0], [], tokens⟩

/-- What the table wants done. Were there no state at all, it would be the start state's. -/
def wanted? (t : Table) (m : TwoStacks) : Option Action :=
  (t.inputColumn? m.input).bind (t.action? (m.states.headD 0))

/-- A step that checks neither stack: a reduction takes what there is. -/
inductive Step (t : Table) (line : Nat) : TwoStacks → TwoStacks → Prop where
  | shift {states : List Nat} {trees : List Tree} {token : Token} {rest : List Token} {j : Nat}
      (wanted : wanted? t ⟨states, trees, token :: rest⟩ = some (.shift j)) :
      Step t line ⟨states, trees, token :: rest⟩ ⟨j :: states, .leaf line token :: trees, rest⟩
  | reduce {states : List Nat} {trees : List Tree} {input : List Token} {p j : Nat}
      {production : Production} (wanted : wanted? t ⟨states, trees, input⟩ = some (.reduce p))
      (rule : t.grammar.productions[p]? = some production)
      (goto : t.goto? ((states.drop production.rhs.length).headD 0) production.lhs = some j) :
      Step t line ⟨states, trees, input⟩
        ⟨j :: states.drop production.rhs.length,
          .node (t.grammar.name (.nonterminal production.lhs)) line
            (trees.take production.rhs.length).reverse :: trees.drop production.rhs.length, input⟩

/-- Finitely many steps lead from some stacks to others. -/
abbrev Runs (t : Table) (line : Nat) : TwoStacks → TwoStacks → Prop :=
  Relation.ReflTransGen (Step t line)

/-- What holds of the stacks at every step of a parse. -/
structure Disciplined (t : Table) (m : TwoStacks) : Prop where
  length : m.states.length = m.trees.length + 1
  bottom : m.states.getLast? = some 0
  /-- Each state is the transition of the one below on the symbol of the tree between them. -/
  linked : ∀ (i below above : Nat) (tree : Tree), m.states[i + 1]? = some below →
    m.states[i]? = some above → m.trees[i]? = some tree → ∃ s x,
      (Collection.ofGrammar t.grammar (.ofGrammar t.grammar))[below]? = some s ∧
        tree.symbolIn t.grammar = .ok x ∧ s.target? x = some above
  /-- A production that is reduced or accepted has the trees of its right-hand side on top. -/
  spelled : ∀ p, m.wanted? t = some (.reduce p) ∨ m.wanted? t = some (.accept p) →
    ∃ production, t.grammar.productions[p]? = some production ∧
      production.rhs.length ≤ m.trees.length ∧
      (m.trees.take production.rhs.length).reverse.mapM (Tree.symbolIn t.grammar) =
        .ok production.rhs
  /-- The state below a reduction has a successor. -/
  goto : ∀ p production, m.wanted? t = some (.reduce p) →
    t.grammar.productions[p]? = some production →
      ∃ j, t.goto? ((m.states.drop production.rhs.length).headD 0) production.lhs = some j
  shift : ∀ j, m.wanted? t = some (.shift j) → m.input ≠ []
  /-- A production that is accepted leaves no tree behind, and no state but the first. -/
  accept : ∀ p production, m.wanted? t = some (.accept p) →
    t.grammar.productions[p]? = some production →
      m.trees.drop production.rhs.length = [] ∧ m.states.drop production.rhs.length = [0]

end TwoStacks

section Symbols

variable {g : Grammar} {line : Nat} {goal : String} {rules : List Rule}
  {nonterminals terminals : List String}
  (ofRules : Grammar.ofRules goal rules nonterminals terminals = .ok g)
include ofRules

theorem Tree.symbolIn_eq {tree : Tree} {x : Symbol} (named : tree.symbol = g.name x)
    (declared : g.Declared x) : tree.symbolIn g = .ok x := by
  rw [Tree.symbolIn, named]
  exact Grammar.symbolOf_name ofRules declared

theorem Reading.Derives.mapM_symbolIn {symbols : List Symbol} {word : List Token}
    {trees : List Tree} (h : (Tree.reading g line).Derives g symbols word trees)
    (declared : ∀ x ∈ symbols, g.Declared x) : trees.mapM (Tree.symbolIn g) = .ok symbols := by
  have names := h.map_symbol declared
  rw [mapM_eq_ok]
  clear h
  induction symbols generalizing trees with
  | nil =>
      obtain rfl := List.map_eq_nil_iff.1 names
      exact .nil
  | cons x symbols ih =>
      obtain ⟨tree, rest, rfl, first, behind⟩ := List.map_eq_cons_iff.1 names
      obtain ⟨here, others⟩ := List.forall_mem_cons.1 declared
      exact .cons (tree.symbolIn_eq ofRules first here) (ih others behind)

/-- The states of a stack go along the edges on the symbols of its trees. -/
theorem Situation.Covers.linked (wf : g.WellFormed) {stack : List (Nat × Tree)} {taken : List Token}
    (h : Situation.Covers (Tree.reading g line) g stack taken) (i below above : Nat) (tree : Tree)
    (lower : (stack.map (·.1) ++ [0])[i + 1]? = some below)
    (upper : (stack.map (·.1) ++ [0])[i]? = some above)
    (between : (stack.map (·.2))[i]? = some tree) :
    ∃ x, tree.symbolIn g = .ok x ∧ g.Edge below x above := by
  induction h generalizing i with
  | nil => cases between
  | @cons stack taken word x j value _ edge derives ih =>
      cases i with
      | zero =>
          obtain rfl : j = above := Option.some.inj upper
          obtain rfl : value = tree := Option.some.inj between
          have bottom : Situation.topOf stack = below := by
            cases stack <;> simpa [Situation.topOf] using lower
          obtain ⟨item, -, next⟩ := edge.expected
          have declared : g.Declared x := Grammar.declared_of_next? wf next
          have names := derives.map_symbol (List.forall_mem_singleton.2 declared)
          have named : value.symbol = g.name x := (List.cons.inj names).1
          exact ⟨x, value.symbolIn_eq ofRules named declared, bottom ▸ edge⟩
      | succ i => exact ih i lower upper between

end Symbols

namespace Configuration

variable {frames below : List Frame}

theorem headD_states (stack : List Frame) :
    (stack.map Frame.state ++ [0]).headD 0 = topOf stack := by
  cases stack <;> rfl

theorem drop_states : ((frames ++ below).map Frame.state ++ [0]).drop frames.length =
    below.map Frame.state ++ [0] := by
  rw [List.map_append, List.append_assoc]
  exact List.drop_left' (List.length_map _)

theorem drop_trees :
    ((frames ++ below).map Frame.tree).drop frames.length = below.map Frame.tree := by
  rw [List.map_append]
  exact List.drop_left' (List.length_map _)

theorem take_trees :
    ((frames ++ below).map Frame.tree).take frames.length = frames.map Frame.tree := by
  rw [List.map_append]
  exact List.take_left' (List.length_map _)

theorem wanted?_apart (t : Table) (c : Configuration) : c.apart.wanted? t = t.wanted? c := by
  rw [TwoStacks.wanted?, Table.wanted?, apart, headD_states]
  rfl

end Configuration

namespace TwoStacks

variable {t : Table} {g : Grammar} {line : Nat}

open Assembler.Configuration

theorem Step.of_eq_next {c d : Configuration} (h : t.step line c = .next d) :
    Step t line c.apart d.apart := by
  have same := wanted?_apart t c
  obtain ⟨stack, input⟩ := c
  rcases Table.step_eq_next_iff.1 h with
    ⟨j, token, wanted, taken, pushed⟩ | ⟨p, below, n, tree, j, wanted, reduced, goto, rfl⟩
  · obtain ⟨pushed', rest⟩ := d
    obtain rfl : input = token :: rest := taken
    cases pushed
    exact .shift (same.trans wanted)
  · obtain ⟨production, rule, frames, count, rfl, rfl, rfl⟩ := Table.reduce_eq_ok_iff.1 reduced
    have successor : t.goto? ((((frames ++ below).map Frame.state ++ [0]).drop
        production.rhs.length).headD 0) production.lhs = some j := by
      rw [← count, drop_states, headD_states]
      exact goto
    have step : Step t line _ _ := .reduce (same.trans wanted) rule successor
    rw [← count, drop_states, drop_trees, take_trees, ← List.map_reverse] at step
    exact step

section Canonical

variable (wf : g.WellFormed) (h : Table.ofGrammar g = .ok t)
include wf h

theorem exists_frames {c : Configuration} {taken : List Token}
    (covers : Situation.Covers (Tree.reading g line) g c.situation.stack taken) {p : Nat}
    (wanted : t.wanted? c = some (.reduce p) ∨ t.wanted? c = some (.accept p)) :
    ∃ production frames below word, g.productions[p]? = some production ∧
      c.stack = frames ++ below ∧ frames.length = production.rhs.length ∧
      (Tree.reading g line).Derives g production.rhs word (frames.map Frame.tree).reverse ∧
      (t.wanted? c = some (.reduce p) → ∃ j, t.goto? (topOf below) production.lhs = some j) ∧
      (t.wanted? c = some (.accept p) → below = []) := by
  obtain ⟨rfl, -⟩ := Table.ofGrammar_eq_ok h
  have seen : ∀ a, t.wanted? c = some a →
      c.situation.action? t (Tree.reading t.grammar line) = some a :=
    fun a => Table.action?_of_wanted? line
  obtain ⟨production, pairs, rest, word, rule, split, count, spelled, goto, bottom⟩ :=
    covers.exists_frames wf h (wanted.imp (seen _) (seen _))
  obtain ⟨frames, below, whole, rfl, rfl⟩ := List.map_eq_append_iff.1 split
  rw [topOf_situation] at goto
  refine ⟨production, frames, below, word, rule, whole, by simpa using count, ?_, ?_, ?_⟩
  · simpa [Function.comp_def, List.map_reverse] using spelled
  · exact fun reduces => goto (seen _ reduces)
  · exact fun accepts => List.map_eq_nil_iff.1 (bottom (seen _ accepts))

theorem Step.exists_next {c : Configuration} {m : TwoStacks} {taken : List Token}
    (covers : Situation.Covers (Tree.reading g line) g c.situation.stack taken)
    (step : Step t line c.apart m) : ∃ d, t.step line c = .next d ∧ d.apart = m := by
  have same := wanted?_apart t c
  obtain ⟨stack, input⟩ := c
  generalize view : (Configuration.mk stack input).apart = start at step same
  cases step with
  | @shift states trees token rest j wanted =>
      obtain ⟨rfl, rfl, rfl⟩ := TwoStacks.mk.inj view
      refine ⟨⟨⟨j, .leaf line token⟩ :: stack, rest⟩, Table.step_eq_next_iff.2 (.inl ?_), rfl⟩
      exact ⟨j, token, same.symm.trans wanted, rfl, rfl⟩
  | @reduce states trees input p j production wanted rule goto =>
      obtain ⟨rfl, rfl, rfl⟩ := TwoStacks.mk.inj view
      have wanted := same.symm.trans wanted
      obtain ⟨production', frames, below, word, rule', split, count, -⟩ :=
        exists_frames wf h covers (.inl wanted)
      obtain ⟨rfl, -⟩ := Table.ofGrammar_eq_ok h
      obtain rfl : stack = frames ++ below := split
      cases rule.symm.trans rule'
      rw [← count, drop_states, headD_states] at goto
      have reduced : t.reduce line p (frames ++ below) = .ok (below, production.lhs,
          (Tree.reading t.grammar line).node p production (frames.reverse.map (·.tree))) :=
        Table.reduce_eq_ok_iff.2 ⟨production, rule, frames, count, rfl, rfl, rfl⟩
      refine ⟨_, Table.step_eq_next_iff.2 (.inr
        ⟨p, below, _, _, j, wanted, reduced, goto, rfl⟩), ?_⟩
      rw [← count, drop_states, drop_trees, take_trees, ← List.map_reverse]
      rfl

/-- Whether the stacks are apart makes no difference to the steps of a parse. -/
theorem runs_iff {tokens : List Token} {m : TwoStacks} : Runs t line (start tokens) m ↔
    ∃ c, t.Runs line (.start tokens) c ∧ c.apart = m := by
  constructor
  · intro run
    induction run with
    | refl => exact ⟨.start tokens, .refl, rfl⟩
    | tail _ step ih =>
        obtain ⟨c, run, rfl⟩ := ih
        obtain ⟨taken, covers, -⟩ := Table.covers_of_runs wf h run
        obtain ⟨d, next, view⟩ := step.exists_next wf h covers
        exact ⟨d, run.tail next, view⟩
  · rintro ⟨c, run, rfl⟩
    induction run with
    | refl => exact .refl
    | tail _ next ih => exact ih.tail (.of_eq_next next)

theorem input_ne_nil_of_shift {m : TwoStacks} {j : Nat} (wanted : m.wanted? t = some (.shift j)) :
    m.input ≠ [] := by
  intro ended
  have wanted : t.action? (m.states.headD 0) t.endColumn = some (.shift j) := by
    simpa [wanted?, ended, Table.inputColumn?] using wanted
  exact Table.action?_endColumn_ne_shift wf h wanted

section Covered

variable {c : Configuration} {taken : List Token}
  (covers : Situation.Covers (Tree.reading g line) g c.situation.stack taken)
include covers

theorem goto_apart {p : Nat} {production : Production}
    (wanted : c.apart.wanted? t = some (.reduce p))
    (rule : t.grammar.productions[p]? = some production) :
    ∃ j, t.goto? ((c.apart.states.drop production.rhs.length).headD 0) production.lhs = some j := by
  rw [wanted?_apart] at wanted
  obtain ⟨_, frames, below, word, rule', split, count, -, successor, -⟩ :=
    exists_frames wf h covers (.inl wanted)
  rw [(Table.ofGrammar_eq_ok h).1] at rule
  cases rule.symm.trans rule'
  rw [apart, split, ← count, drop_states, headD_states]
  exact successor wanted

theorem accept_apart {p : Nat} {production : Production}
    (wanted : c.apart.wanted? t = some (.accept p))
    (rule : t.grammar.productions[p]? = some production) :
    c.apart.trees.drop production.rhs.length = [] ∧
      c.apart.states.drop production.rhs.length = [0] := by
  rw [wanted?_apart] at wanted
  obtain ⟨_, frames, below, word, rule', split, count, -, -, bottom⟩ :=
    exists_frames wf h covers (.inr wanted)
  rw [(Table.ofGrammar_eq_ok h).1] at rule
  cases rule.symm.trans rule'
  obtain rfl := bottom wanted
  rw [apart, split, ← count, drop_states, drop_trees]
  exact ⟨rfl, rfl⟩

variable {goal : String} {rules : List Rule} {nonterminals terminals : List String}
  (ofRules : Grammar.ofRules goal rules nonterminals terminals = .ok g)
include ofRules

theorem linked_apart {i below above : Nat} {tree : Tree}
    (lower : c.apart.states[i + 1]? = some below) (upper : c.apart.states[i]? = some above)
    (between : c.apart.trees[i]? = some tree) : ∃ s x,
      (Collection.ofGrammar t.grammar (.ofGrammar t.grammar))[below]? = some s ∧
        tree.symbolIn t.grammar = .ok x ∧ s.target? x = some above := by
  have states : c.situation.stack.map (·.1) = c.stack.map Frame.state := by
    simp [Configuration.situation, Function.comp_def]
  have trees : c.situation.stack.map (·.2) = c.stack.map Frame.tree := by
    simp [Configuration.situation, Function.comp_def]
  have linked := covers.linked ofRules wf i below above tree
  rw [states, trees] at linked
  obtain ⟨x, named, edge⟩ := linked lower upper between
  obtain ⟨item, member, -⟩ := edge.expected
  obtain ⟨s, found⟩ := Grammar.exists_state_of_mem_itemsAt member
  rw [(Table.ofGrammar_eq_ok h).1]
  exact ⟨s, x, found, named, (Collection.target?_eq_some_iff wf found).2 edge⟩

theorem spelled_apart {p : Nat}
    (wanted : c.apart.wanted? t = some (.reduce p) ∨ c.apart.wanted? t = some (.accept p)) :
    ∃ production, t.grammar.productions[p]? = some production ∧
      production.rhs.length ≤ c.apart.trees.length ∧
      (c.apart.trees.take production.rhs.length).reverse.mapM (Tree.symbolIn t.grammar) =
        .ok production.rhs := by
  rw [wanted?_apart] at wanted
  obtain ⟨production, frames, below, word, rule, split, count, spelled, -⟩ :=
    exists_frames wf h covers wanted
  have declared := wf.rhs_declared production (List.mem_of_getElem? rule)
  rw [(Table.ofGrammar_eq_ok h).1]
  refine ⟨production, rule, ?_, ?_⟩
  · simp [apart, split, count]
  · rw [apart, split, ← count, take_trees]
    exact spelled.mapM_symbolIn ofRules declared

theorem disciplined_apart : Disciplined t c.apart where
  length := by simp [apart]
  bottom := by simp [apart]
  linked _ _ _ _ := linked_apart wf h covers ofRules
  spelled _ := spelled_apart wf h covers ofRules
  goto _ _ := goto_apart wf h covers
  shift _ := input_ne_nil_of_shift wf h
  accept _ _ := accept_apart wf h covers

end Covered

end Canonical

/-- A parse goes through the same configurations if its states and trees are on two stacks that
    nothing checks, and these are never too short for what is done with them. -/
theorem runs_disciplined {goal : String} {rules : List Rule} {nonterminals terminals : List String}
    (ofRules : Grammar.ofRules goal rules nonterminals terminals = .ok g)
    (ofGrammar : Table.ofGrammar g = .ok t) (line : Line) :
    (∀ m, Runs t line.number (start line.tokens) m ↔
      ∃ c, t.Runs line.number (.start line.tokens) c ∧ c.apart = m) ∧
    ∀ m, Runs t line.number (start line.tokens) m → Disciplined t m := by
  have wf := Grammar.ofRules_wellFormed ofRules
  refine ⟨fun m => runs_iff wf ofGrammar, fun m run => ?_⟩
  obtain ⟨c, parse, rfl⟩ := (runs_iff wf ofGrammar).1 run
  obtain ⟨taken, covers, -⟩ := Table.covers_of_runs wf ofGrammar parse
  exact disciplined_apart wf ofGrammar covers ofRules

open Grammar in
/-- Inside the brackets, after the empty production between them. -/
theorem runs_disciplined_parens :
    Disciplined parensTable
      ⟨[4, 1, 0], [.node "p" 1 [], .leaf 1 ⟨1, "(", .symbol '('⟩], [⟨2, ")", .symbol ')'⟩]⟩ := by
  have both := runs_disciplined ofRules_parens ofGrammar_parens parensLine
  exact both.2 _ ((both.1 _).2 ⟨_, .head rfl (.head rfl .refl), rfl⟩)

end TwoStacks

end Assembler
