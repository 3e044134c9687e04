import Assembler.Proofs.Parsing.Completeness
import Assembler.Proofs.Parsing.Leading
import Assembler.Proofs.Parsing.Stack

/-! # Parses end

Reductions take no token, and one by an empty production even makes the stack higher. What keeps
them from going on forever is the lookahead: a production is reduced before a token that can follow
it, so what stands behind it in the item that expected it either begins with the token, which is
then taken, or vanishes, and that item is reduced in turn. It was begun at the same place or further
down, and for a stack there are only so many such places.

For this it is needed that every nonterminal can begin in some way. An item is not expanded if
nothing is known to follow the nonterminal behind its cursor, and then a reduction may have no item
that accounts for it but itself.
-/

namespace Assembler

/-- Every nonterminal can be empty or begin with a terminal. -/
def Grammar.Unblocked (g : Grammar) : Prop :=
  ∀ n < g.nonterminals.length, (FirstSets.ofGrammar g).get n ≠ .empty

instance (g : Grammar) : Decidable g.Unblocked :=
  inferInstanceAs (Decidable (∀ n < g.nonterminals.length, _))

theorem FirstSet.exists_of_ne_empty {set : FirstSet} (h : set ≠ .empty) :
    set.nullable = true ∨ ∃ t, t ∈ set.terminals := by
  by_contra nothing
  simp only [not_or, not_exists, Bool.not_eq_true] at nothing
  obtain ⟨terminals, nullable⟩ := set
  obtain ⟨rfl, absent⟩ := nothing
  refine h (congrArg (FirstSet.mk · false) (SortedSet.ext fun t => ?_))
  simp [absent t]

theorem Grammar.Unblocked.exists_mem_firstOf {g : Grammar} (unblocked : g.Unblocked)
    {symbols : List Symbol} (declared : ∀ s ∈ symbols, g.Declared s) (next : Lookahead) :
    ∃ y, y ∈ (FirstSets.ofGrammar g).firstOf symbols next := by
  induction symbols with
  | nil => exact ⟨next, FirstSets.mem_firstOf.2 (.inr ⟨rfl, rfl⟩)⟩
  | cons s symbols ih =>
      have either : ((FirstSets.ofGrammar g).symbol s).nullable = true ∨
          ∃ t, t ∈ ((FirstSets.ofGrammar g).symbol s).terminals := by
        cases s with
        | terminal t => exact .inr ⟨t, by simp [FirstSets.symbol]⟩
        | nonterminal n =>
            exact FirstSet.exists_of_ne_empty (unblocked n (declared _ List.mem_cons_self))
      simp only [FirstSets.mem_firstOf, FirstSets.sequence, FirstSet.mem_terminals_seq,
        FirstSet.nullable_seq, Bool.and_eq_true] at ih ⊢
      rcases either with nullable | ⟨t, first⟩
      · obtain ⟨y, ⟨t, later, rfl⟩ | ⟨rest, rfl⟩⟩ :=
          ih fun x member => declared x (List.mem_cons_of_mem _ member)
        · exact ⟨_, .inl ⟨t, .inr ⟨nullable, later⟩, rfl⟩⟩
        · exact ⟨_, .inr ⟨⟨nullable, rest⟩, rfl⟩⟩
      · exact ⟨_, .inl ⟨t, .inl first, rfl⟩⟩

namespace Situation

variable {β α : Type} {r : Reading β α} {g : Grammar} {t : Table}

/-- There is no endless run from here. -/
def Ends (t : Table) (r : Reading β α) (c : Situation β α) : Prop :=
  Acc (flip (Step t r)) c

theorem Ends.of_step {c d : Situation β α} (step : Step t r c d) (ends : Ends t r d) :
    Ends t r c := by
  refine ⟨c, ?_⟩
  intro e other
  rw [Step.unique other step]
  exact ends

theorem Ends.of_reaches {c d : Situation β α} (run : Reaches t r c d) (ends : Ends t r d) :
    Ends t r c := by
  induction run using Relation.ReflTransGen.head_induction_on with
  | refl => exact ends
  | head step _ ih => exact .of_step step ih

section Canonical

variable (wf : g.WellFormed) (h : Table.ofGrammar g = .ok t)
include wf h

/-- A lookahead that leads the symbols behind the cursor is taken after some reductions. -/
theorem exists_shift_of_leads (unblocked : g.Unblocked) {symbols : List Symbol} {x : Nat}
    (leads : g.Leads symbols x) (stack : List (Nat × α)) (item : Item)
    (member : item ∈ g.itemsAt (topOf stack))
    (drop : (g.rhs item.production).drop item.cursor = symbols) {b : β} (reads : r.terminal b = x)
    (rest : List β) : ∃ stack' j, Reaches t r ⟨stack, b :: rest⟩ ⟨stack', b :: rest⟩ ∧
      Step t r ⟨stack', b :: rest⟩ ⟨(j, r.leaf b) :: stack', rest⟩ := by
  have closed := Grammar.closed_itemsAt (g := g) wf
  induction leads generalizing stack item with
  | terminal =>
      obtain ⟨j, step, -⟩ := exists_shift wf h member (reads ▸ Item.next?_of_drop drop) rest
      exact ⟨stack, j, .refl, step⟩
  | @inside p x production symbols rule _ ih =>
      -- any lookahead will do, since the token comes from the production itself
      obtain ⟨y, follows⟩ := unblocked.exists_mem_firstOf
        (ItemSet.declared_afterNext wf item) item.lookahead
      have start : ⟨p, 0, y⟩ ∈ g.itemsAt (topOf stack) := by
        refine (closed _).expand item member _ (Item.mem_expand.2 ?_)
        exact ⟨_, Item.next?_of_drop drop, p, Grammar.mem_productionsOf.2 ⟨production, rule, rfl⟩,
          y, follows, rfl⟩
      exact ih stack _ start (by simp [Grammar.rhs_eq rule]) reads
  | @behind p x production symbols values rule vanishes behind ih =>
      have next := Item.next?_of_drop drop
      have ahead : r.lookahead (b :: rest) = .terminal x := congrArg _ reads
      have start : ⟨p, 0, .terminal x⟩ ∈ g.itemsAt (topOf stack) := by
        refine (closed _).expand item member _ (Item.mem_expand.2 ?_)
        refine ⟨_, next, p, Grammar.mem_productionsOf.2 ⟨production, rule, rfl⟩, _, ?_, rfl⟩
        rw [Item.afterNext_of_drop drop]
        exact FirstSets.mem_firstOf.2 (.inl ⟨x, behind.mem_first wf, rfl⟩)
      obtain ⟨children, inner⟩ := vanishes.transfer r [] rfl
      obtain ⟨frames, built, run, top⟩ := inner.reaches wf h stack (b :: rest) _ start
        (by simp [Grammar.rhs_eq rule]) ahead.symm
      obtain ⟨j, step, member⟩ := exists_reduce wf h rule (inner.length_frames built) top
        (by simp [Item.isComplete, Item.skip, Grammar.rhs_eq rule]) ahead.symm member next
      obtain ⟨stack', k, run', shift⟩ := ih ((j, _) :: stack) item.advance member
        (Item.afterNext_of_drop drop) reads
      exact ⟨stack', k, (run.tail step).trans run', shift⟩

end Canonical

/-- The parse ends once a production has been reduced on top of a stack. -/
def EndsAbove (t : Table) (r : Reading β α) (g : Grammar) (input : List β) (stack : List (Nat × α))
    (p : Nat) : Prop :=
  ∀ (production : Production) (j : Nat) (value : α) (taken : List β),
    g.productions[p]? = some production → g.Edge (topOf stack) (.nonterminal production.lhs) j →
      Covers r g ((j, value) :: stack) taken → Ends t r ⟨(j, value) :: stack, input⟩

section Lookahead

variable {input : List β} (wf : g.WellFormed) (h : Table.ofGrammar g = .ok t)
variable (known : ∀ b ∈ input.head?, r.terminal b ≠ g.terminals.length)
variable (shifted : ∀ b rest, input = b :: rest → ∀ stack taken, Covers r g stack taken →
  Ends t r ⟨stack, rest⟩)
include wf h known shifted

theorem Covers.ends_of_reductions {stack : List (Nat × α)} {taken : List β}
    (covers : Covers r g stack taken)
    (reduced : ∀ p production frames below before, action? t r ⟨stack, input⟩ = some (.reduce p) →
      g.productions[p]? = some production → stack = frames ++ below →
      frames.length = production.rhs.length → Covers r g below before →
      ⟨p, 0, r.lookahead input⟩ ∈ g.itemsAt (topOf below) → EndsAbove t r g input below p) :
    Ends t r ⟨stack, input⟩ := by
  refine ⟨_, ?_⟩
  intro d step
  have step : Step t r ⟨stack, input⟩ d := step
  obtain ⟨taken', covers', -⟩ := covers.step wf h step
  cases step with
  | shift wanted => exact shifted _ _ rfl _ _ covers'
  | @reduce frames below _ p j production wanted rule count goto =>
      have edge := (Table.goto?_eq_some_iff wf h).1 goto
      obtain ⟨item, member, complete, rfl, column⟩ := Table.item_of_reduce wf h wanted
      obtain ⟨rfl, -⟩ := Table.ofGrammar_eq_ok h
      have of := (Grammar.closed_itemsAt wf _).of item member
      have ahead := Table.columnOf_inj of.lookahead_ne (r.lookahead_ne known) column.symm
      obtain ⟨before, word, -, rest, -, start⟩ := covers.popComplete wf member complete rule count
      have begun : ⟨item.production, 0, r.lookahead input⟩ ∈ t.grammar.itemsAt (topOf below) :=
        ahead ▸ start
      exact reduced _ production frames below before wanted rule rfl count rest begun production j
        _ _ rule edge covers'

omit known in
theorem Covers.ends_of_leads (unblocked : g.Unblocked) {stack : List (Nat × α)} {taken : List β}
    (covers : Covers r g stack taken) {item : Item} (member : item ∈ g.itemsAt (topOf stack))
    {x : Nat} (leads : g.Leads ((g.rhs item.production).drop item.cursor) x)
    (ahead : r.lookahead input = .terminal x) : Ends t r ⟨stack, input⟩ := by
  cases input with
  | nil => cases ahead
  | cons b rest =>
      obtain ⟨stack', j, run, shift⟩ := exists_shift_of_leads wf h unblocked leads stack item member
        rfl (Lookahead.terminal.inj ahead) rest
      obtain ⟨taken', covers', -⟩ := covers.reaches wf h (run.tail shift)
      exact .of_reaches (run.tail shift) (shifted b rest rfl _ _ covers')

/-- An item whose rest vanishes is completed, and its production is reduced where it was begun. -/
theorem Covers.ends_of_nullable (frames stack : List (Nat × α)) {taken : List β}
    (covers : Covers r g (frames ++ stack) taken) {item : Item}
    (member : item ∈ g.itemsAt (topOf (frames ++ stack))) (count : frames.length = item.cursor)
    (nullable : ((FirstSets.ofGrammar g).sequence
      ((g.rhs item.production).drop item.cursor)).nullable = true)
    (ahead : item.lookahead = r.lookahead input)
    (above : EndsAbove t r g input stack item.production) : Ends t r ⟨frames ++ stack, input⟩ := by
  have inside := ((Grammar.closed_itemsAt wf _).of item member).cursor_le
  obtain ⟨_, vanishes⟩ :=
    FirstSets.exists_derives_of_nullable (FirstSets.sound_ofGrammar g) nullable
  obtain ⟨values, vanishes⟩ := vanishes.transfer r [] rfl
  obtain ⟨pushed, built, run, last⟩ :=
    vanishes.reaches wf h (frames ++ stack) input item member rfl ahead
  have pushes := vanishes.length_frames built
  rw [List.length_drop] at pushes
  have forced := action?_of_complete (r := r) (c := ⟨pushed ++ (frames ++ stack), input⟩) wf h last
    (by simp only [Item.isComplete, Item.skip, List.length_drop, decide_eq_true_eq]; omega) ahead
  obtain ⟨taken', covers', -⟩ := covers.reaches wf h run
  refine .of_reaches run (covers'.ends_of_reductions wf h known shifted ?_)
  intro p production popped below _ wanted rule split length _ _
  obtain rfl : item.production = p :=
    (Table.completion_eq_reduce_iff.1 (Option.some.inj (forced.symm.trans wanted))).1
  rw [← Grammar.rhs_eq rule] at length
  rw [← List.append_assoc] at split
  obtain ⟨-, rfl⟩ := List.append_inj split (by rw [List.length_append]; omega)
  exact above

theorem Covers.endsAbove (unblocked : g.Unblocked) {stack : List (Nat × α)} {taken : List β}
    (covers : Covers r g stack taken) {p : Nat}
    (member : ⟨p, 0, r.lookahead input⟩ ∈ g.itemsAt (topOf stack)) :
    EndsAbove t r g input stack p := by
  refine covers.begun_induction wf (P := fun stack _ item => item.lookahead = r.lookahead input →
    EndsAbove t r g input stack item.production) ?_ ?_ member rfl rfl
  · intro p production rule lhs _ production' j value taken rule' edge _
    obtain ⟨item, -, next⟩ := edge.expected
    cases rule.symm.trans rule'
    exact absurd lhs (Grammar.ne_goal_of_next? wf next)
  · intro frames stack before word parent child _ found expanded begun above ahead
      production j value taken rule edge top
    obtain ⟨n, next, p, produced, y, follows, rfl⟩ := Item.mem_expand.1 expanded
    obtain ⟨_, rule', rfl⟩ := Grammar.mem_productionsOf.1 produced
    cases rule.symm.trans rule'
    have moved : parent.advance ∈ g.itemsAt j := edge.advance found next
    -- the lookahead begins what is left of the parent, or comes after the parent itself
    rcases FirstSets.mem_firstOf.1 follows with ⟨x, first, rfl⟩ | ⟨nullable, rfl⟩
    · have leads := FirstSets.leads_of_mem (FirstSets.sound_ofGrammar g) first
      exact top.ends_of_leads wf h shifted unblocked moved leads ahead.symm
    · exact top.ends_of_nullable wf h known shifted ((j, value) :: frames) stack moved
        (congrArg (· + 1) begun.count) nullable ahead (above ahead)

theorem Covers.ends_of_known (unblocked : g.Unblocked) {stack : List (Nat × α)} {taken : List β}
    (covers : Covers r g stack taken) : Ends t r ⟨stack, input⟩ := by
  refine covers.ends_of_reductions wf h known shifted ?_
  intro p production frames below before _ _ _ _ rest start
  exact rest.endsAbove wf h known shifted unblocked start

end Lookahead

section Input

variable (wf : g.WellFormed) (h : Table.ofGrammar g = .ok t)
include wf h

/-- An element that reads as no terminal stands in the column for the end of the input, and what is
    done before it is done at the end. -/
theorem Ends.of_marked {b : β} (mark : r.terminal b = g.terminals.length) (rest : List β)
    {stack : List (Nat × α)} (ends : Ends t r ⟨stack, []⟩) : Ends t r ⟨stack, b :: rest⟩ := by
  obtain ⟨rfl, -⟩ := Table.ofGrammar_eq_ok h
  have column : Table.columnOf t.grammar (r.lookahead (b :: rest)) =
      Table.columnOf t.grammar (r.lookahead []) := mark
  generalize bare : (⟨stack, []⟩ : Situation β α) = c at ends
  induction ends generalizing stack with
  | intro c _ ih =>
      subst bare
      refine ⟨_, ?_⟩
      intro d step
      have step : Step t r ⟨stack, b :: rest⟩ d := step
      cases step with
      | shift wanted =>
          rw [action?, column] at wanted
          exact absurd wanted (Table.action?_endColumn_ne_shift wf h)
      | reduce wanted rule count goto =>
          rw [action?, column] at wanted
          exact ih _ (.reduce wanted rule count goto) rfl

theorem Covers.ends (unblocked : g.Unblocked) {stack : List (Nat × α)} {taken : List β}
    (covers : Covers r g stack taken) (input : List β) : Ends t r ⟨stack, input⟩ := by
  have finish : ∀ stack taken, Covers r g stack taken → Ends t r ⟨stack, []⟩ :=
    fun stack taken covers => covers.ends_of_known wf h (by simp) (by simp) unblocked
  induction input generalizing stack taken with
  | nil => exact finish stack taken covers
  | cons b rest ih =>
      by_cases mark : r.terminal b = g.terminals.length
      · exact (finish stack taken covers).of_marked wf h mark rest
      · refine covers.ends_of_known wf h (by simpa using mark) ?_ unblocked
        intro _ _ same stack taken below
        obtain ⟨-, rfl⟩ := List.cons.inj same
        exact ih below

end Input

end Situation

namespace Table

variable {t : Table} {line : Nat} {g : Grammar}

theorem exists_ne_next_of_runs {c last : Configuration} (run : t.Runs line c last)
    (ended : ∀ d, t.step line last ≠ .next d) (seq : Nat → Configuration) (start : seq 0 = c) :
    ∃ i, t.step line (seq i) ≠ .next (seq (i + 1)) := by
  induction run using Relation.ReflTransGen.head_induction_on generalizing seq with
  | refl => exact ⟨0, start ▸ ended _⟩
  | head step _ ih =>
      by_cases first : t.step line (seq 0) = .next (seq 1)
      · rw [start, step] at first
        obtain ⟨i, stops⟩ := ih (fun i => seq (i + 1)) (StepResult.next.inj first).symm
        exact ⟨i + 1, stops⟩
      · exact ⟨0, first⟩

section Canonical

variable (wf : g.WellFormed) (h : ofGrammar g = .ok t)
include wf h

theorem bind_action?_of_failed {c : Configuration} {taken : List Token} {e : ParseError}
    (covers : Situation.Covers (Tree.reading g line) g c.situation.stack taken)
    (failed : t.step line c = .failed e) :
    (t.inputColumn? c.input).bind (t.action? c.top) = none := by
  obtain ⟨rfl, -⟩ := ofGrammar_eq_ok h
  cases column : t.inputColumn? c.input with
  | none => rfl
  | some col =>
      have sighted : t.Sighted line c.input := sighted_of_column line column
      rw [← column, bind_action?_eq sighted]
      cases wanted : c.situation.action? t (Tree.reading t.grammar line) with
      | none => rfl
      | some a =>
          rcases covers.progress wf h wanted with ⟨s, moves⟩ | ⟨tree, accepts⟩
          · obtain ⟨d, -, next⟩ := exists_next_of_step sighted moves
            rw [next] at failed
            cases failed
          · rw [step_of_accepts sighted accepts] at failed
            cases failed

theorem eq_errorAt_of_failed {c : Configuration} {taken : List Token} {e : ParseError}
    (covers : Situation.Covers (Tree.reading g line) g c.situation.stack taken)
    (failed : t.step line c = .failed e) : e = errorAt line c.input := by
  have nothing := bind_action?_of_failed wf h covers failed
  simp only [step, nothing, StepResult.failed.injEq] at failed
  exact failed.symm

theorem exists_outcome (unblocked : g.Unblocked) {c : Configuration} {taken : List Token}
    (covers : Situation.Covers (Tree.reading g line) g c.situation.stack taken) :
    ∃ last result, t.Runs line c last ∧ (t.step line last).outcome? = some result := by
  have ends := covers.ends wf h unblocked c.input
  generalize view : (⟨c.situation.stack, c.input⟩ : Situation Token Tree) = s at ends
  induction ends generalizing c taken with
  | intro s _ ih =>
      cases stepped : t.step line c with
      | accepted tree => exact ⟨c, .ok tree, .refl, by rw [stepped]; rfl⟩
      | failed e => exact ⟨c, .error e, .refl, by rw [stepped]; rfl⟩
      | next d =>
          have grammar := (ofGrammar_eq_ok h).1
          have step := step_of_eq_next (sighted_of_next stepped) stepped
          rw [grammar] at step
          obtain ⟨taken', covers', -⟩ := covers.step wf h step
          obtain ⟨last, result, run, ended⟩ := ih d.situation (view ▸ step) covers' rfl
          exact ⟨last, result, .head stepped run, ended⟩

end Canonical

/-- Parsing a line ends after finitely many steps, with a tree or with an error of the line. -/
theorem parse_terminates {goal : String} {rules : List Rule} {nonterminals terminals : List String}
    (ofRules : Grammar.ofRules goal rules nonterminals terminals = .ok g)
    (ofGrammar : Table.ofGrammar g = .ok t) (unblocked : g.Unblocked) (line : Line) :
    (∃ last result, t.Runs line.number (.start line.tokens) last ∧
      (t.step line.number last).outcome? = some result ∧ t.parse line = result ∧
      ∀ f, result ≠ .error (.fault f)) ∧
    ∀ seq : Nat → Configuration, seq 0 = .start line.tokens →
      ∃ i, t.step line.number (seq i) ≠ .next (seq (i + 1)) := by
  have wf := Grammar.ofRules_wellFormed ofRules
  have grammar := (ofGrammar_eq_ok ofGrammar).1
  have bottom : Situation.Covers (Tree.reading g line.number) g
      (Configuration.start line.tokens).situation.stack [] := .nil
  obtain ⟨last, result, run, ended⟩ := exists_outcome wf ofGrammar unblocked bottom
  have stops : ∀ d, t.step line.number last ≠ .next d := by
    intro d next
    simp [next, StepResult.outcome?] at ended
  refine ⟨⟨last, result, run, ended, by rw [parse, loop_of_runs run ended], ?_⟩,
    exists_ne_next_of_runs run stops⟩
  rintro f rfl
  obtain ⟨taken, covers, -⟩ := bottom.reaches wf ofGrammar (grammar ▸ reaches_of_runs run)
  cases stepped : t.step line.number last with
  | next d => exact stops d stepped
  | accepted tree => simp [stepped, StepResult.outcome?] at ended
  | failed e =>
      obtain rfl : e = .fault f := by simpa [stepped, StepResult.outcome?] using ended
      have error := eq_errorAt_of_failed wf ofGrammar covers stepped
      cases input : last.input <;> simp [input, errorAt] at error

open Grammar in
theorem parse_terminates_parens :
    ∃ last result, parensTable.Runs 1 (.start parensLine.tokens) last ∧
      (parensTable.step 1 last).outcome? = some result ∧
      parensTable.parse parensLine = result := by
  obtain ⟨⟨last, result, run, ended, parsed, -⟩, -⟩ :=
    parse_terminates ofRules_parens ofGrammar_parens (by decide +kernel) parensLine
  exact ⟨last, result, run, ended, parsed⟩

end Table

namespace Grammar

def blockedRules : List Rule :=
  [⟨"s", ["a", "x", "w"]⟩, ⟨"a", ["a"]⟩, ⟨"a", ["word"]⟩, ⟨"x", ["int"]⟩, ⟨"w", ["w", "reg"]⟩]

/-- Nothing derives from `w`, so nothing can follow `x`, and only `a` itself accounts for the
    reduction of its unit production before an integer. -/
def blocked : Grammar :=
  ⟨["s", "a", "x", "w"], ["word", "int", "reg"],
    [⟨0, [.nonterminal 1, .nonterminal 2, .nonterminal 3]⟩, ⟨1, [.nonterminal 1]⟩,
      ⟨1, [.terminal 0]⟩, ⟨2, [.terminal 1]⟩, ⟨3, [.nonterminal 3, .terminal 2]⟩], 0⟩

def blockedTable : Table where
  grammar := blocked
  actions :=
    [[some (.shift 1), none, none, none],
      [none, some (.reduce 2), none, none],
      [none, some (.reduce 1), none, none],
      [none, none, none, none],
      [none, none, some (.shift 5), some (.accept 0)],
      [none, none, some (.reduce 4), some (.reduce 4)]]
  gotos :=
    [[none, some 2, none, none], [none, none, none, none], [none, none, some 3, none],
      [none, none, none, some 4], [none, none, none, none], [none, none, none, none]]

def blockedLine : Line := ⟨1, [⟨1, "a", .word⟩, ⟨3, "5", .integer⟩]⟩

end Grammar

open Grammar in
/-- A table without conflicts and a line on which the parser reduces forever. -/
theorem Table.parse_endless :
    ofRules "s" blockedRules ["s", "a", "x", "w"] ["word", "int", "reg"] = .ok blocked ∧
    Table.ofGrammar blocked = .ok blockedTable ∧
    ∀ last, blockedTable.Runs 1 (.start blockedLine.tokens) last →
      (blockedTable.step 1 last).outcome? = none := by
  refine ⟨by decide +kernel, by decide +kernel, ?_⟩
  have visited : ∀ last, blockedTable.Runs 1 (.start blockedLine.tokens) last →
      last = .start blockedLine.tokens ∨
      ∃ state tree, (state = 1 ∨ state = 2) ∧ last = ⟨[⟨state, tree⟩], [⟨3, "5", .integer⟩]⟩ := by
    intro last run
    induction run with
    | refl => exact .inl rfl
    | tail _ step ih =>
        rcases ih with rfl | ⟨state, tree, rfl | rfl, rfl⟩
        · cases step
          exact .inr ⟨1, _, .inl rfl, rfl⟩
        · cases step
          exact .inr ⟨2, _, .inr rfl, rfl⟩
        · cases step
          exact .inr ⟨2, _, .inr rfl, rfl⟩
  intro last run
  rcases visited last run with rfl | ⟨state, tree, rfl | rfl, rfl⟩
  · rfl
  · rfl
  · rfl

end Assembler
