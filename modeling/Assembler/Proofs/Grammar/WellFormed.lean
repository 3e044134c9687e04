import Assembler.Grammar.Rules
import Assembler.Proofs.Outcome

/-! # What reading rules guarantees

A grammar is a list of numbers, and nothing in its type ties them to the lists of names. Reading
rules does: every number is the position of a declared name, the last one where a name is repeated,
and the goal stands on no right-hand side. All later stages rely on this.
-/

namespace Assembler

theorem lastIndexOf?_getElem? {name : String} {names : List String} {i : Nat}
    (h : lastIndexOf? name names = some i) : names[i]? = some name := by
  induction names generalizing i with
  | nil => simp [lastIndexOf?] at h
  | cons x xs ih =>
      simp only [lastIndexOf?] at h
      cases later : lastIndexOf? name xs with
      | some j =>
          simp only [later, Option.some.injEq] at h
          subst h
          simpa using ih later
      | none =>
          simp only [later] at h
          split at h
          · next same =>
              cases h
              simp [same]
          · cases h

theorem lastIndexOf?_lt {name : String} {names : List String} {i : Nat}
    (h : lastIndexOf? name names = some i) : i < names.length :=
  (List.getElem?_eq_some_iff.1 (lastIndexOf?_getElem? h)).1

theorem lastIndexOf?_eq_none_iff {name : String} {names : List String} :
    lastIndexOf? name names = none ↔ name ∉ names := by
  induction names with
  | nil => simp [lastIndexOf?]
  | cons x xs ih =>
      simp only [lastIndexOf?, List.mem_cons, not_or]
      cases later : lastIndexOf? name xs with
      | some j =>
          have inside : name ∈ xs := List.mem_of_getElem? (lastIndexOf?_getElem? later)
          simp [inside]
      | none =>
          have outside := ih.1 later
          by_cases same : x = name
          · simp [same]
          · simp [same, outside, Ne.symm same]

namespace Grammar

/-- A symbol that a name stands for. -/
def Declared (g : Grammar) : Symbol → Prop
  | .terminal t => ∃ name, lastIndexOf? name g.terminals = some t
  | .nonterminal n => n < g.nonterminals.length

/-- What every grammar read from rules satisfies. -/
structure WellFormed (g : Grammar) : Prop where
  goal_lt : g.goal < g.nonterminals.length
  lhs_lt : ∀ production ∈ g.productions, production.lhs < g.nonterminals.length
  rhs_declared : ∀ production ∈ g.productions, ∀ s ∈ production.rhs, g.Declared s
  goal_fresh : ∀ production ∈ g.productions, .nonterminal g.goal ∉ production.rhs
  productive : ∀ n < g.nonterminals.length, g.productionsOf n ≠ []

theorem symbolOf_declared {nonterminals terminals : List String} {name : String} {s : Symbol}
    (h : symbolOf nonterminals terminals name = .ok s) (productions : List Production)
    (goal : Nat) : Declared ⟨nonterminals, terminals, productions, goal⟩ s := by
  simp only [symbolOf] at h
  split at h
  · next found =>
      cases h
      exact lastIndexOf?_lt found
  · next found =>
      cases h
      exact ⟨name, found⟩
  · cases h

theorem lastIndexOf?_of_nonterminalOf {nonterminals terminals : List String} {name : String}
    {n : Nat} (h : nonterminalOf nonterminals terminals name = .ok n) :
    lastIndexOf? name nonterminals = some n := by
  simp only [nonterminalOf, bind_eq_ok] at h
  obtain ⟨s, found, h⟩ := h
  cases s with
  | terminal t => cases h
  | nonterminal m =>
      cases h
      simp only [symbolOf] at found
      split at found
      · next index =>
          cases found
          exact index
      · cases found
      · cases found

theorem nonterminalOf_lt {nonterminals terminals : List String} {name : String} {n : Nat}
    (h : nonterminalOf nonterminals terminals name = .ok n) : n < nonterminals.length :=
  lastIndexOf?_lt (lastIndexOf?_of_nonterminalOf h)

theorem productionOf_declared {nonterminals terminals : List String} {rule : Rule}
    {production : Production} (h : productionOf nonterminals terminals rule = .ok production)
    (productions : List Production) (goal : Nat) :
    production.lhs < nonterminals.length ∧
      ∀ s ∈ production.rhs, Declared ⟨nonterminals, terminals, productions, goal⟩ s := by
  simp only [productionOf, bind_eq_ok, pure_eq_ok] at h
  obtain ⟨lhs, hl, rhs, hr, rfl⟩ := h
  refine ⟨nonterminalOf_lt hl, ?_⟩
  intro s member
  obtain ⟨name, -, found⟩ := exists_of_mem_mapM hr member
  exact symbolOf_declared found productions goal

/-- The checks that rules pass when they give a grammar. -/
theorem ofRules_eq_ok {goal : String} {rules : List Rule} {nonterminals terminals : List String}
    {g : Grammar} : ofRules goal rules nonterminals terminals = .ok g ↔
    (∀ name ∈ nonterminals, name ∉ terminals) ∧ rules ≠ [] ∧
      g.nonterminals = nonterminals ∧ g.terminals = terminals ∧
      rules.mapM (productionOf nonterminals terminals) = .ok g.productions ∧
      nonterminalOf nonterminals terminals goal = .ok g.goal ∧
      (∀ n < nonterminals.length, g.productionsOf n ≠ []) ∧
      ∀ production ∈ g.productions, .nonterminal g.goal ∉ production.rhs := by
  unfold ofRules
  cases apart : nonterminals.find? terminals.contains with
  | some name =>
      have listed := List.mem_of_find?_eq_some apart
      have both : name ∈ terminals := by simpa using List.find?_some apart
      simp only [throw_bind_eq_ok, false_iff]
      exact fun all => all.1 name listed both
  | none =>
      have apart : ∀ name ∈ nonterminals, name ∉ terminals := by
        simpa using List.find?_eq_none.1 apart
      have productive : ∀ g : Grammar,
          ((List.range nonterminals.length).find? fun n => (g.productionsOf n).isEmpty) = none ↔
            ∀ n < nonterminals.length, g.productionsOf n ≠ [] := by
        simp [List.find?_eq_none]
      have fresh : ∀ g : Grammar,
          ¬ g.productions.any (·.rhs.contains (.nonterminal g.goal)) = true ↔
            ∀ production ∈ g.productions, .nonterminal g.goal ∉ production.rhs := by
        simp
      simp only [ite_throw_bind_eq_ok, bind_eq_ok, List.isEmpty_iff]
      constructor
      · rintro ⟨filled, productions, read, start, found, checked⟩
        split at checked
        · simp only [throw_bind_eq_ok] at checked
        · next unfound =>
            simp only [ite_throw_bind_eq_ok, pure_eq_ok] at checked
            obtain ⟨free, rfl⟩ := checked
            have absent := Option.eq_none_iff_forall_ne_some.2 unfound
            exact ⟨apart, filled, rfl, rfl, read, found, (productive _).1 absent, (fresh _).1 free⟩
      · rintro ⟨-, filled, rfl, rfl, read, found, produced, free⟩
        refine ⟨filled, g.productions, read, g.goal, found, ?_⟩
        rw [(productive g).2 produced]
        simpa only [ite_throw_bind_eq_ok, pure_eq_ok, and_true] using (fresh g).2 free

theorem ofRules_wellFormed {goal : String} {rules : List Rule}
    {nonterminals terminals : List String} {g : Grammar}
    (h : ofRules goal rules nonterminals terminals = .ok g) : g.WellFormed := by
  obtain ⟨-, -, rfl, rfl, hp, hg, productive, fresh⟩ := ofRules_eq_ok.1 h
  have read : ∀ production ∈ g.productions, production.lhs < g.nonterminals.length ∧
      ∀ s ∈ production.rhs, g.Declared s := by
    intro production member
    obtain ⟨rule, -, found⟩ := exists_of_mem_mapM hp member
    exact productionOf_declared found g.productions g.goal
  exact
    { goal_lt := nonterminalOf_lt hg
      lhs_lt := fun production member => (read production member).1
      rhs_declared := fun production member => (read production member).2
      goal_fresh := fresh
      productive := productive }

theorem not_mem_terminals_of_ofRules {goal : String} {rules : List Rule}
    {nonterminals terminals : List String} {g : Grammar}
    (h : ofRules goal rules nonterminals terminals = .ok g) :
    ∀ name ∈ g.nonterminals, name ∉ g.terminals := by
  obtain ⟨apart, -, rfl, rfl, -⟩ := ofRules_eq_ok.1 h
  exact apart

theorem symbolOf_name {goal : String} {rules : List Rule} {nonterminals terminals : List String}
    {g : Grammar} (h : ofRules goal rules nonterminals terminals = .ok g) {x : Symbol}
    (declared : g.Declared x) : symbolOf g.nonterminals g.terminals (g.name x) = .ok x := by
  have apart := not_mem_terminals_of_ofRules h
  obtain ⟨-, -, rfl, rfl, read, -, productive, -⟩ := ofRules_eq_ok.1 h
  cases x with
  | terminal t =>
      obtain ⟨name, found⟩ := declared
      have listed := lastIndexOf?_getElem? found
      have named : g.name (.terminal t) = name := by simp [Grammar.name, listed]
      have other : lastIndexOf? name g.nonterminals = none :=
        lastIndexOf?_eq_none_iff.2 fun member => apart name member (List.mem_of_getElem? listed)
      simp [symbolOf, named, other, found]
  | nonterminal n =>
      -- some rule was read as a production of this nonterminal
      obtain ⟨p, produced⟩ := List.exists_mem_of_ne_nil _ (productive n declared)
      obtain ⟨production, found, rfl⟩ := mem_productionsOf.1 produced
      obtain ⟨rule, -, read⟩ := exists_of_mem_mapM read (List.mem_of_getElem? found)
      simp only [productionOf, bind_eq_ok, pure_eq_ok] at read
      obtain ⟨n, named, rhs, -, rfl⟩ := read
      have index := lastIndexOf?_of_nonterminalOf named
      have name : g.name (.nonterminal n) = rule.lhs := by
        simp [Grammar.name, lastIndexOf?_getElem? index]
      simp [symbolOf, name, index]

theorem exists_production_of_mem_rhs {g : Grammar} {p : Nat} {s : Symbol} (member : s ∈ g.rhs p) :
    ∃ production ∈ g.productions, s ∈ production.rhs := by
  cases found : g.productions[p]? with
  | none => simp [rhs, found] at member
  | some production => exact ⟨production, List.mem_of_getElem? found, rhs_eq found ▸ member⟩

theorem WellFormed.declared {g : Grammar} (wf : g.WellFormed) {p : Nat} {s : Symbol}
    (member : s ∈ g.rhs p) : g.Declared s := by
  obtain ⟨production, rule, inside⟩ := exists_production_of_mem_rhs member
  exact wf.rhs_declared production rule s inside

theorem WellFormed.goal_not_mem_rhs {g : Grammar} (wf : g.WellFormed) (p : Nat) :
    .nonterminal g.goal ∉ g.rhs p := by
  intro member
  obtain ⟨production, rule, inside⟩ := exists_production_of_mem_rhs member
  exact wf.goal_fresh production rule inside

end Grammar

end Assembler
