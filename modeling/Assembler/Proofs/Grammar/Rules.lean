import Assembler.Proofs.Grammar.WellFormed
import Mathlib.Data.List.Nodup

/-! # Which rules make a grammar

Reading rules makes its checks one after the other and looks names up at their last position. Put
together they ask for just what one would say of the names themselves. That a nonterminal is listed
only once is checked nowhere: no rule finds the earlier position, and it is refused for having no
productions.
-/

namespace Assembler

theorem lastIndexOf?_of_nodup {names : List String} (nodup : names.Nodup) {i : Nat} {name : String}
    (listed : names[i]? = some name) : lastIndexOf? name names = some i := by
  cases found : lastIndexOf? name names with
  | none => exact absurd (List.mem_of_getElem? listed) (lastIndexOf?_eq_none_iff.1 found)
  | some j =>
      have same : names[i]? = names[j]? := by rw [listed, lastIndexOf?_getElem? found]
      have inside := (List.getElem?_eq_some_iff.1 listed).1
      rw [(List.getElem?_inj inside nodup).1 same]

namespace Grammar

/-- Names and rules that make a grammar. -/
structure Sensible (goal : String) (rules : List Rule) (nonterminals terminals : List String) :
    Prop where
  apart : ∀ name ∈ nonterminals, name ∉ terminals
  filled : rules ≠ []
  lhs : ∀ rule ∈ rules, rule.lhs ∈ nonterminals
  rhs : ∀ rule ∈ rules, ∀ name ∈ rule.rhs, name ∈ nonterminals ∨ name ∈ terminals
  start : goal ∈ nonterminals
  distinct : nonterminals.Nodup
  productive : ∀ name ∈ nonterminals, ∃ rule ∈ rules, rule.lhs = name
  fresh : ∀ rule ∈ rules, goal ∉ rule.rhs

/-- A position that is within the list of its sort. -/
def InRange (g : Grammar) : Symbol → Prop
  | .terminal t => t < g.terminals.length
  | .nonterminal n => n < g.nonterminals.length

/-- A symbol that stands for a name. -/
def Denotes (g : Grammar) (name : String) (x : Symbol) : Prop := g.InRange x ∧ g.name x = name

/-- A production that stands for a rule, symbol by symbol. -/
structure Renders (g : Grammar) (rule : Rule) (production : Production) : Prop where
  lhs : g.Denotes rule.lhs (.nonterminal production.lhs)
  rhs : List.Forall₂ g.Denotes rule.rhs production.rhs

variable {goal name : String} {rule : Rule} {rules : List Rule}
  {nonterminals terminals : List String} {g : Grammar} {production : Production}
  {productions : List Production} {n : Nat} {x : Symbol}

/-! ### Looking names up -/

theorem nonterminalOf_eq_ok : nonterminalOf nonterminals terminals name = .ok n ↔
    lastIndexOf? name nonterminals = some n := by
  refine ⟨lastIndexOf?_of_nonterminalOf, fun found => ?_⟩
  simp only [nonterminalOf, symbolOf, found]
  rfl

theorem exists_lastIndexOf? {names : List String} :
    (∃ i, lastIndexOf? name names = some i) ↔ name ∈ names := by
  rw [← Option.isSome_iff_exists, Option.isSome_iff_ne_none, ne_eq, lastIndexOf?_eq_none_iff,
    not_not]

theorem exists_nonterminalOf :
    (∃ n, nonterminalOf nonterminals terminals name = .ok n) ↔ name ∈ nonterminals := by
  simp only [nonterminalOf_eq_ok, exists_lastIndexOf?]

theorem exists_symbolOf : (∃ x, symbolOf nonterminals terminals name = .ok x) ↔
    name ∈ nonterminals ∨ name ∈ terminals := by
  rw [← exists_lastIndexOf?, ← exists_lastIndexOf?]
  unfold symbolOf
  cases lastIndexOf? name nonterminals <;> cases lastIndexOf? name terminals <;> simp

theorem symbolOf_eq_nonterminal (start : lastIndexOf? goal nonterminals = some n) :
    symbolOf nonterminals terminals name = .ok (.nonterminal n) ↔ name = goal := by
  constructor
  · intro found
    unfold symbolOf at found
    split at found
    · next index =>
        cases found
        have here := lastIndexOf?_getElem? index
        rw [lastIndexOf?_getElem? start] at here
        exact (Option.some.inj here).symm
    · cases found
    · cases found
  · rintro rfl
    simp only [symbolOf, start]

theorem exists_eq_terminal_iff (found : symbolOf nonterminals terminals name = .ok x) :
    (∃ t, x = .terminal t) ↔ name ∉ nonterminals := by
  rw [← lastIndexOf?_eq_none_iff]
  unfold symbolOf at found
  split at found
  · next index =>
      cases found
      simp [index]
  · next index _ =>
      cases found
      simp [index]
  · cases found

theorem denotes_of_lastIndexOf? (found : lastIndexOf? name g.nonterminals = some n) :
    g.Denotes name (.nonterminal n) := by
  refine ⟨lastIndexOf?_lt found, ?_⟩
  simp [Grammar.name, lastIndexOf?_getElem? found]

theorem denotes_of_symbolOf (found : symbolOf g.nonterminals g.terminals name = .ok x) :
    g.Denotes name x := by
  unfold symbolOf at found
  split at found
  · next index =>
      cases found
      exact denotes_of_lastIndexOf? index
  · next index =>
      cases found
      refine ⟨lastIndexOf?_lt index, ?_⟩
      simp [Grammar.name, lastIndexOf?_getElem? index]
  · cases found

/-! ### Reading rules -/

theorem productionOf_eq_ok : productionOf nonterminals terminals rule = .ok production ↔
    lastIndexOf? rule.lhs nonterminals = some production.lhs ∧
      List.Forall₂ (fun name x => symbolOf nonterminals terminals name = .ok x) rule.rhs
        production.rhs := by
  simp only [productionOf, bind_eq_ok, pure_eq_ok, nonterminalOf_eq_ok, mapM_eq_ok]
  constructor
  · rintro ⟨lhs, first, rhs, others, rfl⟩
    exact ⟨first, others⟩
  · rintro ⟨first, others⟩
    exact ⟨production.lhs, first, production.rhs, others, rfl⟩

theorem exists_productionOf :
    (∃ production, productionOf nonterminals terminals rule = .ok production) ↔
      rule.lhs ∈ nonterminals ∧ ∀ name ∈ rule.rhs, name ∈ nonterminals ∨ name ∈ terminals := by
  have named : (∃ n, lastIndexOf? rule.lhs nonterminals = some n) ↔ rule.lhs ∈ nonterminals :=
    exists_lastIndexOf?
  simp only [productionOf_eq_ok, ← named, ← exists_symbolOf, ← exists_mapM_eq_ok, mapM_eq_ok]
  constructor
  · rintro ⟨production, first, others⟩
    exact ⟨⟨_, first⟩, _, others⟩
  · rintro ⟨⟨lhs, first⟩, rhs, others⟩
    exact ⟨⟨lhs, rhs⟩, first, others⟩

theorem renders_of_productionOf
    (read : productionOf g.nonterminals g.terminals rule = .ok production) :
    g.Renders rule production := by
  obtain ⟨first, others⟩ := productionOf_eq_ok.1 read
  exact ⟨denotes_of_lastIndexOf? first, others.imp fun name x => denotes_of_symbolOf⟩

/-- A nonterminal with productions is one that its name finds, so every one is if the names are
    pairwise distinct and stand on left-hand sides. -/
theorem productive_iff : (∀ n < nonterminals.length, ∃ rule ∈ rules,
      lastIndexOf? rule.lhs nonterminals = some n) ↔
    nonterminals.Nodup ∧ ∀ name ∈ nonterminals, ∃ rule ∈ rules, rule.lhs = name := by
  constructor
  · intro productive
    have found : ∀ (n : Nat) (inside : n < nonterminals.length),
        ∃ rule ∈ rules, rule.lhs = nonterminals[n] ∧
          lastIndexOf? nonterminals[n] nonterminals = some n := by
      intro n inside
      obtain ⟨rule, member, index⟩ := productive n inside
      have here := (List.getElem?_eq_some_iff.1 (lastIndexOf?_getElem? index)).2
      exact ⟨rule, member, here.symm, here ▸ index⟩
    constructor
    · refine List.nodup_iff_injective_get.2 fun i j same => ?_
      obtain ⟨_, -, -, first⟩ := found i i.isLt
      obtain ⟨_, -, -, second⟩ := found j j.isLt
      have same : nonterminals[i.val] = nonterminals[j.val] := same
      rw [same, second] at first
      exact Fin.ext (Option.some.inj first).symm
    · intro name member
      obtain ⟨n, inside, rfl⟩ := List.mem_iff_getElem.1 member
      obtain ⟨rule, member, named, -⟩ := found n inside
      exact ⟨rule, member, named⟩
  · rintro ⟨distinct, productive⟩ n inside
    obtain ⟨rule, member, named⟩ := productive _ (List.getElem_mem inside)
    exact ⟨rule, member, lastIndexOf?_of_nodup distinct (by simp [named])⟩

section Read

variable (read : List.Forall₂ (fun rule production =>
  productionOf nonterminals terminals rule = .ok production) rules productions)
include read

theorem mem_productionsOf_iff (same : g.productions = productions) {p : Nat} :
    p ∈ g.productionsOf n ↔
      ∃ rule, rules[p]? = some rule ∧ lastIndexOf? rule.lhs nonterminals = some n := by
  rw [mem_productionsOf, same]
  constructor
  · rintro ⟨production, listed, rfl⟩
    obtain ⟨rule, stands, step⟩ := exists_getElem?_of_forall₂ read.flip listed
    exact ⟨rule, stands, (productionOf_eq_ok.1 step).1⟩
  · rintro ⟨rule, stands, index⟩
    obtain ⟨production, listed, step⟩ := exists_getElem?_of_forall₂ read stands
    have first := (productionOf_eq_ok.1 step).1
    exact ⟨production, listed, Option.some.inj (first.symm.trans index)⟩

theorem productionsOf_ne_nil_iff (same : g.productions = productions) :
    g.productionsOf n ≠ [] ↔ ∃ rule ∈ rules, lastIndexOf? rule.lhs nonterminals = some n := by
  constructor
  · intro nonempty
    obtain ⟨p, produced⟩ := List.exists_mem_of_ne_nil _ nonempty
    obtain ⟨rule, stands, index⟩ := (mem_productionsOf_iff read same).1 produced
    exact ⟨rule, List.mem_of_getElem? stands, index⟩
  · rintro ⟨rule, member, index⟩
    obtain ⟨p, stands⟩ := List.mem_iff_getElem?.1 member
    exact List.ne_nil_of_mem ((mem_productionsOf_iff read same).2 ⟨rule, stands, index⟩)

theorem fresh_iff (start : lastIndexOf? goal nonterminals = some n) :
    (∀ production ∈ productions, .nonterminal n ∉ production.rhs) ↔
      ∀ rule ∈ rules, goal ∉ rule.rhs := by
  constructor
  · intro fresh rule member inside
    obtain ⟨production, listed, step⟩ := exists_mem_of_forall₂ read.flip member
    obtain ⟨x, written, found⟩ := exists_mem_of_forall₂ (productionOf_eq_ok.1 step).2.flip inside
    rw [(symbolOf_eq_nonterminal start).2 rfl] at found
    cases found
    exact fresh production listed written
  · intro fresh production listed written
    obtain ⟨rule, member, step⟩ := exists_mem_of_forall₂ read listed
    obtain ⟨name, inside, found⟩ := exists_mem_of_forall₂ (productionOf_eq_ok.1 step).2 written
    rw [symbolOf_eq_nonterminal start] at found
    subst found
    exact fresh rule member inside

end Read

/-! ### Names in both lists -/

theorem raisesOnly_symbolOf (nonterminals terminals : List String) (name : String) :
    RaisesOnly (∀ name, · ≠ .ambiguous name) (symbolOf nonterminals terminals name) := by
  unfold symbolOf
  split <;> simp

theorem raisesOnly_nonterminalOf (nonterminals terminals : List String) (name : String) :
    RaisesOnly (∀ name, · ≠ .ambiguous name) (nonterminalOf nonterminals terminals name) := by
  refine (raisesOnly_symbolOf nonterminals terminals name).bind fun x _ => ?_
  cases x <;> simp

theorem raisesOnly_productionOf (nonterminals terminals : List String) (rule : Rule) :
    RaisesOnly (∀ name, · ≠ .ambiguous name) (productionOf nonterminals terminals rule) :=
  (raisesOnly_nonterminalOf nonterminals terminals rule.lhs).bind fun _ _ =>
    (RaisesOnly.mapM fun name _ => raisesOnly_symbolOf nonterminals terminals name).bind fun _ _ =>
      raisesOnly_pure _

theorem raisesOnly_ofRules (goal : String) (rules : List Rule)
    (nonterminals terminals : List String) :
    RaisesOnly (fun e => ∀ name, e = .ambiguous name → name ∈ nonterminals ∧ name ∈ terminals)
      (ofRules goal rules nonterminals terminals) := by
  have other : ∀ e : GrammarError, (∀ name, e ≠ .ambiguous name) →
      ∀ name, e = .ambiguous name → name ∈ nonterminals ∧ name ∈ terminals :=
    fun e never name same => absurd same (never name)
  unfold ofRules
  cases apart : nonterminals.find? terminals.contains with
  | some name =>
      have listed := List.mem_of_find?_eq_some apart
      have both : name ∈ terminals := by simpa using List.find?_some apart
      refine (raisesOnly_throw.2 ?_).bind nofun
      rintro _ ⟨⟩
      exact ⟨listed, both⟩
  | none =>
      refine .guarded (by simp) (.bind (.mapM fun rule _ => ?_) fun _ _ => .bind ?_ fun _ _ => ?_)
      · exact (raisesOnly_productionOf nonterminals terminals rule).imp other
      · exact (raisesOnly_nonterminalOf nonterminals terminals goal).imp other
      · dsimp only
        split
        · exact (raisesOnly_throw.2 (other _ (by simp))).bind nofun
        · exact .guarded (other _ (by simp)) (raisesOnly_pure _)

/-! ### Sensible rules -/

theorem sensible_of_ofRules (made : ofRules goal rules nonterminals terminals = .ok g) :
    Sensible goal rules nonterminals terminals := by
  obtain ⟨apart, filled, -, -, read, start, productive, fresh⟩ := ofRules_eq_ok.1 made
  have declared : ∀ rule ∈ rules, rule.lhs ∈ nonterminals ∧
      ∀ name ∈ rule.rhs, name ∈ nonterminals ∨ name ∈ terminals :=
    fun rule member => exists_productionOf.1 (exists_mapM_eq_ok.1 ⟨_, read⟩ rule member)
  rw [mapM_eq_ok] at read
  simp only [productionsOf_ne_nil_iff read rfl] at productive
  obtain ⟨distinct, produced⟩ := productive_iff.1 productive
  exact
    { apart := apart
      filled := filled
      lhs := fun rule member => (declared rule member).1
      rhs := fun rule member => (declared rule member).2
      start := exists_nonterminalOf.1 ⟨_, start⟩
      distinct := distinct
      productive := produced
      fresh := (fresh_iff read (nonterminalOf_eq_ok.1 start)).1 fresh }

theorem Sensible.exists_ofRules (h : Sensible goal rules nonterminals terminals) :
    ∃ g, ofRules goal rules nonterminals terminals = .ok g := by
  obtain ⟨start, found⟩ : ∃ n, nonterminalOf nonterminals terminals goal = .ok n :=
    exists_nonterminalOf.2 h.start
  obtain ⟨productions, read⟩ := exists_mapM_eq_ok.2 fun rule member =>
    exists_productionOf.2 ⟨h.lhs rule member, h.rhs rule member⟩
  have steps := mapM_eq_ok.1 read
  have productive := productive_iff.2 ⟨h.distinct, h.productive⟩
  have fresh := (fresh_iff steps (nonterminalOf_eq_ok.1 found)).2 h.fresh
  exact ⟨⟨nonterminals, terminals, productions, start⟩, ofRules_eq_ok.2
    ⟨h.apart, h.filled, rfl, rfl, read, found,
      fun n inside => (productionsOf_ne_nil_iff steps rfl).2 (productive n inside), fresh⟩⟩

theorem pairwise_productionsOf (g : Grammar) (n : Nat) : (g.productionsOf n).Pairwise (· < ·) := by
  have ordered : (g.productions.zipIdx.map (·.2)).Pairwise (· < ·) := by
    rw [List.zipIdx_map_snd]
    exact List.pairwise_lt_range'
  exact ordered.sublist (List.filter_sublist.map _)

/-- Rules make a grammar just if they are sensible. Its productions then stand for the rules in
    order, and the list of those of a nonterminal is complete and in order as well. -/
theorem ofRules_exact (goal : String) (rules : List Rule) (nonterminals terminals : List String) :
    ((∃ g, ofRules goal rules nonterminals terminals = .ok g) ↔
        Sensible goal rules nonterminals terminals) ∧
      ∀ g, ofRules goal rules nonterminals terminals = .ok g →
        g.nonterminals = nonterminals ∧ g.terminals = terminals ∧
        g.Denotes goal (.nonterminal g.goal) ∧ List.Forall₂ g.Renders rules g.productions ∧
        ∀ n < nonterminals.length, (g.productionsOf n).Pairwise (· < ·) ∧
          ∀ p, p ∈ g.productionsOf n ↔
            ∃ rule, rules[p]? = some rule ∧ rule.lhs = g.name (.nonterminal n) := by
  refine ⟨⟨fun ⟨g, made⟩ => sensible_of_ofRules made, Sensible.exists_ofRules⟩, fun g made => ?_⟩
  have distinct := (sensible_of_ofRules made).distinct
  obtain ⟨-, -, rfl, rfl, read, start, -, -⟩ := ofRules_eq_ok.1 made
  rw [mapM_eq_ok] at read
  refine ⟨rfl, rfl, denotes_of_lastIndexOf? (nonterminalOf_eq_ok.1 start),
    read.imp fun rule production => renders_of_productionOf, fun n inside => ?_⟩
  have named : ∀ name,
      lastIndexOf? name g.nonterminals = some n ↔ name = g.name (.nonterminal n) := by
    intro name
    constructor
    · intro index
      exact (denotes_of_lastIndexOf? index).2.symm
    · rintro rfl
      exact lastIndexOf?_of_nodup distinct (by simp [Grammar.name, inside])
  refine ⟨pairwise_productionsOf g n, fun p => ?_⟩
  simp only [mem_productionsOf_iff read rfl, named]

/-- A list that may be empty. -/
def listRules : List Rule := [⟨"s", ["p"]⟩, ⟨"p", ["p", "x"]⟩, ⟨"p", []⟩]

theorem ofRules_exact_list : ∃ g, ofRules "s" listRules ["s", "p"] ["x"] = .ok g ∧
    g.nonterminals = ["s", "p"] ∧ g.terminals = ["x"] ∧ g.Denotes "s" (.nonterminal g.goal) ∧
    List.Forall₂ g.Renders listRules g.productions ∧
    ∀ n < 2, (g.productionsOf n).Pairwise (· < ·) ∧ ∀ p, p ∈ g.productionsOf n ↔
      ∃ rule, listRules[p]? = some rule ∧ rule.lhs = g.name (.nonterminal n) := by
  have made : ofRules "s" listRules ["s", "p"] ["x"] = .ok ⟨["s", "p"], ["x"],
      [⟨0, [.nonterminal 1]⟩, ⟨1, [.nonterminal 1, .terminal 0]⟩, ⟨1, []⟩], 0⟩ := by
    decide +kernel
  exact ⟨_, made, (ofRules_exact "s" listRules ["s", "p"] ["x"]).2 _ made⟩

end Grammar

end Assembler
