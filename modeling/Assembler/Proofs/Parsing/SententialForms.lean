import Assembler.Proofs.Collections.Fixpoint
import Assembler.Proofs.Grammar.Table
import Assembler.Proofs.Parsing.Leading
import Mathlib.Logic.Relation

/-! # FIRST sets are exact

A sentential form is what rewriting nonterminals one at a time leads to. Rewriting never adds to what
a row of symbols can begin with, so whatever a form begins with is in the FIRST set of the row that
it comes from. Conversely, what a FIRST set holds is accounted for by productions, and these are the
steps of a rewriting.
-/

namespace Assembler

/-- One nonterminal is replaced by the right-hand side of one of its productions. -/
inductive Grammar.Rewrites (g : Grammar) : List Symbol → List Symbol → Prop where
  | rule {p : Nat} {production : Production} (before after : List Symbol)
      (rule : g.productions[p]? = some production) :
      Rewrites g (before ++ .nonterminal production.lhs :: after)
        (before ++ (production.rhs ++ after))

/-- The sentential forms that a row of symbols derives. -/
def Grammar.DerivesForm (g : Grammar) : List Symbol → List Symbol → Prop :=
  Relation.ReflTransGen g.Rewrites

variable {g : Grammar}

/-! ### From FIRST sets to forms -/

theorem Grammar.Rewrites.append {symbols form : List Symbol} (h : g.Rewrites symbols form)
    (rest : List Symbol) : g.Rewrites (symbols ++ rest) (form ++ rest) := by
  cases h with
  | rule before after rule =>
      simp only [List.append_assoc, List.cons_append]
      exact .rule before (after ++ rest) rule

theorem Grammar.DerivesForm.of_rule {p : Nat} {production : Production} {form : List Symbol}
    (rule : g.productions[p]? = some production) (inner : g.DerivesForm production.rhs form)
    (rest : List Symbol) : g.DerivesForm (.nonterminal production.lhs :: rest) (form ++ rest) := by
  have first : g.Rewrites (.nonterminal production.lhs :: rest) (production.rhs ++ rest) :=
    .rule [] rest rule
  have later : g.DerivesForm (production.rhs ++ rest) (form ++ rest) :=
    Relation.ReflTransGen.lift (p := g.Rewrites) (· ++ rest) (fun _ _ => (·.append rest)) _ _ inner
  exact later.head first

theorem Reading.Derives.derivesForm_nil {β α : Type} {r : Reading β α} {symbols : List Symbol}
    {word : List β} {values : List α} (h : r.Derives g symbols word values) (empty : word = []) :
    g.DerivesForm symbols [] := by
  induction h with
  | nil => exact .refl
  | leaf => cases empty
  | node rule _ _ inner rest =>
      obtain ⟨below, behind⟩ := List.append_eq_nil_iff.1 empty
      exact ((inner below).of_rule rule _).trans (rest behind)

theorem Grammar.Leads.exists_derivesForm {symbols : List Symbol} {t : Nat}
    (h : g.Leads symbols t) : ∃ form, g.DerivesForm symbols (.terminal t :: form) := by
  induction h with
  | terminal => exact ⟨_, .refl⟩
  | inside rule _ ih =>
      obtain ⟨form, inner⟩ := ih
      exact ⟨_, inner.of_rule rule _⟩
  | behind rule vanishes _ ih =>
      obtain ⟨form, rest⟩ := ih
      exact ⟨form, ((vanishes.derivesForm_nil rfl).of_rule rule _).trans rest⟩

/-! ### From forms to FIRST sets -/

theorem FirstSet.Within.seq {a a' b b' : FirstSet} (ha : a.Within a') (hb : b.Within b') :
    (a.seq b).Within (a'.seq b') := by
  constructor
  · intro t member
    simp only [mem_terminals_seq] at member ⊢
    exact member.imp (ha.terminals t) fun both => ⟨ha.nullable both.1, hb.terminals t both.2⟩
  · intro nullable
    simp only [nullable_seq, Bool.and_eq_true] at nullable ⊢
    exact ⟨ha.nullable nullable.1, hb.nullable nullable.2⟩

namespace FirstSets

theorem sequence_append_within (f : FirstSets) (symbols rest : List Symbol) :
    (f.sequence (symbols ++ rest)).Within ((f.sequence symbols).seq (f.sequence rest)) := by
  induction symbols with
  | nil => exact ⟨fun t member => by simpa [sequence] using member,
      fun nullable => by simpa [sequence] using nullable⟩
  | cons s symbols ih =>
      refine ((FirstSet.Within.refl (f.symbol s)).seq ih).trans ⟨fun t member => ?_, ?_⟩
      · simp only [sequence, FirstSet.mem_terminals_seq, FirstSet.nullable_seq,
          Bool.and_eq_true] at member ⊢
        tauto
      · simp only [sequence, FirstSet.nullable_seq, Bool.and_assoc]
        exact id

theorem sequence_within_of_rewrites (wf : g.WellFormed) {symbols form : List Symbol}
    (h : g.Rewrites symbols form) :
    ((ofGrammar g).sequence form).Within ((ofGrammar g).sequence symbols) := by
  cases h with
  | @rule p production before after rule =>
      induction before with
      | nil =>
          have split := sequence_append_within (ofGrammar g) production.rhs after
          exact split.trans ((sequence_within wf rule).seq (.refl _))
      | cons s before ih => exact (FirstSet.Within.refl _).seq ih

theorem sequence_within_of_derivesForm (wf : g.WellFormed) {symbols form : List Symbol}
    (h : g.DerivesForm symbols form) :
    ((ofGrammar g).sequence form).Within ((ofGrammar g).sequence symbols) := by
  induction h with
  | refl => exact .refl _
  | tail _ step ih => exact (sequence_within_of_rewrites wf step).trans ih

theorem mem_sequence_iff (wf : g.WellFormed) {symbols : List Symbol} {t : Nat} :
    t ∈ ((ofGrammar g).sequence symbols).terminals ↔
      ∃ form, g.DerivesForm symbols (.terminal t :: form) := by
  constructor
  · intro member
    exact (leads_of_mem (sound_ofGrammar g) member).exists_derivesForm
  · intro ⟨form, derives⟩
    apply (sequence_within_of_derivesForm wf derives).terminals
    simp [sequence, symbol]

theorem nullable_sequence_iff (wf : g.WellFormed) {symbols : List Symbol} :
    ((ofGrammar g).sequence symbols).nullable = true ↔ g.DerivesForm symbols [] := by
  constructor
  · intro nullable
    obtain ⟨values, derives⟩ := exists_derives_of_nullable (sound_ofGrammar g) nullable
    exact derives.derivesForm_nil rfl
  · intro derives
    exact (sequence_within_of_derivesForm wf derives).nullable rfl

/-- The rounds end, and they leave for every nonterminal, and so for every row of symbols, the
    terminals that its sentential forms begin with and whether the empty form is one of them. -/
theorem first_exact {goal : String} {rules : List Rule} {nonterminals terminals : List String}
    (ofRules : Grammar.ofRules goal rules nonterminals terminals = .ok g) :
    ComesToRest (step g) (start g) (ofGrammar g) ∧
    (∀ n t, t ∈ (ofGrammar g).first n ↔
      ∃ form, g.DerivesForm [.nonterminal n] (.terminal t :: form)) ∧
    (∀ n, (ofGrammar g).nullable n = true ↔ g.DerivesForm [.nonterminal n] []) ∧
    ∀ symbols next y, y ∈ (ofGrammar g).firstOf symbols next ↔
      (∃ t form, y = .terminal t ∧ g.DerivesForm symbols (.terminal t :: form)) ∨
        (y = next ∧ g.DerivesForm symbols []) := by
  have wf := Grammar.ofRules_wellFormed ofRules
  refine ⟨comesToRest_stabilize (step_ofGrammar wf), ?_, ?_, ?_⟩
  · intro n t
    rw [← mem_sequence_iff wf]
    simp [sequence, symbol, first]
  · intro n
    rw [← nullable_sequence_iff wf]
    simp [sequence, symbol, nullable]
  · intro symbols next y
    rw [mem_firstOf]
    simp only [mem_sequence_iff wf, nullable_sequence_iff wf]
    constructor
    · rintro (⟨t, ⟨form, derives⟩, same⟩ | ⟨derives, same⟩)
      · exact .inl ⟨t, form, same, derives⟩
      · exact .inr ⟨same, derives⟩
    · rintro (⟨t, form, same, derives⟩ | ⟨same, derives⟩)
      · exact .inl ⟨t, ⟨form, derives⟩, same⟩
      · exact .inr ⟨derives, same⟩

/-- Nested parentheses begin with a bracket or are empty. -/
theorem first_exact_parens :
    (∃ form, Grammar.parens.DerivesForm [.nonterminal 0] (.terminal 0 :: form)) ∧
      Grammar.parens.DerivesForm [.nonterminal 0] [] := by
  obtain ⟨-, first, nullable, -⟩ := first_exact Grammar.ofRules_parens
  exact ⟨(first 0 0).1 (by decide +kernel), (nullable 0).1 (by decide +kernel)⟩

end FirstSets

end Assembler
