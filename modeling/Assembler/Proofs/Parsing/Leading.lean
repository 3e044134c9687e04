import Assembler.Proofs.Parsing.Derivation

/-! # FIRST sets promise nothing else

What a FIRST set holds was put there by a production: a nullable nonterminal derives the empty word,
and a terminal of its set leads one of its right-hand sides. Rounds start from empty sets, so this
is kept from one round to the next.
-/

namespace Assembler

/-- A terminal that comes first in symbols once those in front of it have vanished. Nothing is said
    about the symbols behind it, which may derive no word at all. -/
inductive Grammar.Leads (g : Grammar) : List Symbol → Nat → Prop where
  | terminal {t : Nat} {symbols : List Symbol} : Leads g (.terminal t :: symbols) t
  | inside {p t : Nat} {production : Production} {symbols : List Symbol}
      (rule : g.productions[p]? = some production) (inner : Leads g production.rhs t) :
      Leads g (.nonterminal production.lhs :: symbols) t
  | behind {p t : Nat} {production : Production} {symbols : List Symbol} {values : List Derivation}
      (rule : g.productions[p]? = some production)
      (vanishes : Derivation.reading.Derives g production.rhs [] values)
      (rest : Leads g symbols t) : Leads g (.nonterminal production.lhs :: symbols) t

variable {g : Grammar}

/-- A set for a nonterminal that its productions account for. -/
structure FirstSet.Sound (g : Grammar) (n : Nat) (set : FirstSet) : Prop where
  vanishes : set.nullable = true → ∃ (p : Nat) (production : Production) (values : List Derivation),
    g.productions[p]? = some production ∧ production.lhs = n ∧
      Derivation.reading.Derives g production.rhs [] values
  leads : ∀ t ∈ set.terminals, ∃ (p : Nat) (production : Production),
    g.productions[p]? = some production ∧ production.lhs = n ∧ g.Leads production.rhs t

theorem FirstSet.sound_empty (n : Nat) : FirstSet.empty.Sound g n :=
  ⟨by simp [empty], fun _ member => absurd member SortedSet.not_mem_empty⟩

theorem FirstSet.Sound.union {n : Nat} {a b : FirstSet} (ha : a.Sound g n) (hb : b.Sound g n) :
    (a.union b).Sound g n := by
  constructor
  · intro nullable
    rcases Bool.or_eq_true_iff.1 nullable with left | right
    · exact ha.vanishes left
    · exact hb.vanishes right
  · intro t member
    rcases SortedSet.mem_union.1 member with left | right
    · exact ha.leads t left
    · exact hb.leads t right

namespace FirstSets

theorem exists_derives_of_nullable {f : FirstSets} (sound : ∀ n, (f.get n).Sound g n)
    {symbols : List Symbol} (nullable : (f.sequence symbols).nullable = true) :
    ∃ values, Derivation.reading.Derives g symbols [] values := by
  induction symbols with
  | nil => exact ⟨[], .nil⟩
  | cons s symbols ih =>
      rw [sequence, FirstSet.nullable_seq, Bool.and_eq_true] at nullable
      obtain ⟨values, rest⟩ := ih nullable.2
      cases s with
      | terminal t => cases nullable.1
      | nonterminal n =>
          obtain ⟨p, production, children, rule, rfl, inner⟩ := (sound n).vanishes nullable.1
          exact ⟨_, .node rule inner rest⟩

theorem leads_of_mem {f : FirstSets} (sound : ∀ n, (f.get n).Sound g n) {symbols : List Symbol}
    {t : Nat} (member : t ∈ (f.sequence symbols).terminals) : g.Leads symbols t := by
  induction symbols with
  | nil => exact absurd member SortedSet.not_mem_empty
  | cons s symbols ih =>
      rw [sequence, FirstSet.mem_terminals_seq] at member
      cases s with
      | terminal x =>
          rcases member with here | ⟨vanishes, -⟩
          · obtain rfl := List.mem_singleton.1 (SortedSet.mem_ofList.1 here)
            exact .terminal
          · cases vanishes
      | nonterminal n =>
          rcases member with here | ⟨vanishes, later⟩
          · obtain ⟨p, production, rule, rfl, inner⟩ := (sound n).leads t here
            exact .inside rule inner
          · obtain ⟨p, production, children, rule, rfl, inner⟩ := (sound n).vanishes vanishes
            exact .behind rule inner (ih later)

theorem sound_step {f : FirstSets} (sound : ∀ n, (f.get n).Sound g n) (n : Nat) :
    ((step g f).get n).Sound g n := by
  cases found : f.sets[n]? with
  | none =>
      have outside : (step g f).get n = .empty := by simp [get, step, found]
      rw [outside]
      exact FirstSet.sound_empty n
  | some set =>
      have filled : (step g f).get n = (g.productionsOf n).foldl
          (fun acc p => acc.union (f.sequence (g.rhs p))) set := by simp [get, step, found]
      have before : set.Sound g n := by simpa [get, found] using sound n
      rw [filled]
      refine List.foldlRecOn (g.productionsOf n) _ before ?_
      intro acc kept p member
      obtain ⟨production, rule, lhs⟩ := Grammar.mem_productionsOf.1 member
      rw [Grammar.rhs_eq rule]
      refine kept.union ⟨?_, ?_⟩
      · intro nullable
        obtain ⟨values, derives⟩ := exists_derives_of_nullable sound nullable
        exact ⟨p, production, values, rule, lhs, derives⟩
      · intro t first
        exact ⟨p, production, rule, lhs, leads_of_mem sound first⟩

/-- The FIRST sets of a grammar hold nothing that its productions do not account for. -/
theorem sound_ofGrammar (g : Grammar) (n : Nat) : ((ofGrammar g).get n).Sound g n := by
  refine stabilize_preserves (P := fun f : FirstSets => ∀ n, (f.get n).Sound g n)
    (fun _ => sound_step) _ ?_ n
  intro n
  have empty : (start g).get n = .empty := by
    simp only [start, get, List.getD_eq_getElem?_getD, List.getElem?_map]
    cases g.nonterminals[n]? <;> rfl
  rw [empty]
  exact FirstSet.sound_empty n

end FirstSets

theorem Grammar.Leads.mem_first (wf : g.WellFormed) {symbols : List Symbol} {t : Nat}
    (h : g.Leads symbols t) : t ∈ ((FirstSets.ofGrammar g).sequence symbols).terminals := by
  induction h with
  | terminal => simp [FirstSets.sequence, FirstSets.symbol]
  | inside rule _ ih =>
      have within := FirstSets.sequence_within wf rule
      exact FirstSet.mem_terminals_seq.2 (.inl (within.terminals _ ih))
  | behind rule vanishes _ ih =>
      have within := FirstSets.sequence_within wf rule
      have nullable := within.nullable ((vanishes.first wf).1 rfl)
      exact FirstSet.mem_terminals_seq.2 (.inr ⟨nullable, ih⟩)

end Assembler
