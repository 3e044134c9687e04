import Assembler.Program.Builder
import Assembler.Proofs.Collections.SortedMap
import Mathlib.Algebra.Group.Int.Defs

/-! # Which lines make an assembly

A source is read as groups of lines, each between a directive that opens a section and one that
closes it, with nothing but blank lines outside. A builder knows less: at any time it has a section
that grows and labels that wait, and it does not know yet which operation will bind them. All of
them bind a label at the same place, behind the statements that the section has now, so a waiting
label can be given its site at once.
-/

namespace Assembler

/-- The lines between the directives that open and close a section. -/
structure Group where
  start : UInt32
  line : Nat
  body : List (Nat × LineContents)

namespace Builder

/-- Add lines up to the first error and end the source. -/
def run (b : Builder) (lines : List (Nat × LineContents)) : Except SemanticError Assembly :=
  match b.pushAll lines with
  | .error e _ => .error e
  | .ok () b => b.finish

/-- The assembly of the contents of lines. -/
def build (policy : SectionPolicy) (lines : List (Nat × LineContents)) :
    Except SemanticError Assembly :=
  (start policy).run lines

end Builder

/-- A line that opens or closes a section. -/
def LineContents.Delimits (opening closing : String) (c : LineContents) : Prop :=
  ∃ d, c.statement? = some (.directive d) ∧ (d.op = opening ∨ d.op = closing)

/-- Lines that are groups with blank lines around them. The directive that opens a group has an
    address of 32 bits, the one that closes it has no operand, and neither has a label. -/
inductive Sectioned (opening closing : String) : List (Nat × LineContents) → List Group → Prop where
  | nil : Sectioned opening closing [] []
  | blank {n : Nat} {rest : List (Nat × LineContents)} {groups : List Group}
      (behind : Sectioned opening closing rest groups) :
      Sectioned opening closing ((n, ⟨[], none⟩) :: rest) groups
  | group {n m l l' : Nat} {address : Int} {body rest : List (Nat × LineContents)}
      {groups : List Group} (range : 0 ≤ address ∧ address < 2 ^ 32)
      (inside : ∀ line ∈ body, ¬line.2.Delimits opening closing)
      (behind : Sectioned opening closing rest groups) :
      Sectioned opening closing
        ((n, ⟨[], some (.directive ⟨opening, some (.integer address), l⟩)⟩) ::
          (body ++ (m, ⟨[], some (.directive ⟨closing, none, l'⟩)⟩) :: rest))
        (⟨UInt32.ofNat address.toNat, n, body⟩ :: groups)

namespace Group

def labelsOf (lines : List (Nat × LineContents)) : List String := lines.flatMap (·.2.labels)

def statementsOf (lines : List (Nat × LineContents)) : List Statement :=
  lines.filterMap (·.2.statement?)

def toSection (g : Group) : Section := ⟨g.start, statementsOf g.body, g.line⟩

/-- A label stands on a line of a group, behind the statements of the lines before it. -/
def Defines (groups : List Group) (label : String) (site : Site) : Prop :=
  ∃ g j line, groups[site.sectionIndex]? = some g ∧ g.body[j]? = some line ∧
    label ∈ line.2.labels ∧ site.index = (statementsOf (g.body.take j)).length

/-- The labels of lines with their sites, if `i` statements of section `k` come before them. -/
def sites (k i : Nat) : List (Nat × LineContents) → List (String × Site)
  | [] => []
  | line :: rest =>
      line.2.labels.map (·, ⟨k, i⟩) ++ sites k (i + line.2.statement?.toList.length) rest

/-- The labels of groups with their sites, if `k` sections come before them. -/
def sitesFrom (k : Nat) : List Group → List (String × Site)
  | [] => []
  | g :: groups => sites k 0 g.body ++ sitesFrom (k + 1) groups

def assembly (groups : List Group) : Assembly :=
  ⟨groups.map toSection, .ofList (sitesFrom 0 groups)⟩

theorem statementsOf_cons (line : Nat × LineContents) (rest : List (Nat × LineContents)) :
    statementsOf (line :: rest) = line.2.statement?.toList ++ statementsOf rest := by
  unfold statementsOf
  cases h : line.2.statement? <;> simp [h]

theorem mem_sites {k i : Nat} {lines : List (Nat × LineContents)} {label : String} {site : Site} :
    (label, site) ∈ sites k i lines ↔ site.sectionIndex = k ∧ ∃ j line, lines[j]? = some line ∧
      label ∈ line.2.labels ∧ site.index = i + (statementsOf (lines.take j)).length := by
  induction lines generalizing i with
  | nil => simp [sites]
  | cons first rest ih =>
      simp only [sites, List.mem_append, List.mem_map, Prod.mk.injEq, ih]
      constructor
      · rintro (⟨_, member, rfl, rfl⟩ | ⟨same, j, line, found, member, count⟩)
        · exact ⟨rfl, 0, first, rfl, member, rfl⟩
        · refine ⟨same, j + 1, line, found, member, ?_⟩
          rw [List.take_succ_cons, statementsOf_cons, List.length_append]
          omega
      · rintro ⟨same, j, line, found, member, count⟩
        cases j with
        | zero =>
            cases found
            left
            exact ⟨label, member, rfl, by cases site; simp_all [statementsOf]⟩
        | succ j =>
            right
            refine ⟨same, j, line, found, member, ?_⟩
            rw [List.take_succ_cons, statementsOf_cons, List.length_append] at count
            omega

theorem mem_sitesFrom {k : Nat} {groups : List Group} {label : String} {site : Site} :
    (label, site) ∈ sitesFrom k groups ↔ k ≤ site.sectionIndex ∧
      Defines groups label ⟨site.sectionIndex - k, site.index⟩ := by
  induction groups generalizing k with
  | nil => simp [sitesFrom, Defines]
  | cons g groups ih =>
      simp only [sitesFrom, List.mem_append, mem_sites, ih, Nat.zero_add]
      constructor
      · rintro (⟨rfl, j, line, found, member, count⟩ | ⟨above, h, j, line, other, rest⟩)
        · exact ⟨Nat.le_refl _, g, j, line, by simp, found, member, count⟩
        · refine ⟨by omega, h, j, line, ?_, rest⟩
          have next : site.sectionIndex - k = site.sectionIndex - (k + 1) + 1 := by omega
          rw [next]
          exact other
      · rintro ⟨above, h, j, line, here, found, member, count⟩
        by_cases same : site.sectionIndex = k
        · left
          simp only [same, Nat.sub_self, List.getElem?_cons_zero, Option.some.injEq] at here
          subst here
          exact ⟨same, j, line, found, member, count⟩
        · right
          have next : site.sectionIndex - k = site.sectionIndex - (k + 1) + 1 := by omega
          simp only [next, List.getElem?_cons_succ] at here
          exact ⟨by omega, h, j, line, here, found, member, count⟩

theorem map_fst_sites (k i : Nat) (lines : List (Nat × LineContents)) :
    (sites k i lines).map (·.1) = labelsOf lines := by
  induction lines generalizing i with
  | nil => rfl
  | cons line rest ih => simp [sites, ih, labelsOf, Function.comp_def]

theorem map_fst_sitesFrom (k : Nat) (groups : List Group) :
    (sitesFrom k groups).map (·.1) = groups.flatMap fun g => labelsOf g.body := by
  induction groups generalizing k with
  | nil => rfl
  | cons g groups ih => simp [sitesFrom, ih, map_fst_sites]

theorem get?_assembly {groups : List Group}
    (distinct : (groups.flatMap fun g => labelsOf g.body).Nodup) {label : String} {site : Site} :
    (assembly groups).labels.get? label = some site ↔ Defines groups label site := by
  rw [assembly, SortedMap.get?_ofList (by rwa [map_fst_sitesFrom]), mem_sitesFrom]
  simp

end Group

/-- Lines that end an open section: its body, the directive that closes it, and more groups. -/
def Enclosed (opening closing : String) (lines body : List (Nat × LineContents))
    (groups : List Group) : Prop :=
  ∃ m l rest, lines = body ++ (m, ⟨[], some (.directive ⟨closing, none, l⟩)⟩) :: rest ∧
    (∀ line ∈ body, ¬line.2.Delimits opening closing) ∧ Sectioned opening closing rest groups

section Lines

variable {opening closing : String} {n : Nat} {c : LineContents}
  {lines body : List (Nat × LineContents)} {groups : List Group}

theorem sectioned_nil : Sectioned opening closing [] groups ↔ groups = [] := by
  constructor
  · intro h
    cases h
    rfl
  · rintro rfl
    exact .nil

theorem sectioned_cons : Sectioned opening closing ((n, c) :: lines) groups ↔
    (c = ⟨[], none⟩ ∧ Sectioned opening closing lines groups) ∨
    ∃ address l body behind,
      c = ⟨[], some (.directive ⟨opening, some (.integer address), l⟩)⟩ ∧
      (0 ≤ address ∧ address < 2 ^ 32) ∧ Enclosed opening closing lines body behind ∧
      groups = ⟨UInt32.ofNat address.toNat, n, body⟩ :: behind := by
  constructor
  · intro h
    cases h with
    | blank behind => exact .inl ⟨rfl, behind⟩
    | group range inside behind =>
        exact .inr ⟨_, _, _, _, rfl, range, ⟨_, _, _, rfl, inside, behind⟩, rfl⟩
  · rintro (⟨rfl, behind⟩ | ⟨_, _, _, _, rfl, range, ⟨_, _, _, rfl, inside, behind⟩, rfl⟩)
    · exact .blank behind
    · exact .group range inside behind

theorem not_enclosed_nil : ¬Enclosed opening closing [] body groups := by
  rintro ⟨m, l, rest, same, _⟩
  simp at same

theorem enclosed_cons : Enclosed opening closing ((n, c) :: lines) body groups ↔
    (body = [] ∧ ∃ l, c = ⟨[], some (.directive ⟨closing, none, l⟩)⟩ ∧
      Sectioned opening closing lines groups) ∨
    ∃ more, body = (n, c) :: more ∧ ¬c.Delimits opening closing ∧
      Enclosed opening closing lines more groups := by
  constructor
  · rintro ⟨m, l, rest, same, inside, behind⟩
    cases body with
    | nil =>
        cases same
        exact .inl ⟨rfl, l, rfl, behind⟩
    | cons first more =>
        cases same
        rw [List.forall_mem_cons] at inside
        exact .inr ⟨more, rfl, inside.1, m, l, rest, rfl, inside.2, behind⟩
  · rintro (⟨rfl, l, rfl, behind⟩ | ⟨more, rfl, plain, m, l, rest, rfl, inside, behind⟩)
    · exact ⟨n, l, lines, rfl, by simp, behind⟩
    · exact ⟨m, l, rest, rfl, List.forall_mem_cons.2 ⟨plain, inside⟩, behind⟩

end Lines

theorem Sectioned.labelsOf {opening closing : String} {lines : List (Nat × LineContents)}
    {groups : List Group} (h : Sectioned opening closing lines groups) :
    Group.labelsOf lines = groups.flatMap fun g => Group.labelsOf g.body := by
  unfold Group.labelsOf
  induction h with
  | nil => rfl
  | blank _ ih => simpa using ih
  | group _ _ _ ih => simp [ih]

namespace Builder

/-- Labels that can be defined one after another. -/
def Fresh (defined : SortedSet String) (labels : List String) : Prop :=
  labels.Nodup ∧ ∀ label ∈ labels, label ∉ defined

theorem fresh_cons {defined : SortedSet String} {label : String} {labels : List String} :
    Fresh defined (label :: labels) ↔ label ∉ defined ∧ Fresh (defined.insert label) labels := by
  simp only [Fresh, List.nodup_cons, List.mem_cons, forall_eq_or_imp, SortedSet.mem_insert, not_or]
  constructor
  · rintro ⟨⟨new, distinct⟩, absent, others⟩
    exact ⟨absent, distinct, fun x member => ⟨fun same => new (same ▸ member), others x member⟩⟩
  · rintro ⟨absent, distinct, others⟩
    exact ⟨⟨fun member => (others _ member).1 rfl, distinct⟩, absent, fun x member =>
      (others x member).2⟩

theorem fresh_append {defined : SortedSet String} {labels more : List String} :
    Fresh defined (labels ++ more) ↔ Fresh defined labels ∧
      Fresh (defined.insertAll labels) more := by
  induction labels generalizing defined with
  | nil => simp [Fresh, SortedSet.insertAll]
  | cons label labels ih =>
      rw [List.cons_append, fresh_cons, fresh_cons, ih, and_assoc]
      rfl

/-- A builder after labels that wait for a statement. -/
def withLabels (b : Builder) (labels : List String) : Builder :=
  { b with defined := b.defined.insertAll labels, pending := b.pending ++ labels }

theorem addLabels_eq_ok {b b' : Builder} {line : Nat} {labels : List String} :
    addLabels line labels b = .ok () b' ↔ (b.opened? = none → labels = []) ∧
      Fresh b.defined labels ∧ b' = b.withLabels labels := by
  induction labels generalizing b with
  | nil =>
      have same : b.withLabels [] = b := by simp [withLabels, SortedSet.insertAll]
      simp [addLabels, Fresh, same, eq_comm (a := b)]
  | cons label labels ih =>
      rw [addLabels, fresh_cons]
      split
      · next closed => simp_all
      · next opened =>
          split
          · next known => simp [known]
          · next new =>
              rw [ih]
              simp_all [withLabels, SortedSet.insertAll]

theorem appendStatement_append (s : Statement) (done : List Section) (last : Section) :
    appendStatement s (done ++ [last]) =
      done ++ [{ last with statements := last.statements ++ [s] }] := by
  induction done with
  | nil => rfl
  | cons x done ih =>
      cases done with
      | nil => rfl
      | cons y done => exact congrArg (x :: ·) ih

/-- Bind labels to their sites. -/
def enter (labels : SortedMap String Site) (sites : List (String × Site)) : SortedMap String Site :=
  sites.foldl (fun labels entry => labels.insert entry.1 entry.2) labels

theorem enter_append (labels : SortedMap String Site) (sites more : List (String × Site)) :
    enter labels (sites ++ more) = enter (enter labels sites) more :=
  List.foldl_append

/-- A builder outside of any section. -/
def outside (opening closing : String) (done : List Section) (labels : SortedMap String Site)
    (defined : SortedSet String) : Builder :=
  ⟨.explicit opening closing, ⟨done, labels⟩, none, [], defined⟩

/-- A builder whose last section is open. -/
def inside (policy : SectionPolicy) (done : List Section) (last : Section) (line : Nat)
    (labels : SortedMap String Site) (pending : List String) (defined : SortedSet String) :
    Builder :=
  ⟨policy, ⟨done ++ [last], labels⟩, some line, pending, defined⟩

/-- A builder with an open section, after a plain line. -/
def after (policy : SectionPolicy) (done : List Section) (last : Section) (line : Nat)
    (labels : SortedMap String Site) (pending : List String) (defined : SortedSet String)
    (c : LineContents) : Builder :=
  match c.statement? with
  | none => inside policy done last line labels (pending ++ c.labels) (defined.insertAll c.labels)
  | some s =>
      inside policy done { last with statements := last.statements ++ [s] } line
        (enter labels ((pending ++ c.labels).map (·, ⟨done.length, last.statements.length⟩)))
        [] (defined.insertAll c.labels)

section Steps

variable {policy : SectionPolicy} {opening closing : String} {done : List Section} {last : Section}
  {line n : Nat} {labels : SortedMap String Site} {pending : List String}
  {defined : SortedSet String} {c : LineContents} {b' : Builder}

theorem bindPending_inside :
    (inside policy done last line labels pending defined).bindPending =
      inside policy done last line
        (enter labels (pending.map (·, ⟨done.length, last.statements.length⟩))) [] defined := by
  simp [bindPending, inside, nextSite, enter, List.foldl_map]

theorem addContents_inside :
    (inside policy done last line labels pending defined).addContents n c = .ok () b' ↔
      Fresh defined c.labels ∧ b' = after policy done last line labels pending defined c := by
  obtain ⟨names, statement?⟩ := c
  have added : ∀ b', addLabels n names (inside policy done last line labels pending defined) =
      .ok () b' ↔ Fresh defined names ∧
        b' = inside policy done last line labels (pending ++ names) (defined.insertAll names) := by
    intro b'
    rw [addLabels_eq_ok]
    simp [inside, withLabels]
  unfold addContents
  by_cases fresh : Fresh defined names
  · rw [(added _).2 ⟨fresh, rfl⟩]
    cases statement? with
    | none => simp [fresh, after, eq_comm]
    | some s =>
        simp only [addStatement, bindPending_inside]
        simp [inside, after, appendStatement_append, fresh, eq_comm]
  · cases result : addLabels n names (inside policy done last line labels pending defined) with
    | error e b => simp [fresh]
    | ok u b => exact absurd ((added b).1 result).1 fresh

theorem addContents_outside :
    (outside opening closing done labels defined).addContents n c = .ok () b' ↔
      c = ⟨[], none⟩ ∧ b' = outside opening closing done labels defined := by
  obtain ⟨names, statement?⟩ := c
  unfold addContents
  cases names with
  | nil =>
      cases statement? with
      | none => simp [addLabels, eq_comm]
      | some s => cases s <;> simp [addLabels, addStatement, outside]
  | cons name names => simp [addLabels, outside]

theorem push_plain {b : Builder} (explicit : b.policy = .explicit opening closing)
    (plain : ¬c.Delimits opening closing) : b.push n c = b.addContents n c := by
  unfold push
  rw [explicit]
  split
  · next same statement =>
      cases same
      have other : ¬(_ ∨ _) := fun delimits => plain ⟨_, statement, delimits⟩
      rw [if_neg fun h => other (.inl h), if_neg fun h => other (.inr h)]
  · rfl

/-- What the directive that opens a section needs, and what it does. -/
theorem push_opening {b : Builder} {names : List String} {operand? : Option Operand} {l : Nat}
    (explicit : b.policy = .explicit opening closing) :
    b.push n ⟨names, some (.directive ⟨opening, operand?, l⟩)⟩ = .ok () b' ↔
      names = [] ∧ b.opened? = none ∧ ∃ address, operand? = some (.integer address) ∧
        (0 ≤ address ∧ address < 2 ^ 32) ∧
        b' = { b with
          assembly := ⟨b.assembly.sections ++ [⟨UInt32.ofNat address.toNat, [], n⟩],
            b.assembly.labels⟩
          opened? := some n } := by
  simp only [push, explicit, if_true, openSection]
  cases names with
  | cons name names => simp
  | nil =>
      cases opened : b.opened? with
      | some outer => simp
      | none =>
          rcases operand? with _ | (_ | address | _ | _)
          case some.integer =>
            by_cases range : 0 ≤ address ∧ address < 4294967296
            · simp [range, UInt32.size, eq_comm]
            · simp [range, UInt32.size]
          all_goals simp

theorem push_closing {b : Builder} {names : List String} {operand? : Option Operand} {l : Nat}
    (explicit : b.policy = .explicit opening closing) (different : opening ≠ closing) :
    b.push n ⟨names, some (.directive ⟨closing, operand?, l⟩)⟩ = .ok () b' ↔
      names = [] ∧ operand? = none ∧ b.opened? ≠ none ∧
        b' = { b.bindPending with opened? := none } := by
  simp only [push, explicit, if_neg different.symm, if_true, closeSection]
  cases names with
  | cons name names => simp
  | nil =>
      cases operand? with
      | some operand => simp
      | none => cases b.opened? <;> simp [eq_comm]

theorem push_outside (different : opening ≠ closing) :
    (outside opening closing done labels defined).push n c = .ok () b' ↔
      (c = ⟨[], none⟩ ∧ b' = outside opening closing done labels defined) ∨
      ∃ address l, c = ⟨[], some (.directive ⟨opening, some (.integer address), l⟩)⟩ ∧
        (0 ≤ address ∧ address < 2 ^ 32) ∧ b' = inside (.explicit opening closing) done
          ⟨UInt32.ofNat address.toNat, [], n⟩ n labels [] defined := by
  by_cases delimits : c.Delimits opening closing
  · obtain ⟨names, statement?⟩ := c
    obtain ⟨⟨op, operand?, l⟩, rfl, rfl | rfl⟩ := delimits
    · rw [push_opening rfl]
      simp [outside, inside, and_assoc]
    · rw [push_closing rfl different]
      simp [outside, different.symm]
  · rw [push_plain rfl delimits, addContents_outside]
    constructor
    · exact .inl
    · rintro (blank | ⟨address, l, rfl, _⟩)
      · exact blank
      · exact absurd ⟨_, rfl, .inl rfl⟩ delimits

theorem push_inside (different : opening ≠ closing) :
    (inside (.explicit opening closing) done last line labels pending defined).push n c =
        .ok () b' ↔
      (∃ l, c = ⟨[], some (.directive ⟨closing, none, l⟩)⟩ ∧
        b' = outside opening closing (done ++ [last])
          (enter labels (pending.map (·, ⟨done.length, last.statements.length⟩))) defined) ∨
      ¬c.Delimits opening closing ∧
        (inside (.explicit opening closing) done last line labels pending defined).addContents n c =
          .ok () b' := by
  by_cases delimits : c.Delimits opening closing
  · have unplain : ¬¬c.Delimits opening closing := not_not.2 delimits
    simp only [unplain, false_and, or_false]
    obtain ⟨names, statement?⟩ := c
    obtain ⟨⟨op, operand?, l⟩, rfl, rfl | rfl⟩ := delimits
    · rw [push_opening rfl]
      simp [inside, different]
    · rw [push_closing rfl different, bindPending_inside]
      simp [inside, outside, and_assoc]
  · rw [push_plain rfl delimits]
    constructor
    · intro added
      exact .inr ⟨delimits, added⟩
    · rintro (⟨l, rfl, _⟩ | ⟨_, added⟩)
      · exact absurd ⟨_, rfl, .inr rfl⟩ delimits
      · exact added

end Steps

theorem run_cons {b : Builder} {n : Nat} {c : LineContents} {lines : List (Nat × LineContents)}
    {asm : Assembly} : b.run ((n, c) :: lines) = .ok asm ↔
      ∃ b', b.push n c = .ok () b' ∧ b'.run lines = .ok asm := by
  rw [run, pushAll]
  cases b.push n c with
  | error e b => simp
  | ok u b => simp [run]

/-- What groups add to sections that are complete. -/
def extend (done : List Section) (labels : SortedMap String Site) (groups : List Group) :
    Assembly :=
  ⟨done ++ groups.map Group.toSection, enter labels (Group.sitesFrom done.length groups)⟩

/-- What the rest of an open section and the groups behind it add. -/
def complete (done : List Section) (last : Section) (labels : SortedMap String Site)
    (pending : List String) (body : List (Nat × LineContents)) (groups : List Group) : Assembly :=
  extend (done ++ [{ last with statements := last.statements ++ Group.statementsOf body }])
    (enter labels (pending.map (·, ⟨done.length, last.statements.length⟩) ++
      Group.sites done.length last.statements.length body)) groups

theorem extend_cons {done : List Section} {labels : SortedMap String Site} {start : UInt32}
    {line : Nat} {body : List (Nat × LineContents)} {groups : List Group} :
    extend done labels (⟨start, line, body⟩ :: groups) =
      complete done ⟨start, [], line⟩ labels [] body groups := by
  simp [extend, complete, Group.toSection, Group.sitesFrom, enter_append]

theorem complete_nil {done : List Section} {last : Section} {labels : SortedMap String Site}
    {pending : List String} {groups : List Group} :
    complete done last labels pending [] groups = extend (done ++ [last])
      (enter labels (pending.map (·, ⟨done.length, last.statements.length⟩))) groups := by
  simp [complete, Group.sites, Group.statementsOf]

theorem complete_cons {done : List Section} {last : Section} {labels : SortedMap String Site}
    {pending : List String} {n : Nat} {c : LineContents} {body : List (Nat × LineContents)}
    {groups : List Group} : complete done last labels pending ((n, c) :: body) groups =
      match c.statement? with
      | none => complete done last labels (pending ++ c.labels) body groups
      | some s => complete done { last with statements := last.statements ++ [s] }
          (enter labels ((pending ++ c.labels).map (·, ⟨done.length, last.statements.length⟩)))
          [] body groups := by
  cases statement : c.statement? <;>
    simp [complete, Group.statementsOf_cons, Group.sites, statement, enter_append]

section Runs

open Assembler.Group

variable {opening closing : String} {n : Nat} {c : LineContents} {lines : List (Nat × LineContents)}
  {done : List Section} {last : Section} {line : Nat} {labels : SortedMap String Site}
  {pending : List String} {defined : SortedSet String} {asm : Assembly}

-- A line that opens or closes a section changes the side, so each step needs the runs of both.
variable (different : opening ≠ closing)
  (closed : ∀ {done labels defined asm},
    (outside opening closing done labels defined).run lines = .ok asm ↔
      ∃ groups, Sectioned opening closing lines groups ∧ Fresh defined (labelsOf lines) ∧
        asm = extend done labels groups)
  (opened : ∀ {done last line labels pending defined asm},
    (inside (.explicit opening closing) done last line labels pending defined).run lines =
        .ok asm ↔
      ∃ body groups, Enclosed opening closing lines body groups ∧
        Fresh defined (labelsOf lines) ∧ asm = complete done last labels pending body groups)
include different closed opened

theorem run_outside_cons :
    (outside opening closing done labels defined).run ((n, c) :: lines) = .ok asm ↔
      ∃ groups, Sectioned opening closing ((n, c) :: lines) groups ∧
        Fresh defined (labelsOf ((n, c) :: lines)) ∧ asm = extend done labels groups := by
  have together : labelsOf ((n, c) :: lines) = c.labels ++ labelsOf lines := rfl
  simp only [together, run_cons, push_outside different, sectioned_cons]
  constructor
  · rintro ⟨_, ⟨rfl, rfl⟩ | ⟨address, l, rfl, range, rfl⟩, behind⟩
    · obtain ⟨groups, sectioned, fresh, rfl⟩ := closed.1 behind
      exact ⟨groups, .inl ⟨rfl, sectioned⟩, fresh, rfl⟩
    · obtain ⟨body, groups, enclosed, fresh, rfl⟩ := opened.1 behind
      exact ⟨_, .inr ⟨address, l, body, groups, rfl, range, enclosed, rfl⟩, fresh,
        extend_cons.symm⟩
  · rintro ⟨groups, ⟨rfl, sectioned⟩ | ⟨address, l, body, more, rfl, range, enclosed, rfl⟩,
      fresh, rfl⟩
    · exact ⟨_, .inl ⟨rfl, rfl⟩, closed.2 ⟨groups, sectioned, fresh, rfl⟩⟩
    · exact ⟨_, .inr ⟨address, l, rfl, range, rfl⟩,
        opened.2 ⟨body, more, enclosed, fresh, extend_cons⟩⟩

theorem run_inside_cons :
    (inside (.explicit opening closing) done last line labels pending defined).run
        ((n, c) :: lines) = .ok asm ↔
      ∃ body groups, Enclosed opening closing ((n, c) :: lines) body groups ∧
        Fresh defined (labelsOf ((n, c) :: lines)) ∧
        asm = complete done last labels pending body groups := by
  have together : labelsOf ((n, c) :: lines) = c.labels ++ labelsOf lines := rfl
  have added : (after (.explicit opening closing) done last line labels pending defined c).run
      lines = .ok asm ↔ ∃ body groups, Enclosed opening closing lines body groups ∧
        Fresh (defined.insertAll c.labels) (labelsOf lines) ∧
        asm = complete done last labels pending ((n, c) :: body) groups := by
    simp only [after, complete_cons]
    cases c.statement? <;> exact opened
  simp only [together, run_cons, push_inside different, enclosed_cons, addContents_inside]
  constructor
  · rintro ⟨_, ⟨l, rfl, rfl⟩ | ⟨plain, new, rfl⟩, behind⟩
    · obtain ⟨groups, sectioned, fresh, rfl⟩ := closed.1 behind
      exact ⟨[], groups, .inl ⟨rfl, l, rfl, sectioned⟩, fresh, complete_nil.symm⟩
    · obtain ⟨body, groups, enclosed, fresh, rfl⟩ := added.1 behind
      exact ⟨_, groups, .inr ⟨body, rfl, plain, enclosed⟩, fresh_append.2 ⟨new, fresh⟩, rfl⟩
  · rintro ⟨_, groups, ⟨rfl, l, rfl, sectioned⟩ | ⟨body, rfl, plain, enclosed⟩, fresh, rfl⟩
    · exact ⟨_, .inl ⟨l, rfl, rfl⟩, closed.2 ⟨groups, sectioned, fresh, complete_nil⟩⟩
    · obtain ⟨new, fresh⟩ := fresh_append.1 fresh
      exact ⟨_, .inr ⟨plain, new, rfl⟩, added.2 ⟨body, groups, enclosed, fresh, rfl⟩⟩

end Runs

open Assembler.Group in
/-- The runs that succeed, outside of a section and inside of one. -/
theorem run_explicit {opening closing : String} (different : opening ≠ closing)
    (lines : List (Nat × LineContents)) :
    (∀ {done labels defined asm},
      (outside opening closing done labels defined).run lines = .ok asm ↔
        ∃ groups, Sectioned opening closing lines groups ∧ Fresh defined (labelsOf lines) ∧
          asm = extend done labels groups) ∧
    ∀ {done last line labels pending defined asm},
      (inside (.explicit opening closing) done last line labels pending defined).run lines =
          .ok asm ↔
        ∃ body groups, Enclosed opening closing lines body groups ∧
          Fresh defined (labelsOf lines) ∧ asm = complete done last labels pending body groups := by
  induction lines with
  | nil =>
      constructor
      · intro done labels defined asm
        have empty : Fresh defined (labelsOf []) := ⟨.nil, by simp [labelsOf]⟩
        simp [sectioned_nil, empty, run, pushAll, finish, outside, bindPending, extend, enter,
          sitesFrom, eq_comm]
      · intro done last line labels pending defined asm
        simp [not_enclosed_nil, run, pushAll, finish, inside]
  | cons first lines ih =>
      obtain ⟨closed, opened⟩ := ih
      exact ⟨run_outside_cons different closed opened, run_inside_cons different closed opened⟩

/-- Without directives for sections, lines only have to define distinct labels. -/
theorem run_implicit {address : UInt32} {done : List Section} {last : Section} {line : Nat}
    {labels : SortedMap String Site} {pending : List String} {defined : SortedSet String}
    {lines : List (Nat × LineContents)} {asm : Assembly} :
    (inside (.implicit address) done last line labels pending defined).run lines = .ok asm ↔
      Fresh defined (Group.labelsOf lines) ∧ asm = complete done last labels pending lines [] := by
  induction lines generalizing last labels pending defined with
  | nil =>
      have empty : Fresh defined (Group.labelsOf []) := ⟨.nil, by simp [Group.labelsOf]⟩
      rw [run, pushAll, complete_nil]
      simp only [finish, bindPending_inside]
      simp [inside, extend, empty, enter, Group.sitesFrom, eq_comm]
  | cons first lines ih =>
      obtain ⟨n, c⟩ := first
      have together : Group.labelsOf ((n, c) :: lines) = c.labels ++ Group.labelsOf lines := rfl
      have added : (after (.implicit address) done last line labels pending defined c).run lines =
          .ok asm ↔ Fresh (defined.insertAll c.labels) (Group.labelsOf lines) ∧
            asm = complete done last labels pending ((n, c) :: lines) [] := by
        simp only [after, complete_cons]
        cases c.statement? <;> exact ih
      have plain : (inside (.implicit address) done last line labels pending defined).push n c =
          (inside (.implicit address) done last line labels pending defined).addContents n c := rfl
      rw [run_cons, together, fresh_append, plain]
      constructor
      · rintro ⟨_, step, behind⟩
        obtain ⟨new, rfl⟩ := addContents_inside.1 step
        obtain ⟨fresh, rfl⟩ := added.1 behind
        exact ⟨⟨new, fresh⟩, rfl⟩
      · rintro ⟨⟨new, fresh⟩, rfl⟩
        exact ⟨_, addContents_inside.2 ⟨new, rfl⟩, added.2 ⟨fresh, rfl⟩⟩

theorem fresh_empty {labels : List String} : Fresh .empty labels ↔ labels.Nodup := by
  unfold Fresh
  simp

theorem build_explicit {opening closing : String} (different : opening ≠ closing)
    {lines : List (Nat × LineContents)} {asm : Assembly} :
    build (.explicit opening closing) lines = .ok asm ↔
      ∃ groups, Sectioned opening closing lines groups ∧ (Group.labelsOf lines).Nodup ∧
        asm = Group.assembly groups := by
  rw [← fresh_empty]
  exact (run_explicit different lines).1

theorem build_implicit {address : UInt32} {lines : List (Nat × LineContents)} {asm : Assembly} :
    build (.implicit address) lines = .ok asm ↔
      (Group.labelsOf lines).Nodup ∧ asm = Group.assembly [⟨address, 0, lines⟩] := by
  have whole : extend [] .empty [⟨address, 0, lines⟩] =
      complete [] ⟨address, [], 0⟩ .empty [] lines [] := extend_cons
  have started : build (.implicit address) lines =
      (inside (.implicit address) [] ⟨address, [], 0⟩ 0 .empty [] .empty).run lines := rfl
  rw [← fresh_empty, started, run_implicit, ← whole]
  rfl

open Assembler.Group in
/-- Lines make an assembly if and only if they are groups and their labels are distinct, or, where
    no directive divides them, if their labels are distinct. -/
theorem build_succeeds {opening closing : String} (different : opening ≠ closing)
    (address : UInt32) (lines : List (Nat × LineContents)) :
    (((∃ asm, build (.explicit opening closing) lines = .ok asm) ↔
        (∃ groups, Sectioned opening closing lines groups) ∧ (labelsOf lines).Nodup) ∧
      ∀ asm groups, build (.explicit opening closing) lines = .ok asm →
        Sectioned opening closing lines groups → asm.sections = groups.map toSection ∧
          ∀ label site, asm.labels.get? label = some site ↔ Defines groups label site) ∧
    (((∃ asm, build (.implicit address) lines = .ok asm) ↔ (labelsOf lines).Nodup) ∧
      ∀ asm, build (.implicit address) lines = .ok asm →
        asm.sections = [⟨address, statementsOf lines, 0⟩] ∧
          ∀ label site, asm.labels.get? label = some site ↔
            Defines [⟨address, 0, lines⟩] label site) := by
  refine ⟨⟨?_, ?_⟩, ?_, ?_⟩
  · constructor
    · rintro ⟨asm, built⟩
      obtain ⟨groups, sectioned, distinct, _⟩ := (build_explicit different).1 built
      exact ⟨⟨groups, sectioned⟩, distinct⟩
    · rintro ⟨⟨groups, sectioned⟩, distinct⟩
      exact ⟨_, (build_explicit different).2 ⟨groups, sectioned, distinct, rfl⟩⟩
  · intro asm groups built sectioned
    obtain ⟨_, _, distinct, _⟩ := (build_explicit different).1 built
    have same := (build_explicit different).2 ⟨groups, sectioned, distinct, rfl⟩
    cases built.symm.trans same
    rw [sectioned.labelsOf] at distinct
    exact ⟨rfl, fun label site => get?_assembly distinct⟩
  · constructor
    · rintro ⟨asm, built⟩
      exact (build_implicit.1 built).1
    · intro distinct
      exact ⟨_, build_implicit.2 ⟨distinct, rfl⟩⟩
  · intro asm built
    obtain ⟨distinct, rfl⟩ := build_implicit.1 built
    exact ⟨rfl, fun label site => get?_assembly (by simpa using distinct)⟩

/-- Labels before a statement and before the end of a section, and a section without statements. -/
theorem build_succeeds_orig : ∃ asm, build (.explicit "orig" "end")
    [(1, ⟨[], some (.directive ⟨"orig", some (.integer 12288), 1⟩)⟩),
      (2, ⟨["A", "B"], some (.instruction ⟨"halt", [], 2⟩)⟩), (3, ⟨["C"], none⟩),
      (4, ⟨[], some (.directive ⟨"end", none, 4⟩)⟩), (5, ⟨[], none⟩),
      (6, ⟨[], some (.directive ⟨"orig", some (.integer 0), 6⟩)⟩),
      (7, ⟨[], some (.directive ⟨"end", none, 7⟩)⟩)] = .ok asm := by
  apply (build_succeeds (by decide : "orig" ≠ "end") 0 _).1.1.2
  have second : Sectioned "orig" "end" _ _ :=
    @Sectioned.group _ _ 6 7 6 7 0 [] _ _ (by decide) (by simp) .nil
  refine ⟨⟨_, @Sectioned.group _ _ 1 4 1 4 12288 [_, _] _ _ (by decide) ?_ (.blank second)⟩, ?_⟩
  · simp [LineContents.Delimits]
  · decide

end Builder

end Assembler
