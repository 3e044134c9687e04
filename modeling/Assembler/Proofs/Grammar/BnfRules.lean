import Assembler.Proofs.Grammar.BnfTokens
import Assembler.Proofs.Grammar.Rules

/-! # Rules from grammar text

Reading a text gives back the rules it was written from, however they are laid out: a rule between
two semicolons stands for one rule per alternative. Quotes are gone by then, so a quoted name that
also stands on a left-hand side is read as that nonterminal.
-/

namespace Assembler

namespace Bnf

/-- A part of an alternative. -/
inductive Part where
  /-- A symbol by its bare name. -/
  | name (text : String)
  /-- A symbol by its name in quotes. -/
  | quoted (text : String)
  /-- The mark of an empty alternative. -/
  | empty

namespace Part

def token : Part → BnfToken
  | .name s => .name s
  | .quoted s => .quoted s
  | .empty => .empty

/-- The name of the symbol, if it is one. -/
def symbol? : Part → Option String
  | .name s => some s
  | .quoted s => some s
  | .empty => none

end Part

/-- The names of the symbols of an alternative. -/
def symbols (parts : List Part) : List String := parts.filterMap Part.symbol?

/-- What stands behind the arrow: the rest of the current alternative and all that follow it. -/
def closing (first : List Part) (others : List (List Part)) : List BnfToken :=
  first.map Part.token ++
    (others.flatMap (fun parts => .bar :: parts.map Part.token) ++ [.semicolon])

/-- The rules of one name as they are written together: its first alternative and the others. -/
structure Clause where
  /-- The name on the left. -/
  lhs : String
  /-- The first alternative. -/
  first : List Part
  /-- The alternatives behind bars. -/
  others : List (List Part)

namespace Clause

def tokens (clause : Clause) : List BnfToken :=
  .name clause.lhs :: .arrow :: closing clause.first clause.others

def rules (clause : Clause) : List Rule :=
  (clause.first :: clause.others).map fun parts => ⟨clause.lhs, symbols parts⟩

end Clause

/-- A text that the rules are written in. -/
def Writes (rules : List Rule) (text : String) : Prop :=
  ∃ clauses : List Clause, rules = clauses.flatMap Clause.rules ∧
    LaidOut (clauses.flatMap Clause.tokens) text.toList

/-- Located tokens that are these tokens, one and all. -/
def Located (located : List LocatedToken) (tokens : List BnfToken) : Prop :=
  located.map (·.token?) = tokens.map some

/-- The rules of a list of tokens, given the rule that is being read, if one is. -/
inductive Spells : Option Rule → List BnfToken → List Rule → Prop where
  | between (clauses : List Clause) :
      Spells none (clauses.flatMap Clause.tokens) (clauses.flatMap Clause.rules)
  | within (rule : Rule) (first : List Part) (others : List (List Part)) (clauses : List Clause) :
      Spells (some rule) (closing first others ++ clauses.flatMap Clause.tokens)
        (⟨rule.lhs, rule.rhs ++ symbols first⟩ ::
          (others.map (⟨rule.lhs, symbols ·⟩) ++ clauses.flatMap Clause.rules))

section Read

variable {endPos : Nat} {located : List LocatedToken} {token : BnfToken} {tokens : List BnfToken}
  {current : Option Rule} {rule : Rule} {rules : List Rule} {lhs : String} {parts first : List Part}

theorem located_cons : Located located (token :: tokens) ↔
    ∃ pos rest, located = ⟨pos, some token⟩ :: rest ∧ Located rest tokens := by
  unfold Located
  constructor
  · intro h
    rw [List.map_cons, List.map_eq_cons_iff] at h
    obtain ⟨⟨pos, _⟩, rest, rfl, rfl, behind⟩ := h
    exact ⟨pos, rest, rfl, behind⟩
  · rintro ⟨pos, rest, rfl, behind⟩
    simp [behind]

theorem Located.cons {rest : List LocatedToken} (behind : Located rest tokens) (pos : Nat) :
    Located (⟨pos, some token⟩ :: rest) (token :: tokens) :=
  located_cons.2 ⟨pos, rest, rfl, behind⟩

@[simp] theorem symbols_nil : symbols [] = [] := rfl

@[simp] theorem symbols_empty : symbols [.empty] = [] := rfl

theorem symbols_cons (part : Part) (parts : List Part) :
    symbols (part :: parts) = symbols [part] ++ symbols parts :=
  List.filterMap_append (l := [part])

/-! ### Rules that are written are read -/

theorem rulesFrom_alternative (h : Located located (parts.map Part.token ++ tokens)) :
    ∃ rest, Located rest tokens ∧ ∀ endPos rule, rulesFrom endPos (some rule) located =
      rulesFrom endPos (some ⟨rule.lhs, rule.rhs ++ symbols parts⟩) rest := by
  induction parts generalizing located with
  | nil => exact ⟨located, h, fun endPos rule => by rw [symbols_nil, List.append_nil]⟩
  | cons part parts ih =>
      obtain ⟨pos, behind, rfl, others⟩ := located_cons.1 h
      obtain ⟨rest, left, read⟩ := ih others
      refine ⟨rest, left, fun endPos rule => ?_⟩
      have step : rulesFrom endPos (some rule) (⟨pos, some part.token⟩ :: behind) =
          rulesFrom endPos (some ⟨rule.lhs, rule.rhs ++ symbols [part]⟩) behind := by
        cases part with
        | name | quoted => rw [Part.token, rulesFrom]; rfl
        | empty => rw [Part.token, rulesFrom, symbols_empty, List.append_nil]
      rw [step, read, symbols_cons part parts, List.append_assoc]

theorem rulesFrom_closing {others : List (List Part)}
    (h : Located located (closing first others ++ tokens)) :
    ∃ rest, Located rest tokens ∧ ∀ endPos rule rules, rulesFrom endPos none rest = .ok rules →
      rulesFrom endPos (some rule) located = .ok (⟨rule.lhs, rule.rhs ++ symbols first⟩ ::
        (others.map (⟨rule.lhs, symbols ·⟩) ++ rules)) := by
  -- the alternative that is being read comes first, so the others are taken one by one
  induction others generalizing located first with
  | nil =>
      rw [closing, List.append_assoc] at h
      obtain ⟨behind, close, read⟩ := rulesFrom_alternative h
      obtain ⟨pos, rest, rfl, left⟩ := located_cons.1 close
      refine ⟨rest, left, fun endPos rule rules found => ?_⟩
      rw [read, rulesFrom, found]
      rfl
  | cons next others ih =>
      rw [closing, List.append_assoc] at h
      obtain ⟨behind, left, read⟩ := rulesFrom_alternative h
      have bar : Located behind (.bar :: (closing next others ++ tokens)) := by
        simpa [closing] using left
      obtain ⟨pos, _, rfl, alternatives⟩ := located_cons.1 bar
      obtain ⟨rest, left, more⟩ := ih alternatives
      refine ⟨rest, left, fun endPos rule rules found => ?_⟩
      rw [read, rulesFrom, more _ _ _ found]
      rfl

theorem rulesFrom_clauses {clauses : List Clause}
    (h : Located located (clauses.flatMap Clause.tokens)) (endPos : Nat) :
    rulesFrom endPos none located = .ok (clauses.flatMap Clause.rules) := by
  induction clauses generalizing located with
  | nil =>
      rw [List.map_eq_nil_iff.1 h, rulesFrom]
      rfl
  | cons clause clauses ih =>
      obtain ⟨_, _, rfl, arrow⟩ := located_cons.1 h
      obtain ⟨_, _, rfl, body⟩ := located_cons.1 arrow
      obtain ⟨rest, left, read⟩ := rulesFrom_closing body
      rw [rulesFrom, read _ _ _ (ih left)]
      rfl

/-! ### Rules that are read are written -/

theorem Spells.start (h : Spells (some ⟨lhs, []⟩) tokens rules) :
    Spells none (.name lhs :: .arrow :: tokens) rules := by
  cases h with
  | within _ first others clauses => exact .between (⟨lhs, first, others⟩ :: clauses)

theorem Spells.part (part : Part)
    (h : Spells (some ⟨rule.lhs, rule.rhs ++ symbols [part]⟩) tokens rules) :
    Spells (some rule) (part.token :: tokens) rules := by
  cases h with
  | within _ first others clauses =>
      rw [List.append_assoc, ← symbols_cons]
      exact .within rule (part :: first) others clauses

theorem Spells.bar (h : Spells (some ⟨rule.lhs, []⟩) tokens rules) :
    Spells (some rule) (.bar :: tokens) (rule :: rules) := by
  cases h with
  | within _ first others clauses =>
      simpa [closing] using Spells.within rule [] (first :: others) clauses

theorem Spells.semicolon (h : Spells none tokens rules) :
    Spells (some rule) (.semicolon :: tokens) (rule :: rules) := by
  cases h with
  | between clauses => simpa [closing] using Spells.within rule [] [] clauses

theorem spells_of_rulesFrom (h : rulesFrom endPos current located = .ok rules) :
    ∃ tokens, Located located tokens ∧ Spells current tokens rules := by
  -- a rule begins (4), goes on with a part (8, 9, 10) or a bar (11), or ends (12); the rest fails
  fun_induction rulesFrom endPos current located generalizing rules with
  | case1 =>
      cases h
      exact ⟨[], rfl, .between []⟩
  | case4 _ _ _ _ ih =>
      obtain ⟨tokens, behind, spelled⟩ := ih h
      exact ⟨_, (behind.cons _).cons _, spelled.start⟩
  | case8 _ _ s _ ih =>
      obtain ⟨tokens, behind, spelled⟩ := ih h
      exact ⟨_, behind.cons _, .part (.name s) spelled⟩
  | case9 _ _ s _ ih =>
      obtain ⟨tokens, behind, spelled⟩ := ih h
      exact ⟨_, behind.cons _, .part (.quoted s) spelled⟩
  | case10 _ _ _ ih =>
      obtain ⟨tokens, behind, spelled⟩ := ih h
      exact ⟨_, behind.cons _, .part .empty (by simpa using spelled)⟩
  | case11 _ _ _ ih =>
      obtain ⟨rest, found, same⟩ := bind_eq_ok.1 h
      cases same
      obtain ⟨tokens, behind, spelled⟩ := ih found
      exact ⟨_, behind.cons _, spelled.bar⟩
  | case12 _ _ _ ih =>
      obtain ⟨rest, found, same⟩ := bind_eq_ok.1 h
      cases same
      obtain ⟨tokens, behind, spelled⟩ := ih found
      exact ⟨_, behind.cons _, spelled.semicolon⟩
  | _ => cases h

/-- The rules of a text are those of the clauses that its tokens make up. -/
theorem rules_eq_ok {text : String} : Bnf.rules text = .ok rules ↔ ∃ clauses : List Clause,
    Located (tokensFrom 0 text.toList) (clauses.flatMap Clause.tokens) ∧
      rules = clauses.flatMap Clause.rules := by
  constructor
  · intro h
    obtain ⟨tokens, located, spelled⟩ := spells_of_rulesFrom h
    cases spelled with
    | between clauses => exact ⟨clauses, located, rfl⟩
  · rintro ⟨clauses, located, rfl⟩
    exact rulesFrom_clauses located _

theorem exists_clause (left : Writable (.name rule.lhs))
    (right : ∀ name ∈ rule.rhs, Writable (.name name) ∨ Writable (.quoted name)) :
    ∃ clause : Clause, clause.rules = [rule] ∧ ∀ token ∈ clause.tokens, Writable token := by
  obtain ⟨parts, each⟩ : ∃ parts : List Part, List.Forall₂ (fun name part =>
      part.symbol? = some name ∧ Writable part.token) rule.rhs parts :=
    exists_forall₂ fun name inside => (right name inside).elim
      (fun bare => ⟨.name name, rfl, bare⟩) fun quoted => ⟨.quoted name, rfl, quoted⟩
  have same : symbols parts = rule.rhs := by
    generalize rule.rhs = names at each
    induction each with
    | nil => rfl
    | cons first _ ih => rw [symbols, List.filterMap_cons_some first.1, ← symbols, ih]
  refine ⟨⟨rule.lhs, parts, []⟩, by simp [Clause.rules, same], fun token inside => ?_⟩
  simp only [Clause.tokens, closing, List.mem_cons, List.mem_append, List.mem_map,
    List.flatMap_nil, List.not_mem_nil, false_or, or_false] at inside
  rcases inside with rfl | rfl | ⟨part, listed, rfl⟩ | rfl
  · exact left
  · exact ⟨_, .arrow⟩
  · obtain ⟨_, -, -, written⟩ := exists_mem_of_forall₂ each listed
    exact written
  · exact ⟨_, .semicolon⟩

/-- Rules whose names can all be written have a text. -/
theorem exists_writes (h : ∀ rule ∈ rules, Writable (.name rule.lhs) ∧
    ∀ name ∈ rule.rhs, Writable (.name name) ∨ Writable (.quoted name)) :
    ∃ text, Writes rules text := by
  obtain ⟨clauses, each⟩ := exists_forall₂ fun rule member =>
    exists_clause (h rule member).1 (h rule member).2
  have written : ∀ token ∈ clauses.flatMap Clause.tokens, Writable token := by
    intro token inside
    obtain ⟨clause, listed, inside⟩ := List.mem_flatMap.1 inside
    obtain ⟨_, -, -, all⟩ := exists_mem_of_forall₂ each listed
    exact all token inside
  have same : rules = clauses.flatMap Clause.rules := by
    clear h written
    induction each with
    | nil => rfl
    | cons first _ ih => rw [List.flatMap_cons, first.1, ← ih, List.singleton_append]
  obtain ⟨text, laid⟩ := exists_laidOut written
  exact ⟨String.ofList text, clauses, same, by rwa [String.toList_ofList]⟩

end Read

/-! ### First occurrences -/

theorem distinct_eq_eraseDups (names : List String) : distinct names = names.eraseDups := by
  have step : ∀ seen : List String,
      names.foldl (fun seen name => if seen.contains name then seen else seen ++ [name]) seen =
        seen ++ (names.filter (!seen.contains ·)).eraseDups := by
    induction names with
    | nil => simp
    | cons name names ih =>
        intro seen
        rw [List.foldl_cons, ih]
        by_cases known : name ∈ seen
        · simp [known]
        · have later : (!(seen ++ [name]).contains ·) = fun other =>
              !other == name && !seen.contains other := by grind
          rw [if_neg (by simpa using known), later, List.filter_cons_of_pos (by simp [known]),
            List.eraseDups_cons, List.filter_filter, List.append_assoc]
          rfl
  simpa [distinct] using step []

theorem mem_distinct {name : String} {names : List String} :
    name ∈ distinct names ↔ name ∈ names := by
  rw [distinct_eq_eraseDups, List.mem_eraseDups]

/-! ### What is refused -/

theorem raisesOnly_rulesFrom (endPos : Nat) (current : Option Rule) (located : List LocatedToken) :
    RaisesOnly (fun e => ∃ pos what, e = .malformed pos what)
      (rulesFrom endPos current located) := by
  fun_induction rulesFrom endPos current located with
  | case1 => exact raisesOnly_ok _
  | case4 _ _ _ _ ih | case8 _ _ _ _ ih | case9 _ _ _ _ ih | case10 _ _ _ ih => exact ih
  | case11 _ _ _ ih | case12 _ _ _ ih => exact ih.bind fun _ _ => raisesOnly_pure _
  | _ => exact raisesOnly_error.2 ⟨_, _, rfl⟩

theorem rules_ofList (cs : List Char) :
    rules (String.ofList cs) = rulesFrom (byteLength cs) none (tokensFrom 0 cs) := by
  rw [rules, String.toList_ofList]

end Bnf

namespace Grammar

variable {text name : String} {rule : Rule} {rules : List Rule} {g : Grammar}

theorem ofBnf_of_rules (h : Bnf.rules text = .ok (rule :: rules)) :
    ofBnf text = ofRules rule.lhs (rule :: rules) (Bnf.distinct ((rule :: rules).map (·.lhs)))
      (Bnf.distinct (((rule :: rules).flatMap (·.rhs)).filter
        (!(Bnf.distinct ((rule :: rules).map (·.lhs))).contains ·))) := by
  rw [ofBnf, h]
  rfl

/-- The names on left-hand sides. -/
def leftNames (rules : List Rule) : List String := (rules.map (·.lhs)).eraseDups

/-- The names that are on right-hand sides only. -/
def rightNames (rules : List Rule) : List String :=
  ((rules.flatMap (·.rhs)).filter (!(leftNames rules).contains ·)).eraseDups

/-- The tokens of a text are its longest ones, and whatever way rules are written, the text gives
    the grammar of these rules, in which the names on left-hand sides are the nonterminals. -/
theorem ofBnf_of_writes (written : Bnf.Writes (rule :: rules) text) :
    (∀ found, Bnf.Lexes 0 text.toList found ↔ Bnf.tokensFrom 0 text.toList = found) ∧
      ofBnf text = ofRules rule.lhs (rule :: rules) (leftNames (rule :: rules))
        (rightNames (rule :: rules)) := by
  obtain ⟨clauses, same, laid⟩ := written
  have read : Bnf.rules text = .ok (rule :: rules) :=
    Bnf.rules_eq_ok.2 ⟨clauses, laid.tokensFrom 0, same⟩
  refine ⟨fun found => Bnf.lexes_iff, ?_⟩
  rw [ofBnf_of_rules read]
  simp only [leftNames, rightNames, Bnf.distinct_eq_eraseDups]

theorem ofBnf_of_writes_list :
    Bnf.Writes listRules "s -> p ; p -> p\t'x' # more\n | %empty ;" ∧
      ofBnf "s -> p ; p -> p\t'x' # more\n | %empty ;" = .ok ⟨["s", "p"], ["x"],
        [⟨0, [.nonterminal 1]⟩, ⟨1, [.nonterminal 1, .terminal 0]⟩, ⟨1, []⟩], 0⟩ := by
  have blank : Bnf.Gap [' '] := .blank rfl .nil
  have more : Bnf.Gap [' ', '#', ' ', 'm', 'o', 'r', 'e', '\n', ' '] :=
    .blank rfl (@Bnf.Gap.comment [' ', 'm', 'o', 'r', 'e'] _ (by simp) blank)
  have s : Bnf.Lexeme (.name "s") ['s'] := .name rfl (by simp)
  have p : Bnf.Lexeme (.name "p") ['p'] := .name rfl (by simp)
  have x : Bnf.Lexeme (.quoted "x") ['\'', 'x', '\''] :=
    @Bnf.Lexeme.quoted ['x'] (by simp) (List.forall_mem_singleton.2 rfl)
  have laid := Bnf.LaidOut.intro .nil <|
    .cons s blank (by simp) <| .cons .arrow blank (by simp) <| .cons p blank (by simp) <|
    .cons .semicolon blank (by simp) <|
    .cons p blank (by simp) <| .cons .arrow blank (by simp) <|
    .cons p (.blank (c := '\t') rfl .nil) (by simp) <| .cons x more (by simp) <|
    .cons .bar blank (by simp) <| .cons .empty blank (by simp) <|
    .cons .semicolon .nil (by simp) .nil
  have written : Bnf.Writes listRules "s -> p ; p -> p\t'x' # more\n | %empty ;" :=
    ⟨[⟨"s", [.name "p"], []⟩, ⟨"p", [.name "p", .quoted "x"], [[.empty]]⟩], rfl, laid⟩
  exact ⟨written, (ofBnf_of_writes written).2.trans (by decide +kernel)⟩

theorem ofBnf_ne_ambiguous (text name : String) : ofBnf text ≠ .error (.ambiguous name) := by
  have never : RaisesOnly (∀ name, · ≠ .ambiguous name) (ofBnf text) := by
    unfold ofBnf
    refine .bind ((Bnf.raisesOnly_rulesFrom _ _ _).imp ?_) fun rules _ => ?_
    · rintro _ ⟨pos, what, rfl⟩ name
      nofun
    · cases rules with
      | nil => exact raisesOnly_throw.2 nofun
      | cons rule rules =>
          refine (raisesOnly_ofRules _ _ _ _).imp fun e both name same => ?_
          obtain ⟨left, right⟩ := both name same
          rw [Bnf.mem_distinct, List.mem_filter] at right
          simp only [List.contains_eq_mem, left, decide_true, Bool.not_true] at right
          cases right.2
  exact fun refused => never _ refused name rfl

theorem mem_lhs_rules {clauses : List Bnf.Clause} :
    name ∈ (clauses.flatMap Bnf.Clause.rules).map (·.lhs) ↔ name ∈ clauses.map (·.lhs) := by
  have each : ∀ clause : Bnf.Clause, name ∈ clause.rules.map (·.lhs) ↔ name = clause.lhs := by
    intro clause
    simp only [Bnf.Clause.rules, List.map_map, List.mem_map, Function.comp_apply]
    exact ⟨fun ⟨_, _, same⟩ => same.symm, fun same => ⟨_, List.mem_cons_self, same.symm⟩⟩
  simp only [List.map_flatMap, List.mem_flatMap, each, List.mem_map, eq_comm]

/-- A production that stands for a rule, where the symbols are terminals unless their names are in
    the list. -/
structure Sorts (g : Grammar) (left : List String) (rule : Rule) (production : Production) :
    Prop where
  renders : g.Renders rule production
  terminals : List.Forall₂ (fun name x => (∃ t, x = .terminal t) ↔ name ∉ left) rule.rhs
    production.rhs

/-- A text is never refused for a name of both sorts, and if it is accepted, its productions stand
    for its alternatives. Of the symbols, bare or quoted, those are terminals whose names are on no
    left-hand side. -/
theorem ofBnf_forgets_quotes (text : String) :
    (∀ name, ofBnf text ≠ .error (.ambiguous name)) ∧
    ∀ g, ofBnf text = .ok g → ∃ clauses : List Bnf.Clause,
      Bnf.Located (Bnf.tokensFrom 0 text.toList) (clauses.flatMap Bnf.Clause.tokens) ∧
      List.Forall₂ (g.Sorts (clauses.map (·.lhs))) (clauses.flatMap Bnf.Clause.rules)
        g.productions := by
  refine ⟨ofBnf_ne_ambiguous text, fun g made => ?_⟩
  obtain ⟨rules, read, made⟩ := bind_eq_ok.1 made
  cases rules with
  | nil => cases made
  | cons rule rules =>
      obtain ⟨clauses, located, same⟩ := Bnf.rules_eq_ok.1 read
      obtain ⟨-, -, left, right, productions, -⟩ := ofRules_eq_ok.1 made
      refine ⟨clauses, located, ?_⟩
      rw [mapM_eq_ok, ← right, ← left] at productions
      refine same ▸ productions.imp fun rule production step => ?_
      refine ⟨renders_of_productionOf step, ?_⟩
      refine (productionOf_eq_ok.1 step).2.imp fun name x found => ?_
      rw [exists_eq_terminal_iff found, left, Bnf.mem_distinct, same, mem_lhs_rules]

/-- A sum of two words. -/
def sumGrammar : Grammar :=
  ⟨["sum"], ["word", "+"], [⟨0, [.terminal 0, .terminal 1, .terminal 0]⟩], 0⟩

theorem ofBnf_forgets_quotes_sum : ofBnf "sum -> word '+' 'word' ;" = .ok sumGrammar ∧
    ∃ clauses : List Bnf.Clause,
      Bnf.Located (Bnf.tokensFrom 0 "sum -> word '+' 'word' ;".toList)
        (clauses.flatMap Bnf.Clause.tokens) ∧
      List.Forall₂ (sumGrammar.Sorts (clauses.map (·.lhs))) (clauses.flatMap Bnf.Clause.rules)
        sumGrammar.productions := by
  have read : Bnf.rules "sum -> word '+' 'word' ;" = .ok [⟨"sum", ["word", "+", "word"]⟩] :=
    (Bnf.rules_ofList _).trans (by decide +kernel)
  have made : ofBnf "sum -> word '+' 'word' ;" = .ok sumGrammar :=
    (ofBnf_of_rules read).trans (by decide +kernel)
  exact ⟨made, (ofBnf_forgets_quotes _).2 _ made⟩

/-- A quoted name that is on a left-hand side as well is read as that nonterminal. -/
theorem ofBnf_quoted_nonterminal :
    (Bnf.tokensFrom 0 "goal -> 'a' ; a -> word ;".toList).map (·.token?) =
        [.name "goal", .arrow, .quoted "a", .semicolon,
          .name "a", .arrow, .name "word", .semicolon].map some ∧
      ofBnf "goal -> 'a' ; a -> word ;" =
        .ok ⟨["goal", "a"], ["word"], [⟨0, [.nonterminal 1]⟩, ⟨1, [.terminal 0]⟩], 0⟩ := by
  have read : Bnf.rules "goal -> 'a' ; a -> word ;" = .ok [⟨"goal", ["a"]⟩, ⟨"a", ["word"]⟩] :=
    (Bnf.rules_ofList _).trans (by decide +kernel)
  exact ⟨by decide +kernel, (ofBnf_of_rules read).trans (by decide +kernel)⟩

end Grammar

end Assembler
