import Assembler.Dialect.Complx
import Assembler.Isa.Lc3
import Assembler.Program.Assembly
import Assembler.Proofs.Dialect.QuotedLiterals
import Assembler.Proofs.Lexical.Words
import Mathlib.Data.List.TakeWhile

/-! # How printed statements are cut into tokens

A printed statement is a mnemonic or a directive, a blank and operands with commas and blanks
between them. Each of these is a lexeme of the Complx dialect and ends where it was meant to end.
-/

namespace Assembler

namespace Complx

open Munch Pattern

theorem cuts_blank {c : Char} (solid : (c == ' ' || c == '\t') = false) (rest : List Char) :
    Cuts config.classes [' '] none (c :: rest) := by
  apply cuts_blanks Dialect.complx.delimited_config
  · simp
  · simp [LexConfig.isBlank]
  · simpa [LexConfig.isBlank] using solid

theorem cuts_comma (rest : List Char) : Cuts config.classes [','] (some (.symbol ',')) rest := by
  have dead : (Recognizer.fresh (.symbol [',', ':'])).feedAll (',' :: rest) =
      ⟨.symbol [',', ':'], some ',', 1, 1, false⟩ :=
    Recognizer.feedAll_of_dead (r := ⟨.symbol [',', ':'], some ',', 1, 1, false⟩) rfl rest
  refine cuts_of_sole (k := .symbol [',', ':']) (by decide) (by decide) ?_ ?_
  · exact congrArg Recognizer.accepted dead
  · rw [List.cons_append, List.nil_append, dead]
    rfl

/-- A string is read up to the quote that ends it, whatever it denotes. -/
theorem cuts_string (text rest : List Char) :
    Cuts config.classes (Text.stringLiteral text) (some .string) rest := by
  have token := Text.accepts_stringLiteral text
  have read := token.feedAll_append (k := .string) Automaton.stringMove_ne_accepts rest
  have length : ((Recognizer.fresh .string).feedAll (Text.stringLiteral text ++ rest)).accepted =
      (Text.stringLiteral text).length := by
    rw [read, token.2]
  exact cuts_of_sole (k := .string) (by decide) (by decide) length
    (Recognizer.kind?_feedAll (fun _ => rfl) _)

/-- The name of a directive or a label. -/
def IsName : List Char → Prop
  | [] => False
  | c :: cs => isWordStart [] c = true ∧ ∀ c ∈ cs, isWordChar [] c = true

instance : DecidablePred IsName
  | [] => isFalse id
  | _ :: cs => @instDecidableAnd _ _ _ (List.decidableBAll _ cs)

theorem cuts_directive {name : List Char} (h : IsName name) :
    Cuts config.classes ('.' :: name) (some .directive) [] := by
  cases name with
  | nil => exact absurd h id
  | cons c cs =>
      have step : (Recognizer.fresh .directive).feedAll ('.' :: c :: cs) =
          (⟨.directive, .name, 2, 2, true⟩ : Recognizer).feedAll cs := by
        simp [Recognizer.feedAll, Recognizer.feed, Recognizer.fresh, TokenClass.automaton,
          Automaton.directive, h.1]
      have loop := Recognizer.accepted_loop (k := .directive) (s := .name) (p := isWordChar [])
        (fun _ => rfl) 2 cs
      rw [← step, List.takeWhile_eq_self_iff.2 h.2] at loop
      refine cuts_of_sole (k := .directive) (by decide) (by decide) ?_
        (Recognizer.kind?_feedAll (fun _ => rfl) _)
      rw [List.append_nil, loop, List.length_cons, List.length_cons]
      omega

theorem feedAll_digits {s : Automaton.IntegerState} (h : s = .zero ∨ s = .decimal) (n : Nat)
    {digits : List Char} (all : ∀ c ∈ digits, c.isDigit = true) :
    ((⟨.integer false true, s, n, n, true⟩ : Recognizer).feedAll digits).accepted =
      n + digits.length := by
  induction digits generalizing s n with
  | nil => rfl
  | cons c digits ih =>
      obtain ⟨first, others⟩ := List.forall_mem_cons.1 all
      have step : (⟨.integer false true, s, n, n, true⟩ : Recognizer).feed c =
          ⟨.integer false true, .decimal, n + 1, n + 1, true⟩ := by
        rcases h with rfl | rfl <;>
          simp [Recognizer.feed, TokenClass.automaton, Automaton.integer, Automaton.integerMove,
            first]
      rw [Recognizer.feedAll, List.foldl_cons, step, List.length_cons]
      refine (ih (.inr rfl) (n + 1) others).trans ?_
      omega

theorem feedAll_numeral {s : Automaton.IntegerState} (h : s = .hash ∨ s = .minus) (n : Nat)
    {digits : List Char} (filled : digits ≠ []) (all : ∀ c ∈ digits, c.isDigit = true) :
    ((⟨.integer false true, s, n, 0, true⟩ : Recognizer).feedAll digits).accepted =
      n + digits.length := by
  cases digits with
  | nil => exact absurd rfl filled
  | cons c digits =>
      obtain ⟨first, others⟩ := List.forall_mem_cons.1 all
      have unsigned : c ≠ '-' := by
        rintro rfl
        simp at first
      obtain ⟨s', after, step⟩ : ∃ s' : Automaton.IntegerState, (s' = .zero ∨ s' = .decimal) ∧
          (⟨.integer false true, s, n, 0, true⟩ : Recognizer).feed c =
            ⟨.integer false true, s', n + 1, n + 1, true⟩ := by
        by_cases zero : c = '0'
        · refine ⟨.zero, .inl rfl, ?_⟩
          rcases h with rfl | rfl <;>
            simp [Recognizer.feed, TokenClass.automaton, Automaton.integer, Automaton.integerMove,
              zero]
        · refine ⟨.decimal, .inr rfl, ?_⟩
          rcases h with rfl | rfl <;>
            simp [Recognizer.feed, TokenClass.automaton, Automaton.integer, Automaton.integerMove,
              zero, first, unsigned]
      rw [Recognizer.feedAll, List.foldl_cons, step, List.length_cons]
      refine (feedAll_digits after (n + 1) others).trans ?_
      omega

theorem cuts_integer (value : Int) :
    Cuts config.classes ('#' :: (toString value).toList) (some .integer) [] := by
  have digits : ∀ c ∈ Nat.toDigits 10 value.natAbs, c.isDigit = true := Text.isDigit_of_mem_toDigits
  refine cuts_of_sole (k := .integer false true) (by decide) (by decide) ?_
    (Recognizer.kind?_feedAll (fun _ => rfl) _)
  rw [List.append_nil, Literal.toList_toString_int]
  by_cases negative : value < 0
  · rw [if_pos negative, List.singleton_append, List.length_cons, List.length_cons]
    refine (feedAll_numeral (.inr rfl) 2 Nat.toDigits_ne_nil digits).trans ?_
    omega
  · rw [if_neg negative, List.nil_append, List.length_cons]
    refine (feedAll_numeral (.inl rfl) 1 Nat.toDigits_ne_nil digits).trans ?_
    omega

theorem cuts_register : ∀ n < 8, Cuts config.classes (Operand.render (.register 'r' n)).toList
    (some .register) [] := by
  decide +kernel

theorem registerNumber?_render : ∀ n < 8,
    (((Operand.render (.register 'r' n)).toList.head?).map Char.toLower).getD '\x00' = 'r' ∧
      Lc3.isa.registerNumber? 'r'
        (String.ofList (Operand.render (.register 'r' n)).toList.tail) = some n := by
  decide +kernel

theorem isName_of_cuts {text : List Char} (h : Cuts config.classes text (some .word) []) :
    IsName text := by
  have word : text ∈ identifier [] := mem_identifier_of_cuts h
  cases text with
  | nil => exact absurd rfl h.filled
  | cons c cs => exact cons_mem_identifier.1 word

/-- Classes that end before a delimiter only if they have not begun. -/
def openClasses : List TokenClass := [.comment [';'], .blank, .string, .char, .symbol [',', ':']]

/-- Behind a lexeme that begins like a word, a number or a directive, all recognisers stop at a
    blank or a comma. -/
theorem stops_of_solid {c : Char} {body : List Char}
    (solid : ∀ k ∈ openClasses, (k.automaton.move k.automaton.start c).isStuck = true)
    {d : Char} (delimiter : d = ' ' ∨ d = ',') :
    ∀ k ∈ config.classes, ((Recognizer.fresh k).feedAll (c :: body)).Stops d := by
  intro k member
  have dead : k ∈ openClasses →
      ((Recognizer.fresh k).feedAll (c :: body)).Stops d :=
    fun listed => .inl (Recognizer.dead_of_start (solid k listed) body).2
  have stuck : (∀ s, k.automaton.move s d = .stuck) →
      ((Recognizer.fresh k).feedAll (c :: body)).Stops d :=
    fun h => Recognizer.stops_of_class h (Recognizer.tokenClass_feedAll _ _)
  simp only [config, LexConfig.classes, List.mem_cons, List.not_mem_nil, or_false] at member
  rcases member with rfl | rfl | rfl | rfl | rfl | rfl | rfl | rfl | rfl
  · exact dead (by decide)
  · exact dead (by decide)
  · refine stuck fun s => ?_
    rcases delimiter with rfl | rfl <;> cases s <;> rfl
  · refine stuck fun s => ?_
    rcases delimiter with rfl | rfl <;> cases s <;> rfl
  · refine stuck fun s => ?_
    rcases delimiter with rfl | rfl <;> cases s <;> rfl
  · exact dead (by decide)
  · exact dead (by decide)
  · exact dead (by decide)
  · refine stuck fun s => ?_
    rcases delimiter with rfl | rfl <;> cases s <;> rfl

/-- A lexeme of a printed line. -/
structure Lexeme (text : List Char) (kind : TokenKind) : Prop where
  alone : Cuts config.classes text (some kind) []
  before : ∀ d rest, d = ' ' ∨ d = ',' → Cuts config.classes text (some kind) (d :: rest)
  solid : ∀ c ∈ text.head?, (c == ' ' || c == '\t') = false
  unbroken : Unbroken text

theorem lexeme_of_solid {c : Char} {body : List Char} {kind : TokenKind}
    (alone : Cuts config.classes (c :: body) (some kind) [])
    (solid : ∀ k ∈ openClasses, (k.automaton.move k.automaton.start c).isStuck = true)
    (unbroken : Unbroken (c :: body)) : Lexeme (c :: body) kind where
  alone := alone
  before d rest delimiter := alone.before (stops_of_solid solid delimiter) rest
  solid := by
    have stuck : (if c == ' ' || c == '\t' then Move.accepts () else .stuck).isStuck = true :=
      solid .blank (by decide)
    simp only [List.head?_cons, Option.mem_some_iff, forall_eq']
    cases blank : (c == ' ' || c == '\t') with
    | false => rfl
    | true =>
        rw [blank] at stuck
        cases stuck
  unbroken := unbroken

theorem ne_of_isWordChar {c d : Char} (h : isWordChar [] c = true)
    (other : isWordChar [] d = false) : c ≠ d := by
  rintro rfl
  simp [h] at other

theorem IsName.isWordChar {text : List Char} (h : IsName text) :
    ∀ c ∈ text, isWordChar [] c = true := by
  cases text with
  | nil => simp
  | cons c cs => exact List.forall_mem_cons.2 ⟨isWordChar_of_start h.1, h.2⟩

theorem unbroken_of_isWordChar {text : List Char} (h : ∀ c ∈ text, isWordChar [] c = true) :
    Unbroken text :=
  fun c member =>
    ⟨ne_of_isWordChar (h c member) (by decide), ne_of_isWordChar (h c member) (by decide)⟩

theorem IsName.unbroken {text : List Char} (h : IsName text) : Unbroken text :=
  unbroken_of_isWordChar h.isWordChar

theorem unbroken_toDigits (n : Nat) : Unbroken (Nat.toDigits 10 n) := by
  apply unbroken_of_isWordChar
  intro c member
  simp [isWordChar, Char.isAlphanum, Text.isDigit_of_mem_toDigits c member]

theorem lexeme_word {text : List Char} (h : Cuts config.classes text (some .word) []) :
    Lexeme text .word := by
  have name := isName_of_cuts h
  cases text with
  | nil => exact absurd rfl h.filled
  | cons c cs =>
      refine lexeme_of_solid h ?_ name.unbroken
      have other : ∀ {d}, isWordChar [] d = false → c ≠ d :=
        ne_of_isWordChar (isWordChar_of_start name.1)
      have comment : c ≠ ';' := other (by decide)
      have space : c ≠ ' ' := other (by decide)
      have tab : c ≠ '\t' := other (by decide)
      have double : c ≠ '"' := other (by decide)
      have single : c ≠ '\'' := other (by decide)
      have comma : c ≠ ',' := other (by decide)
      have colon : c ≠ ':' := other (by decide)
      simp [openClasses, TokenClass.automaton, Automaton.comment, Automaton.blank,
        Automaton.string, Automaton.stringMove, Automaton.char, Automaton.charMove,
        Automaton.symbol, comment, space, tab, double, single, comma, colon, Move.isStuck]

theorem lexeme_directive {name : List Char} (h : IsName name) :
    Lexeme ('.' :: name) .directive :=
  lexeme_of_solid (cuts_directive h) (by decide)
    (List.forall_mem_cons.2 ⟨by decide, h.unbroken⟩)

theorem lexeme_integer (value : Int) : Lexeme ('#' :: (toString value).toList) .integer := by
  refine lexeme_of_solid (cuts_integer value) (by decide) (List.forall_mem_cons.2 ⟨by decide, ?_⟩)
  rw [Literal.toList_toString_int]
  intro c member
  rcases List.mem_append.1 member with sign | digit
  · split at sign
    · rw [List.mem_singleton.1 sign]
      decide
    · cases sign
  · exact unbroken_toDigits _ c digit

theorem lexeme_register {n : Nat} (h : n < 8) :
    Lexeme (Operand.render (.register 'r' n)).toList .register := by
  have cuts := cuts_register n h
  have spelled : (Operand.render (.register 'r' n)).toList = 'r' :: Nat.toDigits 10 n := by
    rw [Operand.render, String.toList_append, Literal.toList_toString_nat]
    rfl
  rw [spelled] at cuts ⊢
  exact lexeme_of_solid cuts (by decide) (List.forall_mem_cons.2 ⟨by decide, unbroken_toDigits n⟩)

theorem lexeme_string (text : List Char) : Lexeme (Text.stringLiteral text) .string where
  alone := cuts_string text []
  before d rest _ := cuts_string text (d :: rest)
  solid := by simp [Text.stringLiteral]
  unbroken := Text.unbroken_stringLiteral text

/-- Operands that can be read back. -/
def PrintableOperand : Operand → Prop
  | .register sigil num => sigil = 'r' ∧ num < 8
  | .integer value => value.natAbs < 2 ^ 63
  | .label name => scan config name = .ok [⟨1, [⟨1, name, .word⟩]⟩]
  | .string _ => True

instance : DecidablePred PrintableOperand
  | .register sigil num => inferInstanceAs (Decidable (sigil = 'r' ∧ num < 8))
  | .integer value => inferInstanceAs (Decidable (value.natAbs < 2 ^ 63))
  | .label name => inferInstanceAs (Decidable (scan config name = .ok [⟨1, [⟨1, name, .word⟩]⟩]))
  | .string _ => isTrue trivial

/-- The token of a printed operand. -/
def operandToken (operand : Operand) : TokenKind × String :=
  match operand with
  | .register _ _ => (.register, operand.render)
  | .integer _ => (.integer, operand.render)
  | .label _ => (.word, operand.render)
  | .string _ => (.string, operand.render)

theorem lexeme_operand {operand : Operand} (h : PrintableOperand operand) :
    Lexeme operand.render.toList (operandToken operand).1 := by
  cases operand with
  | register sigil num =>
      obtain ⟨rfl, small⟩ := h
      exact lexeme_register small
  | integer value =>
      have spelled : (Operand.render (.integer value)).toList = '#' :: (toString value).toList := by
        rw [Operand.render, String.toList_append]
        rfl
      rw [spelled]
      exact lexeme_integer value
  | label name =>
      apply lexeme_word
      have scanned : Munch.scan config.classes name.toList = _ :=
        (Scanner.run_ofClasses config.classes name.toList).symm.trans h
      exact (cuts_of_scan scanned).1
  | string text =>
      rw [Operand.render, String.toList_ofList]
      exact lexeme_string text.toList

/-- A text that can follow a blank. -/
structure Phrase (text : List Char) (found : List (TokenKind × String)) : Prop where
  spells : Spells config.classes text found
  filled : text ≠ []
  solid : ∀ c ∈ text.head?, (c == ' ' || c == '\t') = false
  unbroken : Unbroken text

namespace Phrase

variable {text : List Char} {found : List (TokenKind × String)}

theorem spells_blank (h : Phrase text found) : Spells config.classes (' ' :: text) found := by
  cases text with
  | nil => exact absurd rfl h.filled
  | cons c cs => exact .skip (cuts_blank (h.solid c rfl) cs) h.spells

theorem unbroken_blank (h : Phrase text found) : Unbroken (' ' :: text) :=
  List.forall_mem_cons.2 ⟨by decide, h.unbroken⟩

end Phrase

namespace Lexeme

variable {text rest : List Char} {kind : TokenKind} {found : List (TokenKind × String)}

theorem phrase (h : Lexeme text kind) : Phrase text [(kind, String.ofList text)] where
  spells := by
    have alone := Spells.token h.alone .nil
    rwa [List.append_nil] at alone
  filled := h.alone.filled
  solid := h.solid
  unbroken := h.unbroken

theorem head?_append (h : Lexeme text kind) (more : List Char) :
    ∀ c ∈ (text ++ more).head?, (c == ' ' || c == '\t') = false := by
  rw [List.head?_append_of_ne_nil _ h.alone.filled]
  exact h.solid

theorem blank (h : Lexeme text kind) (behind : Phrase rest found) :
    Phrase (text ++ ' ' :: rest) ((kind, String.ofList text) :: found) where
  spells := .token (h.before ' ' rest (.inl rfl)) behind.spells_blank
  filled := by simp
  solid := h.head?_append _
  unbroken := List.forall_mem_append.2 ⟨h.unbroken, behind.unbroken_blank⟩

theorem comma (h : Lexeme text kind) (behind : Phrase rest found) :
    Phrase (text ++ ',' :: ' ' :: rest)
      ((kind, String.ofList text) :: (.symbol ',', ",") :: found) where
  spells := by
    apply Spells.token (h.before ',' _ (.inr rfl))
    exact .token (cuts_comma (' ' :: rest)) behind.spells_blank
  filled := by simp
  solid := h.head?_append _
  unbroken := by
    have separated : Unbroken (',' :: ' ' :: rest) :=
      List.forall_mem_cons.2 ⟨by decide, behind.unbroken_blank⟩
    exact List.forall_mem_append.2 ⟨h.unbroken, separated⟩

end Lexeme

/-- The tokens of operands with commas between them. -/
def operandTokens (operands : List Operand) : List (TokenKind × String) :=
  (operands.map operandToken).intersperse (.symbol ',', ",")

theorem operandToken_eq (operand : Operand) :
    operandToken operand = ((operandToken operand).1, String.ofList operand.render.toList) := by
  rw [String.ofList_toList]
  cases operand <;> rfl

theorem phrase_operands {operands : List Operand} (h : ∀ o ∈ operands, PrintableOperand o)
    (filled : operands ≠ []) :
    Phrase ([',', ' '].intercalate (operands.map (·.render.toList))) (operandTokens operands) := by
  induction operands with
  | nil => exact absurd rfl filled
  | cons operand operands ih =>
      obtain ⟨first, others⟩ := List.forall_mem_cons.1 h
      have lexeme := lexeme_operand first
      cases operands with
      | nil =>
          have whole := lexeme.phrase
          rw [← operandToken_eq] at whole
          simpa [operandTokens] using whole
      | cons next operands =>
          have behind := lexeme.comma (ih others (by simp))
          rw [← operandToken_eq] at behind
          rw [List.map_cons, List.map_cons, List.intercalate_cons_cons, List.append_assoc]
          exact behind

/-- Statements that can be read back. -/
def PrintableStatement : Statement → Prop
  | .instruction i =>
      ((∃ e ∈ Lc3.isa.encodings, e.op = i.op) ∨ ∃ a ∈ Lc3.isa.aliases, a.op = i.op) ∧
        ∀ o ∈ i.operands, PrintableOperand o
  | .directive d =>
      IsName d.op.toList ∧ d.op.toLower = d.op ∧ ∀ o ∈ d.operand?, PrintableOperand o

instance : DecidablePred PrintableStatement
  | .instruction i => inferInstanceAs (Decidable (((∃ e ∈ Lc3.isa.encodings, e.op = i.op) ∨
      ∃ a ∈ Lc3.isa.aliases, a.op = i.op) ∧ ∀ o ∈ i.operands, PrintableOperand o))
  | .directive d => inferInstanceAs (Decidable (IsName d.op.toList ∧ d.op.toLower = d.op ∧
      ∀ o ∈ d.operand?, PrintableOperand o))

/-- The tokens of a printed statement. -/
def statementTokens : Statement → List (TokenKind × String)
  | .instruction i => (.word, i.op) :: operandTokens i.operands
  | .directive d => (.directive, "." ++ d.op) :: d.operand?.toList.map operandToken

theorem lexeme_mnemonic {op : String}
    (h : (∃ e ∈ Lc3.isa.encodings, e.op = op) ∨ ∃ a ∈ Lc3.isa.aliases, a.op = op) :
    Lexeme op.toList .word := by
  have encodings : ∀ e ∈ Lc3.isa.encodings, Cuts config.classes e.op.toList (some .word) [] := by
    decide +kernel
  have aliases : ∀ a ∈ Lc3.isa.aliases, Cuts config.classes a.op.toList (some .word) [] := by
    decide +kernel
  rcases h with ⟨e, member, rfl⟩ | ⟨a, member, rfl⟩
  · exact lexeme_word (encodings e member)
  · exact lexeme_word (aliases a member)

theorem isMnemonic_of_mem {op : String}
    (h : (∃ e ∈ Lc3.isa.encodings, e.op = op) ∨ ∃ a ∈ Lc3.isa.aliases, a.op = op) :
    op.toLower = op ∧ Lc3.isa.isMnemonic op = true := by
  have encodings : ∀ e ∈ Lc3.isa.encodings,
      e.op.toLower = e.op ∧ Lc3.isa.isMnemonic e.op = true := by
    decide +kernel
  have aliases : ∀ a ∈ Lc3.isa.aliases,
      a.op.toLower = a.op ∧ Lc3.isa.isMnemonic a.op = true := by
    decide +kernel
  rcases h with ⟨e, member, rfl⟩ | ⟨a, member, rfl⟩
  · exact encodings e member
  · exact aliases a member

theorem phrase_directive {d : Directive} (h : PrintableStatement (.directive d)) :
    Phrase d.render.toList (statementTokens (.directive d)) := by
  obtain ⟨named, -, printable⟩ := h
  have lexeme := lexeme_directive named
  have text : String.ofList ('.' :: d.op.toList) = "." ++ d.op := by
    rw [← String.toList_inj, String.toList_ofList, String.toList_append]
    rfl
  have dotted : ("." ++ d.op).toList = '.' :: d.op.toList := by rw [String.toList_append]; rfl
  cases operand : d.operand? with
  | none =>
      have whole := lexeme.phrase
      rw [text, ← dotted] at whole
      simpa [Directive.render, statementTokens, operand] using whole
  | some o =>
      have behind := (lexeme_operand (printable o operand)).phrase
      rw [← operandToken_eq] at behind
      have whole := lexeme.blank behind
      rw [text, ← dotted] at whole
      simpa [Directive.render, statementTokens, operand] using whole

theorem phrase_statement {s : Statement} (h : PrintableStatement s) :
    Phrase s.render.toList (statementTokens s) := by
  cases s with
  | directive d => exact phrase_directive h
  | instruction i =>
      have lexeme := lexeme_mnemonic h.1
      by_cases bare : i.operands = []
      · have whole := lexeme.phrase
        rw [String.ofList_toList] at whole
        simpa [Statement.render, Instruction.render, bare, statementTokens, operandTokens]
          using whole
      · have whole := lexeme.blank (phrase_operands h.2 bare)
        rw [String.ofList_toList] at whole
        have text : (Statement.instruction i).render.toList = i.op.toList ++
            ' ' :: [',', ' '].intercalate (i.operands.map (·.render.toList)) := by
          simp [Statement.render, Instruction.render, bare, String.toList_intercalate,
            Function.comp_def]
        rw [text]
        exact whole

end Complx

end Assembler
