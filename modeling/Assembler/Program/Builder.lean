import Assembler.Collections.SortedSet
import Assembler.Program.Assembly
import Assembler.Program.Error

/-! # Collecting lines into an assembly

A builder takes the labels and the statement of one line after another. Labels wait for the
statement that follows them, on the same line or a later one, or for the end of their section. A
failed line still leaves a builder behind: labels in front of the fault stay defined.
-/

namespace Assembler

/-- How a dialect divides statements into sections. -/
inductive SectionPolicy where
  /-- Directives open and close sections; names are given without their dot. -/
  | explicit (opening closing : String)
  /-- All statements form one section at an address. -/
  | implicit (start : UInt32)
  deriving Repr, DecidableEq

/-- The labels and the statement of one line. -/
structure LineContents where
  /-- The labels that the line defines. -/
  labels : List String
  /-- The statement, if there is one. -/
  statement? : Option Statement
  deriving Repr, DecidableEq

/-- An assembly under construction. -/
structure Builder where
  /-- How sections are divided. -/
  policy : SectionPolicy
  /-- What has been collected. -/
  assembly : Assembly
  /-- The line that opened the current section, if one is open. -/
  opened? : Option Nat
  /-- Labels that wait for a statement. -/
  pending : List String
  /-- All labels defined so far. -/
  defined : SortedSet String

namespace Builder

/-- How an operation on a builder ends: with or without an error, and with the builder it leaves. -/
abbrev Result := EStateM.Result SemanticError Builder Unit

/-- A builder before the first line. -/
def start (policy : SectionPolicy) : Builder :=
  match policy with
  | .explicit _ _ => ⟨policy, .empty, none, [], .empty⟩
  | .implicit address => ⟨policy, ⟨[⟨address, [], 0⟩], .empty⟩, some 0, [], .empty⟩

/-- The site of the next statement: the end of the last section. -/
def nextSite (sections : List Section) : Site :=
  ⟨sections.length - 1, (sections.getLast?.map (·.statements.length)).getD 0⟩

/-- Put the labels that wait at the site of the next statement. -/
def bindPending (b : Builder) : Builder :=
  let site := nextSite b.assembly.sections
  { b with
    assembly := { b.assembly with
      labels := b.pending.foldl (fun labels label => labels.insert label site) b.assembly.labels }
    pending := [] }

/-- Append a statement to the last section. -/
def appendStatement (s : Statement) : List Section → List Section
  | [] => []
  | [last] => [{ last with statements := last.statements ++ [s] }]
  | x :: y :: rest => x :: appendStatement s (y :: rest)

/-- Open a section at the address that the directive gives. -/
def openSection (b : Builder) (line : Nat) (opening : String) (labeled : Bool)
    (operand? : Option Operand) : Result :=
  if labeled then .error (.labeledDirective opening line) b
  else
    match b.opened? with
    | some outer => .error (.nestedSection opening line outer) b
    | none =>
        match operand? with
        | some (.integer address) =>
            if 0 ≤ address ∧ address < UInt32.size then
              let added : Section := ⟨UInt32.ofNat address.toNat, [], line⟩
              .ok () { b with
                assembly := { b.assembly with sections := b.assembly.sections ++ [added] }
                opened? := some line }
            else .error (.badDirectiveOperand opening line) b
        | _ => .error (.badDirectiveOperand opening line) b

/-- Close the current section. Labels that wait denote the address after it. -/
def closeSection (b : Builder) (line : Nat) (closing : String) (labeled : Bool)
    (operand? : Option Operand) : Result :=
  if labeled then .error (.labeledDirective closing line) b
  else if operand?.isSome then .error (.badDirectiveOperand closing line) b
  else if b.opened?.isNone then .error (.strayDirective line) b
  else .ok () { b.bindPending with opened? := none }

/-- Define labels, up to the first that cannot be. -/
def addLabels (line : Nat) : List String → Builder → Result
  | [], b => .ok () b
  | label :: labels, b =>
      if b.opened?.isNone then .error (.strayLabel line) b
      else if label ∈ b.defined then .error (.duplicateLabel label line) b
      else
        addLabels line labels
          { b with defined := b.defined.insert label, pending := b.pending ++ [label] }

/-- Add a statement to the current section. -/
def addStatement (line : Nat) (s : Statement) (b : Builder) : Result :=
  if b.opened?.isNone then
    match s with
    | .instruction _ => .error (.strayInstruction line) b
    | .directive _ => .error (.strayDirective line) b
  else
    let b := b.bindPending
    .ok () { b with
      assembly := { b.assembly with sections := appendStatement s b.assembly.sections } }

/-- Add the contents of a line that neither opens nor closes a section. -/
def addContents (b : Builder) (line : Nat) (contents : LineContents) : Result :=
  match addLabels line contents.labels b with
  | .error e b => .error e b
  | .ok () b =>
      match contents.statement? with
      | none => .ok () b
      | some s => addStatement line s b

/-- Add the contents of a line. -/
def push (b : Builder) (line : Nat) (contents : LineContents) : Result :=
  match b.policy, contents.statement? with
  | .explicit opening closing, some (.directive d) =>
      let labeled := !contents.labels.isEmpty
      if d.op = opening then b.openSection line opening labeled d.operand?
      else if d.op = closing then b.closeSection line closing labeled d.operand?
      else b.addContents line contents
  | _, _ => b.addContents line contents

/-- Add lines up to the first error. -/
def pushAll (b : Builder) : List (Nat × LineContents) → Result
  | [] => .ok () b
  | (line, contents) :: rest =>
      match b.push line contents with
      | .error e b => .error e b
      | .ok () b => b.pushAll rest

/-- End the source. Every section that a directive opened must be closed. -/
def finish (b : Builder) : Except SemanticError Assembly :=
  match b.policy, b.opened? with
  | .explicit opening closing, some line => .error (.missingEnd opening closing line)
  | _, _ => .ok b.bindPending.assembly

end Builder

end Assembler
