import Stencil.Library.Basic
import Stencil.Library.Block
import Stencil.Report.Drawing
import Stencil.Snippet.Parser
import Stencil.Text.Lines

/-!
# Loading a library

A library is loaded from its text: three headings, then blocks. Loading is partial. A
block that defines nothing, or a snippet whose name an earlier one has, is left out and
becomes a diagnostic; every other snippet is kept.
-/

namespace Stencil

namespace Library

inductive Problem where
  | malformed (errors : List Snippet.Error)
  | duplicate (name : String)
  deriving DecidableEq, Repr, Inhabited

structure Diagnostic where
  /-- The position of the block among the blocks, from zero. -/
  block : Nat
  /-- The line of the text at which it starts, from one. -/
  line : Nat
  /-- Its text, which the spans of the errors refer to. -/
  source : String
  problem : Problem
  deriving DecidableEq, Repr, Inhabited

namespace Diagnostic

def message (d : Diagnostic) : String :=
  let place := "block " ++ toString d.block ++ " (line " ++ toString d.line ++ "):"
  match d.problem with
  | .malformed errors => place ++ String.join (errors.map fun e => " " ++ e.message)
  | .duplicate name => place ++ " duplicate snippet '" ++ name ++ "'"

/-- The report on the block, if all its errors have one: the reports of the errors, or
one line for a duplicate. -/
def report? (d : Diagnostic) (file : String) : Option String :=
  let place := file ++ ":" ++ toString d.line
  match d.problem with
  | .malformed errors =>
      (errors.mapM fun (e : Snippet.Error) => e.report.draw? d.source place).map
        (String.intercalate "\n")
  | .duplicate name =>
      some (place ++ ": snippet '" ++ name ++ "' is already defined, keeping the first")

end Diagnostic

structure Load where
  /-- The library, with the snippets that were kept. -/
  library : Library
  diagnostics : List Diagnostic
  deriving DecidableEq, Repr, Inhabited

namespace Load

def reject (load : Load) (position : Nat) (block : Block) (problem : Problem) : Load :=
  { load with
    diagnostics := load.diagnostics ++ [⟨position, block.line, block.text, problem⟩] }

/-- Reads the next block. It is left out if the library refuses its snippet because of the
name; for any other refusal there is no load. -/
def read (load : Load) (position : Nat) (block : Block) : Except Error Load :=
  match Snippet.parse block.text with
  | .error errors => .ok (load.reject position block (.malformed errors))
  | .ok snippet =>
      match load.library.add snippet with
      | .ok library => .ok { load with library := library }
      | .error (.duplicateSnippet name) => .ok (load.reject position block (.duplicate name))
      | .error e => .error e

def readAll (load : Load) (position : Nat) : List Block → Except Error Load
  | [] => .ok load
  | block :: rest => do (← load.read position block).readAll (position + 1) rest

end Load

/-- The number of the line after the headings. -/
def firstLine : Nat := 4

def parse (text : String) : Except Error Load :=
  match Text.lines text.toList with
  | name :: toolbar :: version :: body =>
      let heading := String.ofList ∘ Text.trim
      Load.readAll ⟨⟨heading name, heading toolbar, heading version, []⟩, []⟩ 0
        (blocks firstLine body)
  | [] => .error (.missingHeading .name)
  | [_] => .error (.missingHeading .toolbar)
  | [_, _] => .error (.missingHeading .version)

end Library

end Stencil
