import Stencil.Library.Registry
import Stencil.Program

/-!
# Calls of a registry

The functions of `Stencil.Library.Registry` return the registry after a call, or none if it
fails. Here a call is a program that changes the registry in place.
-/

namespace Stencil

namespace Registry

abbrev Action (α : Type) := Program Library.Error Registry α

namespace Action

open Program

def add (library : Library) : Action Unit := do
  let registry ← get
  failIf (registry.library? library.name).isSome (.duplicateLibrary library.name)
  match library.snippets.find? fun s => (registry.snippet? s.name).isSome with
  | some clash => throw (.duplicateSnippet clash.name)
  | none => modify fun registry => ⟨registry.libraries ++ [library]⟩

/-- Reads a library and adds it. Its diagnostics are lost if it is not taken. -/
def load (text : String) : Action (List Library.Diagnostic) := do
  let loaded ← check fun _ => Library.parse text
  add loaded.library
  return loaded.diagnostics

end Action

inductive Call where
  | add (library : Library)
  | load (text : String)

def Call.program : Call → Action (List Library.Diagnostic)
  | add library => do
      Action.add library
      return []
  | load text => Action.load text

/-- The answer to a call and the registry that it leaves, whether it fails or not. -/
def perform (registry : Registry) (call : Call) :
    Except Library.Error (List Library.Diagnostic) × Registry :=
  call.program.exec registry

def performAll (registry : Registry) (calls : List Call) : Registry :=
  calls.foldl (fun registry call => (registry.perform call).2) registry

end Registry

end Stencil
