import Stencil.Library.Load

/-!
# Registries

A registry holds the libraries of a session. Library names are distinct, and so are the
names of all snippets together: `add` refuses a library that would break this.
-/

namespace Stencil

/-- The libraries of a session, in the order they were added. -/
structure Registry where
  libraries : List Library
  deriving DecidableEq, Repr, Inhabited

namespace Registry

def empty : Registry := ⟨[]⟩

def library? (registry : Registry) (name : String) : Option Library :=
  registry.libraries.find? (·.name == name)

/-- The snippet of that name, whichever library holds it. -/
def snippet? (registry : Registry) (name : String) : Option Snippet :=
  registry.libraries.findSome? (·.find? name)

def snippets (registry : Registry) : List Snippet := registry.libraries.flatMap (·.snippets)

/-- Adds a library. Its name is looked at first, then the names of its snippets. -/
def add (registry : Registry) (library : Library) : Except Library.Error Registry :=
  if (registry.library? library.name).isSome then .error (.duplicateLibrary library.name)
  else
    match library.snippets.find? fun s => (registry.snippet? s.name).isSome with
    | some clash => .error (.duplicateSnippet clash.name)
    | none => .ok ⟨registry.libraries ++ [library]⟩

def load (registry : Registry) (text : String) :
    Except Library.Error (List Library.Diagnostic × Registry) := do
  let loaded ← Library.parse text
  let registry ← registry.add loaded.library
  return (loaded.diagnostics, registry)

end Registry

end Stencil
