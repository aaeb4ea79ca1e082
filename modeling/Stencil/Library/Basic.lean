import Stencil.Snippet.Basic

/-!
# Libraries

A library is a named list of snippets in which no two have the same name: `add` refuses
a name that is taken. `Library.Error` holds what can go wrong with libraries as a whole.
-/

namespace Stencil

structure Library where
  name : String
  /-- The name shown on the toolbar. -/
  toolbar : String
  version : String
  snippets : List Snippet
  deriving DecidableEq, Repr, Inhabited

namespace Library

inductive Heading where
  | name
  | toolbar
  | version
  deriving DecidableEq, Repr, Inhabited

def Heading.describe : Heading → String
  | name => "name"
  | toolbar => "toolbar name"
  | version => "version"

inductive Error where
  /-- The text ends before one of its headings. -/
  | missingHeading (heading : Heading)
  | duplicateSnippet (name : String)
  | duplicateLibrary (name : String)
  | unreadable (path reason : String)
  deriving DecidableEq, Repr, Inhabited

def Error.message : Error → String
  | missingHeading heading => "library is missing its " ++ heading.describe ++ " line"
  | duplicateSnippet name => "duplicate snippet definition: " ++ name
  | duplicateLibrary name => "duplicate library: " ++ name
  | unreadable path reason => "error reading library file " ++ path ++ ": " ++ reason

def find? (library : Library) (name : String) : Option Snippet :=
  library.snippets.find? (·.name == name)

def contains (library : Library) (name : String) : Bool := (library.find? name).isSome

/-- Puts a snippet at the end; its name must be free. -/
def add (library : Library) (snippet : Snippet) : Except Error Library :=
  if library.contains snippet.name then .error (.duplicateSnippet snippet.name)
  else .ok { library with snippets := library.snippets ++ [snippet] }

def describe (library : Library) : String :=
  library.name ++ " : " ++ library.toolbar ++ " : " ++ library.version ++ "\n" ++
    String.join (library.snippets.map fun s => s.describe ++ "\n")

end Library

end Stencil
