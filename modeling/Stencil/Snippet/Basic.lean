import Stencil.Header.Basic
import Stencil.Text.Blank

/-!
# Snippets

A snippet defines a class: its header, the attributes of its instances and the patterns
that an instance writes into the script. `describe` is the listing of a definition.
-/

namespace Stencil

/-- An attribute of a snippet: a name, a default and the options allowed. -/
structure Attribute where
  name : String
  default? : Option String
  options? : Option String
  deriving DecidableEq, Repr, Inhabited

namespace Attribute

/-- The value of a new instance: empty unless a default is written. -/
def initial (a : Attribute) : String := a.default?.getD ""

def optionsText (a : Attribute) : String := a.options?.getD ""

/-- The options: the words of their text. -/
def options (a : Attribute) : List String :=
  (Text.words a.optionsText.toList).map String.ofList

/-- Whether the attribute may take the value. Without options it takes any. -/
def allows (a : Attribute) (value : String) : Bool :=
  a.options?.isNone || a.options.contains value

def describe (a : Attribute) : String :=
  a.name ++ " = " ++ a.initial ++ " : " ++ a.optionsText

end Attribute

/-- A pattern of a snippet: the template of one line of text, or a choice of two. -/
inductive Pattern where
  | literal (template : String)
  /-- The main template when the guard resolves to the value, else the alternative. -/
  | conditional (guard value main alternative : String)
  deriving DecidableEq, Repr, Inhabited

namespace Pattern

def guard? : Pattern → Option String
  | literal _ => none
  | conditional guard .. => some guard

/-- The template to use when names resolve as `resolve` says. -/
def select (resolve : String → String) : Pattern → String
  | literal template => template
  | conditional guard value main alternative =>
      if resolve guard = value then main else alternative

def describe : Pattern → String
  | literal template => template
  | conditional guard value main alternative =>
      guard ++ " = " ++ value ++ " : " ++ main ++ " : " ++ alternative

end Pattern

structure Snippet extends Header where
  /-- The attributes, in the order of an instance's values. -/
  attributes : List Attribute
  /-- The patterns, in the order of the lines they write. -/
  patterns : List Pattern
  deriving DecidableEq, Repr, Inhabited

namespace Snippet

def isRelation (s : Snippet) : Bool := s.kind.isRelation

def category? (s : Snippet) : Option String := s.kind.category?

/-- The first attribute of that name. -/
def attribute? (s : Snippet) (name : String) : Option Attribute :=
  s.attributes.find? (·.name == name)

def attributeIndex? (s : Snippet) (name : String) : Option Nat :=
  s.attributes.findIdx? (·.name == name)

def initialValues (s : Snippet) : List String := s.attributes.map (·.initial)

def describe (s : Snippet) : String :=
  s.name ++ "\n" ++ String.join (s.attributes.map fun a => "  " ++ a.describe ++ "\n") ++
    "begin\n" ++ String.join (s.patterns.map fun p => "  " ++ p.describe ++ "\n") ++ "end\n"

end Snippet

end Stencil
