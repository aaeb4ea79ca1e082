import Stencil.Text.Cut
import Stencil.Snippet.Basic

/-!
# Clauses

The attributes and the patterns of a block are clauses, separated by semicolons. A
clause is trimmed, and blank ones are passed over. A clause may go on over several
lines: the line breaks are dropped and nothing is put in their place.
-/

namespace Stencil

namespace Snippet

structure Clause where
  /-- The text, without line breaks. -/
  text : List Char
  span : Span
  deriving DecidableEq, Repr, Inhabited

def joinLines (s : List Char) : List Char := s.filter fun c => c != '\n' && c != '\r'

/-- The clauses among the pieces between semicolons, the first of which starts at byte
`pos`. -/
def clausesFrom (pos : Nat) : List (List Char) → List Clause
  | [] => []
  | piece :: rest =>
      let later := clausesFrom (pos + Text.size piece + Text.size [';']) rest
      let body := Text.trim piece
      if body.isEmpty then later
      else
        let margin := piece.takeWhile Text.isBlank
        ⟨joinLines body, .ofText (pos + Text.size margin) body⟩ :: later

def clauses (pos : Nat) (text : List Char) : List Clause :=
  clausesFrom pos (Text.pieces (· == ';') text)

inductive AttributeFault where
  /-- Nothing stands before the default and the options. -/
  | emptyName
  | blankInName (name : String)
  deriving DecidableEq, Repr, Inhabited

def AttributeFault.message : AttributeFault → String
  | emptyName => "attribute name is empty"
  | blankInName name => "attribute name '" ++ name ++ "' contains whitespace"

inductive PatternFault where
  /-- The guard is not compared with anything. -/
  | noValue
  | noMain
  | noAlternative
  | noGuard
  deriving DecidableEq, Repr, Inhabited

def PatternFault.message : PatternFault → String
  | noValue => "conditional pattern has no '='"
  | noMain => "conditional pattern has no ':'"
  | noAlternative => "conditional pattern has no alternative"
  | noGuard => "conditional pattern has no attribute"

/-- Cuts off what follows the first `sep`, if there is one. -/
def cutOff (sep : Char) (s : List Char) : List Char × Option (List Char) :=
  match Text.cutAt? sep s with
  | some (before, after) => (before, some after)
  | none => (s, none)

/-- An attribute clause is `name=default:options`, where the default and the options
may be left out. An equals sign after the first colon belongs to the options. -/
def parseAttribute (clause : List Char) : Except AttributeFault Attribute :=
  let (declared, options) := cutOff ':' clause
  let (name, initial) := cutOff '=' declared
  let name := Text.trim name
  if name.isEmpty then .error .emptyName
  else if name.any Text.isBlank then .error (.blankInName (String.ofList name))
  else
    .ok ⟨String.ofList name, initial.map (String.ofList ∘ Text.trim),
      options.map String.ofList⟩

/-- A pattern clause is a template, or `?guard=value:main:alternative`. The guard and
the value are trimmed, the templates are not, and the alternative may hold colons. -/
def parsePattern : List Char → Except PatternFault Pattern
  | '?' :: choice =>
      match Text.cutAt? '=' choice with
      | none => .error .noValue
      | some (guard, rest) =>
          match Text.cutAt? ':' rest with
          | none => .error .noMain
          | some (value, templates) =>
              match Text.cutAt? ':' templates with
              | none => .error .noAlternative
              | some (main, alternative) =>
                  let guard := Text.trim guard
                  if guard.isEmpty then .error .noGuard
                  else
                    .ok (.conditional (String.ofList guard)
                      (String.ofList (Text.trim value)) (String.ofList main)
                      (String.ofList alternative))
  | template => .ok (.literal (String.ofList template))

end Snippet

end Stencil
