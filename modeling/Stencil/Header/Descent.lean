import Stencil.Header.Basic
import Stencil.Header.Token

/-!
# Reading a header by choices

`Descent.header` reads a header from its first token to its last. Whether a mark is written
shows at once. Whether a spare word is does not: a reading with the word and one without it are
tried one after the other, the second from where the first began, and so are relations and
entities. Which of the readings with and without a spare word is tried first is left open.
-/

namespace Stencil

namespace Header

/-- Takes tokens from the front of a list, or fails. -/
abbrev Descent := StateT (List Token) Option

namespace Descent

def take {α : Type} (result? : Token → Option α) : Descent α := fun
  | [] => none
  | token :: tokens => (result? token).map fun a => (a, tokens)

def exactly (token : Token) : Descent Unit := take fun t => if t = token then some () else none

/-- Takes a mark if it is there. -/
def mark : Descent Bool := (do exactly .bang; return true) <|> return false

def word : Descent String := take Token.name?

def integer : Descent Int32 := take fun
  | .integer n => some n
  | _ => none

def finish : Descent Unit := fun
  | [] => some ((), [])
  | _ :: _ => none

def endpoint : Descent Endpoint := do
  let unique ← mark
  let category ← word
  return ⟨category, unique⟩

def style : Descent LineStyle := do
  return ⟨← integer, ← integer, ← integer, ← integer⟩

def relationFields : Descent Kind := do
  return .relation (← endpoint) (← endpoint) (← style)

def entityFields : Descent Kind := do
  return .entity (← word) (← integer)

def named (fields : Descent Kind) : Descent (String × Kind) := do
  let name ← word
  let kind ← fields
  finish
  return (name, kind)

/-- The same behind a spare word, which is passed over. -/
def spared (fields : Descent Kind) : Descent (String × Kind) := do
  let _ ← word
  named fields

/-- Takes a name and the fields with or without a spare word. -/
def body (spareFirst : Bool) (fields : Descent Kind) : Descent (String × Kind) :=
  if spareFirst then spared fields <|> named fields else named fields <|> spared fields

def relation (spareFirst : Bool) : Descent Header := do
  let unique ← mark
  exactly .relation
  let (name, kind) ← body spareFirst relationFields
  return ⟨name, unique, kind⟩

/-- Takes an entity, whose first word is its kind word. -/
def entity (spareFirst : Bool) : Descent Header := do
  let unique ← mark
  let _ ← word
  let (name, kind) ← body spareFirst entityFields
  return ⟨name, unique, kind⟩

def header (relationSpareFirst entitySpareFirst : Bool) : Descent Header :=
  relation relationSpareFirst <|> entity entitySpareFirst

end Descent

end Header

end Stencil
