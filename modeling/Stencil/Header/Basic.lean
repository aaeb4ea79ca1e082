/-!
# Headers

What the header of a snippet declares: its name, whether a world may hold one instance
of it only, and whether its instances are entities of a category or relations between
entities of two categories.
-/

namespace Stencil

/-- The drawing style of a relation's line. It is carried along and never read. -/
structure LineStyle where
  base : Int32
  line : Int32
  width : Int32
  tip : Int32
  deriving DecidableEq, Repr, Inhabited

/-- What a relation asks of the entity at one of its ends. -/
structure Endpoint where
  category : String
  /-- Whether the entity may take part in one relation of the class only. -/
  unique : Bool
  deriving DecidableEq, Repr, Inhabited

inductive Kind where
  | entity (category : String) (icon : Int32)
  | relation (source target : Endpoint) (style : LineStyle)
  deriving DecidableEq, Repr, Inhabited

namespace Kind

def isRelation : Kind → Bool
  | entity .. => false
  | relation .. => true

def category? : Kind → Option String
  | entity category _ => some category
  | relation .. => none

def icon? : Kind → Option Int32
  | entity _ icon => some icon
  | relation .. => none

end Kind

structure Header where
  name : String
  /-- Whether a world may hold one instance only. -/
  unique : Bool
  kind : Kind
  deriving DecidableEq, Repr, Inhabited

end Stencil
