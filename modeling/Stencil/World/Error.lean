import Stencil.World.Basic

/-!
# Refused edits

Why an edit of a world is refused, and how that is worded.
-/

namespace Stencil

inductive Side where
  | source
  | target
  deriving DecidableEq, Repr, Inhabited

def Side.describe : Side → String
  | source => "from"
  | target => "to"

namespace World

inductive Error where
  | duplicateName (name : String)
  | unknownInstance (id : InstanceId)
  | unknownArray (index count : Nat)
  | unknownAttribute (className attributeName : String)
  /-- The value is none of the options. -/
  | invalidOption (className attributeName value options : String)
  /-- The one instance that is allowed is there already. -/
  | uniqueClass (className : String)
  /-- A relation needs two ends. -/
  | relationClass (className : String)
  | notARelation (className : String)
  /-- A relation cannot end at a relation. -/
  | endpointNotEntity (name : String)
  | endpointMismatch (className : String) (side : Side) (expected found : String)
  | selfRelation (name : String)
  /-- The one relation of the class that is allowed is there already. -/
  | endpointTaken (name className : String)
  | invalidName (name : String)
  | environmentRemoval
  /-- The environment is not repeated. -/
  | environmentArray
  /-- The environment is no relation. -/
  | environmentNotEntity (className : String)
  deriving DecidableEq, Repr, Inhabited

def Error.message : Error → String
  | duplicateName name => "an object named '" ++ name ++ "' already exists"
  | unknownInstance id => "no object with id " ++ id.describe
  | unknownArray index count =>
      "array index " ++ toString index ++ " is out of range (" ++ toString count ++
        " arrays defined)"
  | unknownAttribute className attributeName =>
      "class '" ++ className ++ "' has no attribute '" ++ attributeName ++ "'"
  | invalidOption className attributeName value options =>
      "'" ++ value ++ "' is not an option of " ++ className ++ "." ++ attributeName ++
        " (options: " ++ options ++ ")"
  | uniqueClass className => "class '" ++ className ++ "' allows a single instance"
  | relationClass className =>
      "class '" ++ className ++ "' is a relation and needs two endpoints"
  | notARelation className => "class '" ++ className ++ "' is not a relation"
  | endpointNotEntity name => "relations connect entities, but '" ++ name ++ "' is a relation"
  | endpointMismatch className side expected found =>
      "'" ++ className ++ "' expects a '" ++ expected ++ "' " ++ side.describe ++
        " endpoint, got '" ++ found ++ "'"
  | selfRelation name => "a relation cannot connect '" ++ name ++ "' to itself"
  | endpointTaken name className =>
      "'" ++ name ++ "' already has a '" ++ className ++ "' relation"
  | invalidName name => "'" ++ name ++ "' is not a valid object name"
  | environmentRemoval => "the environment object cannot be removed"
  | environmentArray => "the environment object cannot be replicated over an array"
  | environmentNotEntity className =>
      "the environment class '" ++ className ++ "' must be an entity"

end World

end Stencil
