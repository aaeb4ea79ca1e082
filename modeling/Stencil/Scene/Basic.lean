import Stencil.World.Basic

/-!
# Scenes

A scene describes a world in words: the environment, the arrays, then the entities and
the relations in the order in which they are added. Classes, arrays and ends are given by
name; what has no name of its own gets a fresh one.
-/

namespace Stencil

namespace Scene

/-- The values to set, by the name of the attribute. -/
abbrev Settings := List (String × String)

structure EnvironmentSpec where
  className : String
  name? : Option String
  settings : Settings
  deriving DecidableEq, Repr, Inhabited

structure EntitySpec where
  className : String
  name? : Option String
  /-- The array to repeat it over. -/
  array? : Option String
  settings : Settings
  deriving DecidableEq, Repr, Inhabited

structure RelationSpec where
  className : String
  name? : Option String
  /-- The name of the instance it comes from. -/
  source : String
  target : String
  array? : Option String
  settings : Settings
  deriving DecidableEq, Repr, Inhabited

end Scene

structure Scene where
  environment : Scene.EnvironmentSpec
  arrays : List ArrayDef
  entities : List Scene.EntitySpec
  relations : List Scene.RelationSpec
  deriving DecidableEq, Repr, Inhabited

end Stencil
