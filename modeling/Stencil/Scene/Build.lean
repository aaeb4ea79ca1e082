import Stencil.Library.Registry
import Stencil.Scene.Basic
import Stencil.World.Edit

/-!
# Building a scene

`Scene.build` makes the world that a scene describes, with the classes of a registry: the
environment and its values, the arrays, then each entity and each relation with its array
and its values. The first thing that cannot be done is the error.
-/

namespace Stencil

namespace Scene

inductive Error where
  | unknownClass (name : String)
  | unknownArray (name : String)
  /-- No instance so far has that name. -/
  | unknownInstance (name : String)
  | refused (cause : World.Error)
  deriving DecidableEq, Repr, Inhabited

def Error.message : Error → String
  | unknownClass name => "unknown class: " ++ name
  | unknownArray name => "unknown array: " ++ name
  | unknownInstance name => "unknown instance: " ++ name
  | refused cause => cause.message

def classOf (registry : Registry) (name : String) : Except Error Snippet :=
  match registry.snippet? name with
  | some snippet => .ok snippet
  | none => .error (.unknownClass name)

def instanceOf (w : World) (name : String) : Except Error InstanceId :=
  match w.find? name with
  | some o => .ok o.id
  | none => .error (.unknownInstance name)

/-- An edit of the world, refused in the words of the world. -/
def lift {α : Type} (edit : Except World.Error α) : Except Error α := edit.mapError .refused

/-- Puts an instance on the array of that name, if one is named. -/
def place (w : World) (id : InstanceId) : Option String → Except Error World
  | none => .ok w
  | some name =>
      match w.arrayIndex? name with
      | none => .error (.unknownArray name)
      | some index => lift (w.setArray id (some index))

def configure (w : World) (id : InstanceId) : Settings → Except Error World
  | [] => .ok w
  | (name, value) :: rest => do
      let w ← lift (w.setAttribute id name value)
      configure w id rest

def addArrays (w : World) (arrays : List ArrayDef) : World :=
  arrays.foldl (fun w array => (w.addArray array.name array.elements).2) w

def addEntity (registry : Registry) (w : World) (spec : EntitySpec) : Except Error World := do
  let snippet ← classOf registry spec.className
  let (id, w) ←
    match spec.name? with
    | some name => lift (w.addEntity snippet name)
    | none => lift (w.instantiate snippet)
  let w ← place w id spec.array?
  configure w id spec.settings

def addRelation (registry : Registry) (w : World) (spec : RelationSpec) :
    Except Error World := do
  let snippet ← classOf registry spec.className
  let source ← instanceOf w spec.source
  let target ← instanceOf w spec.target
  let (id, w) ←
    match spec.name? with
    | some name => lift (w.addRelation snippet name source target)
    | none => lift (w.connect snippet source target)
  let w ← place w id spec.array?
  configure w id spec.settings

def build (registry : Registry) (scene : Scene) : Except Error World := do
  let snippet ← classOf registry scene.environment.className
  let w ← lift (World.ofEnvironment snippet
    (scene.environment.name?.getD World.defaultEnvironmentName))
  let w ← configure w w.environment.id scene.environment.settings
  let w := addArrays w scene.arrays
  let w ← scene.entities.foldlM (addEntity registry) w
  scene.relations.foldlM (addRelation registry) w

end Scene

end Stencil
