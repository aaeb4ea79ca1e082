import Stencil.Snippet.Basic

/-!
# Worlds

A world is a model of objects: the environment, which is always there, the other
instances in the order they were added, and the arrays over which instances can be
repeated. Instances are told apart by numbers that are handed out once and never again.

The environment is a field of its own, so that a world without one cannot be written
down; `instances` is the list that starts with it.
-/

namespace Stencil

structure InstanceId where
  index : Nat
  deriving DecidableEq, Repr, Inhabited

def InstanceId.describe (id : InstanceId) : String :=
  "InstanceId(" ++ toString id.index ++ ")"

structure ArrayDef where
  /-- The name of the loop variable. -/
  name : String
  elements : Nat
  deriving DecidableEq, Repr, Inhabited

/-- The position of an array once array `removed` is gone: the arrays behind it move up. -/
def ArrayDef.indexWithout? (removed index : Nat) : Option Nat :=
  if index = removed then none else if removed < index then some (index - 1) else some index

/-- What an instance is in the world. -/
inductive Role where
  | entity
  /-- A link between two instances. -/
  | relation (source target : InstanceId)
  deriving DecidableEq, Repr, Inhabited

namespace Role

def isRelation : Role → Bool
  | entity => false
  | relation .. => true

def ends? : Role → Option (InstanceId × InstanceId)
  | entity => none
  | relation source target => some (source, target)

def references : Role → InstanceId → Bool
  | entity, _ => false
  | relation source target, id => source == id || target == id

end Role

structure Instance where
  id : InstanceId
  snippet : Snippet
  name : String
  /-- The position of the array it is repeated over. -/
  array? : Option Nat
  /-- The values of the attributes, in the order of the class. -/
  values : List String
  role : Role
  deriving DecidableEq, Repr, Inhabited

namespace Instance

/-- A new instance has the initial values of its class and is on no array. -/
def create (id : InstanceId) (snippet : Snippet) (name : String) (role : Role) : Instance :=
  ⟨id, snippet, name, none, snippet.initialValues, role⟩

def isRelation (o : Instance) : Bool := o.role.isRelation

def references (o : Instance) (id : InstanceId) : Bool := o.role.references id

/-- The value at a position, empty behind the last one. -/
def value (o : Instance) (index : Nat) : String := o.values.getD index ""

def valueOf? (o : Instance) (attributeName : String) : Option String :=
  (o.snippet.attributeIndex? attributeName).map o.value

def setValue (o : Instance) (attributeName value : String) : Instance :=
  match o.snippet.attributeIndex? attributeName with
  | some index => { o with values := o.values.set index value }
  | none => o

def withoutArray (o : Instance) (index : Nat) : Instance :=
  { o with array? := o.array?.bind (ArrayDef.indexWithout? index) }

end Instance

/-- A model of objects. -/
structure World where
  environment : Instance
  /-- The other instances, in the order they were added. -/
  others : List Instance
  arrays : List ArrayDef
  /-- The next number to hand out. -/
  nextId : Nat
  deriving DecidableEq, Repr, Inhabited

namespace World

def instances (w : World) : List Instance := w.environment :: w.others

def get? (w : World) (id : InstanceId) : Option Instance := w.instances.find? (·.id == id)

def find? (w : World) (name : String) : Option Instance :=
  w.instances.find? (·.name == name)

def isFree (w : World) (name : String) : Bool := (w.find? name).isNone

def hasInstanceOf (w : World) (className : String) : Bool :=
  w.instances.any (·.snippet.name == className)

def hasRelation (w : World) (id : InstanceId) (className : String) : Bool :=
  w.instances.any fun o => o.snippet.name == className && o.references id

def array? (w : World) (index : Nat) : Option ArrayDef := w.arrays[index]?

def arrayIndex? (w : World) (name : String) : Option Nat :=
  w.arrays.findIdx? (·.name == name)

def arrayOf? (w : World) (o : Instance) : Option ArrayDef := o.array?.bind w.array?

def numbered (className : String) (n : Nat) : String := className ++ toString n

/-- The class name with the least number that makes a free name. Of as many numbers as
there are instances and one more, at least one does. -/
def freshName (w : World) (className : String) : String :=
  (((List.range (w.instances.length + 1)).map (numbered className)).find? w.isFree).getD
    className

end World

end Stencil
