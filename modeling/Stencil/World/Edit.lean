import Stencil.World.Error

/-!
# Edits of a world

Each edit returns the world after it, or why it is refused; a refused edit has no world,
so it leaves none changed. The checks are made in the order in which they stand here, and
the first that fails is the answer.

`Edit` is an edit as data and `perform` carries it out, so that a history of edits is a
list.
-/

namespace Stencil

namespace World

/-- The name that the environment gets when none is given, and again on `reset`. -/
def defaultEnvironmentName : String := "ns"

def checkSyntax (name : String) : Except Error Unit :=
  if name.isEmpty || name.toList.any Text.isBlank then .error (.invalidName name) else .ok ()

/-- A new name must be well formed and free. -/
def checkName (w : World) (name : String) : Except Error Unit := do
  checkSyntax name
  if w.isFree name then return () else throw (.duplicateName name)

/-- A new instance needs a good name, and a unique class must have none yet. -/
def checkNew (w : World) (snippet : Snippet) (name : String) : Except Error Unit :=
  if snippet.unique && w.hasInstanceOf snippet.name then .error (.uniqueClass snippet.name)
  else w.checkName name

def demand (w : World) (id : InstanceId) : Except Error Instance :=
  match w.get? id with
  | some o => .ok o
  | none => .error (.unknownInstance id)

def demandArray (w : World) (index : Nat) : Except Error ArrayDef :=
  match w.array? index with
  | some array => .ok array
  | none => .error (.unknownArray index w.arrays.length)

def ofEnvironment (snippet : Snippet) (name : String) : Except Error World :=
  if snippet.isRelation then .error (.environmentNotEntity snippet.name)
  else do
    checkSyntax name
    return ⟨.create ⟨0⟩ snippet name .entity, [], [], 1⟩

def mapInstances (w : World) (f : Instance → Instance) : World :=
  { w with environment := f w.environment, others := w.others.map f }

def update (w : World) (id : InstanceId) (f : Instance → Instance) : World :=
  w.mapInstances fun o => if o.id = id then f o else o

def push (w : World) (snippet : Snippet) (name : String) (role : Role) : InstanceId × World :=
  let id : InstanceId := ⟨w.nextId⟩
  (id, { w with others := w.others ++ [.create id snippet name role], nextId := w.nextId + 1 })

def addEntity (w : World) (snippet : Snippet) (name : String) :
    Except Error (InstanceId × World) := do
  if snippet.isRelation then throw (.relationClass snippet.name)
  w.checkNew snippet name
  return w.push snippet name .entity

def instantiate (w : World) (snippet : Snippet) : Except Error (InstanceId × World) :=
  w.addEntity snippet (w.freshName snippet.name)

def checkCategory (className : String) (side : Side) (endpoint : Endpoint) (o : Instance) :
    Except Error Unit :=
  match o.snippet.category? with
  | none => .error (.endpointNotEntity o.name)
  | some found =>
      if found = endpoint.category then .ok ()
      else .error (.endpointMismatch className side endpoint.category found)

/-- At a unique end the instance must have no relation of the class yet, at either end. -/
def checkVacant (w : World) (className : String) (endpoint : Endpoint) (o : Instance) :
    Except Error Unit :=
  if endpoint.unique && w.hasRelation o.id className then
    .error (.endpointTaken o.name className)
  else .ok ()

def addRelation (w : World) (snippet : Snippet) (name : String)
    (source target : InstanceId) : Except Error (InstanceId × World) :=
  match snippet.kind with
  | .entity .. => .error (.notARelation snippet.name)
  | .relation sourceEnd targetEnd _ => do
      w.checkNew snippet name
      let a ← w.demand source
      let b ← w.demand target
      if source = target then throw (.selfRelation a.name)
      checkCategory snippet.name .source sourceEnd a
      checkCategory snippet.name .target targetEnd b
      w.checkVacant snippet.name sourceEnd a
      w.checkVacant snippet.name targetEnd b
      return w.push snippet name (.relation source target)

def connect (w : World) (snippet : Snippet) (source target : InstanceId) :
    Except Error (InstanceId × World) :=
  w.addRelation snippet (w.freshName snippet.name) source target

/-- Sets the first attribute of that name, if its options allow the value. -/
def setAttribute (w : World) (id : InstanceId) (attributeName value : String) :
    Except Error World := do
  let o ← w.demand id
  match o.snippet.attribute? attributeName with
  | none => throw (.unknownAttribute o.snippet.name attributeName)
  | some a =>
      if a.allows value then return w.update id (·.setValue attributeName value)
      else
        throw (.invalidOption o.snippet.name attributeName value (trimmed a.optionsText))

/-- Gives an instance a new name. To give it the name it has is always allowed. -/
def rename (w : World) (id : InstanceId) (name : String) : Except Error World :=
  if (w.get? id).any (·.name == name) then .ok w
  else do
    w.checkName name
    let _ ← w.demand id
    return w.update id fun o => { o with name := name }

/-- The numbers that go with an instance: its own, then those of the relations that end at
it, in the order they were added. -/
def attached (w : World) (id : InstanceId) : List InstanceId :=
  id :: (w.instances.filter (·.references id)).map (·.id)

/-- The world without the instances of those numbers. The environment stays. -/
def without (w : World) (ids : List InstanceId) : World :=
  { w with others := w.others.filter fun o => !ids.contains o.id }

/-- Removes an instance and every relation that ends at it. Their numbers are returned,
that of the instance first. -/
def remove (w : World) (id : InstanceId) : Except Error (List InstanceId × World) :=
  if id = w.environment.id then .error .environmentRemoval
  else do
    let _ ← w.demand id
    return (w.attached id, w.without (w.attached id))

/-- Leaves the environment alone, with its initial values and the default name, and no
arrays. The numbers handed out so far stay spent. -/
def reset (w : World) : World :=
  { w with
    environment :=
      { w.environment with
        values := w.environment.snippet.initialValues, name := defaultEnvironmentName }
    others := []
    arrays := [] }

def addArray (w : World) (name : String) (elements : Nat) : Nat × World :=
  (w.arrays.length, { w with arrays := w.arrays ++ [⟨name, elements⟩] })

def resizeArray (w : World) (index elements : Nat) : Except Error World := do
  let array ← w.demandArray index
  return { w with arrays := w.arrays.set index { array with elements := elements } }

/-- The world without the array at a position. Instances on it are on none any more, and
those on the arrays behind it move along. -/
def withoutArray (w : World) (index : Nat) : World :=
  { w.mapInstances (·.withoutArray index) with arrays := w.arrays.eraseIdx index }

def removeArray (w : World) (index : Nat) : Except Error (ArrayDef × World) := do
  let array ← w.demandArray index
  return (array, w.withoutArray index)

def setArray (w : World) (id : InstanceId) (index? : Option Nat) : Except Error World := do
  if id = w.environment.id && index?.isSome then throw .environmentArray
  if let some index := index? then
    let _ ← w.demandArray index
  let _ ← w.demand id
  return w.update id fun o => { o with array? := index? }

end World

end Stencil
