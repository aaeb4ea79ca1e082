import Stencil.Program
import Stencil.World.History

/-!
# Edits as programs

The functions of `Stencil.World.Edit` return the world after an edit, or none if it is
refused. Here an edit is a program that changes the world in place.
-/

namespace Stencil

namespace World

/-- Applies `f` to the first instance of that number. -/
def alterFirst (w : World) (id : InstanceId) (f : Instance → Instance) : World :=
  if w.environment.id = id then { w with environment := f w.environment }
  else { w with others := w.others.modify (w.others.findIdx (·.id == id)) f }

abbrev Action (α : Type) := Program Error World α

namespace Action

open Program

/-- Hands out the next number, which is spent then. -/
def allocate : Action InstanceId := do
  let w ← get
  set { w with nextId := w.nextId + 1 }
  return ⟨w.nextId⟩

def create (snippet : Snippet) (name : String) (role : Role) : Action InstanceId := do
  let id ← allocate
  modify fun w => { w with others := w.others ++ [.create id snippet name role] }
  return id

def addEntity (snippet : Snippet) (name : String) : Action InstanceId := do
  failIf snippet.isRelation (.relationClass snippet.name)
  check (·.checkNew snippet name)
  create snippet name .entity

def instantiate (snippet : Snippet) : Action InstanceId := do
  let name := (← get).freshName snippet.name
  addEntity snippet name

def addRelation (snippet : Snippet) (name : String) (source target : InstanceId) :
    Action InstanceId :=
  match snippet.kind with
  | .entity .. => throw (.notARelation snippet.name)
  | .relation sourceEnd targetEnd _ => do
      check (·.checkNew snippet name)
      let a ← check (·.demand source)
      let b ← check (·.demand target)
      failIf (source = target) (.selfRelation a.name)
      check fun _ => checkCategory snippet.name .source sourceEnd a
      check fun _ => checkCategory snippet.name .target targetEnd b
      check (·.checkVacant snippet.name sourceEnd a)
      check (·.checkVacant snippet.name targetEnd b)
      create snippet name (.relation source target)

def connect (snippet : Snippet) (source target : InstanceId) : Action InstanceId := do
  let name := (← get).freshName snippet.name
  addRelation snippet name source target

def setAttribute (id : InstanceId) (attributeName value : String) : Action Unit := do
  let o ← check (·.demand id)
  match o.snippet.attributeIndex? attributeName with
  | none => throw (.unknownAttribute o.snippet.name attributeName)
  | some index => do
      o.snippet.attributes[index]?.forM fun a =>
        failIf (!a.allows value)
          (.invalidOption o.snippet.name attributeName value (trimmed a.optionsText))
      modify (·.alterFirst id fun o => { o with values := o.values.set index value })

def rename (id : InstanceId) (name : String) : Action Unit := do
  if ((← get).get? id).any (·.name == name) then return
  check (·.checkName name)
  let _ ← check (·.demand id)
  modify (·.alterFirst id fun o => { o with name := name })

def remove (id : InstanceId) : Action (List InstanceId) := do
  failIf (id = (← get).environment.id) .environmentRemoval
  let _ ← check (·.demand id)
  let removed := (← get).attached id
  modify (·.without removed)
  return removed

def reset : Action Unit := do
  modify fun w => { w with others := [] }
  modify fun w => { w with arrays := [] }
  modify fun w =>
    { w with environment := { w.environment with values := w.environment.snippet.initialValues } }
  modify fun w => { w with environment := { w.environment with name := defaultEnvironmentName } }

def addArray (name : String) (elements : Nat) : Action Nat := do
  modify fun w => { w with arrays := w.arrays ++ [⟨name, elements⟩] }
  return (← get).arrays.length - 1

def resizeArray (index elements : Nat) : Action Unit := do
  let array ← check (·.demandArray index)
  modify fun w => { w with arrays := w.arrays.set index { array with elements := elements } }

/-- Removes an array. Only then do the instances lose their place on it or move along. -/
def removeArray (index : Nat) : Action ArrayDef := do
  let array ← check (·.demandArray index)
  modify fun w => { w with arrays := w.arrays.eraseIdx index }
  modify (·.mapInstances (·.withoutArray index))
  return array

def setArray (id : InstanceId) (index? : Option Nat) : Action Unit := do
  failIf (id = (← get).environment.id && index?.isSome) .environmentArray
  index?.forM fun index => check fun w => discard (w.demandArray index)
  let _ ← check (·.demand id)
  modify (·.alterFirst id fun o => { o with array? := index? })

end Action

def Edit.program : Edit → Action Reply
  | instantiate snippet => return .created (← Action.instantiate snippet)
  | addEntity snippet name => return .created (← Action.addEntity snippet name)
  | connect snippet source target => return .created (← Action.connect snippet source target)
  | addRelation snippet name source target =>
      return .created (← Action.addRelation snippet name source target)
  | setAttribute id attributeName value => do
      Action.setAttribute id attributeName value
      return .done
  | rename id name => do
      Action.rename id name
      return .done
  | remove id => return .removed (← Action.remove id)
  | reset => do
      Action.reset
      return .done
  | addArray name elements => return .arrayAdded (← Action.addArray name elements)
  | resizeArray index elements => do
      Action.resizeArray index elements
      return .done
  | removeArray index => return .arrayRemoved (← Action.removeArray index)
  | setArray id index? => do
      Action.setArray id index?
      return .done

/-- Runs the programs of edits one after the other, each in the world that the one before it
has left. -/
def execAll (w : World) : List Edit → List (Except Error Reply) × World
  | [] => ([], w)
  | edit :: edits =>
      let (reply, w) := edit.program.exec w
      let (replies, w) := w.execAll edits
      (reply :: replies, w)

end World

end Stencil
