import Stencil.World.Edit

/-!
# Histories of edits

An `Edit` is an edit as data; `perform` carries it out and returns what it answers
together with the world after it. A refused edit answers why, and the world stays.
-/

namespace Stencil

namespace World

inductive Edit where
  /-- Adds an entity with a fresh name. -/
  | instantiate (snippet : Snippet)
  | addEntity (snippet : Snippet) (name : String)
  | connect (snippet : Snippet) (source target : InstanceId)
  | addRelation (snippet : Snippet) (name : String) (source target : InstanceId)
  | setAttribute (id : InstanceId) (attributeName value : String)
  | rename (id : InstanceId) (name : String)
  /-- Removes an instance and the relations that end at it. -/
  | remove (id : InstanceId)
  | reset
  | addArray (name : String) (elements : Nat)
  | resizeArray (index elements : Nat)
  | removeArray (index : Nat)
  | setArray (id : InstanceId) (index? : Option Nat)
  deriving DecidableEq, Repr, Inhabited

inductive Reply where
  | done
  | created (id : InstanceId)
  | removed (ids : List InstanceId)
  | arrayAdded (index : Nat)
  | arrayRemoved (array : ArrayDef)
  deriving DecidableEq, Repr, Inhabited

namespace Edit

/-- The answer to an edit and the world after it, unless the edit is refused. -/
def run (w : World) : Edit → Except Error (Reply × World)
  | instantiate snippet => do
      let (id, w) ← w.instantiate snippet
      return (.created id, w)
  | addEntity snippet name => do
      let (id, w) ← w.addEntity snippet name
      return (.created id, w)
  | connect snippet source target => do
      let (id, w) ← w.connect snippet source target
      return (.created id, w)
  | addRelation snippet name source target => do
      let (id, w) ← w.addRelation snippet name source target
      return (.created id, w)
  | setAttribute id attributeName value => do
      return (.done, ← w.setAttribute id attributeName value)
  | rename id name => do return (.done, ← w.rename id name)
  | remove id => do
      let (ids, w) ← w.remove id
      return (.removed ids, w)
  | reset => .ok (.done, w.reset)
  | addArray name elements =>
      let (index, w) := w.addArray name elements
      .ok (.arrayAdded index, w)
  | resizeArray index elements => do return (.done, ← w.resizeArray index elements)
  | removeArray index => do
      let (array, w) ← w.removeArray index
      return (.arrayRemoved array, w)
  | setArray id index? => do return (.done, ← w.setArray id index?)

end Edit

/-- Carries out an edit. A refused one leaves the world as it is. -/
def perform (w : World) (edit : Edit) : Except Error Reply × World :=
  match edit.run w with
  | .ok (reply, w) => (.ok reply, w)
  | .error e => (.error e, w)

def performAll (w : World) : List Edit → List (Except Error Reply) × World
  | [] => ([], w)
  | edit :: edits =>
      let (reply, w) := w.perform edit
      let (replies, w) := w.performAll edits
      (reply :: replies, w)

end World

end Stencil
