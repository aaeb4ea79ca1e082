import Stencil.Script.Generator
import Stencil.World.History

/-!
# Reachable worlds

A world is reachable if it comes from the environment alone by edits, refused or not, and
by passes of generators. What every reachable world satisfies is an invariant.
-/

namespace Stencil

namespace World

inductive Reachable : World → Prop where
  | start {snippet : Snippet} {name : String} {w : World} :
      ofEnvironment snippet name = .ok w → Reachable w
  | edit {w : World} (edit : Edit) : Reachable w → Reachable (w.perform edit).2
  | prepare {w : World} (g : Generator) : Reachable w → Reachable (g.prepare w)

/-- The world comes about by edits alone. -/
inductive EditReachable : World → Prop where
  | start {snippet : Snippet} {name : String} {w : World} :
      ofEnvironment snippet name = .ok w → EditReachable w
  | edit {w : World} (edit : Edit) : EditReachable w → EditReachable (w.perform edit).2

inductive Event where
  | edit (edit : Edit)
  | prepare (g : Generator)

/-- Lets events happen one after the other. The replies are those to the edits. -/
def follow (w : World) : List Event → List (Except Error Reply) × World
  | [] => ([], w)
  | .edit e :: events =>
      let (reply, w) := w.perform e
      let (replies, w) := w.follow events
      (reply :: replies, w)
  | .prepare g :: events => (g.prepare w).follow events

def Reply.created? : Reply → Option InstanceId
  | created id => some id
  | _ => none

def created (replies : List (Except Error Reply)) : List InstanceId :=
  replies.filterMap fun reply => reply.toOption.bind Reply.created?

theorem EditReachable.reachable {w : World} (h : EditReachable w) : Reachable w := by
  induction h with
  | start hw => exact .start hw
  | edit e _ ih => exact .edit e ih

end World

end Stencil
