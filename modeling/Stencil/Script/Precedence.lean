import Stencil.World.Basic

/-!
# The order of a script

A script writes the environment first and the other instances by rank, then by name. The
layer of an entity follows from its icon. Entities have odd ranks, relations have the
even ranks between, so that a relation comes after the entities it links.
-/

namespace Stencil

inductive Layer where
  | node
  /-- Agents, which sit on nodes. -/
  | agent
  /-- Applications, which run on agents. -/
  | application
  | timer
  | generic
  /-- Entities with any other icon. -/
  | other
  deriving DecidableEq, Repr, Inhabited

namespace Layer

def ofIcon (icon : Int32) : Layer :=
  match icon.toInt with
  | 0 => node
  | 1 => agent
  | 2 => application
  | 3 => timer
  | 4 => generic
  | _ => other

def of? (o : Instance) : Option Layer := o.snippet.kind.icon?.map ofIcon

def rank : Layer → Nat
  | node => 1
  | agent => 3
  | application => 5
  | timer => 7
  | generic => 9
  | other => 11

def linkRank : Option Layer → Option Layer → Nat
  | some node, some node => 2
  | some node, some agent | some agent, some node | some agent, some agent => 4
  | some agent, some application | some application, some agent => 6
  | some timer, _ | _, some timer => 8
  | _, _ => 10

end Layer

namespace World

def rank (w : World) (o : Instance) : Nat :=
  match o.role with
  | .entity => ((Layer.of? o).getD .other).rank
  | .relation source target =>
      Layer.linkRank ((w.get? source).bind Layer.of?) ((w.get? target).bind Layer.of?)

/-- Whether one instance may stand before another: by rank, then by name in the order
of code points. -/
def precedes (w : World) (a b : Instance) : Bool :=
  w.rank a < w.rank b || (w.rank a == w.rank b && decide (a.name ≤ b.name))

def ordered (w : World) : List Instance :=
  w.environment :: w.others.mergeSort w.precedes

end World

end Stencil
