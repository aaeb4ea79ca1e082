import Stencil.World.Basic

/-!
# Loop frames

The text of an instance on an array stands in a loop over the array. The text of a
relation that is on no array stands in the loops of the arrays that its ends are on: one
loop if both are on the same array. There are two styles of writing two loops; they
differ in indentation only.
-/

namespace Stencil

structure Frame where
  opening : String
  closing : String
  deriving DecidableEq, Repr, Inhabited

inductive LoopStyle where
  /-- The inner loop is indented and closed first. -/
  | nested
  /-- The loop of the target is indented, and the loops are closed in the order in
  which they are opened. -/
  | legacy
  deriving DecidableEq, Repr, Inhabited

namespace Frame

def none : Frame := ⟨"", ""⟩

def isEmpty (frame : Frame) : Bool := frame.opening.isEmpty && frame.closing.isEmpty

def wrap (frame : Frame) (body : String) : String := frame.opening ++ body ++ frame.closing

def header (array : ArrayDef) : String :=
  "for \x7bset " ++ array.name ++ " 0\x7d \x7b$" ++ array.name ++ "<" ++
    toString array.elements ++ "\x7d \x7bincr " ++ array.name ++ "\x7d \x7b\n"

def footer : String := "\x7d\n"

def margin : String := "  "

end Frame

/-- The loops that the text of an instance stands in. The inner one is the loop over the
array that the target of a relation is on; it may be there without an outer one. -/
structure Loops where
  outer? : Option ArrayDef
  inner? : Option ArrayDef
  deriving DecidableEq, Repr, Inhabited

namespace Loops

/-- The arrays of the loops, in the order in which they are opened. -/
def toList (loops : Loops) : List ArrayDef := loops.outer?.toList ++ loops.inner?.toList

def frame (style : LoopStyle) : Loops → Frame
  | ⟨none, none⟩ => .none
  | ⟨some outer, none⟩ => ⟨Frame.header outer, Frame.footer⟩
  | ⟨none, some inner⟩ =>
      match style with
      | .nested => ⟨Frame.header inner, Frame.footer⟩
      | .legacy => ⟨Frame.margin ++ Frame.header inner, Frame.margin ++ Frame.footer⟩
  | ⟨some outer, some inner⟩ =>
      ⟨Frame.header outer ++ Frame.margin ++ Frame.header inner,
        match style with
        | .nested => Frame.margin ++ Frame.footer ++ Frame.footer
        | .legacy => Frame.footer ++ Frame.margin ++ Frame.footer⟩

end Loops

namespace World

def arrayIndexOf? (w : World) (id : InstanceId) : Option Nat := (w.get? id).bind (·.array?)

/-- The loops that the text of an instance stands in: the loop over its own array, or
else the loops over the arrays of its ends, which are one loop if they are one array. -/
def loops (w : World) (o : Instance) : Loops :=
  if o.array?.isSome then ⟨w.arrayOf? o, none⟩
  else
    match o.role with
    | .entity => ⟨none, none⟩
    | .relation source target =>
        let outer := w.arrayIndexOf? source
        let inner := w.arrayIndexOf? target
        if outer.isSome && outer == inner then ⟨outer.bind w.array?, none⟩
        else ⟨outer.bind w.array?, inner.bind w.array?⟩

def frame (w : World) (style : LoopStyle) (o : Instance) : Frame := (w.loops o).frame style

end World

end Stencil
