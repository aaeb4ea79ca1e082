import Stencil.World.Basic

/-!
# The search for a fresh name

`World.freshName` looks through as many numbers as there are instances and one more. The search
here does not know how many it will need: it counts with words of 32 bits, tries the name that
each number makes, and stops at the first that is free. Nothing else stops it: behind the greatest
word comes the least one.
-/

namespace Stencil

namespace World

inductive Search where
  | trying (next : Int32)
  | found (name : String)
  deriving DecidableEq, Repr, Inhabited

namespace Search

def step (w : World) (className : String) : Search → Search
  | trying next =>
      let name := className ++ toString next.toInt
      if w.isFree name then found name else trying (next + 1)
  | found name => found name

end Search

/-- The search from zero on, after so many tries. -/
def search (w : World) (className : String) : Nat → Search
  | 0 => .trying 0
  | tries + 1 => (w.search className tries).step w className

end World

end Stencil
