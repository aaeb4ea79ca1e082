import Stencil.Text.Cut
import Stencil.Snippet.Error

/-!
# The sections of a block

A block reads `header : attributes begin patterns end`. The header ends at the first
colon, the attributes at the first whole word `begin` after it, and the patterns at the
last whole word `end` after that. What follows the last `end` is the tail.
-/

namespace Stencil

namespace Snippet

structure Sections where
  header : List Char
  attributes : List Char
  patterns : List Char
  tail : List Char
  deriving DecidableEq, Repr, Inhabited

namespace Sections

def attributesStart (s : Sections) : Nat := Text.size s.header + Text.size [':']

def patternsStart (s : Sections) : Nat :=
  s.attributesStart + Text.size s.attributes + Text.size "begin".toList

/-- The sections of a block, or the first marker it lacks. -/
def ofBlock (block : List Char) : Except Marker Sections :=
  match Text.cutAt? ':' block with
  | none => .error .colon
  | some (header, body) =>
      match Text.cutFirst? "begin".toList (some ':') body with
      | none => .error .beginWord
      | some (attributes, rest) =>
          match Text.cutLast? "end".toList (some 'n') rest with
          | none => .error .endWord
          | some (patterns, tail) => .ok ⟨header, attributes, patterns, tail⟩

end Sections

end Snippet

end Stencil
