import Stencil.Scene.Build
import Stencil.Scene.Decode
import Stencil.Script.Generator

/-!
# From texts to a script

The whole way at once: a library and a scene as text, the script as text, in the standard
style and without passes.
-/

namespace Stencil

namespace Pipeline

inductive Error where
  | library (cause : Library.Error)
  /-- The text of the scene describes none. -/
  | malformedScene
  | scene (cause : Scene.Error)
  deriving DecidableEq, Repr, Inhabited

def Error.message : Error → String
  | library cause => "library error: " ++ cause.message
  | malformedScene => "scene error: malformed TOML"
  | scene cause => "scene error: " ++ cause.message

/-- The script of a scene. Blocks of the library that define nothing are passed over. -/
def script (library scene : String) : Except Error String := do
  let (_, registry) ← (Registry.empty.load library).mapError .library
  match Scene.parse scene with
  | none => throw .malformedScene
  | some scene =>
      let w ← (scene.build registry).mapError .scene
      return w.script .standard

end Pipeline

end Stencil
