import Stencil.Script.Frame
import Stencil.Script.Palette
import Stencil.Script.Precedence
import Stencil.Script.Resolve
import Stencil.Script.Template
import Stencil.World.Edit

/-!
# Generating a script

The text of an instance is made of the lines that its patterns write, with the loops of
its arrays around them. The script is the texts of all instances in order, and a last
line that runs the environment. Generation reads the world and never fails; only passes,
which run before, change it, and they change values alone.
-/

namespace Stencil

structure Style where
  separator : Char
  loops : LoopStyle
  catalog : Catalog
  deriving DecidableEq, Repr, Inhabited

def Style.standard : Style := ⟨'#', .nested, .standard⟩

/-- A pass replaces the values of an instance, whose name it is told. It keeps their
number. -/
structure Pass where
  apply : String → List String → List String
  length_apply : ∀ name values, (apply name values).length = values.length

def Pass.distinctColors : Pass := ⟨fun _ => Palette.distinguish, by simp⟩

namespace World

def line (w : World) (style : Style) (o : Instance) (template : String) : String :=
  match Template.fill (w.resolve style.catalog o) style.separator template with
  | .ok text => text
  | .error _ => style.catalog.badPattern

def lines (w : World) (style : Style) (o : Instance) : List String :=
  (o.snippet.patterns.map fun p => w.line style o (p.select (w.resolve style.catalog o))).filter
    (!isBlankText ·)

/-- The text of an instance: empty if it writes no line, even on an array. -/
def text (w : World) (style : Style) (o : Instance) : String :=
  let lines := w.lines style o
  if lines.isEmpty then ""
  else trimmed ((w.frame style.loops o).wrap (String.join (lines.map (· ++ "\n"))))

def runLine (w : World) : String := "$" ++ w.environment.name ++ " run"

def script (w : World) (style : Style) : String :=
  String.intercalate "\n"
    ((w.ordered.map (w.text style)).filter (!·.isEmpty) ++ [w.runLine])

end World

/-- A style and the passes to run on the instances of classes. -/
structure Generator where
  style : Style
  passes : List (String × Pass)

namespace Generator

/-- Registers a pass for a class, in place of the one it has. -/
def register (g : Generator) (className : String) (pass : Pass) : Generator :=
  { g with passes := (className, pass) :: g.passes.filter (·.1 != className) }

def pass? (g : Generator) (className : String) : Option Pass :=
  (g.passes.find? (·.1 == className)).map (·.2)

def hasPasses (g : Generator) : Bool := !g.passes.isEmpty

def prepareInstance (g : Generator) (o : Instance) : Instance :=
  match g.pass? o.snippet.name with
  | some pass => { o with values := pass.apply o.name o.values }
  | none => o

def prepare (g : Generator) (w : World) : World := w.mapInstances g.prepareInstance

/-- The script of a world after the passes, and the world after them. -/
def assemble (g : Generator) (w : World) : String × World :=
  let w := g.prepare w
  (w.script g.style, w)

end Generator

end Stencil
