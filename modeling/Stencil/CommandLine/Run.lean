import Stencil.Catalog.Decode
import Stencil.CommandLine.Arguments
import Stencil.CommandLine.Directory
import Stencil.CommandLine.Page
import Stencil.Scene.Build
import Stencil.Scene.Decode
import Stencil.Script.Generator

/-!
# Running the command line

A run loads the libraries, then the message catalog, then the scene, and writes the
script. It reads files and standard input through two arguments, in any monad, and what
it writes is returned as an `Outcome`; so it can be run on files that are given as text.
-/

namespace Stencil

namespace CommandLine

structure Outcome where
  code : UInt32
  output : String
  notes : String
  deriving DecidableEq, Repr, Inhabited

namespace Outcome

def success (output notes : String) : Outcome := ⟨0, output, notes⟩

/-- The run stopped at something, which is noted on a line behind the other notes. -/
def failure (notes cause : String) : Outcome := ⟨1, "", notes ++ cause ++ "\n"⟩

def misuse (cause : Misuse) : Outcome := ⟨2, "", "error: " ++ cause.message ++ "\n"⟩

def breakOff (notes : String) : Outcome := ⟨101, "", notes⟩

end Outcome

/-- A run of which some is done: it may have stopped already. -/
abbrev Run (m : Type → Type) := ExceptT Outcome m

structure Loaded where
  registry : Registry
  /-- The reports on blocks that were left out. -/
  notes : String
  rejected : Nat
  deriving DecidableEq, Repr, Inhabited

/-- Where a run gets its texts from. A file that cannot be read gives the reason. -/
structure Sources (m : Type → Type) where
  file : String → m (Except FileError String)
  input : m String

/-- Takes what is left of standard input. Afterwards nothing is. -/
def takeInput : StateM String String := modifyGet fun rest => (rest, "")

def Directory.sources (d : Directory) : Sources (StateM String) where
  file path :=
    match d.resolve path with
    | .error e => return .error e
    | .ok (.text text) => return .ok text
    | .ok .input => return .ok (← takeInput)
  input := takeInput

section

variable {m : Type → Type} [Monad m]

def loadLibrary (sources : Sources m) (loaded : Loaded) (path : String) : Run m Loaded := do
  let stop (e : Library.Error) : Run m Loaded :=
    throw (.failure loaded.notes
      ("Error loading library '" ++ path ++ "': " ++ e.message))
  match ← sources.file path with
  | .error e => stop (.unreadable path e.message)
  | .ok text =>
      match loaded.registry.load text with
      | .error e => stop e
      | .ok (diagnostics, registry) =>
          match diagnostics.mapM (·.report? path) with
          | none => throw (.breakOff loaded.notes)
          | some reports =>
              return ⟨registry, loaded.notes ++ page reports,
                loaded.rejected + diagnostics.length⟩

def listing (registry : Registry) : String :=
  page (registry.libraries.flatMap fun library =>
    (library.name ++ " (" ++ library.toolbar ++ ", version " ++ library.version ++ ")") ::
      library.snippets.map fun s =>
        (if s.isRelation then "  relation " else "  entity ") ++ s.name)

/-- What is said about a document that is not TOML, or not of the right structure. -/
def malformed : String := "TOML parse error"

def readCatalog (sources : Sources m) (notes : String) : Option String → Run m Catalog
  | none => return .standard
  | some path => do
      let stop (reason : String) : Run m Catalog :=
        throw (.failure notes ("Error loading message catalog '" ++ path ++ "': " ++ reason))
      match ← sources.file path with
      | .error e => stop ("Failed to read message catalog file: " ++ e.message)
      | .ok text =>
          match Catalog.parse text with
          | some catalog => return catalog
          | none => stop ("Failed to parse message catalog TOML: " ++ malformed)

/-- Reads the scene, from standard input if no file is given. -/
def readScene (sources : Sources m) (notes : String) (path? : Option String) : Run m Scene := do
  let stop (reason : String) : Run m Scene :=
    match path? with
    | some path => throw (.failure notes ("Error loading scene '" ++ path ++ "': " ++ reason))
    | none => throw (.failure notes ("Error parsing scene: " ++ reason))
  let text ←
    match path? with
    | none => pure (.ok (← sources.input))
    | some path => sources.file path
  match text with
  | .error e => stop ("Failed to read scene file: " ++ e.message)
  | .ok text =>
      match Scene.parse text with
      | some scene => return scene
      | none => stop ("Failed to parse scene TOML: " ++ malformed)

def generatorOf (a : Arguments) (catalog : Catalog) : Generator :=
  let loops := if a.has .legacyLoops then LoopStyle.legacy else LoopStyle.nested
  let style : Style := ⟨a.separator?.getD Style.standard.separator, loops, catalog⟩
  a.distinctColors.foldl (fun g className => g.register className .distinctColors) ⟨style, []⟩

def perform (sources : Sources m) (a : Arguments) : Run m Outcome := do
  if a.has .help then return .success help ""
  if a.has .grammar then return .success grammar ""
  if a.libraries.isEmpty then return .success introduction ""
  let loaded ← a.libraries.foldlM (loadLibrary sources) ⟨.empty, "", 0⟩
  if a.has .check then
    let list := listing loaded.registry
    if loaded.rejected = 0 then return .success list loaded.notes
    else
      let count := toString loaded.rejected ++ " snippet(s) rejected"
      return ⟨1, list, loaded.notes ++ count ++ "\n"⟩
  let catalog ← readCatalog sources loaded.notes a.messages?
  let scene ← readScene sources loaded.notes a.scene?
  match scene.build loaded.registry with
  | .error e => return .failure loaded.notes ("Error building scene: " ++ e.message)
  | .ok w => return .success (((generatorOf a catalog).assemble w).1 ++ "\n") loaded.notes

def run (sources : Sources m) (arguments : List String) : m Outcome :=
  match Arguments.parse arguments with
  | .error cause => return .misuse cause
  | .ok a => do
      match ← (perform sources a).run with
      | .ok outcome => return outcome
      | .error outcome => return outcome

end

end CommandLine

end Stencil
