import Stencil.Toml.Value

/-!
# Building tables

A document is a list of sections, each a header with key and value pairs under it. The
sections are put into the root table one after the other. A table is opened by a header
once, and a table that a dotted key names on its way is not opened by a header at all; what
would define something twice has no table as its result.
-/

namespace Stencil

namespace Toml

/-- A dotted key: the keys on the way, and the last one. -/
structure Path where
  parents : List String
  key : String
  deriving DecidableEq, Repr, Inhabited

/-- Replaces the value of a key, or adds the key behind the others. -/
def alter (key : String) (edit : Option Value → Option Value) : Entries → Option Entries
  | [] => (edit none).map fun value => [(key, value)]
  | (k, value) :: rest =>
      if k = key then (edit (some value)).map fun value => (k, value) :: rest
      else (alter key edit rest).map ((k, value) :: ·)

/-- Whether a path may go through a table: not if the table is complete, and a dotted
key may not add to a table with a header of its own. -/
def Origin.isOpen (byDots : Bool) : Origin → Bool
  | inline => false
  | header => !byDots
  | implied => true
  | dotted => true

/-- Edits the table at the end of a path. Tables on the way are made where they are
missing; of an array of tables the last one counts. -/
def descend (byDots : Bool) (edit : Origin → Entries → Option Entries) :
    List String → Origin → Entries → Option Entries
  | [], origin, entries => edit origin entries
  | key :: path, _, entries =>
      let enter (origin : Origin) (sub : Entries) : Option Value :=
        (descend byDots edit path origin sub).map (.table origin)
      let step : Option Value → Option Value
        | none => enter (if byDots then .dotted else .implied) []
        | some (.table origin sub) => if origin.isOpen byDots then enter origin sub else none
        | some (.array true items) =>
            match items.getLast? with
            | some (.table origin sub) =>
                (enter origin sub).map fun last => .array true (items.dropLast ++ [last])
            | _ => none
        | some _ => none
      alter key step entries

/-- Adds a pair below a table. The key must be new, and a dotted key must end in a table
that dotted keys made. -/
def insertPair (origin : Origin) (entries : Entries) (path : Path) (value : Value) :
    Option Entries :=
  let place (origin : Origin) (entries : Entries) : Option Entries :=
    if (origin == .dotted) == path.parents.isEmpty then none
    else if (entries.get? path.key).isSome then none
    else some (entries ++ [(path.key, value)])
  descend true place path.parents origin entries

def insertPairs (origin : Origin) (entries : Entries) :
    List (Path × Value) → Option Entries
  | [] => some entries
  | (path, value) :: pairs => do
      let entries ← insertPair origin entries path value
      insertPairs origin entries pairs

inductive Heading where
  /-- The pairs before the first header. -/
  | root
  | table (path : Path)
  /-- A further element of an array of tables. -/
  | element (path : Path)
  deriving DecidableEq, Repr, Inhabited

structure Section where
  heading : Heading
  pairs : List (Path × Value)
  deriving Repr, Inhabited

def insertSection (root : Entries) (part : Section) : Option Entries :=
  let open? (sub : Entries) : Option Value :=
    (insertPairs .header sub part.pairs).map (.table .header)
  match part.heading with
  | .root => insertPairs .header root part.pairs
  | .table path =>
      let edit (_ : Origin) (entries : Entries) : Option Entries := do
        let value ←
          match entries.get? path.key with
          | none => open? []
          | some (.table .implied sub) => open? sub
          | some _ => none
        return entries.filter (·.1 != path.key) ++ [(path.key, value)]
      descend false edit path.parents .header root
  | .element path =>
      let edit (_ : Origin) (entries : Entries) : Option Entries :=
        let step : Option Value → Option Value
          | none => (open? []).map fun value => .array true [value]
          | some (.array true items) =>
              (open? []).map fun value => .array true (items ++ [value])
          | some _ => none
        alter path.key step entries
      descend false edit path.parents .header root

def rootOfSections (sections : List Section) : Option Entries :=
  sections.foldlM insertSection []

end Toml

end Stencil
