import Stencil.Toml.Value

/-!
# Records in TOML

A record is read from a table, by the names of its fields, or from an array, by their
order. A date counts as a table with one reserved key. What a field holds is then read
as a string, a number, a list or a map of strings.
-/

namespace Stencil

namespace Toml

structure Field where
  name : String
  /-- Whether an array may end before it. -/
  omissible : Bool
  deriving DecidableEq, Repr, Inhabited

namespace Value

def text? : Value → Option String
  | string text => some text
  | _ => none

/-- The number, if it is not negative. -/
def natural? : Value → Option Nat
  | integer n => if 0 ≤ n then some n.toNat else none
  | _ => none

def items? : Value → Option (List Value)
  | array _ items => some items
  | _ => none

/-- The keys and values of a table, or of a date. -/
def entries? : Value → Option Entries
  | table _ entries => some entries
  | datetime text => some [("$__toml_private_datetime", string text)]
  | _ => none

/-- The strings of a table, sorted by key in the order of code points. -/
def textMap? (value : Value) : Option (List (String × String)) := do
  let entries ← value.entries?
  let pairs ← entries.mapM fun (key, value) => value.text?.map fun text => (key, text)
  return pairs.mergeSort fun a b => decide (a.1 ≤ b.1)

end Value

/-- The fields of a record, found by their order. -/
def fieldsByOrder? : List Field → List Value → Option (List (Option Value))
  | [], _ => some []
  | _ :: fields, value :: values => (fieldsByOrder? fields values).map (some value :: ·)
  | field :: fields, [] =>
      if field.omissible then (fieldsByOrder? fields []).map (none :: ·) else none

/-- The fields of a record. If it is `closed`, a table has no other keys. -/
def fields? (closed : Bool) (fields : List Field) (value : Value) :
    Option (List (Option Value)) :=
  match value with
  | .array _ items => fieldsByOrder? fields items
  | value => do
      let entries ← value.entries?
      if closed && entries.any fun entry => !fields.any (·.name == entry.1) then none
      else some (fields.map fun field => entries.get? field.name)

def required {α : Type} (read : Value → Option α) (field : Option Value) : Option α :=
  field.bind read

def optional {α : Type} (read : Value → Option α) : Option Value → Option (Option α)
  | none => some none
  | some value => (read value).map some

end Toml

end Stencil
