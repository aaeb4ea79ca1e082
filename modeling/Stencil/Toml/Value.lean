/-!
# TOML values

A value of a TOML document. Floats and dates are kept as text, since nothing is computed
with them. A table remembers how it came about, because that decides whether a later line
of the document may still add to it.
-/

namespace Stencil

namespace Toml

/-- How a table came about. -/
inductive Origin where
  /-- Written out between braces: complete. -/
  | inline
  /-- Opened by a header of its own. -/
  | header
  /-- Named on the way in the header of another table. -/
  | implied
  /-- Named on the way in a dotted key. -/
  | dotted
  deriving DecidableEq, Repr, Inhabited

inductive Value where
  | string (text : String)
  | integer (value : Int)
  /-- A float, as it is written. -/
  | float (text : String)
  | boolean (value : Bool)
  /-- A date, a time or both, in standard spelling. -/
  | datetime (text : String)
  /-- An array. It is `headed` if its elements are tables with headers of their own. -/
  | array (headed : Bool) (items : List Value)
  /-- A table, in the order in which its keys appear. -/
  | table (origin : Origin) (entries : List (String × Value))
  deriving Repr, Inhabited

abbrev Entries := List (String × Value)

def Entries.get? (entries : Entries) (key : String) : Option Value :=
  (entries.find? (·.1 == key)).map (·.2)

end Toml

end Stencil
