/-!
# Message catalogs

A script is always written, whatever is wrong with its patterns. The catalog holds the
texts that stand in for what cannot be written.
-/

namespace Stencil

/-- The texts that stand in for what cannot be written. -/
structure Catalog where
  name? : Option String
  /-- Stands for a pattern with a tag that is not closed. -/
  badPattern : String
  /-- Stands behind a token that resolves to nothing. -/
  notFoundSuffix : String
  deriving DecidableEq, Repr, Inhabited

namespace Catalog

def standard : Catalog := ⟨none, "# bad formed pattern", ".NotFound"⟩

def notFound (catalog : Catalog) (token : String) : String := token ++ catalog.notFoundSuffix

end Catalog

end Stencil
