import Stencil.Text.Span

/-!
# Errors of a snippet block

An error says what is wrong in a block and where. Its `message` is the line that names
it; reports that quote the block are drawn elsewhere.
-/

namespace Stencil

/-- A marker that separates the sections of a block. -/
inductive Marker where
  | colon
  | beginWord
  | endWord
  deriving DecidableEq, Repr, Inhabited

def Marker.text : Marker → String
  | colon => ":"
  | beginWord => "begin"
  | endWord => "end"

namespace Snippet

inductive Error where
  /-- The header is of no known form. -/
  | badHeader (span : Span) (message : String) (expected : List String)
  | missingMarker (span : Span) (marker : String)
  | badAttribute (span : Span) (message : String)
  | badPattern (span : Span) (message : String)
  deriving DecidableEq, Repr, Inhabited

namespace Error

def span : Error → Span
  | badHeader span .. | missingMarker span _ | badAttribute span _ | badPattern span _ => span

def message : Error → String
  | badHeader span message _ => "Parse error at " ++ span.describe ++ ": " ++ message
  | missingMarker _ marker => "missing '" ++ marker ++ "' marker"
  | badAttribute span message =>
      "invalid attribute clause at " ++ span.describe ++ ": " ++ message
  | badPattern span message => "invalid pattern clause at " ++ span.describe ++ ": " ++ message

end Error

end Snippet

end Stencil
