import Stencil.Snippet.Error

/-!
# Reports

A report says what is wrong with a text and at which place. Every error of a block has
one; how it is shown is the matter of `Stencil.Report.Drawing`.
-/

namespace Stencil

structure Report where
  headline : String
  /-- The text at the place. -/
  label : String
  span : Span
  deriving DecidableEq, Repr, Inhabited

def Snippet.Error.report : Snippet.Error → Report
  | badHeader span message expected =>
      let hint :=
        if expected.isEmpty then "" else "\nExpected: " ++ String.intercalate ", " expected
      ⟨message, message ++ hint, span⟩
  | missingMarker span marker =>
      ⟨"snippet has no '" ++ marker ++ "' marker", "expected '" ++ marker ++ "' here", span⟩
  | badAttribute span message => ⟨message, message, span⟩
  | badPattern span message => ⟨message, message, span⟩

end Stencil
