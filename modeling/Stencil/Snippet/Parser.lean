import Stencil.Header.Parser
import Stencil.Snippet.Clause
import Stencil.Snippet.Section

/-!
# Reading a snippet

`Snippet.parse` reads a block. A block that lacks a marker has that one error. In any
other block every error is found: that of the header, then those of the attributes,
then those of the patterns. A block with an error defines nothing.
-/

namespace Stencil

namespace Snippet

def readAttribute (clause : Clause) : Except Error Attribute :=
  (parseAttribute clause.text).mapError fun fault => .badAttribute clause.span fault.message

def readPattern (clause : Clause) : Except Error Pattern :=
  (parsePattern clause.text).mapError fun fault => .badPattern clause.span fault.message

def readHeader (text : List Char) : Except Error Header :=
  (Header.parse text).mapError fun failure =>
    .badHeader failure.span failure.message (failure.expected.map (·.describe))

def results {ε α : Type} (outcomes : List (Except ε α)) : List α :=
  outcomes.filterMap fun
    | .ok a => some a
    | .error _ => none

def errors {ε α : Type} (outcomes : List (Except ε α)) : List ε :=
  outcomes.filterMap fun
    | .ok _ => none
    | .error e => some e

def ofSections (sections : Sections) : Except (List Error) Snippet :=
  let header := readHeader sections.header
  let attributes := (clauses sections.attributesStart sections.attributes).map readAttribute
  let patterns := (clauses sections.patternsStart sections.patterns).map readPattern
  match header, errors [header] ++ errors attributes ++ errors patterns with
  | .ok header, [] =>
      .ok { header with attributes := results attributes, patterns := results patterns }
  | _, found => .error found

/-- The snippet defined by a block, or everything that is wrong with it. A missing
marker is reported at the end of the block. -/
def parse (block : String) : Except (List Error) Snippet :=
  match Sections.ofBlock block.toList with
  | .ok sections => ofSections sections
  | .error marker =>
      let length := Text.size block.toList
      .error [.missingMarker ⟨length, length⟩ marker.text]

end Snippet

end Stencil
