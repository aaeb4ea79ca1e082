import Stencil.Main
import Stencil.Proofs.Header.Cause
import Stencil.Proofs.Header.Reading
import Stencil.Proofs.Header.Runs
import Stencil.Proofs.Library.Diagnostic
import Stencil.Proofs.Library.Ending
import Stencil.Proofs.Library.Places
import Stencil.Proofs.Library.Registry
import Stencil.Proofs.Report.Location
import Stencil.Proofs.Scene.Faithful
import Stencil.Proofs.Script.Addition
import Stencil.Proofs.Script.Arrays
import Stencil.Proofs.Script.Attribute
import Stencil.Proofs.Script.Body
import Stencil.Proofs.Script.Colors
import Stencil.Proofs.Script.Ends
import Stencil.Proofs.Script.Loops
import Stencil.Proofs.Script.Passes
import Stencil.Proofs.Script.Permutation
import Stencil.Proofs.Script.Removal
import Stencil.Proofs.Script.Resolve
import Stencil.Proofs.Script.Styles
import Stencil.Proofs.Script.Template
import Stencil.Proofs.Snippet.Accepted
import Stencil.Proofs.Snippet.Verbatim
import Stencil.Proofs.World.Acceptance
import Stencil.Proofs.World.Instantiation
import Stencil.Proofs.World.Program
import Stencil.Proofs.World.Reset
import Stencil.Proofs.World.Search
import Stencil.Proofs.World.Values
import Stencil.Script.Pipeline
