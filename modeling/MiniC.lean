import MiniC.Main
import MiniC.Node.Outline
import MiniC.Proofs.Completeness.Statement
import MiniC.Proofs.Orthography
import MiniC.Proofs.Yield
import MiniC.Proofs.Canonical
import MiniC.Proofs.Rendering
import MiniC.Proofs.Formula
import MiniC.Proofs.Indented
import MiniC.Proofs.Factorization
import MiniC.Proofs.Emission.Statement
import MiniC.Proofs.Soundness
import MiniC.Proofs.Height
import MiniC.Proofs.Watch
import MiniC.Proofs.Totality
import MiniC.Proofs.Seam
import MiniC.Proofs.Correspondence
import MiniC.Proofs.Placement
import MiniC.Proofs.Trivia
import MiniC.Proofs.Provenance
import MiniC.Proofs.Emission.Inline
import MiniC.Proofs.Members
import MiniC.Proofs.Offside.Rows
import MiniC.Proofs.Offside.Program
import MiniC.Proofs.Braces.Rows
import MiniC.Proofs.Braces.Program
import MiniC.Proofs.Shape
import MiniC.Proofs.Handed
import MiniC.Proofs.Elision
import MiniC.Proofs.Size
import MiniC.Proofs.EntryPoints
import MiniC.Proofs.Viewer.Work
import MiniC.Proofs.Viewer.Redraw
import MiniC.Proofs.Numeral
import MiniC.Proofs.Format.Segmentation
import MiniC.Proofs.Format.Normalization
import MiniC.Proofs.Literal
import MiniC.Proofs.Format.Print
import MiniC.Proofs.Counting.Range
import MiniC.Proofs.Counting.Words
import MiniC.Proofs.Counting.Loop
import MiniC.Proofs.Format.Template
import MiniC.Proofs.Format.Field
import MiniC.Proofs.Scoping
import MiniC.Proofs.Braces.Exits
import MiniC.Proofs.Braces.Scope
import MiniC.Proofs.Grouping
import MiniC.Proofs.Refusal
import MiniC.Proofs.Requoting
import MiniC.Proofs.Recovery
import MiniC.Proofs.Usage
import MiniC.Proofs.Viewer.Outline
import MiniC.Proofs.Viewer.Highlighting
