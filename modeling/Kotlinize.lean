import Kotlinize.Main
import Kotlinize.Proofs.Accessor.Pass
import Kotlinize.Proofs.Arrow.Nested
import Kotlinize.Proofs.Bytes.Lexemes
import Kotlinize.Proofs.Call.LargerTables
import Kotlinize.Proofs.Call.ParameterColon
import Kotlinize.Proofs.Comment.Run
import Kotlinize.Proofs.Frame
import Kotlinize.Proofs.Label.Types
import Kotlinize.Proofs.LateInit.Computed
import Kotlinize.Proofs.LateInit.Substitution
import Kotlinize.Proofs.Layout.Labels
import Kotlinize.Proofs.Literal.Interpolation
import Kotlinize.Proofs.Literal.SingleLine
import Kotlinize.Proofs.Nesting.Stages
import Kotlinize.Proofs.Origin.LineColumn
import Kotlinize.Proofs.Seam.ReadBack
import Kotlinize.Proofs.Setter.LineEnds
import Kotlinize.Proofs.Setter.Lines
import Kotlinize.Proofs.Setter.Scope
import Kotlinize.Proofs.Setter.Words
import Kotlinize.Proofs.Slice.Fault
import Kotlinize.Token.Edit
import Kotlinize.Token.Index
import Kotlinize.Proofs.Nesting.Partner
import Kotlinize.Proofs.Loop.Cursor
import Kotlinize.Proofs.Loop.Properties
import Kotlinize.Proofs.Loop.Setters
import Kotlinize.Proofs.Loop.Arrows
import Kotlinize.Proofs.Loop.Ends
