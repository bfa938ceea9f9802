import Quadword.Machine.Semantics
import Quadword.Main
import Quadword.Proofs.Grammar.Basic
import Quadword.Proofs.Grammar.Reading
import Quadword.Proofs.Grammar.Soundness
import Quadword.Proofs.Grammar.Completeness
import Quadword.Proofs.Grammar.Program
import Quadword.Proofs.Lowering.Domain
import Quadword.Proofs.Lowering.Expression
import Quadword.Proofs.Lowering.HostCall
import Quadword.Proofs.Simulation.Code
import Quadword.Proofs.Simulation.Listing
import Quadword.Proofs.Simulation.Program
import Quadword.Proofs.Text.Stream
import Quadword.Proofs.Text.Trace
import Quadword.Proofs.Token.Front
import Quadword.Proofs.Token.Agreement
import Quadword.Proofs.Token.Scan
import Quadword.Proofs.Printer.Characters
import Quadword.Proofs.Printer.Expression
import Quadword.Proofs.Printer.RoundTrip
import Quadword.Proofs.Lowering.Discipline
import Quadword.Proofs.Lowering.Symbols
import Quadword.Proofs.Assembly.Output
import Quadword.Proofs.Lowering.Regions
import Quadword.Proofs.Assembly.Collision
import Quadword.Proofs.Assembly.Reading
import Quadword.Proofs.Lowering.Emission
import Quadword.Proofs.Lowering.Forms
import Quadword.Proofs.Lowering.Encoding
import Quadword.Proofs.Lowering.Lowerable
import Quadword.Proofs.Lowering.Evaluation
import Quadword.Proofs.Assembly.Nasm
import Quadword.Proofs.Assembly.Faithful
import Quadword.Proofs.Lowering.CallFrame
import Quadword.Proofs.Text.Position
import Quadword.Proofs.Token.Spans
import Quadword.Proofs.Token.Breaks
import Quadword.Proofs.Grammar.Sugar
import Quadword.Proofs.Grammar.Settled
import Quadword.Proofs.Grammar.SettledLine
import Quadword.Proofs.Grammar.Blame
import Quadword.Proofs.Grammar.Confined
import Quadword.Proofs.Grammar.ConfinedLine
import Quadword.Proofs.Token.Progress
import Quadword.Proofs.Grammar.EndOfText
import Quadword.Proofs.Grammar.Items
import Quadword.Proofs.Assembly.Annotation
import Quadword.Proofs.Diagnostic.Excerpt
import Quadword.Proofs.Diagnostic.Report
import Quadword.Proofs.Simulation.Decision
import Quadword.Proofs.Diagnostic.Trace
import Quadword.Proofs.Token.Literal
import Quadword.Proofs.Grammar.Literal
