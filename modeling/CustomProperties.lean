import CustomProperties.Diagnostic.Sink
import CustomProperties.Main
import CustomProperties.Proofs.Graph.Invariant
import CustomProperties.Proofs.Graph.Component
import CustomProperties.Proofs.Graph.Circular
import CustomProperties.Proofs.Resolver.Resolution
import CustomProperties.Proofs.Resolver.Pursuit
import CustomProperties.Proofs.Resolver.Memory
import CustomProperties.Proofs.Value.Dissection
import CustomProperties.Proofs.Sheet.Edit
import CustomProperties.Proofs.Sheet.Walk
import CustomProperties.Proofs.Sheet.Reading
import CustomProperties.Proofs.Sheet.Span
import CustomProperties.Proofs.Resolver.Supply
import CustomProperties.Proofs.Run.Effect
import CustomProperties.Proofs.Text.Literal
import CustomProperties.Proofs.Value.Depth
import CustomProperties.Proofs.Value.Rewriting
import CustomProperties.Proofs.Resolver.Resupply
import CustomProperties.Proofs.Sheet.Lexeme
import CustomProperties.Proofs.Sheet.Assignment
import CustomProperties.Proofs.Sheet.Importance
import CustomProperties.Proofs.Sheet.Cursor
import CustomProperties.Proofs.Sheet.Outline
import CustomProperties.Proofs.Value.Firm
import CustomProperties.Proofs.Sheet.Firm
import CustomProperties.Proofs.Resolver.Firm
import CustomProperties.Proofs.Sheet.Renewal
import CustomProperties.Proofs.Sheet.Weave
import CustomProperties.Proofs.Sheet.Place
import CustomProperties.Proofs.Run.Again
import CustomProperties.Proofs.Run.Session
import CustomProperties.Proofs.Variables.Merge
import CustomProperties.Proofs.Source.Attempt
import CustomProperties.Proofs.Source.Cache
import CustomProperties.Proofs.Source.Precedence
import CustomProperties.Proofs.Source.Fault
import CustomProperties.Proofs.Run.Return
import CustomProperties.Proofs.Sheet.Insertion
import CustomProperties.Proofs.Resolver.Locality
import CustomProperties.Run.Transform
import CustomProperties.Proofs.Resolver.Warning
import CustomProperties.Proofs.Resolver.Overlay
import CustomProperties.Proofs.Files.Path
import CustomProperties.Proofs.Text.Bytes
import CustomProperties.Proofs.Sheet.Exchange
import CustomProperties.Proofs.Source.Fixed
import CustomProperties.Proofs.Source.Setting
import CustomProperties.Proofs.Run.Trace
import CustomProperties.Proofs.Run.Copy
import CustomProperties.Proofs.Run.Compose
import CustomProperties.Proofs.Resolver.Turn
import CustomProperties.Proofs.Resolver.Encounter
import CustomProperties.Proofs.Text.Control
import CustomProperties.Proofs.Resolver.Call
import CustomProperties.Proofs.Cli.Inspect
import CustomProperties.Proofs.Files.Write
import CustomProperties.Proofs.Cli.Process
import CustomProperties.Proofs.Value.Word
import CustomProperties.Proofs.Value.Gap
import CustomProperties.Proofs.Sheet.Statement
import CustomProperties.Proofs.Sheet.Preorder
import CustomProperties.Proofs.Sheet.Standing
import CustomProperties.Proofs.Sheet.Refusal
