import Idl.Main
import Idl.Sink
import Idl.Printing
import Idl.Descent
import Idl.Proofs.Grammar.Spelling
import Idl.Proofs.Grammar.Nesting
import Idl.Proofs.Grammar.Walk
import Idl.Proofs.Grammar.Acceptance
import Idl.Proofs.Grammar.Viability
import Idl.Proofs.Grammar.Resume
import Idl.Proofs.Grammar.Repair
import Idl.Proofs.Grammar.Ending
import Idl.Proofs.Grammar.Limits
import Idl.Proofs.Grammar.Declarations
import Idl.Proofs.Grammar.Descent
import Idl.Proofs.Grammar.Discipline
import Idl.Proofs.Token.Layout
import Idl.Proofs.Token.Shift
import Idl.Proofs.Token.Seam
import Idl.Proofs.Token.Resume
import Idl.Proofs.Token.Faults
import Idl.Proofs.Token.Comments
import Idl.Proofs.Source.Canonical
import Idl.Proofs.Source.RoundTrip
import Idl.Proofs.Source.Concatenation
import Idl.Proofs.Source.Formatting
import Idl.Proofs.Source.Locations
import Idl.Proofs.Source.Blindness
import Idl.Proofs.Source.Pieces
import Idl.Proofs.Source.Nodes
import Idl.Proofs.Source.TooDeep
import Idl.Proofs.Json.Tokens
import Idl.Proofs.Json.Documents
import Idl.Proofs.Schema.Records
import Idl.Proofs.Schema.Readers
import Idl.Proofs.Schema.RoundTrip
import Idl.Proofs.Schema.Texts
import Idl.Proofs.Schema.Lookups
import Idl.Proofs.Schema.Rewriting
import Idl.Proofs.Schema.Invariance
import Idl.Proofs.Program.Lookup
import Idl.Proofs.Sink.Printing
import Idl.Proofs.CommandLine.Arguments
import Idl.Proofs.CommandLine.Agreement
