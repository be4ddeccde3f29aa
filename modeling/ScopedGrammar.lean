import ScopedGrammar.Main
import ScopedGrammar.Languages.Outline
import ScopedGrammar.Scope.Handle
import ScopedGrammar.Proofs.Input.Growth
import ScopedGrammar.Proofs.Match.Growth
import ScopedGrammar.Proofs.Match.Derivation
import ScopedGrammar.Proofs.Match.Positions
import ScopedGrammar.Proofs.Match.Scoping
import ScopedGrammar.Proofs.Match.Reach
import ScopedGrammar.Proofs.Value.Tokens
import ScopedGrammar.Proofs.Match.Tiling
import ScopedGrammar.Proofs.Input.Admission
import ScopedGrammar.Proofs.Match.Streaming
import ScopedGrammar.Proofs.Fault.Placement
import ScopedGrammar.Proofs.Match.Copying
import ScopedGrammar.Proofs.Match.Termination
import ScopedGrammar.Proofs.Grammar.Parses
import ScopedGrammar.Proofs.Json.RoundTrip
import ScopedGrammar.Proofs.Outline.Inverse
import ScopedGrammar.Proofs.Match.Erasure
import ScopedGrammar.Proofs.Match.Mentions
import ScopedGrammar.Proofs.Match.Translation
import ScopedGrammar.Proofs.Croco.Programs
import ScopedGrammar.Proofs.Languages.Safety
import ScopedGrammar.Proofs.Match.Contracts
import ScopedGrammar.Proofs.Outline.Contracts
import ScopedGrammar.Proofs.Croco.Scopes
import ScopedGrammar.Proofs.Croco.Shapes
import ScopedGrammar.Proofs.Croco.Contracts
import ScopedGrammar.Proofs.Croco.Lines
import ScopedGrammar.Proofs.Input.Fetching
import ScopedGrammar.Proofs.Match.Unrolling
import ScopedGrammar.Proofs.Session.Encoding
import ScopedGrammar.Proofs.Session.Reading
import ScopedGrammar.Proofs.Session.Turns
import ScopedGrammar.Proofs.Session.Record
import ScopedGrammar.Proofs.Session.Ending
import ScopedGrammar.Proofs.Match.Trails
import ScopedGrammar.Proofs.Croco.Spacing
import ScopedGrammar.Proofs.Croco.Parts
import ScopedGrammar.Proofs.Croco.Bodies
import ScopedGrammar.Proofs.Croco.Tags
import ScopedGrammar.Proofs.Json.Escapes
import ScopedGrammar.Proofs.Match.Composition
import ScopedGrammar.Proofs.Match.Stopping
import ScopedGrammar.Proofs.Outline.Indentation
import ScopedGrammar.Proofs.Match.Invariants
import ScopedGrammar.Proofs.Croco.Unclosed
import ScopedGrammar.Proofs.Match.Characters
import ScopedGrammar.Proofs.Match.Progress
import ScopedGrammar.Proofs.Match.Producers
import ScopedGrammar.Proofs.Session.Truncation
import ScopedGrammar.Proofs.Fault.Carets
import ScopedGrammar.Proofs.Message.Braces
import ScopedGrammar.Proofs.Text.Delimiters
import ScopedGrammar.Proofs.Message.Placeholders
import ScopedGrammar.Proofs.Croco.Notation
import ScopedGrammar.Proofs.Fault.Arrival
import ScopedGrammar.Proofs.Input.Words
import ScopedGrammar.Proofs.Match.Absences
import ScopedGrammar.Proofs.Croco.Insertions
