import TangledPrograms.Action
import TangledPrograms.Addressing.Basic
import TangledPrograms.Addressing.Window
import TangledPrograms.Agent
import TangledPrograms.Binary64
import TangledPrograms.Bytes.Blake3
import TangledPrograms.Bytes.Codec
import TangledPrograms.Bytes.Hex
import TangledPrograms.Decimal.Literal
import TangledPrograms.Decimal.Shortest
import TangledPrograms.Decimal.Style
import TangledPrograms.Document.Basic
import TangledPrograms.Document.Lexeme
import TangledPrograms.Document.Schema
import TangledPrograms.Error
import TangledPrograms.Identifier
import TangledPrograms.Instruction
import TangledPrograms.Machine.Grid
import TangledPrograms.Machine.Matrix
import TangledPrograms.Machine.Scalar
import TangledPrograms.Machine.Vector
import TangledPrograms.Observation
import TangledPrograms.OrderedMap
import TangledPrograms.Population.ActionMutation
import TangledPrograms.Population.Basic
import TangledPrograms.Population.Creation
import TangledPrograms.Population.Decision
import TangledPrograms.Population.Edges
import TangledPrograms.Population.Mutation
import TangledPrograms.Population.Node
import TangledPrograms.Population.References
import TangledPrograms.Population.Removal
import TangledPrograms.Program.Basic
import TangledPrograms.Program.Mutation
import TangledPrograms.Proofs.Addressing
import TangledPrograms.Proofs.Addressing.Confinement
import TangledPrograms.Proofs.Addressing.Displacement
import TangledPrograms.Proofs.Addressing.Odometer
import TangledPrograms.Proofs.Addressing.Shifting
import TangledPrograms.Proofs.Bytes.Exact
import TangledPrograms.Proofs.Bytes.Reads
import TangledPrograms.Proofs.Coordinates
import TangledPrograms.Proofs.Coordinates.Position
import TangledPrograms.Proofs.Decimal.Shortest
import TangledPrograms.Proofs.Decision.Bidding
import TangledPrograms.Proofs.Decision.Congruence
import TangledPrograms.Proofs.Decision.Descent
import TangledPrograms.Proofs.Decision.Pruning
import TangledPrograms.Proofs.Decision.Recording
import TangledPrograms.Proofs.Decision.Success
import TangledPrograms.Proofs.Document.Faults
import TangledPrograms.Proofs.Document.Lexeme
import TangledPrograms.Proofs.Document.Number
import TangledPrograms.Proofs.Document.Schema
import TangledPrograms.Proofs.Document.Values
import TangledPrograms.Proofs.Evaluation
import TangledPrograms.Proofs.Machine.Bids
import TangledPrograms.Proofs.Machine.Block
import TangledPrograms.Proofs.Machine.Cells
import TangledPrograms.Proofs.Machine.Extremes
import TangledPrograms.Proofs.Machine.Flat
import TangledPrograms.Proofs.Machine.Grid
import TangledPrograms.Proofs.Machine.Isolation
import TangledPrograms.Proofs.Machine.Safety
import TangledPrograms.Proofs.Machine.Slices
import TangledPrograms.Proofs.Machine.Wrapping
import TangledPrograms.Proofs.Number.Fraction
import TangledPrograms.Proofs.Number.Order
import TangledPrograms.Proofs.Number.Sum
import TangledPrograms.Proofs.OrderedMap
import TangledPrograms.Proofs.Placement
import TangledPrograms.Proofs.Population.Balance
import TangledPrograms.Proofs.Population.Coherence
import TangledPrograms.Proofs.Population.Command
import TangledPrograms.Proofs.Population.Completion
import TangledPrograms.Proofs.Population.Distinctness
import TangledPrograms.Proofs.Population.Edits
import TangledPrograms.Proofs.Population.Faultless
import TangledPrograms.Proofs.Population.Forgetting
import TangledPrograms.Proofs.Population.Growth
import TangledPrograms.Proofs.Population.Laws
import TangledPrograms.Proofs.Population.Lockstep
import TangledPrograms.Proofs.Population.Perturbation
import TangledPrograms.Proofs.Population.Proposal
import TangledPrograms.Proofs.Population.Provenance
import TangledPrograms.Proofs.Population.Rates
import TangledPrograms.Proofs.Population.Reached
import TangledPrograms.Proofs.Population.Redirection
import TangledPrograms.Proofs.Population.References
import TangledPrograms.Proofs.Population.Refusal
import TangledPrograms.Proofs.Population.Reporting
import TangledPrograms.Proofs.Population.Rounds
import TangledPrograms.Proofs.Population.Sampling
import TangledPrograms.Proofs.Population.SelfReference
import TangledPrograms.Proofs.Population.Soundness
import TangledPrograms.Proofs.Population.Streams
import TangledPrograms.Proofs.Population.Sweep
import TangledPrograms.Proofs.Population.UnitVectors
import TangledPrograms.Proofs.Population.WellFormed
import TangledPrograms.Proofs.Program.Bounds
import TangledPrograms.Proofs.Program.Inheritance
import TangledPrograms.Proofs.Program.Mutation
import TangledPrograms.Proofs.Program.Passes
import TangledPrograms.Proofs.Program.Places
import TangledPrograms.Proofs.Program.Rates
import TangledPrograms.Proofs.Program.Restoring
import TangledPrograms.Proofs.Program.Targets
import TangledPrograms.Proofs.Program.Unbiased
import TangledPrograms.Proofs.Random.Chance
import TangledPrograms.Proofs.Random.Ensures
import TangledPrograms.Proofs.Random.Fair
import TangledPrograms.Proofs.Random.Shifts
import TangledPrograms.Proofs.Random.Spans
import TangledPrograms.Proofs.Random.Streams
import TangledPrograms.Proofs.Random.Words
import TangledPrograms.Proofs.Resumption
import TangledPrograms.Proofs.Settings.Accepted
import TangledPrograms.Proofs.Snapshot.Decoding
import TangledPrograms.Proofs.Snapshot.Documents
import TangledPrograms.Proofs.Snapshot.File
import TangledPrograms.Proofs.Snapshot.Layout
import TangledPrograms.Proofs.Snapshot.Numbering
import TangledPrograms.Proofs.Snapshot.Programs
import TangledPrograms.Proofs.Snapshot.Recapture
import TangledPrograms.Proofs.Snapshot.Recount
import TangledPrograms.Proofs.Snapshot.Resume
import TangledPrograms.Proofs.Snapshot.Tampering
import TangledPrograms.Proofs.Snapshot.Text
import TangledPrograms.Proofs.Views
import TangledPrograms.Random.Layer
import TangledPrograms.Random.Normal
import TangledPrograms.Random.Seeded
import TangledPrograms.Random.Uniform
import TangledPrograms.Reading
import TangledPrograms.Settings.Basic
import TangledPrograms.Settings.Environment
import TangledPrograms.Settings.Validation
import TangledPrograms.Snapshot.Basic
import TangledPrograms.Snapshot.Binary
import TangledPrograms.Snapshot.Read
import TangledPrograms.Snapshot.Written
import TangledPrograms.Timestamp
