import MessagePack.Json.Parser
import MessagePack.Value.Describe
import MessagePack.Value.Shape
import MessagePack.Wire.Emit
import MessagePack.Wire.Incremental
import MessagePack.Wire.Pull
import MessagePack.Main
import MessagePack.Proofs.SortedEntries
import MessagePack.Proofs.Number.Rounding
import MessagePack.Proofs.Number.Comparison
import MessagePack.Proofs.Text.Utf8
import MessagePack.Proofs.Bytes.Queue
import MessagePack.Proofs.Bytes.Fifo
import MessagePack.Proofs.Bytes.OutputBuffer
import MessagePack.Proofs.Value.Order
import MessagePack.Proofs.Value.Nodes
import MessagePack.Proofs.Value.Narrow
import MessagePack.Proofs.Value.Numbers
import MessagePack.Proofs.Json.Documents
import MessagePack.Proofs.Json.Numbers
import MessagePack.Proofs.Json.Parsing
import MessagePack.Proofs.Value.Json
import MessagePack.Proofs.Wire.Reading
import MessagePack.Proofs.Wire.Skipping
import MessagePack.Proofs.Wire.Emission
import MessagePack.Proofs.Wire.Header
import MessagePack.Proofs.Wire.RoundTrip
import MessagePack.Proofs.Wire.Decoded
import MessagePack.Proofs.Wire.Simulation
import MessagePack.Proofs.Wire.Cursors
import MessagePack.Proofs.Wire.Scan
import MessagePack.Proofs.Wire.Incremental
import MessagePack.Proofs.Wire.Outcome
import MessagePack.Proofs.Wire.Truncation
import MessagePack.Proofs.Wire.Grammar
import MessagePack.Proofs.Wire.Parsing
import MessagePack.Proofs.Wire.Shortest
import MessagePack.Proofs.Wire.Sequence
import MessagePack.Proofs.Wire.Schedule
import MessagePack.Proofs.Wire.Objects
import MessagePack.Proofs.Wire.Canonical
import MessagePack.Proofs.Wire.Deepening
import MessagePack.Proofs.Wire.Nesting
import MessagePack.Proofs.Wire.Completion
import MessagePack.Proofs.Blocking.Pulling
import MessagePack.Proofs.Blocking.Emitting
import MessagePack.Proofs.Wire.Encoding
import MessagePack.Proofs.Document
import MessagePack.Proofs.Value.Documents
import MessagePack.Proofs.Value.Rendering
import MessagePack.Proofs.Value.Observation
import MessagePack.Proofs.Value.Shape
import MessagePack.Proofs.Blocking.KeptFailure
import MessagePack.Proofs.Wire.Resumption
import MessagePack.Proofs.Wire.HeaderForms
