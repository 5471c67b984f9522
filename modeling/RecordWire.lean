import RecordWire.Codec
import RecordWire.CommandLine
import RecordWire.Document
import RecordWire.Emit.Codec
import RecordWire.Emit.Module
import RecordWire.Emit.Record
import RecordWire.Event
import RecordWire.Generate
import RecordWire.Json.Number
import RecordWire.Json.Shape
import RecordWire.Json.Skip
import RecordWire.Json.Text
import RecordWire.Json.Token
import RecordWire.Layout
import RecordWire.Main
import RecordWire.Name
import RecordWire.Plan
import RecordWire.Primitive
import RecordWire.Proofs.Acceptance
import RecordWire.Proofs.Canonical
import RecordWire.Proofs.CodecTable
import RecordWire.Proofs.DependencyOrder
import RecordWire.Proofs.Framing
import RecordWire.Proofs.Kinds
import RecordWire.Proofs.Lookup
import RecordWire.Proofs.Names
import RecordWire.Proofs.Reading
import RecordWire.Proofs.RecordReading
import RecordWire.Proofs.Resolution
import RecordWire.Proofs.RoundTrip
import RecordWire.Proofs.TopologicalOrder
import RecordWire.Proofs.Values
import RecordWire.Proofs.Words
import RecordWire.Schema.Basic
import RecordWire.Schema.Error
import RecordWire.Schema.Kind
import RecordWire.Schema.Naming
import RecordWire.Schema.Order
import RecordWire.Schema.Resolved
import RecordWire.Text.Case
import RecordWire.Text.Lines
import RecordWire.Text.Visible
import RecordWire.Timestamp
import RecordWire.Value
import RecordWire.Wire.ByteOrder
import RecordWire.Wire.Error
import RecordWire.Wire.Reader
import RecordWire.Wire.Writer
import RecordWire.Proofs.WireFormat
import RecordWire.Proofs.Overwriting
import RecordWire.Proofs.TypedDecoding
import RecordWire.Proofs.Sizing
import RecordWire.Proofs.FixedLayout
import RecordWire.Proofs.LeastSize
import RecordWire.Proofs.PlanSize
import RecordWire.Proofs.EncodedSize
import RecordWire.Proofs.FixedSize
import RecordWire.Proofs.TypeGraph
import RecordWire.Proofs.Identifiers
import RecordWire.Proofs.PlanAgreement
import RecordWire.Proofs.JsonGrammar
import RecordWire.Proofs.Lexing
import RecordWire.Proofs.ShapeReading
import RecordWire.Proofs.ObjectReading
import RecordWire.Proofs.DocumentSpelling
import RecordWire.Proofs.ReportedCycle
import RecordWire.Proofs.Scripts
import RecordWire.Proofs.TextLines
import RecordWire.Proofs.ModuleText
import RecordWire.Proofs.CommentErasure
import RecordWire.Proofs.Declarations
import RecordWire.Proofs.DocumentOrder
import RecordWire.Proofs.LengthOverflow
import RecordWire.Proofs.SequenceLimit
import RecordWire.Proofs.PackedAccess
import RecordWire.Proofs.Allocation
import RecordWire.Proofs.CountWidth
import RecordWire.Proofs.TypeSpelling
import RecordWire.Proofs.EmptyTypes
import RecordWire.Proofs.Cursor
import RecordWire.Proofs.UsePaths
import RecordWire.Proofs.Warnings
import RecordWire.Proofs.CaseConversion
import RecordWire.Proofs.RecordLookup
import RecordWire.Session
import RecordWire.Proofs.Host
import RecordWire.Proofs.Session
import RecordWire.Proofs.Delivery
