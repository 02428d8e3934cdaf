import RecordLayout.Error
import RecordLayout.Address
import RecordLayout.ByteOrder
import RecordLayout.Bits
import RecordLayout.Integer
import RecordLayout.WriteBuffer
import RecordLayout.Fault
import RecordLayout.Mask
import RecordLayout.Mask.Implication
import RecordLayout.Mask.Compile
import RecordLayout.Enumeration
import RecordLayout.SizeExpr
import RecordLayout.LayoutSpec
import RecordLayout.Layout
import RecordLayout.Layout.Width
import RecordLayout.Compile
import RecordLayout.Schema
import RecordLayout.Json
import RecordLayout.LayoutSpec.Json
import RecordLayout.Extent
import RecordLayout.Value
import RecordLayout.Decode
import RecordLayout.Reader
import RecordLayout.Draft
import RecordLayout.Draft.Write
import RecordLayout.Draft.Edit
import RecordLayout.Proofs.IntegerCodec
import RecordLayout.Proofs.Outcome
import RecordLayout.Proofs.ValidLayout
import RecordLayout.Proofs.Walk
import RecordLayout.Proofs.LazyReading
import RecordLayout.Proofs.DraftShape
import RecordLayout.Proofs.Encode
import RecordLayout.Proofs.WriteRun
import RecordLayout.Proofs.Serialize
import RecordLayout.Proofs.Chunk
import RecordLayout.Proofs.RoundTrip
import RecordLayout.Proofs.Journal
import RecordLayout.Proofs.ImplicationGraph
import RecordLayout.Proofs.WellFormed
import RecordLayout.Proofs.MaskAcceptance
import RecordLayout.Proofs.SizeReferences
import RecordLayout.Proofs.Acceptance
import RecordLayout.Proofs.Machine
import RecordLayout.Proofs.StaticLayout
import RecordLayout.Proofs.SafeReading
import RecordLayout.Proofs.SizeConsistency
import RecordLayout.Proofs.DraftGrowth
import RecordLayout.Proofs.Completeness
import RecordLayout.Proofs.Locality
import RecordLayout.Proofs.Truncation
import RecordLayout.Proofs.OrderInheritance
import RecordLayout.Proofs.OrderBlindness
import RecordLayout.Proofs.Refusal
import RecordLayout.Proofs.BitString
import RecordLayout.Proofs.Injectivity
import RecordLayout.Proofs.JsonRoundTrip
import RecordLayout.Proofs.PlainWalk
import RecordLayout.Proofs.MaskSwitch
import RecordLayout.Proofs.MaskDecision
import RecordLayout.Proofs.ElementAccess
import RecordLayout.Proofs.FixedSizes
import RecordLayout.Proofs.MachineWriting
import RecordLayout.Proofs.WriteSteps
import RecordLayout.Proofs.SafeWriting
import RecordLayout.Proofs.CodecInverse
import RecordLayout.Proofs.ViewReading
import RecordLayout.Proofs.LeafFrame
import RecordLayout.Proofs.MissingParts
import RecordLayout.Proofs.GapFilling
import RecordLayout.Proofs.RefusedAppend
import RecordLayout.Proofs.SpanBounds
import RecordLayout.Proofs.DeclaredTables
