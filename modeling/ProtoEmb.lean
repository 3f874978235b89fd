import ProtoEmb.Framing.ParserSound
import ProtoEmb.Device.Replies
import ProtoEmb.Device.Requests
import ProtoEmb.Device.Overlong
import ProtoEmb.Device.Buffer
import ProtoEmb.Device.Timeout
import ProtoEmb.Codec.Agreement
import ProtoEmb.Codec.Documented
import ProtoEmb.Codec.RoundTrip
import ProtoEmb.Codec.Decoders
import ProtoEmb.Codec.Aligned
import ProtoEmb.Codec.Native
import ProtoEmb.Codec.AlignedAgreement
import ProtoEmb.Codec.AlignedDecode
import ProtoEmb.Codec.CRoundTrip
import ProtoEmb.Client.Storage
import ProtoEmb.Client.Cursor
import ProtoEmb.Client.Client
import ProtoEmb.Client.Mirror
import ProtoEmb.Client.Accounting
import ProtoEmb.System.Link
import ProtoEmb.System.Matching
import ProtoEmb.System.InStep
import ProtoEmb.System.Late
import ProtoEmb.Schema.Commands
import ProtoEmb.Codec.RustDecode
import ProtoEmb.Codec.Facade
import ProtoEmb.Device.Dispatch
import ProtoEmb.Device.Answers
import ProtoEmb.System.Operations
import ProtoEmb.Schema.Ranges
import ProtoEmb.Codec.Traces
import ProtoEmb.Codec.Arithmetic
import ProtoEmb.Framing.Scan
import ProtoEmb.Framing.Resync
import ProtoEmb.Framing.Addressing
import ProtoEmb.Lib.CrcDetect
import ProtoEmb.Framing.Corruption
import ProtoEmb.Codec.RemapTables
import ProtoEmb.Codec.Parts
import ProtoEmb.Codec.InBounds
import ProtoEmb.Codec.Total
import ProtoEmb.Codec.RustAligned
import ProtoEmb.Codec.Nesting
import ProtoEmb.Codec.Reencode
import ProtoEmb.Lib.Utf8
import ProtoEmb.Client.RingBuffer
import ProtoEmb.Lib.Line
import ProtoEmb.Client.Schedule
import ProtoEmb.Lib.TopoSort
import ProtoEmb.Client.Drain
import ProtoEmb.Client.Checked
import ProtoEmb.Client.Bridge
import ProtoEmb.Client.Order
import ProtoEmb.Client.Coalesce
import ProtoEmb.Schema.TopoSort
import ProtoEmb.Lib.Definitions
import ProtoEmb.Schema.Versions
import ProtoEmb.Codec.Locality
import ProtoEmb.System.Versions
import ProtoEmb.Codec.RustText
import ProtoEmb.Codec.CText
import ProtoEmb.Codec.TypeScriptText
import ProtoEmb.Codec.Paths
import ProtoEmb.Codec.BitLens
import ProtoEmb.Codec.Restyle
import ProtoEmb.Lib.Receiver
import ProtoEmb.Lib.Runs
import ProtoEmb.Device.Serve
import ProtoEmb.Device.Stream
import ProtoEmb.System.Loop
import ProtoEmb.Codec.Crossing
import ProtoEmb.Codec.TypeScriptDecode
import ProtoEmb.Codec.TypeScriptRoundTrip
import ProtoEmb.System.Typed
import ProtoEmb.Client.Wasm
import ProtoEmb.System.Browser
import ProtoEmb.System.Page
import ProtoEmb.System.Settle
import ProtoEmb.System.Recover
import ProtoEmb.System.Store
import ProtoEmb.Client.Connection
