import CppLin.Lib.Bytes
import CppLin.Lib.Binary64
import CppLin.Lib.CarryAround
import CppLin.Lib.Causal
import CppLin.Lib.CNumber
import CppLin.Lib.CText
import CppLin.Lib.InOrder
import CppLin.Lib.JsonText
import CppLin.Lib.JsonGrammar
import CppLin.Lib.LastWrite
import CppLin.Lib.Ledger
import CppLin.Lib.LittleEndian
import CppLin.Lib.BitFields
import CppLin.Lib.Remainder
import CppLin.Lib.Gf2
import CppLin.Lib.Run
import CppLin.Lib.Monitor
import CppLin.Relay
import CppLin.Channel
import CppLin.ChannelHistory
import CppLin.ChannelCapacity
import CppLin.ChannelMonitor
import CppLin.Lin
import CppLin.Safety.E2E
import CppLin.Safety.Receiver
import CppLin.Safety.Stream
import CppLin.Safety.Detection
import CppLin.Safety.Coverage
import CppLin.Safety.Residue
import CppLin.Virtual.Bus
import CppLin.Checksum
import CppLin.ProtectedId
import CppLin.Virtual.Session
import CppLin.Virtual.ResponseMap
import CppLin.Virtual.Effects
import CppLin.Safety.Exchange
import CppLin.Safety.Concurrent
import CppLin.Virtual.Closed
import CppLin.Virtual.Delivery
import CppLin.Virtual.Accounting
import CppLin.Virtual.DeliveredBytes
import CppLin.Virtual.Threads
import CppLin.Virtual.Linearization
import CppLin.Virtual.Provenance
import CppLin.Cluster
import CppLin.Virtual.Order
import CppLin.Virtual.Turns
import CppLin.Virtual.Independence
import CppLin.Virtual.CloseProgress
import CppLin.Virtual.Rest
import CppLin.Virtual.Drain
import CppLin.Virtual.ErrorCount
import CppLin.Virtual.Phantom
import CppLin.Slave.Node
import CppLin.Slave.Registration
import CppLin.Slave.Bookkeeping
import CppLin.Slave.OnBus
import CppLin.Master.Node
import CppLin.Master.Run
import CppLin.Master.Installed
import CppLin.Master.OnBus
import CppLin.Adapter
import CppLin.Bridge
import CppLin.ValidFrames
import CppLin.Forwarding
import CppLin.Relaying
import CppLin.Numbering
import CppLin.ChannelUse
import CppLin.Release
import CppLin.Cli.Json
import CppLin.Cli.Convert
import CppLin.Cli.Base64
import CppLin.Cli.Faithful
import CppLin.Cli.Program
import CppLin.Cli.DataText
import CppLin.Cli.DataField
import CppLin.Ldf.Parser
import CppLin.Ldf.Invariant
import CppLin.Ldf.Decode
import CppLin.Ldf.Headers
import CppLin.Ldf.Declarations
import CppLin.Ldf.Meaning
import CppLin.Ldf.FrameIdentity
import CppLin.Ldf.Checked
import CppLin.Ldf.Defined
import CppLin.Ldf.Rendering
import CppLin.Ldf.Lines
import CppLin.Ldf.RoundTrip
import CppLin.Ldf.Schedules
import CppLin.Ldf.Extraction
import CppLin.Ldf.Packing
import CppLin.Ldf.Layout
import CppLin.Ldf.Numerals
import CppLin.Ldf.Widths
import CppLin.RelayNames
