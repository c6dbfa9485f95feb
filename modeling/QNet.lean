import QNet.Lib.BoundedQueue
import QNet.Lib.ErasureCode
import QNet.Lib.Machine
import QNet.Lib.Memory
import QNet.RsTunnel.Receiver
import QNet.RsTunnel.Integrity
import QNet.RsTunnel.Completeness
import QNet.Tunnel.RoundTrip
import QNet.Tunnel.Pool
import QNet.Tunnel.Runs
import QNet.Tunnel.KeyLimit
import QNet.Tunnel.Lookup
import QNet.Lib.RecordQueue
import QNet.Lib.Table
import QNet.Keyworker.Store
import QNet.Keyworker.Steps
import QNet.Keyworker.Consistency
import QNet.Keyworker.HandOut
import QNet.Keyworker.Requests
import QNet.Http.Upload
import QNet.Qcrypt.Codec
import QNet.Tunnel.Discard
import QNet.Qcrypt.EndToEnd
import QNet.Qcrypt.OneTime
import QNet.Lib.PadSecrecy
import QNet.Pythoncrypt.Codec
import QNet.Qcrypt.Secrecy
import QNet.Pythoncrypt.Secrecy
import QNet.Kks.Hamming
import QNet.Kks.HammingDecode
import QNet.Kks.Wire
import QNet.Kks.Sifting
import QNet.Kks.Disclosure
import QNet.RsTunnel.Loop
import QNet.RsTunnel.Leftover
import QNet.AnB.Dma
import QNet.RsTunnel.Resync
import QNet.Kks.Sampling
import QNet.Kks.Frames
import QNet.Kks.Stitching
import QNet.Kks.Delivery
import QNet.Kks.HammingSafety
import QNet.OpenFlow.Channels
import QNet.Lib.CircularList
import QNet.Qcrypt.Heap
import QNet.Qcrypt.Slices
import QNet.Qcrypt.Plug
import QNet.Qcrypt.Search
import QNet.Qcrypt.PadBounds
import QNet.Qcrypt.Live
import QNet.Pythoncrypt.Ranges
import QNet.Tunnel.SearchEnds
import QNet.Tunnel.NullKey
import QNet.Tunnel.Rotation
import QNet.AnB.Devices
import QNet.Keyworker.Handles
import QNet.Keyworker.Atomicity
import QNet.Http.WellFormed
import QNet.Tunnel.Answer
import QNet.Ctap.Upload
import QNet.Ctap.Cipher
import QNet.Ctap.Stream
import QNet.Tunnel.Plaintext
import QNet.Lib.Mailbox
import QNet.Tunnel.Courier
import QNet.AnB.Buffers
import QNet.AnB.Mappings
import QNet.AnB.Resize
import QNet.AnB.Words
import QNet.AnB.Files
import QNet.AnB.Positions
import QNet.Lib.Resources
import QNet.AnB.Probe
import QNet.AnB.Names
import QNet.RsTunnel.Indices
import QNet.KeyQueue.Calls
import QNet.Lib.LinkedList
import QNet.KeyQueue.Runs
import QNet.KeyQueue.Tunnels
import QNet.Ctap.Aes
import QNet.Ctap.AesField
import QNet.Lib.Epochs
import QNet.Lib.Framing
import QNet.Lib.Replay
import QNet.Tcpmux.Clients
import QNet.Tcpmux.Delivery
import QNet.Tcpmux.Runs
import QNet.ThreadPool.Runs
