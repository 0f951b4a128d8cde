import SimpleModule.Lib.Octets
import SimpleModule.Lib.Memory
import SimpleModule.Lib.Runs
import SimpleModule.Lib.Incremental
import SimpleModule.Lib.Frames
import SimpleModule.Lib.Pushing
import SimpleModule.Lib.Exits
import SimpleModule.Lib.Meter
import SimpleModule.Lib.OrderedMap
import SimpleModule.Lib.Readers
import SimpleModule.Lib.Decoders
import SimpleModule.Encrypt.Capacity
import SimpleModule.Encrypt.Fifo
import SimpleModule.Encrypt.StreamCipher
import SimpleModule.Encrypt.PacketProcess
import SimpleModule.Encrypt.Conservation
import SimpleModule.Encrypt.Reassembly
import SimpleModule.Encrypt.Session
import SimpleModule.Encrypt.Refusal
import SimpleModule.Encrypt.Growth
import SimpleModule.Packet.HeaderProcess
import SimpleModule.Packet.Completion
import SimpleModule.Packet.Consumption
import SimpleModule.Packet.SplitHeader
import SimpleModule.Socket.Inbound
import SimpleModule.Socket.Outbound
import SimpleModule.Socket.Network
import SimpleModule.Socket.Registries
import SimpleModule.Socket.Routing
import SimpleModule.Socket.Host
import SimpleModule.Socket.Duplex
import SimpleModule.Socket.ServerDeletion
import SimpleModule.Protocol.Message
import SimpleModule.Protocol.Canonical
import SimpleModule.Protocol.Locality
import SimpleModule.Protocol.Agreement
import SimpleModule.Protocol.CallerTable
import SimpleModule.Protocol.Untrusted
import SimpleModule.Protocol.Failures
import SimpleModule.Protocol.Reserved
import SimpleModule.Protocol.WireIds
import SimpleModule.Protocol.CheckId
import SimpleModule.Protocol.Marshal
import SimpleModule.Protocol.Multicast
import SimpleModule.Protocol.TableCodec
import SimpleModule.Protocol.Paths
import SimpleModule.Protocol.Registry
import SimpleModule.Protocol.TableTypes
import SimpleModule.Protocol.History
import SimpleModule.Protocol.Managers
import SimpleModule.Protocol.Reload
import SimpleModule.Protocol.CheckSum
import SimpleModule.Protocol.Rpc
import SimpleModule.Protocol.Engine
import SimpleModule.Protocol.Serving
import SimpleModule.Protocol.Statistics
import SimpleModule.Protocol.StackDiscipline
import SimpleModule.Protocol.StackUse
import SimpleModule.Protocol.StackSamples
import SimpleModule.Protocol.StackBound
import SimpleModule.Protocol.StackLimit
