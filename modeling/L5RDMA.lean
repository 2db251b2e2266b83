import L5RDMA.Lib.Run
import L5RDMA.Lib.Bytes
import L5RDMA.Lib.Frame
import L5RDMA.Lib.Ring
import L5RDMA.Lib.Verbs
import L5RDMA.Lib.WorkRequest
import L5RDMA.Lib.Signaling
import L5RDMA.Lib.SharedQueue
import L5RDMA.Lib.Scan
import L5RDMA.Lib.CompareMask
import L5RDMA.Lib.Descriptors
import L5RDMA.Lib.ReceiveQueue
import L5RDMA.Lib.Channel
import L5RDMA.Lib.Card
import L5RDMA.Lib.Placement
import L5RDMA.Lib.Settled
import L5RDMA.Lib.PlacedChannel
import L5RDMA.Lib.Exchange
import L5RDMA.Lib.Taking
import L5RDMA.Lib.Fallible
import L5RDMA.Lib.Receiver
import L5RDMA.Lib.Strings
import L5RDMA.RDMANetworking
import L5RDMA.VirtualRingBuffer
import L5RDMA.VirtualRDMARingBuffer
import L5RDMA.SendParanoid
import L5RDMA.RDMAMessageBuffer
import L5RDMA.MulticlientServer
import L5RDMA.MulticlientClient
import L5RDMA.MulticlientPolling
import L5RDMA.Pollers
import L5RDMA.MulticlientExchange
import L5RDMA.MulticlientSlots
import L5RDMA.MulticlientRecv
import L5RDMA.MulticlientAccept
import L5RDMA.WorkRequests
import L5RDMA.MulticlientSignaling
import L5RDMA.RdmaTransport
import L5RDMA.SharedMemoryTransport
import L5RDMA.Descriptors
import L5RDMA.Connections
import L5RDMA.Proof.VirtualRingBuffer
import L5RDMA.Proof.VirtualRDMARingBuffer
import L5RDMA.Proof.SendParanoid
import L5RDMA.Proof.Signaling
import L5RDMA.Proof.Waiter
import L5RDMA.Proof.WaitForCompletion
import L5RDMA.Proof.ParanoidProgress
import L5RDMA.Proof.ParanoidSignaling
import L5RDMA.Proof.FlowControl
import L5RDMA.Proof.Detection
import L5RDMA.Proof.RDMAMessageBuffer
import L5RDMA.Proof.HasData
import L5RDMA.Proof.Wraparound
import L5RDMA.Proof.Sockets
import L5RDMA.Proof.MulticlientTCPTransport
import L5RDMA.Proof.Deadlock
import L5RDMA.Proof.Encoders
import L5RDMA.Proof.MulticlientServer
import L5RDMA.Proof.MulticlientClient
import L5RDMA.Proof.MulticlientPolling
import L5RDMA.Proof.Pollers
import L5RDMA.Proof.MulticlientExchange
import L5RDMA.Proof.MulticlientSteps
import L5RDMA.Proof.MulticlientDelivery
import L5RDMA.Proof.MulticlientRDMATransport
import L5RDMA.Proof.MulticlientRDMADistinctMrTransport
import L5RDMA.Proof.MulticlientSlots
import L5RDMA.Proof.RdmaTransport
import L5RDMA.Proof.SharedMemoryTransport
import L5RDMA.Proof.Descriptors
import L5RDMA.Proof.Connections
import L5RDMA.Proof.MulticlientRecvQueue
import L5RDMA.Proof.MulticlientRecvView
import L5RDMA.Proof.MulticlientRecv
import L5RDMA.Proof.MulticlientSend
import L5RDMA.Proof.MulticlientAnswers
import L5RDMA.Proof.MulticlientAtomic
import L5RDMA.Proof.MulticlientAccept
import L5RDMA.Proof.RejectedSend
import L5RDMA.Proof.FailedReceive
import L5RDMA.Proof.WorkRequests
import L5RDMA.Proof.MulticlientSignaling
import L5RDMA.Proof.Handshake
import L5RDMA.Proof.VirtualMemory
import L5RDMA.Proof.RdmaConnection
import L5RDMA.Proof.PingPong
