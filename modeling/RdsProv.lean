import RdsProv.Base
import RdsProv.Lib.LittleEndian
import RdsProv.Lib.FirstMatch
import RdsProv.Lib.Run
import RdsProv.Wire
import RdsProv.Socket
import RdsProv.Iov
import RdsProv.Mr
import RdsProv.Registration
import RdsProv.Endpoint
import RdsProv.Ring
import RdsProv.Receive
import RdsProv.Send
import RdsProv.Rma
import RdsProv.Progress
import RdsProv.Outcomes
import RdsProv.Frame
import RdsProv.Machine
import RdsProv.Matching
import RdsProv.SourceSegments
import RdsProv.Book.Balance
import RdsProv.Book.History
import RdsProv.Book.Refine
import RdsProv.Accounting
import RdsProv.Book.Tokens
import RdsProv.World
import RdsProv.Conservation
import RdsProv.SourceLifetime
import RdsProv.Parsing
import RdsProv.Inward
import RdsProv.RingBook
import RdsProv.RingRefine
import RdsProv.Credit
import RdsProv.Custody
import RdsProv.FreedCookies
import RdsProv.AllOrNothing
import RdsProv.Params
import RdsProv.DatagramSize
import RdsProv.Holders
import RdsProv.Host
import RdsProv.Admission
import RdsProv.Lending
import RdsProv.Tenancy
import RdsProv.Handshake
import RdsProv.DeferredPass
import RdsProv.Ledger
import RdsProv.Stranding
import RdsProv.Transfer
import RdsProv.LocalVectors
import RdsProv.Finalized
import RdsProv.DeferredReturn
import RdsProv.DeferredOrder
import RdsProv.Reports
import RdsProv.Inject
import RdsProv.AddressVector
import RdsProv.DirectedRecv
import RdsProv.RingAddresses
import RdsProv.Blind
import RdsProv.Undirected
import RdsProv.Posting
import RdsProv.Lib.LapCounter
import RdsProv.PollLoop
import RdsProv.Lib.StampedRing
import RdsProv.RingFlow
import RdsProv.RingLink
import RdsProv.RingQueue
import RdsProv.DomainClose
import RdsProv.Lib.ChainTable
import RdsProv.PeerTable
import RdsProv.Duplex
import RdsProv.Rendezvous
import RdsProv.Carriers
import RdsProv.Paths
import RdsProv.Work
import RdsProv.Drain
import RdsProv.ProgressPass
import RdsProv.Lib.Cirque
import RdsProv.CompletionQueue
import RdsProv.CompletionPath
import RdsProv.SlotBytes
import RdsProv.CallOrder
