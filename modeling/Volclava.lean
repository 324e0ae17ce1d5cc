import Volclava.Lib.Ledger
import Volclava.Lib.Run
import Volclava.Status
import Volclava.Accounts
import Volclava.Movements
import Volclava.PendingCount
import Volclava.Lib.Contiguous
import Volclava.PendList
import Volclava.PendOrder
import Volclava.PendSlots
import Volclava.Admission
import Volclava.Lib.Scan
import Volclava.EventType
import Volclava.EventIndex
import Volclava.Lib.Loop
import Volclava.Alloc
import Volclava.AllocBooks
import Volclava.AllocLimits
import Volclava.LimMaster
import Volclava.LimElection
import Volclava.Fairshare
import Volclava.FSPriority
import Volclava.FSElect
import Volclava.FSShape
import Volclava.FSFlags
import Volclava.FSSkip
import Volclava.FSUsage
import Volclava.FSConserve
import Volclava.FSConserveRun
import Volclava.StaleReport
import Volclava.StaleRuns
import Volclava.Lib.Lifetime
import Volclava.LimShared
import Volclava.QueryClients
import Volclava.QueryLoop
import Volclava.QueryOwnership
import Volclava.Sbatchd
import Volclava.SbdLocks
import Volclava.SbdOrder
import Volclava.ChanRecv
import Volclava.ChanSend
import Volclava.Lib.Decoder
import Volclava.SubmitXdr
import Volclava.SubmitSafe
import Volclava.JobInfoSize
import Volclava.SelectJobs
import Volclava.Lib.Ring
import Volclava.QmbdSender
import Volclava.QmbdDelivery
import Volclava.SyncShm
import Volclava.Lib.Blocks
import Volclava.ShmRing
import Volclava.ShmReaders
import Volclava.JobFiles
import Volclava.SubmitPack
import Volclava.BitSet
import Volclava.HashTab
import Volclava.UserGroups
import Volclava.HostSlots
import Volclava.Reservation
import Volclava.HostBackfill
import Volclava.BackfillTake
import Volclava.JgrpCounts
import Volclava.JobArrayIdx
import Volclava.DepToken
import Volclava.Lib.Halting
import Volclava.DepParse
import Volclava.CtrlSwitch
import Volclava.Windows
import Volclava.WindowEdge
import Volclava.FSDecay
import Volclava.NbWrite
import Volclava.LoadAdj
import Volclava.NameList
