import Smtdv.Lib.Machine
import Smtdv.Lib.Heap
import Smtdv.Lib.Hexadecimal
import Smtdv.Lib.Ledger
import Smtdv.Lib.TwinQueue
import Smtdv.Common.Types
import Smtdv.Common.Hash
import Smtdv.Common.SequenceItem
import Smtdv.Common.Backdoor
import Smtdv.Common.Scoreboard
import Smtdv.Scoreboard.Pairing
import Smtdv.Scoreboard.Soundness
import Smtdv.Scoreboard.ReadCheck
import Smtdv.Scoreboard.Exact
import Smtdv.Ahb.Order
import Smtdv.Ahb.Objects
import Smtdv.Ahb.Redrive
import Smtdv.Ahb.Trace
import Smtdv.Ahb.Lockstep
import Smtdv.Ahb.DataPhase
import Smtdv.Ahb.Response
import Smtdv.Ahb.Resync
import Smtdv.Ahb.Observed
import Smtdv.Apb.Collected
import Smtdv.Apb.Driver
import Smtdv.Apb.Driven
import Smtdv.Apb.SlaveDriver
import Smtdv.Apb.Observed
import Smtdv.Apb.SlaveAgent
import Smtdv.Apb.Paced
import Smtdv.Apb.Edges
import Smtdv.Apb.Env
import Smtdv.Apb.Loop
import Smtdv.Apb.Coherent
import Smtdv.Apb.Handled
import Smtdv.Apb.Bounded
import Smtdv.Apb.Turns
import Smtdv.Common.ThreadHandler
import Smtdv.Common.Queue
import Smtdv.Common.Delivery
import Smtdv.Ahb.BoxReset
import Smtdv.Common.RspBack
import Smtdv.Common.Memory
import Smtdv.Stl.ParseFile
import Smtdv.Common.Rebuilt
import Smtdv.Ahb.Narrow
import Smtdv.Ahb.ReadAfterWrite
import Smtdv.Ahb.BurstForms
import Smtdv.Lib.Parity
import Smtdv.Sqlite3.RoundTrip
import Smtdv.Sqlite3.Recorder
import Smtdv.Sqlite3.MemoryTable
import Smtdv.Sqlite3.MemoryRows
import Smtdv.Sqlite3.Recorded
import Smtdv.Uart.RoundTrip
import Smtdv.Common.SlaveBaseSeq
import Smtdv.Common.Label
import Smtdv.Graph.Represent
import Smtdv.Graph.Scheduler
import Smtdv.Graph.SeqOrder
import Smtdv.Graph.Initors
import Smtdv.Graph.Circular
import Smtdv.Stl.MailBox
import Smtdv.Common.MasterCfg
import Smtdv.Scoreboard.Reset
import Smtdv.Scoreboard.Threads
import Smtdv.Common.Watchdog
import Smtdv.Common.ByteMap
import Smtdv.Ahb.Boundary
import Smtdv.Ahb.StlSeq
import Smtdv.Ahb.StlBurst
import Smtdv.Common.RingQueue
import Smtdv.Common.RegAdapter
import Smtdv.Common.ResetModel
import Smtdv.Common.RetryWindow
import Smtdv.Common.RetryBudget
import Smtdv.Common.MasterPollingSeq
import Smtdv.Scoreboard.Settled
import Smtdv.Apb.Checked
