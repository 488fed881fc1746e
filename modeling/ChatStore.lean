import ChatStore.Library.Base64
import ChatStore.Library.Hex
import ChatStore.Library.LittleEndian
import ChatStore.Library.Machine
import ChatStore.Library.Frontend
import ChatStore.Library.Linearisable
import ChatStore.Library.Mutex
import ChatStore.Library.Pool
import ChatStore.Library.Protobuf
import ChatStore.Library.Register
import ChatStore.Library.Serialisable
import ChatStore.Library.Snapshot
import ChatStore.Library.Table
import ChatStore.Library.Timeline
import ChatStore.Library.Ranking
import ChatStore.Crates
import ChatStore.Store.Tables
import ChatStore.Store.KeyPackages
import ChatStore.Store.Accounts
import ChatStore.Store.AccountLogs
import ChatStore.Bundle
import ChatStore.Header
import ChatStore.Handlers
import ChatStore.Delivery
import ChatStore.Service
import ChatStore.Reference
import ChatStore.Views
import ChatStore.Pruning
import ChatStore.PruneTask
import ChatStore.Retention
import ChatStore.Concurrent
import ChatStore.Transactions
import ChatStore.Wires
import ChatStore.Refusals
import ChatStore.Isolation
import ChatStore.Authenticity
import ChatStore.Verdicts
import ChatStore.AntiReplay
import ChatStore.AppendOnly
import ChatStore.Intake
import ChatStore.Recency
import ChatStore.KeyHolder
import ChatStore.Convergence
import ChatStore.Spellings
import ChatStore.Server
import ChatStore.Completion
import ChatStore.Clients
import ChatStore.BusinessFlow
import ChatStore.Process
import ChatStore.Restart
import ChatStore.Consistency
import ChatStore.Rollback
import ChatStore.Timelines
import ChatStore.PruneSchedule
import ChatStore.Directory
