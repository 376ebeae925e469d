import Dione.Lib.Run
import Dione.Types
import Dione.Election
import Dione.Election.Sequence
import Dione.Election.Stakes
import Dione.Election.Accuracy
import Dione.Election.Fairness
import Dione.Database.Memory
import Dione.Database.Lmdb
import Dione.Database.Wire
import Dione.Blockchain
import Dione.Blockchain.Commit
import Dione.Blockchain.Integrity
import Dione.Blockchain.Finality
import Dione.Blockchain.Identity
import Dione.Blockchain.Ticket
import Dione.Blockchain.Stores
import Dione.Blockchain.Retry
import Dione.Blockchain.Latest
import Dione.Blockchain.Goroutines
import Dione.Miner
import Dione.Mempool
import Dione.Mempool.Assembly
import Dione.Cache
import Dione.Sync
import Dione.Sync.Initial
import Dione.Sync.Serving
import Dione.Sync.Mirror
import Dione.Sync.Pool
import Dione.Sync.Ranges
import Dione.Sync.Transactions
import Dione.Miner.History
import Dione.Miner.Validity
import Dione.Beacon
import Dione.Consensus.Manager
import Dione.Consensus.Round
import Dione.Consensus.Handler
import Dione.Consensus.Quorum
import Dione.Consensus.Selection
import Dione.Consensus.Network
import Dione.Consensus.Progress
import Dione.Consensus.Agreement
import Dione.Consensus.Certificates
import Dione.Consensus.Disputes
import Dione.Consensus.Lookup
import Dione.Consensus.Timers
import Dione.Node
import Dione.Node.Spending
import Dione.Node.Atomicity
import Dione.Node.Head
import Dione.Node.Rounds
import Dione.Node.Crash
import Dione.Node.Divisions
import Dione.Node.Origin
import Dione.Node.Answers
import Dione.Node.Completion
import Dione.Contracts.Solvency
import Dione.Contracts.Voting
import Dione.Contracts.Finishing
import Dione.Contracts.Lifecycle
import Dione.Contracts.Window
import Dione.Contracts.Requests
import Dione.Contracts.Mediator
import Dione.Contracts.Checkpoints
import Dione.Contracts.Delegation
import Dione.Contracts.Timelock.Notice
import Dione.Contracts.Governance
import Dione.Contracts.Deploy
import Dione.Contracts.Submissions
import Dione.Contracts.Orders
import Dione.Contracts.Verdicts
import Dione.Signature
import Dione.Filecoin
