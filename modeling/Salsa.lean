import Salsa.Sync.Votes
import Salsa.Block.Refine
import Salsa.Cost.Workers
import Salsa.Block.Crank
import Salsa.Block.Fees
import Salsa.Bundle.Locker
import Salsa.Poh.ServiceRuns
import Salsa.Poh.Indexes
import Salsa.Poh.Pacing
import Salsa.Scheduler.ThreadLocks
import Salsa.Unified.Scheduler
import Salsa.Stream.Slices
import Salsa.Stream.Missing
import Salsa.Vote.OnChain
import Salsa.Vote.Safety
import Salsa.Vote.Filter
import Salsa.Scheduler.ContainerRuns
import Salsa.Votor.Recovery
import Salsa.ForkChoice.Best
import Salsa.ForkChoice.Duplicates
import Salsa.Votor.CertificateRuns
import Salsa.Gossip.Convergence
import Salsa.Cost.VoteLimit
import Salsa.Vote.ListIter
