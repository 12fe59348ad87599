import QueuePair.Proofs.Gatekeeping
import QueuePair.Proofs.Pair.Exclusion
import QueuePair.Proofs.Pair.Spending
import QueuePair.Proofs.Pair.Delivery
import QueuePair.Proofs.Keeping
import QueuePair.Proofs.Pair.Progress
import QueuePair.Proofs.Draining
import QueuePair.Proofs.Isolation
import QueuePair.Proofs.Settlement
import QueuePair.Proofs.Alone
import QueuePair.Proofs.Pair.Established
import QueuePair.Proofs.Pair.Aftermath
import QueuePair.Proofs.Exchange
import QueuePair.Proofs.Withdrawal
import QueuePair.Proofs.Silence
import QueuePair.Proofs.Sessions
import QueuePair.Proofs.Backlog
import QueuePair.Proofs.Waking
import QueuePair.Proofs.Representation
import QueuePair.Proofs.Removed
import QueuePair.Proofs.Range
import QueuePair.Proofs.Apart
import QueuePair.Proofs.Resumption
import QueuePair.Proofs.Finality
