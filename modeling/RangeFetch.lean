import RangeFetch.Buffer.Partition
import RangeFetch.Completion.WaitingRoom
import RangeFetch.Config.Resolve
import RangeFetch.Config.Summary
import RangeFetch.Store.Read
import RangeFetch.Boundary
import RangeFetch.Transfer.Script
import RangeFetch.Proofs.History
import RangeFetch.Proofs.Requests
import RangeFetch.Proofs.Records
import RangeFetch.Proofs.Tally
import RangeFetch.Proofs.Deliveries
import RangeFetch.Proofs.Release
import RangeFetch.Proofs.Transfers
import RangeFetch.Proofs.Progress
import RangeFetch.Proofs.Retention
import RangeFetch.Proofs.Drain
import RangeFetch.Proofs.Stopping
import RangeFetch.Proofs.Calls
import RangeFetch.Proofs.Handles
import RangeFetch.Proofs.PartialReads
import RangeFetch.Proofs.Reading
import RangeFetch.Proofs.Replies
import RangeFetch.Proofs.Completing
import RangeFetch.Proofs.Agreement
import RangeFetch.Proofs.Admission
import RangeFetch.Proofs.Confluence
import RangeFetch.Proofs.Registration
import RangeFetch.Proofs.Limit
import RangeFetch.Proofs.Turns
import RangeFetch.Proofs.Moves
import RangeFetch.Proofs.Pacing
import RangeFetch.Proofs.Conservation
import RangeFetch.Proofs.Batching
import RangeFetch.Proofs.Wakeups
import RangeFetch.Proofs.Sharing
import RangeFetch.Proofs.Cutting
import RangeFetch.Proofs.Dealing
import RangeFetch.Proofs.Interruption
import RangeFetch.Proofs.Checks
import RangeFetch.Proofs.Naming
import RangeFetch.Proofs.Containment
import RangeFetch.Proofs.Precedence
import RangeFetch.Proofs.Redaction
import RangeFetch.Proofs.Arguments
import RangeFetch.Proofs.Creation
import RangeFetch.Proofs.Capacity
