import ResourceIndex.Record
import ResourceIndex.Identifier.Keyed
import ResourceIndex.Identifier.Name
import ResourceIndex.Table.Verify
import ResourceIndex.SerialTable
import ResourceIndex.Proofs.Store
import ResourceIndex.Proofs.Segment
import ResourceIndex.Proofs.Addressing
import ResourceIndex.Proofs.Request
import ResourceIndex.Proofs.Frame
import ResourceIndex.Proofs.Expansion
import ResourceIndex.Proofs.Reading
import ResourceIndex.Proofs.Layout
import ResourceIndex.Proofs.Splitting
import ResourceIndex.Proofs.Ledger
import ResourceIndex.Proofs.Agreement
import ResourceIndex.Proofs.Progress
import ResourceIndex.Proofs.Structure
import ResourceIndex.Proofs.Arrangement
import ResourceIndex.Proofs.Refinement
import ResourceIndex.Proofs.Account
import ResourceIndex.Proofs.Editing
import ResourceIndex.Proofs.Loss
import ResourceIndex.Proofs.Resumption
import ResourceIndex.Proofs.Isolation
import ResourceIndex.Proofs.Aftermath
import ResourceIndex.Proofs.Numbering
import ResourceIndex.Proofs.Load
import ResourceIndex.Proofs.Repetition
import ResourceIndex.Proofs.Counter
import ResourceIndex.Proofs.Capacity
import ResourceIndex.Proofs.Safety
import ResourceIndex.Proofs.Trials
import ResourceIndex.Proofs.Strand
import ResourceIndex.Proofs.Wiring
import ResourceIndex.Proofs.Soundness
import ResourceIndex.Proofs.Restraint
import ResourceIndex.Proofs.Partition
import ResourceIndex.Proofs.Withdrawal
import ResourceIndex.Proofs.Journal
import ResourceIndex.Proofs.Astray
import ResourceIndex.Proofs.Checking
import ResourceIndex.Proofs.Interchange
import ResourceIndex.Proofs.Itinerary
import ResourceIndex.Proofs.Visiting
import ResourceIndex.Proofs.Walks
import ResourceIndex.Proofs.Homecoming
import ResourceIndex.Proofs.Folding
import ResourceIndex.Proofs.Influence
import ResourceIndex.Proofs.Streams
import ResourceIndex.Proofs.Detection
import ResourceIndex.Proofs.Reach
import ResourceIndex.Proofs.Routing
import ResourceIndex.Proofs.Bundle
