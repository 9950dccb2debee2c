import SplitOrder.OrderKey
import SplitOrder.PackedLink
import SplitOrder.Reclaimer
import SplitOrder.Table.Sizing
import SplitOrder.Table.Entry
import SplitOrder.List.Session
import SplitOrder.Table.Session
import SplitOrder.Workload
import SplitOrder.Proofs.List.Reachable
import SplitOrder.Proofs.List.SortedSet
import SplitOrder.Proofs.List.NestedDeletion
import SplitOrder.Proofs.List.Iteration
import SplitOrder.Proofs.List.WeakConsistency
import SplitOrder.Proofs.Table.Entry
import SplitOrder.Proofs.Table.Directory
import SplitOrder.Proofs.Table.Intact
import SplitOrder.Proofs.Table.Contents
import SplitOrder.Proofs.Table.FiniteMap
import SplitOrder.Proofs.Table.Reachable
import SplitOrder.Proofs.Table.WeakConsistency
import SplitOrder.Proofs.Table.TwoSteps
import SplitOrder.Proofs.Table.Counting
import SplitOrder.Proofs.List.LateWrites
import SplitOrder.Proofs.Reclaimer
import SplitOrder.Proofs.List.Retirement
import SplitOrder.Proofs.Table.Requests
import SplitOrder.Proofs.Table.Tidy
import SplitOrder.Proofs.List.Starts
import SplitOrder.Proofs.Table.Coherence
import SplitOrder.Proofs.Table.Shortcut
import SplitOrder.Proofs.Reclamation
import SplitOrder.Proofs.Table.Calls
import SplitOrder.Proofs.Table.Frame
import SplitOrder.Proofs.Table.Load
import SplitOrder.Proofs.Table.Sizing
import SplitOrder.Proofs.Table.Faultless
import SplitOrder.Proofs.Table.Crowd
import SplitOrder.Proofs.Table.Agreement
import SplitOrder.Proofs.Table.Placement
import SplitOrder.Proofs.Table.Ancestors
import SplitOrder.Proofs.Table.HistoryFree
import SplitOrder.Proofs.Interleaving
import SplitOrder.Proofs.Clients
import SplitOrder.Proofs.List.Clearing
import SplitOrder.Proofs.Table.EntryOrder
import SplitOrder.Proofs.Table.History
import SplitOrder.Proofs.Table.Materialized
import SplitOrder.Proofs.Table.SentinelBound
import SplitOrder.Proofs.List.Shortcut
import SplitOrder.Proofs.List.Looks
import SplitOrder.Proofs.List.Ranks
import SplitOrder.Proofs.ManyKeys
import SplitOrder.Proofs.Table.WriteOnce
import SplitOrder.Proofs.Table.Capacity
import SplitOrder.Proofs.PackedLink
import SplitOrder.Proofs.List.OnePass
import SplitOrder.Proofs.Retries
import SplitOrder.Proofs.RecordStack
import SplitOrder.Proofs.Table.KeyForms
