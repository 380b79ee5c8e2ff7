import LevelIndex.Batch.Funnel
import LevelIndex.Index
import LevelIndex.SortedPairs
import LevelIndex.Store.Lemmas
import LevelIndex.Tree.Printer
import LevelIndex.Tree.Shape
import LevelIndex.Proofs.Cells
import LevelIndex.Proofs.Merge
import LevelIndex.Proofs.Store.View
import LevelIndex.Proofs.Yields
import LevelIndex.Proofs.Intact
import LevelIndex.Proofs.WellFormed
import LevelIndex.Proofs.Walk
import LevelIndex.Proofs.Search
import LevelIndex.Proofs.Batch.Climb
import LevelIndex.Proofs.Blocks
import LevelIndex.Proofs.Insert.Lay
import LevelIndex.Proofs.Routing
import LevelIndex.Proofs.Insert.Level
import LevelIndex.Proofs.Insert.Climb
import LevelIndex.Proofs.Remove.Amend
import LevelIndex.Proofs.Remove.Rewrite
import LevelIndex.Proofs.Remove.Group
import LevelIndex.Proofs.Remove.Advance
import LevelIndex.Proofs.Remove.Compact
import LevelIndex.Proofs.Remove.Level
import LevelIndex.Proofs.Remove.Climb
import LevelIndex.Proofs.Batch.Normal
import LevelIndex.Proofs.Table
import LevelIndex.Proofs.Index
import LevelIndex.Proofs.History
import LevelIndex.Proofs.Check
import LevelIndex.Proofs.Store.Twin
import LevelIndex.Proofs.Insert.Room
import LevelIndex.Proofs.Nodes
import LevelIndex.Proofs.Accepted
import LevelIndex.Proofs.Batch.Crew
import LevelIndex.Proofs.Batch.Pure
import LevelIndex.Proofs.Reachable
import LevelIndex.Proofs.Extends
import LevelIndex.Proofs.Store.Closed
import LevelIndex.Proofs.Changes
import LevelIndex.Proofs.Accounting
import LevelIndex.Proofs.Height
import LevelIndex.Proofs.Renaming
import LevelIndex.Proofs.Batch.Orders
import LevelIndex.Proofs.Remove.Orders
import LevelIndex.Proofs.Insert.Plots
import LevelIndex.Proofs.Insert.Orders
import LevelIndex.Proofs.Workers
import LevelIndex.Proofs.Insert.Handover
import LevelIndex.Proofs.Remove.Handover
import LevelIndex.Proofs.Growth
import LevelIndex.Proofs.Handover
import LevelIndex.Proofs.Batch.Parcels
import LevelIndex.Proofs.Parcels
import LevelIndex.Proofs.Insert.Split
import LevelIndex.Proofs.Splits
import LevelIndex.Proofs.Insert.Growth
import LevelIndex.Proofs.Insert.Replace
import LevelIndex.Proofs.Remove.Idle
import LevelIndex.Proofs.Idempotence
import LevelIndex.Proofs.Contents
import LevelIndex.Proofs.Spine
import LevelIndex.Proofs.Verdict
import LevelIndex.Proofs.Insert.Confined
import LevelIndex.Proofs.Remove.Confined
import LevelIndex.Proofs.Frame
import LevelIndex.Proofs.Sentinel
import LevelIndex.Proofs.SortedPairs
import LevelIndex.Proofs.Batch.Tiling
import LevelIndex.Proofs.Remove.Parting
import LevelIndex.Proofs.Partings
