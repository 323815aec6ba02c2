import LinkState.Main
import LinkState.Request
import LinkState.Proofs.Computation
import LinkState.Proofs.Compute
import LinkState.Proofs.Description.Acceptance
import LinkState.Proofs.Description.Parts
import LinkState.Proofs.Distance
import LinkState.Proofs.Frontier.Agreement
import LinkState.Proofs.Frontier.Capacity
import LinkState.Proofs.Frontier.History
import LinkState.Proofs.Frontier.PriorityQueue
import LinkState.Proofs.NexthopMerge
import LinkState.Proofs.Repair.Adjacency
import LinkState.Proofs.Repair.BackupCost
import LinkState.Proofs.Repair.Coverage
import LinkState.Proofs.Repair.Dependence
import LinkState.Proofs.Repair.ExtendedSpace
import LinkState.Proofs.Repair.FarSpace
import LinkState.Proofs.Repair.Levels
import LinkState.Proofs.Repair.LoopFree
import LinkState.Proofs.Repair.Offers
import LinkState.Proofs.Repair.Protected
import LinkState.Proofs.Repair.Remote
import LinkState.Proofs.Repair.Space
import LinkState.Proofs.RoutingTable.Contenders
import LinkState.Proofs.Session.Availability
import LinkState.Proofs.Session.Backups
import LinkState.Proofs.Session.Capacity
import LinkState.Proofs.Session.FarSpace
import LinkState.Proofs.Session.Faults
import LinkState.Proofs.Session.Freshness
import LinkState.Proofs.Session.HistoryIndependence
import LinkState.Proofs.Session.InPlace
import LinkState.Proofs.Session.Ledger
import LinkState.Proofs.Session.Lockstep
import LinkState.Proofs.Session.Refusals
import LinkState.Proofs.Session.Regrouping
import LinkState.Proofs.Session.Safety
import LinkState.Proofs.Session.Standing
import LinkState.Proofs.Session.Tables
import LinkState.Proofs.ShortestPath.Completion
import LinkState.Proofs.ShortestPath.Course
import LinkState.Proofs.ShortestPath.EqualCost
import LinkState.Proofs.ShortestPath.Exactness
import LinkState.Proofs.ShortestPath.Footprint
import LinkState.Proofs.ShortestPath.Gathered
import LinkState.Proofs.ShortestPath.Invariant
import LinkState.Proofs.ShortestPath.LanMembers
import LinkState.Proofs.ShortestPath.Levels
import LinkState.Proofs.ShortestPath.Nexthops
import LinkState.Proofs.ShortestPath.Outcome
import LinkState.Proofs.ShortestPath.Records
import LinkState.Proofs.ShortestPath.Routing
import LinkState.Proofs.ShortestPath.Runs
import LinkState.Proofs.ShortestPath.Timeliness
import LinkState.Proofs.Topology.Interfaces
import LinkState.Proofs.Topology.Inversion
import LinkState.Proofs.Topology.LeastMetric
import LinkState.Proofs.Topology.LinkFailure
import LinkState.Proofs.Topology.Names
import LinkState.Proofs.Topology.Pairs
import LinkState.Proofs.Topology.Reachability
import LinkState.Proofs.Topology.Representation
import LinkState.Proofs.Topology.Rows
import LinkState.Proofs.Topology.WellFormed
