import ParamServer.Cluster
import ParamServer.Main
import ParamServer.Options.CommandLine
import ParamServer.Proofs.Roster
import ParamServer.Proofs.Shard
import ParamServer.Proofs.Slice
import ParamServer.Proofs.Store
import ParamServer.Proofs.Session.Honest
import ParamServer.Proofs.Tablet.Answers
import ParamServer.Proofs.Tablet.Barrier
import ParamServer.Proofs.Tablet.Speculation
import ParamServer.Proofs.Waitlist
import ParamServer.Proofs.World.Staleness
import ParamServer.Proofs.WriteLog
import ParamServer.Spec.Wire
import ParamServer.Workload
import ParamServer.Proofs.World.Transparency
import ParamServer.Proofs.World.Totals
import ParamServer.Proofs.Session.Reopened
import ParamServer.Proofs.World.Lead
import ParamServer.Proofs.World.Progress
import ParamServer.Proofs.Tablet.Lockstep
import ParamServer.Proofs.Tablet.Relaxation
import ParamServer.Proofs.Tablet.NoSpeculation
import ParamServer.Proofs.Tablet.Landing
import ParamServer.Proofs.Tablet.Backing
import ParamServer.Proofs.Tablet.Refusal
import ParamServer.Proofs.Tablet.Overflow
import ParamServer.Proofs.Message.Wire
import ParamServer.Proofs.Session.Answered
import ParamServer.Proofs.Tablet.Interleaving
import ParamServer.Proofs.World.OwnWrites
import ParamServer.Proofs.Shard.Isolation
import ParamServer.Proofs.Exchange
import ParamServer.Proofs.Cluster
import ParamServer.Proofs.Layout.Even
import ParamServer.Proofs.World.Retry
import ParamServer.Proofs.Cluster.Handles
import ParamServer.Proofs.Shard.Draining
import ParamServer.Proofs.Waitlist.Queue
import ParamServer.Proofs.Roster.Calls
import ParamServer.Proofs.Cluster.Ids
