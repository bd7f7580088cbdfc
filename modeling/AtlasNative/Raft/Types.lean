import AtlasNative.Catalog.Transfer

/-!
# The Raft node: messages, state, disk

A node is driven by `tick`, `step` and the client calls; it keeps its log in a write-ahead log and
its catalog in a store. Both live on `Disk`, which survives a crash except for records appended to
the log and not yet synced. Everything a node does to its disk is an `Effect`, and an operation
records the disk each effect left, since the node may crash after any of them.

The catalog is taken at the level of its contents: the store holds what was checkpointed. Terms and
indexes are `u64` in the source and natural numbers here: no run counts to 2^64.

`epoch` (in nodes, envelopes and pending reads) counts how often a node has been opened and, in a
message, says which opening of the asking node the exchange belongs to; `led` is the last term this
opening of a node was elected in. No function reads them.
-/

namespace AtlasNative

/-- One record of the replicated log. -/
structure Entry where
  term : Nat
  index : Nat
  command : MetaCommand
deriving DecidableEq

instance : Consensus.LogEntry Entry Membership where
  term := Entry.term
  config e := match e.command with
    | .changeMembership m _ => some m
    | _ => none

structure RaftConfig where
  id : NodeId
  /-- The other nodes this one knows of. -/
  peers : List NodeId
  /-- Initial voter set; `none` stands for `peers` and `id`. -/
  bootstrap : Option (List NodeId) := none
  /-- The election timeout is drawn from this half-open range of ticks. -/
  electionTicks : Nat × Nat := (10, 20)
  heartbeatTicks : Nat := 3
  maxBatch : Nat := 64
  /-- Compact the log once twice this many applied entries sit above the last compaction point,
  keeping the newest so many (0 disables compaction). -/
  compactAfter : Nat := 1024

inductive Role where
  | follower | preCandidate | candidate | leader
deriving DecidableEq, Repr

abbrev Chunk := SnapshotChunk MemTable MemEntries

inductive Message where
  | preVote (term lastLogIndex lastLogTerm : Nat)
  | preVoteResponse (term : Nat) (granted : Bool)
  | requestVote (term lastLogIndex lastLogTerm : Nat)
  | requestVoteResponse (term : Nat) (granted : Bool)
  | appendEntries (term prevLogIndex prevLogTerm : Nat) (entries : List Entry)
      (leaderCommit readSeq : Nat)
  | appendEntriesResponse (term : Nat) (success : Bool) (matchIndex readSeq : Nat)
  | installSnapshot (term index seq : Nat) (chunk : Chunk)
  | installSnapshotResponse (term matchIndex : Nat) (ack : Option Nat)
  | readIndex (term id : Nat)
  | readIndexResponse (term id : Nat) (index : Option Nat)
deriving DecidableEq

def Message.term : Message → Nat
  | preVote t .. | preVoteResponse t .. | requestVote t .. | requestVoteResponse t ..
  | appendEntries t .. | appendEntriesResponse t .. | installSnapshot t ..
  | installSnapshotResponse t .. | readIndex t .. | readIndexResponse t .. => t

structure Envelope where
  sender : NodeId
  dest : NodeId
  msg : Message
  epoch : Nat
deriving DecidableEq

structure HardState where
  term : Nat := 0
  votedFor : Option NodeId := none
deriving DecidableEq, Repr

/-- What the node knows of its write-ahead log. -/
structure Wal where
  lastIndex : Nat := 0
  /-- Highest index known to be on disk. -/
  syncedIndex : Nat := 0
deriving DecidableEq, Repr

/-- A read barrier the leader is confirming. -/
structure PendingRead where
  seq : Nat
  index : Nat
  /-- The follower that asked, or none for this node. -/
  sender : Option NodeId
  id : Nat
  acks : BTreeSet NodeId
  epoch : Nat

structure RaftNode where
  cfg : RaftConfig
  /-- The latest configuration in the log, else the applied catalog's, else `initial`. -/
  membership : Membership
  initial : Membership
  role : Role := .follower
  hard : HardState
  leader : Option NodeId := none
  /-- Contiguous entries above `snapshotIndex`. -/
  log : List Entry
  snapshotIndex : Nat
  snapshotTerm : Nat
  commitIndex : Nat
  /-- Applied state machine. -/
  catalog : MemCatalog
  /-- Leader only: the catalog plus every logged entry. -/
  spec : Option MemCatalog := none
  wal : Wal
  votes : BTreeSet NodeId := ∅
  nextIndex : BTreeMap NodeId Nat := ∅
  matchIndex : BTreeMap NodeId Nat := ∅
  /-- Peers that answered the leader since the last check-quorum round. -/
  recentActive : BTreeSet NodeId := ∅
  checkQuorumElapsed : Nat := 0
  electionElapsed : Nat := 0
  electionTimeout : Nat := 0
  heartbeatElapsed : Nat := 0
  ticks : Nat := 0
  /-- Leader only: snapshot transfers in progress. -/
  outgoing : BTreeMap NodeId (Outgoing MemTable MemEntries) := ∅
  /-- Follower only: a snapshot transfer being staged. -/
  incoming : Option (Incoming MemTable) := none
  rng : UInt64
  outbox : List Envelope := []
  /-- Leader only: the read round, raised whenever a barrier is registered. -/
  readSeq : Nat := 0
  pendingReads : List PendingRead := []
  nextReadId : Nat := 1
  /-- Barriers this node asked for: id to the index to wait for. -/
  readResults : BTreeMap Nat (Option Nat) := ∅
  epoch : Nat
  led : Option Nat := none

inductive RaftError where
  | notLeader (leader : Option NodeId)
  | rejected (e : MetaError)
  | config (msg : String)
  | membershipBusy
  /-- A write-ahead log record below the last one. -/
  | wal (last next : Nat)
  | inconsistent (msg : String)
  | io (msg : String)
  /-- The catalog panicked, or never returned. -/
  | panic (msg : String)
deriving DecidableEq, Repr

/-- Errors that refuse a client's call and leave the node running; any other stops it. -/
def RaftError.refusal : RaftError → Bool
  | notLeader _ | rejected _ | config _ | membershipBusy => true
  | _ => false

/-! ### The disk -/

structure Disk where
  hard : HardState := {}
  /-- The catalog store: what was last checkpointed or installed. -/
  store : Option MemCatalog := none
  /-- Records of the write-ahead log that are on disk. -/
  synced : List Entry := []
  /-- Records written after them and not yet synced. -/
  pending : List Entry := []

inductive Effect where
  | persistHard (hard : HardState)
  | walAppend (e : Entry)
  | walSync
  /-- The log rewritten with the records above, up to, or none at all. -/
  | walKeepAbove (index : Nat)
  | walKeepUpTo (index : Nat)
  | walClear
  | checkpoint (catalog : MemCatalog)
  /-- A staged snapshot renamed over the store. -/
  | installStore (catalog : MemCatalog)
  /-- Not an effect on the disk: the catalog took `e`. -/
  | applied (e : Entry)
  /-- Not an effect on the disk: a leader creates `e` after an entry or snapshot of term
  `prevTerm`. -/
  | created (e : Entry) (prevTerm : Nat)
deriving DecidableEq

namespace Disk

def records (d : Disk) : List Entry := d.synced ++ d.pending

/-- A rewrite replaces the log file by a synced one with the records kept. -/
def rewrite (d : Disk) (keep : Entry → Bool) : Disk :=
  { d with synced := d.records.filter keep, pending := [] }

def perform (d : Disk) : Effect → Disk
  | .persistHard hard => { d with hard := hard }
  | .walAppend e => { d with pending := d.pending ++ [e] }
  | .walSync => { d with synced := d.records, pending := [] }
  | .walKeepAbove i => d.rewrite (i < ·.index)
  | .walKeepUpTo i => d.rewrite (·.index ≤ i)
  | .walClear => d.rewrite fun _ => false
  | .checkpoint c => { d with store := some c }
  | .installStore c => { d with store := some c }
  | .applied _ | .created .. => d

/-- A crash loses unsynced records from some point on. It leaves whole records: what a torn last line
of the log file comes to is the subject of `WalFile`, and `Disk.crash_of_file` ties the two. -/
def crash (d : Disk) (kept : Nat) : Disk := { d with pending := d.pending.take kept }

end Disk

/-- A running node, its disk, and the disk after each effect of the operation in progress. -/
structure NodeState where
  node : RaftNode
  disk : Disk
  trace : List (Effect × Disk) := []

abbrev RaftM (α : Type) := EStateM RaftError NodeState α

end AtlasNative
