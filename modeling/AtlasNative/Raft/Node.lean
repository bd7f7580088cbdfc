import AtlasNative.Raft.Types

/-!
# What a Raft node does

The operations of a node, in the order of the source: its log and its disk, sending, elections,
replication, commit, snapshots, read barriers, and `step`, which dispatches a message.
-/

namespace AtlasNative

namespace RaftNode

/-! ### Reading the node -/

def lastIndex (n : RaftNode) : Nat := (n.log.getLast?.map Entry.index).getD n.snapshotIndex

def lastTerm (n : RaftNode) : Nat := (n.log.getLast?.map Entry.term).getD n.snapshotTerm

def entry (n : RaftNode) (index : Nat) : Option Entry :=
  if index ≤ n.snapshotIndex then none else n.log[index - n.snapshotIndex - 1]?

def termAt (n : RaftNode) (index : Nat) : Option Nat :=
  if index = n.snapshotIndex then some n.snapshotTerm else (n.entry index).map Entry.term

/-- Index of the newest membership entry still in the log. -/
def configIndex (n : RaftNode) : Option Nat :=
  (n.log.reverse.find? fun e => (Consensus.LogEntry.config e).isSome).map Entry.index

def isVoter (n : RaftNode) : Bool := n.membership.voters.contains n.cfg.id

/-- Every voter but this node: who to replicate to and ask for votes. -/
def peers (n : RaftNode) : List NodeId := n.membership.voters.toList.filter (· ≠ n.cfg.id)

/-- Transport addresses learned from membership changes. -/
def peerAddrs (n : RaftNode) : BTreeMap NodeId String :=
  n.log.foldl (fun addrs e => match e.command with
    | .changeMembership _ a => addrs ∪ a
    | _ => addrs) n.catalog.raftAddrs

def logUpToDate (n : RaftNode) (lastLogIndex lastLogTerm : Nat) : Bool :=
  n.lastTerm < lastLogTerm || (lastLogTerm = n.lastTerm && n.lastIndex ≤ lastLogIndex)

/-- This node is the leader or has heard from one within the minimum election timeout. -/
def leaderActive (n : RaftNode) : Bool :=
  n.role = .leader || (n.leader.isSome && n.electionElapsed < n.cfg.electionTicks.1)

/-! ### Changes in memory -/

def refreshMembership (n : RaftNode) : RaftNode :=
  let latest := n.log.reverse.findSome? Consensus.LogEntry.config
  let n := { n with membership := (latest.or n.catalog.membership).getD n.initial }
  if n.role = .leader then
    let next := n.lastIndex + 1
    { n with
      nextIndex := n.peers.foldl (fun m p => if m.contains p then m else m.insert p next)
        (n.nextIndex.filter fun p _ => n.peers.contains p)
      matchIndex := n.peers.foldl (fun m p => if m.contains p then m else m.insert p 0)
        (n.matchIndex.filter fun p _ => n.peers.contains p) }
  else n

def resetElectionTimer (n : RaftNode) : RaftNode :=
  let r := n.rng
  let r := r ^^^ (r <<< 13)
  let r := r ^^^ (r >>> 7)
  let r := r ^^^ (r <<< 17)
  { n with
    rng := r
    electionElapsed := 0
    electionTimeout := n.cfg.electionTicks.1 +
      r.toNat % (n.cfg.electionTicks.2 - n.cfg.electionTicks.1) }

/-- Queues a message that starts an exchange. -/
def send (n : RaftNode) (dest : NodeId) (msg : Message) : RaftNode :=
  { n with outbox := n.outbox ++ [⟨n.cfg.id, dest, msg, n.epoch⟩] }

/-- Queues the answer to a request made in `epoch` of the asking node. -/
def reply (n : RaftNode) (dest : NodeId) (epoch : Nat) (msg : Message) : RaftNode :=
  { n with outbox := n.outbox ++ [⟨n.cfg.id, dest, msg, epoch⟩] }

def snapshotMessage (term : Nat) (o : Outgoing MemTable MemEntries) : Message :=
  .installSnapshot term o.index o.seq o.chunk

/-- Sends the chunk in flight of transfer `o`. -/
def sendChunk (n : RaftNode) (peer : NodeId) (o : Outgoing MemTable MemEntries) : RaftNode :=
  { n with outgoing := n.outgoing.insert peer o }.send peer (snapshotMessage n.hard.term o)

/-- Sends a follower the next entries, or a chunk of a snapshot if the log no longer has them. -/
def sendAppend (n : RaftNode) (peer : NodeId) : RaftNode :=
  let next := min ((n.nextIndex[peer]?).getD (n.lastIndex + 1)) (n.lastIndex + 1)
  let prev := next - 1
  if prev < n.snapshotIndex then
    match n.outgoing[peer]? with
    | some o =>
      -- a chunk in flight is sent again only after an election timeout
      if n.ticks < o.sentAt + n.cfg.electionTicks.2 then n
      else n.sendChunk peer { o with sentAt := n.ticks }
    | none => n.sendChunk peer (Outgoing.start n.catalog n.ticks)
  else
    let prevTerm := (n.termAt prev).getD 0
    let entries := (n.log.drop (next - n.snapshotIndex - 1)).take n.cfg.maxBatch
    let n' := match entries.getLast? with
      | some last => { n with nextIndex := n.nextIndex.insert peer (last.index + 1) }
      | none => n
    n'.send peer (.appendEntries n.hard.term prev prevTerm entries n.commitIndex n.readSeq)

def broadcastAppend (n : RaftNode) : RaftNode := n.peers.foldl sendAppend n

/-! ### Read barriers -/

def answerRead (n : RaftNode) (sender : Option NodeId) (id epoch : Nat) (index : Option Nat) :
    RaftNode :=
  match sender with
  | none => { n with readResults := n.readResults.insert id index }
  | some f => n.reply f epoch (.readIndexResponse n.hard.term id index)

/-- Counts an answer to read round `seq` toward a barrier. -/
def PendingRead.count (r : PendingRead) (sender : Option NodeId) (seq : Nat) : PendingRead :=
  match sender with
  | some f => if r.seq ≤ seq then { r with acks := r.acks.insert f } else r
  | none => r

/-- Counts `sender`'s answer to round `seq` toward every barrier registered by then and completes
those a quorum has confirmed. -/
def confirmReads (n : RaftNode) (sender : Option NodeId) (seq : Nat) : RaftNode :=
  let reads := n.pendingReads.map fun r => PendingRead.count r sender seq
  let done := reads.filter fun r => n.membership.hasQuorum r.acks
  let n := { n with pendingReads := reads.filter fun r => !n.membership.hasQuorum r.acks }
  done.foldl (fun n r => n.answerRead r.sender r.id r.epoch (some r.index)) n

/-- Registers a barrier at the commit index, unless this leader has not committed an entry in its
term yet. -/
def registerRead (n : RaftNode) (sender : Option NodeId) (id epoch : Nat) : Option RaftNode :=
  if n.termAt n.commitIndex ≠ some n.hard.term then none else
  let n := { n with readSeq := n.readSeq + 1 }
  let r : PendingRead := ⟨n.readSeq, n.commitIndex, sender, id, {n.cfg.id}, epoch⟩
  let n := { n with pendingReads := n.pendingReads ++ [r] }
  let n := n.confirmReads none 0
  some (if n.pendingReads.isEmpty then n else n.broadcastAppend)

end RaftNode

/-! ### The log on disk -/

namespace RaftM

def perform (eff : Effect) : RaftM Unit := modify fun s =>
  let d := s.disk.perform eff
  { s with disk := d, trace := s.trace ++ [(eff, d)] }

def node : RaftM RaftNode := do return (← get).node

def modifyNode (f : RaftNode → RaftNode) : RaftM Unit := modify fun s => { s with node := f s.node }

def setWal (last synced : Nat) : RaftM Unit := modifyNode fun n => { n with wal := ⟨last, synced⟩ }

def walAppend (e : Entry) : RaftM Unit := do
  let w := (← node).wal
  if e.index ≤ w.lastIndex then throw (.wal w.lastIndex e.index)
  perform (.walAppend e)
  setWal e.index w.syncedIndex

def walSync : RaftM Unit := do
  let w := (← node).wal
  if w.syncedIndex < w.lastIndex then
    perform .walSync
    setWal w.lastIndex w.lastIndex

def walCompactThrough (through : Nat) : RaftM Unit := do
  perform (.walKeepAbove through)
  let w := (← node).wal
  setWal w.lastIndex w.lastIndex

def walTruncateAfter (after : Nat) : RaftM Unit := do
  perform (.walKeepUpTo after)
  setWal after after

def walReset (floor : Nat) : RaftM Unit := do
  perform .walClear
  setWal floor floor

def walRaiseFloor (index : Nat) : RaftM Unit := do
  let w := (← node).wal
  setWal (max w.lastIndex index) (max w.syncedIndex index)

def persistHard : RaftM Unit := do perform (.persistHard (← node).hard)

/-! ### Applying and compacting -/

def maybeCompact : RaftM Unit := do
  let n ← node
  let applied := n.catalog.appliedIndex
  let keep := n.cfg.compactAfter
  if keep = 0 ∨ applied - n.snapshotIndex < 2 * keep then return
  let through := applied - keep
  match n.termAt through with
  | none => throw (.inconsistent s!"no term for {through}")
  | some term =>
    perform (.checkpoint n.catalog)
    walCompactThrough through
    modifyNode fun n => { n with
      log := n.log.drop (through - n.snapshotIndex)
      snapshotIndex := through
      snapshotTerm := term }

/-- Applies one committed entry; a rejected command is a committed no-op. -/
def applyEntry (e : Entry) : RaftM Unit := do
  match (← node).catalog.applyCommitted e.term e.index e.command with
  | (.panic msg, _) => throw (.panic msg)
  | (.hang, _) => throw (.panic "the catalog never returns")
  | (_, c) =>
    modifyNode fun n => { n with catalog := c }
    perform (.applied e)

/-- The next entries to apply, this many. -/
def applyNext : Nat → RaftM Unit
  | 0 => pure ()
  | k + 1 => do
    let n ← node
    let index := n.catalog.appliedIndex + 1
    match n.entry index with
    | none => throw (.inconsistent s!"missing entry {index}")
    | some e =>
      applyEntry e
      applyNext k

def applyCommitted : RaftM Unit := do
  let n ← node
  let start := n.catalog.appliedIndex
  applyNext (n.commitIndex - start)
  if start < (← node).catalog.appliedIndex then maybeCompact

/-! ### Roles -/

def becomeFollower (term : Nat) (leader : Option NodeId) : RaftM Unit := do
  walSync
  if (← node).hard.term < term then
    modifyNode fun n => { n with hard := ⟨term, none⟩ }
    persistHard
  -- barriers this node was confirming as leader can no longer be
  modifyNode fun n =>
    let reads := n.pendingReads
    let n := { n with pendingReads := [] }
    reads.foldl (fun n r => n.answerRead r.sender r.id r.epoch none) n
  modifyNode fun n => { n with
    role := .follower, spec := none, outgoing := ∅, leader := leader, votes := ∅ }.resetElectionTimer

def appendLocal (command : MetaCommand) : RaftM Nat := do
  let n ← node
  let e : Entry := ⟨n.hard.term, n.lastIndex + 1, command⟩
  perform (.created e n.lastTerm)
  walAppend e
  match n.spec with
  | none => pure ()
  | some spec =>
    -- a no-op for proposals, which are applied to `spec` before
    match spec.applyCommitted e.term e.index command with
    | (.panic msg, _) => throw (.panic msg)
    | (.hang, _) => throw (.panic "the catalog never returns")
    | (_, c) => modifyNode fun n => { n with spec := some c }
  modifyNode fun n => { n with log := n.log ++ [e] }
  if (Consensus.LogEntry.config e).isSome then modifyNode RaftNode.refreshMembership
  return e.index

/-- The catalog plus every logged entry. -/
def specMut : RaftM MemCatalog := do
  let n ← node
  match n.spec with
  | some spec => pure spec
  | none =>
    let applied := n.catalog.appliedIndex
    let spec ← (n.log.filter fun e => applied < e.index).foldlM (fun (c : MemCatalog) e =>
      match c.applyCommitted e.term e.index e.command with
      | (.panic msg, _) => throw (.panic msg)
      | (.hang, _) => throw (.panic "the catalog never returns")
      | (_, c) => pure c) n.catalog
    modifyNode fun n => { n with spec := some spec }
    pure spec

/-- Appends `command` after checking it applies on top of every logged entry. -/
def appendValidated (command : MetaCommand) : RaftM Nat := do
  let n ← node
  let spec ← specMut
  match spec.apply n.hard.term (n.lastIndex + 1) command with
  | (.ok _, c) =>
    modifyNode fun n => { n with spec := some c }
    appendLocal command
  | (.err e, c) =>
    modifyNode fun n => { n with spec := some c }
    throw (.rejected e)
  | (.panic msg, _) => throw (.panic msg)
  | (.hang, _) => throw (.panic "the catalog never returns")

/-- Once a joint configuration commits, append the stable one; once a stable configuration that
excludes this leader commits, step down. -/
def finishMembershipChange : RaftM Unit := do
  let n ← node
  if n.role ≠ .leader ∨ n.configIndex.any (n.commitIndex < ·) then return
  match n.membership with
  | .joint _ new =>
    let _ ← appendValidated (.changeMembership (.stable new) ∅)
    modifyNode RaftNode.broadcastAppend
  | .stable voters =>
    if !voters.contains n.cfg.id then becomeFollower n.hard.term none

/-- The nodes known to hold index `i` durably, this one included if its log is synced that far. -/
def acksFor (n : RaftNode) (i : Nat) : BTreeSet NodeId :=
  let acks := (n.matchIndex.filter fun _ m => i ≤ m).keys.foldl (·.insert ·) (∅ : BTreeSet NodeId)
  if i ≤ n.wal.syncedIndex then acks.insert n.cfg.id else acks

/-- The highest index above the commit index that a quorum holds, looking down from `i` through
entries of this term. -/
def newCommit (n : RaftNode) : Nat → Nat
  | 0 => n.commitIndex
  | i + 1 =>
    if i + 1 ≤ n.commitIndex ∨ n.termAt (i + 1) ≠ some n.hard.term then n.commitIndex
    else if n.membership.hasQuorum (acksFor n (i + 1)) then i + 1
    else newCommit n i

/-- One round of `advanceCommit`: whether it appended the entry that ends a membership change. -/
def advanceOnce : RaftM Bool := do
  let n ← node
  if n.role ≠ .leader then return false
  if n.membership.hasQuorum {n.cfg.id} then walSync
  let n ← node
  let commit := newCommit n n.lastIndex
  if commit ≤ n.commitIndex then return false
  modifyNode fun n => { n with commitIndex := commit }
  applyCommitted
  modifyNode RaftNode.broadcastAppend
  let last := (← node).lastIndex
  finishMembershipChange
  return (← node).lastIndex ≠ last

/-- Committing a configuration can append the next one, which may commit at once. A second round
never appends: the configuration it would end is stable. -/
def advanceCommit : RaftM Unit := do
  if ← advanceOnce then
    let _ ← advanceOnce

def becomeLeader : RaftM Unit := do
  modifyNode fun n =>
    let next := n.lastIndex + 1
    { n with
      role := .leader, spec := none, outgoing := ∅, incoming := none, leader := some n.cfg.id
      heartbeatElapsed := 0, checkQuorumElapsed := 0, recentActive := ∅
      nextIndex := .ofList (n.peers.map fun p => (p, next))
      matchIndex := .ofList (n.peers.map fun p => (p, 0))
      led := some n.hard.term }
  -- entries from earlier terms only commit once an entry of the current term does
  let _ ← appendLocal .noop
  modifyNode RaftNode.broadcastAppend
  advanceCommit

def campaign : RaftM Unit := do
  modifyNode fun n => { n with
    role := .candidate, hard := ⟨n.hard.term + 1, some n.cfg.id⟩ }
  persistHard
  modifyNode fun n => { n with leader := none, votes := {n.cfg.id} }.resetElectionTimer
  let n ← node
  if n.membership.hasQuorum n.votes then becomeLeader
  else
    let msg := .requestVote n.hard.term n.lastIndex n.lastTerm
    modifyNode fun n => n.peers.foldl (·.send · msg) n

def preCampaign : RaftM Unit := do
  if !(← node).isVoter then modifyNode RaftNode.resetElectionTimer
  else
    modifyNode fun n => { n with
      role := .preCandidate, leader := none, votes := {n.cfg.id} }.resetElectionTimer
    let n ← node
    if n.membership.hasQuorum n.votes then campaign
    else
      let msg := .preVote (n.hard.term + 1) n.lastIndex n.lastTerm
      modifyNode fun n => n.peers.foldl (·.send · msg) n

/-! ### Following a leader -/

/-- Walks back over the entries of term `t`. -/
def backHint (n : RaftNode) (t : Nat) : Nat → Nat
  | 0 => 0
  | h + 1 =>
    if n.snapshotIndex < h + 1 ∧ n.termAt (h + 1) = some t then backHint n t h else h + 1

/-- Takes one entry of the leader's log. -/
def takeEntry (e : Entry) : RaftM Unit := do
  let n ← node
  match n.termAt e.index with
  | some t =>
    if t = e.term then return
    if e.index ≤ n.commitIndex then
      throw (.inconsistent s!"leader overwrote committed index {e.index}")
    walTruncateAfter (e.index - 1)
    modifyNode fun n => { n with log := n.log.take (e.index - n.snapshotIndex - 1) }
    walAppend e
    modifyNode fun n => { n with log := n.log ++ [e] }
  | none =>
    walAppend e
    modifyNode fun n => { n with log := n.log ++ [e] }

/-- The entries above the snapshot, once the previous one is known to match. -/
def takeEntries (prevIndex prevTerm : Nat) (entries : List Entry) (leaderCommit : Nat) :
    RaftM (Bool × Nat) := do
  let n ← node
  match n.termAt prevIndex with
  | none => return (false, n.lastIndex)
  | some t =>
    if t ≠ prevTerm then return (false, backHint n t (prevIndex - 1))
    let matchIndex := prevIndex + entries.length
    entries.forM takeEntry
    modifyNode RaftNode.refreshMembership
    if (← node).commitIndex < leaderCommit then
      modifyNode fun n => { n with
        commitIndex := max (min leaderCommit matchIndex) n.commitIndex }
      applyCommitted
    return (true, matchIndex)

def handleAppend (prevIndex prevTerm : Nat) (entries : List Entry) (leaderCommit : Nat) :
    RaftM (Bool × Nat) := do
  let n ← node
  if prevIndex < n.snapshotIndex then
    -- everything up to the snapshot is committed and therefore identical to the leader
    let skip := n.snapshotIndex - prevIndex
    if entries.length ≤ skip then return (true, n.snapshotIndex)
    takeEntries n.snapshotIndex n.snapshotTerm (entries.drop skip) leaderCommit
  else takeEntries prevIndex prevTerm entries leaderCommit

/-- Takes over a snapshot the store already holds durably. -/
def adoptSnapshot (snap : MemCatalog) : RaftM Unit := do
  let si := snap.appliedIndex
  let st := snap.currentTerm
  modifyNode fun n => { n with catalog := snap }
  let n ← node
  if n.termAt si = some st then
    modifyNode fun n => { n with log := n.log.drop (si - n.snapshotIndex) }
    walCompactThrough si
  else
    modifyNode fun n => { n with log := [] }
    walReset si
  walRaiseFloor si
  modifyNode fun n => { n with
    snapshotIndex := si, snapshotTerm := st, commitIndex := si }.refreshMembership

/-- Swaps a fully staged snapshot in for the catalog store and adopts it. -/
def installStaged (inc : Incoming MemTable) : RaftM Unit := do
  modifyNode fun n => { n with spec := none, catalog := {} }
  perform (.installStore inc.catalog)
  adoptSnapshot inc.catalog

/-- Stages one chunk; returns the chunk to acknowledge, or `none` to start the transfer over. -/
def handleSnapshotChunk (index seq : Nat) (chunk : Chunk) : RaftM (Option Nat) := do
  let n ← node
  if index ≤ n.commitIndex then
    -- nothing to install; the response's match index ends the transfer
    modifyNode fun n => { n with incoming := none }
    return some seq
  match chunk with
  | .header catalog =>
    if seq ≠ 0 then
      modifyNode fun n => { n with incoming := none }
      return none
    modifyNode fun n => { n with incoming := some ⟨index, 0, catalog⟩ }
    return some 0
  | chunk =>
    match n.incoming.filter (·.index = index) with
    | none => return none
    | some inc =>
      if seq = inc.seq then return some seq
      if seq ≠ inc.seq + 1 then return none
      if chunk = .done then
        modifyNode fun n => { n with incoming := none }
        installStaged inc
      else
        match inc.catalog.stage chunk with
        | .error msg => throw (.io msg)
        | .ok c => modifyNode fun n => { n with incoming := some ⟨index, seq, c⟩ }
      return some seq

end RaftM

end AtlasNative
