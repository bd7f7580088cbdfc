import AtlasNative.Raft.Node

/-!
# Driving a Raft node

What a caller may do to a node: open it, tick it, hand it a message, take its messages, propose a
command, change the membership, and ask for a read barrier.
-/

namespace AtlasNative

namespace RaftM

/-! ### Messages -/

/-- A message of a higher term ends this node's role, unless a live leader makes a vote request
disruptive (`false`: the message is dropped). -/
def observeTerm (env : Envelope) : RaftM Bool := do
  let n ← node
  match env.msg with
  | .preVote .. | .preVoteResponse _ true => return true
  | .requestVote term _ _ =>
    if n.hard.term < term then
      if n.leaderActive then return false
      becomeFollower term none
    return true
  | .appendEntries term .. | .installSnapshot term .. =>
    if n.hard.term < term then becomeFollower term (some env.sender)
    return true
  | msg =>
    if n.hard.term < msg.term then becomeFollower msg.term none
    return true

def stepPreVote (env : Envelope) (term lastLogIndex lastLogTerm : Nat) : RaftM Unit :=
  modifyNode fun n =>
    let granted := n.hard.term < term && n.logUpToDate lastLogIndex lastLogTerm && !n.leaderActive
    n.reply env.sender env.epoch (.preVoteResponse (if granted then term else n.hard.term) granted)

def stepPreVoteResponse (env : Envelope) (term : Nat) (granted : Bool) : RaftM Unit := do
  let n ← node
  if n.role = .preCandidate ∧ granted ∧ term = n.hard.term + 1 then
    modifyNode fun n => { n with votes := n.votes.insert env.sender }
    let n ← node
    if n.membership.hasQuorum n.votes then campaign

def stepRequestVote (env : Envelope) (term lastLogIndex lastLogTerm : Nat) : RaftM Unit := do
  let n ← node
  let granted := term = n.hard.term && n.hard.votedFor.all (· = env.sender) &&
    n.logUpToDate lastLogIndex lastLogTerm
  if granted then
    modifyNode fun n => { n with hard := { n.hard with votedFor := some env.sender } }
    persistHard
    modifyNode RaftNode.resetElectionTimer
  modifyNode fun n => n.reply env.sender env.epoch (.requestVoteResponse n.hard.term granted)

def stepRequestVoteResponse (env : Envelope) (term : Nat) (granted : Bool) : RaftM Unit := do
  let n ← node
  if n.role = .candidate ∧ term = n.hard.term ∧ granted then
    modifyNode fun n => { n with votes := n.votes.insert env.sender }
    let n ← node
    if n.membership.hasQuorum n.votes then becomeLeader

/-- A message of this term's leader: this node follows it. -/
def followLeader (term : Nat) (leader : NodeId) : RaftM Unit := do
  if (← node).role ≠ .follower then becomeFollower term (some leader)
  modifyNode fun n => { n with leader := some leader }.resetElectionTimer

def stepAppendEntries (env : Envelope) (term prevIndex prevTerm : Nat) (entries : List Entry)
    (leaderCommit readSeq : Nat) : RaftM Unit := do
  if term < (← node).hard.term then
    modifyNode fun n => n.reply env.sender env.epoch
      (.appendEntriesResponse n.hard.term false 0 readSeq)
  else
    followLeader term env.sender
    let (success, matchIndex) ← handleAppend prevIndex prevTerm entries leaderCommit
    modifyNode fun n => n.reply env.sender env.epoch
      (.appendEntriesResponse n.hard.term success matchIndex readSeq)

/-- `peer` holds the log up to `matchIndex` durably. -/
def acknowledged (peer : NodeId) (matchIndex : Nat) : RaftM Unit := do
  let n ← node
  let m := max ((n.matchIndex[peer]?).getD 0) matchIndex
  -- an acknowledgement never moves the next index back
  let next := max (m + 1) ((n.nextIndex[peer]?).getD 0)
  modifyNode fun n => { n with
    matchIndex := n.matchIndex.insert peer m
    nextIndex := n.nextIndex.insert peer next }
  walSync
  advanceCommit
  if next ≤ (← node).lastIndex then modifyNode fun n => n.sendAppend peer

/-- `peer`'s log does not match where entries were sent: earlier ones are tried. -/
def stepBack (peer : NodeId) (matchIndex : Nat) : RaftM Unit := modifyNode fun n =>
  let cur := (n.nextIndex[peer]?).getD 1
  let next := max (min (cur - 1) (matchIndex + 1)) 1
  { n with nextIndex := n.nextIndex.insert peer next }.sendAppend peer

def stepAppendEntriesResponse (env : Envelope) (term : Nat) (success : Bool)
    (matchIndex readSeq : Nat) : RaftM Unit := do
  let n ← node
  if n.role ≠ .leader ∨ term ≠ n.hard.term ∨ !n.nextIndex.contains env.sender then return
  modifyNode fun n => { n with recentActive := n.recentActive.insert env.sender }
  if 0 < readSeq then modifyNode fun n => n.confirmReads (some env.sender) readSeq
  if success then acknowledged env.sender matchIndex
  else stepBack env.sender matchIndex

def stepInstallSnapshot (env : Envelope) (term index seq : Nat) (chunk : Chunk) : RaftM Unit := do
  let ack ← if (← node).hard.term ≤ term then do
      followLeader term env.sender
      handleSnapshotChunk index seq chunk
    else pure none
  modifyNode fun n => n.reply env.sender env.epoch
    (.installSnapshotResponse n.hard.term n.commitIndex ack)

/-- The transfer to `peer` goes on, or starts over. -/
def continueTransfer (peer : NodeId) (o : Outgoing MemTable MemEntries) (ack : Option Nat) :
    RaftM Unit := do
  match ack with
  | some seq =>
    if seq = o.seq ∧ !o.isDone then
      match o.advance (← node).ticks () with
      | .error _ _ => throw (.io "catalog store unreadable")
      | .ok o _ => modifyNode fun n => n.sendChunk peer o
  | none => modifyNode fun n => n.sendChunk peer (Outgoing.start n.catalog n.ticks)

/-- The follower has committed `matchIndex`: no transfer is needed any more. -/
def endTransfer (peer : NodeId) (matchIndex : Nat) : RaftM Unit := do
  let n ← node
  let m := max ((n.matchIndex[peer]?).getD 0) (min matchIndex n.lastIndex)
  let next := m + 1
  modifyNode fun n => { n with
    outgoing := n.outgoing.erase peer
    matchIndex := n.matchIndex.insert peer m
    nextIndex := n.nextIndex.insert peer next }
  advanceCommit
  if next ≤ (← node).lastIndex then modifyNode fun n => n.sendAppend peer

def stepInstallSnapshotResponse (env : Envelope) (term matchIndex : Nat) (ack : Option Nat) :
    RaftM Unit := do
  let n ← node
  if n.role ≠ .leader ∨ term ≠ n.hard.term ∨ !n.nextIndex.contains env.sender then return
  modifyNode fun n => { n with recentActive := n.recentActive.insert env.sender }
  match n.outgoing[env.sender]?.filter (matchIndex < ·.index) with
  | some o => continueTransfer env.sender o ack
  | none => endTransfer env.sender matchIndex

def stepReadIndex (env : Envelope) (term id : Nat) : RaftM Unit := modifyNode fun n =>
  let registered := if term ≠ n.hard.term ∨ n.role ≠ .leader then none
    else n.registerRead (some env.sender) id env.epoch
  registered.getD (n.reply env.sender env.epoch (.readIndexResponse n.hard.term id none))

def stepReadIndexResponse (id : Nat) (index : Option Nat) : RaftM Unit := modifyNode fun n =>
  if n.role = .leader then n else { n with readResults := n.readResults.insert id index }

def step (env : Envelope) : RaftM Unit := do
  if ← observeTerm env then
    match env.msg with
    | .preVote term li lt => stepPreVote env term li lt
    | .preVoteResponse term granted => stepPreVoteResponse env term granted
    | .requestVote term li lt => stepRequestVote env term li lt
    | .requestVoteResponse term granted => stepRequestVoteResponse env term granted
    | .appendEntries term pi pt entries lc rs => stepAppendEntries env term pi pt entries lc rs
    | .appendEntriesResponse term ok m rs => stepAppendEntriesResponse env term ok m rs
    | .installSnapshot term index seq chunk => stepInstallSnapshot env term index seq chunk
    | .installSnapshotResponse term m ack => stepInstallSnapshotResponse env term m ack
    | .readIndex term id => stepReadIndex env term id
    | .readIndexResponse _ id index => stepReadIndexResponse id index

/-! ### Time -/

/-- A leader steps down when no quorum answered within the minimum election timeout; `true` if it
did. -/
def checkQuorum : RaftM Bool := do
  modifyNode fun n => { n with checkQuorumElapsed := n.checkQuorumElapsed + 1 }
  let n ← node
  if n.checkQuorumElapsed < n.cfg.electionTicks.1 then return false
  modifyNode fun n => { n with checkQuorumElapsed := 0, recentActive := ∅ }
  if n.membership.hasQuorum (n.recentActive.insert n.cfg.id) then return false
  becomeFollower n.hard.term none
  return true

def tickLeader : RaftM Unit := do
  let n ← node
  if n.wal.syncedIndex < n.lastIndex then
    walSync
    advanceCommit
  if ← checkQuorum then return
  modifyNode fun n => { n with heartbeatElapsed := n.heartbeatElapsed + 1 }
  let n ← node
  if n.cfg.heartbeatTicks ≤ n.heartbeatElapsed then
    modifyNode fun n => { n with heartbeatElapsed := 0 }.broadcastAppend

def tick : RaftM Unit := do
  modifyNode fun n => { n with ticks := n.ticks + 1 }
  if (← node).role = .leader then tickLeader
  else
    modifyNode fun n => { n with electionElapsed := n.electionElapsed + 1 }
    let n ← node
    if n.electionTimeout ≤ n.electionElapsed then preCampaign

/-! ### Calls -/

/-- The messages to send. A non-leader's log is made durable first: its outbox may hold
acknowledgements for entries that were only written. -/
def takeMessages : RaftM (List Envelope) := do
  if (← node).role ≠ .leader then walSync
  let msgs := (← node).outbox
  modifyNode fun n => { n with outbox := [] }
  return msgs

def propose (command : MetaCommand) : RaftM Nat := do
  let n ← node
  if n.role ≠ .leader then throw (.notLeader n.leader)
  if let .changeMembership .. := command then
    throw (.config "membership changes go through change_membership")
  let index ← appendValidated command
  modifyNode RaftNode.broadcastAppend
  advanceCommit
  return index

/-- Starts moving the voter set to `voters`; `addrs` supplies addresses for nodes not yet known. -/
def changeMembership (voters : BTreeSet NodeId) (addrs : BTreeMap NodeId String) : RaftM Nat := do
  let n ← node
  if n.role ≠ .leader then throw (.notLeader n.leader)
  if voters.isEmpty then throw (.config "the new voter set is empty")
  match n.membership with
  | .joint _ _ => throw .membershipBusy
  | .stable old =>
    if n.configIndex.any (n.commitIndex < ·) ∨ n.termAt n.commitIndex ≠ some n.hard.term then
      throw .membershipBusy
    if old = voters then return n.commitIndex
    let known := n.peerAddrs
    match voters.toList.find? fun v => v ≠ n.cfg.id ∧ !addrs.contains v ∧ !known.contains v ∧
        v ∉ n.cfg.peers with
    | some missing => throw (.config s!"no address for new voter {missing}")
    | none =>
      let index ← appendValidated (.changeMembership (.joint old voters) addrs)
      modifyNode RaftNode.broadcastAppend
      advanceCommit
      return index

/-- Starts a read barrier and returns its id: the leader confirms its leadership with a quorum, a
follower asks the leader. -/
def readIndex : RaftM Nat := do
  let n ← node
  let id := n.nextReadId
  modifyNode fun n => { n with nextReadId := n.nextReadId + 1 }
  let n ← node
  if n.role = .leader then
    match n.registerRead none id n.epoch with
    | none => throw (.notLeader n.leader)
    | some n => modifyNode fun _ => n
  else
    match n.leader with
    | none => throw (.notLeader none)
    | some leader => modifyNode fun n => n.send leader (.readIndex n.hard.term id)
  return id

/-- The outcome of barrier `id`, once there is one; taking it forgets it. -/
def readResult (id : Nat) : RaftM (Option (Option Nat)) := do
  let r := (← node).readResults[id]?
  modifyNode fun n => { n with readResults := n.readResults.erase id }
  return r

def forgetRead (id : Nat) : RaftM Unit := modifyNode fun n => { n with
  readResults := n.readResults.erase id
  pendingReads := n.pendingReads.filter fun r => !(r.sender.isNone && r.id = id) }

end RaftM

/-! ### Opening a node -/

namespace RaftConfig

/-- The first voter set, or why there is none. -/
def initial (cfg : RaftConfig) : Except String Membership :=
  match cfg.bootstrap with
  | some b => if b = [] ∨ ¬ b.Nodup then .error "bootstrap voters must be non-empty and unique"
    else .ok (.stable (.ofList b))
  | none => .ok (.stable (.ofList (cfg.peers ++ [cfg.id])))

def check (cfg : RaftConfig) : Except String Unit :=
  if ¬ cfg.peers.Nodup ∨ cfg.id ∈ cfg.peers then
    .error "peers must be unique and must not include the node itself"
  else if cfg.electionTicks.1 = 0 ∨ cfg.electionTicks.2 ≤ cfg.electionTicks.1 ∨
      cfg.heartbeatTicks = 0 ∨ cfg.electionTicks.1 ≤ cfg.heartbeatTicks then
    .error "need 0 < heartbeat_ticks < election_ticks.0 < election_ticks.1"
  else .ok ()

/-- FNV-1a of the node's id. -/
def seed (cfg : RaftConfig) : UInt64 :=
  let bytes := cfg.id.toList.flatMap String.utf8EncodeChar
  bytes.foldl (fun r b => (r ^^^ b.toUInt64) * 0x100000001b3) 0xcbf29ce484222325

end RaftConfig

/-- The first position where a log above `applied` skips an index. -/
def logGap (applied : Nat) : List Entry → Option (Nat × Nat)
  | [] => none
  | e :: l => if e.index ≠ applied + 1 then some (applied + 1, e.index) else logGap (applied + 1) l

/-- What `open` reads off the disk, given the first voters. -/
def RaftNode.unsettled (cfg : RaftConfig) (initial : Membership) (hard : HardState)
    (catalog : MemCatalog) (log : List Entry) (last epoch : Nat) : RaftNode :=
  { cfg := cfg
    membership := initial
    initial := initial
    hard := { hard with term := max hard.term catalog.currentTerm }
    log := log
    snapshotIndex := catalog.appliedIndex
    snapshotTerm := catalog.currentTerm
    commitIndex := catalog.appliedIndex
    catalog := catalog
    wal := ⟨max last catalog.appliedIndex, max last catalog.appliedIndex⟩
    rng := cfg.seed ||| 1
    epoch := epoch }

/-- A node as `open` leaves it. -/
def RaftNode.fresh (cfg : RaftConfig) (initial : Membership) (hard : HardState)
    (catalog : MemCatalog) (log : List Entry) (last epoch : Nat) : RaftNode :=
  RaftNode.resetElectionTimer <| RaftNode.refreshMembership <|
    RaftNode.unsettled cfg initial hard catalog log last epoch

/-- Opens a node on `disk`: the node, its disk, and the disk after each effect. -/
def RaftNode.open (cfg : RaftConfig) (disk : Disk) (epoch : Nat) : Except RaftError NodeState :=
  match cfg.check with
  | .error msg => .error (.config msg)
  | .ok () =>
    let catalog := disk.store.getD {}
    let disk₁ := disk.perform (.checkpoint catalog)
    let started := if disk.store.isNone then [(Effect.checkpoint catalog, disk₁)] else []
    let log := disk.records.filter (catalog.appliedIndex < ·.index)
    match logGap catalog.appliedIndex log with
    | some (expected, found) =>
      .error (.inconsistent s!"log gap: expected index {expected}, found {found}")
    | none =>
      match cfg.initial with
      | .error msg => .error (.config msg)
      | .ok initial =>
        let disk₂ := disk₁.perform (.walKeepAbove catalog.appliedIndex)
        let last := (disk.records.getLast?.map Entry.index).getD 0
        .ok { node := RaftNode.fresh cfg initial disk.hard catalog log last epoch
              disk := disk₂
              trace := started ++ [(.walKeepAbove catalog.appliedIndex, disk₂)] }

end AtlasNative
