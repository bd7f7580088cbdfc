import AtlasNative.Raft.Cluster

/-!
# The actions a node's calls are made of

Every call of a node is a sequence of actions, each with the condition under which the code takes
it. An action is atomic as far as the group is concerned: what holds of a node and its disk is
stated for the states between actions, and `Action` says once what a node can do. That each call is
such a sequence is shown in the modules that follow; invariants are then proved action by action.

A `Setting` is what a node meets from outside: the messages that have been released, what may be
asked of it as a leader, and whether its catalog may be left halfway.
-/

namespace AtlasNative

open Relation (ReflTransGen)

/-! ### What the invariants of a node depend on -/

/-- The part of a node that is more than a timer, a hint or a cursor. -/
structure RaftNode.Core where
  id : NodeId
  membership : Membership
  initial : Membership
  role : Role
  hard : HardState
  log : List Entry
  snapshotIndex : Nat
  snapshotTerm : Nat
  commitIndex : Nat
  catalog : MemCatalog
  wal : Wal
  votes : BTreeSet NodeId
  matchIndex : BTreeMap NodeId Nat
  outgoing : BTreeMap NodeId (Outgoing MemTable MemEntries)
  incoming : Option (Incoming MemTable)
  outbox : List Envelope
  readSeq : Nat
  pendingReads : List PendingRead
  nextReadId : Nat
  readResults : BTreeMap Nat (Option Nat)
  epoch : Nat
  led : Option Nat
  spec : Option MemCatalog

def RaftNode.core (n : RaftNode) : RaftNode.Core :=
  { n with id := n.cfg.id }

/-- `e` applied to `c`, rejected or not. -/
def MemCatalog.after (c : MemCatalog) (e : Entry) : MemCatalog :=
  (c.applyCommitted e.term e.index e.command).2

/-- The applied catalog with every later entry of the log applied to it, rejected ones ignored. -/
def RaftNode.logged (n : RaftNode) : MemCatalog :=
  (n.log.filter (n.catalog.appliedIndex < ·.index)).foldl MemCatalog.after n.catalog

/-- The catalog a command is checked against. -/
def RaftNode.speculative (n : RaftNode) : MemCatalog := n.spec.getD n.logged

namespace NodeState

def update (s : NodeState) (f : RaftNode → RaftNode) : NodeState := { s with node := f s.node }

def emit (s : NodeState) (eff : Effect) : NodeState :=
  { s with disk := s.disk.perform eff, trace := s.trace ++ [(eff, s.disk.perform eff)] }

/-- Unsynced records reach the disk. -/
def flush (s : NodeState) : NodeState :=
  (s.emit .walSync).update fun n => { n with wal := ⟨n.wal.lastIndex, n.wal.lastIndex⟩ }

/-- `e` is appended to the log and its file. -/
def push (s : NodeState) (e : Entry) : NodeState :=
  (s.emit (.walAppend e)).update fun n =>
    { n with wal := ⟨e.index, n.wal.syncedIndex⟩, log := n.log ++ [e] }

/-- Entries above `i` are dropped from the log and its file. -/
def cut (s : NodeState) (i : Nat) : NodeState :=
  (s.emit (.walKeepUpTo i)).update fun n =>
    { n with wal := ⟨i, i⟩, log := n.log.take (i - n.snapshotIndex) }

/-- Entries up to `i`, of term `t`, are left to the checkpointed catalog. -/
def compact (s : NodeState) (i t : Nat) : NodeState :=
  (s.emit (.walKeepAbove i)).update fun n =>
    { n with
      wal := ⟨n.wal.lastIndex, n.wal.lastIndex⟩
      log := n.log.drop (i - n.snapshotIndex)
      snapshotIndex := i
      snapshotTerm := t }

/-- A higher term is adopted. -/
def raiseTerm (s : NodeState) (term : Nat) : NodeState :=
  if s.node.hard.term < term then
    (s.update fun n => { n with hard := ⟨term, none⟩ }).emit (.persistHard ⟨term, none⟩)
  else s

/-- Barriers being confirmed are given up. -/
def dropReads (s : NodeState) : NodeState := s.update fun n =>
  let reads := n.pendingReads
  let n := { n with pendingReads := [] }
  reads.foldl (fun n r => n.answerRead r.sender r.id r.epoch none) n

/-- The node follows a leader, or none, in `term`. -/
def followed (s : NodeState) (term : Nat) (leader : Option NodeId) : NodeState :=
  (s.raiseTerm term).dropReads.update fun n => { n with
    role := .follower, spec := none, outgoing := ∅, leader := leader, votes := ∅ }.resetElectionTimer

/-- The node campaigns in the next term. -/
def campaigning (s : NodeState) : NodeState :=
  let s := s.update fun n => { n with
    role := .candidate, hard := ⟨n.hard.term + 1, some n.cfg.id⟩ }
  let s := s.emit (.persistHard s.node.hard)
  s.update fun n => { n with leader := none, votes := {n.cfg.id} }.resetElectionTimer

/-- The node leads its term. -/
def leading (s : NodeState) : NodeState := s.update fun n =>
  let next := n.lastIndex + 1
  { n with
    role := .leader, spec := none, outgoing := ∅, incoming := none, leader := some n.cfg.id
    heartbeatElapsed := 0, checkQuorumElapsed := 0, recentActive := ∅
    nextIndex := .ofList (n.peers.map fun p => (p, next))
    matchIndex := .ofList (n.peers.map fun p => (p, 0))
    led := some n.hard.term }

/-- The state after the speculative catalog changed. -/
def withSpec (s : NodeState) (spec : Option MemCatalog) : NodeState :=
  s.update fun n => { n with spec := spec }

/-- The entry a leader creates next. -/
def nextEntry (s : NodeState) (command : MetaCommand) : Entry :=
  ⟨s.node.hard.term, s.node.lastIndex + 1, command⟩

/-- The node, leader of its term, creates an entry. -/
def create (s : NodeState) (command : MetaCommand) : NodeState :=
  let e : Entry := ⟨s.node.hard.term, s.node.lastIndex + 1, command⟩
  let s := (s.emit (.created e s.node.lastTerm)).push e
  if (Consensus.LogEntry.config e).isSome then s.update RaftNode.refreshMembership else s

/-- The node votes for the sender of `env`. -/
def vote (s : NodeState) (env : Envelope) : NodeState :=
  let s := s.update fun n => { n with hard := { n.hard with votedFor := some env.sender } }
  let s := (s.emit (.persistHard s.node.hard)).update RaftNode.resetElectionTimer
  s.update fun n => n.reply env.sender env.epoch (.requestVoteResponse n.hard.term true)

/-- A staged snapshot replaces the store. -/
def swapStore (s : NodeState) (c : MemCatalog) : NodeState :=
  (s.emit (.installStore c)).update fun n => { n with incoming := none, spec := none, catalog := c }

/-- The log loses what a snapshot covers, or everything if it does not match the snapshot. -/
def trimLog (s : NodeState) (c : MemCatalog) : NodeState :=
  if s.node.termAt c.appliedIndex = some c.currentTerm then
    (s.emit (.walKeepAbove c.appliedIndex)).update fun n => { n with
      log := n.log.drop (c.appliedIndex - n.snapshotIndex)
      wal := ⟨max n.wal.lastIndex c.appliedIndex, max n.wal.lastIndex c.appliedIndex⟩ }
  else
    (s.emit .walClear).update fun n => { n with log := [], wal := ⟨c.appliedIndex, c.appliedIndex⟩ }

/-- The log continues after the snapshot. -/
def rebase (s : NodeState) (c : MemCatalog) : NodeState :=
  ((s.swapStore c).trimLog c).update fun n => { n with
    snapshotIndex := c.appliedIndex
    snapshotTerm := c.currentTerm
    commitIndex := c.appliedIndex }

/-- The node takes over a staged snapshot. -/
def adopt (s : NodeState) (c : MemCatalog) : NodeState :=
  (s.rebase c).update RaftNode.refreshMembership

/-- The catalog takes a committed entry. -/
def applied (s : NodeState) (e : Entry) (c : MemCatalog) : NodeState :=
  (s.update fun n => { n with catalog := c }).emit (.applied e)

end NodeState

/-! ### Messages and the actions they allow -/

/-- The term the leader has at index `i`, as far as an `AppendEntries` message shows it. -/
def leaderTerm (prev prevTerm : Nat) (entries : List Entry) (i : Nat) : Option Nat :=
  if i < prev then none
  else if i = prev then some prevTerm
  else (entries[i - prev - 1]?).map Entry.term

/-- The node's log meets the message's at index `i`, or `i` is covered by its snapshot. -/
def Linked (n : RaftNode) (prev prevTerm : Nat) (entries : List Entry) (i : Nat) : Prop :=
  i ≤ n.snapshotIndex ∨ ∃ t, n.termAt i = some t ∧ leaderTerm prev prevTerm entries i = some t

/-- No quorum but the node itself is needed. -/
def RaftNode.Solo (n : RaftNode) : Prop := n.membership.hasQuorum {n.cfg.id} = true

/-- A configuration a leader may append: it follows the current one, and both the current one and an
entry of this term are committed. -/
def RaftNode.MayChange (n : RaftNode) (m : Membership) : Prop :=
  n.membership.Follows m ∧ n.termAt n.commitIndex = some n.hard.term ∧
    n.configIndex.any (n.commitIndex < ·) = false

/-- The next chunk of a transfer to `peer`: the first, the one in flight again, or the one after. -/
inductive RaftNode.NextChunk (n : RaftNode) (peer : NodeId) : Outgoing MemTable MemEntries → Prop
  | start : NextChunk n peer (Outgoing.start n.catalog n.ticks)
  | again {o} (now : Nat) (h : n.outgoing[peer]? = some o) : NextChunk n peer { o with sentAt := now }
  | next {o o'} (now : Nat) (h : n.outgoing[peer]? = some o) (hadv : o.advance now () = .ok o' ()) :
      NextChunk n peer o'

/-- Messages a node may send as its state is. -/
inductive RaftNode.Sends (n : RaftNode) : NodeId → Nat → Message → Prop
  | preVote (dest epoch term li lt) : Sends n dest epoch (.preVote term li lt)
  | preVoteResponse (dest epoch term granted) : Sends n dest epoch (.preVoteResponse term granted)
  | requestVote (dest) (h : n.role = .candidate) :
      Sends n dest n.epoch (.requestVote n.hard.term n.lastIndex n.lastTerm)
  | voteRefused (dest epoch term) : Sends n dest epoch (.requestVoteResponse term false)
  | append (dest prev count) (h : n.led = some n.hard.term) (hprev : n.snapshotIndex ≤ prev)
      (hlast : prev ≤ n.lastIndex) :
      Sends n dest n.epoch (.appendEntries n.hard.term prev ((n.termAt prev).getD 0)
        ((n.log.drop (prev - n.snapshotIndex)).take count) n.commitIndex n.readSeq)
  | snapshotResponse (dest epoch ack) :
      Sends n dest epoch (.installSnapshotResponse n.hard.term n.commitIndex ack)
  | readIndex (dest id) (h : id < n.nextReadId) :
      Sends n dest n.epoch (.readIndex n.hard.term id)
  | readRefused (dest epoch id) : Sends n dest epoch (.readIndexResponse n.hard.term id none)

/-- The answer to an `AppendEntries` message: refused, or accepted up to index `i`. -/
inductive RaftNode.Answers (n : RaftNode) : Message → Message → Prop
  | refuse {term prev prevTerm entries lc rs} (m : Nat) (h : term ≤ n.hard.term) :
      Answers n (.appendEntries term prev prevTerm entries lc rs)
        (.appendEntriesResponse n.hard.term false m rs)
  | accept {prev prevTerm entries lc rs} (i : Nat) (hrole : n.role = .follower)
      (h : Linked n prev prevTerm entries i) :
      Answers n (.appendEntries n.hard.term prev prevTerm entries lc rs)
        (.appendEntriesResponse n.hard.term true i rs)

/-- What a released message tells the leader of its term about `peer`'s log. -/
inductive RaftNode.Tells (n : RaftNode) (peer : NodeId) : Message → Nat → Prop
  | ack (m rs) : Tells n peer (.appendEntriesResponse n.hard.term true m rs) m
  | installed (m ack) :
      Tells n peer (.installSnapshotResponse n.hard.term m ack) (min m n.lastIndex)

/-- Where a read barrier comes from: this node, or a message. -/
inductive RaftNode.Asked (n : RaftNode) (soup : Envelope → Prop) :
    Option NodeId → Nat → Nat → Prop
  | own (id) (h : id + 1 = n.nextReadId) : Asked n soup none id n.epoch
  | other (env id) (h : soup env) (hdest : env.dest = n.cfg.id)
      (hmsg : env.msg = .readIndex n.hard.term id) : Asked n soup (some env.sender) id env.epoch

/-- What a node meets: messages, entries it accepts when asked for, commands rejected halfway. -/
structure Setting where
  soup : Envelope → Prop
  accepts : Entry → Prop
  halfway : Prop

/-- Nothing is ruled out. -/
def Setting.any (soup : Envelope → Prop) : Setting := ⟨soup, fun _ => True, True⟩

/-- Entries a node creates: those that start a term, configurations, and what it was asked for. -/
def Setting.Checked (w : Setting) (e : Entry) : Prop :=
  e.command = .noop ∨ (Consensus.LogEntry.config e).isSome ∨ w.accepts e

/-- One action of a node. -/
inductive Action (w : Setting) : NodeState → NodeState → Prop
  | quiet {s} (f : RaftNode → RaftNode) (h : (f s.node).core = s.node.core) :
      Action w s (s.update f)
  | refresh {s} : Action w s (s.update RaftNode.refreshMembership)
  | flush {s} (h : s.disk.pending ≠ []) : Action w s s.flush
  -- roles
  | prepare {s} (v : BTreeSet NodeId) (f : RaftNode → RaftNode) (hrole : s.node.role ≠ .leader)
      (h : (f s.node).core = { s.node.core with role := .preCandidate, votes := v }) :
      Action w s (s.update f)
  | campaign {s} (hrole : s.node.role = .preCandidate) : Action w s s.campaigning
  | ballot {s} (env : Envelope) (hrole : s.node.role = .candidate) (henv : w.soup env)
      (hdest : env.dest = s.node.cfg.id)
      (hmsg : env.msg = .requestVoteResponse s.node.hard.term true) :
      Action w s (s.update fun n => { n with votes := n.votes.insert env.sender })
  | elect {s} (hrole : s.node.role = .candidate)
      (h : s.node.membership.hasQuorum s.node.votes = true) : Action w s s.leading
  | follow {s} (term : Nat) (leader : Option NodeId) (hterm : s.node.hard.term ≤ term)
      (h : s.disk.pending = []) : Action w s (s.followed term leader)
  | vote {s} (env : Envelope) {li lt : Nat} (henv : w.soup env) (hdest : env.dest = s.node.cfg.id)
      (hmsg : env.msg = .requestVote s.node.hard.term li lt)
      (hfree : s.node.hard.votedFor.all (· = env.sender) = true)
      (hlog : s.node.logUpToDate li lt = true) : Action w s (s.vote env)
  -- the leader's log
  | speculate {s} (c : MemCatalog) (h : c = s.node.speculative ∨ w.halfway) :
      Action w s (s.withSpec (some c))
  | create {s} (command : MetaCommand) (spec : Option MemCatalog) (hrole : s.node.role = .leader)
      (hcfg : ∀ m a, command = .changeMembership m a → s.node.MayChange m)
      (hspec : ∀ c, spec = some c → ∃ gc, s.node.speculative.apply s.node.hard.term
        (s.node.lastIndex + 1) command = (.ok gc, c))
      (hnew : w.Checked (s.nextEntry command)) : Action w s ((s.withSpec spec).create command)
  | matched {s} (env : Envelope) {m k : Nat} (hrole : s.node.role = .leader) (henv : w.soup env)
      (hdest : env.dest = s.node.cfg.id) (htell : s.node.Tells env.sender env.msg m)
      (hk : k = max ((s.node.matchIndex[env.sender]?).getD 0) m) (f : RaftNode → RaftNode)
      (h : (f s.node).core =
        { s.node.core with matchIndex := s.node.matchIndex.insert env.sender k }) :
      Action w s (s.update f)
  | commit {s} (i : Nat) (hrole : s.node.role = .leader) (hlt : s.node.commitIndex < i)
      (hle : i ≤ s.node.lastIndex) (hterm : s.node.termAt i = some s.node.hard.term)
      (hquorum : s.node.membership.hasQuorum (RaftM.acksFor s.node i) = true)
      (hsolo : s.node.Solo → s.disk.pending = []) :
      Action w s (s.update fun n => { n with commitIndex := i })
  -- a follower's log
  | takeNew {s} (env : Envelope) {prev prevTerm lc rs : Nat} {a b : List Entry} {e : Entry}
      (henv : w.soup env) (hrole : s.node.role = .follower)
      (hmsg : env.msg = .appendEntries s.node.hard.term prev prevTerm (a ++ e :: b) lc rs)
      (hlink : Linked s.node prev prevTerm (a ++ e :: b) (prev + a.length))
      (hlo : s.node.snapshotIndex ≤ prev + a.length) (hidx : e.index = prev + a.length + 1)
      (hterm : s.node.termAt e.index = none) :
      Action w s ((s.push e).update RaftNode.refreshMembership)
  | takeOver {s} (env : Envelope) {prev prevTerm lc rs t : Nat} {a b : List Entry} {e : Entry}
      (henv : w.soup env) (hrole : s.node.role = .follower)
      (hmsg : env.msg = .appendEntries s.node.hard.term prev prevTerm (a ++ e :: b) lc rs)
      (hlink : Linked s.node prev prevTerm (a ++ e :: b) (prev + a.length))
      (hlo : s.node.snapshotIndex ≤ prev + a.length) (hidx : e.index = prev + a.length + 1)
      (hterm : s.node.termAt e.index = some t) (hne : t ≠ e.term)
      (hcommit : s.node.commitIndex < e.index) :
      Action w s (((s.cut (e.index - 1)).push e).update RaftNode.refreshMembership)
  | learn {s} (env : Envelope) {prev prevTerm lc rs i c : Nat} {entries : List Entry}
      (henv : w.soup env) (hrole : s.node.role = .follower)
      (hmsg : env.msg = .appendEntries s.node.hard.term prev prevTerm entries lc rs)
      (hlink : Linked s.node prev prevTerm entries i)
      (hc : c = max (min lc i) s.node.commitIndex) :
      Action w s (s.update fun n => { n with commitIndex := c })
  -- the catalog
  | apply {s} (e : Entry) (out : Outcome) (c : MemCatalog)
      (hlt : s.node.catalog.appliedIndex < s.node.commitIndex)
      (he : s.node.entry (s.node.catalog.appliedIndex + 1) = some e)
      (happ : s.node.catalog.applyCommitted e.term e.index e.command = (out, c))
      (hout : (∃ gc, out = .ok gc) ∨ ∃ err, out = .err err) : Action w s (s.applied e c)
  | checkpoint {s} : Action w s (s.emit (.checkpoint s.node.catalog))
  | compact {s} (i t : Nat) (c : MemCatalog) (hlo : s.node.snapshotIndex ≤ i)
      (hstore : s.disk.store = some c) (hi : i ≤ c.appliedIndex)
      (hterm : s.node.termAt i = some t) : Action w s (s.compact i t)
  -- snapshot transfers
  | stage {s} (env : Envelope) {index seq : Nat} {chunk : Chunk} (inc : Incoming MemTable)
      (henv : w.soup env) (hmsg : env.msg = .installSnapshot s.node.hard.term index seq chunk)
      (h : (∃ c, chunk = .header c ∧ seq = 0 ∧ inc = ⟨index, 0, c⟩) ∨
        ∃ inc' c, s.node.incoming = some inc' ∧ inc'.index = index ∧ seq = inc'.seq + 1 ∧
          inc'.catalog.stage chunk = .ok c ∧ inc = ⟨index, seq, c⟩) :
      Action w s (s.update fun n => { n with incoming := some inc })
  | unstage {s} : Action w s (s.update fun n => { n with incoming := none })
  | install {s} (env : Envelope) {seq : Nat} (inc : Incoming MemTable) (henv : w.soup env)
      (hmsg : env.msg = .installSnapshot s.node.hard.term inc.index seq .done)
      (hrole : s.node.role = .follower) (hinc : s.node.incoming = some inc)
      (hseq : seq = inc.seq + 1) (hnew : s.node.commitIndex < inc.index) :
      Action w s (s.adopt inc.catalog)
  | transfer {s} (peer : NodeId) (o : Outgoing MemTable MemEntries)
      (h : s.node.NextChunk peer o) : Action w s (s.update (·.sendChunk peer o))
  | endTransfer {s} (peer : NodeId) :
      Action w s (s.update fun n => { n with outgoing := n.outgoing.erase peer })
  -- messages
  | send {s} (dest : NodeId) (epoch : Nat) (msg : Message) (h : s.node.Sends dest epoch msg) :
      Action w s (s.update (·.reply dest epoch msg))
  | answer {s} (env : Envelope) (msg : Message) (henv : w.soup env) (hdest : env.dest = s.node.cfg.id)
      (h : s.node.Answers env.msg msg) : Action w s (s.update (·.reply env.sender env.epoch msg))
  -- read barriers
  | newRead {s} : Action w s (s.update fun n => { n with nextReadId := n.nextReadId + 1 })
  | register {s} (sender : Option NodeId) (id epoch : Nat) (hrole : s.node.role = .leader)
      (hterm : s.node.termAt s.node.commitIndex = some s.node.hard.term)
      (hasked : s.node.Asked w.soup sender id epoch) :
      Action w s (s.update fun n => { n with
        readSeq := n.readSeq + 1
        pendingReads := n.pendingReads ++
          [⟨n.readSeq + 1, n.commitIndex, sender, id, {n.cfg.id}, epoch⟩] })
  | confirm {s} (sender : Option NodeId) (seq : Nat) (hrole : s.node.role = .leader)
      (h : sender = none ∨ ∃ env success m, w.soup env ∧ env.dest = s.node.cfg.id ∧
        sender = some env.sender ∧ 0 < seq ∧
        env.msg = .appendEntriesResponse s.node.hard.term success m seq) :
      Action w s (s.update (·.confirmReads sender seq))
  | result {s} (env : Envelope) (term id : Nat) (index : Option Nat) (henv : w.soup env)
      (hdest : env.dest = s.node.cfg.id) (hmsg : env.msg = .readIndexResponse term id index) :
      Action w s (s.update fun n => { n with readResults := n.readResults.insert id index })
  | forget {s} (id : Nat) (keep : PendingRead → Bool) :
      Action w s (s.update fun n => { n with
        readResults := n.readResults.erase id
        pendingReads := n.pendingReads.filter keep })

/-- Actions one after another. -/
def Path (w : Setting) : NodeState → NodeState → Prop := ReflTransGen (Action w)

end AtlasNative
