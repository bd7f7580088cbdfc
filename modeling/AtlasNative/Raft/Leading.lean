import AtlasNative.Raft.Local

/-!
# Running a node's code action by action

`Runs w x s Q E` says that running `x` from `s` takes actions only, ends with `Q` if it
succeeds, and with `E` if it refuses. If it fails in any other way, only the disk it leaves is still
a state between actions.

The rules follow the program text. The functions that keep the log, send entries and apply them come
first, then elections and the leader; followers and the calls are in the next module.
-/

namespace AtlasNative

open RaftM RaftNode NodeState AtlasNative.Action

open Relation (ReflTransGen)

variable {w : Setting} {α β : Type} {s s' : NodeState}

/-- Running `x` from `s` inside an action that started at `s₀`. -/
def RunsInside (w : Setting) (s₀ : NodeState) (x : RaftM α) (s : NodeState)
    (Q : α → NodeState → Prop) (E : NodeState → Prop) : Prop :=
  Wf s₀ → match x s with
    | .ok a s' => Path w s₀ s' ∧ Q a s'
    | .error e s' => ∃ t, Path w s₀ t ∧ t.disk = s'.disk ∧ t.trace = s'.trace ∧
        (e.refusal = true → t = s' ∧ E s')

def Runs (w : Setting) (x : RaftM α) (s : NodeState) (Q : α → NodeState → Prop)
    (E : NodeState → Prop) : Prop := RunsInside w s x s Q E

theorem Path.refl : Path w s s := ReflTransGen.refl

variable {t : NodeState}

theorem Path.trans (h : Path w s s') (h' : Path w s' t) : Path w s t := ReflTransGen.trans h h'

theorem Action.path (h : Action w s s') : Path w s s' := ReflTransGen.single h

/-- What never changes about a running node. -/
def RaftNode.identity (n : RaftNode) : NodeId × Membership × Nat := (n.cfg.id, n.initial, n.epoch)

theorem RaftNode.refreshMembership_identity (n : RaftNode) : n.refreshMembership.identity = n.identity := by
  obtain ⟨_, _, h, -⟩ := n.refreshMembership_eq
  rw [h]
  rfl

theorem Action.identity (h : Action w s s') : s'.node.identity = s.node.identity := by
  have hcore : ∀ {n n' : RaftNode}, n'.core.id = n.cfg.id → n'.core.initial = n.initial →
      n'.core.epoch = n.epoch → n'.identity = n.identity := fun h h' h'' =>
    Prod.ext h (Prod.ext h' h'')
  cases h with
  | quiet f h | prepare v f _ h
  | matched _ _ _ _ _ _ f h => exact hcore (congrArg _ h) (congrArg _ h) (congrArg _ h)
  | refresh => exact s.node.refreshMembership_identity
  | follow term leader =>
    obtain ⟨_, _, h, -⟩ := s.followed_node term leader
    rw [h]
    rfl
  | create command spec =>
    obtain ⟨_, _, h, -⟩ := (s.withSpec spec).create_node command
    rw [h]
    rfl
  | confirm sender seq =>
    obtain ⟨_, _, _, h, -⟩ := s.node.confirmReads_eq sender seq
    simp only [update, h]
    rfl
  | takeNew | takeOver => exact (refreshMembership_identity _).trans rfl
  | install env inc =>
    refine (refreshMembership_identity _).trans ?_
    show (((s.swapStore inc.catalog).trimLog inc.catalog).node).identity = _
    unfold trimLog
    split <;> rfl
  | _ => rfl

theorem Path.identity (h : Path w s s') : s'.node.identity = s.node.identity := by
  induction h with
  | refl => rfl
  | tail _ h ih => exact h.identity.trans ih

theorem Path.id_eq (h : Path w s s') : s'.node.cfg.id = s.node.cfg.id := congrArg Prod.fst h.identity

variable {a : α}

theorem RaftM.bind_ok {x : RaftM α} {f : α → RaftM β} (h : x s = .ok a s') : (x >>= f) s = f a s' := by
  show EStateM.bind x f s = _
  rw [EStateM.bind, h]

variable {e : RaftError}

theorem RaftM.bind_error {x : RaftM α} {f : α → RaftM β} (h : x s = .error e s') : (x >>= f) s = .error e s' := by
  show EStateM.bind x f s = _
  rw [EStateM.bind, h]

namespace Runs

variable {x : RaftM α} {f : α → RaftM β} {Q : α → NodeState → Prop} {R : β → NodeState → Prop}
  {E : NodeState → Prop}

theorem bind (h : Runs w x s (fun a s' => Runs w (f a) s' R E) E) : Runs w (x >>= f) s R E := by
  intro hwf
  have hx := h hwf
  cases hxs : x s with
  | error e s' =>
    rw [bind_error hxs]
    rwa [hxs] at hx
  | ok a s' =>
    rw [hxs] at hx
    rw [bind_ok hxs]
    obtain ⟨hp, hf⟩ := hx
    have hfs := hf (hp.wf hwf)
    cases hr : f a s' with
    | ok b t =>
      rw [hr] at hfs
      exact ⟨hp.trans hfs.1, hfs.2⟩
    | error e t =>
      rw [hr] at hfs
      obtain ⟨u, hu, h⟩ := hfs
      exact ⟨u, hp.trans hu, h⟩

theorem of_wf (h : Wf s → Runs w x s Q E) : Runs w x s Q E := fun hwf => h hwf hwf

theorem ok (hx : x s = .ok a s') (hp : Path w s s') (hq : Q a s') : Runs w x s Q E := by
  intro _
  rw [hx]
  exact ⟨hp, hq⟩

theorem pure (h : Q a s) : Runs w (Pure.pure a) s Q E := ok rfl Path.refl h

theorem throw (h : e.refusal = true → E s) : Runs w (MonadExcept.throw e : RaftM α) s Q E :=
  fun _ => ⟨s, Path.refl, rfl, rfl, fun he => ⟨rfl, h he⟩⟩

theorem node {Q : RaftNode → NodeState → Prop} (h : Q s.node s) : Runs w node s Q E := ok rfl Path.refl h

theorem modify {g : RaftNode → RaftNode} {Q : Unit → NodeState → Prop}
    (hp : Path w s (s.update g)) (h : Q () (s.update g)) : Runs w (modifyNode g) s Q E :=
  ok rfl hp h

theorem quiet {g : RaftNode → RaftNode} {Q : Unit → NodeState → Prop}
    (hg : (g s.node).core = s.node.core) (h : Q () (s.update g)) :
    Runs w (modifyNode g) s Q E := modify (Action.quiet g hg).path h

theorem mono {Q' : α → NodeState → Prop} (h : Runs w x s Q E) (hq : ∀ a t, Q a t → Q' a t) : Runs w x s Q' E := by
  intro hwf
  have hx := h hwf
  cases hxs : x s with
  | ok a t =>
    rw [hxs] at hx
    exact ⟨hx.1, hq a t hx.2⟩
  | error e t => rwa [hxs] at hx

theorem id_eq (h : Runs w x s Q E) : Runs w x s (fun a s' => s'.node.cfg.id = s.node.cfg.id ∧ Q a s') E := by
  intro hwf
  have hx := h hwf
  cases hxs : x s with
  | ok a t =>
    rw [hxs] at hx
    exact ⟨hx.1, hx.1.id_eq, hx.2⟩
  | error e t => rwa [hxs] at hx

end Runs

namespace RunsInside

variable {s₀ : NodeState} {x : RaftM α} {f : α → RaftM β} {Q : α → NodeState → Prop}
  {R : β → NodeState → Prop} {E : NodeState → Prop}

theorem step (hx : x s = .ok a s') (h : RunsInside w s₀ (f a) s' R E) : RunsInside w s₀ (x >>= f) s R E := by
  intro hwf
  rw [bind_ok hx]
  exact h hwf

theorem ok (hx : x s = .ok a s') (hp : Path w s₀ s') (hq : Q a s') : RunsInside w s₀ x s Q E := by
  intro _
  rw [hx]
  exact ⟨hp, hq⟩

theorem done (hp : Path w s₀ s) (h : Runs w x s Q E) : RunsInside w s₀ x s Q E := by
  intro hwf
  have hx := h (hp.wf hwf)
  cases hxs : x s with
  | ok a t =>
    rw [hxs] at hx
    exact ⟨hp.trans hx.1, hx.2⟩
  | error e t =>
    rw [hxs] at hx
    obtain ⟨u, hu, h⟩ := hx
    exact ⟨u, hp.trans hu, h⟩

end RunsInside

/-! ### The log on disk -/

namespace NodeState

/-- Unsynced records, if any, reach the disk. -/
def synced (s : NodeState) : NodeState := if s.disk.pending = [] then s else s.flush

theorem synced_pending (s : NodeState) : s.synced.disk.pending = [] := by
  unfold synced
  split
  · assumption
  · rfl

theorem synced_node (s : NodeState) : ∃ w, s.synced.node = { s.node with wal := w } := by
  unfold synced
  split
  · exact ⟨s.node.wal, rfl⟩
  · exact ⟨_, rfl⟩

theorem synced_path (s : NodeState) : Path w s s.synced := by
  unfold synced
  split
  · exact Path.refl
  · rename_i h
    exact (Action.flush h).path

end NodeState

theorem Wf.pending_iff (h : Wf s) : s.node.wal.syncedIndex < s.node.wal.lastIndex ↔ s.disk.pending ≠ [] := by
  have := h.synced
  rw [← List.length_pos_iff]
  omega

theorem walSync_eq (h : Wf s) : walSync s = .ok () s.synced := by
  unfold walSync synced
  by_cases hp : s.disk.pending = []
  · have hlt : ¬ s.node.wal.syncedIndex < s.node.wal.lastIndex := by
      rw [h.pending_iff]
      exact not_not.mpr hp
    rw [if_pos hp]
    show (if s.node.wal.syncedIndex < s.node.wal.lastIndex then _ else _ : RaftM Unit) s = _
    rw [if_neg hlt]
    rfl
  · rw [if_neg hp]
    show (if s.node.wal.syncedIndex < s.node.wal.lastIndex then _ else _ : RaftM Unit) s = _
    rw [if_pos (h.pending_iff.mpr hp)]
    rfl

theorem runs_walSync {Q : Unit → NodeState → Prop} {E : NodeState → Prop} (h : Q () s.synced) :
    Runs w walSync s Q E :=
  .of_wf fun hwf => .ok (walSync_eq hwf) s.synced_path h

/-! ### Sending -/

/-- Two nodes that differ in what they have sent. -/
def Sent (n n' : RaftNode) : Prop :=
  ∃ out next og, n' = { n with outbox := out, nextIndex := next, outgoing := og }

theorem Sent.refl (n : RaftNode) : Sent n n := ⟨_, _, _, rfl⟩

theorem Sent.trans {a b c : RaftNode} (h : Sent a b) (h' : Sent b c) : Sent a c := by
  obtain ⟨_, _, _, rfl⟩ := h
  obtain ⟨_, _, _, rfl⟩ := h'
  exact ⟨_, _, _, rfl⟩

theorem path_sendAppend (w : Setting) (hled : s.node.led = some s.node.hard.term) (peer : NodeId) :
    Path w s (s.update (·.sendAppend peer)) ∧ Sent s.node (s.node.sendAppend peer) := by
  rw [show s.update (·.sendAppend peer) = { s with node := s.node.sendAppend peer } from rfl]
  unfold sendAppend
  dsimp only
  split
  · split
    · rename_i o ho
      split
      · exact ⟨Path.refl, Sent.refl _⟩
      · exact ⟨(transfer peer _ (.again _ ho)).path, ⟨_, _, _, rfl⟩⟩
    · exact ⟨(transfer peer _ .start).path, ⟨_, _, _, rfl⟩⟩
  · rename_i hprev
    -- the index moves first, then the entries are sent
    generalize hnext : min ((s.node.nextIndex[peer]?).getD (s.node.lastIndex + 1))
      (s.node.lastIndex + 1) = next at hprev ⊢
    have hentries : s.node.log.drop (next - s.node.snapshotIndex - 1) =
        s.node.log.drop (next - 1 - s.node.snapshotIndex) := by
      rw [Nat.sub_right_comm]
    rw [hentries]
    have hsend : ∀ idx : BTreeMap NodeId Nat, Path w s (s.update fun n =>
        { n with nextIndex := idx }.send peer (.appendEntries s.node.hard.term (next - 1)
          ((s.node.termAt (next - 1)).getD 0)
          ((s.node.log.drop (next - 1 - s.node.snapshotIndex)).take s.node.cfg.maxBatch)
          s.node.commitIndex s.node.readSeq)) := by
      intro idx
      have hquiet : Action w s (s.update fun n => { n with nextIndex := idx }) := .quiet _ rfl
      refine hquiet.path.trans (send (s := s.update fun n => { n with nextIndex := idx })
        peer s.node.epoch _ (.append peer (next - 1) s.node.cfg.maxBatch hled ?_ ?_)).path
      · exact Nat.le_of_not_lt hprev
      · show next - 1 ≤ s.node.lastIndex
        omega
    split
    · exact ⟨hsend _, ⟨_, _, _, rfl⟩⟩
    · exact ⟨hsend s.node.nextIndex, ⟨_, _, _, rfl⟩⟩

theorem path_broadcastAppend (w : Setting) (hled : s.node.led = some s.node.hard.term) :
    Path w s (s.update broadcastAppend) ∧ Sent s.node s.node.broadcastAppend := by
  suffices h : ∀ (ps : List NodeId) (s : NodeState), s.node.led = some s.node.hard.term →
      Path w s (s.update (ps.foldl sendAppend ·)) ∧
        Sent s.node (ps.foldl sendAppend s.node) from h s.node.peers s hled
  intro ps
  induction ps with
  | nil => exact fun s _ => ⟨Path.refl, Sent.refl _⟩
  | cons p ps ih =>
    intro s hled
    obtain ⟨hp, hsent⟩ := path_sendAppend w hled p
    have hled' : (s.update (·.sendAppend p)).node.led = some (s.update (·.sendAppend p)).node.hard.term := by
      obtain ⟨_, _, _, h⟩ := hsent
      simp only [update, h]
      exact hled
    obtain ⟨hp', hsent'⟩ := ih (s.update (·.sendAppend p)) hled'
    exact ⟨hp.trans hp', hsent.trans hsent'⟩

/-! ### Applying and compacting -/

/-- From `s` to `s'` entries were applied and perhaps compacted. -/
structure Settles (s s' : NodeState) : Prop where
  node : ∃ cat log si st w, s'.node =
    { s.node with catalog := cat, log := log, snapshotIndex := si, snapshotTerm := st, wal := w }
  snapshot : s.node.snapshotIndex ≤ s'.node.snapshotIndex
  last : s'.node.snapshotIndex + s'.node.log.length = s.node.snapshotIndex + s.node.log.length
  termAt : ∀ i, s'.node.snapshotIndex ≤ i → s'.node.termAt i = s.node.termAt i
  pending : s.disk.pending = [] → s'.disk.pending = []

namespace Settles

theorem refl (s : NodeState) : Settles s s := ⟨⟨_, _, _, _, _, rfl⟩, le_rfl, rfl, fun _ _ => rfl, id⟩

theorem trans (h : Settles s s') (h' : Settles s' t) : Settles s t where
  node := by
    obtain ⟨_, _, _, _, _, h⟩ := h.node
    obtain ⟨_, _, _, _, _, h'⟩ := h'.node
    exact ⟨_, _, _, _, _, by rw [h', h]⟩
  snapshot := h.snapshot.trans h'.snapshot
  last := h'.last.trans h.last
  termAt i hi := (h'.termAt i hi).trans (h.termAt i (h'.snapshot.trans hi))
  pending hp := h'.pending (h.pending hp)

theorem applied (e : Entry) (c : MemCatalog) : Settles s (s.applied e c) :=
  ⟨⟨_, _, _, _, _, rfl⟩, le_rfl, rfl, fun _ _ => rfl, id⟩

theorem checkpoint (c : MemCatalog) : Settles s (s.emit (.checkpoint c)) :=
  ⟨⟨_, _, _, _, _, rfl⟩, le_rfl, rfl, fun _ _ => rfl, id⟩

theorem compact {i t : Nat} (ht : s.node.termAt i = some t) : Settles s (s.compact i t) := by
  obtain ⟨hlo, hhi⟩ := termAt_bounds ht
  refine ⟨⟨_, _, _, _, _, rfl⟩, hlo, ?_, ?_, fun _ => rfl⟩
  · simp only [NodeState.compact, NodeState.emit, NodeState.update, List.length_drop]
    omega
  · intro j hj
    have hj : i ≤ j := hj
    rcases eq_or_lt_of_le hj with rfl | hlt
    · rw [ht]
      exact termAt_snapshot
    · rw [termAt_of_lt (n := (s.compact i t).node) hlt, termAt_of_lt (n := s.node) (by omega)]
      simp only [NodeState.compact, NodeState.emit, NodeState.update, List.getElem?_drop]
      congr 2
      omega

end Settles

variable {E : NodeState → Prop}

theorem runs_maybeCompact : Runs w maybeCompact s (fun _ s' => Settles s s') E := by
  refine .bind (.node ?_)
  dsimp only
  split
  · exact .pure (.refl s)
  · split
    · exact .throw (by simp [RaftError.refusal])
    · rename_i hkeep _ t ht
      obtain ⟨hlo, hhi⟩ := termAt_bounds ht
      have ht' : (s.emit (.checkpoint s.node.catalog)).node.termAt
          (s.node.catalog.appliedIndex - s.node.cfg.compactAfter) = some t := ht
      refine .ok rfl ((checkpoint (s := s)).path.trans (compact
        (s := s.emit (.checkpoint s.node.catalog)) _ t s.node.catalog hlo rfl
        (Nat.sub_le _ _) ht').path) ?_
      exact (Settles.checkpoint _).trans (Settles.compact ht')

theorem runs_applyEntry {e : Entry} (hlt : s.node.catalog.appliedIndex < s.node.commitIndex)
    (he : s.node.entry (s.node.catalog.appliedIndex + 1) = some e) :
    Runs w (applyEntry e) s (fun _ s' => Settles s s' ∧
      s'.node.catalog.appliedIndex = s.node.catalog.appliedIndex + 1) E := by
  refine .of_wf fun hwf => ?_
  refine .bind (.node ?_)
  split
  · exact .throw (by simp [RaftError.refusal])
  · exact .throw (by simp [RaftError.refusal])
  · rename_i out c hpanic hhang happ
    have hout : (∃ gc, out = .ok gc) ∨ ∃ err, out = .err err := by
      cases out with
      | ok gc => exact .inl ⟨gc, rfl⟩
      | err err => exact .inr ⟨err, rfl⟩
      | panic msg => exact absurd rfl (hpanic msg)
      | hang => exact absurd rfl hhang
    have hidx := entry_index hwf.contiguous he
    have hc := (MemCatalog.applyCommitted_stamp (by omega) happ hout).1
    refine .ok rfl (apply e out c hlt he happ hout).path ⟨Settles.applied e c, ?_⟩
    show c.appliedIndex = _
    omega

theorem runs_applyNext (k : Nat) (hk : s.node.catalog.appliedIndex + k ≤ s.node.commitIndex) :
    Runs w (applyNext k) s (fun _ s' => Settles s s') E := by
  induction k generalizing s with
  | zero => exact .pure (.refl s)
  | succ k ih =>
    refine .bind (.node ?_)
    dsimp only
    split
    · exact .throw (by simp [RaftError.refusal])
    · rename_i e he
      refine .bind ((runs_applyEntry (by omega) he).mono ?_)
      rintro _ t ⟨hst, happ⟩
      have hcommit : t.node.commitIndex = s.node.commitIndex := by
        obtain ⟨_, _, _, _, _, h⟩ := hst.node
        rw [h]
      exact (ih (by omega)).mono fun _ u hu => hst.trans hu

theorem runs_applyCommitted : Runs w applyCommitted s (fun _ s' => Settles s s') E := by
  refine .of_wf fun hwf => ?_
  have := hwf.applied
  refine .bind (.node (.bind ((runs_applyNext _ (by omega)).mono fun _ t hst => ?_)))
  refine .bind (.node ?_)
  split
  · exact runs_maybeCompact.mono fun _ u hu => hst.trans hu
  · exact .pure hst

/-!
## Elections and the leader's log, action by action

One lemma for each function: it takes actions only. A leader that is its own quorum ends every call
with its log synced (`Boundary`).
-/

open Bool Consensus.LogEntry

variable {E : NodeState → Prop}

/-- What holds of a node between calls, besides what holds between actions. -/
def Boundary (s : NodeState) : Prop :=
  s.node.role = .leader → s.node.Solo → s.disk.pending = []

/-- A call that ends like that, also where it refuses. -/
abbrev Whole {α : Type} (w : Setting) (x : RaftM α) (s : NodeState) : Prop :=
  Runs w x s (fun _ s' => Boundary s') Boundary

/-- The node was elected in its current term. -/
def Leads (s : NodeState) : Prop := s.node.led = some s.node.hard.term

theorem Boundary.of_ne (h : s.node.role ≠ .leader) : Boundary s := fun hl => absurd hl h

theorem Boundary.of_eq (h : Boundary s) (hr : s'.node.role = s.node.role)
    (hm : s'.node.membership = s.node.membership) (hc : s'.node.cfg = s.node.cfg)
    (hp : s.disk.pending = [] → s'.disk.pending = []) : Boundary s' := by
  unfold Boundary RaftNode.Solo
  rw [hr, hm, hc]
  exact fun hl hs => hp (h hl hs)

theorem Boundary.sent (h : Boundary s) {f : RaftNode → RaftNode} (hs : Sent s.node (f s.node)) :
    Boundary (s.update f) := by
  obtain ⟨_, _, _, hf⟩ := hs
  exact h.of_eq (by simp [NodeState.update, hf]) (by simp [NodeState.update, hf]) (by simp [NodeState.update, hf]) id

theorem Leads.sent (h : Leads s) {f : RaftNode → RaftNode} (hs : Sent s.node (f s.node)) : Leads (s.update f) := by
  obtain ⟨_, _, _, hf⟩ := hs
  simp only [NodeState.update, hf]
  exact h

theorem Sent.lastIndex {n n' : RaftNode} (h : Sent n n') : n'.lastIndex = n.lastIndex := by
  obtain ⟨_, _, _, rfl⟩ := h
  rfl

theorem Sent.membership {n n' : RaftNode} (h : Sent n n') : n'.membership = n.membership := by
  obtain ⟨_, _, _, rfl⟩ := h
  rfl

theorem Sent.term_commit {n n' : RaftNode} (h : Sent n n') (ht : n.termAt n.commitIndex = some n.hard.term) :
    n'.termAt n'.commitIndex = some n'.hard.term := by
  obtain ⟨_, _, _, rfl⟩ := h
  exact ht

theorem Settles.term_commit (h : Settles s s') (hwf : Wf s')
    (ht : s.node.termAt s.node.commitIndex = some s.node.hard.term) :
    s'.node.termAt s'.node.commitIndex = some s'.node.hard.term := by
  rw [h.termAt _ hwf.snapshot]
  obtain ⟨_, _, _, _, _, hn⟩ := h.node
  rw [hn]
  exact ht

theorem Settles.boundary (h : Settles s s') (hb : Boundary s) : Boundary s' := by
  obtain ⟨_, _, _, _, _, hn⟩ := h.node
  exact hb.of_eq (by rw [hn]) (by rw [hn]) (by rw [hn]) h.pending

theorem Settles.leads (h : Settles s s') (hl : Leads s) : Leads s' := by
  obtain ⟨_, _, _, _, _, hn⟩ := h.node
  unfold Leads
  rw [hn]
  exact hl

theorem runs_sendAppend {Q : Unit → NodeState → Prop} (hled : Leads s) (peer : NodeId)
    (h : Sent s.node (s.node.sendAppend peer) → Q () (s.update (·.sendAppend peer))) :
    Runs w (modifyNode (·.sendAppend peer)) s Q E :=
  have hp := path_sendAppend w hled peer
  .modify hp.1 (h hp.2)

theorem runs_broadcastAppend {Q : Unit → NodeState → Prop} (hled : Leads s)
    (h : Sent s.node s.node.broadcastAppend → Q () (s.update broadcastAppend)) :
    Runs w (modifyNode broadcastAppend) s Q E :=
  have hp := path_broadcastAppend w hled
  .modify hp.1 (h hp.2)

/-! ### Stepping down -/

theorem runs_becomeFollower {Q : Unit → NodeState → Prop} {term : Nat} {leader : Option NodeId}
    (hterm : s.node.hard.term ≤ term) (h : Q () (s.synced.followed term leader)) :
    Runs w (becomeFollower term leader) s Q E := by
  refine .of_wf fun hwf => ?_
  have hsync : s.synced.node.hard = s.node.hard := by
    obtain ⟨w, hw⟩ := s.synced_node
    rw [hw]
  refine .ok ?_ (s.synced_path.trans (Action.follow term leader (by rw [hsync]; exact hterm) s.synced_pending).path) h
  unfold becomeFollower
  rw [bind_ok (walSync_eq hwf), bind_ok (rfl : RaftM.node _ = .ok s.synced.node s.synced)]
  unfold NodeState.followed NodeState.raiseTerm
  split
  · rfl
  · rfl

/-- A node that follows: what it keeps. -/
structure Followed (s s' : NodeState) (term : Nat) : Prop where
  role : s'.node.role = .follower
  term : s'.node.hard.term = max s.node.hard.term term
  led : s'.node.led = s.node.led
  cfg : s'.node.cfg = s.node.cfg
  lastIndex : s'.node.lastIndex = s.node.lastIndex

theorem followed_synced (s : NodeState) (term : Nat) (leader : Option NodeId) :
    Followed s (s.synced.followed term leader) term := by
  obtain ⟨w, hw⟩ := s.synced_node
  obtain ⟨out, res, heq, -⟩ := s.synced.followed_node term leader
  constructor <;> rw [heq, hw]
  · rfl
  · rw [NodeState.raisedHard, hw]
    dsimp only
    split
    · show term = max s.node.hard.term term
      omega
    · show s.node.hard.term = max s.node.hard.term term
      omega
  all_goals rfl

/-! ### The leader's log -/

variable {gc : List ExtentId}

namespace MemCatalog

open Catalog

variable {c c' : MemCatalog} {term index : Nat} {cmd : MetaCommand}

theorem apply_stale (h : index ≤ c.appliedIndex) : c.apply term index cmd = (.ok [], c) := by
  simp only [apply, applyWith, if_pos h]

theorem applyCommitted_of_ok (h : c.apply term index cmd = (.ok gc, c')) :
    c.applyCommitted term index cmd = (.ok gc, c') := by
  simp only [apply, Prod.mk.injEq] at h
  simp only [applyCommitted, applyCommittedWith]
  split
  · rename_i hr
    rw [hr] at h
    cases h.1
  · exact Prod.ext h.1 h.2

theorem applyCommitted_stale (h : index ≤ c.appliedIndex) : c.applyCommitted term index cmd = (.ok [], c) :=
  applyCommitted_of_ok (apply_stale h)

theorem apply_ok_index (h : c.apply term index cmd = (.ok gc, c')) : index ≤ c'.appliedIndex := by
  by_cases hidx : index ≤ c.appliedIndex
  · rw [apply_stale hidx] at h
    rw [← (Prod.mk.inj h).2]
    exact hidx
  · have := applyCommitted_stamp (not_le.mp hidx) (applyCommitted_of_ok h) (.inl ⟨gc, rfl⟩)
    exact this.1.ge

/-- A membership change is rejected before it changes anything. -/
theorem apply_changeMembership_err {m : Membership} {addrs : BTreeMap String String} {e : MetaError}
    (h : c.apply term index (.changeMembership m addrs) = (.err e, c')) : c' = c := by
  by_cases hidx : index ≤ c.appliedIndex
  · rw [apply_stale hidx] at h
    cases h
  · simp only [apply, applyWith, if_neg hidx] at h
    cases hrun : CatM.runCommand term (.changeMembership m addrs) (⟨c, (), []⟩ : World MemTable Unit) with
    | ok u w =>
      rw [hrun] at h
      cases h
    | error f w =>
      obtain rfl := CatM.changeMembership_error hrun
      rw [hrun] at h
      cases f with
      | err e => cases e <;> cases h <;> rfl
      | panic | hang => cases h

end MemCatalog

open MemCatalog

/-- On `c` the command is all or nothing: if `Catalog::apply` rejects it, nothing has changed. -/
def MetaCommand.Whole (cmd : MetaCommand) (c : MemCatalog) (term index : Nat) : Prop :=
  ∀ e c', c.apply term index cmd = (.err e, c') → c' = c

instance (cmd : MetaCommand) (c : MemCatalog) (term index : Nat) : Decidable (cmd.Whole c term index) :=
  match h : c.apply term index cmd with
  | (.err e, c') => decidable_of_iff (c' = c)
      ⟨fun heq _ _ h' => (Prod.mk.inj (h.symm.trans h')).2 ▸ heq, fun hall => hall e c' h⟩
  | (.ok _, _) | (.panic _, _) | (.hang, _) => isTrue fun _ _ h' => nomatch h.symm.trans h'


namespace NodeState

/-- The state once a new entry is in the log file. -/
def written (s : NodeState) (e : Entry) : NodeState :=
  ((s.emit (.created e s.node.lastTerm)).emit (.walAppend e)).update fun n =>
    { n with wal := ⟨e.index, n.wal.syncedIndex⟩ }

end NodeState

theorem walAppend_created (hcont : Contiguous s.node.snapshotIndex s.node.log)
    (hlast : s.node.wal.lastIndex = s.node.snapshotIndex + s.node.log.length) (command : MetaCommand) :
    walAppend (s.nextEntry command) (s.emit (.created (s.nextEntry command) s.node.lastTerm)) =
      .ok () (s.written (s.nextEntry command)) := by
  have hidx := lastIndex_eq hcont
  unfold walAppend
  rw [bind_ok (rfl : RaftM.node _ = .ok s.node (s.emit (.created (s.nextEntry command) s.node.lastTerm)))]
  rw [if_neg (by show ¬ s.node.lastIndex + 1 ≤ _; omega)]
  rfl

theorem append_written (s : NodeState) (command : MetaCommand) (spec : Option MemCatalog) : (do
    modifyNode fun n => { n with log := n.log ++ [s.nextEntry command] }
    if (config (s.nextEntry command)).isSome then modifyNode refreshMembership
    return (s.nextEntry command).index : RaftM Nat) ((s.written (s.nextEntry command)).withSpec spec) =
    .ok (s.node.lastIndex + 1) ((s.withSpec spec).create command) := by
  rw [bind_ok (rfl : modifyNode _ _ = .ok () _), NodeState.create_eq]
  have hsame : (s.withSpec spec).nextEntry command = s.nextEntry command := rfl
  rw [hsame]
  by_cases hc : (config (s.nextEntry command)).isSome
  · rw [if_pos hc, if_pos hc]
    rfl
  · rw [if_neg hc, if_neg hc]
    rfl

/-- An entry the speculative catalog, if there is one, has already applied is appended. -/
theorem appendLocal_eq (hcont : Contiguous s.node.snapshotIndex s.node.log)
    (hlast : s.node.wal.lastIndex = s.node.snapshotIndex + s.node.log.length)
    (hstale : ∀ c, s.node.spec = some c → s.node.lastIndex + 1 ≤ c.appliedIndex) :
    appendLocal command s = .ok (s.node.lastIndex + 1) (s.create command) := by
  refine (bind_ok (rfl : RaftM.node s = .ok s.node s)).trans ?_
  refine (bind_ok (rfl : perform _ s = .ok () _)).trans ?_
  refine (bind_ok (walAppend_created hcont hlast command)).trans ?_
  have hpush := append_written s command s.node.spec
  cases hspec : s.node.spec with
  | none => exact hpush
  | some c =>
    have hap : c.applyCommitted s.node.hard.term (s.node.lastIndex + 1) command = (.ok [], c) :=
      applyCommitted_stale (hstale c hspec)
    dsimp only
    rw [hap]
    rw [hspec] at hpush
    refine (bind_ok (rfl : modifyNode _ _ = .ok () _)).trans (hpush.trans ?_)
    rw [← hspec]
    rfl

theorem foldlM_after (l : List Entry) (c : MemCatalog) {f : MemCatalog → Entry → RaftM MemCatalog}
    (hf : ∀ c e, f c e s = .ok (c.after e) s ∨ ∃ err, err.refusal = false ∧ f c e s = .error err s) :
    l.foldlM f c s = .ok (l.foldl after c) s ∨ ∃ err, err.refusal = false ∧ l.foldlM f c s = .error err s := by
  induction l generalizing c with
  | nil => exact .inl rfl
  | cons e l ih =>
    rw [List.foldlM_cons]
    rcases hf c e with h | ⟨err, href, h⟩
    · rw [bind_ok h]
      exact ih (c.after e)
    · exact .inr ⟨err, href, bind_error h⟩

theorem applied_or_fails (s : NodeState) (c : MemCatalog) (e : Entry) :
    (match c.applyCommitted e.term e.index e.command with
      | (.panic msg, _) => throw (.panic msg)
      | (.hang, _) => throw (.panic "the catalog never returns")
      | (_, c) => pure c : RaftM MemCatalog) s = .ok (c.after e) s ∨
    ∃ err, err.refusal = false ∧ (match c.applyCommitted e.term e.index e.command with
      | (.panic msg, _) => throw (.panic msg)
      | (.hang, _) => throw (.panic "the catalog never returns")
      | (_, c) => pure c : RaftM MemCatalog) s = .error err s := by
  rw [MemCatalog.after]
  rcases c.applyCommitted e.term e.index e.command with ⟨out, c'⟩
  cases out with
  | ok | err => exact .inl rfl
  | panic | hang => exact .inr ⟨_, rfl, rfl⟩

/-- `specMut` returns the speculative catalog, built anew if there is none. -/
theorem specMut_run (s : NodeState) : specMut s = .ok s.node.speculative (s.withSpec (some s.node.speculative)) ∨
      ∃ err, err.refusal = false ∧ specMut s = .error err s := by
  have hread : ∀ f : RaftNode → RaftM MemCatalog, (node >>= f) s = f s.node s := fun _ => rfl
  rw [specMut, hread]
  unfold speculative
  cases hspec : s.node.spec with
  | some c =>
    have hsame : s.withSpec (some c) = s := by rw [← hspec]; rfl
    exact .inl (congrArg (EStateM.Result.ok c) hsame.symm)
  | none =>
    rcases foldlM_after (s.node.log.filter (s.node.catalog.appliedIndex < ·.index))
      s.node.catalog (applied_or_fails s) with h | ⟨err, href, h⟩
    · exact .inl (bind_ok h)
    · exact .inr ⟨err, href, bind_error h⟩

/-- How `appendValidated` ends: the command is appended, rejected, or the node fails. -/
theorem appendValidated_run (command : MetaCommand) (hcont : Contiguous s.node.snapshotIndex s.node.log)
    (hlast : s.node.wal.lastIndex = s.node.snapshotIndex + s.node.log.length) :
    (∃ gc c', s.node.speculative.apply s.node.hard.term (s.node.lastIndex + 1) command =
        (.ok gc, c') ∧ appendValidated command s = .ok (s.node.lastIndex + 1) ((s.withSpec (some c')).create command)) ∨
    (∃ e c', s.node.speculative.apply s.node.hard.term (s.node.lastIndex + 1) command =
        (.err e, c') ∧ appendValidated command s = .error (.rejected e) (s.withSpec (some c'))) ∨
    ∃ err t, err.refusal = false ∧ appendValidated command s = .error err t ∧
      (t = s ∨ t = s.withSpec (some s.node.speculative)) := by
  have hread : ∀ f : RaftNode → RaftM Nat, (node >>= f) s = f s.node s := fun _ => rfl
  rw [appendValidated, hread]
  rcases specMut_run s with h | ⟨err, href, h⟩
  · rw [bind_ok h]
    rcases happ : s.node.speculative.apply s.node.hard.term (s.node.lastIndex + 1) command with
      ⟨out, c'⟩
    cases out with
    | ok gc =>
      refine .inl ⟨gc, c', rfl, ?_⟩
      refine (bind_ok (rfl : modifyNode _ _ = .ok () (s.withSpec (some c')))).trans ?_
      refine appendLocal_eq (s := s.withSpec (some c')) hcont hlast fun c hc => ?_
      obtain rfl := Option.some.inj hc
      exact apply_ok_index happ
    | err e => exact .inr (.inl ⟨e, c', rfl, rfl⟩)
    | panic | hang => exact .inr (.inr ⟨_, _, rfl, rfl, .inr rfl⟩)
  · exact .inr (.inr ⟨err, s, href, bind_error h, .inl rfl⟩)

/-- A leader that is asked for `command` may create its entry, or reject it as it does. -/
structure Setting.Ready (w : Setting) (s : NodeState) (command : MetaCommand) : Prop where
  checked : ∀ gc c', s.node.speculative.apply s.node.hard.term (s.node.lastIndex + 1) command =
    (.ok gc, c') → w.Checked (s.nextEntry command)
  whole : command.Whole s.node.speculative s.node.hard.term (s.node.lastIndex + 1) ∨ w.halfway

theorem Setting.Ready.changeMembership (m : Membership) (a : BTreeMap NodeId String) :
    w.Ready s (.changeMembership m a) :=
  ⟨fun _ _ _ => .inr (.inl rfl), .inl fun _ _ => apply_changeMembership_err⟩

theorem runs_appendValidated {command : MetaCommand} (hrole : s.node.role = .leader)
    (hcfg : ∀ m a, command = .changeMembership m a → s.node.MayChange m) (hready : w.Ready s command)
    (hE : ∀ spec, E (s.withSpec spec)) :
    Runs w (appendValidated command) s (fun _ s' => ∃ spec, s' = (s.withSpec spec).create command) E := by
  intro hwf
  rcases appendValidated_run command hwf.contiguous hwf.last with
    ⟨gc, c', happ, h⟩ | ⟨e, c', happ, h⟩ | ⟨err, t, href, h, ht⟩ <;> rw [h]
  · have hspec : ∀ c, some c' = some c → ∃ gc, s.node.speculative.apply s.node.hard.term
        (s.node.lastIndex + 1) command = (.ok gc, c) := fun c hc => ⟨gc, Option.some.inj hc ▸ happ⟩
    exact ⟨(Action.create command _ hrole hcfg hspec (hready.checked gc c' happ)).path, _, rfl⟩
  · have hact : Action w s (s.withSpec (some c')) := .speculate c' (hready.whole.imp_left (· e c' happ))
    exact ⟨_, hact.path, rfl, rfl, fun _ => ⟨rfl, hE _⟩⟩
  · rcases ht with rfl | rfl
    · exact ⟨_, Path.refl, rfl, rfl, fun h => by simp [href] at h⟩
    · exact ⟨_, (Action.speculate _ (.inl rfl)).path, rfl, rfl, fun h => by simp [href] at h⟩

/-- The membership is not a joint one. -/
def Stable (s : NodeState) : Prop := ∃ voters, s.node.membership = .stable voters

/-- What the end of a membership change leaves: either nothing was appended, or the final
configuration was. -/
structure Finished (s s' : NodeState) : Prop where
  leads : Leads s → Leads s'
  boundary : s'.node.lastIndex = s.node.lastIndex → Boundary s → Boundary s'
  stable : s'.node.lastIndex ≠ s.node.lastIndex → ¬ Stable s ∧ Stable s'

theorem Finished.refl (s : NodeState) : Finished s s := ⟨id, fun _ => id, fun h => absurd rfl h⟩

theorem runs_finishMembershipChange (hb : Boundary s)
    (hterm : s.node.termAt s.node.commitIndex = some s.node.hard.term) :
    Runs w finishMembershipChange s (fun _ s' => Finished s s') Boundary := by
  refine .of_wf fun hwf => ?_
  refine .bind (.node ?_)
  split
  · exact .pure (.refl s)
  rename_i hgo
  obtain ⟨hrole, hcfg⟩ := not_or.mp hgo
  have hrole := not_not.mp hrole
  split
  · rename_i old new hm
    refine .bind ((runs_appendValidated hrole ?_ (.changeMembership _ _)
      fun spec => hb.of_eq rfl rfl rfl id).mono ?_)
    · rintro m a ⟨⟩
      exact ⟨by rw [hm]; exact .leave old new, hterm, not_eq_true _ ▸ hcfg⟩
    · rintro _ _ ⟨spec, rfl⟩
      obtain ⟨next, mtch, hnode, -⟩ := (s.withSpec spec).create_node (.changeMembership (.stable new) ∅)
      have hled : Leads ((s.withSpec spec).create (.changeMembership (.stable new) ∅)) := by
        unfold Leads
        rw [hnode]
        exact hwf.led hrole
      refine runs_broadcastAppend hled fun hsent => ⟨fun _ => hled.sent hsent, ?_, fun _ => ⟨?_, ?_⟩⟩
      · intro hlast
        have := hsent.lastIndex.symm.trans hlast
        rw [hnode] at this
        simp [NodeState.nextEntry, NodeState.withSpec, NodeState.update, lastIndex] at this
      · rintro ⟨v, hv⟩
        simp [hm] at hv
      · exact ⟨new, hsent.membership.trans (by rw [hnode]; rfl)⟩
  · split
    · refine runs_becomeFollower le_rfl ?_
      have hf := followed_synced s s.node.hard.term none
      refine ⟨fun h => ?_, fun _ _ => .of_ne (by simp [hf.role]), fun h => absurd hf.lastIndex h⟩
      unfold Leads
      rw [hf.led, hf.term, max_self]
      exact h
    · exact .pure (.refl s)

theorem newCommit_le (n : RaftNode) (i : Nat) : newCommit n i ≤ n.commitIndex ∨
    newCommit n i ≤ i ∧ n.termAt (newCommit n i) = some n.hard.term ∧
      n.membership.hasQuorum (acksFor n (newCommit n i)) = true := by
  induction i with
  | zero => exact .inl le_rfl
  | succ i ih =>
    unfold newCommit
    split
    · exact .inl le_rfl
    · rename_i h
      split
      · rename_i hq
        exact .inr ⟨le_rfl, not_not.mp (not_or.mp h).2, hq⟩
      · exact ih.imp_right fun ⟨h, h'⟩ => ⟨h.trans (Nat.le_succ i), h'⟩

/-- One round of advancing the commit index. -/
structure Advanced (s s' : NodeState) (again : Bool) : Prop where
  leads : Leads s → Leads s'
  boundary : again = false → Boundary s'
  stable : again = true → ¬ Stable s ∧ Stable s'

theorem runs_advanceOnce : Runs w advanceOnce s (fun again s' => Advanced s s' again) Boundary := by
  refine .of_wf fun hwf => ?_
  refine .bind (.node ?_)
  split
  · rename_i hrole
    exact .pure ⟨id, fun _ => .of_ne hrole, by simp⟩
  rename_i hrole
  have hrole := not_not.mp hrole
  -- a leader that is its own quorum syncs its log first
  have hrest : ∀ t : NodeState, Wf t → t.node.role = .leader → (t.node.Solo → t.disk.pending = []) → Runs w (do
        let n ← node
        let commit := newCommit n n.lastIndex
        if commit ≤ n.commitIndex then return false
        modifyNode fun n => { n with commitIndex := commit }
        applyCommitted
        modifyNode broadcastAppend
        let last := (← node).lastIndex
        finishMembershipChange
        return (← node).lastIndex ≠ last) t (fun again s' => Advanced t s' again) Boundary := by
    intro t hwf hrole hsolo
    refine .bind (.node ?_)
    dsimp only
    split
    · exact .pure ⟨id, fun _ _ => hsolo, by simp⟩
    rename_i hlt
    obtain hle | ⟨hle, hterm, hq⟩ := newCommit_le t.node t.node.lastIndex
    · exact absurd hle hlt
    generalize newCommit t.node t.node.lastIndex = i at *
    refine .bind (.modify (Action.commit i hrole (by omega) hle hterm hq hsolo).path ?_)
    refine .bind (runs_applyCommitted.mono fun _ u hu => ?_)
    have hled : Leads u := hu.leads (s := t.update _) (hwf.led hrole)
    have hb : Boundary u := hu.boundary (s := t.update _) fun _ => hsolo
    refine .of_wf fun hwfu => .bind (runs_broadcastAppend hled fun hsent => .bind (.node ?_))
    have hterm' := hsent.term_commit (hu.term_commit (s := t.update _) hwfu hterm)
    refine .bind ((runs_finishMembershipChange (hb.sent hsent) hterm').mono fun _ v hv => ?_)
    refine .bind (.node (.pure ⟨fun _ => hv.leads (hled.sent hsent), fun h => ?_, fun h => ?_⟩))
    · exact hv.boundary (by simpa using h) (hb.sent hsent)
    · obtain ⟨hs, hs'⟩ := hv.stable (by simpa using h)
      obtain ⟨_, _, _, _, _, hn⟩ := hu.node
      refine ⟨fun ⟨voters, hst⟩ => hs ⟨voters, hsent.membership.trans ?_⟩, hs'⟩
      rw [hn]
      exact hst
  split
  · refine .bind (runs_walSync ?_)
    obtain ⟨w, hw⟩ := s.synced_node
    refine .of_wf fun hwf' => (hrest s.synced hwf' (by rw [hw]; exact hrole)
      fun _ => s.synced_pending).mono fun again t ht => ⟨?_, ht.boundary, ?_⟩
    · refine fun hl => ht.leads ?_
      unfold Leads
      rw [hw]
      exact hl
    · refine fun h => ⟨fun ⟨v, hv⟩ => (ht.stable h).1 ⟨v, ?_⟩, (ht.stable h).2⟩
      rw [hw]
      exact hv
  · rename_i hq
    exact hrest s hwf hrole fun hs => absurd hs hq

theorem runs_advanceCommit (hl : Leads s) :
    Runs w advanceCommit s (fun _ s' => Leads s' ∧ Boundary s') Boundary := by
  refine .bind (runs_advanceOnce.mono fun again t ht => ?_)
  split
  · rename_i hagain
    refine .bind (runs_advanceOnce.mono fun again' u hu => .pure ⟨hu.leads (ht.leads hl), ?_⟩)
    refine hu.boundary (not_eq_true _ ▸ fun h => ?_)
    exact (hu.stable h).1 (ht.stable hagain).2
  · rename_i hagain
    exact .pure ⟨ht.leads hl, ht.boundary (not_eq_true _ ▸ hagain)⟩

/-! ### Elections -/

theorem runs_becomeLeader (hrole : s.node.role = .candidate) (hq : s.node.membership.hasQuorum s.node.votes = true) :
    Whole w becomeLeader s := by
  refine .bind (.modify (Action.elect hrole hq).path ?_)
  -- a new leader has no speculative catalog
  have hcreate : Action w s.leading (s.leading.create .noop) :=
    .create .noop none rfl (by simp) (fun _ h => nomatch h) (.inl rfl)
  refine .of_wf fun hwf => .bind (.ok (appendLocal_eq hwf.contiguous hwf.last fun _ h => nomatch h) hcreate.path ?_)
  have hled : Leads (s.leading.create .noop) := rfl
  refine .bind (runs_broadcastAppend hled fun hsent => ?_)
  exact (runs_advanceCommit (hled.sent hsent)).mono fun _ _ h => h.2

theorem path_sends (w : Setting) {msg : Message} (ps : List NodeId)
    (h : ∀ dest out, { s.node with outbox := out }.Sends dest s.node.epoch msg) :
    Path w s (s.update fun n => ps.foldl (·.send · msg) n) ∧
      ∃ out, ps.foldl (·.send · msg) s.node = { s.node with outbox := out } := by
  induction ps generalizing s with
  | nil => exact ⟨Path.refl, _, rfl⟩
  | cons p ps ih =>
    obtain ⟨hp, out, hout⟩ := ih (s := s.update (·.send p msg)) h
    exact ⟨(Action.send p s.node.epoch msg (h p s.node.outbox)).path.trans hp, out, hout⟩

theorem runs_sends {msg : Message} (h : ∀ dest out, { s.node with outbox := out }.Sends dest s.node.epoch msg)
    (hrole : s.node.role ≠ .leader) :
    Runs w (modifyNode fun n => n.peers.foldl (·.send · msg) n) s (fun _ s' => Boundary s') E := by
  obtain ⟨hp, out, hout⟩ := path_sends w (s := s) s.node.peers h
  refine .modify hp (.of_ne ?_)
  simp only [NodeState.update, hout]
  exact hrole

theorem runs_campaign (hrole : s.node.role = .preCandidate) : Whole w campaign s := by
  refine RunsInside.step rfl (.step rfl (.step rfl (.done (Action.campaign hrole).path ?_)))
  refine .bind (.node ?_)
  split
  · rename_i hq
    exact runs_becomeLeader rfl hq
  · refine runs_sends (s := s.campaigning) (fun dest out => ?_) (by simp [NodeState.campaigning,
      NodeState.update, NodeState.emit, resetElectionTimer])
    exact RaftNode.Sends.requestVote (n := { s.campaigning.node with outbox := out }) dest rfl

theorem runs_preCampaign (hrole : s.node.role ≠ .leader) : Whole w preCampaign s := by
  refine .bind (.node ?_)
  split
  · exact .quiet rfl (.of_ne hrole)
  · refine .bind (.modify (Action.prepare {s.node.cfg.id} _ hrole rfl).path ?_)
    refine .bind (.node ?_)
    split
    · exact runs_campaign rfl
    · exact runs_sends (fun _ _ => .preVote _ _ _ _ _) (by
        simp [NodeState.update, resetElectionTimer])

end AtlasNative
