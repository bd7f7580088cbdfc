import AtlasNative.Catalog.Objects
import AtlasNative.Program.Keeps

/-!
# What commands leave alone

A command works on volumes, snapshots, filesystems and leases, counts references to extents, and,
if it is one of a few, installs extents or gives their space back. `Frame` says of a relation that
it does not see the first two, `Frame.Wide` that it does not see the last either. A `Calm` relation
may see which objects there are, and `Calm.Creating` is what it does not see of them; the programs
below keep every such relation.
-/

namespace AtlasNative

open Program Catalog

variable {T D C : Type} [Backend T D C] {α β : Type}

/-- What is neither a volume, a snapshot, a filesystem nor a lease. -/
abbrev Catalog.core (c : Catalog T) : BTreeMap ExtentId ExtentMeta × FreeList × Nat × Nat ×
    Option Membership × BTreeMap String String :=
  (c.extents, c.free, c.appliedIndex, c.currentTerm, c.membership, c.raftAddrs)

/-- A relation that sees neither the tables of the catalog nor the reference counts of extents. -/
class Frame (R : World T C → World T C → Prop) extends Steps R where
  tables : ∀ {w w'}, w'.cat.core = w.cat.core → R w w'
  refs : ∀ {w : World T C} {id e} (n), w.cat.extents[id]? = some e →
    R w { w with cat.extents := w.cat.extents.insert id { e with refs := n } }

/-- A relation that does not see extents and free space either. -/
class Frame.Wide (R : World T C → World T C → Prop) extends Frame R where
  space : ∀ {w : World T C} (extents free), R w { w with cat := { w.cat with
    extents := extents, free := free } }

/-- A relation that sees of the tables at most which objects there are, and no reference counts. -/
class Calm (R : World T C → World T C → Prop) extends Steps R where
  same : ∀ {w w'}, w'.cat.core = w.cat.core → w'.cat.holds = w.cat.holds → R w w'
  refs : ∀ {w : World T C} {id e} (n), w.cat.extents[id]? = some e →
    R w { w with cat.extents := w.cat.extents.insert id { e with refs := n } }

/-- One that does not see that an object is created, nor that objects are deleted. -/
class Calm.Creating (created : Option (ObjectKind × String)) (R : World T C → World T C → Prop)
    [Calm R] : Prop where
  grows : ∀ {w w'}, w'.cat.core = w.cat.core → GrowsBy created w w' → R w w'

/-- One that does not see extents and free space. -/
class Calm.Wide (R : World T C → World T C → Prop) [Calm R] : Prop where
  space : ∀ {w : World T C} (extents free), R w { w with cat := { w.cat with
    extents := extents, free := free } }

section

variable {R : World T C → World T C → Prop}

instance [Frame R] : Calm R where
  same h _ := Frame.tables h
  refs := Frame.refs

instance [Frame R] (created : Option (ObjectKind × String)) : Calm.Creating created R where
  grows h _ := Frame.tables h

instance [Frame.Wide R] : Calm.Wide R where
  space := Frame.Wide.space

end

/-- `R`, from where the object is there, and it stays there. -/
def Held (kind : ObjectKind) (id : String) (R : World T C → World T C → Prop) (w w' : World T C) :
    Prop :=
  w.cat.holds kind id = true → R w w' ∧ w'.cat.holds kind id = true

variable {R : World T C → World T C → Prop} [Calm R] {kind : ObjectKind} {id : String}

instance : Calm (Held kind id R) where
  refl w h := ⟨Steps.refl w, h⟩
  trans h h' hw := by
    obtain ⟨hR, hw'⟩ := h hw
    exact ⟨Steps.trans hR (h' hw').1, (h' hw').2⟩
  same hcore hholds hw := ⟨Calm.same hcore hholds, by rw [hholds]; exact hw⟩
  refs n he hw := ⟨Calm.refs n he, hw⟩

namespace CatM

@[grind ←]
theorem reject_frame (e : MetaError) : Keeps R (reject e : CatM T C α) := keeps_throw _

@[grind ←]
theorem ofExcept_frame (x : Except MetaError α) : Keeps R (ofExcept x : CatM T C α) := by
  unfold ofExcept
  grind

@[grind ←]
theorem modifyCat_frame {g : Catalog T → Catalog T}
    (h : (fun c => ((g c).core, (g c).tables)) = fun c => (c.core, c.tables)) :
    Keeps R (modifyCat g : CatM T C Unit) :=
  keeps_modify fun w =>
    have hw := Prod.mk.inj (congrFun h w.cat)
    Calm.same hw.1 (holds_congr hw.2)

@[grind ←]
theorem read_frame (x : Catalog T → Rd C α) : Keeps R (CatM.read x) := by
  intro w
  unfold CatM.read
  cases x w.cat w.side <;> exact Calm.same rfl rfl

@[grind ←]
theorem touch_frame (p : Part) (key : String) : Keeps R (touch p key : CatM T C Unit) :=
  keeps_modify fun _ => Calm.same rfl rfl

@[grind ←]
theorem replace_frame (p : Part) (key : String) : Keeps R (replace p key : CatM T C Unit) :=
  keeps_modify fun _ => Calm.same rfl rfl

@[grind ←]
theorem filesystem_frame (fs : FsId) : Keeps R (filesystem fs : CatM T C (FsMeta T)) := by
  unfold filesystem
  grind

/-! ### Writing what is there -/

theorem held_of_same {w w' : World T C} (hcore : w'.cat.core = w.cat.core)
    (hholds : w.cat.holds kind id = true → w'.cat.holds = w.cat.holds) : Held kind id R w w' :=
  fun hw => ⟨Calm.same hcore (hholds hw), by rw [hholds hw]; exact hw⟩

theorem setFs_held (fs : FsId) (f : FsMeta T) : Keeps (Held .filesystem fs R) (setFs fs f : CatM T C Unit) :=
  keeps_modify fun _ => held_of_same rfl (holds_setFs f)

theorem insertFs_held (fs : FsId) (f : FsMeta T) : Keeps (Held .filesystem fs R) (insertFs fs f : CatM T C Unit) :=
  keeps_bind (replace_frame _ _) fun _ => setFs_held fs f

theorem setVolume_held (id : VolumeId) (v : VolumeMeta) : Keeps (Held .volume id R) (setVolume id v : CatM T C Unit) :=
  keeps_modify fun _ => held_of_same rfl (holds_setVolume v)

theorem keeps_found {x : CatM T C α} {f : α → CatM T C β} (hx : Keeps R x)
    (hfound : Ends (fun w => w.cat.holds kind id = true) x)
    (hf : ∀ a, Keeps (Held kind id R) (f a)) : Keeps R (x >>= f) := by
  intro w
  cases h : x w with
  | error e w' =>
    rw [bind_error h]
    exact hx.of_error h
  | ok a w' =>
    rw [bind_ok h]
    have hheld := hfound w a w' h
    cases h' : f a w' with
    | ok b w'' => exact Steps.trans (hx.of_ok h) ((hf a).of_ok h' hheld).1
    | error e w'' => exact Steps.trans (hx.of_ok h) ((hf a).of_error h' hheld).1

theorem filesystem_found (fs : FsId) :
    Ends (fun w => w.cat.holds .filesystem fs = true) (filesystem fs : CatM T C (FsMeta T)) := by
  refine ends_get fun w f w' h => ?_
  cases hfs : w.cat.filesystems[fs]? with
  | none => rw [hfs] at h; cases h
  | some f =>
    rw [hfs] at h
    cases h
    exact holds_filesystem hfs

@[grind ←]
theorem withFs_frame (fs : FsId) (x : FsM T C α) : Keeps R (withFs fs x) := by
  refine keeps_found (filesystem_frame fs) (filesystem_found fs) fun f =>
    keeps_bind (touch_frame _ _) fun _ w => ?_
  cases x ⟨f, w.side⟩ <;> exact held_of_same rfl (holds_setFs _)

@[grind ←]
theorem withUsage_frame (fs : FsId) (g : FsUsage → FsUsage) : Keeps R (withUsage fs g : CatM T C Unit) := by
  intro w
  refine keepsAt_get ?_
  split
  · exact (keeps_pure _).keepsAt w
  · rename_i f hfs
    have hset : KeepsAt (Held .filesystem fs R) (do
        touch .filesystems fs; setFs fs { f with usage := f.usage.map g } : CatM T C Unit) w :=
      (keeps_bind (touch_frame _ _) fun _ => setFs_held fs _).keepsAt w
    exact hset.mono fun w' h => (h (holds_filesystem hfs)).1

theorem setRefs_frame {w : World T C} {id : ExtentId} {e : ExtentMeta} (n : Nat)
    (he : w.cat.extents[id]? = some e) {x : CatM T C Unit} (hx : Keeps R x) :
    KeepsAt R (do touch .extents id; setExtent id { e with refs := n }; x) w := by
  refine keepsAt_bind (touch_frame _ _ w) fun _ w' hw' => ?_
  obtain ⟨-, rfl⟩ := EStateM.Result.ok.inj hw'
  refine keepsAt_bind (Calm.refs n he) fun _ w' _ => hx w'

@[grind ←]
theorem decRef_frame (id : ExtentId) : Keeps R (decRef id : CatM T C Unit) := by
  have hlast : ∀ n, Keeps R (if n = 0 then modify fun w => { w with gc := w.gc ++ [id] }
      else pure () : CatM T C Unit) := by
    intro n
    split
    · exact keeps_modify fun _ => Calm.same rfl rfl
    · exact keeps_pure _
  intro w
  refine keepsAt_get ?_
  split
  · exact (reject_frame _).keepsAt w
  · rename_i e he
    by_cases hzero : e.refs = 0
    · rw [if_pos hzero]
      exact (keeps_bind (touch_frame _ _) fun _ => reject_frame _).keepsAt w
    · rw [if_neg hzero]
      exact setRefs_frame (e.refs - 1) he (hlast _)

@[grind ←]
theorem shareExtent_frame (id : ExtentId) : Keeps R (shareExtent id : CatM T C Unit) := by
  intro w
  refine keepsAt_get ?_
  split
  · exact (reject_frame _).keepsAt w
  · rename_i e he
    exact setRefs_frame (e.refs + 1) he (keeps_pure ())

@[grind ←]
theorem dropInode_frame (i : Inode D) : Keeps R (dropInode i : CatM T C Unit) := by
  unfold dropInode
  grind

@[grind ←]
theorem shareExtents_frame (t : T) : Keeps R (shareExtents t : CatM T C Unit) := by
  unfold shareExtents
  grind

@[grind ←]
theorem forgetUsage_frame (fs : FsId) (i : Inode D) : Keeps R (forgetUsage fs i : CatM T C Unit) := by
  unfold forgetUsage
  grind

@[grind ←]
theorem checkByteQuota_frame (fs : FsId) (ino : Nat) (new : List (Nat × Nat)) :
    Keeps R (checkByteQuota fs ino new : CatM T C Unit) := by
  unfold checkByteQuota
  grind

/-! ### Creating and deleting -/

theorem modifyCat_grows (created : Option (ObjectKind × String)) [Calm.Creating created R]
    {g : Catalog T → Catalog T} (hcore : (fun c => (g c).core) = core)
    (h : ∀ c kind id, (g c).holds kind id = true → c.holds kind id = true ∨ created = some (kind, id)) :
    Keeps R (modifyCat g : CatM T C Unit) :=
  keeps_modify fun w => Calm.Creating.grows (congrFun hcore w.cat) (h w.cat)

@[grind ←]
theorem insertFs_frame (fs : FsId) (f : FsMeta T) [Calm.Creating (some (.filesystem, fs)) R] :
    Keeps R (insertFs fs f : CatM T C Unit) := by
  refine keeps_bind (replace_frame _ _) fun _ =>
    modifyCat_grows (some (.filesystem, fs)) rfl fun c kind id h => ?_
  cases kind with
  | filesystem => exact (contains_insert_grows h).imp_right fun heq => by rw [heq]
  | _ => exact .inl h

@[grind ←]
theorem insertVolume_frame (id : VolumeId) (v : VolumeMeta) [Calm.Creating (some (.volume, id)) R] :
    Keeps R (insertVolume id v : CatM T C Unit) := by
  refine keeps_bind (replace_frame _ _) fun _ =>
    modifyCat_grows (some (.volume, id)) rfl fun c kind id h => ?_
  cases kind with
  | volume => exact (contains_insert_grows h).imp_right fun heq => by rw [heq]
  | _ => exact .inl h

theorem insertSnapshot_frame (id : SnapshotId) (s : SnapshotMeta) [Calm.Creating (some (.snapshot, id)) R] :
    Keeps R (modifyCat fun c => { c with snapshots := c.snapshots.insert id s } : CatM T C Unit) := by
  refine modifyCat_grows (some (.snapshot, id)) rfl fun c kind id h => ?_
  cases kind with
  | snapshot => exact (contains_insert_grows h).imp_right fun heq => by rw [heq]
  | _ => exact .inl h

theorem insertFsSnapshot_frame (id : SnapshotId) (s : FsSnapshotMeta T) [Calm.Creating (some (.fsSnapshot, id)) R] :
    Keeps R (modifyCat fun c => { c with fsSnapshots := c.fsSnapshots.insert id s } : CatM T C Unit) := by
  refine modifyCat_grows (some (.fsSnapshot, id)) rfl fun c kind id h => ?_
  cases kind with
  | fsSnapshot => exact (contains_insert_grows h).imp_right fun heq => by rw [heq]
  | _ => exact .inl h

/-! ### Filesystem commands -/

section

variable (fs : FsId)
include fs

@[grind ←]
theorem createFs_frame (name : String) (nowNs : Int) (extentBytes : Option Nat)
    [Calm.Creating (some (.filesystem, fs)) R] :
    Keeps R (createFs fs name nowNs extentBytes : CatM T C Unit) := by
  unfold createFs
  grind

@[grind ←]
theorem deleteFs_frame [Calm.Creating none R] : Keeps R (deleteFs fs : CatM T C Unit) := by
  refine keeps_bind (filesystem_frame fs) fun f => keeps_bind (read_frame _) fun all => ?_
  refine keeps_bind (replace_frame _ _) fun _ => keeps_bind ?_ fun _ => keeps_forM dropInode_frame
  refine modifyCat_grows none rfl fun c kind id h => .inl ?_
  cases kind with
  | filesystem => exact contains_of_erase h
  | _ => exact h

@[grind ←]
theorem dropGone_frame (gone : Option (Inode D)) : Keeps R (dropGone fs gone : CatM T C Unit) := by
  unfold dropGone
  grind

@[grind ←]
theorem setAttr_frame (ino : Nat) (attr : SetAttr) (nowNs : Int) :
    Keeps R (setAttr fs ino attr nowNs : CatM T C Unit) := by
  unfold setAttr
  grind

@[grind ←]
theorem setXattr_frame (ino : Nat) (name : String) (value : Bytes) (mode : XattrMode) (nowNs : Int) :
    Keeps R (setXattr fs ino name value mode nowNs : CatM T C Unit) := by
  unfold setXattr
  grind

omit fs in
@[grind ←]
theorem snapshotTree_frame (id : SnapshotId) (fs : FsId) (name : String) (nowNs : Int)
    [Calm.Creating (some (.fsSnapshot, id)) R] :
    Keeps R (snapshotTree id fs name nowNs : CatM T C Unit) := by
  refine keeps_bind keeps_get fun w => ?_
  split
  · grind
  refine keeps_bind (filesystem_frame fs) fun f => keeps_bind (read_frame _) fun inodes => ?_
  refine keeps_bind (shareExtents_frame _) fun _ => keeps_bind (replace_frame _ _) fun _ => ?_
  exact insertFsSnapshot_frame id _

omit fs in
@[grind ←]
theorem deleteFsSnapshot_frame (id : SnapshotId) [Calm.Creating none R] :
    Keeps R (deleteFsSnapshot id : CatM T C Unit) := by
  refine keeps_bind keeps_get fun w => ?_
  dsimp only
  split
  · exact reject_frame _
  split
  · exact reject_frame _
  refine keeps_bind (replace_frame _ _) fun _ => keeps_bind ?_ fun _ => ?_
  · refine modifyCat_grows none rfl fun c kind id h => .inl ?_
    cases kind with
    | fsSnapshot => exact contains_of_erase h
    | _ => exact h
  · exact keeps_bind (read_frame _) fun all => keeps_forM dropInode_frame

omit fs in
@[grind ←]
theorem cloneFs_frame (id : FsId) (name : String) (snapshotId : SnapshotId) [Calm.Creating (some (.filesystem, id)) R] :
    Keeps R (cloneFs id name snapshotId : CatM T C Unit) := by
  unfold cloneFs
  grind

@[grind ←]
theorem setQuota_frame (maxBytes maxInodes : Option Nat) :
    Keeps R (setQuota fs maxBytes maxInodes : CatM T C Unit) := by
  unfold setQuota
  grind

/-! ### Replicas -/

@[grind ←]
theorem replicaOf_frame : Keeps R (replicaOf fs : CatM T C ReplicaState) := by
  unfold replicaOf
  grind

@[grind ←]
theorem createReplica_frame (name : String) (nowNs : Int) (extentBytes : Nat)
    [Calm.Creating (some (.filesystem, fs)) R] :
    Keeps R (createReplica fs name nowNs extentBytes : CatM T C Unit) := by
  unfold createReplica
  grind

@[grind ←]
theorem revertTo_frame (snapshot : SnapshotId) (replica : Option ReplicaState) :
    Keeps R (revertTo fs snapshot replica : CatM T C Unit) := by
  refine keeps_bind keeps_get fun w => ?_
  split
  · exact reject_frame _
  refine keeps_found (filesystem_frame fs) (filesystem_found fs) fun f => ?_
  refine keeps_bind (read_frame _) fun old => keeps_bind (shareExtents_frame _) fun _ => ?_
  refine keeps_bind (insertFs_held fs _) fun _ => ?_
  exact keeps_bind (modifyCat_frame rfl) fun _ => keeps_forM dropInode_frame

@[grind ←]
theorem discardPartial_frame : Keeps R (discardPartial fs : CatM T C Unit) := by
  refine keeps_bind (replicaOf_frame fs) fun r => ?_
  split
  · exact revertTo_frame _ _ _
  refine keeps_found (filesystem_frame fs) (filesystem_found fs) fun f => ?_
  refine keeps_bind (read_frame _) fun old => keeps_bind (read_frame _) fun root => ?_
  refine keeps_bind (insertFs_held fs _) fun _ => ?_
  exact keeps_bind (modifyCat_frame rfl) fun _ => keeps_forM dropInode_frame

section

variable (fromSnap : Option SnapshotId) (toSnap : SnapshotId) (inodes : List ReplicaInode)
  (removed : List Nat)
include fromSnap toSnap inodes removed

@[grind ←]
theorem checkPart_frame : Keeps R (checkPart fs fromSnap toSnap inodes removed : CatM T C Unit) := by
  unfold checkPart
  grind

@[grind ←]
theorem replicaApply_frame : Keeps R (replicaApply fs fromSnap toSnap inodes removed : CatM T C Unit) := by
  refine keeps_bind (checkPart_frame _ _ _ _ _) fun _ => keeps_bind (replicaOf_frame fs) fun r => ?_
  split
  · refine keeps_bind (discardPartial_frame fs) fun _ => ?_
    grind
  · grind

end

@[grind ←]
theorem replicaCommit_frame (fromSnap : Option SnapshotId) (toSnap snapshot : SnapshotId)
    (name : String) (nextIno : Nat) (nowNs : Int) [Calm.Creating (some (.fsSnapshot, snapshot)) R] :
    Keeps R (replicaCommit fs fromSnap toSnap snapshot name nextIno nowNs : CatM T C Unit) := by
  unfold replicaCommit
  grind

@[grind ←]
theorem replicaPromote_frame (force : Bool) : Keeps R (replicaPromote fs force : CatM T C Unit) := by
  unfold replicaPromote
  grind

@[grind ←]
theorem replicaDemote_frame (snapshot base : SnapshotId) :
    Keeps R (replicaDemote fs snapshot base : CatM T C Unit) := by
  unfold replicaDemote
  grind

end

/-! ### Volumes, extents, leases -/

@[grind ←]
theorem createVolume_frame (id : VolumeId) (name : String) (size : Nat) [Calm.Creating (some (.volume, id)) R] :
    Keeps R (createVolume id name size : CatM T C Unit) := by
  unfold createVolume
  grind

@[grind ←]
theorem volumeMut_frame (id : VolumeId) : Keeps R (volumeMut id : CatM T C VolumeMeta) := by
  unfold volumeMut
  grind

theorem volumeMut_found (id : VolumeId) :
    Ends (fun w => w.cat.holds .volume id = true) (volumeMut id : CatM T C VolumeMeta) := by
  refine ends_get fun w v w' h => ?_
  cases hv : w.cat.volumes[id]? with
  | none => rw [hv] at h; cases h
  | some v =>
    rw [hv] at h
    cases h
    exact holds_volume hv

@[grind ←]
theorem createSnapshot_frame (id : SnapshotId) (v : VolumeId) (name : String) [Calm.Creating (some (.snapshot, id)) R] :
    Keeps R (createSnapshot id v name : CatM T C Unit) := by
  refine keeps_bind keeps_get fun w => ?_
  dsimp only
  split
  · grind
  split
  · exact reject_frame _
  refine keeps_bind (keeps_forM shareExtent_frame) fun _ => ?_
  exact keeps_bind (replace_frame _ _) fun _ => insertSnapshot_frame id _

@[grind ←]
theorem deleteSnapshot_frame (id : SnapshotId) [Calm.Creating none R] :
    Keeps R (deleteSnapshot id : CatM T C Unit) := by
  refine keeps_bind keeps_get fun w => ?_
  split
  · exact reject_frame _
  refine keeps_bind (replace_frame _ _) fun _ => keeps_bind ?_ fun _ => keeps_forM decRef_frame
  refine modifyCat_grows none rfl fun c kind id h => .inl ?_
  cases kind with
  | snapshot => exact contains_of_erase h
  | _ => exact h

@[grind ←]
theorem deleteVolume_frame (id : VolumeId) [Calm.Creating none R] : Keeps R (deleteVolume id : CatM T C Unit) := by
  refine keeps_bind keeps_get fun w => ?_
  split
  · exact reject_frame _
  refine keeps_bind (replace_frame _ _) fun _ => keeps_bind ?_ fun _ => keeps_forM decRef_frame
  refine modifyCat_grows none rfl fun c kind id h => .inl ?_
  cases kind with
  | volume => exact contains_of_erase h
  | _ => exact h

@[grind ←]
theorem resizeVolume_frame (id : VolumeId) (size : Nat) : Keeps R (resizeVolume id size : CatM T C Unit) := by
  refine keeps_found (volumeMut_frame id) (volumeMut_found id) fun v => ?_
  split
  · exact reject_frame _
  · exact setVolume_held id _

@[grind ←]
theorem cloneSnapshot_frame (id : VolumeId) (name : String) (snap : SnapshotId) (size : Option Nat)
    [Calm.Creating (some (.volume, id)) R] :
    Keeps R (cloneSnapshot id name snap size : CatM T C Unit) := by
  unfold cloneSnapshot
  grind

@[grind ←]
theorem checkFile_frame (fs : FsId) (ino : Nat) : Keeps R (checkFile fs ino : CatM T C Unit) := by
  unfold checkFile
  grind

end CatM

namespace Leases

variable {σ : Type} {R : σ → σ → Prop} [Steps R] {file : FsId → Nat → EStateM Fault σ Unit}

theorem apply_keeps (hfile : ∀ fs ino, Keeps R (file fs ino)) (l : Leases) (op : LeaseOp)
    (term : Nat) : Keeps R (l.apply op term file) := by
  cases op <;> unfold apply
  case lock => unfold applyLock sessionOf; grind
  case renew => unfold sessionOf; grind
  all_goals grind

end Leases

namespace CatM

theorem applyLease_frame (op : LeaseOp) (term : Nat) : Keeps R (applyLease op term : CatM T C Unit) := by
  refine keeps_bind keeps_get fun w => keeps_bind (Leases.apply_keeps checkFile_frame _ _ _) fun l => ?_
  grind

end CatM

/-! ### Installing extents -/

/-- The extents a command on a filesystem, or any command, installs. -/
def FsOp.installs : FsOp → List ExtentRef
  | .installFileExtent _ _ _ extent _ _ _ => [extent]
  | .installFileExtents _ _ extents _ _ _ => extents
  | _ => []

def MetaCommand.installs : MetaCommand → List ExtentRef
  | .installExtent _ _ extent => [extent]
  | .installExtents _ extents => extents
  | .fs op => op.installs
  | _ => []

/-- Commands that move extents that are there, or remove them. -/
def MetaCommand.moves : MetaCommand → Bool
  | .markExtentReclaimed _ | .tierExtent .. | .replaceReplica .. => true
  | _ => false

namespace CatM

variable {M : World T C → World T C → Prop}

theorem keeps_around_found {x : CatM T C α} {y : α → CatM T C Unit} {f : α → CatM T C β}
    (hx : Keeps R x) (hfound : Ends (fun w => w.cat.holds kind id = true) x)
    (hy : ∀ a, Keeps (Held kind id R) (y a)) (hf : ∀ a, Keeps (Around R M) (f a)) :
    Keeps (Around R M) (x >>= fun a => y a >>= fun _ => f a) := by
  have hassoc : (x >>= fun a => y a >>= fun _ => f a) =
      (x >>= fun a => y a >>= fun _ => pure a) >>= f := by simp only [bind_assoc, pure_bind]
  rw [hassoc]
  exact keeps_around_bind (keeps_found hx hfound fun a => keeps_bind (hy a) fun _ => keeps_pure a) hf

theorem installVolume_frame (id : VolumeId) (new : List (Nat × ExtentRef))
    (hadd : Keeps M ((new.map Prod.snd).forM addExtentRef : CatM T C Unit)) :
    Keeps (Around R M) (installVolume id new : CatM T C Unit) := by
  refine keeps_around_found (volumeMut_frame id) (volumeMut_found id) (fun v => setVolume_held id _) fun v => ?_
  exact keeps_around_step hadd fun _ => keeps_forM decRef_frame

theorem installFile_frame (fs : FsId) (ino : Nat) (new : List (Nat × ExtentRef)) (atLeast : Nat)
    (nowNs : Int) (replica : Bool)
    (hadd : Keeps M ((new.map Prod.snd).forM addExtentRef : CatM T C Unit)) :
    Keeps (Around R M) (installFile fs ino new atLeast nowNs replica : CatM T C Unit) := by
  refine keeps_around_bind (checkByteQuota_frame fs ino _) fun _ => ?_
  refine keeps_around_bind (withFs_frame fs _) fun old => ?_
  refine keeps_around_step hadd fun _ => ?_
  grind

section

variable (op : FsOp) (hadd : Keeps M (op.installs.forM addExtentRef : CatM T C Unit))
include op hadd

theorem runFsOp_frame [hcreates : Calm.Creating op.creates R] : Keeps (Around R M) (runFsOp op : CatM T C Unit) := by
  cases op with
  | installFileExtent fs ino off e size nowNs replica =>
    refine keeps_around_bind (ofExcept_frame _) fun _ => ?_
    exact installFile_frame fs ino _ size nowNs replica hadd
  | installFileExtents fs ino es size nowNs replica =>
    refine keeps_around_bind (keeps_forM fun _ => ofExcept_frame _) fun _ => ?_
    refine installFile_frame fs ino _ size nowNs replica ?_
    rw [List.map_map]
    exact (List.map_id es).symm ▸ hadd
  | _ =>
    refine Keeps.around ?_
    unfold runFsOp
    simp only [FsOp.creates] at hcreates
    grind

theorem applyFs_frame [Calm.Creating op.creates R] : Keeps (Around R M) (applyFs op : CatM T C Unit) := by
  refine keeps_around_bind keeps_get fun w => ?_
  dsimp only
  split
  · exact Keeps.around (reject_frame _)
  split
  · refine keeps_around_bind (filesystem_frame _) fun f => ?_
    split
    · exact Keeps.around (reject_frame _)
    · exact runFsOp_frame op hadd
  · exact runFsOp_frame op hadd

end

/-- Every command but those that move extents or change the voters. -/
theorem runCommand_frame (term : Nat) {cmd : MetaCommand}
    [hcreates : Calm.Creating cmd.creates R] (hmoves : cmd.moves = false)
    (hvoters : ∀ m addrs, cmd ≠ .changeMembership m addrs)
    (hadd : Keeps M (cmd.installs.forM addExtentRef : CatM T C Unit)) :
    Keeps (Around R M) (runCommand term cmd : CatM T C Unit) := by
  cases cmd with
  | changeMembership m addrs => exact absurd rfl (hvoters m addrs)
  | installExtent id off e =>
    refine keeps_around_bind (ofExcept_frame _) fun _ => ?_
    exact installVolume_frame id _ hadd
  | installExtents id es =>
    refine keeps_around_bind (keeps_forM fun _ => ofExcept_frame _) fun _ => ?_
    refine installVolume_frame id _ ?_
    rw [List.map_map]
    exact (List.map_id es).symm ▸ hadd
  | fs op =>
    have : Calm.Creating op.creates R := hcreates
    exact applyFs_frame op hadd
  | lease op => exact (applyLease_frame op term).around
  | markExtentReclaimed | tierExtent | replaceReplica => cases hmoves
  | _ =>
    refine Keeps.around ?_
    unfold runCommand
    simp only [MetaCommand.creates] at hcreates
    grind

/-! ### Relations that see no extents -/

section Wide

variable [Calm.Wide R]

theorem setExtent_wide (id : ExtentId) (e : ExtentMeta) : Keeps R (setExtent id e : CatM T C Unit) :=
  keeps_modify fun w => Calm.Wide.space _ w.cat.free

theorem addExtentRef_wide (e : ExtentRef) : Keeps R (addExtentRef e : CatM T C Unit) := by
  refine keeps_bind keeps_get fun w => ?_
  split
  · exact keeps_bind (touch_frame _ _) fun _ => setExtent_wide _ _
  · refine keeps_bind (keeps_modify fun w => Calm.Wide.space w.cat.extents _) fun _ => ?_
    exact keeps_bind (replace_frame _ _) fun _ => setExtent_wide _ _

theorem release_wide (r : ReplicaRef) (len : Nat) : Keeps R (release r len : CatM T C Unit) := by
  refine keeps_bind keeps_get fun w => ?_
  split
  · exact keeps_modify fun w => Calm.Wide.space w.cat.extents _
  · exact reject_frame _

theorem markExtentReclaimed_wide (id : ExtentId) : Keeps R (markExtentReclaimed id : CatM T C Unit) := by
  refine keeps_bind keeps_get fun w => ?_
  split
  · exact reject_frame _
  split
  · exact reject_frame _
  · refine keeps_bind (replace_frame _ _) fun _ => ?_
    refine keeps_bind (keeps_modify fun w => Calm.Wide.space _ w.cat.free) fun _ => ?_
    exact keeps_forM fun r => release_wide r _

theorem tierExtent_wide (id : ExtentId) (key : String) (rs : List ReplicaRef) :
    Keeps R (tierExtent id key rs : CatM T C Unit) := by
  refine keeps_bind keeps_get fun w => ?_
  split
  · exact reject_frame _
  refine keeps_bind (touch_frame _ _) fun _ => ?_
  split
  · exact reject_frame _
  split
  · exact reject_frame _
  · refine keeps_bind (setExtent_wide _ _) fun _ => ?_
    exact keeps_forM fun r => release_wide r _

theorem replaceReplica_wide (id : ExtentId) (old new : ReplicaRef) :
    Keeps R (replaceReplica id old new : CatM T C Unit) := by
  unfold replaceReplica
  split
  · exact reject_frame _
  refine keeps_bind keeps_get fun w => ?_
  split
  · exact reject_frame _
  refine keeps_bind (touch_frame _ _) fun _ => ?_
  split
  · exact reject_frame _
  split
  · exact reject_frame _
  · refine keeps_bind (setExtent_wide _ _) fun _ => ?_
    refine keeps_bind (keeps_modify fun w => Calm.Wide.space w.cat.extents _) fun _ => ?_
    exact release_wide old _

/-- Every command but a change of the voters. -/
theorem runCommand_wide (term : Nat) {cmd : MetaCommand} [Calm.Creating cmd.creates R]
    (hvoters : ∀ m addrs, cmd ≠ .changeMembership m addrs) :
    Keeps R (runCommand term cmd : CatM T C Unit) := by
  cases hmoves : cmd.moves with
  | false =>
    exact (runCommand_frame term hmoves hvoters (keeps_forM addExtentRef_wide)).of_around
  | true =>
    cases cmd with
    | markExtentReclaimed id => exact markExtentReclaimed_wide id
    | tierExtent id key rs => exact tierExtent_wide id key rs
    | replaceReplica id old new => exact replaceReplica_wide id old new
    | _ => cases hmoves

end Wide

end CatM

/-! ### The objects of the catalog -/

instance (created : Option (ObjectKind × String)) : Calm (GrowsBy (T := T) (C := C) created) where
  refl _ _ _ h := .inl h
  trans h h' kind id hw := (h' kind id hw).elim (h kind id) .inr
  same _ h _ _ hw := .inl (h ▸ hw)
  refs _ _ _ _ hw := .inl hw

instance (created : Option (ObjectKind × String)) :
    Calm.Creating created (GrowsBy (T := T) (C := C) created) where
  grows _ h := h

instance (created : Option (ObjectKind × String)) :
    Calm.Wide (GrowsBy (T := T) (C := C) created) where
  space _ _ _ _ hw := .inl hw

/-- A command adds at most the object that it creates. -/
theorem CatM.runCommand_grows (term : Nat) (cmd : MetaCommand) :
    Keeps (GrowsBy cmd.creates) (runCommand term cmd : CatM T C Unit) := by
  cases cmd with
  | changeMembership m addrs =>
    have hset : Keeps (GrowsBy none) (modifyCat fun c => { c with
        raftAddrs := c.raftAddrs ∪ addrs, membership := some m } : CatM T C Unit) :=
      keeps_modify fun _ _ _ h => .inl h
    unfold runCommand changeMembership
    grind [MetaCommand.creates]
  | _ => exact runCommand_wide term nofun

/-- So does a committed entry, whether its command is taken or rejected. -/
theorem Catalog.holds_of_applyCommittedWith {term index : Nat} {cmd : MetaCommand}
    {s : With T C} {kind : ObjectKind} {id : String}
    (h : (applyCommittedWith term index cmd s).2.1.holds kind id = true) :
    s.1.holds kind id = true ∨ cmd.creates = some (kind, id) := by
  have hgrows : Keeps (GrowsBy cmd.creates) (CatM.runCommand term cmd : CatM T C Unit) := CatM.runCommand_grows term cmd
  have hrun := hgrows ⟨s.1, s.2, []⟩
  unfold applyCommittedWith applyWith at h
  by_cases hidx : index ≤ s.1.appliedIndex
  · rw [if_pos hidx] at h
    exact .inl h
  rw [if_neg hidx] at h
  cases hres : CatM.runCommand term cmd ⟨s.1, s.2, []⟩ with
  | ok a w =>
    rw [hres] at h hrun
    exact hrun kind id h
  | error e w =>
    rw [hres] at h hrun
    refine hrun kind id ?_
    cases e with
    | panic | hang => exact h
    | err e =>
      cases e with
      | store e => exact h
      | _ =>
        dsimp only at h
        split at h <;> exact h

end AtlasNative
