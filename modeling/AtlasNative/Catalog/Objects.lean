import AtlasNative.Catalog.Metadata

/-!
# The objects of a catalog

Volumes, snapshots, filesystems and filesystem snapshots, by their ids, and the one object that a
command creates.
-/

namespace AtlasNative

open Std.ExtTreeMap

inductive ObjectKind where
  | volume
  | snapshot
  | filesystem
  | fsSnapshot
deriving DecidableEq, Repr

variable {T : Type}

namespace Catalog

/-- `NativeEngine::holds`. -/
def holds (c : Catalog T) : ObjectKind → String → Bool
  | .volume, id => c.volumes.contains id
  | .snapshot, id => c.snapshots.contains id
  | .filesystem, id => c.filesystems.contains id
  | .fsSnapshot, id => c.fsSnapshots.contains id

/-- The tables that hold the objects. -/
abbrev tables (c : Catalog T) : BTreeMap VolumeId VolumeMeta × BTreeMap SnapshotId SnapshotMeta ×
    BTreeMap FsId (FsMeta T) × BTreeMap SnapshotId (FsSnapshotMeta T) :=
  (c.volumes, c.snapshots, c.filesystems, c.fsSnapshots)

variable {c : Catalog T}

theorem holds_congr {c' : Catalog T} (h : c'.tables = c.tables) : c'.holds = c.holds := by
  simp only [tables, Prod.mk.injEq] at h
  obtain ⟨hv, hs, hf, hfs⟩ := h
  funext kind id
  cases kind <;> simp only [holds, hv, hs, hf, hfs]

theorem holds_filesystem {fs : FsId} {f : FsMeta T} (h : c.filesystems[fs]? = some f) :
    c.holds .filesystem fs = true := by
  rw [holds, contains_eq_isSome_getElem?, h]
  rfl

theorem holds_volume {id : VolumeId} {v : VolumeMeta} (h : c.volumes[id]? = some v) : c.holds .volume id = true := by
  rw [holds, contains_eq_isSome_getElem?, h]
  rfl

variable {V : Type} {m : BTreeMap String V}

theorem contains_insert_of_contains {key : String} (v : V) (h : m.contains key = true)
    (id : String) : (m.insert key v).contains id = m.contains id := by
  rw [contains_insert]
  by_cases heq : compare key id = .eq
  · have hid : key = id := Std.compare_eq_iff_eq.mp heq
    rw [← hid, h, Bool.or_true]
  · rw [beq_false_of_ne heq, Bool.false_or]

theorem holds_setFs {fs : FsId} (f : FsMeta T) (h : c.holds .filesystem fs = true) :
    holds { c with filesystems := c.filesystems.insert fs f } = c.holds := by
  funext kind id
  cases kind with
  | filesystem => exact contains_insert_of_contains f h id
  | _ => rfl

theorem holds_setVolume {id : VolumeId} (v : VolumeMeta) (h : c.holds .volume id = true) :
    holds { c with volumes := c.volumes.insert id v } = c.holds := by
  funext kind id'
  cases kind with
  | volume => exact contains_insert_of_contains v h id'
  | _ => rfl

theorem contains_insert_grows {key id : String} {v : V} (h : (m.insert key v).contains id = true) :
    m.contains id = true ∨ key = id := by
  rw [contains_insert, Bool.or_eq_true, beq_iff_eq] at h
  exact h.symm.imp_right Std.compare_eq_iff_eq.mp

theorem contains_of_erase {key id : String} (h : (m.erase key).contains id = true) : m.contains id = true := by
  rw [contains_erase, Bool.and_eq_true] at h
  exact h.2

end Catalog

/-- All objects were there or are the one created. -/
def GrowsBy {C : Type} (created : Option (ObjectKind × String)) (w w' : World T C) : Prop :=
  ∀ kind id, w'.cat.holds kind id = true → w.cat.holds kind id = true ∨ created = some (kind, id)

/-- The object that a command creates. -/
def FsOp.creates : FsOp → Option (ObjectKind × String)
  | .createFs fs _ _ _ | .createReplica fs _ _ _ | .cloneFs fs _ _ => some (.filesystem, fs)
  | .snapshotFs id _ _ _ | .replicaCommit _ _ _ id _ _ _ => some (.fsSnapshot, id)
  | _ => none

def MetaCommand.creates : MetaCommand → Option (ObjectKind × String)
  | .createVolume id _ _ | .cloneSnapshot id _ _ _ => some (.volume, id)
  | .createSnapshot id _ _ => some (.snapshot, id)
  | .fs op => op.creates
  | _ => none

end AtlasNative
