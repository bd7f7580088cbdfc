import AtlasNative.Catalog.Acl

/-!
# Snapshot exports

An export is a manifest that lists the extents of a snapshot by checksum, and a blob per checksum
that all exports share. Exporting uploads what is not in the bucket yet and writes the manifest last;
deleting removes the manifest, then every blob that no remaining manifest names. An export in
progress keeps a marker fresh, and a delete frees nothing while it sees one.

Calls run side by side on one bucket. A step of a call is one request, or none.
-/

namespace AtlasNative

def exportFormat : Nat := 1

/-- How often an exporter refreshes its marker, and when a marker counts as left behind. -/
def pendingRefreshMs : Nat := 60000
def pendingStaleMs : Nat := 10 * 60000

structure ExportExtent where
  logicalOffset : Nat
  len : Nat
  /-- The blob's name. -/
  sha256 : String
deriving DecidableEq, Repr

structure ExportManifest where
  format : Nat
  name : String
  snapshotId : SnapshotId
  snapshotName : String
  sizeBytes : Nat
  createdMs : Nat
  extents : List ExportExtent
deriving DecidableEq, Repr

structure ExportStats where
  extents : Nat := 0
  uploaded : Nat := 0
  reused : Nat := 0
  bytesUploaded : Nat := 0
deriving DecidableEq, Repr

/-- The objects under the export prefix. -/
structure Bucket where
  manifests : BTreeMap String ExportManifest := ∅
  blobs : BTreeMap String Bytes := ∅
  /-- Markers of exports in progress, with the time of their last refresh. -/
  pending : BTreeMap String Nat := ∅
deriving DecidableEq

namespace Bucket

def putManifest (b : Bucket) (m : ExportManifest) : Bucket :=
  { b with manifests := b.manifests.insert m.name m }

def deleteManifest (b : Bucket) (name : String) : Bucket :=
  { b with manifests := b.manifests.erase name }

def putBlob (b : Bucket) (sha256 : String) (data : Bytes) : Bucket :=
  { b with blobs := b.blobs.insert sha256 data }

def deleteBlob (b : Bucket) (sha256 : String) : Bucket :=
  { b with blobs := b.blobs.erase sha256 }

def markPending (b : Bucket) (name : String) (now : Nat) : Bucket :=
  { b with pending := b.pending.insert name now }

def deletePending (b : Bucket) (name : String) : Bucket :=
  { b with pending := b.pending.erase name }

/-- One marker of a listing looked at: is it fresh? -/
def freshMarker (b : Bucket) (now : Nat) (name : String) : Bool :=
  match b.pending[name]? with
  | none => false
  | some updated => now - updated < pendingStaleMs

end Bucket

/-- Export names: 1 to 128 of letters, digits, dot, underscore and dash, not starting with a dot. -/
def checkExportName (name : String) : Bool :=
  !name.isEmpty && name.utf8ByteSize ≤ 128 && name.toList.head? ≠ some '.' &&
    name.toList.all fun c => c.isAlphanum || c = '.' || c = '_' || c = '-'

/-! ### Exporting -/

/-- An extent of the snapshot, with what reading it returns. -/
structure ExportSource where
  logicalOffset : Nat
  len : Nat
  sha256 : String
  data : Bytes
deriving DecidableEq, Repr

/-- A call of `export_snapshot`, with the snapshot's extents in order. -/
structure ExportJob where
  name : String
  snapshotId : SnapshotId
  snapshotName : String
  sizeBytes : Nat
  extents : List ExportSource
deriving DecidableEq, Repr

/-- The loop over the extents. -/
structure Upload where
  refreshed : Nat
  /-- The time was looked at for the extent at hand. -/
  timed : Bool := false
  seen : BTreeSet String
  left : List ExportSource
  listed : List ExportExtent := []
  reused : List ExportSource := []
  stats : ExportStats := {}
deriving DecidableEq

/-- Where an export stands: its next request. -/
inductive ExportAt where
  | find
  | list
  | scan (now : Nat) (left live : List String)
  | mark
  | listBlobs
  | upload (u : Upload)
  | relist (reused : List ExportSource) (stats : ExportStats)
  | recheck (seen : BTreeSet String) (left : List ExportSource) (stats : ExportStats)
  | unmark (result : Option ExportStats)
  | done (result : Option ExportStats)
deriving DecidableEq

namespace Upload

/-- The extent at hand is done. -/
def advance (u : Upload) (ext : ExportSource) (left : List ExportSource) : Upload :=
  { u with
    timed := false
    left := left
    listed := u.listed ++ [⟨ext.logicalOffset, ext.len, ext.sha256⟩]
    stats := { u.stats with extents := u.stats.extents + 1 } }

def step (job : ExportJob) (now : Nat) (b : Bucket) (u : Upload) : ExportAt × Bucket :=
  match u.left with
  | [] =>
    (.relist u.reused u.stats, b.putManifest ⟨exportFormat, job.name, job.snapshotId,
      job.snapshotName, job.sizeBytes, now, u.listed⟩)
  | ext :: left =>
    if !u.timed && pendingRefreshMs ≤ now - u.refreshed then
      (.upload { u with refreshed := now, timed := true }, b.markPending job.name now)
    else if u.seen.contains ext.sha256 then
      (.upload { u.advance ext left with
        reused := u.reused ++ [ext]
        stats := { u.stats with extents := u.stats.extents + 1, reused := u.stats.reused + 1 } }, b)
    else
      (.upload { u.advance ext left with
        seen := u.seen.insert ext.sha256
        stats := { u.stats with
          extents := u.stats.extents + 1
          uploaded := u.stats.uploaded + 1
          bytesUploaded := u.stats.bytesUploaded + ext.data.length } },
        b.putBlob ext.sha256 ext.data)

end Upload

namespace ExportAt

def step (job : ExportJob) (now : Nat) (b : Bucket) : ExportAt → ExportAt × Bucket
  | .find => (if b.manifests.contains job.name then .done none else .list, b)
  | .list => (.scan now b.pending.keys [], b)
  | .scan at_ (name :: left) live =>
    (.scan at_ left (if b.freshMarker at_ name then live ++ [name] else live), b)
  | .scan _ [] live => (if live.contains job.name then .done none else .mark, b)
  | .mark => (.listBlobs, b.markPending job.name now)
  | .listBlobs =>
    (.upload { refreshed := now, seen := .ofList b.blobs.keys, left := job.extents }, b)
  | .upload u => u.step job now b
  | .relist reused stats => (.recheck (.ofList b.blobs.keys) reused stats, b)
  | .recheck _ [] stats => (.unmark (some stats), b)
  | .recheck seen (ext :: left) stats =>
    if seen.contains ext.sha256 then (.recheck seen left stats, b)
    else (.recheck seen left { stats with
      uploaded := stats.uploaded + 1
      reused := stats.reused - 1
      bytesUploaded := stats.bytesUploaded + ext.data.length }, b.putBlob ext.sha256 ext.data)
  | .unmark result => (.done result, b.deletePending job.name)
  | .done result => (.done result, b)

/-- A request fails, an extent cannot be read, or the caller stops the export. -/
def abort : ExportAt → ExportAt
  | .find | .list | .scan .. | .mark => .done none
  | .listBlobs | .upload _ | .relist .. | .recheck .. => .unmark none
  | .unmark result | .done result => .done result

/-- The marker was put and the call has not returned. -/
def running : ExportAt → Bool
  | .listBlobs | .upload _ | .relist .. | .recheck .. | .unmark _ => true
  | _ => false

end ExportAt

/-! ### Deleting -/

/-- Where `delete_export` stands. After the listing it reads every manifest, twice. -/
inductive DeleteAt where
  | find
  | remove
  | list
  | infos (left names : List String)
  | manifests (left : List String) (live : BTreeSet String)
  | listBlobs (live : BTreeSet String)
  | sweep (live : BTreeSet String) (left : List String) (deleted : Nat)
  | markers (live : BTreeSet String) (blob : String) (left : List String) (deleted : Nat)
  | scan (now : Nat) (names found : List String) (live : BTreeSet String) (blob : String)
      (left : List String) (deleted : Nat)
  | free (live : BTreeSet String) (blob : String) (left : List String) (deleted : Nat)
  | done (result : Option Nat)
deriving DecidableEq

namespace DeleteAt

/-- `read_export`. -/
def readExport (b : Bucket) (name : String) : Option ExportManifest :=
  b.manifests[name]?.filter fun m => m.format = exportFormat

def step (name : String) (now : Nat) (b : Bucket) : DeleteAt → DeleteAt × Bucket
  | .find => (if (readExport b name).isSome then .remove else .done none, b)
  | .remove => (.list, b.deleteManifest name)
  | .list => (.infos b.manifests.keys [], b)
  | .infos (n :: left) names =>
    match readExport b n with
    | none => (.done none, b)
    | some m => (.infos left (names ++ [m.name]), b)
  | .infos [] names => (.manifests names ∅, b)
  | .manifests (n :: left) live =>
    match readExport b n with
    | none => (.done none, b)
    | some m => (.manifests left (live.insertMany (m.extents.map ExportExtent.sha256)), b)
  | .manifests [] live => (.listBlobs live, b)
  | .listBlobs live => (.sweep live b.blobs.keys 0, b)
  | .sweep _ [] deleted => (.done (some deleted), b)
  | .sweep live (blob :: left) deleted =>
    (if live.contains blob then .sweep live left deleted else .markers live blob left deleted, b)
  | .markers live blob left deleted => (.scan now b.pending.keys [] live blob left deleted, b)
  | .scan at_ (n :: names) found live blob left deleted =>
    (.scan at_ names (if b.freshMarker at_ n then found ++ [n] else found) live blob left deleted, b)
  | .scan _ [] found live blob left deleted =>
    (if found.isEmpty then .free live blob left deleted else .done (some deleted), b)
  | .free live blob left deleted => (.sweep live left (deleted + 1), b.deleteBlob blob)
  | .done result => (.done result, b)

end DeleteAt

/-! ### Calls side by side -/

inductive ExportCall where
  | exportSnapshot (job : ExportJob) (at_ : ExportAt)
  | deleteExport (name : String) (at_ : DeleteAt)
deriving DecidableEq

namespace ExportCall

def step (now : Nat) (b : Bucket) : ExportCall → ExportCall × Bucket
  | .exportSnapshot job at_ => let r := at_.step job now b; (.exportSnapshot job r.1, r.2)
  | .deleteExport name at_ => let r := at_.step name now b; (.deleteExport name r.1, r.2)

def abort : ExportCall → ExportCall
  | .exportSnapshot job at_ => .exportSnapshot job at_.abort
  | .deleteExport name _ => .deleteExport name (.done none)

/-- The node that runs the call stops. -/
def kill : ExportCall → ExportCall
  | .exportSnapshot job (.done result) => .exportSnapshot job (.done result)
  | .exportSnapshot job _ => .exportSnapshot job (.done none)
  | .deleteExport name _ => .deleteExport name (.done none)

end ExportCall

structure Exports where
  bucket : Bucket := {}
  calls : List ExportCall := []
deriving DecidableEq

namespace Exports

inductive Event where
  | exportSnapshot (job : ExportJob)
  | deleteExport (name : String)
  | step (call now : Nat)
  | abort (call : Nat)
  | kill (call : Nat)

def step (s : Exports) : Event → Exports
  | .exportSnapshot job =>
    let at_ := if checkExportName job.name then .find else .done none
    { s with calls := s.calls ++ [.exportSnapshot job at_] }
  | .deleteExport name =>
    let at_ := if checkExportName name then .find else .done none
    { s with calls := s.calls ++ [.deleteExport name at_] }
  | .step call now =>
    match s.calls[call]? with
    | none => s
    | some c => let r := c.step now s.bucket; ⟨r.2, s.calls.set call r.1⟩
  | .abort call => { s with calls := s.calls.modify call ExportCall.abort }
  | .kill call => { s with calls := s.calls.modify call ExportCall.kill }

def run (events : List Event) : Exports := events.foldl step {}

end Exports

end AtlasNative
