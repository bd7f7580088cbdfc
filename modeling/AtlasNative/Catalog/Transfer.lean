import AtlasNative.Catalog.Metadata

/-!
# Snapshot transfer in chunks

The leader streams its applied catalog to a follower that fell behind its compacted log: a header
(everything but extents and the inodes of filesystems), then pages of extents and of each
filesystem's inodes, then `done`. The follower stages every chunk next to its own catalog.
-/

namespace AtlasNative

def chunkInodes : Nat := 1024
def chunkExtents : Nat := 4096

inductive SnapshotChunk (T D : Type) where
  /-- The catalog without its extents and without the inodes of its filesystems. -/
  | header (catalog : Catalog T)
  | extents (extents : List (ExtentId × ExtentMeta))
  | inodes (fs : FsId) (inodes : List (Inode D))
  | done
deriving DecidableEq

/-- What follows the chunk in flight. -/
inductive Cursor where
  | extentsAfter (id : Option ExtentId)
  | inodes (fs : Nat) (start : Nat)
  | done
  | finished
deriving DecidableEq, Repr

/-- A transfer from the leader to one follower. -/
structure Outgoing (T D : Type) where
  /-- The snapshot's last included index. -/
  index : Nat
  /-- The chunk in flight. -/
  seq : Nat
  /-- Tick the chunk in flight was last sent. -/
  sentAt : Nat
  chunk : SnapshotChunk T D
  catalog : Catalog T
  filesystems : List FsId
  next : Cursor

section
variable {T D C : Type} [Backend T D C]

/-- The catalog without its extents and without the inodes of its filesystems. -/
def Catalog.header (c : Catalog T) : Catalog T :=
  { c with
    extents := ∅
    filesystems := c.filesystems.map fun _ f => { f with inodes := Backend.ofInodes [] } }

namespace Outgoing

def start (catalog : Catalog T) (now : Nat) : Outgoing T D where
  index := catalog.appliedIndex
  seq := 0
  sentAt := now
  chunk := .header catalog.header
  catalog := catalog
  filesystems := catalog.filesystems.keys
  next := .extentsAfter none

def isDone (o : Outgoing T D) : Bool := match o.chunk with
  | .done => true
  | _ => false

/-- The next page of inodes, `rest` being the filesystems from number `fs` on. -/
def inodesFrom (c : Catalog T) : List FsId → Nat → Nat → Rd C (SnapshotChunk T D × Cursor)
  | [], _, _ => pure (.done, .finished)
  | id :: rest, fs, start => do
    let page ← match c.filesystems[id]? with
      | some f => tab (Backend.pageFull f.inodes start chunkInodes)
      | none => pure []
    match page.getLast? with
    | none => inodesFrom c rest (fs + 1) 0
    | some last =>
      let next := if page.length = chunkInodes then .inodes fs (u64 (last.ino + 1))
        else .inodes (fs + 1) 0
      pure (.inodes id page, next)

/-- The next page of extents, those after `after`. -/
def extentsPage (c : Catalog T) (after : Option ExtentId) : List (ExtentId × ExtentMeta) :=
  (c.extents.toList.filter fun kv => after.all (· < kv.1)).take chunkExtents

/-- The chunk at a cursor and the cursor after it. -/
def chunkAt (o : Outgoing T D) : Rd C (Option (SnapshotChunk T D × Cursor)) :=
  match o.next with
  | .extentsAfter after =>
    let page := extentsPage o.catalog after
    match page.getLast? with
    | none => some <$> inodesFrom o.catalog o.filesystems 0 0
    | some last => pure (some (.extents page, .extentsAfter (some last.1)))
  | .inodes fs start => some <$> inodesFrom o.catalog (o.filesystems.drop fs) fs start
  | .done => pure (some (.done, .finished))
  | .finished => pure none

/-- Moves on to the next chunk. -/
def advance (o : Outgoing T D) (now : Nat) : Rd C (Outgoing T D) := do
  match ← o.chunkAt with
  | some (chunk, next) =>
    pure { o with chunk := chunk, next := next, seq := o.seq + 1, sentAt := now }
  | none => pure o

end Outgoing

/-- A chunk staged into the catalog a transfer has brought so far; a chunk of inodes needs its
filesystem's header. -/
def Catalog.stage (c : Catalog T) : SnapshotChunk T D → Except String (Catalog T)
  | .extents extents => .ok { c with extents := extents.foldl (fun m kv => m.insert kv.1 kv.2) c.extents }
  | .inodes fs inodes =>
    match c.filesystems[fs]? with
    | none => .error s!"snapshot inodes for unknown filesystem {fs}"
    | some f =>
      let f := { f with inodes := inodes.foldl Backend.insert f.inodes }
      .ok { c with filesystems := c.filesystems.insert fs f }
  | .header _ | .done => .error "only extents and inodes are staged"

end

/-- A transfer a follower is staging. -/
structure Incoming (T : Type) where
  index : Nat
  /-- The last chunk staged. -/
  seq : Nat
  catalog : Catalog T

end AtlasNative
