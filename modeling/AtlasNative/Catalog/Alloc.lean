import AtlasNative.Catalog.Basic

/-!
# The free list

Device space that no extent uses, kept in the catalog so that every allocation and release is a
consequence of an applied command. `FreeList.reserve` takes a range out of the free range that
contains it, `FreeList.release` puts one back, coalescing it with its neighbours.
-/

namespace AtlasNative

structure FreeRange where
  nodeId : String
  deviceIndex : Nat
  offset : Nat
  len : Nat
deriving DecidableEq, Repr

namespace FreeRange

def end_ (r : FreeRange) : Nat := u64 (r.offset + r.len)

def sameDevice (r : FreeRange) (nodeId : String) (deviceIndex : Nat) : Bool :=
  r.nodeId = nodeId && r.deviceIndex = deviceIndex

/-- The order of the free list: by node, device, then offset. -/
def keyLt (r s : FreeRange) : Bool :=
  r.nodeId < s.nodeId || (r.nodeId = s.nodeId &&
    (r.deviceIndex < s.deviceIndex || (r.deviceIndex = s.deviceIndex && r.offset < s.offset)))

end FreeRange

/-- Sorted by `keyLt`, non-overlapping, adjacent ranges coalesced. -/
structure FreeList where
  ranges : List FreeRange := []
deriving DecidableEq, Repr

namespace FreeList

/-- The first free range of a device with room for `len` bytes. -/
def find (f : FreeList) (nodeId : String) (deviceIndex len : Nat) : Option Nat :=
  if len = 0 then none else
  (f.ranges.find? fun r => r.sameDevice nodeId deviceIndex && len ≤ r.len).map FreeRange.offset

/-- Whether `r` is the free range `[offset, offset + len)` would be taken from. -/
def covers (nodeId : String) (deviceIndex offset len : Nat) (r : FreeRange) : Bool :=
  r.sameDevice nodeId deviceIndex && r.offset ≤ offset && u64 (offset + len) ≤ r.end_

/-- Removes `[offset, offset + len)` from the free list if it lies inside one free range. -/
def reserve (f : FreeList) (nodeId : String) (deviceIndex offset len : Nat) : FreeList :=
  if len = 0 then f else
  match f.ranges.findIdx? (covers nodeId deviceIndex offset len) with
  | none => f
  | some pos =>
    match f.ranges[pos]? with
    | none => f
    | some r =>
      let left := if offset > r.offset then [{ r with len := offset - r.offset }] else []
      let stop := u64 (offset + len)
      let right := if stop < r.end_ then [{ r with offset := stop, len := r.end_ - stop }] else []
      ⟨f.ranges.take pos ++ left ++ right ++ f.ranges.drop (pos + 1)⟩

/-- Returns `[offset, offset + len)` to the free list; overlap with a free range is a double free
and is rejected. -/
def release (f : FreeList) (nodeId : String) (deviceIndex offset len : Nat) :
    Except String FreeList :=
  if len = 0 then .ok f else
  let new : FreeRange := ⟨nodeId, deviceIndex, offset, len⟩
  -- the two sides of the insertion point
  let before := f.ranges.takeWhile (·.keyLt new)
  let after := f.ranges.dropWhile (·.keyLt new)
  if before.getLast?.any (fun prev => prev.sameDevice nodeId deviceIndex && offset < prev.end_) then
    .error s!"double free on {nodeId}/{deviceIndex} at {offset}+{len}"
  else if after.head?.any (fun next =>
      next.sameDevice nodeId deviceIndex && next.offset < new.end_) then
    .error s!"double free on {nodeId}/{deviceIndex} at {offset}+{len}"
  else
    let (cur, after) := match after with
      | next :: rest =>
        if next.sameDevice nodeId deviceIndex && new.end_ = next.offset then
          ({ new with len := u64 (new.len + next.len) }, rest)
        else (new, next :: rest)
      | [] => (new, [])
    match before.getLast? with
    | some prev =>
      if prev.sameDevice nodeId deviceIndex && prev.end_ = cur.offset then
        .ok ⟨before.dropLast ++ { prev with len := u64 (prev.len + cur.len) } :: after⟩
      else .ok ⟨before ++ cur :: after⟩
    | none => .ok ⟨cur :: after⟩

end FreeList

end AtlasNative
