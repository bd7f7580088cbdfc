import AtlasNative.Catalog.Basic

/-!
# POSIX ACLs in the Linux xattr encoding

A 4-byte version and 8-byte entries (tag, permissions, id), little-endian. The namespace keeps a
file's mode and its access ACL in sync and applies a directory's default ACL to what is created
in it.
-/

namespace AtlasNative

abbrev Bytes := List UInt8

instance : LawfulBEq Bytes := inferInstance

/-- The number whose little-endian bytes these are. -/
def ofLeBytes : Bytes → Nat
  | [] => 0
  | b :: bs => b.toNat + 256 * ofLeBytes bs

/-- The `k` low bytes of `n`, little-endian. -/
def toLeBytes : Nat → Nat → Bytes
  | 0, _ => []
  | k + 1, n => UInt8.ofNat n :: toLeBytes k (n / 256)

namespace Acl

def access : String := "system.posix_acl_access"
def default : String := "system.posix_acl_default"

def version : Nat := 2
def userObj : Nat := 0x01
def user : Nat := 0x02
def groupObj : Nat := 0x04
def group : Nat := 0x08
def mask : Nat := 0x10
def other : Nat := 0x20
def undefinedId : Nat := 2 ^ 32 - 1
def maxEntries : Nat := 1024

structure Entry where
  tag : Nat
  perm : Nat
  id : Nat
deriving DecidableEq, Repr

def invalid (why : String) : MetaError := .invalid s!"invalid POSIX ACL: {why}"

/-- The 8-byte entries of an encoding, an incomplete last one dropped. -/
def entriesOf : Bytes → List Entry
  | t₀ :: t₁ :: p₀ :: p₁ :: i₀ :: i₁ :: i₂ :: i₃ :: rest =>
    ⟨ofLeBytes [t₀, t₁], ofLeBytes [p₀, p₁], ofLeBytes [i₀, i₁, i₂, i₃]⟩ :: entriesOf rest
  | _ => []

/-- How many entries of each kind have been seen, and the last one's sort key. -/
structure Seen where
  prev : Option (Nat × Nat) := none
  userObj : Nat := 0
  groupObj : Nat := 0
  other : Nat := 0
  mask : Nat := 0
  named : Nat := 0

def keyLe (a b : Nat × Nat) : Bool := a.1 < b.1 || (a.1 = b.1 && a.2 ≤ b.2)

def checkEntry (s : Seen) (e : Entry) : Except MetaError Seen := do
  if 7 < e.perm then throw (invalid "permission bits other than rwx")
  let s ←
    if e.tag = Acl.userObj then pure { s with userObj := s.userObj + 1 }
    else if e.tag = Acl.groupObj then pure { s with groupObj := s.groupObj + 1 }
    else if e.tag = Acl.other then pure { s with other := s.other + 1 }
    else if e.tag = Acl.mask then pure { s with mask := s.mask + 1 }
    else if e.tag = Acl.user ∨ e.tag = Acl.group then
      if e.id = undefinedId then throw (invalid "named entry without an id")
      else pure { s with named := s.named + 1 }
    else throw (invalid "unknown tag")
  let key := (e.tag, if e.tag = Acl.user ∨ e.tag = Acl.group then e.id else 0)
  if s.prev.any (fun p => keyLe key p) then
    throw (invalid "entries out of order or duplicated")
  pure { s with prev := some key }

/-- Parses and validates the xattr encoding. -/
def parse (value : Bytes) : Except MetaError (List Entry) := do
  if value.length < 4 ∨ (value.length - 4) % 8 ≠ 0 then throw (invalid "bad length")
  if ofLeBytes (value.take 4) ≠ version then throw (invalid "unsupported version")
  if maxEntries < (value.length - 4) / 8 then throw (invalid "too many entries")
  let entries := entriesOf (value.drop 4)
  let s ← entries.foldlM checkEntry {}
  if (s.userObj, s.groupObj, s.other) ≠ (1, 1, 1) ∨ 1 < s.mask ∨ (0 < s.named ∧ s.mask = 0) then
    throw (invalid
      "needs exactly one owner, group and other entry, and a mask with named entries")
  pure entries

def encode (acl : List Entry) : Bytes :=
  toLeBytes 4 version ++
    acl.flatMap fun e => toLeBytes 2 e.tag ++ toLeBytes 2 e.perm ++ toLeBytes 4 e.id

def perm (acl : List Entry) (tag : Nat) : Option Nat :=
  (acl.find? (·.tag = tag)).map Entry.perm

/-- Sets the permissions of the first entry with `tag`. -/
def setPerm (acl : List Entry) (tag p : Nat) : List Entry :=
  match acl with
  | [] => []
  | e :: es => if e.tag = tag then { e with perm := p &&& 7 } :: es else e :: setPerm es tag p

/-- The tag whose permissions the mode's group bits mirror: the mask if there is one. -/
def groupTag (acl : List Entry) : Nat := if (perm acl mask).isSome then mask else groupObj

/-- Whether the ACL says no more than the mode bits. -/
def isMinimal (acl : List Entry) : Bool := acl.length = 3

/-- `mode` with its permission bits taken from the ACL. -/
def applyToMode (acl : List Entry) (mode : Nat) : Nat :=
  let p := fun tag => (perm acl tag).getD 0
  (mode &&& (0xFFFFFFFF - 0o777)) ||| (p userObj <<< 6) ||| (p (groupTag acl) <<< 3) ||| p other

def chmod (acl : List Entry) (mode : Nat) : List Entry :=
  let acl := setPerm acl userObj (mode >>> 6)
  let acl := setPerm acl (groupTag acl) (mode >>> 3)
  setPerm acl other mode

/-- The access ACL and mode of a node created under a directory with this default ACL. -/
def createMasq (acl : List Entry) (mode : Nat) : List Entry × Nat :=
  let step := fun (acl : List Entry) (ts : Nat × Nat) =>
    setPerm acl ts.1 ((perm acl ts.1).getD 0 &&& (mode >>> ts.2))
  let acl := [(userObj, 6), (groupTag acl, 3), (other, 0)].foldl step acl
  (acl, applyToMode acl mode)

end Acl

end AtlasNative
