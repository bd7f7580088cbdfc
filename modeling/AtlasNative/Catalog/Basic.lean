import AtlasNative.Program.TreeMap

/-!
# Errors, extents and their layout

The vocabulary every catalog command shares: identifiers, the errors a command is rejected with,
and the reference to an extent (a run of bytes stored on device ranges, as full copies or as the
shards of an erasure-coded layout).

Ordered maps and sets are `Std.ExtTreeMap` and `Std.ExtTreeSet`: two of them are equal when they
hold the same bindings, and `toList` lists them in key order, which for strings is byte order.
-/

namespace AtlasNative

abbrev BTreeMap (K V : Type) [Ord K] := Std.ExtTreeMap K V
abbrev BTreeSet (K : Type) [Ord K] := Std.ExtTreeSet K

abbrev VolumeId := String
abbrev SnapshotId := String
abbrev ExtentId := String
abbrev FsId := String
abbrev NodeId := String

/-- Unsigned 64-bit and 32-bit arithmetic wraps. -/
def u64 (n : Nat) : Nat := n % 2 ^ 64
def u32 (n : Nat) : Nat := n % 2 ^ 32

def u64Max : Nat := 2 ^ 64 - 1

/-- `u64::saturating_add`. -/
def satAdd (a b : Nat) : Nat := min (a + b) u64Max

/-- A string as the debug format prints it: quotes, backslashes and control characters escaped. -/
def debugStr (s : String) : String :=
  let esc : Char → String := fun c =>
    match c.toNat with
    | 0 => "\\0"
    | 9 => "\\t"
    | 10 => "\\n"
    | 13 => "\\r"
    | 34 | 92 => "\\" ++ String.singleton c
    | _ => String.singleton c
  let quote := String.singleton (Char.ofNat 34)
  quote ++ s.toList.foldl (fun acc c => acc ++ esc c) "" ++ quote

def debugOpt : Option String → String
  | none => "None"
  | some s => "Some(" ++ debugStr s ++ ")"

inductive MetaError where
  | notFound (what : String)
  | invalid (why : String)
  | exists (what : String)
  | notEmpty (what : String)
  | notDir (what : String)
  | isDir (what : String)
  | noAttr (what : String)
  | tooBig (why : String)
  | unsupported (what : String)
  | locked (why : String)
  | quota (why : String)
  | readOnly (why : String)
  | noSession
  | store (why : String)
deriving DecidableEq, Repr

/-- How a command ends other than by succeeding: rejected, a panic, or a loop that never ends. -/
inductive Fault where
  | err (e : MetaError)
  | panic (msg : String)
  | hang
deriving DecidableEq, Repr

/-! ### Erasure-coded layouts -/

def maxDataShards : Nat := 32
def maxParityShards : Nat := 8

structure EcScheme where
  data : Nat
  parity : Nat
deriving DecidableEq, Repr

namespace EcScheme

def new (data parity : Nat) : Except String EcScheme :=
  if ¬ (1 ≤ data ∧ data ≤ maxDataShards) ∨ ¬ (1 ≤ parity ∧ parity ≤ maxParityShards) then
    .error (s!"erasure scheme {data}+{parity}: data shards must be 1 to {maxDataShards}, " ++
      s!"parity shards 1 to {maxParityShards}")
  else .ok ⟨data, parity⟩

def shards (s : EcScheme) : Nat := s.data + s.parity

/-- Bytes per shard of an extent of `len` bytes: the codec works on an even byte count. -/
def shardLen (s : EcScheme) (len : Nat) : Nat :=
  let n := max ((len + s.data - 1) / s.data) 2
  u64 (n + n % 2)

def toStr (s : EcScheme) : String := s!"{s.data}+{s.parity}"

end EcScheme

structure EcLayout where
  data : Nat
  parity : Nat
  shardLen : Nat
  shardChecksums : List (List UInt8)
deriving DecidableEq, Repr

namespace EcLayout

def scheme (l : EcLayout) : Except MetaError EcScheme :=
  (EcScheme.new l.data l.parity).mapError .invalid

/-- Checks the layout against an extent of `len` bytes on `replicas` devices. -/
def check (l : EcLayout) (len replicas : Nat) : Except MetaError Unit := do
  let scheme ← l.scheme
  if replicas ≠ scheme.shards ∨ l.shardChecksums.length ≠ scheme.shards then
    throw (.invalid s!"a {scheme.toStr} extent needs {scheme.shards} shards and shard checksums")
  if l.shardLen ≠ scheme.shardLen len then
    throw (.invalid (s!"a {scheme.toStr} extent of {len} bytes has {scheme.shardLen len}-byte " ++
      s!"shards, not {l.shardLen}"))

end EcLayout

/-! ### Extents -/

/-- Where one copy (or shard) of an extent lies on a device. -/
structure ReplicaRef where
  nodeId : String
  deviceIndex : Nat
  offset : Nat
deriving DecidableEq, Repr

structure ExtentRef where
  id : ExtentId
  logicalOffset : Nat
  len : Nat
  checksum : List UInt8
  /-- Full copies; for an erasure-coded extent, shard `i` of `ec` is `replicas[i]`. -/
  replicas : List ReplicaRef
  ec : Option EcLayout
  createdMs : Nat
  /-- The object holding the whole extent once it is tiered; it then has no replicas. -/
  object : Option String
deriving DecidableEq, Repr

namespace ExtentRef

/-- Bytes each replica (or shard) takes on its device. -/
def storedLen (e : ExtentRef) : Nat := (e.ec.map EcLayout.shardLen).getD e.len

/-- Checks an extent about to be installed. -/
def check (e : ExtentRef) : Except MetaError Unit := do
  if e.object.isSome ∧ (e.replicas ≠ [] ∨ e.ec.isSome) then
    throw (.invalid s!"tiered extent {e.id} also lists replicas or shards")
  if let some ec := e.ec then
    ec.check e.len e.replicas.length
    -- the source sorts the node names and compares neighbours
    if ¬ (e.replicas.map ReplicaRef.nodeId).Nodup then
      throw (.invalid s!"extent {e.id} puts two shards on one node")

end ExtentRef

structure ExtentMeta where
  extent : ExtentRef
  refs : Nat
  tombstoned : Bool
deriving DecidableEq, Repr

structure VolumeMeta where
  id : VolumeId
  name : String
  sizeBytes : Nat
  extents : BTreeMap Nat ExtentId
deriving DecidableEq

structure SnapshotMeta where
  id : SnapshotId
  volumeId : VolumeId
  name : String
  sizeBytes : Nat
  extents : BTreeMap Nat ExtentId
deriving DecidableEq

end AtlasNative
