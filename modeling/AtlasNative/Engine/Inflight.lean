import AtlasNative.Catalog.Accounting

/-!
# Placements in flight

A placement writes into free device ranges before the command that installs them commits. All
placements of an engine draw from one view: the applied free list without the ranges that leases
hold and without those of commits with an unknown outcome, which stay in quarantine for a while.
The view is kept between calls and rebuilt once it is a second old.
-/

namespace AtlasNative

/-- Time on the engine's monotonic clock, in nanoseconds. -/
abbrev Instant := Nat

/-! ### How a commit fails -/

/-- `RaftError`, as the callers of the server see it. -/
inductive ServerError where
  | io | json | wal
  | notLeader (leader : Option NodeId)
  | rejected (e : MetaError)
  | config (why : String)
  | inconsistent (why : String)
  | leadershipLost (index : Nat)
  | timeout (index : Nat)
  | shutdown
  | termChanged (expected current : Nat)
  | membershipBusy
deriving DecidableEq, Repr

inductive NativeError where
  | io | metadataJson | wal
  | metadata (e : MetaError)
  | raft (e : ServerError)
  | notFound (what : String)
  | insufficientReplicas (needed found : Nat)
  | checksum (extent : ExtentId)
  | poisoned (lock : String)
  | invalid (why : String)
  | fenced (current : Nat)
  | remote (why : String)
  | readOnly (why : String)
deriving DecidableEq, Repr

/-- The command may still apply. -/
def NativeError.unknown : NativeError → Bool
  | .raft (.timeout _) | .raft (.leadershipLost _) | .raft .shutdown | .raft .io | .raft .wal => true
  | _ => false

/-! ### The view and the leases -/

structure Inflight where
  /-- What is left to hand out, and when it was built. -/
  view : Option (FreeList × Instant) := none
  held : BTreeMap Nat (List FreeRange) := ∅
  /-- Ranges of commits with an unknown outcome, with the end of their quarantine. -/
  quarantine : List (Instant × FreeRange) := []
  next : Nat := 0

namespace Inflight

/-- How long a view is used, and how long a range stays in quarantine. -/
def refresh : Nat := 1000000000
def quarantineTime : Nat := 300 * 1000000000

/-- A new lease and its token. -/
def lease (s : Inflight) : Nat × Inflight :=
  (s.next + 1, { s with next := s.next + 1, held := s.held.insert (s.next + 1) [] })

/-- The ranges to keep out of the view. -/
def reserved (s : Inflight) : List FreeRange :=
  s.held.toList.flatMap Prod.snd ++ s.quarantine.map Prod.snd

/-- The view built anew from the applied free list. A range that is no longer free is passed over:
its commit has applied. -/
def rebuild (free : FreeList) (now : Instant) (s : Inflight) : Inflight :=
  let s := { s with quarantine := s.quarantine.filter fun (till, _) => now < till }
  let view := s.reserved.foldl
    (fun (view : FreeList) r => view.reserve r.nodeId r.deviceIndex r.offset r.len) free
  { s with view := some (view, now) }

/-- A view that is not too old, or else a new one. -/
def ready (free : FreeList) (now : Instant) (s : Inflight) : Inflight :=
  if s.view.any fun (_, since) => now - since < refresh then s else s.rebuild free now

/-- `Lease::take`: finds and holds `len` free bytes of a device. -/
def take (token : Nat) (nodeId : String) (deviceIndex len : Nat) (free : FreeList) (now : Instant)
    (s : Inflight) : Option Nat × Inflight :=
  let s := s.ready free now
  match s.view with
  | none => (none, s)
  | some (view, since) =>
    match view.find nodeId deviceIndex len with
    | none => (none, s)
    | some offset => (some offset, { s with
        view := some (view.reserve nodeId deviceIndex offset len, since)
        held := s.held.insert token
          ((s.held[token]?).getD [] ++ [⟨nodeId, deviceIndex, offset, len⟩]) })

/-- `Lease::settle`: the ranges of a commit that may still apply go into quarantine. -/
def settle (token : Nat) (e : NativeError) (now : Instant) (s : Inflight) : Inflight :=
  if e.unknown then
    { s with
      held := s.held.insert token []
      quarantine := s.quarantine ++
        ((s.held[token]?).getD []).map fun r => (now + quarantineTime, r) }
  else s

/-- The end of a lease. -/
def drop (token : Nat) (s : Inflight) : Inflight :=
  let held := s.held.erase token
  { s with
    held := held
    view := if held.isEmpty && s.quarantine.isEmpty then none else s.view }

end Inflight

/-! ### The engine -/

/-- The applied catalog, the placements in flight and the clock. -/
structure Engine (T C : Type) where
  catalog : Catalog.With T C
  inflight : Inflight := {}
  now : Instant := 0

namespace Engine

variable {T D C : Type} [Backend T D C]

inductive Event (T C : Type) where
  | lease
  | take (token : Nat) (nodeId : String) (deviceIndex len : Nat)
  | settle (token : Nat) (e : NativeError)
  | drop (token : Nat)
  /-- A committed command is applied, whichever leader proposed it. -/
  | apply (term index : Nat) (cmd : MetaCommand)
  /-- The catalog is replaced: by a leader's snapshot, or by what is on disk. -/
  | load (catalog : Catalog.With T C)
  | wait (time : Nat)

def take (token : Nat) (nodeId : String) (deviceIndex len : Nat) (e : Engine T C) :
    Option Nat × Engine T C :=
  let r := e.inflight.take token nodeId deviceIndex len e.catalog.1.free e.now
  (r.1, { e with inflight := r.2 })

def step (e : Engine T C) : Event T C → Engine T C
  | .lease => { e with inflight := e.inflight.lease.2 }
  | .take token nodeId deviceIndex len => (e.take token nodeId deviceIndex len).2
  | .settle token err => { e with inflight := e.inflight.settle token err e.now }
  | .drop token => { e with inflight := e.inflight.drop token }
  | .apply term index cmd =>
    { e with catalog := (Catalog.applyCommittedWith term index cmd e.catalog).2 }
  | .load catalog => { e with catalog := catalog }
  | .wait time => { e with now := e.now + time }

def run (e : Engine T C) (events : List (Event T C)) : Engine T C := events.foldl step e

end Engine

end AtlasNative
