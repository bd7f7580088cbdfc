import AtlasNative.Catalog.Basic

/-!
# Client sessions and file locks

A session is a lease its client renews; the byte-range locks of a session go with it. Every time
arrives in the command, so every replica reaches the same state.
-/

namespace AtlasNative

def minTtlMs : Nat := 1000
def maxTtlMs : Nat := 300000
def maxSessions : Nat := 65536
def maxLocksPerSession : Nat := 4096
def maxSessionIdBytes : Nat := 128

structure Session where
  ttlMs : Nat
  /-- Leader time after which the session may be expired. -/
  expiresMs : Nat
  cache : Bool
  /-- Raft term the session was opened in. -/
  term : Nat
deriving DecidableEq, Repr

inductive LockKind where
  | read
  | write
deriving DecidableEq, Repr

def LockKind.debug : LockKind → String
  | .read => "Read"
  | .write => "Write"

/-- A held lock on `[start, end_]`, both inclusive. -/
structure FileLock where
  ino : Nat
  session : String
  owner : Nat
  kind : LockKind
  start : Nat
  end_ : Nat
  pid : Nat
deriving DecidableEq, Repr

namespace FileLock

def sameOwner (l : FileLock) (session : String) (owner : Nat) : Bool :=
  l.session = session && l.owner = owner

def overlaps (l : FileLock) (start end_ : Nat) : Bool := l.start ≤ end_ && start ≤ l.end_

def conflicts (l : FileLock) (session : String) (owner : Nat) (kind : LockKind)
    (start end_ : Nat) : Bool :=
  !l.sameOwner session owner && l.overlaps start end_ && (l.kind = .write || kind = .write)

/-- The order `relock` keeps a filesystem's locks in. -/
def keyLe (a b : FileLock) : Bool :=
  a.ino < b.ino || (a.ino = b.ino && (a.session < b.session || (a.session = b.session &&
    (a.owner < b.owner || (a.owner = b.owner && a.start ≤ b.start)))))

end FileLock

structure Leases where
  sessions : BTreeMap String Session := ∅
  /-- Held locks per filesystem. -/
  locks : BTreeMap FsId (List FileLock) := ∅
deriving DecidableEq

inductive LeaseOp where
  | openSession (session : String) (ttlMs nowMs : Nat) (cache : Bool)
  | renew (session : String) (nowMs : Nat)
  | close (session : String)
  | expire (nowMs : Nat)
  | lock (fs : FsId) (ino : Nat) (session : String) (owner : Nat) (kind : Option LockKind)
      (start end_ pid nowMs : Nat)
  | releaseOwner (fs : FsId) (ino : Nat) (session : String) (owner : Nat)
deriving DecidableEq, Repr

/-- One held lock of the owner on `ino` while the new lock `n` (if any) is set over
`[start, end_]`: what is left of it, and the new lock grown by it. -/
def relockOne (start end_ : Nat) (l : FileLock) (n : Option FileLock) :
    List FileLock × Option FileLock :=
  let touches := l.overlaps start end_ || (l.end_ + 1 = start && l.end_ < u64Max) ||
    (end_ + 1 = l.start && end_ < u64Max)
  if !touches then ([l], n)
  else match n.filter (·.kind = l.kind) with
    | some m => ([], some { m with start := min m.start l.start, end_ := max m.end_ l.end_ })
    | none =>
      if !l.overlaps start end_ then ([l], n)
      else
        ((if l.start < start then [{ l with end_ := start - 1 }] else []) ++
          (if end_ < l.end_ then [{ l with start := end_ + 1 }] else []), n)

/-- `held` after the owner sets `kind` (or unlocks) over `[start, end_]` of `ino`. -/
def relock (held : List FileLock) (ino : Nat) (session : String) (owner : Nat)
    (kind : Option LockKind) (start end_ pid : Nat) : List FileLock :=
  let new := kind.map fun kind => (⟨ino, session, owner, kind, start, end_, pid⟩ : FileLock)
  let (out, new) := held.foldl (fun (acc : List FileLock × Option FileLock) l =>
      if l.ino ≠ ino ∨ !l.sameOwner session owner then (acc.1 ++ [l], acc.2)
      else
        let (kept, n) := relockOne start end_ l acc.2
        (acc.1 ++ kept, n)) ([], new)
  (out ++ new.toList).insertionSort (fun a b => FileLock.keyLe a b)

namespace Leases

/-- Drops every lock on a deleted filesystem. -/
def forgetFs (l : Leases) (fs : FsId) : Leases := { l with locks := l.locks.erase fs }

/-- The first lock that would block `kind` over `[start, end_]` for the owner. -/
def conflict (l : Leases) (fs : FsId) (ino : Nat) (session : String) (owner : Nat)
    (kind : LockKind) (start end_ : Nat) : Option FileLock :=
  ((l.locks[fs]?.getD []).filter (·.ino = ino)).find? (·.conflicts session owner kind start end_)

/-- Sessions whose lease ran out by `nowMs`. -/
def expired (l : Leases) (nowMs : Nat) : List String :=
  (l.sessions.toList.filter fun s => s.2.expiresMs ≤ nowMs).map Prod.fst

def dropSessions (l : Leases) (gone : List String) : Leases :=
  if gone.isEmpty then l else
  { sessions := gone.foldl (·.erase ·) l.sessions
    locks := (l.locks.map fun _ locks => locks.filter fun k => !gone.contains k.session).filter
      fun _ locks => !locks.isEmpty }

def checkHolderName (session : String) : Except MetaError Unit :=
  if session.isEmpty ∨ maxSessionIdBytes < session.utf8ByteSize then
    .error (.invalid s!"session ids are 1 to {maxSessionIdBytes} bytes")
  else .ok ()

/-- How many locks `session` would hold, were `next` the locks on `fs`. -/
def heldBy (l : Leases) (session : String) (fs : FsId) (next : List FileLock) : Nat :=
  next.countP (·.session = session) +
    ((l.locks.toList.filter (·.1 ≠ fs)).flatMap Prod.snd).countP (·.session = session)

variable {σ : Type}

def sessionOf (l : Leases) (session : String) : EStateM Fault σ Session :=
  match l.sessions[session]? with
  | some s => pure s
  | none => throw (.err .noSession)

/-- `LeaseOp::Lock`. -/
def applyLock (l : Leases) (fs : FsId) (ino : Nat) (session : String) (owner : Nat)
    (kind : Option LockKind) (start end_ pid nowMs : Nat)
    (file : FsId → Nat → EStateM Fault σ Unit) : EStateM Fault σ Leases := do
  if end_ < start then
    throw (.err (.invalid s!"lock range starts at {start} after its end {end_}"))
  let s ← l.sessionOf session
  file fs ino
  match kind.bind fun k => l.conflict fs ino session owner k start end_ with
  | some held => throw (.err (.locked (s!"bytes {held.start}..={held.end_} of inode {ino} are " ++
      s!"{held.kind.debug}-locked by another owner")))
  | none =>
    let next := relock (l.locks[fs]?.getD []) ino session owner kind start end_ pid
    if maxLocksPerSession < l.heldBy session fs next then
      throw (.err (.tooBig s!"a session would hold more than {maxLocksPerSession} locks"))
    let s := { s with expiresMs := max s.expiresMs (satAdd nowMs s.ttlMs) }
    pure
      { sessions := l.sessions.insert session s
        locks := if next.isEmpty then l.locks.erase fs else l.locks.insert fs next }

/-- Applies `op` (committed in `term`), checking every input before changing anything. `file` says
whether an inode is a regular file. -/
def apply (l : Leases) (op : LeaseOp) (term : Nat) (file : FsId → Nat → EStateM Fault σ Unit) :
    EStateM Fault σ Leases :=
  match op with
  | .openSession session ttlMs nowMs cache => do
    match checkHolderName session with
    | .error e => throw (.err e)
    | .ok () =>
      if ¬ (minTtlMs ≤ ttlMs ∧ ttlMs ≤ maxTtlMs) then
        throw (.err (.invalid s!"session ttl_ms must be between {minTtlMs} and {maxTtlMs}"))
      if !l.sessions.contains session ∧ maxSessions ≤ l.sessions.size then
        throw (.err (.tooBig s!"more than {maxSessions} sessions"))
      -- reopening keeps the first term: leases from then may still be held
      let term := (l.sessions[session]?.map Session.term).getD term
      pure { l with sessions := l.sessions.insert session ⟨ttlMs, satAdd nowMs ttlMs, cache, term⟩ }
  | .renew session nowMs => do
    let s ← l.sessionOf session
    let s := { s with expiresMs := max s.expiresMs (satAdd nowMs s.ttlMs) }
    pure { l with sessions := l.sessions.insert session s }
  | .close session =>
    pure (if l.sessions.contains session then l.dropSessions [session] else l)
  | .expire nowMs => pure (l.dropSessions (l.expired nowMs))
  | .lock fs ino session owner kind start end_ pid nowMs =>
    l.applyLock fs ino session owner kind start end_ pid nowMs file
  | .releaseOwner fs ino session owner =>
    match l.locks[fs]? with
    | none => pure l
    | some locks =>
      let locks := locks.filter fun k => !(k.ino = ino && k.sameOwner session owner)
      pure { l with locks := if locks.isEmpty then l.locks.erase fs else l.locks.insert fs locks }

end Leases

end AtlasNative
