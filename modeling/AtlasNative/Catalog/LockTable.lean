import AtlasNative.Catalog.Relock
import AtlasNative.Program.Keeps

/-!
# The lock table

What holds of every table of sessions and byte-range locks that lease operations reach.
-/

namespace AtlasNative

open List Std.ExtTreeMap

/-- The end of a range is a 64-bit number. -/
def LeaseOp.Fits : LeaseOp → Prop
  | .lock _ _ _ _ _ _ end_ _ _ => end_ ≤ u64Max
  | _ => True

namespace Leases

open Relock

variable {l l' : Leases} {fs : FsId} {next : List FileLock}

/-- The locks a session holds, on all filesystems. -/
def lockCount (l : Leases) (session : String) : Nat :=
  (l.locks.toList.flatMap Prod.snd).countP (·.session = session)

structure Inv (l : Leases) : Prop where
  orderly : ∀ (fs : FsId) ls, l.locks[fs]? = some ls → Orderly ls
  nonempty : ∀ (fs : FsId) ls, l.locks[fs]? = some ls → ls ≠ []
  opened : ∀ (fs : FsId) ls, l.locks[fs]? = some ls → ∀ k ∈ ls, k.session ∈ l.sessions
  few : ∀ session, l.lockCount session ≤ maxLocksPerSession
  size : l.sessions.size ≤ maxSessions

/-- The locks of one filesystem replaced. -/
def setLocks (l : Leases) (fs : FsId) (next : List FileLock) : BTreeMap FsId (List FileLock) :=
  if next.isEmpty then l.locks.erase fs else l.locks.insert fs next

theorem setLocks_cases {fs' : FsId} {ls : List FileLock} (h : (l.setLocks fs next)[fs']? = some ls) :
    fs' = fs ∧ ls = next ∧ next ≠ [] ∨ l.locks[fs']? = some ls := by
  unfold setLocks at h
  split at h
  · exact .inr (Program.getElem?_of_erase h)
  · rename_i hne
    rcases Program.getElem?_of_insert h with ⟨hk, hv⟩ | h
    · exact .inl ⟨hk, hv, by simpa using hne⟩
    · exact .inr h

theorem lockCount_setLocks (session : String) (sessions : BTreeMap String Session) :
    lockCount ⟨sessions, l.setLocks fs next⟩ session = l.heldBy session fs next := by
  unfold lockCount heldBy setLocks
  split
  · rename_i hempty
    rw [isEmpty_iff.mp hempty, countP_nil, zero_add]
    exact (Program.toList_erase_perm.flatMap_right _).countP_eq _
  · rw [(Program.toList_insert_perm.flatMap_right _).countP_eq _, flatMap_cons, countP_append]

theorem lockCount_eq (session : String) (fs : FsId) :
    l.lockCount session = l.heldBy session fs (l.locks[fs]?.getD []) := by
  unfold lockCount heldBy
  cases hls : l.locks[fs]? with
  | none =>
    rw [Program.toList_filter_of_none hls, Option.getD_none, countP_nil, zero_add]
  | some ls =>
    rw [((Program.toList_perm_of_some hls).flatMap_right _).countP_eq _, flatMap_cons, countP_append, Option.getD_some]

theorem Inv.setLocks {sessions : BTreeMap String Session} (h : l.Inv) (hnext : Orderly next)
    (hopened : ∀ k ∈ next, k.session ∈ sessions)
    (hsessions : ∀ s ∈ l.sessions, s ∈ sessions) (hsize : sessions.size ≤ maxSessions)
    (hfew : ∀ session, l.heldBy session fs next ≤ maxLocksPerSession) :
    Inv ⟨sessions, l.setLocks fs next⟩ := by
  refine ⟨fun fs' ls hls => ?_, fun fs' ls hls => ?_, fun fs' ls hls k hk => ?_, fun session => ?_, hsize⟩
  · rcases setLocks_cases hls with ⟨-, rfl, -⟩ | hls
    · exact hnext
    · exact h.orderly fs' ls hls
  · rcases setLocks_cases hls with ⟨-, rfl, hne⟩ | hls
    · exact hne
    · exact h.nonempty fs' ls hls
  · rcases setLocks_cases hls with ⟨-, rfl, -⟩ | hls
    · exact hopened k hk
    · exact hsessions _ (h.opened fs' ls hls k hk)
  · rw [lockCount_setLocks]
    exact hfew session

theorem Inv.sessions {sessions : BTreeMap String Session} (h : l.Inv)
    (hsessions : ∀ s ∈ l.sessions, s ∈ sessions) (hsize : sessions.size ≤ maxSessions) :
    Inv { l with sessions := sessions } :=
  ⟨h.orderly, h.nonempty, fun fs ls hls k hk => hsessions _ (h.opened fs ls hls k hk), h.few, hsize⟩

theorem mem_eraseAll {m : BTreeMap String Session} {s : String} {gone : List String} (hs : s ∈ m)
    (hgone : s ∉ gone) : s ∈ gone.foldl (·.erase ·) m := by
  induction gone generalizing m with
  | nil => exact hs
  | cons g gone ih =>
    rw [mem_cons, not_or] at hgone
    refine ih ?_ hgone.2
    rw [mem_erase]
    exact ⟨fun heq => hgone.1 (Std.compare_eq_iff_eq.mp heq).symm, hs⟩

theorem size_eraseAll {m : BTreeMap String Session} (gone : List String) :
    (gone.foldl (·.erase ·) m).size ≤ m.size := by
  induction gone generalizing m with
  | nil => exact le_rfl
  | cons g gone ih => exact ih.trans size_erase_le

theorem Inv.dropSessions (h : l.Inv) (gone : List String) : (l.dropSessions gone).Inv := by
  unfold Leases.dropSessions
  split
  · exact h
  have hget : ∀ (fs : FsId) ls, ((l.locks.map fun _ locks => locks.filter fun k =>
      !gone.contains k.session).filter fun _ locks => !locks.isEmpty)[fs]? = some ls →
      ∃ ls0, l.locks[fs]? = some ls0 ∧ ls = ls0.filter (fun k => !gone.contains k.session) ∧ ls ≠ [] := by
    intro fs ls hls
    rw [Std.ExtTreeMap.getElem?_filter', Std.ExtTreeMap.getElem?_map] at hls
    obtain ⟨hls, hne⟩ := Option.filter_eq_some_iff.mp hls
    obtain ⟨ls0, hls0, rfl⟩ := Option.map_eq_some_iff.mp hls
    exact ⟨ls0, hls0, rfl, by simpa using hne⟩
  refine ⟨fun fs ls hls => ?_, fun fs ls hls => ?_, fun fs ls hls k hk => ?_, fun session => ?_, ?_⟩
  · obtain ⟨ls0, hls0, rfl, -⟩ := hget fs ls hls
    exact (h.orderly fs ls0 hls0).filter _
  · exact (hget fs ls hls).choose_spec.2.2
  · obtain ⟨ls0, hls0, rfl, -⟩ := hget fs ls hls
    obtain ⟨hk, hgone⟩ := mem_filter.mp hk
    exact mem_eraseAll (h.opened fs ls0 hls0 k hk) (by simpa using hgone)
  · refine le_trans (List.Sublist.countP_le ?_) (h.few session)
    rw [toList_filter, toList_map]
    refine (filter_sublist.flatMap _).trans ?_
    rw [flatMap_map]
    induction l.locks.toList with
    | nil => exact .slnil
    | cons p ps ih => exact filter_sublist.append ih
  · exact (size_eraseAll gone).trans h.size

theorem Inv.filterLocks {ls : List FileLock} (h : l.Inv) (hls : l.locks[fs]? = some ls)
    (f : FileLock → Bool) : Inv ⟨l.sessions, l.setLocks fs (ls.filter f)⟩ := by
  refine h.setLocks ((h.orderly fs ls hls).filter f) (fun k hk => ?_) (fun _ hs => hs) h.size fun session => ?_
  · exact h.opened fs ls hls k (mem_of_mem_filter hk)
  · refine le_trans ?_ (h.few session)
    rw [lockCount_eq session fs, hls]
    exact Nat.add_le_add_right filter_sublist.countP_le _

theorem Inv.orderly_getD (h : l.Inv) (fs : FsId) : Orderly (l.locks[fs]?.getD []) := by
  cases hls : l.locks[fs]? with
  | none => exact orderly_nil
  | some ls => exact h.orderly fs ls hls

variable {ino owner start end_ pid : Nat} {session : String} {kind : Option LockKind}

/-- Setting or clearing a range, if nobody else holds it and the session may hold as many. -/
theorem Inv.relock {s : Session} (h : l.Inv) (hsession : session ∈ l.sessions)
    (hrange : start ≤ end_) (hend : end_ ≤ u64Max)
    (hconf : ∀ k, kind = some k → l.conflict fs ino session owner k start end_ = none)
    (hfew : l.heldBy session fs (AtlasNative.relock (l.locks[fs]?.getD []) ino session owner kind
      start end_ pid) ≤ maxLocksPerSession) :
    Inv ⟨l.sessions.insert session s, l.setLocks fs (AtlasNative.relock (l.locks[fs]?.getD []) ino
      session owner kind start end_ pid)⟩ := by
  have hheld := h.orderly_getD fs
  have hmem : ∀ x ∈ l.locks[fs]?.getD [], x.session ∈ l.sessions := by
    intro x hx
    cases hls : l.locks[fs]? with
    | none => simp [hls] at hx
    | some ls => exact h.opened fs ls hls x (by simpa [hls] using hx)
  have hinsert : ∀ x ∈ l.sessions, x ∈ l.sessions.insert session s := fun x hx => by
    rw [mem_insert]
    exact .inr hx
  refine h.setLocks (hheld.relock hrange hend fun k hk x hx hino => ?_) (fun k hk => ?_) hinsert ?_ fun other => ?_
  · have hnone := find?_eq_none.mp (hconf k hk) x (mem_filter.mpr ⟨hx, by simpa using hino⟩)
    simpa using hnone
  · rcases relock_sessions hheld.valid hrange hend hk with heq | ⟨x, hx, heq⟩
    · exact hinsert _ (heq ▸ hsession)
    · exact hinsert _ (heq ▸ hmem x hx)
  · rw [size_insert, if_pos (contains_iff_mem.mpr hsession)]
    exact h.size
  · by_cases heq : other = session
    · exact heq ▸ hfew
    · refine le_trans ?_ (h.few other)
      rw [lockCount_eq other fs]
      exact Nat.add_le_add_right (relock_others hheld.valid hrange hend heq).le _

variable {σ : Type} {s : σ}

theorem sessionOf_ok {x : Session} {t : σ} (h : l.sessionOf session s = .ok x t) : session ∈ l.sessions := by
  unfold sessionOf at h
  cases hs : l.sessions[session]? with
  | none =>
    rw [hs] at h
    cases h
  | some x => exact mem_iff_isSome_getElem?.mpr (by rw [hs]; rfl)

variable {file : FsId → Nat → EStateM Fault σ Unit} {s' : σ}

theorem applyLock_ok {nowMs : Nat}
    (hrun : l.applyLock fs ino session owner kind start end_ pid nowMs file s = .ok l' s') :
    start ≤ end_ ∧ session ∈ l.sessions ∧ (∀ k, kind = some k → l.conflict fs ino session owner k start end_ = none) ∧
      ∃ next x, next = relock (l.locks[fs]?.getD []) ino session owner kind start end_ pid ∧
        l.heldBy session fs next ≤ maxLocksPerSession ∧
        l' = ⟨l.sessions.insert session x, l.setLocks fs next⟩ := by
  unfold Leases.applyLock at hrun
  by_cases hrange : end_ < start
  · rw [if_pos hrange] at hrun
    cases hrun
  rw [if_neg hrange] at hrun
  obtain ⟨x, t, hx, hrun⟩ := Program.exists_of_bind_ok hrun
  obtain ⟨-, t', -, hrun⟩ := Program.exists_of_bind_ok hrun
  cases hconf : kind.bind fun k => l.conflict fs ino session owner k start end_ with
  | some held =>
    rw [hconf] at hrun
    cases hrun
  | none =>
    rw [hconf] at hrun
    dsimp only at hrun
    split at hrun
    · cases hrun
    · cases hrun
      refine ⟨by omega, sessionOf_ok hx, fun k hk => ?_, _, _, rfl, by omega, rfl⟩
      rw [hk] at hconf
      exact hconf

theorem Inv.applyLock {nowMs : Nat} (h : l.Inv) (hend : end_ ≤ u64Max)
    (hrun : l.applyLock fs ino session owner kind start end_ pid nowMs file s = .ok l' s') :
    l'.Inv := by
  obtain ⟨hrange, hsession, hconf, _, _, rfl, hfew, rfl⟩ := applyLock_ok hrun
  exact h.relock hsession hrange hend hconf hfew

theorem Inv.apply {op : LeaseOp} {term : Nat} (h : l.Inv) (hop : op.Fits)
    (hrun : l.apply op term file s = .ok l' s') : l'.Inv := by
  cases op with
  | openSession session ttlMs nowMs cache =>
    unfold Leases.apply at hrun
    dsimp only at hrun
    cases hname : checkHolderName session with
    | error e =>
      rw [hname] at hrun
      cases hrun
    | ok =>
    rw [hname] at hrun
    dsimp only at hrun
    split at hrun
    · cases hrun
    split at hrun
    · cases hrun
    rename_i hroom
    cases hrun
    refine h.sessions (fun x hx => ?_) ?_
    · rw [mem_insert]
      exact .inr hx
    · rw [size_insert]
      have hsize := h.size
      split
      · exact hsize
      · rename_i hnew
        have hlt : ¬ maxSessions ≤ l.sessions.size :=
          fun hle => hroom ⟨Bool.not_eq_true' _ ▸ Bool.eq_false_iff.mpr hnew, hle⟩
        omega
  | renew session nowMs =>
    obtain ⟨x, t, hx, hrun⟩ := Program.exists_of_bind_ok hrun
    cases hrun
    refine h.sessions (fun y hy => ?_) ?_
    · rw [mem_insert]
      exact .inr hy
    · rw [size_insert, if_pos (contains_iff_mem.mpr (sessionOf_ok hx))]
      exact h.size
  | close session =>
    cases hrun
    split
    · exact h.dropSessions _
    · exact h
  | expire nowMs =>
    cases hrun
    exact h.dropSessions _
  | lock fs ino session owner kind start end_ pid nowMs => exact h.applyLock hop hrun
  | releaseOwner fs ino session owner =>
    cases hls : l.locks[fs]? with
    | none =>
      unfold Leases.apply at hrun
      dsimp only at hrun
      rw [hls] at hrun
      cases hrun
      exact h
    | some ls =>
      unfold Leases.apply at hrun
      dsimp only at hrun
      rw [hls] at hrun
      cases hrun
      exact h.filterLocks hls _

theorem Inv.forgetFs (h : l.Inv) (fs : FsId) : (l.forgetFs fs).Inv := by
  have hset : Inv ⟨l.sessions, l.setLocks fs []⟩ := by
    refine h.setLocks orderly_nil nofun (fun _ hs => hs) h.size fun session => ?_
    refine le_trans ?_ (h.few session)
    rw [lockCount_eq session fs]
    exact Nat.add_le_add_right (Nat.zero_le _) _
  exact hset

/-- The tables that lease operations reach from the empty one; a rejected operation changes nothing.
Deleting a filesystem drops its locks. -/
inductive Reachable : Leases → Prop
  | init : Reachable {}
  | apply {σ : Type} {l l' : Leases} {op : LeaseOp} {term : Nat}
      {file : FsId → Nat → EStateM Fault σ Unit} {s s' : σ} :
      Reachable l → op.Fits → l.apply op term file s = .ok l' s' → Reachable l'
  | forgetFs {l : Leases} (fs : FsId) : Reachable l → Reachable (l.forgetFs fs)

theorem Reachable.inv (h : Reachable l) : l.Inv := by
  induction h with
  | init =>
    refine ⟨fun fs ls hls => ?_, fun fs ls hls => ?_, fun fs ls hls => ?_, fun session => ?_, ?_⟩
    · simp at hls
    · simp at hls
    · simp at hls
    · exact Nat.zero_le _
    · simp
  | apply _ hop hrun ih => exact ih.apply hop hrun
  | forgetFs fs _ ih => exact ih.forgetFs fs

/-- What the lock table promises. -/
structure Sound (l : Leases) : Prop where
  /-- A range that is locked for writing is locked by one owner. -/
  exclusive : ∀ (fs : FsId) ls, l.locks[fs]? = some ls → ls.Pairwise fun a b =>
    a.ino = b.ino → a.sameOwner b.session b.owner = false → a.kind = .write ∨ b.kind = .write →
    a.overlaps b.start b.end_ = false
  opened : ∀ (fs : FsId) ls, l.locks[fs]? = some ls → ∀ k ∈ ls, k.session ∈ l.sessions
  /-- An owner's ranges are in order, disjoint, and next to each other only if of two kinds. -/
  sorted : ∀ (fs : FsId) ls, l.locks[fs]? = some ls → ls.Pairwise fun a b =>
    a.ino = b.ino → a.sameOwner b.session b.owner = true →
    a.end_ < b.start ∧ (a.kind = b.kind → a.end_ + 1 < b.start)
  range : ∀ (fs : FsId) ls, l.locks[fs]? = some ls → ∀ k ∈ ls, k.start ≤ k.end_ ∧ k.end_ ≤ u64Max
  nonempty : ∀ (fs : FsId) ls, l.locks[fs]? = some ls → ls ≠ []
  few : ∀ session, l.lockCount session ≤ maxLocksPerSession
  size : l.sessions.size ≤ maxSessions

theorem lock_table_sound (h : Reachable l) : l.Sound := by
  have hinv := h.inv
  refine ⟨fun fs ls hls => ?_, hinv.opened, fun fs ls hls => ?_, fun fs ls hls => ?_, hinv.nonempty,
    hinv.few, hinv.size⟩
  · refine (hinv.orderly fs ls hls).compatible.imp fun {a b} hab hino hsame hwrite => ?_
    have hdiff : ¬ a.SameHolder b := fun hs => by
      rw [FileLock.sameOwner, decide_eq_true hs.1, decide_eq_true hs.2] at hsame
      cases hsame
    have hnot : ¬ (a.kind = .read ∧ b.kind = .read) := by
      rintro ⟨ha, hb⟩
      rcases hwrite with hw | hw
      · cases ha.symm.trans hw
      · cases hb.symm.trans hw
    simp only [FileLock.overlaps, Bool.and_eq_false_iff, decide_eq_false_iff_not]
    rcases (hab hino).2 hdiff with h' | h' | h'
    · exact .inr (by omega)
    · exact .inl (by omega)
    · exact absurd h' hnot
  · obtain ⟨hvalid, hcompat, hsorted⟩ := hinv.orderly fs ls hls
    refine (hcompat.and hsorted).imp_of_mem fun {a b} ha hb hab hino hsame => ?_
    simp only [FileLock.sameOwner, Bool.and_eq_true, decide_eq_true_eq] at hsame
    obtain ⟨hdisj, hgap⟩ := (hab.1 hino).1 hsame
    -- in the order of the list, so in the order of their starts
    have hle : a.start ≤ b.start := by
      have hkey := hab.2
      simp only [FileLock.keyLe, Bool.or_eq_true, Bool.and_eq_true, decide_eq_true_eq, hino,
        hsame.1, hsame.2, lt_irrefl, false_or, true_and] at hkey
      exact hkey
    have hvb := (hvalid b hb).1
    refine ⟨by omega, fun hk => ?_⟩
    have := hgap hk
    omega
  · exact (hinv.orderly fs ls hls).valid

/-- The table after an operation on a regular file, rejected or not. -/
def after (l : Leases) (op : LeaseOp) : Leases :=
  match l.apply op 1 (fun _ _ => pure ()) () with
  | .ok l' () => l'
  | .error _ () => l

theorem Reachable.after (op : LeaseOp) (h : Reachable l) (hop : op.Fits) : Reachable (l.after op) := by
  unfold Leases.after
  split
  · rename_i l' hrun
    exact h.apply hop hrun
  · exact h

/-- A session that locks a file to its end, then gives up a byte in the middle. -/
theorem split_lock_sound : ∃ l : Leases, Reachable l ∧ l.Sound ∧
    l.locks["f"]? = some [⟨5, "s", 1, .write, 0, 9, 0⟩, ⟨5, "s", 1, .write, 11, u64Max, 0⟩] := by
  have hopen : Reachable (Leases.after {} (.openSession "s" 1000 0 false)) := Reachable.init.after _ True.intro
  have hlock : Reachable ((Leases.after {} (.openSession "s" 1000 0 false)).after
      (.lock "f" 5 "s" 1 (some .write) 0 u64Max 0 0)) := hopen.after _ (le_refl u64Max)
  have hunlock := hlock.after (.lock "f" 5 "s" 1 none 10 10 0 0) (by decide : 10 ≤ u64Max)
  exact ⟨_, hunlock, lock_table_sound hunlock, by decide +kernel⟩

end Leases

end AtlasNative
