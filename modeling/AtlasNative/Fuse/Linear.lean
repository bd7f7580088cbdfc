import AtlasNative.Fuse.Content
import AtlasNative.Fuse.OneFile
import AtlasNative.Program.Linearizable

/-!
# One file of a mount is linearizable

The array that the calls see is the cluster's file with everything stored that is still in flight,
in hand, or buffered. A write takes effect when it is buffered, a write around the buffer and a
truncation once their flush has returned, and a read when it returns.
-/

namespace AtlasNative.Fuse

open List

open Program (Act Object)

/-- A plain byte array. -/
def byteArray (init : Bytes) : Object Bytes Call Reply where
  init := init
  apply a c := match c with
    | .read _ offset len => (a, .data (File.get a offset len))
    | .write _ offset data | .writeThrough _ offset data =>
      (File.put a offset data, .written data.length)
    | .setattr _ (some size) => (File.resize a size, .ok)
    | _ => (a, .ok)

def Entry.act : Entry → Option (Act Call Reply)
  | .begun id c => some (.invoke id c)
  | .ended id c reply => some (.respond id c reply)
  | _ => none

/-- What the callers saw. -/
def history (log : List Entry) : List (Act Call Reply) := log.filterMap Entry.act

@[simp] theorem history_append (log new : List Entry) :
    history (log ++ new) = history log ++ history new := filterMap_append

/-- The call has taken effect. -/
def Phase.effected : Call → Phase → Bool
  | .write .., .dispatch .. | .writeThrough .., .send _ | _, .done _ => true
  | _, _ => false

/-- How much a read fetches: what is asked for, or a whole window. -/
def Wants (cfg : Config) (len want : Nat) : Prop :=
  want = len ∨ len < want ∧ want = cfg.readaheadBytes

/-- What a read in progress has found is in the array. -/
def Reading (a : Bytes) (cfg : Config) : Call × Phase → Prop
  | (.read _ offset len, .answer _ bytes) => bytes = File.get a offset len
  | (.read _ offset len, .fetch want out) =>
    Wants cfg len want ∧ out.length ≤ want ∧ out = File.get a offset out.length
  | (.read _ offset len, .keep want out) => Wants cfg len want ∧ out = File.get a offset want
  | _ => True

namespace Mount

/-- What is in flight and not stored. -/
def unsent (m : Mount) : List Dirty :=
  match m.pipeline with
  | none => []
  | some p => p.sending.map Sending.left ++ p.queue

def hand (calls : List (Call × Phase)) : List Dirty := calls.flatMap fun call => call.2.pending

/-- What is not stored, oldest first. -/
def pending (m : Mount) (ino : Nat) : List Dirty :=
  m.unsent ++ hand m.calls ++ m.dirty.runs[ino]?.toList

structure Linear (ino : Nat) (init : Bytes) (m : Mount) (order : List (Nat × Call)) : Prop where
  orders : (byteArray init).Orders (history m.log) order
  effected : ∀ (id : Nat) c, (id, c) ∈ order ↔
    ∃ phase, m.calls[id]? = some (c, phase) ∧ phase.effected c = true
  invoked : ∀ (id : Nat) c phase, m.calls[id]? = some (c, phase) → .invoke id c ∈ history m.log
  array : (byteArray init).after order = putAll (m.file ino) (m.pending ino)
  window : ∀ at_ buf, m.readahead[ino]? = some (at_, buf) →
    buf = File.get ((byteArray init).after order) at_ m.cfg.readaheadBytes
  reading : ∀ call ∈ m.calls, Reading ((byteArray init).after order) m.cfg call

variable {ino : Nat} {init : Bytes} {m m' : Mount} {id : Nat} {c : Call} {phase next : Phase}
  {order : List (Nat × Call)}

/-! ### The runs in hand -/

theorem hand_set_same {calls : List (Call × Phase)} (hcall : calls[id]? = some (c, phase))
    (hsame : next.pending = phase.pending) : hand (calls.set id (c, next)) = hand calls := by
  obtain ⟨hlt, hget⟩ := List.getElem?_eq_some_iff.mp hcall
  rw [hand, hand, flatMap_def, flatMap_def, map_set]
  congr 1
  have hlt' : id < (calls.map fun call => call.2.pending).length := by simpa using hlt
  have heq : next.pending = (calls.map fun call => call.2.pending)[id] := by simp [hget, hsame]
  rw [heq, set_getElem_self]

theorem hand_of_others {calls : List (Call × Phase)} (hcall : calls[id]? = some (c, phase))
    (hothers : ∀ (j : Nat) other, j ≠ id → calls[j]? = some other → other.2.pending = []) :
    hand calls = phase.pending ∧ hand (calls.set id (c, next)) = next.pending := by
  obtain ⟨hlt, hget⟩ := List.getElem?_eq_some_iff.mp hcall
  have hsplit : calls = calls.take id ++ (c, phase) :: calls.drop (id + 1) := by
    rw [← hget, getElem_cons_drop, take_append_drop]
  have hbefore : hand (calls.take id) = [] := by
    rw [hand, flatMap_eq_nil_iff]
    intro call hc
    obtain ⟨j, hj⟩ := mem_iff_getElem?.mp hc
    rw [getElem?_take] at hj
    split at hj
    · exact hothers j call (by omega) hj
    · cases hj
  have hafter : hand (calls.drop (id + 1)) = [] := by
    rw [hand, flatMap_eq_nil_iff]
    intro call hc
    obtain ⟨j, hj⟩ := mem_iff_getElem?.mp hc
    rw [getElem?_drop] at hj
    exact hothers (id + 1 + j) call (by omega) hj
  have hset : calls.set id (c, next) = calls.take id ++ (c, next) :: calls.drop (id + 1) := by
    rw [set_eq_take_append_cons_drop, if_pos hlt]
  refine ⟨?_, ?_⟩
  · rw [hsplit]
    unfold hand at hbefore hafter ⊢
    rw [flatMap_append, flatMap_cons, hbefore, hafter]
    simp
  · rw [hset]
    unfold hand at hbefore hafter ⊢
    rw [flatMap_append, flatMap_cons, hbefore, hafter]
    simp

/-! ### A step of a call -/

/-- What a step of call `id` does to the array that the calls see. -/
structure Shown (ino : Nat) (init : Bytes) (m : Mount) (order : List (Nat × Call)) (id : Nat) (c : Call)
    (phase next : Phase) (m' : Mount) (order' : List (Nat × Call)) : Prop where
  order : order' = order ∧ phase.effected c = next.effected c ∨
    order' = order ++ [(id, c)] ∧ phase.effected c = false ∧ next.effected c = true
  calls : m'.calls = m.calls
  history : history m'.log = history m.log
  cfg : m'.cfg = m.cfg
  reply : ∀ reply earlier later, next = .done reply → order' = earlier ++ (id, c) :: later →
    reply = ((byteArray init).apply ((byteArray init).after earlier) c).2
  array : (byteArray init).after order' = putAll (m'.file ino)
    (m'.unsent ++ hand (m.calls.set id (c, next)) ++ m'.dirty.runs[ino]?.toList)
  window : ∀ at_ buf, m'.readahead[ino]? = some (at_, buf) →
    buf = File.get ((byteArray init).after order') at_ m.cfg.readaheadBytes
  reading : Reading ((byteArray init).after order') m.cfg (c, next)
  others : ∀ (j : Nat) other, j ≠ id → m.calls[j]? = some other →
    Reading ((byteArray init).after order') m.cfg other

section

variable (h : m.Linear ino init order)
include h

theorem Linear.arrive {order' : List (Nat × Call)} (hcall : m.calls[id]? = some (c, phase))
    (hs : Shown ino init m order id c phase next m' order') :
    (m'.arrive id c next).Linear ino init order' := by
  have hlt := Program.lt_of_getElem? hcall
  have hget : ∀ {i : Nat} {call}, (m'.arrive id c next).calls[i]? = some call ↔
      i = id ∧ call = (c, next) ∨ i ≠ id ∧ m.calls[i]? = some call := calls_arrive hs.calls hlt
  have hmem : ∀ {i : Nat} {c'}, (i, c') ∈ order' ↔ (i, c') ∈ order ∨ i = id ∧ c' = c ∧ next.effected c = true := by
    intro i c'
    rcases hs.order with ⟨rfl, hsame⟩ | ⟨rfl, -, heff⟩
    · refine ⟨.inl, fun hin => hin.elim (fun hin => hin) fun ⟨hi, hc, heff⟩ => ?_⟩
      rw [hi, hc]
      exact (h.effected id c).mpr ⟨phase, hcall, hsame.trans heff⟩
    · simp [heff]
  have heffected : ∀ (i : Nat) c', (i, c') ∈ order' ↔
      ∃ p, (m'.arrive id c next).calls[i]? = some (c', p) ∧ p.effected c' = true := by
    intro i c'
    rw [hmem, h.effected]
    refine ⟨?_, fun ⟨p, hp, heff⟩ => ?_⟩
    · rintro (⟨p, hp, heff⟩ | ⟨rfl, rfl, heff⟩)
      · by_cases hi : i = id
        · subst hi
          rw [hcall] at hp
          cases hp
          refine ⟨next, hget.mpr (.inl ⟨rfl, rfl⟩), ?_⟩
          rcases hs.order with ⟨-, hsame⟩ | ⟨-, hno, -⟩
          · exact hsame.symm.trans heff
          · rw [hno] at heff
            cases heff
        · exact ⟨p, hget.mpr (.inr ⟨hi, hp⟩), heff⟩
      · exact ⟨next, hget.mpr (.inl ⟨rfl, rfl⟩), heff⟩
    · rcases hget.mp hp with ⟨rfl, heq⟩ | ⟨-, hp⟩
      · cases heq
        exact .inr ⟨rfl, rfl, heff⟩
      · exact .inl ⟨p, hp, heff⟩
  have hinvoked : .invoke id c ∈ history m.log := h.invoked id c phase hcall
  have horders : (byteArray init).Orders (history m.log) order' := by
    rcases hs.order with ⟨rfl, -⟩ | ⟨rfl, hno, -⟩
    · exact h.orders
    · refine h.orders.effect hinvoked fun hin => ?_
      obtain ⟨⟨i, c'⟩, hin', rfl⟩ := mem_map.mp hin
      obtain ⟨p, hp, heff⟩ := (h.effected i c').mp hin'
      rw [hcall] at hp
      cases hp
      rw [hno] at heff
      cases heff
  have hlog : history (m'.arrive id c next).log = history m.log ∨ ∃ reply, next = .done reply ∧
      history (m'.arrive id c next).log = history m.log ++ [.respond id c reply] := by
    rw [← hs.history]
    cases next with
    | done reply => exact .inr ⟨reply, rfl, history_append _ _⟩
    | _ => exact .inl rfl
  refine ⟨?_, heffected, fun i c' p hi => ?_, ?_, hs.cfg ▸ hs.window, fun call hc => ?_⟩
  · rcases hlog with hlog | ⟨reply, rfl, hlog⟩
    · rw [hlog]
      exact horders
    · rw [hlog]
      have hin : (id, c) ∈ order' := hmem.mpr (.inr ⟨rfl, rfl, by cases c <;> rfl⟩)
      obtain ⟨earlier, later, hsplit⟩ := append_of_mem hin
      exact horders.respond hsplit (hs.reply reply earlier later rfl hsplit)
  · have hold : .invoke i c' ∈ history m.log := by
      rcases hget.mp hi with ⟨rfl, heq⟩ | ⟨-, hi⟩
      · cases heq
        exact hinvoked
      · exact h.invoked i c' p hi
    rcases hlog with hlog | ⟨reply, -, hlog⟩
    · rwa [hlog]
    · rw [hlog]
      exact mem_append_left _ hold
  · rw [hs.array, pending, ← hs.calls]
    rfl
  · show Reading _ m'.cfg call
    rw [hs.cfg]
    obtain ⟨i, hi⟩ := mem_iff_getElem?.mp hc
    rcases hget.mp hi with ⟨-, rfl⟩ | ⟨hne, hi⟩
    · exact hs.reading
    · exact hs.others i call hne hi

end

theorem putAll_same (hcall : m.calls[id]? = some (c, phase)) (hpend : next.pending = phase.pending)
    (hfile : m'.file ino = m.file ino) (hunsent : m'.unsent = m.unsent)
    (hruns : m'.dirty.runs[ino]? = m.dirty.runs[ino]?) :
    putAll (m'.file ino) (m'.unsent ++ hand (m.calls.set id (c, next)) ++
      m'.dirty.runs[ino]?.toList) = putAll (m.file ino) (m.pending ino) := by
  rw [hfile, hand_set_same hcall hpend, hruns, hunsent, pending]

section

variable (h : m.Linear ino init order) (hcalls : m'.calls = m.calls)
  (hhist : Fuse.history m'.log = Fuse.history m.log) (hcfg : m'.cfg = m.cfg)
include h hcalls hhist hcfg

theorem Shown.still {order' : List (Nat × Call)} (horder : order' = order ∧ phase.effected c = next.effected c ∨
      order' = order ++ [(id, c)] ∧ phase.effected c = false ∧ next.effected c = true)
    (hafter : (byteArray init).after order' = (byteArray init).after order)
    (hreply : ∀ reply earlier later, next = .done reply → order' = earlier ++ (id, c) :: later →
      reply = ((byteArray init).apply ((byteArray init).after earlier) c).2)
    (hpending : putAll (m'.file ino) (m'.unsent ++ hand (m.calls.set id (c, next)) ++
      m'.dirty.runs[ino]?.toList) = putAll (m.file ino) (m.pending ino))
    (hwindow : ∀ at_ buf, m'.readahead[ino]? = some (at_, buf) → m.readahead[ino]? = some (at_, buf) ∨
        buf = File.get ((byteArray init).after order) at_ m.cfg.readaheadBytes)
    (hreading : Reading ((byteArray init).after order) m.cfg (c, next)) :
    Shown ino init m order id c phase next m' order' := by
  refine ⟨horder, hcalls, hhist, hcfg, hreply, ?_, fun at_ buf hb => ?_, hafter ▸ hreading,
    fun j other _ hj => hafter ▸ h.reading other (mem_of_getElem? hj)⟩
  · rw [hafter, h.array, hpending]
  · rw [hafter]
    exact (hwindow at_ buf hb).elim (h.window at_ buf) fun heq => heq

/-- A step that neither takes effect nor returns, and leaves all bytes where they are. -/
theorem Shown.quiet (hcall : m.calls[id]? = some (c, phase))
    (heff : phase.effected c = next.effected c) (hnext : ∀ reply, next ≠ .done reply)
    (hfile : m'.file ino = m.file ino) (hpipe : m'.pipeline = m.pipeline)
    (hruns : m'.dirty.runs[ino]? = m.dirty.runs[ino]?) (hpend : next.pending = phase.pending)
    (hwindow : ∀ at_ buf, m'.readahead[ino]? = some (at_, buf) → m.readahead[ino]? = some (at_, buf))
    (hreading : Reading ((byteArray init).after order) m.cfg (c, next)) :
    Shown ino init m order id c phase next m' order := by
  have hunsent : m'.unsent = m.unsent := by rw [unsent, unsent, hpipe]
  exact .still h hcalls hhist hcfg (.inl ⟨rfl, heff⟩) rfl (fun reply _ _ heq => absurd heq (hnext reply))
    (putAll_same hcall hpend hfile hunsent hruns) (fun at_ buf hb => .inl (hwindow at_ buf hb))
    hreading

/-- The call takes effect as it returns; the array stays. -/
theorem Shown.returns {reply : Reply} (hcall : m.calls[id]? = some (c, phase)) (heff : phase.effected c = false)
    (happly : (byteArray init).apply ((byteArray init).after order) c = ((byteArray init).after order, reply))
    (hfile : m'.file ino = m.file ino) (hunsent : m'.unsent = m.unsent)
    (hruns : m'.dirty.runs[ino]? = m.dirty.runs[ino]?) (hpend : phase.pending = [])
    (hwindow : ∀ at_ buf, m'.readahead[ino]? = some (at_, buf) → m.readahead[ino]? = some (at_, buf) ∨
        buf = File.get ((byteArray init).after order) at_ m.cfg.readaheadBytes) :
    Shown ino init m order id c phase (.done reply) m' (order ++ [(id, c)]) := by
  have hdone : (Phase.done reply).effected c = true := by cases c <;> rfl
  refine .still h hcalls hhist hcfg (.inr ⟨rfl, heff, hdone⟩) ?_ (fun reply' earlier later heq hsplit => ?_)
    (putAll_same hcall hpend.symm hfile hunsent hruns) hwindow (by cases c <;> trivial)
  · rw [Object.after_snoc, happly]
  · cases heq
    rcases Object.snoc_eq_split hsplit with ⟨rfl, -, -⟩ | ⟨later', -, hin⟩
    · rw [happly]
    · have hmem : (id, c) ∈ order := hin ▸ by simp
      obtain ⟨p, hp, heff'⟩ := (h.effected id c).mp hmem
      rw [hcall] at hp
      cases hp
      rw [heff] at heff'
      cases heff'

/-- A step of a call that has taken effect, or has not yet: bytes may move to the file. -/
theorem Shown.moved (heff : phase.effected c = next.effected c)
    (hreply : ∀ reply, next = .done reply → ∀ a, reply = ((byteArray init).apply a c).2)
    (hahead : m'.readahead = m.readahead)
    (hpending : putAll (m'.file ino) (m'.unsent ++ hand (m.calls.set id (c, next)) ++
      m'.dirty.runs[ino]?.toList) = putAll (m.file ino) (m.pending ino))
    (hreading : Reading ((byteArray init).after order) m.cfg (c, next)) :
    Shown ino init m order id c phase next m' order :=
  .still h hcalls hhist hcfg (.inl ⟨rfl, heff⟩) rfl (fun reply _ _ heq _ => hreply reply heq _)
    hpending (fun _ _ hb => .inl (hahead ▸ hb)) hreading

end

/-- A change of the file takes effect. Nobody reads meanwhile. -/
theorem Shown.changed (hs : m.Shape ino) (hcall : m.calls[id]? = some (c, phase))
    (hch : Changing (c, phase)) (heff : phase.effected c = false) (heff' : next.effected c = true)
    (hreply : ∀ reply, next = .done reply → ∀ a, reply = ((byteArray init).apply a c).2)
    (hcalls : m'.calls = m.calls) (hhist : Fuse.history m'.log = Fuse.history m.log)
    (hcfg : m'.cfg = m.cfg) (hahead : m'.readahead = m.readahead)
    (harray : ((byteArray init).apply ((byteArray init).after order) c).1 = putAll (m'.file ino)
      (m'.unsent ++ hand (m.calls.set id (c, next)) ++ m'.dirty.runs[ino]?.toList)) :
    Shown ino init m order id c phase next m' (order ++ [(id, c)]) := by
  have hreads : ∀ {a : Bytes} {call : Call × Phase}, ¬ Guarding call ∨ call.1.changes = true →
      Reading a m.cfg call := by
    intro a call hno
    obtain ⟨c', p⟩ := call
    cases c' with
    | read i offset len =>
      cases p <;> first | trivial | exact absurd ⟨rfl, rfl⟩ (hno.resolve_right nofun)
    | _ => cases p <;> trivial
  refine ⟨.inr ⟨rfl, heff, heff'⟩, hcalls, hhist, hcfg, fun reply _ _ heq _ => hreply reply heq _, ?_,
    fun at_ buf hb => ?_, hreads (.inr hch.1), fun j other hne hj => hreads (.inl fun hg => ?_)⟩
  · rw [Object.after_snoc, harray]
  · rw [hahead, hs.dropped _ (mem_of_getElem? hcall) hch] at hb
    cases hb
  · have hno := hs.not_changes hne hj hcall hg hch.2.2
    rw [hch.1] at hno
    cases hno

end Mount

end AtlasNative.Fuse
