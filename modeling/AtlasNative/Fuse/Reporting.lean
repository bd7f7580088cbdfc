import AtlasNative.Fuse.LostWrites

/-!
# The steps of a mount keep what was written
-/

namespace AtlasNative.Fuse

open List Std Pipeline Dirty WriteBack Option ExtTreeMap Sending

namespace Mount

variable {m m' : Mount}

/-! ### Between the calls' steps -/

/-- A step in the background, `new` being what the cluster stored. -/
structure Worked (m : Mount) (new : List Entry) (m' : Mount) : Prop where
  calls : m'.calls = m.calls
  log : m'.log = m.log ++ new
  requests : ∀ e ∈ new, ∃ run, e = .put run
  dirty : m'.dirty = m.dirty
  held : ∀ run, m.Stores run → ∀ o b, run.byteAt o = some b → m'.Failed run.ino ∨
    (∃ run', .put run' ∈ new ∧ run'.ino = run.ino ∧ run'.byteAt o = some b) ∨
    ∃ run', m'.Stores run' ∧ run'.ino = run.ino ∧ run'.byteAt o = some b
  failed : ∀ ino, m.Failed ino → m'.Failed ino
  drained : ∀ ino, m.Drained ino → m'.Drained ino

theorem Inv.work (h : m.Inv) {new : List Entry} (hw : Worked m new m') : m'.Inv := by
  have hbegun : ∀ {k i : Nat} {c : Call}, m'.log[k]? = some (.begun i c) ↔ m.log[k]? = some (.begun i c) := by
    intro k i c
    rw [hw.log]
    refine getElem?_append_iff fun he => ?_
    obtain ⟨run, heq⟩ := hw.requests _ he
    cases heq
  have hended : ∀ id c reply, .ended id c reply ∈ m'.log ↔ .ended id c reply ∈ m.log := by
    intro id c reply
    rw [hw.log, mem_append]
    refine or_iff_left fun he => ?_
    obtain ⟨run, heq⟩ := hw.requests _ he
    cases heq
  have hdoomed : ∀ ino, m'.Doomed ino ↔ m.Doomed ino := by
    intro ino
    rw [Doomed, Doomed, hw.calls]
  refine ⟨hw.calls ▸ h.solo, fun k i c hk => ?_, fun id c phase hi => ?_, fun id c reply => ?_,
    hw.calls ▸ h.fits, hw.dirty ▸ h.own, hw.calls ▸ h.mine, hw.calls ▸ hw.dirty ▸ h.emptied, fun call hmem hdr ino hv => ?_, ?_, ?_⟩
  · rw [hw.calls]
    exact h.known k i c (hbegun.mp hk)
  · rw [hw.calls] at hi ⊢
    obtain ⟨k, hk, hlatest⟩ := h.begun id c phase hi
    refine ⟨k, hbegun.mpr hk, fun hlast => ⟨hbegun.mpr hk, fun j wid w hj => ?_⟩⟩
    exact (hlatest hlast).2 j wid w (hbegun.mp hj)
  · rw [hended, hw.calls]
    exact h.ended id c reply
  · exact hw.drained ino (h.drained call (hw.calls ▸ hmem) hdr ino hv)
  · refine h.kept.of_step hw.log (fun ino hlost => ?_) (fun ino o b hheld => ?_)
      fun k i w phase hk hi hent => .inl ⟨hbegun.mp hk, phase, hw.calls ▸ hi, hent⟩
    · exact hlost.imp (hdoomed ino).mpr (hw.failed ino)
    · obtain ⟨run, hstores | hpend, rfl, hbyte⟩ := hheld
      · rcases hw.held run hstores o b hbyte with hf | hput | ⟨run', hst, hino, hb⟩
        · exact .inr (.inl hf)
        · exact .inr (.inr (.inr (.inl hput)))
        · exact .inr (.inr (.inl ⟨run', .inl hst, hino, hb⟩))
      · exact .inr (.inr (.inl ⟨run, .inr (hw.calls ▸ hpend), rfl, hbyte⟩))
  · rw [hw.log]
    refine h.honest.append fun e he id c reply heq => ?_
    obtain ⟨run, rfl⟩ := hw.requests e he
    cases heq

theorem Inv.call (h : m.Inv) (c : Call) (hidle : ∀ call ∈ m.calls, call.2.isOver = true) : (m.step (.call c)).Inv := by
  have hbegun : ∀ {k i : Nat} {c' : Call}, (m.step (.call c)).log[k]? = some (.begun i c') ↔
      m.log[k]? = some (.begun i c') ∨ k = m.log.length ∧ i = m.calls.length ∧ c' = c := by
    intro k i c'
    refine Program.getElem?_snoc_iff.trans (or_congr_right (and_congr_right fun _ => ?_))
    simp
  have hstart : c.start.pending = [] ∧ c.start.entered c = false ∧ c.start.emptied c = false ∧
      c.start.drained = false ∧ c.start.isOver = false := by
    cases c <;> exact ⟨rfl, rfl, rfl, rfl, rfl⟩
  have hlen : (m.step (.call c)).calls.length = m.calls.length + 1 := length_append
  have hmem : ∀ call ∈ (m.step (.call c)).calls, call ∈ m.calls ∨ call = (c, c.start) := by
    intro call hcall
    exact (mem_append.mp hcall).imp_right mem_singleton.mp
  have hbound : ∀ {i : Nat} {call : Call × Phase}, m.calls[i]? = some call → i < m.calls.length :=
    fun hi => Program.lt_of_getElem? hi
  have hlogbound : ∀ {k : Nat} {e : Entry}, m.log[k]? = some e → k < m.log.length := fun hk => Program.lt_of_getElem? hk
  refine ⟨fun i c' phase hi => ?_, fun k i c' hk => ?_, fun i c' phase hi => ?_,
    fun i c' reply => ?_, fun call hcall => ?_, h.own, fun call hcall run hpend => ?_,
    fun call hcall hempt => ?_, fun call hcall hdr => ?_, ?_, ?_⟩
  · rw [hlen]
    rcases calls_call.mp hi with hi | ⟨rfl, -⟩
    · exact .inl (hidle _ (mem_of_getElem? hi))
    · exact .inr rfl
  · rcases hbegun.mp hk with hk | ⟨-, rfl, rfl⟩
    · obtain ⟨phase, hi⟩ := h.known k i c' hk
      exact ⟨phase, calls_call.mpr (.inl hi)⟩
    · exact ⟨_, calls_call.mpr (.inr ⟨rfl, rfl⟩)⟩
  · rw [hlen]
    rcases calls_call.mp hi with hi | ⟨rfl, heq⟩
    · obtain ⟨k, hk, -⟩ := h.begun i c' phase hi
      refine ⟨k, hbegun.mpr (.inl hk), fun hlast => ?_⟩
      have := hbound hi
      omega
    · cases heq
      refine ⟨_, hbegun.mpr (.inr ⟨rfl, rfl, rfl⟩), fun _ => ⟨hbegun.mpr (.inr ⟨rfl, rfl, rfl⟩), ?_⟩⟩
      intro j wid w hj
      rcases hbegun.mp hj with hj | ⟨rfl, -⟩
      · exact (hlogbound hj).le
      · exact le_rfl
  · have hlog : .ended i c' reply ∈ (m.step (.call c)).log ↔ .ended i c' reply ∈ m.log := by
      refine mem_append.trans (or_iff_left fun he => ?_)
      cases mem_singleton.mp he
    rw [hlog, h.ended, calls_call]
    refine (or_iff_left fun ⟨_, heq⟩ => ?_).symm
    have := congrArg (fun call => call.2.isOver) heq
    rw [hstart.2.2.2.2] at this
    cases this
  · rcases hmem call hcall with hold | rfl
    · exact h.fits call hold
    · exact .start c
  · rcases hmem call hcall with hold | rfl
    · exact h.mine call hold run hpend
    · rw [hstart.1] at hpend
      cases hpend
  · rcases hmem call hcall with hold | rfl
    · exact h.emptied call hold hempt
    · rw [hstart.2.2.1] at hempt
      cases hempt
  · rcases hmem call hcall with hold | rfl
    · exact h.drained call hold hdr
    · rw [hstart.2.2.2.1] at hdr
      cases hdr
  · have hlog : (m.step (.call c)).log = m.log ++ [.begun m.calls.length c] := rfl
    refine h.kept.of_step hlog (fun ino hlost => ?_) (fun ino o b hheld => ?_) fun k i w phase hk hi hent => .inl ?_
    · exact hlost.imp_left fun ⟨call, hcall, hdoom⟩ => ⟨call, mem_append_left _ hcall, hdoom⟩
    · obtain ⟨run, hholds, hrest⟩ := hheld
      refine .inr (.inr (.inl ⟨run, hholds.imp_right fun ⟨call, hcall, hpend⟩ => ?_, hrest⟩))
      exact ⟨call, mem_append_left _ hcall, hpend⟩
    · rcases calls_call.mp hi with hi | ⟨rfl, heq⟩
      · refine ⟨(hbegun.mp hk).resolve_right fun ⟨_, hi', _⟩ => ?_, phase, hi, hent⟩
        have := hbound hi
        omega
      · cases heq
        rw [hstart.2.1] at hent
        cases hent
  · exact h.honest.append fun e he id c' reply heq => by
      cases mem_singleton.mp he
      cases heq

theorem Worked.same {m' : Mount} (hcalls : m'.calls = m.calls) (hlog : m'.log = m.log)
    (hdirty : m'.dirty = m.dirty) (hpipe : m'.pipeline = m.pipeline) : Worked m [] m' := by
  have hstores : ∀ run, m'.Stores run ↔ m.Stores run := fun run => by
    rw [Stores, Stores, hdirty, hpipe]
  refine ⟨hcalls, by rw [hlog, append_nil], nofun, hdirty, fun run hrun o b hb => ?_,
    fun ino hf => ?_, fun ino hd => ?_⟩
  · exact .inr (.inr ⟨run, (hstores run).mpr hrun, rfl, hb⟩)
  · rwa [Failed, hpipe]
  · rwa [Drained, hdirty, hpipe]

theorem worked_pop (m : Mount) : Worked m [] (m.step .pop) := by
  cases hp : m.pipeline with
  | none => exact Worked.same rfl rfl rfl (by simp [step, hp])
  | some p =>
    have hp' : (m.step .pop).pipeline = some p.pop := by simp [step, hp]
    have hpop : (∀ run, run ∈ p.queue ∨ run ∈ p.sending.map left → run ∈ p.pop.queue ∨ run ∈ p.pop.sending.map left) ∧
        (∀ run ∈ p.pop.inflight, run ∈ p.inflight) ∧ p.pop.errors = p.errors := by
      unfold pop
      split
      · rename_i run queue hqueue
        split
        · refine ⟨fun r hr => ?_, fun r hr => ?_, rfl⟩
          · rw [hqueue] at hr
            simp only [map_append, map_cons, left_zero, map_nil]
            grind
          · rw [inflight, hqueue]
            simp only [inflight, map_append, map_cons, map_nil] at hr
            grind
        · exact ⟨fun r hr => hr, fun r hr => hr, rfl⟩
      · exact ⟨fun r hr => hr, fun r hr => hr, rfl⟩
    obtain ⟨hmoved, hflight, herrors⟩ := hpop
    refine ⟨rfl, (append_nil _).symm, nofun, rfl, fun run hrun o b hb => ?_, fun ino hf => ?_, fun ino hd => ?_⟩
    · refine .inr (.inr ⟨run, hrun.imp_right fun ⟨q, hq, hin⟩ => ⟨p.pop, hp', ?_⟩, rfl, hb⟩)
      obtain rfl := mem_unique hp hq
      exact hmoved run hin
    · obtain ⟨q, hq, hin⟩ := hf
      obtain rfl := mem_unique hp hq
      exact ⟨p.pop, hp', by rwa [herrors]⟩
    · refine ⟨hd.1, fun q hq => ?_⟩
      obtain rfl := mem_unique hp' hq
      obtain ⟨hno, herr⟩ := hd.2 p hp
      exact ⟨fun run hrun => hno run (hflight run hrun), by rwa [herrors]⟩

variable {p : Pipeline}

theorem worked_finish {worker : Nat} {s : Sending} (hp : m.pipeline = some p)
    (hs : p.sending[worker]? = some s) (failure : Option Errno)
    (hleft : failure = none → s.left.data = []) :
    Worked m [] { m with pipeline := some (p.finish worker s.run.ino failure) } := by
  have herrors : ∀ ino, ino ∈ (p.finish worker s.run.ino failure).errors ↔
      ino ∈ p.errors ∨ failure.isSome = true ∧ s.run.ino = ino := by
    intro ino
    cases failure with
    | none => simp [finish]
    | some e =>
      dsimp only [finish]
      rw [mem_insertIfNew, or_comm]
      simp
  refine ⟨rfl, (append_nil _).symm, nofun, rfl, fun run hrun o b hb => ?_, fun ino hf => ?_, fun ino hd => ?_⟩
  · rcases hrun with hbuf | ⟨q, hq, hin⟩
    · exact .inr (.inr ⟨run, .inl hbuf, rfl, hb⟩)
    · obtain rfl := mem_unique hp hq
      rcases hin with hin | hin
      · exact .inr (.inr ⟨run, .inr ⟨_, rfl, .inl hin⟩, rfl, hb⟩)
      · obtain ⟨s', hs', rfl⟩ := mem_map.mp hin
        obtain ⟨j, hj⟩ := mem_iff_getElem?.mp hs'
        by_cases heq : j = worker
        · rw [heq, hs] at hj
          cases hj
          cases failure with
          | none => rw [byteAt_eq_none_of_empty (hleft rfl)] at hb; cases hb
          | some e => exact .inl ⟨_, rfl, (herrors _).mpr (.inr ⟨rfl, rfl⟩)⟩
        · refine .inr (.inr ⟨_, .inr ⟨_, rfl, .inr (mem_map_of_mem ?_)⟩, rfl, hb⟩)
          exact mem_eraseIdx_iff_getElem?.mpr ⟨j, heq, hj⟩
  · obtain ⟨q, hq, hin⟩ := hf
    obtain rfl := mem_unique hp hq
    exact ⟨_, rfl, (herrors ino).mpr (.inl hin)⟩
  · obtain ⟨hno, herr⟩ := hd.2 p hp
    refine ⟨hd.1, fun q hq => ?_⟩
    obtain rfl := some.inj hq
    refine ⟨fun run hrun => hno run ?_, fun hin => ?_⟩
    · refine (mem_append.mp hrun).elim (mem_append_left _) fun hrun => ?_
      obtain ⟨s', hs', rfl⟩ := mem_map.mp hrun
      exact mem_append_right _ (mem_map_of_mem (mem_of_mem_eraseIdx hs'))
    · refine ((herrors ino).mp hin).elim herr fun ⟨_, heq⟩ => ?_
      exact hno s.run (mem_append_right _ (mem_map_of_mem (mem_of_getElem? hs))) heq

theorem chunk_length_le (m : Mount) (run : Dirty) : (m.chunk run).data.length ≤ max m.cfg.maxIoBytes 1 := by
  rw [chunk, before, length_take, Nat.add_sub_cancel_left]
  exact min_le_left _ _

theorem worked_send {worker : Nat} {s : Sending} (hp : m.pipeline = some p) (hs : p.sending[worker]? = some s) :
    Worked m [.put (m.chunk s.left)] (put { m with pipeline := some { p with
      sending := p.sending.set worker ⟨s.run, s.sent + (m.chunk s.left).data.length⟩ } }
      (m.chunk s.left)) := by
  have hlt := Program.lt_of_getElem? hs
  have hsent : ∀ {o b}, s.left.byteAt o = some b → (m.chunk s.left).byteAt o = some b ∨
      (left ⟨s.run, s.sent + (m.chunk s.left).data.length⟩).byteAt o = some b := by
    intro o b hb
    have hlen := chunk_length_le m s.left
    have hoffset : s.left.offset = s.run.offset + s.sent := rfl
    by_cases ho : o < s.left.offset + (m.chunk s.left).data.length
    · refine .inl ?_
      rw [chunk, byteAt_before, if_pos (by omega), hb]
    · refine .inr ?_
      rw [left, byteAt_after (by omega)] at hb ⊢
      dsimp only at hb ⊢
      split at hb
      · rw [if_pos (by omega), hb]
      · cases hb
  refine ⟨rfl, rfl, fun e he => ⟨_, mem_singleton.mp he⟩, rfl, fun run hrun o b hb => ?_,
    fun ino hf => ?_, fun ino hd => ?_⟩
  · rcases hrun with hbuf | ⟨q, hq, hin⟩
    · exact .inr (.inr ⟨run, .inl hbuf, rfl, hb⟩)
    · obtain rfl := mem_unique hp hq
      rcases hin with hin | hin
      · exact .inr (.inr ⟨run, .inr ⟨_, rfl, .inl hin⟩, rfl, hb⟩)
      · obtain ⟨s', hs', rfl⟩ := mem_map.mp hin
        obtain ⟨j, hj⟩ := mem_iff_getElem?.mp hs'
        by_cases heq : j = worker
        · rw [heq, hs] at hj
          cases hj
          rcases hsent hb with hchunk | hrest
          · exact .inr (.inl ⟨_, mem_singleton.mpr rfl, rfl, hchunk⟩)
          · exact .inr (.inr ⟨_, .inr ⟨_, rfl, .inr (mem_map_of_mem (mem_set hlt _))⟩, rfl, hrest⟩)
        · refine .inr (.inr ⟨_, .inr ⟨_, rfl, .inr (mem_map_of_mem ?_)⟩, rfl, hb⟩)
          exact mem_of_getElem? ((getElem?_set_ne (Ne.symm heq)).trans hj)
  · obtain ⟨q, hq, hin⟩ := hf
    obtain rfl := mem_unique hp hq
    exact ⟨_, rfl, hin⟩
  · obtain ⟨hno, herr⟩ := hd.2 p hp
    refine ⟨hd.1, fun q hq => ?_⟩
    obtain rfl := some.inj hq
    refine ⟨fun run hrun => hno run ?_, herr⟩
    refine (mem_append.mp hrun).elim (mem_append_left _) fun hrun => ?_
    refine mem_append_right _ ?_
    obtain ⟨s', hs', rfl⟩ := mem_map.mp hrun
    rcases mem_or_eq_of_mem_set hs' with hs' | rfl
    · exact mem_map_of_mem hs'
    · exact mem_map.mpr ⟨s, mem_of_getElem? hs, rfl⟩

theorem worked_work (m : Mount) (worker : Nat) (failure : Option Errno) :
    ∃ new, Worked m new (m.work worker failure) := by
  unfold work
  split
  · exact ⟨[], Worked.same rfl rfl rfl rfl⟩
  rename_i p hp
  split
  · exact ⟨[], Worked.same rfl rfl rfl rfl⟩
  rename_i s hs
  split
  · rename_i hleft
    exact ⟨[], worked_finish hp hs none fun _ => hleft⟩
  split
  · exact ⟨[], worked_finish hp hs _ nofun⟩
  · exact ⟨_, worked_send hp hs⟩

/-! ### The steps of a call -/

/-- A call that is no write and neither `fsync` nor `close` takes the failure of a run. -/
def consumes (m : Mount) : Event → Bool
  | .step id failure =>
    match m.calls[id]? with
    | none => false
    | some (c, phase) =>
      match phase with
      | .dispatch (run :: _) _ =>
        m.pipeline.isNone && run.data ≠ [] && failure.isSome && !c.reports run.ino
      | .wait _ =>
        match m.pipeline with
        | none => false
        | some p =>
          match if c = .flushAll then p.waitAll else p.wait (c.ino.getD 0) with
          | some (some _, _) => !c.reports (c.ino.getD 0)
          | _ => false
      | _ => false
  | _ => false

section Advance

variable {id : Nat} {c : Call} {phase next : Phase} {new : List Entry}

variable {ino : Nat}

theorem reports_of_byteAt {o : Nat} {b : UInt8} (h : c.byteAt ino o = some b) : c.reports ino = true := by
  cases c <;> simp_all [Call.byteAt, Call.reports]

theorem reports_of_dooms (h : phase.dooms ino c = true) : c.reports ino = true := by
  unfold Phase.dooms at h
  split at h <;> first | exact h | cases h

theorem ino_of_vouches (h : c.vouches ino = true) : c = .flushAll ∨ c.ino = some ino := by
  cases c <;> simp_all [Call.vouches, Call.ino]

theorem ino_of_reports (h : c.reports ino = true) : c.ino = some ino := by
  cases c <;> simp_all [Call.reports, Call.ino]

theorem dooms_sendFailed (h : c.reports ino = true) (e : Errno) : (c.sendFailed e).dooms ino c = true := by
  cases c <;> exact h

theorem dooms_flushed (h : c.reports ino = true) (e : Errno) : (c.flushed (some e)).dooms ino c = true := by
  cases c <;> exact h

variable {result : Option Errno} {run : Dirty}

theorem ino_of_flushed (h : run ∈ (c.flushed result).pending) : c.ino = some run.ino := by
  cases result <;> cases c <;> first | (cases mem_singleton.mp h; rfl) | cases h

section

variable (h : m.Inv) (hmem : (c, phase) ∈ m.calls)
include h hmem

/-- A step that leaves buffer and pipeline alone, by a call with nothing in hand. -/
theorem Advanced.idle (hcalls : m'.calls = m.calls) (hlog : m'.log = m.log ++ new)
    (hreq : ∀ e ∈ new, (∃ run, e = .put run) ∨ ∃ ino size, e = .resized ino size)
    (hdirty : m'.dirty = m.dirty) (hpipe : m'.pipeline = m.pipeline) (hfits : Fits c next)
    (hpend : phase.pending = []) (hnext : next.pending = [])
    (hdooms : ∀ ino, phase.dooms ino c = true → next.dooms ino c = true)
    (hentered : next.entered c = true → phase.entered c = true ∨ ∀ ino, c.reports ino = true → next.dooms ino c = true)
    (hempt : next.emptied c = true → phase.emptied c = true)
    (hdr : next.drained = true → phase.drained = true ∨ ∀ ino, c.vouches ino = false)
    (hset : ∀ reply, next = .done reply → reply.failed = false →
      phase.drained = true ∨ ∀ ino, c.vouches ino = false) : Advanced m c phase next new m' := by
  have hdrained : phase.drained = true ∨ (∀ ino, c.vouches ino = false) →
      ∀ ino, c.vouches ino = true → m'.Drained ino := by
    intro hcase ino hv
    rw [Drained, hdirty, hpipe]
    rcases hcase with hd | hno
    · exact h.drained _ hmem hd ino hv
    · rw [hno ino] at hv
      cases hv
  refine ⟨hcalls, hlog, hreq, hfits, hdirty ▸ h.own, by simp [hnext], fun run hrun o b hb => ?_,
    fun ino hf => .inl ?_, hdooms, fun he => ?_, fun he => ?_, fun hd => hdrained (hdr hd),
    fun reply heq hok => hdrained (hset reply heq hok)⟩
  · rw [hpend] at hrun
    refine .inr (.inr (.inr ⟨b, run, .inl rfl, .inl ?_, rfl, hb⟩))
    rw [Stores, hdirty, hpipe]
    exact hrun.resolve_right not_mem_nil
  · rwa [Failed, hpipe]
  · refine (hentered he).imp_right fun hall ino o b hb => .inl (hall ino (reports_of_byteAt hb))
  · rw [hdirty]
    exact h.emptied _ hmem (hempt he)

theorem Advanced.other (hc : ∀ ino, c.reports ino = false ∧ c.vouches ino = false)
    (hcalls : m'.calls = m.calls) (hlog : m'.log = m.log ++ new)
    (hreq : ∀ e ∈ new, ∃ ino size, e = .resized ino size) (hdirty : m'.dirty = m.dirty)
    (hpipe : m'.pipeline = m.pipeline) (hfits : Fits c next) (hpend : phase.pending = [])
    (hnext : next.pending = []) (hempt : next.emptied c = false) :
    Advanced m c phase next new m' := by
  refine .idle h hmem hcalls hlog (fun e he => .inr (hreq e he)) hdirty hpipe hfits hpend hnext
    (fun ino hd => ?_) (fun _ => .inr fun ino hr => ?_) (fun he => ?_) (fun _ => .inr fun ino => (hc ino).2)
    fun _ _ _ => .inr fun ino => (hc ino).2
  · have hr := reports_of_dooms hd
    rw [(hc ino).1] at hr
    cases hr
  · rw [(hc ino).1] at hr
    cases hr
  · rw [hempt] at he
    cases he

theorem Advanced.still (hc : (c.reports, c.vouches) = (fun _ => false, fun _ => false))
    (hsame : (m'.calls, m'.log, m'.dirty, m'.pipeline) = (m.calls, m.log, m.dirty, m.pipeline))
    (hfits : Fits c next) (hnone : (phase.pending, next.pending, next.emptied c) = ([], [], false)) :
    Advanced m c phase next [] m' := by
  simp only [Prod.mk.injEq] at hc hsame hnone
  obtain ⟨hcalls, hlog, hdirty, hpipe⟩ := hsame
  exact .other h hmem (fun ino => ⟨congrFun hc.1 ino, congrFun hc.2 ino⟩) hcalls
    (by rw [hlog, append_nil]) nofun hdirty hpipe hfits hnone.1 hnone.2.1 hnone.2.2

theorem Advanced.blocked (hrun : phase.isOver = false) : Advanced m c phase phase [] m := by
  refine ⟨rfl, (append_nil _).symm, nofun, h.fits _ hmem, h.own, h.mine _ hmem,
    fun run hrun o b hb => .inr (.inr (.inr ⟨b, run, .inl rfl, hrun, rfl, hb⟩)), fun ino => .inl,
    fun ino => id, .inl, h.emptied _ hmem, h.drained _ hmem, fun reply heq => ?_⟩
  rw [heq] at hrun
  cases hrun

end

/-- What the step that the call is at leaves. -/
abbrev Advances (m : Mount) (id : Nat) (c : Call) (failure : Option Errno) (phase : Phase)
    (new : List Entry) : Prop :=
  Advanced m c phase (m.advance id c failure phase).1 new (m.advance id c failure phase).2

theorem advanced_buffer {offset : Nat} {data : Bytes} (h : m.Inv)
    (hmem : (.write ino offset data, .buffer) ∈ m.calls) (failure : Option Errno) :
    Advances m id (.write ino offset data) failure .buffer [] := by
  dsimp only [Advances, advance]
  split
  · exact .blocked h hmem rfl
  have hown : (∀ run ∈ (m.dirty.write ino offset data).1, run.ino = ino) ∧
      (m.dirty.write ino offset data).2.Own := h.own.write
  -- a byte of the new runs is in hand or in the buffer
  have hheld : ∀ {o b}, newest ((m.dirty.write ino offset data).1 ++
      (m.dirty.write ino offset data).2.runs[ino]?.toList) o = some b →
      ∃ run, (Stores { m with dirty := (m.dirty.write ino offset data).2, lock := some id } run ∨
        run ∈ (m.dirty.write ino offset data).1) ∧ run.ino = ino ∧ run.byteAt o = some b := by
    intro o b hb
    obtain ⟨run, hrun, hbyte⟩ := exists_of_newest hb
    rcases mem_append.mp hrun with hrun | hrun
    · exact ⟨run, .inr hrun, hown.1 run hrun, hbyte⟩
    · have hbuf := mem_toList.mp hrun
      have hino := hown.2 ino run hbuf
      exact ⟨run, .inl (.inl (hino ▸ hbuf)), hino, hbyte⟩
  refine ⟨rfl, (append_nil _).symm, nofun, .buffered, hown.2, fun run hrun => .inl ?_,
    fun run hrun o b hb => .inr (.inr (.inr ?_)), fun _ => .inl, nofun, fun _ => .inr ?_, nofun, nofun,
    nofun⟩
  · exact congrArg some (hown.1 run hrun).symm
  · rcases hrun.resolve_right not_mem_nil with hbuf | hpipe
    · by_cases hino : run.ino = ino
      · rw [hino] at hbuf ⊢
        have hold : newest m.dirty.runs[ino]?.toList o = some b := by simp [hbuf, hb]
        cases hnew : byteAt ⟨ino, offset, data⟩ o with
        | none =>
          obtain ⟨run', hrest⟩ := hheld (by rw [newest_write, hnew, hold]; rfl)
          exact ⟨b, run', .inl rfl, hrest⟩
        | some b' =>
          obtain ⟨run', hrest⟩ := hheld (by rw [newest_write, hnew]; rfl)
          exact ⟨b', run', .inr ((if_pos rfl).trans hnew), hrest⟩
      · refine ⟨b, run, .inl rfl, .inl (.inl ?_), rfl, hb⟩
        exact (write_other hino).trans hbuf
    · exact ⟨b, run, .inl rfl, .inl (.inr hpipe), rfl, hb⟩
  · intro i o b hb
    dsimp only [Call.byteAt] at hb
    split at hb
    · rename_i hino
      obtain ⟨run, hrest⟩ := hheld (by rw [newest_write, hb]; rfl)
      exact .inr ⟨run, hino ▸ hrest⟩
    · cases hb

theorem ino_of_flushes (hc : c.flushes = true) (hall : c ≠ .flushAll) : c.ino = some (c.ino.getD 0) := by
  cases c with
  | setattr ino size => rfl
  | unlink found =>
    cases found with
    | none => cases hc
    | some found => rfl
  | flushAll => exact absurd rfl hall
  | _ => first | rfl | cases hc

theorem advanced_take (h : m.Inv) (hmem : (c, .take) ∈ m.calls) (hc : c.flushes = true)
    (hall : c ≠ .flushAll) (failure : Option Errno) :
    Advances m id c failure .take [] := by
  rw [Advances, advance_take m id failure hall]
  split
  · exact .blocked h hmem rfl
  have hino := ino_of_flushes hc hall
  generalize c.ino.getD 0 = i at hino ⊢
  have hentered : (Phase.dispatch m.dirty.runs[i]?.toList none).entered c = true → c.flushes = false := by
    cases c <;> first | exact fun _ => rfl | exact nofun
  refine ⟨rfl, (append_nil _).symm, nofun, .dispatch hc, h.own.erase, fun run hrun => .inl ?_,
    fun run hrun o b hb => .inr (.inr (.inr ⟨b, run, .inl rfl, ?_, rfl, hb⟩)), fun _ => .inl,
    fun ino hd => ?_, fun he => ?_, fun _ ino hor => ?_, nofun, nofun⟩
  · rw [hino, h.own i run (mem_toList.mp hrun)]
  · rcases hrun.resolve_right not_mem_nil with hbuf | hpipe
    · by_cases hi : run.ino = i
      · exact .inr (mem_toList.mpr (hi ▸ hbuf))
      · refine .inl (.inl ?_)
        dsimp only [WriteBack.take]
        rw [getElem?_erase, if_neg, hbuf]
        exact fun heq => hi (LawfulEqCmp.compare_eq_iff_eq.mp heq).symm
    · exact .inl (.inr hpipe)
  · cases c <;> cases hd
  · rw [hentered he] at hc
    cases hc
  · rw [hino] at hor
    cases hor.resolve_right hall
    exact getElem?_erase_self

theorem advanced_takeAll (h : m.Inv) (hmem : (.flushAll, .take) ∈ m.calls)
    (failure : Option Errno) : Advances m id .flushAll failure .take [] := by
  dsimp only [Advances, advance]
  split
  · exact .blocked h hmem rfl
  refine ⟨rfl, (append_nil _).symm, nofun, .dispatch rfl, fun i run hrun => ?_,
    fun run hrun => .inr rfl, fun run hrun o b hb => .inr (.inr (.inr ⟨b, run, .inl rfl, ?_, rfl, hb⟩)),
    fun _ => .inl, nofun, nofun, fun _ ino _ => ?_, nofun, nofun⟩
  · simp [takeAll] at hrun
  · rcases hrun.resolve_right not_mem_nil with hbuf | hpipe
    · exact .inr (mem_map.mpr ⟨_, mem_toList_iff_getElem?_eq_some.mpr hbuf, rfl⟩)
    · exact .inl (.inr hpipe)
  · simp [takeAll]

theorem chunk_or_rest (m : Mount) {o : Nat} {b : UInt8} (hb : run.byteAt o = some b) :
    (m.chunk run).byteAt o = some b ∨ (m.rest run).byteAt o = some b :=
  byteAt_before_or_after (Nat.le_add_right _ _) hb

theorem dispatch_entered (left left' : List Dirty) (result result' : Option Errno) :
    (Phase.dispatch left result).entered c = (Phase.dispatch left' result').entered c := by
  cases c <;> rfl

theorem dispatch_emptied (left left' : List Dirty) (result result' : Option Errno) :
    (Phase.dispatch left result).emptied c = (Phase.dispatch left' result').emptied c := by
  cases c <;> rfl

theorem dispatch_dooms (left : List Dirty) (result : Option Errno) (ino : Nat) :
    (Phase.dispatch left result).dooms ino c = false := by
  cases c <;> rfl

variable {left : List Dirty}

theorem Fits.dispatch_left {left' : List Dirty} {result' : Option Errno}
    (h : Fits c (.dispatch left result)) : Fits c (.dispatch left' result') := by
  cases h with
  | buffered => exact .buffered
  | dispatch hc => exact .dispatch hc

/-- The cluster or the pipeline takes the next chunk of the first run in hand, or there is nothing in
it to take. -/
theorem advanced_dispatch (runs : List Dirty) (h : m.Inv)
    (hmem : (c, .dispatch (run :: left) result) ∈ m.calls) (hcalls : m'.calls = m.calls)
    (hlog : m'.log = m.log ++ new) (hreq : ∀ e ∈ new, ∃ run, e = .put run)
    (hdirty : m'.dirty = m.dirty) (hstores : ∀ r, m.Stores r → m'.Stores r)
    (hfailed : ∀ ino, m.Failed ino → m'.Failed ino) (hruns : ∀ r ∈ runs, r.ino = run.ino)
    (hsent : ∀ o b, run.byteAt o = some b → (∃ r, .put r ∈ new ∧ r.ino = run.ino ∧ r.byteAt o = some b) ∨
      m'.Stores run ∨ ∃ r ∈ runs, r.byteAt o = some b) :
    Advanced m c (.dispatch (run :: left) result) (.dispatch (runs ++ left) result) new m' := by
  have hmine := h.mine _ hmem
  refine ⟨hcalls, hlog, fun e he => .inl (hreq e he), Fits.dispatch_left (h.fits _ hmem),
    hdirty ▸ h.own, fun r hr => ?_, fun r hr o b hb => .inr (.inr ?_), fun ino hf => .inl (hfailed ino hf),
    fun ino hd => ?_, fun he => .inl (dispatch_entered .. ▸ he), fun he => ?_, nofun, nofun⟩
  · rcases mem_append.mp hr with hr | hr
    · rw [hruns r hr]
      exact hmine run mem_cons_self
    · exact hmine r (mem_cons_of_mem _ hr)
  · rcases hr with hst | hr
    · exact .inr ⟨b, r, .inl rfl, .inl (hstores r hst), rfl, hb⟩
    rcases mem_cons.mp hr with rfl | hr
    · rcases hsent o b hb with hput | hst | ⟨r', hr', hb'⟩
      · exact .inl hput
      · exact .inr ⟨b, r, .inl rfl, .inl hst, rfl, hb⟩
      · exact .inr ⟨b, r', .inl rfl, .inr (mem_append_left _ hr'), hruns r' hr', hb'⟩
    · exact .inr ⟨b, r, .inl rfl, .inr (mem_append_right _ hr), rfl, hb⟩
  · rw [dispatch_dooms] at hd
    cases hd
  · rw [hdirty]
    exact h.emptied _ hmem (dispatch_emptied .. ▸ he)

theorem advanced_submit {p' : Pipeline} (h : m.Inv)
    (hmem : (c, .dispatch (run :: left) result) ∈ m.calls) (hp : m.pipeline = some p)
    (hsubmit : p.submit run = some p') :
    Advanced m c (.dispatch (run :: left) result) (.dispatch left result) [] { m with pipeline := some p' } := by
  unfold submit at hsubmit
  split at hsubmit
  · cases hsubmit
  obtain rfl := some.inj hsubmit
  refine advanced_dispatch [] h hmem rfl (append_nil _).symm nofun rfl (fun r hr => ?_) (fun ino hf => ?_)
    nofun fun o b _ => .inr (.inl (.inr ⟨_, rfl, .inl (by simp)⟩))
  · refine hr.imp_right fun ⟨q, hq, hin⟩ => ?_
    obtain rfl := mem_unique hp hq
    exact ⟨_, rfl, hin.imp_left (mem_append_left _)⟩
  · obtain ⟨q, hq, hin⟩ := hf
    obtain rfl := mem_unique hp hq
    exact ⟨_, rfl, hin⟩

/-- A run could not be sent in the foreground: the caller hears of it. -/
theorem advanced_sendFailed {e : Errno} (h : m.Inv)
    (hmem : (c, .dispatch (run :: left) result) ∈ m.calls) (hreports : c.reports run.ino = true) :
    Advanced m c (.dispatch (run :: left) result) (c.sendFailed e) [] { m with lock := none } := by
  have hdooms : ∀ r ∈ run :: left, (c.sendFailed e).dooms r.ino c = true := by
    intro r hr
    have hino := ino_of_reports hreports
    have hr' := (h.mine _ hmem r hr).resolve_right (by rintro rfl; cases hino)
    rw [hino] at hr'
    rw [← some.inj hr']
    exact dooms_sendFailed hreports e
  have hpend : (c.sendFailed e).pending = [] := by cases c <;> rfl
  refine ⟨rfl, (append_nil _).symm, nofun, by cases c <;> constructor, h.own, by simp [hpend],
    fun r hr o b hb => ?_, fun ino => .inl, fun ino hd => ?_, fun _ => .inr fun ino o b hb => .inl ?_,
    fun he => h.emptied _ hmem ?_, fun hd => ?_, fun reply heq hok => ?_⟩
  · rcases hr with hst | hr
    · exact .inr (.inr (.inr ⟨b, r, .inl rfl, .inl hst, rfl, hb⟩))
    · exact .inl (hdooms r hr)
  · rw [dispatch_dooms] at hd
    cases hd
  · exact dooms_sendFailed (reports_of_byteAt hb) e
  · cases c <;> first | rfl | cases he
  · cases c <;> cases hd
  · cases c <;> cases heq <;> cases hok

/-- A flush returns to its call: what it found is what the call goes on with. -/
theorem advanced_flushed {failure : Option Errno} (h : m.Inv) (hmem : (c, .wait result) ∈ m.calls)
    (hc : c.flushes = true) (hcalls : m'.calls = m.calls) (hlog : m'.log = m.log)
    (hdirty : m'.dirty = m.dirty) (hstores : ∀ run, m.Stores run → m'.Stores run)
    (hfailed : ∀ ino, m.Failed ino → m'.Failed ino ∨ c.reports ino = true ∧ failure.isSome = true)
    (hdrained : failure = none → ∀ ino, c.vouches ino = true →
      (∀ p, m'.pipeline = some p → (∀ run ∈ p.inflight, run.ino ≠ ino) ∧ ino ∉ p.errors)) :
    Advanced m c (.wait result) (c.flushed failure) [] m' := by
  have hempt : ∀ ino, c.ino = some ino ∨ c = .flushAll → m'.dirty.runs[ino]? = none := by
    intro ino hino
    rw [hdirty]
    refine h.emptied _ hmem ?_ ino hino
    cases c <;> first | rfl | cases hc
  have hsettled : failure = none → ∀ ino, c.vouches ino = true → m'.Drained ino :=
    fun hf ino hv => ⟨hempt ino (ino_of_vouches hv).symm, hdrained hf ino hv⟩
  refine ⟨hcalls, by rw [hlog, append_nil], nofun, .flushed hc failure, hdirty ▸ h.own,
    fun run hrun => .inl (ino_of_flushed hrun), fun run hrun o b hb => ?_,
    fun ino hf => (hfailed ino hf).imp_right ?_,
    fun ino hd => ?_, fun he => .inr fun ino o b hb => ?_, fun _ => hempt,
    fun hd => hsettled ?_, fun reply heq hok ino hv => hsettled ?_ ino hv⟩
  · exact .inr (.inr (.inr ⟨b, run, .inl rfl, .inl (hstores run (hrun.resolve_right not_mem_nil)),
      rfl, hb⟩))
  · rintro ⟨hr, hsome⟩
    obtain ⟨e, rfl⟩ := isSome_iff_exists.mp hsome
    exact dooms_flushed hr e
  · cases c <;> cases hd
  · cases failure with
    | some e => exact .inl (dooms_flushed (reports_of_byteAt hb) e)
    | none =>
      cases c with
      | writeThrough i offset data =>
        refine .inr ⟨⟨i, offset, data⟩, .inr (mem_singleton.mpr rfl), ?_⟩
        dsimp only [Call.byteAt] at hb
        split at hb
        · rename_i hi
          exact ⟨hi, hb⟩
        · cases hb
      | write i offset data => cases hc
      | _ => cases hb
  · cases failure with
    | none => rfl
    | some e => cases c <;> cases hd
  · cases failure with
    | none => rfl
    | some e => cases c <;> (cases heq <;> cases hok)

theorem waited {p' : Pipeline} {e : Option Errno}
    (h : (if c = .flushAll then p.waitAll else p.wait (c.ino.getD 0)) = some (e, p')) :
    p'.queue = p.queue ∧ p'.sending = p.sending ∧ ∀ ino, c = .flushAll ∨ ino = c.ino.getD 0 →
      (∀ run ∈ p'.inflight, run.ino ≠ ino) ∧ ino ∉ p'.errors ∧ (∀ other, other ∈ p.errors → other ∈ p'.errors ∨
          e.isSome = true ∧ (c = .flushAll ∨ other = c.ino.getD 0)) := by
  split at h
  · rename_i hall
    unfold Pipeline.waitAll at h
    split at h
    · rename_i hempty
      obtain ⟨rfl, rfl⟩ := Prod.mk.inj (some.inj h)
      refine ⟨rfl, rfl, fun ino _ => ⟨fun run hrun => ?_, not_mem_empty, fun other ho => ?_⟩⟩
      · have hnil : p.inflight = [] := isEmpty_iff.mp hempty
        have hrun : run ∈ p.inflight := hrun
        rw [hnil] at hrun
        cases hrun
      · refine .inr ⟨?_, .inl hall⟩
        obtain ⟨v, hv⟩ := isSome_iff_exists.mp (mem_iff_isSome_getElem?.mp ho)
        have hin := mem_toList_iff_getElem?_eq_some.mpr hv
        cases hlist : p.errors.toList with
        | nil =>
          rw [hlist] at hin
          cases hin
        | cons first rest => rfl
    · cases h
  · rename_i hall
    obtain ⟨hnone, rfl, rfl⟩ := wait_eq_some h
    refine ⟨rfl, rfl, fun ino hino => ?_⟩
    obtain rfl := hino.resolve_left hall
    refine ⟨hnone, by simp, fun other ho => ?_⟩
    by_cases heq : other = c.ino.getD 0
    · exact .inr ⟨mem_iff_isSome_getElem?.mp (heq ▸ ho), .inr heq⟩
    · refine .inl (mem_erase.mpr ⟨fun heq' => heq ?_, ho⟩)
      exact (LawfulEqCmp.compare_eq_iff_eq.mp heq').symm

theorem advanced_wait (h : m.Inv) (hmem : (c, .wait result) ∈ m.calls) (hc : c.flushes = true)
    (failure : Option Errno) (hcall : m.calls[id]? = some (c, .wait result))
    (hquiet : m.consumes (.step id failure) = false) :
    Advances m id c failure (.wait result) [] := by
  dsimp only [consumes] at hquiet
  rw [hcall] at hquiet
  dsimp only [Advances, advance]
  split
  · rename_i hp
    refine advanced_flushed h hmem hc rfl rfl rfl (fun _ hs => hs) (fun ino => .inl) fun _ ino _ p hp' => ?_
    rw [hp] at hp'
    cases hp'
  rename_i p hp
  rw [hp] at hquiet
  dsimp only at hquiet
  split
  · exact .blocked h hmem rfl
  rename_i e p' hwait
  rw [hwait] at hquiet
  obtain ⟨hqueue, hsending, hseen⟩ := waited hwait
  have hvouch : ∀ {ino}, c.vouches ino = true → c = .flushAll ∨ ino = c.ino.getD 0 :=
    fun hv => (ino_of_vouches hv).imp_right fun hino => by rw [hino]; rfl
  refine advanced_flushed h hmem hc rfl rfl rfl (fun run hrun => ?_) (fun ino hf => ?_) fun hnone ino hv q hq => ?_
  · refine hrun.imp_right fun ⟨q, hq, hin⟩ => ⟨p', rfl, ?_⟩
    obtain rfl := mem_unique hp hq
    rwa [hqueue, hsending]
  · obtain ⟨q, hq, hin⟩ := hf
    obtain rfl := mem_unique hp hq
    rcases (hseen (c.ino.getD 0) (.inr rfl)).2.2 ino hin with hin | ⟨hsome, hino⟩
    · exact .inl ⟨p', rfl, hin⟩
    · obtain ⟨e', rfl⟩ := isSome_iff_exists.mp hsome
      have hreports : c.reports (c.ino.getD 0) = true := by simpa using hquiet
      refine .inr ⟨?_, rfl⟩
      rcases hino with rfl | rfl
      · cases hreports
      · exact hreports
  · obtain rfl := some.inj hq
    have := hseen ino (hvouch hv)
    exact ⟨this.1, this.2.1⟩

theorem advanced_send {offset : Nat} {data : Bytes} (h : m.Inv)
    (hmem : (.writeThrough ino offset data, .send run) ∈ m.calls) (failure : Option Errno) :
    ∃ new, Advances m id (.writeThrough ino offset data) failure (.send run) new := by
  have hino : run.ino = ino := by
    have := (h.mine _ hmem run (mem_singleton.mpr rfl)).resolve_right nofun
    exact (some.inj this).symm
  have hdone : ∀ reply, (∀ o b, run.byteAt o = some b → (Phase.done reply).dooms run.ino (.writeThrough ino offset data) = true) →
      Advanced m (.writeThrough ino offset data) (.send run) (.done reply) [] m := by
    intro reply hbyte
    refine ⟨rfl, (append_nil _).symm, nofun, .done, h.own, nofun, fun r hr o b hb => ?_,
      fun _ => .inl, nofun, fun _ => .inl rfl, nofun, nofun, fun _ _ _ i hv => by cases hv⟩
    rcases hr with hst | hr
    · exact .inr (.inr (.inr ⟨b, r, .inl rfl, .inl hst, rfl, hb⟩))
    · obtain rfl := mem_singleton.mp hr
      exact .inl (hbyte o b hb)
  dsimp only [Advances, advance]
  split
  · rename_i hempty
    refine ⟨[], hdone _ fun o b hb => ?_⟩
    rw [byteAt_eq_none_of_empty hempty] at hb
    cases hb
  split
  · refine ⟨[], hdone _ fun _ _ _ => ?_⟩
    rw [hino]
    exact decide_eq_true rfl
  · refine ⟨[.put (m.chunk run)], rfl, rfl, fun e he => .inl ⟨_, mem_singleton.mp he⟩, .send,
      h.own, fun r hr => .inl ?_, fun r hr o b hb => .inr (.inr ?_), fun _ => .inl, nofun,
      fun _ => .inl rfl, nofun, nofun, nofun⟩
    · rw [mem_singleton.mp hr]
      exact congrArg some hino.symm
    · rcases hr with hst | hr
      · exact .inr ⟨b, r, .inl rfl, .inl hst, rfl, hb⟩
      · obtain rfl := mem_singleton.mp hr
        rcases chunk_or_rest m hb with hb | hb
        · exact .inl ⟨_, mem_singleton.mpr rfl, rfl, hb⟩
        · exact .inr ⟨b, _, .inl rfl, .inr (mem_singleton.mpr rfl), rfl, hb⟩

theorem advanced_handOn (h : m.Inv) (hcall : m.calls[id]? = some (c, .dispatch left result))
    (failure : Option Errno) (hquiet : m.consumes (.step id failure) = false) :
    ∃ new, Advances m id c failure (.dispatch left result) new := by
  have hmem : (c, .dispatch left result) ∈ m.calls := mem_of_getElem? hcall
  have hfits := (h.fits _ hmem).advance m id failure
  cases left with
  | nil =>
    refine ⟨[], .idle h hmem rfl (append_nil _).symm nofun rfl rfl hfits rfl ?_ (fun ino hd => ?_) ?_ ?_ ?_ ?_⟩
    · cases c <;> rfl
    · rw [dispatch_dooms] at hd
      cases hd
    · cases c <;> first | exact fun _ => .inl rfl | exact nofun
    · cases c <;> first | exact fun _ => rfl | exact nofun
    · cases c <;> exact nofun
    · cases c <;> first | exact fun _ _ _ => .inr fun _ => rfl | exact nofun
  | cons run left =>
    dsimp only [consumes] at hquiet
    rw [hcall] at hquiet
    dsimp only [Advances, advance]
    split
    · rename_i p hp
      split
      · exact ⟨[], .blocked h hmem rfl⟩
      · rename_i p' hsubmit
        exact ⟨[], advanced_submit h hmem hp hsubmit⟩
    rename_i hp
    split
    · rename_i hempty
      refine ⟨[], advanced_dispatch [] h hmem rfl (append_nil _).symm nofun rfl (fun _ h => h) (fun _ h => h)
        nofun fun o b hb => ?_⟩
      rw [byteAt_eq_none_of_empty hempty] at hb
      cases hb
    rename_i hsome
    split
    · refine ⟨[.put (m.chunk run)], advanced_dispatch [m.rest run] h hmem rfl rfl
        (fun e he => ⟨_, mem_singleton.mp he⟩) rfl (fun _ h => h) (fun _ h => h)
        (fun r hr => mem_singleton.mp hr ▸ rfl) fun o b hb => ?_⟩
      exact (chunk_or_rest m hb).imp (fun hb => ⟨_, mem_singleton.mpr rfl, rfl, hb⟩)
        fun hb => .inr ⟨_, mem_singleton.mpr rfl, hb⟩
    · have hreports : c.reports run.ino = true := by simpa [hp, hsome] using hquiet
      split
      · rename_i hall
        rw [hall] at hreports
        cases hreports
      · exact ⟨[], advanced_sendFailed h hmem hreports⟩

/-- The end of a close, which returns what its flush found unless it fails itself. -/
theorem advanced_released {flushed : Option Errno} (h : m.Inv) (hmem : (.released ino, phase) ∈ m.calls)
    (hphase : phase = .release flushed ∨ phase = .remove flushed)
    (hnext : next = .done (.of flushed) ∨ next = .remove flushed ∨ ∃ e, next = .done (.error e))
    (hcalls : m'.calls = m.calls) (hlog : m'.log = m.log) (hdirty : m'.dirty = m.dirty)
    (hpipe : m'.pipeline = m.pipeline) : Advanced m (.released ino) phase next [] m' := by
  have hdrained : flushed = none → phase.drained = true := by
    rintro rfl
    rcases hphase with rfl | rfl <;> rfl
  refine .idle h hmem hcalls (by rw [hlog, append_nil]) nofun hdirty hpipe ?_ ?_ ?_
    (fun i hd => ?_) ?_ ?_ (fun hd => .inl (hdrained ?_)) fun reply heq hok => .inl (hdrained ?_)
  · rcases hnext with rfl | rfl | ⟨e, rfl⟩ <;> constructor
  · rcases hphase with rfl | rfl <;> rfl
  · rcases hnext with rfl | rfl | ⟨e, rfl⟩ <;> rfl
  · cases reports_of_dooms hd
  · rcases hnext with rfl | rfl | ⟨e, rfl⟩ <;> exact nofun
  · rcases hphase with rfl | rfl <;> exact fun _ => rfl
  · cases flushed with
    | none => rfl
    | some e => rcases hnext with rfl | rfl | ⟨e, rfl⟩ <;> cases hd
  · cases flushed with
    | none => rfl
    | some e => rcases hnext with rfl | rfl | ⟨e, rfl⟩ <;> cases heq <;> cases hok

theorem advanced (h : m.Inv) (hcall : m.calls[id]? = some (c, phase)) (hrun : phase.isOver = false)
    (failure : Option Errno) (hquiet : m.consumes (.step id failure) = false) :
    ∃ new, Advances m id c failure phase new := by
  have hmem : (c, phase) ∈ m.calls := mem_of_getElem? hcall
  have hfits := (h.fits _ hmem).advance m id failure
  cases h.fits _ hmem with
  | drop hc =>
    have hlog := (append_nil m.log).symm
    cases c with
    | setattr ino size =>
      refine ⟨[], .other h hmem (fun _ => ⟨rfl, rfl⟩) rfl hlog nofun rfl rfl hfits rfl ?_ ?_⟩ <;>
        cases size <;> rfl
    | _ => exact ⟨[], .idle h hmem rfl hlog nofun rfl rfl hfits rfl rfl nofun nofun nofun nofun nofun⟩
  | check =>
    refine ⟨[], ?_⟩
    dsimp only [Advances, advance] at hfits ⊢
    split
    · refine .idle h hmem rfl (append_nil _).symm nofun rfl rfl .done rfl rfl nofun
        (fun _ => .inr fun ino hr => hr) nofun nofun fun reply heq hok => ?_
      cases heq
      cases hok
    · exact .idle h hmem rfl (append_nil _).symm nofun rfl rfl .buffer rfl rfl nofun nofun nofun nofun nofun
  | buffer => exact ⟨[], advanced_buffer h hmem failure⟩
  | buffered | dispatch => exact advanced_handOn h hcall failure hquiet
  | take hc =>
    by_cases hall : c = .flushAll
    · subst hall
      exact ⟨[], advanced_takeAll h hmem failure⟩
    · exact ⟨[], advanced_take h hmem hc hall failure⟩
  | wait hc => exact ⟨[], advanced_wait h hmem hc failure hcall hquiet⟩
  | cached =>
    refine ⟨[], ?_⟩
    dsimp only [Advances, advance] at hfits ⊢
    split <;> exact .still h hmem rfl rfl (by constructor) rfl
  | answer | sequential | opening => exact ⟨[], .still h hmem rfl rfl hfits rfl⟩
  | fetch =>
    refine ⟨[], ?_⟩
    dsimp only [Advances, advance] at hfits ⊢
    split
    · exact .still h hmem rfl rfl .keep rfl
    split
    · exact .still h hmem rfl rfl .done rfl
    split <;> exact .still h hmem rfl rfl (by constructor) rfl
  | keep =>
    refine ⟨[], .other h hmem (fun _ => ⟨rfl, rfl⟩) ?_ ?_ nofun ?_ ?_ hfits rfl rfl rfl⟩ <;>
      (dsimp only [advance]; split <;> simp)
  | fetchDirect =>
    refine ⟨[], ?_⟩
    dsimp only [Advances, advance] at hfits ⊢
    split
    · exact .still h hmem rfl rfl .done rfl
    split
    · exact .still h hmem rfl rfl .done rfl
    split <;> exact .still h hmem rfl rfl (by constructor) rfl
  | send => exact advanced_send h hmem failure
  | cut =>
    rename_i ino size
    refine ⟨[], ?_⟩
    dsimp only [Advances, advance] at hfits ⊢
    split
    · exact .blocked h hmem rfl
    · -- the flush before took what was buffered
      have hnone : m.dirty.runs[ino]? = none := h.emptied _ hmem rfl ino (.inl rfl)
      have hsame : m.dirty.truncate ino size = m.dirty := by rw [truncate, hnone]
      exact .other h hmem (fun _ => ⟨rfl, rfl⟩) rfl (append_nil _).symm nofun hsame rfl .attr rfl
        rfl rfl
  | attr =>
    rename_i ino size
    cases failure with
    | some e =>
      exact ⟨[], .still h hmem rfl rfl hfits rfl⟩
    | none =>
      cases size with
      | none =>
        exact ⟨[], .still h hmem rfl rfl hfits rfl⟩
      | some size =>
        exact ⟨[.resized ino size], .other h hmem (fun _ => ⟨rfl, rfl⟩) rfl rfl
          (fun e he => ⟨ino, size, mem_singleton.mp he⟩) rfl rfl hfits rfl rfl rfl⟩
  | look =>
    rename_i found
    refine ⟨[], ?_⟩
    cases found with
    | none =>
      exact .still h hmem rfl rfl hfits rfl
    | some found =>
      dsimp only [Advances, advance] at hfits ⊢
      split <;> exact .still h hmem rfl rfl (by first | exact .park | exact .take rfl) rfl
  | rename | park | unlink =>
    refine ⟨[], ?_⟩
    cases failure <;> exact .still h hmem rfl rfl hfits rfl
  | release =>
    refine ⟨[], ?_⟩
    dsimp only [Advances, advance]
    split
    · exact advanced_released h hmem (.inl rfl) (.inl rfl) rfl rfl rfl rfl
    · split
      · exact advanced_released h hmem (.inl rfl) (.inr (.inl rfl)) rfl rfl rfl rfl
      · exact advanced_released h hmem (.inl rfl) (.inl rfl) rfl rfl rfl rfl
  | remove =>
    refine ⟨[], ?_⟩
    cases failure with
    | none => exact advanced_released h hmem (.inr rfl) (.inl rfl) rfl rfl rfl rfl
    | some e => exact advanced_released h hmem (.inr rfl) (.inr (.inr ⟨e, rfl⟩)) rfl rfl rfl rfl
  | unhide =>
    rename_i result
    refine ⟨[], .idle h hmem rfl (append_nil _).symm nofun rfl rfl hfits rfl rfl nofun nofun (fun _ => rfl) ?_ nofun⟩
    cases result <;> first | exact fun _ => .inl rfl | exact nofun
  | removeAll =>
    rename_i left result
    refine ⟨[], ?_⟩
    cases left with
    | nil =>
      refine .idle h hmem rfl (append_nil _).symm nofun rfl rfl hfits rfl rfl ?_ nofun nofun nofun ?_
      · cases result <;> exact fun _ hd => by cases hd
      · intro reply heq hok
        cases heq
        cases result <;> first | exact .inl rfl | cases hok
    | cons ino left =>
      refine .idle h hmem rfl (append_nil _).symm nofun rfl rfl hfits rfl rfl ?_ nofun (fun _ => rfl) ?_ nofun
      · cases result <;> exact fun _ hd => by cases hd
      · cases result <;> cases failure <;> first | exact fun _ => .inl rfl | exact nofun
  | done => cases hrun

end Advance

theorem Inv.step (h : m.Inv) (event : Event) (hcall : ∀ c, event = .call c → ∀ call ∈ m.calls, call.2.isOver = true)
    (hquiet : m.consumes event = false) : (m.step event).Inv := by
  cases event with
  | call c => exact h.call c (hcall c rfl)
  | step id failure =>
    cases hid : m.calls[id]? with
    | none =>
      rw [Mount.step, hid]
      exact h
    | some call =>
      obtain ⟨c, phase⟩ := call
      cases hover : phase.isOver with
      | true =>
        obtain ⟨reply, rfl⟩ := Phase.exists_of_over hover
        rw [Mount.step, hid]
        exact h
      | false =>
        obtain ⟨new, hadv⟩ := advanced h hid hover failure hquiet
        have hstep : m.step (.step id failure) =
            (m.advance id c failure phase).2.arrive id c (m.advance id c failure phase).1 := by
          rw [Mount.step, hid]
          cases phase <;> first | rfl | cases hover
        rw [hstep]
        exact h.arrive hid hover hadv
  | pop => exact h.work (worked_pop m)
  | work worker failure =>
    obtain ⟨new, hw⟩ := worked_work m worker failure
    exact h.work hw
  | expire | forget => exact h.work (Worked.same rfl rfl rfl rfl)

/-! ### Runs -/

/-- Calls begin one after the other. -/
def OneByOne (cfg : Config) (events : List Event) : Prop :=
  ∀ before c after, events = before ++ .call c :: after →
    ∀ call ∈ (run cfg before).calls, call.2.isOver = true

/-- No failure is taken by a call other than a write, an `fsync` or a `close` of the inode. -/
def Attentive (cfg : Config) (events : List Event) : Prop :=
  ∀ before event after, events = before ++ event :: after → (run cfg before).consumes event = false

theorem inv_new (cfg : Config) : (new cfg).Inv := by
  have hcalls : (new cfg).calls = [] := rfl
  have hlog : (new cfg).log = [] := rfl
  refine ⟨?_, ?_, ?_, ?_, ?_, fun i r hr => ?_, ?_, ?_, ?_, fun ino => .inr (.inr ?_),
    fun before id c reply after heq => ?_⟩ <;> first | simp [hcalls, hlog] | skip
  · simp [new] at hr
  · simp [hlog] at heq

variable {cfg : Config} {events : List Event}

theorem run_inv (hone : OneByOne cfg events) (hatt : Attentive cfg events) : (run cfg events).Inv := by
  induction events using reverseRecOn with
  | nil => exact inv_new cfg
  | append_singleton events event ih =>
    have hinv := ih (fun before c after heq => hone before c (after ++ [event]) (by rw [heq]; simp))
      fun before e after heq => hatt before e (after ++ [event]) (by rw [heq]; simp)
    have hrun : run cfg (events ++ [event]) = (run cfg events).step event := by
      rw [run, foldl_append]
      rfl
    rw [hrun]
    exact hinv.step event (fun c heq => hone events c [] (by rw [heq])) (hatt events event [] rfl)

theorem lost_writes_reported (cfg : Config) (events : List Event) (hone : OneByOne cfg events)
    (hatt : Attentive cfg events) : Honest (run cfg events).log :=
  (run_inv hone hatt).honest

def begins : Event → Bool
  | .call _ => true
  | _ => false

theorem oneByOne_of_take (h : ∀ i < events.length, events[i]?.any begins = true →
      ∀ call ∈ (run cfg (events.take i)).calls, call.2.isOver = true) : OneByOne cfg events := by
  intro before c after heq
  obtain ⟨htake, hlt, hget⟩ := Program.eq_take_of_split heq
  rw [htake]
  exact h _ hlt (by rw [hget]; rfl)

theorem attentive_of_take
    (h : ∀ i < events.length, ∀ event ∈ events[i]?, (run cfg (events.take i)).consumes event = false) :
    Attentive cfg events := by
  intro before event after heq
  obtain ⟨htake, hlt, hget⟩ := Program.eq_take_of_split heq
  rw [htake]
  exact h _ hlt event hget

def smallRuns : Config := ⟨2, 1, 8, 0⟩

/-- The run of one file fails, that of another is stored; `fsync` tells about each. -/
def heardRun : List Event :=
  calling 0 (.write 1 0 [7, 8]) 5 ++ [.pop, .work 0 (some 5)] ++ calling 1 (.write 2 0 [7, 8, 9]) 5 ++
    [.pop, .work 0 none, .work 0 none] ++ calling 2 (.flush 1) 3 ++
    .call (.flush 2) :: List.replicate 3 (.step 3 none) ++ [.pop, .work 0 none, .work 0 none, .step 3 none]

theorem heardRun_honest : OneByOne smallRuns heardRun ∧ Attentive smallRuns heardRun ∧
    Honest (run smallRuns heardRun).log := by
  have hone : OneByOne smallRuns heardRun := by
    refine oneByOne_of_take ?_
    decide +kernel
  have hatt : Attentive smallRuns heardRun := by
    refine attentive_of_take ?_
    decide +kernel
  exact ⟨hone, hatt, lost_writes_reported smallRuns heardRun hone hatt⟩

/-- The run of a file fails, a read of the file takes the failure, and `fsync` returns success. -/
def swallowedRun : List Event :=
  calling 0 (.write 1 0 [7, 8]) 5 ++ [.pop, .work 0 (some 5)] ++ calling 1 (.read 1 0 2) 3 ++
    calling 2 (.flush 1) 3

theorem swallowed_failure :
    OneByOne smallRuns swallowedRun ∧ ¬ Honest (run smallRuns swallowedRun).log := by
  refine ⟨oneByOne_of_take ?_, fun h => ?_⟩
  · decide +kernel
  let before : List Entry := [.begun 0 (.write 1 0 [7, 8]), .ended 0 (.write 1 0 [7, 8]) (.written 2),
    .begun 1 (.read 1 0 2), .ended 1 (.read 1 0 2) (.error 5), .begun 2 (.flush 1)]
  have hlog : (run smallRuns swallowedRun).log = before ++ [.ended 2 (.flush 1) .ok] := by
    decide +kernel
  rcases h before 2 (.flush 1) .ok [] hlog rfl 1 rfl with ⟨id, c, e, hmem, hr⟩ | hall
  · simp only [before, mem_cons, not_mem_nil, or_false, reduceCtorEq, false_or,
      Entry.ended.injEq, Reply.error.injEq, and_false] at hmem
    obtain ⟨-, rfl, -⟩ := hmem
    cases hr
  · obtain ⟨j, id, c, b, -, -, -, n, r, -, hput, -⟩ :=
      hall 0 0 (.write 1 0 [7, 8]) (.written 2) rfl (by decide) rfl 0 rfl
    have hmem : .put r ∈ before := mem_of_getElem? hput
    simp [before] at hmem

end Mount

end AtlasNative.Fuse
