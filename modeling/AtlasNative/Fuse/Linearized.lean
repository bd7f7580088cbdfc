import AtlasNative.Fuse.Linear

/-!
# Each step shows the calls one array

A step of a call moves bytes between buffer, pipeline and cluster, takes effect, or shows the caller
what the array has. The workers only move bytes.
-/

namespace AtlasNative.Fuse

open List Pipeline File Sending Option Std.ExtTreeMap Call WriteBack Dirty

open Program (Act Object)

variable {run : Dirty}

/-- A run holds what its parts before and after an offset hold. -/
theorem newest_cut {cut : Nat} (h : run.offset ≤ cut) (left : List Dirty) (o : Nat) :
    newest (run.before cut :: run.after cut :: left) o = newest (run :: left) o := by
  rw [newest_cons, newest_cons, newest_cons, Option.or_assoc, byteAt_before, byteAt_after h]
  by_cases ho : o < cut
  · rw [if_pos ho, if_neg (by omega), none_or]
  · rw [if_neg ho, if_pos (by omega), or_none]

namespace Mount

variable {ino : Nat} {init : Bytes} {m m' : Mount} {id : Nat} {c : Call} {phase next : Phase}
  {order : List (Nat × Call)}

theorem file_put (m : Mount) (h : run.ino = ino) :
    (m.put run).file ino = File.put (m.file ino) run.offset run.data := by
  subst h
  rw [file, put]
  rw [getD_insert_self]

theorem putAll_chunk (file : Bytes) (run : Dirty) (left : List Dirty) :
    putAll (File.put file (m.chunk run).offset (m.chunk run).data) (m.rest run :: left) = putAll file (run :: left) :=
  (putAll_cons file (m.chunk run) (m.rest run :: left)).symm.trans
    (putAll_congr file (newest_cut (Nat.le_add_right _ _) left))

theorem putAll_empty (file : Bytes) (h : run.data = []) (left : List Dirty) :
    putAll file (run :: left) = putAll file left := by
  rw [putAll_cons, h, File.put, if_pos rfl]

theorem unsent_of_flight (h : ∀ p, m.pipeline = some p → p.inflight = []) : m.unsent = [] := by
  unfold unsent
  split
  · rfl
  · rename_i p hp
    obtain ⟨hqueue, hsending⟩ := append_eq_nil_iff.mp (h p hp)
    rw [map_eq_nil_iff.mp hsending, hqueue]
    rfl

/-- Once its flush has returned, the cluster has all that a call relies on. -/
theorem Shape.pending_of_waited (h : m.Shape ino) (hcall : m.calls[id]? = some (c, phase))
    (hg : Guarding (c, phase)) (hw : phase.waited = true) : m.pending ino = phase.pending := by
  obtain ⟨hruns, hothers⟩ := h.taken id _ hcall hg (Phase.taken_of_waited hw)
  have hhand : hand m.calls = phase.pending ∧ hand (m.calls.set id (c, phase)) = phase.pending :=
    hand_of_others hcall hothers
  rw [pending, unsent_of_flight (h.waited _ (mem_of_getElem? hcall) hg hw), hruns, hhand.1]
  simp

/-! ### Each step -/

/-- What the step that the call is at leaves. -/
abbrev Shows (ino : Nat) (init : Bytes) (m : Mount) (order : List (Nat × Call)) (id : Nat) (c : Call)
    (phase : Phase) (order' : List (Nat × Call)) : Prop :=
  Shown ino init m order id c phase (m.advance id c none phase).1 (m.advance id c none phase).2 order'

theorem Shown.blocked (h : m.Linear ino init order) (hcall : m.calls[id]? = some (c, phase))
    (hrun : phase.isOver = false) : Shown ino init m order id c phase phase m order :=
  .quiet h rfl rfl rfl hcall rfl (fun reply heq => by rw [heq] at hrun; cases hrun) rfl rfl rfl rfl
    (fun _ _ hb => hb) (h.reading _ (mem_of_getElem? hcall))

variable {ino' offset : Nat}

section

variable (hs : m.Shape ino) (h : m.Linear ino init order)
include hs h

theorem shown_buffer {data : Bytes} (hcall : m.calls[id]? = some (.write ino' offset data, .buffer)) :
    ∃ order', Shows ino init m order id (.write ino' offset data) .buffer order' := by
  have hino : ino' = ino := by simpa [on] using (hs.kinds _ (mem_of_getElem? hcall)).1
  subst hino
  dsimp only [Shows, advance]
  split
  · exact ⟨order, .blocked h hcall rfl⟩
  rename_i hfree
  have hfree : m.lock = none := by simpa using hfree
  have hothers : ∀ (j : Nat) other, j ≠ id → m.calls[j]? = some other → other.2.pending = [] := by
    intro j other hne hj
    refine (hs.pending_of_free hfree hj).resolve_right fun hx => ?_
    obtain ⟨hg, -, hover, -⟩ := hx
    have := hs.not_changes hne hj hcall ⟨hg, hover⟩ rfl
    cases this
  have hhand : hand m.calls = [] ∧ hand (m.calls.set id (.write ino' offset data,
        .dispatch (m.dirty.write ino' offset data).1 none)) = (m.dirty.write ino' offset data).1 :=
    hand_of_others hcall hothers
  refine ⟨_, .changed hs hcall ⟨rfl, (by simp), rfl⟩ rfl rfl (by simp) rfl rfl rfl rfl ?_⟩
  -- the buffered run and the write hold what is handed on and what stays buffered
  have hput : ((byteArray init).apply ((byteArray init).after order) (.write ino' offset data)).1 =
      putAll (m.file ino') (m.pending ino' ++ [⟨ino', offset, data⟩]) := by
    rw [putAll_append, ← h.array]
    rfl
  rw [hput, hhand.2]
  refine putAll_congr _ fun o => ?_
  show _ = newest (m.unsent ++ (m.dirty.write ino' offset data).1 ++
    (m.dirty.write ino' offset data).2.runs[ino']?.toList) o
  rw [pending, hhand.1, append_nil, append_assoc, newest_append m.unsent, newest_append,
    append_assoc, newest_append m.unsent, newest_write, newest_cons, newest_nil,
    none_or]

theorem shown_take (hcall : m.calls[id]? = some (c, .take)) : Shows ino init m order id c .take order := by
  obtain ⟨hon, hfits⟩ := hs.kinds _ (mem_of_getElem? hcall)
  obtain ⟨hall, hino⟩ := ino_of_on hon
  rw [Shows, advance_take m id none hall, hino]
  split
  · exact .blocked h hcall rfl
  rename_i hfree
  have hfree : m.lock = none := by simpa using hfree
  have hc : c.flushes = true := by
    cases hfits with
    | take hc => exact hc
  refine .moved h rfl rfl rfl (by cases c <;> first | rfl | cases hc) (by simp) rfl ?_ (by cases c <;> trivial)
  show putAll (m.file ino) (m.unsent ++ hand (m.calls.set id (c, .dispatch m.dirty.runs[ino]?.toList none)) ++
      (m.dirty.runs.erase ino)[ino]?.toList) = _
  rw [getElem?_erase_self, pending]
  cases hrun : m.dirty.runs[ino]? with
  | none =>
    have hsame : hand (m.calls.set id (c, .dispatch [] none)) = hand m.calls := hand_set_same hcall rfl
    rw [toList_none, hsame]
  | some run =>
    -- with a run buffered, no write around the buffer is on its way
    have hothers : ∀ (j : Nat) other, j ≠ id → m.calls[j]? = some other → other.2.pending = [] := by
      intro j other hne hj
      refine (hs.pending_of_free hfree hj).resolve_right fun hx => ?_
      obtain ⟨hg, -, hover, ht⟩ := hx
      rw [(hs.taken j other hj ⟨hg, hover⟩ ht).1] at hrun
      cases hrun
    have hhand : hand m.calls = [] ∧ hand (m.calls.set id (c, .dispatch [run] none)) = [run] :=
      hand_of_others hcall hothers
    rw [toList_some, hhand.1, hhand.2, toList_none]
    simp

theorem shown_handOn {left : List Dirty} {r : Option Errno} (hcall : m.calls[id]? = some (c, .dispatch left r)) :
    Shows ino init m order id c (.dispatch left r) order := by
  have hmem := mem_of_getElem? hcall
  have hfits := (hs.kinds _ hmem).2
  cases left with
  | nil =>
    have hc : (∃ i offset data, c = .write i offset data) ∨
        c.dispatched r = .wait r ∧ (Phase.dispatch [] r).effected c = false ∧ (Phase.wait r).effected c = false := by
      cases hfits with
      | buffered => exact .inl ⟨_, _, _, rfl⟩
      | dispatch hc => cases c <;> first | exact .inr ⟨rfl, rfl, rfl⟩ | cases hc
    dsimp only [Shows, advance]
    rcases hc with ⟨i, offset, data, rfl⟩ | ⟨hnext, heff, heff'⟩
    · refine .moved h rfl rfl rfl rfl (fun reply heq a => ?_) rfl (putAll_same hcall rfl rfl rfl rfl)
        trivial
      cases heq
      rfl
    · rw [hnext]
      exact .moved h rfl rfl rfl (heff.trans heff'.symm) (by simp) rfl (putAll_same hcall rfl rfl rfl rfl)
        (by cases c <;> trivial)
  | cons run left =>
    have hmine : run.ino = ino := hs.hands _ hmem run mem_cons_self
    have heff : ∀ runs, (Phase.dispatch (run :: left) r).effected c =
        (Phase.dispatch runs r).effected c := fun runs => by cases c <;> rfl
    have hreading : ∀ runs, Reading ((byteArray init).after order) m.cfg (c, .dispatch runs r) :=
      fun runs => by cases c <;> trivial
    have hothers : ∀ (j : Nat) other, j ≠ id → m.calls[j]? = some other → other.2.pending = [] := by
      intro j other hne hj
      obtain ⟨c', p⟩ := other
      cases p with
      | dispatch left' r' =>
        have hlock := hs.lock j c' left' r' hj
        rw [hs.lock id c _ r hcall] at hlock
        exact absurd (some.inj hlock).symm hne
      | send run' =>
        have hg : Guarding (c', .send run') := by
          have := (hs.kinds _ (mem_of_getElem? hj)).2
          cases this
          exact ⟨rfl, rfl⟩
        have := hs.not_taken hcall (cons_ne_nil run left) hne hj hg
        cases this
      | _ => rfl
    have hhand : ∀ runs, hand m.calls = run :: left ∧
        hand (m.calls.set id (c, .dispatch runs r)) = runs := fun runs => hand_of_others hcall hothers
    have hold : m.pending ino = m.unsent ++ run :: left ++ m.dirty.runs[ino]?.toList := by
      rw [pending, (hhand []).1]
    dsimp only [Shows, advance]
    split
    · rename_i p hp
      split
      · exact .blocked h hcall rfl
      rename_i p' hsubmit
      unfold submit at hsubmit
      split at hsubmit
      · cases hsubmit
      obtain rfl := some.inj hsubmit
      refine .moved h rfl rfl rfl (heff left) (by simp) rfl ?_ (hreading left)
      rw [hold, (hhand left).2]
      simp [unsent, hp, file]
    rename_i hp
    have hunsent : m.unsent = [] := by rw [unsent, hp]
    split
    · rename_i hempty
      refine .moved h rfl rfl rfl (heff left) (by simp) rfl ?_ (hreading left)
      rw [hold, (hhand left).2, hunsent, nil_append, nil_append, cons_append, putAll_empty _ hempty]
    · refine .moved h rfl ?_ rfl (heff _) (by simp) rfl ?_ (hreading _)
      · show history (m.log ++ [.put (m.chunk run)]) = history m.log
        rw [history_append]
        exact append_nil _
      · have hput : (m.put (m.chunk run)).unsent = [] := hunsent
        rw [hold, (hhand _).2, hunsent]
        rw [hput, file_put m (show (m.chunk run).ino = ino from hmine)]
        exact putAll_chunk _ run _

theorem shown_wait {r : Option Errno} (hcall : m.calls[id]? = some (c, .wait r)) :
    ∃ order', Shows ino init m order id c (.wait r) order' := by
  have hmem := mem_of_getElem? hcall
  obtain ⟨hon, hfits⟩ := hs.kinds _ hmem
  obtain ⟨hall, hino⟩ := ino_of_on hon
  have hres : r = none := (hs.clean _ hmem).2 r rfl
  subst hres
  have hc : c.flushes = true := by
    cases hfits with
    | wait hc => exact hc
  have hdone : ∀ {m' : Mount}, m'.calls = m.calls → m'.dirty = m.dirty → m'.log = m.log →
      m'.cfg = m.cfg → m'.files = m.files → m'.readahead = m.readahead → m.unsent = [] →
      m'.unsent = [] → ∃ order', Shown ino init m order id c (.wait none) (c.flushed none) m' order' := by
    intro m' hcalls hdirty hlog hcfg hfiles hahead hunsent hunsent'
    have hfile : m'.file ino = m.file ino := by rw [file, file, hfiles]
    have hruns : m'.dirty.runs[ino]? = m.dirty.runs[ino]? := by rw [hdirty]
    have hhist : history m'.log = history m.log := by rw [hlog]
    have hsame : m'.unsent = m.unsent := hunsent'.trans hunsent.symm
    cases c with
    | flush i =>
      exact ⟨_, .returns h hcalls hhist hcfg hcall rfl rfl hfile hsame hruns rfl fun _ _ hb => .inl (hahead ▸ hb)⟩
    | read | setattr =>
      exact ⟨order, .moved h hcalls hhist hcfg rfl nofun hahead (putAll_same hcall rfl hfile hsame hruns) trivial⟩
    | writeThrough i offset data =>
      refine ⟨_, .changed hs hcall ⟨rfl, nofun, rfl⟩ rfl rfl nofun hcalls hhist hcfg hahead ?_⟩
      obtain ⟨hnone, hothers⟩ := hs.taken id _ hcall ⟨rfl, rfl⟩ rfl
      have hhand : hand m.calls = [] ∧ hand (m.calls.set id (.writeThrough i offset data,
          .send ⟨i, offset, data⟩)) = [⟨i, offset, data⟩] := hand_of_others hcall hothers
      have hempty : m.pending ino = [] := by
        rw [pending, hunsent, hhand.1, hnone]
        rfl
      have harray : (byteArray init).after order = m.file ino := by
        rw [h.array, hempty, putAll_nil]
      show File.put ((byteArray init).after order) offset data = putAll (m'.file ino) (m'.unsent ++
        hand (m.calls.set id (.writeThrough i offset data, .send ⟨i, offset, data⟩)) ++ _)
      rw [harray, hunsent', hhand.2, hruns, hnone, hfile]
      rfl
    | _ => first | (cases hc; done) | cases hon
  dsimp only [Shows, advance]
  split
  · rename_i hp
    have hunsent : m.unsent = [] := by rw [unsent, hp]
    exact hdone rfl rfl rfl rfl rfl rfl hunsent hunsent
  · rename_i p hp
    rw [if_neg hall, hino]
    obtain ⟨herr, -, hmine⟩ := hs.flight p hp
    split
    · exact ⟨order, .blocked h hcall rfl⟩
    rename_i e p' hwait
    obtain ⟨hnone, rfl, rfl⟩ := wait_eq_some hwait
    have hfound : (p.errors[(some ino).getD 0]?).or none = none := by rw [herr]; simp
    rw [hfound]
    have hflight : p.inflight = [] := eq_nil_iff_forall_not_mem.mpr fun run hrun => hnone run hrun (hmine run hrun)
    refine hdone rfl rfl rfl rfl rfl rfl (unsent_of_flight fun q hq => ?_) (unsent_of_flight fun q hq => ?_)
    · rw [hp] at hq
      obtain rfl := some.inj hq
      exact hflight
    · obtain rfl := some.inj hq
      exact hflight

theorem shown_send {data : Bytes} (hcall : m.calls[id]? = some (.writeThrough ino' offset data, .send run)) :
    Shows ino init m order id (.writeThrough ino' offset data) (.send run) order := by
  have hmem := mem_of_getElem? hcall
  have hmine : run.ino = ino := hs.hands _ hmem run (mem_singleton.mpr rfl)
  have hpending : m.pending ino = [run] := hs.pending_of_waited hcall ⟨rfl, rfl⟩ rfl
  have hunsent : m.unsent = [] := unsent_of_flight (hs.waited _ hmem ⟨rfl, rfl⟩ rfl)
  obtain ⟨hruns, hothers⟩ := hs.taken id _ hcall ⟨rfl, rfl⟩ rfl
  have hhand : ∀ next : Phase, hand m.calls = [run] ∧
      hand (m.calls.set id (.writeThrough ino' offset data, next)) = next.pending :=
    fun next => hand_of_others hcall hothers
  dsimp only [Shows, advance]
  split
  · rename_i hempty
    refine .moved h rfl rfl rfl rfl (fun reply heq a => ?_) rfl ?_ trivial
    · cases heq
      rfl
    · rw [hpending, (hhand _).2, hunsent, hruns, putAll_empty _ hempty]
      rfl
  · refine .moved h rfl ?_ rfl rfl nofun rfl ?_ trivial
    · show history (m.log ++ [.put (m.chunk run)]) = history m.log
      rw [history_append]
      exact append_nil _
    · have hput : (m.put (m.chunk run)).unsent = [] := hunsent
      have hbuf : (m.put (m.chunk run)).dirty.runs[ino]? = none := hruns
      rw [hpending, (hhand _).2]
      rw [hput, hbuf, file_put m (show (m.chunk run).ino = ino from hmine)]
      exact putAll_chunk _ run []

omit hs h in
theorem wants_max (cfg : Config) (len : Nat) (seq : Bool) :
    Wants cfg len (if seq then max len cfg.readaheadBytes else len) := by
  cases seq with
  | false => exact .inl rfl
  | true =>
    rcases lt_or_ge len cfg.readaheadBytes with hlt | hle
    · exact .inr ⟨by simpa using hlt, by simpa using hlt.le⟩
    · exact .inl (by simpa using hle)

/-- The array that a read relies on is the cluster's file. -/
theorem Linear.file_of_waited (hcall : m.calls[id]? = some (c, phase)) (hg : Guarding (c, phase))
    (hw : phase.waited = true) (hpend : phase.pending = []) :
    (byteArray init).after order = m.file ino := by
  rw [h.array, hs.pending_of_waited hcall hg hw, hpend, putAll_nil]

theorem shown_cached {len : Nat} (hcall : m.calls[id]? = some (.read ino' offset len, .cached)) :
    Shows ino init m order id (.read ino' offset len) .cached order := by
  have hino : ino' = ino := by
    simpa [on] using (hs.kinds _ (mem_of_getElem? hcall)).1
  subst hino
  dsimp only [Shows, advance]
  split
  · rename_i end_ bytes hwindow
    refine .quiet h rfl rfl rfl hcall rfl (by simp) rfl rfl rfl rfl (fun _ _ hb => hb) ?_
    unfold window at hwindow
    split at hwindow
    · cases hwindow
    rename_i at_ buf hbuf
    split at hwindow
    · rename_i hcover
      obtain ⟨-, rfl⟩ := Prod.mk.inj (some.inj hwindow)
      exact get_window (h.window at_ buf hbuf) hcover.1 hcover.2
    · cases hwindow
  · exact .quiet h rfl rfl rfl hcall rfl (by simp) rfl rfl rfl rfl (fun _ _ hb => hb) trivial

theorem shown_fetch {len want : Nat} {out : Bytes}
    (hcall : m.calls[id]? = some (.read ino' offset len, .fetch want out)) :
    Shows ino init m order id (.read ino' offset len) (.fetch want out) order := by
  have hmem := mem_of_getElem? hcall
  have hino : ino' = ino := by simpa [on] using (hs.kinds _ hmem).1
  subst hino
  obtain ⟨hwants, hle, hout⟩ : Wants m.cfg len want ∧ out.length ≤ want ∧
      out = get ((byteArray init).after order) offset out.length := h.reading _ hmem
  have harray : (byteArray init).after order = m.file ino' := h.file_of_waited hs hcall ⟨rfl, rfl⟩ rfl rfl
  dsimp only [Shows, advance]
  split
  · have hlen : want = out.length := by omega
    refine .quiet h rfl rfl rfl hcall rfl (by simp) rfl rfl rfl rfl (fun _ _ hb => hb) ⟨hwants, ?_⟩
    rw [hlen]
    exact hout
  · generalize hn : min (want - out.length) m.cfg.maxIoBytes = n
    have hnext : (m.fetch ino' offset want out).1 = get ((byteArray init).after order) offset (out.length + n) := by
      rw [get_add, ← hout, harray, fetch, hn]
    have hlen : (m.fetch ino' offset want out).1.length = out.length +
        (get (m.file ino') (offset + out.length) n).length := by
      rw [fetch, hn, length_append]
    have hbound : (get (m.file ino') (offset + out.length) n).length ≤ n := length_take_le _ _
    split
    · rename_i hshort
      have hshort : (get (m.file ino') (offset + out.length) n).length < n := by
        rw [fetch, hn] at hshort
        exact of_decide_eq_true hshort
      refine .quiet h rfl rfl rfl hcall rfl (by simp) rfl rfl rfl rfl (fun _ _ hb => hb) ⟨hwants, ?_⟩
      rw [hnext]
      exact get_of_short (by rw [← hnext, hlen]; omega) (by omega)
    · rename_i hlong
      have hlong : ¬ (get (m.file ino') (offset + out.length) n).length < n := by
        rw [fetch, hn] at hlong
        exact fun hlt => hlong (decide_eq_true hlt)
      refine .quiet h rfl rfl rfl hcall rfl (by simp) rfl rfl rfl rfl (fun _ _ hb => hb) ⟨hwants, by rw [hlen]; omega, ?_⟩
      have hsum : (m.fetch ino' offset want out).1.length = out.length + n := by rw [hlen]; omega
      rw [hsum]
      exact hnext

theorem shown_keep {len want : Nat} {out : Bytes}
    (hcall : m.calls[id]? = some (.read ino' offset len, .keep want out)) :
    Shows ino init m order id (.read ino' offset len) (.keep want out) (order ++ [(id, .read ino' offset len)]) := by
  have hmem := mem_of_getElem? hcall
  have hino : ino' = ino := by simpa [on] using (hs.kinds _ hmem).1
  subst hino
  obtain ⟨hwants, hout⟩ : Wants m.cfg len want ∧
      out = get ((byteArray init).after order) offset want := h.reading _ hmem
  have hlen : len ≤ want := hwants.elim (fun heq => heq.ge) fun hlt => hlt.1.le
  have hget : out.take len = get ((byteArray init).after order) offset len := by
    rw [hout, File.get, File.get, take_take, min_eq_left hlen]
  have happly : (byteArray init).apply ((byteArray init).after order) (.read ino' offset len) =
      ((byteArray init).after order, .data (out.take len)) := by
    rw [hget]
    rfl
  dsimp only [Shows, advance]
  split
  · refine .returns h (by rfl) (by rfl) (by rfl) hcall rfl happly rfl rfl rfl rfl fun at_ buf hb => .inr ?_
    rw [getElem?_insert_self] at hb
    obtain ⟨rfl, rfl⟩ := Prod.mk.inj (some.inj hb)
    -- more than asked for is fetched only for a whole window
    rcases hwants with heq | ⟨-, heq⟩
    · omega
    · rw [← heq]
      exact hout
  · exact .returns h rfl rfl rfl hcall rfl happly rfl rfl rfl rfl fun _ _ hb => .inl hb

theorem shown_attr {size : Nat} (hcall : m.calls[id]? = some (.setattr ino' (some size), .attr)) :
    Shows ino init m order id (.setattr ino' (some size)) .attr (order ++ [(id, .setattr ino' (some size))]) := by
  have hino : ino' = ino := by simpa [on] using (hs.kinds _ (mem_of_getElem? hcall)).1
  subst hino
  have harray : (byteArray init).after order = m.file ino' := h.file_of_waited hs hcall ⟨rfl, rfl⟩ rfl rfl
  have hpending : m.pending ino' = [] := hs.pending_of_waited hcall ⟨rfl, rfl⟩ rfl
  refine .changed hs hcall ⟨rfl, (by simp), rfl⟩ rfl rfl (fun reply heq a => ?_) rfl ?_ rfl rfl ?_
  · cases heq
    rfl
  · show history (m.log ++ [.resized ino' size]) = history m.log
    rw [history_append]
    exact append_nil _
  · show resize ((byteArray init).after order) size = putAll
      ((m.files.insert ino' (resize (m.file ino') size)).getD ino' [])
      (m.unsent ++ hand (m.calls.set id (.setattr ino' (some size), .done .ok)) ++ m.dirty.runs[ino']?.toList)
    have hsame : hand (m.calls.set id (.setattr ino' (some size), .done .ok)) = hand m.calls := hand_set_same hcall rfl
    rw [hsame, ← pending, hpending, putAll_nil, getD_insert_self, harray]

theorem shown (hcall : m.calls[id]? = some (c, phase)) (hrun : phase.isOver = false) :
    ∃ order', Shows ino init m order id c phase order' := by
  have hmem := mem_of_getElem? hcall
  obtain ⟨hon, hfits⟩ := hs.kinds _ hmem
  obtain ⟨hall, hino⟩ := ino_of_on hon
  cases hfits with
  | drop hc =>
    have hgone : (m.readahead.erase (c.ino.getD 0))[ino]? = none := by
      rw [hino]
      exact getElem?_erase_self
    have hwindow : ∀ at_ buf, (m.readahead.erase (c.ino.getD 0))[ino]? = some (at_, buf) →
        m.readahead[ino]? = some (at_, buf) := by
      intro at_ buf hb
      rw [hgone] at hb
      cases hb
    dsimp only [Shows, advance]
    rcases dropped_of_on hon with hnext | hnext <;> rw [hnext] <;>
      exact ⟨order, .quiet h rfl rfl rfl hcall (by cases c <;> rfl) (by simp) rfl rfl rfl rfl hwindow
        (by cases c <;> trivial)⟩
  | check =>
    have hok : (m.pipeline.bind fun p => p.failed ino) = none := by
      cases hp : m.pipeline with
      | none => rfl
      | some p =>
        show p.errors[ino]? = none
        rw [(hs.flight p hp).1]
        rfl
    dsimp only [Shows, advance]
    rw [hino, getD_some, hok]
    exact ⟨order, .quiet h rfl rfl rfl hcall rfl (by simp) rfl rfl rfl rfl (fun _ _ hb => hb) trivial⟩
  | buffer => exact shown_buffer hs h hcall
  | buffered | dispatch => exact ⟨order, shown_handOn hs h hcall⟩
  | take hc => exact ⟨order, shown_take hs h hcall⟩
  | wait hc => exact shown_wait hs h hcall
  | cached => exact ⟨order, shown_cached hs h hcall⟩
  | answer =>
    refine ⟨_, .returns h (by rfl) (by rfl) (by rfl) hcall rfl ?_ rfl rfl rfl rfl fun _ _ hb => .inl hb⟩
    rename_i ino' offset len end_ bytes
    have hbytes : bytes = get ((byteArray init).after order) offset len := h.reading _ hmem
    rw [hbytes]
    rfl
  | sequential =>
    exact ⟨order, .quiet h rfl rfl rfl hcall rfl (by simp [advance]) rfl rfl rfl rfl (fun _ _ hb => hb)
      ⟨wants_max _ _ _, Nat.zero_le _, rfl⟩⟩
  | fetch => exact ⟨order, shown_fetch hs h hcall⟩
  | keep => exact ⟨_, shown_keep hs h hcall⟩
  | fetchDirect => cases hon
  | send => exact ⟨order, shown_send hs h hcall⟩
  | cut =>
    rename_i i size
    dsimp only [Shows, advance]
    split
    · exact ⟨order, .blocked h hcall rfl⟩
    · -- the flush before took what was buffered
      have hnone : m.dirty.runs[i]? = none := by
        rw [some.inj hino]
        exact (hs.taken id _ hcall ⟨rfl, rfl⟩ rfl).1
      have hsame : m.dirty.truncate i size = m.dirty := by rw [truncate, hnone]
      exact ⟨order, .quiet h rfl rfl rfl hcall rfl (by simp) rfl rfl
        (congrArg (fun d : WriteBack => d.runs[ino]?) hsame) rfl (fun _ _ hb => hb) trivial⟩
  | attr =>
    rename_i i size
    cases size with
    | none => cases hon
    | some size => exact ⟨_, shown_attr hs h hcall⟩
  | done => cases hrun
  | _ => cases hon

end

/-! ### Background -/

theorem Linear.background (h : m.Linear ino init order) (hcalls : m'.calls = m.calls)
    (hhist : history m'.log = history m.log) (hcfg : m'.cfg = m.cfg)
    (hahead : m'.readahead[ino]? = none ∨ m'.readahead[ino]? = m.readahead[ino]?)
    (harray : putAll (m'.file ino) (m'.pending ino) = putAll (m.file ino) (m.pending ino)) :
    m'.Linear ino init order := by
  refine ⟨hhist ▸ h.orders, hcalls ▸ h.effected, fun id c phase hcall => ?_, h.array.trans harray.symm,
    fun at_ buf hb => ?_, hcalls ▸ hcfg ▸ h.reading⟩
  · rw [hhist]
    exact h.invoked id c phase (hcalls ▸ hcall)
  · rcases hahead with hnone | hsame
    · rw [hnone] at hb
      cases hb
    · rw [hcfg]
      exact h.window at_ buf (hsame ▸ hb)

variable {o : Nat}

theorem overlaps_of_byteAt {a b : Dirty} {x y : UInt8} (hino : a.ino = b.ino)
    (ha : a.byteAt o = some x) (hb : b.byteAt o = some y) : overlaps a b = true := by
  have hin : ∀ {run : Dirty} {z : UInt8}, run.byteAt o = some z → run.offset ≤ o ∧ o < run.endAt := by
    intro run z hz
    unfold Dirty.byteAt at hz
    split at hz
    · rename_i hle
      have hlt := Program.lt_of_getElem? hz
      exact ⟨hle, by rw [endAt]; omega⟩
    · cases hz
  have ha := hin ha
  have hb := hin hb
  unfold overlaps
  simp only [Bool.and_eq_true, decide_eq_true_eq]
  exact ⟨⟨hino, by omega⟩, by omega⟩

theorem byteAt_left {s : Sending} {b : UInt8} (h : s.left.byteAt o = some b) : s.run.byteAt o = some b := by
  rw [left, byteAt_after (Nat.le_add_right _ _)] at h
  split at h
  · exact h
  · cases h

theorem newest_chunk (m : Mount) (s : Sending) (later : List Dirty) (o : Nat) : newest (m.chunk s.left ::
      left ⟨s.run, s.sent + (m.chunk s.left).data.length⟩ :: later) o =
      newest (s.left :: later) o := by
  generalize hn : (m.chunk s.left).data.length = n
  have hchunk : m.chunk s.left = s.left.before (s.left.offset + n) := by
    rw [← hn, chunk, Dirty.before, Dirty.before]
    simp only [Dirty.mk.injEq, true_and, Nat.add_sub_cancel_left]
    rw [length_take, take_eq_take_iff, min_assoc, min_self]
  have hleft : left ⟨s.run, s.sent + n⟩ = s.left.after (s.left.offset + n) := by
    simp only [left, Dirty.after, Dirty.mk.injEq, true_and, drop_drop, Nat.add_sub_cancel_left]
    exact ⟨by omega, trivial⟩
  rw [hchunk, hleft, newest_cut (Nat.le_add_right _ _)]

/-- A run may go before others that hold none of its bytes. -/
theorem newest_swap {runs : List Dirty} (later : List Dirty) (h : ∀ r ∈ runs, r.byteAt o = none ∨ run.byteAt o = none) :
    newest (run :: runs ++ later) o = newest (runs ++ run :: later) o := by
  rw [cons_append, newest_cons, newest_append, newest_append, newest_cons, Option.or_assoc, Option.or_assoc]
  congr 1
  cases hr : newest runs o with
  | none => rw [none_or, or_none]
  | some b =>
    obtain ⟨r, hmem, hb⟩ := exists_of_newest hr
    have hnone := (h r hmem).resolve_left (by rw [hb]; exact nofun)
    rw [hnone, or_none, none_or]

theorem unsent_pop (m : Mount) : unsent { m with pipeline := m.pipeline.map pop } = m.unsent := by
  unfold unsent
  cases hp : m.pipeline with
  | none => rfl
  | some p =>
    dsimp only [map_some]
    unfold pop
    split
    · rename_i run queue hqueue
      split
      · rw [hqueue]
        simp
      · rfl
    · rfl

theorem putAll_work (hs : m.Shape ino) (worker : Nat) :
    putAll ((m.work worker none).file ino) ((m.work worker none).pending ino) =
      putAll (m.file ino) (m.pending ino) := by
  unfold work
  split
  · rfl
  rename_i p hp
  split
  · rfl
  rename_i s hget
  obtain ⟨hlt, hs'⟩ := List.getElem?_eq_some_iff.mp hget
  have hsplit : p.sending = p.sending.take worker ++ s :: p.sending.drop (worker + 1) := by
    rw [← hs', getElem_cons_drop, take_append_drop]
  have hold : ∃ later, m.unsent = (p.sending.take worker).map left ++ s.left :: later ∧
      later = (p.sending.drop (worker + 1)).map left ++ p.queue := by
    have hmap := congrArg (map left) hsplit
    rw [map_append, map_cons] at hmap
    refine ⟨_, ?_, rfl⟩
    rw [unsent, hp]
    dsimp only
    rw [hmap, append_assoc, cons_append]
  obtain ⟨later, hold, hlater⟩ := hold
  split
  · rename_i hempty
    have hnew : unsent { m with pipeline := some (p.finish worker s.run.ino none) } =
        (p.sending.take worker).map left ++ later := by
      rw [hlater, unsent, finish, eraseIdx_eq_take_drop_succ]
      simp
    show putAll (m.file ino) (unsent { m with pipeline := some (p.finish worker s.run.ino none) } ++
      hand m.calls ++ m.dirty.runs[ino]?.toList) = _
    rw [hnew, pending, hold]
    simp only [append_assoc, cons_append, putAll_append _ (map _ _)]
    rw [putAll_empty _ hempty]
  · obtain ⟨-, hpair, hmine⟩ := hs.flight p hp
    have hrun : ∀ r ∈ p.sending, r.run.ino = ino := fun r hr =>
      hmine _ (mem_append_right _ (mem_map_of_mem hr))
    have hsin : s ∈ p.sending := mem_of_getElem? hget
    -- the runs being sent are apart
    have hapart : ∀ o, ∀ r ∈ (p.sending.take worker).map left,
        r.byteAt o = none ∨ (m.chunk s.left).byteAt o = none := by
      intro o r hr
      obtain ⟨t, ht, rfl⟩ := mem_map.mp hr
      by_contra hboth
      obtain ⟨hl, hc⟩ := not_or.mp hboth
      obtain ⟨x, hx⟩ := ne_none_iff_exists'.mp hl
      obtain ⟨y, hy⟩ := ne_none_iff_exists'.mp hc
      rw [chunk, byteAt_before] at hy
      split at hy
      swap
      · cases hy
      have hover := overlaps_of_byteAt ((hrun t (mem_of_mem_take ht)).trans (hrun s hsin).symm)
        (byteAt_left hx) (byteAt_left hy)
      rw [inflight, hsplit, map_append] at hpair
      have hpair := (pairwise_append.mp (pairwise_append.mp hpair).2.1).2.2 t.run (mem_map_of_mem ht) s.run (by simp)
      rw [hpair] at hover
      cases hover
    generalize hsent : (⟨s.run, s.sent + (m.chunk s.left).data.length⟩ : Sending) = s1
    have hnew : unsent ({ m with pipeline := some { p with sending := p.sending.set worker s1 } }.put
        (m.chunk s.left)) = (p.sending.take worker).map left ++ s1.left :: later := by
      rw [hlater, unsent, put]
      rw [set_eq_take_append_cons_drop, if_pos hlt]
      simp
    rw [file_put _ (show (m.chunk s.left).ino = ino from hrun s hsin), pending, hnew, pending, hold, ← putAll_cons]
    refine putAll_congr _ fun o => ?_
    show newest (m.chunk s.left :: ((p.sending.take worker).map left ++ s1.left :: later ++
      hand m.calls ++ m.dirty.runs[ino]?.toList)) o = _
    simp only [append_assoc, cons_append]
    rw [← cons_append, newest_swap _ (hapart o), newest_append, ← hsent, newest_chunk, ← newest_append]

end Mount

end AtlasNative.Fuse
