import AtlasNative.Catalog.Basic
import AtlasNative.Program.Runs

/-!
# Alerts and their notifications

The monitor keeps one row per rule and resource. It opens the alert when the rule's condition holds,
resolves it when it no longer does, and may open the same row again. Each sink is told in passes over
the table; rows of their own remember what a sink was sent, and they outlive the alert's episode.
-/

namespace AtlasNative.Monitor

open Program List Std

inductive AlertState where
  | opened
  | resolved
deriving DecidableEq, Repr

/-- What an alert says. -/
structure Details where
  severity : String
  source : String
  resourceType : String
  resourceId : String
  title : String
  description : String
  evidence : String
deriving DecidableEq, Repr

/-- A row of `storage_alerts`. -/
structure Alert where
  details : Details
  state : AlertState := .opened
  createdAt : Nat
  resolvedAt : Option Nat := none
  silencedUntil : Option Nat := none
  notifiedAt : Option Nat := none
deriving DecidableEq, Repr

abbrev Alerts := BTreeMap String Alert

namespace Alerts

/-- Insert or re-open an alert. -/
def upsertOpen (alerts : Alerts) (id : String) (d : Details) (now : Nat) : Alerts :=
  alerts.insert id <| match alerts[id]? with
    | none => { details := d, createdAt := now }
    | some a => { a with
        details := { d with
          source := a.details.source
          resourceType := a.details.resourceType
          resourceId := a.details.resourceId }
        state := .opened
        resolvedAt := none
        notifiedAt := if a.state = .resolved then none else a.notifiedAt }

/-- Resolve an alert if it exists and is open. -/
def resolve (alerts : Alerts) (id : String) (now : Nat) : Alerts :=
  match alerts[id]? with
  | none => alerts
  | some a =>
    if a.state = .opened then
      alerts.insert id { a with state := .resolved, resolvedAt := some now }
    else alerts

def status (alerts : Alerts) (id : String) : Option AlertState := alerts[id]?.map (·.state)

variable {alerts : Alerts} {id : String}

theorem status_upsertOpen (i : String) (d : Details) (now : Nat) :
    (alerts.upsertOpen i d now).status id = if i = id then some .opened else alerts.status id := by
  simp only [upsertOpen, status, ExtTreeMap.getElem?_insert, LawfulEqCmp.compare_eq_iff_eq]
  split
  · cases alerts[i]? <;> rfl
  · rfl

theorem status_resolve (i : String) (now : Nat) : (alerts.resolve i now).status id =
    if i = id ∧ alerts.status id = some .opened then some .resolved else alerts.status id := by
  unfold resolve
  cases ha : alerts[i]? with
  | none => rw [if_neg (by rintro ⟨rfl, h⟩; simp [status, ha] at h)]
  | some a =>
    dsimp only
    by_cases hopen : a.state = .opened
    · rw [if_pos hopen]
      by_cases hi : i = id
      · subst hi
        simp [status, ha, hopen]
      · simp [hi, status, ExtTreeMap.getElem?_insert]
    · rw [if_neg hopen, if_neg (by rintro ⟨rfl, h⟩; simp [status, ha, hopen] at h)]

end Alerts

/-! ### Notifications -/

inductive Sink where
  | pagerduty
  | opsgenie
  | slack
deriving DecidableEq, Repr

inductive Notice where
  | trigger
  | resolve
deriving DecidableEq, Repr

structure World where
  alerts : Alerts := ∅
  /-- The rows of `alert_notifications`. -/
  sent : List (String × Sink × Notice) := []
  /-- What the sinks were sent. -/
  received : List (Sink × Notice × String × Alert) := []

/-- A notification pass for one sink, and whether each send succeeds. -/
structure Pass where
  sink : Sink
  now : Nat
  send : Notice → String → Bool

namespace World

/-- Open, not-silenced alerts not yet trigger-notified for `sink`. -/
def pendingTriggers (w : World) (sink : Sink) (now : Nat) : List (String × Alert) :=
  (w.alerts.toList.filter fun (id, a) => a.state = .opened && a.silencedUntil.all (· < now) &&
    !w.sent.contains (id, sink, .trigger)).insertionSort fun x y => x.2.createdAt ≤ y.2.createdAt

/-- Resolved alerts that were trigger-notified for `sink` but not yet resolve-notified. -/
def pendingResolves (w : World) (sink : Sink) : List (String × Alert) :=
  (w.alerts.toList.filter fun (id, a) => a.state = .resolved &&
    w.sent.contains (id, sink, .trigger) && !w.sent.contains (id, sink, .resolve)).insertionSort
      fun x y => x.2.resolvedAt.getD 0 ≤ y.2.resolvedAt.getD 0

def markSent (w : World) (id : String) (sink : Sink) (notice : Notice) : World :=
  { w with sent := w.sent.insert (id, sink, notice) }

/-- Send one notice for each of the alerts; one that fails is left for the next pass. -/
def deliver (w : World) (p : Pass) (notice : Notice) (pending : List (String × Alert)) : World :=
  pending.foldl (fun w x =>
    if p.send notice x.1 then
      { w with received := w.received ++ [(p.sink, notice, x)] }.markSent x.1 p.sink notice
    else w) w

def dispatchTo (w : World) (p : Pass) : World :=
  let w := w.deliver p .trigger (w.pendingTriggers p.sink p.now)
  w.deliver p .resolve (w.pendingResolves p.sink)

/-- What `sink` was sent about alert `id`. -/
def heard (w : World) (sink : Sink) (id : String) : List Notice :=
  w.received.filterMap fun x => if x.1 = sink ∧ x.2.2.1 = id then some x.2.1 else none

end World

inductive Change where
  | upsertOpen (id : String) (d : Details) (now : Nat)
  | resolve (id : String) (now : Nat)

/-- A change of an alert and the passes after it. -/
structure Round where
  change : Change
  passes : List Pass

def Change.apply (alerts : Alerts) : Change → Alerts
  | .upsertOpen id d now => alerts.upsertOpen id d now
  | .resolve id now => alerts.resolve id now

def World.round (w : World) (r : Round) : World :=
  r.passes.foldl World.dispatchTo { w with alerts := r.change.apply w.alerts }

/-- Every sink has its pass, and all sends succeed. -/
def Round.Notified (r : Round) : Prop :=
  (∀ sink, ∃ p ∈ r.passes, p.sink = sink) ∧ ∀ p ∈ r.passes, ∀ notice id, p.send notice id = true

/-- What is to be heard of alert `id` once it has changed. -/
def Change.hear (id : String) (heard : List Notice) : Change → List Notice
  | .upsertOpen i .. =>
    if i = id ∧ heard.getLast? ≠ some .trigger then heard ++ [.trigger] else heard
  | .resolve i _ =>
    if i = id ∧ heard.getLast? = some .trigger then heard ++ [.resolve] else heard

/-- One trigger for each episode of an alert and, once it has ended, one resolve. -/
def notices (id : String) (rounds : List Round) : List Notice :=
  rounds.foldl (fun heard r => r.change.hear id heard) []

/-- The change opens no alert again. -/
def Change.fresh (alerts : Alerts) : Change → Bool
  | .upsertOpen id .. => alerts.status id ≠ some .resolved
  | .resolve .. => true

/-! ### What a pass does -/

namespace World

variable {w : World} {p : Pass} {sink : Sink} {id : String} {notice : Notice}

theorem deliver_alerts (pending : List (String × Alert)) : (w.deliver p notice pending).alerts = w.alerts := by
  unfold deliver
  induction pending generalizing w with
  | nil => rfl
  | cons x pending ih =>
    rw [foldl_cons, ih]
    split <;> rfl

theorem countP_pending {q : String × Alert → Bool} (le : String × Alert → String × Alert → Prop)
    [DecidableRel le] : ((w.alerts.toList.filter q).insertionSort le).countP (·.1 = id) =
      if w.alerts[id]?.any (fun a => q (id, a)) then 1 else 0 := by
  rw [(perm_insertionSort le _).countP_eq, countP_filter]
  have hothers : ∀ l : List (String × Alert), (l.filter (·.1 ≠ id)).countP (fun x => x.1 = id && q x) = 0 := fun l =>
    countP_eq_zero.mpr fun x hx => by simp_all [mem_filter]
  cases ha : w.alerts[id]? with
  | none =>
    rw [← toList_filter_of_none ha, hothers]
    rfl
  | some a =>
    rw [(toList_perm_of_some ha).countP_eq, countP_cons, hothers]
    simp

theorem deliver_told (hsend : ∀ notice id, p.send notice id = true) (pending : List (String × Alert)) :
    (w.deliver p notice pending).heard sink id = w.heard sink id ++
        (if p.sink = sink then replicate (pending.countP (·.1 = id)) notice else []) ∧
      ∀ n, (id, sink, n) ∈ (w.deliver p notice pending).sent ↔ (id, sink, n) ∈ w.sent ∨
        p.sink = sink ∧ n = notice ∧ 0 < pending.countP (·.1 = id) := by
  unfold deliver
  induction pending generalizing w with
  | nil => simp
  | cons x pending ih =>
    rw [foldl_cons, if_pos (hsend _ _)]
    obtain ⟨hheard, hsent⟩ := ih (w := { w with
      received := w.received ++ [(p.sink, notice, x)] }.markSent x.1 p.sink notice)
    rw [hheard]
    refine ⟨?_, fun n => ?_⟩
    · by_cases hs : p.sink = sink <;> by_cases hx : x.1 = id <;>
        simp [heard, markSent, hs, hx, replicate_succ]
    · rw [hsent, markSent, mem_insert_iff, countP_cons]
      grind

end World

/-- What a sink has been told of an alert in this state. -/
def told : Option AlertState → List Notice
  | none => []
  | some .opened => [.trigger]
  | some .resolved => [.trigger, .resolve]

/-- `sink` knows alert `id` as it was when its state was `s`. -/
def Knows (w : World) (sink : Sink) (id : String) (s : Option AlertState) : Prop :=
  w.heard sink id = told s ∧ ∀ n, (id, sink, n) ∈ w.sent ↔ n ∈ told s

/-- Nothing is silenced. -/
def Loud (alerts : Alerts) : Prop := ∀ (id : String) a, alerts[id]? = some a → a.silencedUntil = none

section

variable {w : World} {p : Pass} {sink : Sink} {id : String} {s : Option AlertState}

theorem dispatchTo_alerts (w : World) (p : Pass) : (w.dispatchTo p).alerts = w.alerts := by
  rw [World.dispatchTo, World.deliver_alerts, World.deliver_alerts]

theorem count_triggers (hloud : Loud w.alerts) (now : Nat) : (w.pendingTriggers sink now).countP (·.1 = id) =
      if w.alerts.status id = some .opened ∧ (id, sink, .trigger) ∉ w.sent then 1 else 0 := by
  rw [World.pendingTriggers, World.countP_pending, Alerts.status]
  cases ha : w.alerts[id]? with
  | none => simp
  | some a => simp [hloud id a ha]

theorem count_resolves : (w.pendingResolves sink).countP (·.1 = id) =
    if w.alerts.status id = some .resolved ∧ (id, sink, .trigger) ∈ w.sent ∧
      (id, sink, .resolve) ∉ w.sent then 1 else 0 := by
  rw [World.pendingResolves, World.countP_pending, Alerts.status]
  cases w.alerts[id]? with
  | none => simp
  | some a => simp [and_assoc]

/-- The state a sink knows is the alert's, or the one before it. -/
def Behind : Option AlertState → Option AlertState → Prop
  | none, some .opened | some .opened, some .resolved => True
  | s, s' => s = s'

/-- A pass brings its sink up to date and leaves the others where they are. -/
theorem Knows.dispatchTo (h : Knows w sink id s) (hsend : ∀ notice id, p.send notice id = true)
    (hloud : Loud w.alerts) (hs : Behind s (w.alerts.status id)) :
    Knows (w.dispatchTo p) sink id (if p.sink = sink then w.alerts.status id else s) := by
  obtain ⟨hheard, hsent⟩ := h
  let w1 := w.deliver p .trigger (w.pendingTriggers p.sink p.now)
  obtain ⟨h1, s1⟩ : _ ∧ ∀ n, (id, sink, n) ∈ w1.sent ↔ _ := World.deliver_told hsend _
  obtain ⟨h2, s2⟩ : (w1.deliver p .resolve (w1.pendingResolves p.sink)).heard sink id = _ ∧
      ∀ n, (id, sink, n) ∈ _ ↔ _ := World.deliver_told hsend _
  have hst : w1.alerts.status id = w.alerts.status id := by rw [World.deliver_alerts]
  unfold Knows
  rw [show w.dispatchTo p = w1.deliver p .resolve (w1.pendingResolves p.sink) from rfl, h2, h1, hheard]
  by_cases hp : p.sink = sink
  · simp only [s2, s1, hsent, count_triggers hloud, count_resolves, hst]
    generalize w.alerts.status id = st at hs
    rcases s with _ | _ | _ <;> rcases st with _ | _ | _ <;> simp_all [told, Behind]
  · simp [s1, s2, hp, hsent]

theorem Knows.passes {passes : List Pass} (h : Knows w sink id s)
    (hsend : ∀ p ∈ passes, ∀ notice id, p.send notice id = true) (hloud : Loud w.alerts)
    (hs : Behind s (w.alerts.status id)) : Knows (passes.foldl World.dispatchTo w) sink id
      (if passes.any (·.sink = sink) then w.alerts.status id else s) := by
  induction passes generalizing w s with
  | nil => exact h
  | cons p passes ih =>
    obtain ⟨hp, hsend⟩ := forall_mem_cons.mp hsend
    have hnext := h.dispatchTo hp hloud hs
    rw [foldl_cons, any_cons]
    have hrest := ih hnext hsend (by rwa [dispatchTo_alerts])
    rw [dispatchTo_alerts] at hrest
    by_cases hsink : p.sink = sink
    · have hself : Behind (w.alerts.status id) (w.alerts.status id) := by
        rcases w.alerts.status id with _ | _ | _ <;> rfl
      simpa [hsink, hself] using hrest
    · simpa [hsink, hs] using hrest

theorem passes_alerts (passes : List Pass) : (passes.foldl World.dispatchTo w).alerts = w.alerts := by
  induction passes generalizing w with
  | nil => rfl
  | cons p passes ih => rw [foldl_cons, ih, dispatchTo_alerts]

end

/-! ### Whole histories -/

variable {alerts : Alerts} {c : Change}

theorem Loud.apply (h : Loud alerts) (c : Change) : Loud (c.apply alerts) := by
  intro id a ha
  cases c with
  | upsertOpen i d now =>
    simp only [Change.apply, Alerts.upsertOpen, ExtTreeMap.getElem?_insert] at ha
    split at ha
    · cases hi : alerts[i]? with
      | none => rw [hi] at ha; cases ha; rfl
      | some b => rw [hi] at ha; cases ha; exact h i b hi
    · exact h id a ha
  | resolve i now =>
    simp only [Change.apply, Alerts.resolve] at ha
    split at ha
    · exact h id a ha
    · rename_i b hi
      split at ha
      · rcases getElem?_of_insert ha with ⟨rfl, rfl⟩ | ha
        · exact h _ b hi
        · exact h id a ha
      · exact h id a ha

/-- A change that opens nothing again is the next thing a sink is to hear. -/
theorem Change.next (id : String) (h : c.fresh alerts = true) : Behind (alerts.status id) ((c.apply alerts).status id) ∧
      c.hear id (told (alerts.status id)) = told ((c.apply alerts).status id) := by
  cases c with
  | upsertOpen i d now =>
    rw [Change.apply, Alerts.status_upsertOpen]
    by_cases hi : i = id
    · rcases hst : alerts.status i with _ | _ | _ <;> simp_all [fresh, Behind, told, Change.hear]
    · rcases alerts.status id with _ | _ | _ <;> simp [hi, Behind, Change.hear]
  | resolve i now =>
    rw [Change.apply, Alerts.status_resolve]
    by_cases hi : i = id <;> rcases alerts.status id with _ | _ | _ <;>
      simp [hi, Behind, told, Change.hear]

/-- A round in which every sink has its pass and no alert is opened again. -/
def Round.Plain (w : World) (r : Round) : Prop := r.Notified ∧ r.change.fresh w.alerts = true

theorem run_knows {rounds : List Round} (h : Meets World.round {} Round.Plain rounds) (sink : Sink)
    (id : String) : let w := rounds.foldl World.round {}
      Loud w.alerts ∧ Knows w sink id (w.alerts.status id) ∧
        notices id rounds = told (w.alerts.status id) := by
  induction rounds using reverseRecOn with
  | nil => exact ⟨fun i a ha => by simp at ha, ⟨rfl, by simp [Alerts.status, told]⟩, rfl⟩
  | append_singleton rounds r ih =>
    obtain ⟨hloud, hknows, hnotices⟩ := ih h.dropLast
    obtain ⟨⟨hsinks, hsend⟩, hfresh⟩ := h.last
    obtain ⟨hbehind, hhear⟩ := Change.next id hfresh
    rw [foldl_append, notices, foldl_append]
    have hlater : Knows { rounds.foldl World.round {} with
      alerts := r.change.apply (rounds.foldl World.round {}).alerts } sink id _ := hknows
    have hround := hlater.passes hsend (hloud.apply r.change) hbehind
    rw [if_pos (by simpa using hsinks sink)] at hround
    dsimp only [foldl_cons, foldl_nil, World.round]
    rw [passes_alerts]
    exact ⟨hloud.apply r.change, hround, (congrArg (r.change.hear id ·) hnotices).trans hhear⟩

/-- As long as no resolved alert opens again, each sink hears of each episode of each alert: one
trigger and, once it has ended, one resolve. -/
theorem episodes_notified {rounds : List Round} (h : Meets World.round {} Round.Plain rounds)
    (sink : Sink) (id : String) :
    (rounds.foldl World.round {}).heard sink id = notices id rounds := by
  obtain ⟨-, hknows, hnotices⟩ := run_knows h sink id
  rw [hnotices]
  exact hknows.1

/-- A change with a pass for every sink, all sends succeeding. -/
def Change.told (c : Change) : Round :=
  ⟨c, [Sink.pagerduty, .opsgenie, .slack].map fun sink => ⟨sink, 0, fun _ _ => true⟩⟩

theorem Change.told_notified (c : Change) : c.told.Notified :=
  ⟨fun sink => by cases sink <;> simp [Change.told], by simp [Change.told]⟩

def osdDown : Details := ⟨"critical", "monitor", "osd", "osd.1", "OSD down", "osd.1 is down", ""⟩

/-- An alert opens, stays open and is resolved. -/
theorem episodes_notified_once :
    let rounds := [(Change.upsertOpen "a" osdDown 1).told, (Change.upsertOpen "a" osdDown 2).told,
      (Change.resolve "a" 3).told]
    (rounds.foldl World.round {}).heard .pagerduty "a" = notices "a" rounds ∧
      notices "a" rounds = [.trigger, .resolve] := by
  refine ⟨episodes_notified ?_ .pagerduty "a", rfl⟩
  refine meets_cons ⟨Change.told_notified _, by decide +kernel⟩ ?_
  refine meets_cons ⟨Change.told_notified _, by decide +kernel⟩ ?_
  exact meets_cons ⟨Change.told_notified _, rfl⟩ meets_nil

/-- A resolved alert opens again, and no sink hears of it. -/
theorem reopened_unnotified : ∃ rounds : List Round, (∀ r ∈ rounds, r.Notified) ∧ ∀ sink,
    (rounds.foldl World.round {}).heard sink "a" = [.trigger, .resolve] ∧
      notices "a" rounds = [.trigger, .resolve, .trigger, .resolve] := by
  refine ⟨[(Change.upsertOpen "a" osdDown 1).told, (Change.resolve "a" 2).told,
    (Change.upsertOpen "a" osdDown 3).told, (Change.resolve "a" 4).told], ?_, fun sink => ⟨?_, rfl⟩⟩
  · simp [Change.told_notified]
  · cases sink <;> decide +kernel

end AtlasNative.Monitor
