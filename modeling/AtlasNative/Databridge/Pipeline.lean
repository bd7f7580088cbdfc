import Mathlib

/-!
# The migration pipeline

The stages of one migration plan run as jobs, and the reconciler advances what no job can hold
open: it polls the edge cluster, the batch Jobs and the connectors, and completes the cutovers that
drain. Every stage and every tick is a sequence of statements on the plan's rows and of calls to
the cluster; the threads take them in any order, one at a time, and any of them may fail.
-/

namespace AtlasNative.Databridge

inductive PlanState
  | draft | discovered | assessed | provisioning | provisioned | fullLoading | loaded
  | cdcStreaming | validating | validated | cutoverInProgress | cutoverComplete | rolledBack
  | failed
  deriving DecidableEq, Repr

inductive CutoverState
  | freezing | draining | switching | complete | failed | rolledBack
  deriving DecidableEq, Repr

/-- The states that are not final. -/
def CutoverState.live : CutoverState → Bool
  | .freezing | .draining | .switching => true
  | .complete | .failed | .rolledBack => false

inductive StreamState
  | starting | streaming | stopped | error
  deriving DecidableEq, Repr

structure Stream where
  state : StreamState := .starting
  lagBytes : Int := 0
  lagSeconds : Int := 0
  restartCount : Nat := 0
  deriving DecidableEq, Repr

/-- No lag is recorded for the stream. -/
def Stream.drained (st : Stream) : Bool := st.lagSeconds ≤ 0 && st.lagBytes ≤ 0

/-- The rows of one plan. A row is named by its place in its table; an edge cluster and a validation
are kept by whether they are still `provisioning` or `running`. -/
structure Db where
  plan : PlanState := .draft
  cdcStream : Option Nat := none
  cutovers : List CutoverState := []
  streams : List Stream := []
  edges : List Bool := []
  validations : List Bool := []
  deriving DecidableEq, Repr

/-- What the stages read of the plan's source. -/
structure Source where
  fake : Bool
  homogeneous : Bool

/-- A stage works on the cluster; otherwise it makes its results up. -/
def Source.real (src : Source) (k8s : Bool) : Bool := !src.fake && k8s

/-- What the reconciler learns of a connector. A measurement of its lag may fail. -/
inductive Connector
  | unknown
  | stalled
  | running (lag : Option Nat)
  deriving DecidableEq, Repr

/-- What a statement or a call meets: whether it succeeds, the connector, the outcome of a batch Job
(or the readiness of an edge cluster) once there is one, and whether a drain deadline has passed. -/
structure Input where
  ok : Bool := true
  connector : Connector := .unknown
  outcome : Option Bool := none
  pastDeadline : Bool := false

/-- One statement, or one call, of a stage or of a tick. A `soft` one belongs to a restart by the
reconciler, which goes on when the restart fails. -/
inductive Op
  | discovered
  | beginProvision (k8s : Bool)
  | beginCdc (k8s : Bool)
  | beginCutover (k8s : Bool) (cdc : Option Nat)
  | setPlan (st : PlanState)
  | reopen
  | call
  | insertEdge (k8s : Bool)
  | applyEdge (i : Nat)
  | endEdge (i : Nat)
  | insertStream (k8s : Bool)
  | setCdcStream (i : Nat)
  | setStream (i : Nat) (st : StreamState)
  | updateLag (i : Nat) (bytes seconds : Int) (soft : Bool)
  | stopCdc (k8s : Bool)
  | restartCdc (k8s soft : Bool)
  | bumpRestart (i : Nat) (k8s soft : Bool)
  | reapply (i : Nat) (soft : Bool)
  | restarted (i : Nat) (k8s soft : Bool)
  | insertValidation (k8s : Bool)
  | endValidation (i : Nat)
  | cutover (k8s : Bool)
  | insertCutover (k8s : Bool) (cdc : Option Nat)
  | setCutover (k : Nat) (st : CutoverState)
  | rollback
  | drainFakeCdc
  | listEdges
  | listLoading
  | listStreaming
  | listDraining
  | listRunning
  | pollEdge (i : Nat)
  | pollLoad
  | pollConnector (i restarts : Nat)
  | judge (k : Nat)
  | judgeStream (k : Nat) (cdc : Option Nat)
  | teardown (k : Nat) (cdc : Option Nat)
  | pollValidation (i : Nat)

/-- The places of a table whose row satisfies `p`. -/
def places {α : Type} (p : α → Bool) (rows : List α) : List Nat :=
  (List.range rows.length).filter fun i => rows[i]?.any p

def Db.setStream (db : Db) (i : Nat) (f : Stream → Stream) : Db :=
  { db with streams := db.streams.modify i f }

def mib : Int := 1024 * 1024

def maxCdcRestarts : Nat := 3

/-- The stop of the plan's stream that ends a cutover. -/
def stopped : Option Nat → List Op
  | some i => [.setStream i .stopped]
  | none => []

/-- A stream that one pass of `drain_fake_cdc` leaves behind less. -/
def drainedBy (db : Db) (i : Nat) : Op :=
  match db.streams[i]? with
  | some st => .updateLag i (max (st.lagBytes * 6 / 10) 0) (max (st.lagSeconds * 6 / 10) 0) false
  | none => .call

/-- A statement or call that succeeds: the rows after it, and what it puts in front of the rest of
its thread. With `none` the thread ends. -/
def exec (src : Source) (db : Db) (x : Input) : Op → Db × Option (List Op)
  | .discovered => (if db.plan = .draft then { db with plan := .discovered } else db, some [])
  | .beginProvision k8s =>
    if db.plan = .assessed then ({ db with plan := .provisioning }, some [.insertEdge k8s])
    else (db, none)
  | .beginCdc k8s =>
    if db.plan = .loaded then ({ db with plan := .cdcStreaming }, some [.insertStream k8s])
    else (db, none)
  | .beginCutover k8s cdc =>
    if db.plan = .validated then
      ({ db with plan := .cutoverInProgress }, some [.insertCutover k8s cdc])
    else (db, none)
  | .setPlan st => ({ db with plan := st }, some [])
  | .reopen => ({ db with plan := .validated }, some [])
  | .call => (db, some [])
  | .insertEdge k8s =>
    let i := db.edges.length
    ({ db with edges := db.edges ++ [true] },
      some (.call :: if src.real k8s then [.applyEdge i] else [.endEdge i, .setPlan .provisioned]))
  | .applyEdge _ => (db, some [])
  | .endEdge i => ({ db with edges := db.edges.set i false }, some [])
  | .insertStream k8s =>
    let i := db.streams.length
    ({ db with streams := db.streams ++ [{}] },
      some (.setCdcStream i :: if src.real k8s then [.call, .setStream i .streaming]
        else [.setStream i .streaming, .updateLag i (512 * mib) 45 false]))
  | .setCdcStream i =>
    -- `cdc_stream_id` references `cdc_streams`
    if i < db.streams.length then ({ db with cdcStream := some i }, some []) else (db, none)
  | .setStream i st => (db.setStream i ({ · with state := st }), some [])
  | .updateLag i bytes seconds _ =>
    (db.setStream i ({ · with lagBytes := bytes, lagSeconds := seconds }), some [])
  | .stopCdc k8s => (db, some ((if src.real k8s then [.call] else []) ++ stopped db.cdcStream))
  | .restartCdc k8s soft =>
    match db.cdcStream with
    | some i => (db, some [.bumpRestart i k8s soft])
    | none => (db, if soft then some [] else none)
  | .bumpRestart i k8s soft =>
    (db.setStream i fun st => { st with restartCount := st.restartCount + 1 },
      some (if src.real k8s then [.reapply i soft] else [.restarted i k8s soft]))
  | .reapply i soft => (db, some [.restarted i true soft])
  | .restarted i k8s soft =>
    (db.setStream i ({ · with state := .streaming }),
      some (if src.real k8s then [] else [.updateLag i (256 * mib) 30 soft]))
  | .insertValidation k8s =>
    let i := db.validations.length
    ({ db with validations := db.validations ++ [true] },
      some (if src.real k8s then
          if src.homogeneous then [.call] else [.call, .endValidation i, .setPlan .validated]
        else [.endValidation i, .setPlan .validated]))
  | .endValidation i => ({ db with validations := db.validations.set i false }, some [])
  | .cutover k8s => (db, some [.beginCutover k8s db.cdcStream])
  | .insertCutover k8s cdc =>
    let k := db.cutovers.length
    ({ db with cutovers := db.cutovers ++ [.freezing] },
      some (if src.real k8s then [.setCutover k .draining]
        else [.setCutover k .switching, .setCutover k .complete, .setPlan .cutoverComplete, .call] ++
          stopped cdc))
  | .setCutover k st => ({ db with cutovers := db.cutovers.set k st }, some [])
  | .rollback =>
    (db, some ((if db.cutovers = [] then []
      else [.setCutover (db.cutovers.length - 1) .rolledBack]) ++ [.setPlan .rolledBack]))
  | .drainFakeCdc =>
    (db, some ((places (fun st => st.state = .streaming && !st.drained) db.streams).map
      (drainedBy db)))
  | .listEdges => (db, some ((places id db.edges).map .pollEdge))
  | .listLoading => (db, some (if db.plan = .fullLoading then [.pollLoad] else []))
  | .listStreaming =>
    (db, some ((places (fun st => st.state = .streaming) db.streams).map fun i =>
      .pollConnector i ((db.streams[i]?.map Stream.restartCount).getD 0)))
  | .listDraining => (db, some ((places (· = .draining) db.cutovers).map .judge))
  | .listRunning => (db, some ((places id db.validations).map .pollValidation))
  | .pollEdge i =>
    (db, some (if x.outcome = some true then [.endEdge i, .setPlan .provisioned] else []))
  | .pollLoad =>
    (db, some (match x.outcome with
      | some true => [.setPlan .loaded, .call]
      | some false => [.setPlan .failed]
      | none => []))
  | .pollConnector i restarts =>
    (db, some (match x.connector with
      -- `measure` answers 0 when it fails
      | .running lag => [.updateLag i (lag.getD 0) (if 0 < lag.getD 0 then 1 else 0) false]
      | .stalled =>
        if restarts < maxCdcRestarts then [.restartCdc true true] else [.setStream i .error]
      | .unknown => []))
  | .judge k => (db, some [.judgeStream k db.cdcStream])
  | .judgeStream k cdc =>
    (db, some (if ((cdc.bind (db.streams[·]?)).map Stream.drained).getD true then [.teardown k cdc]
      else if x.pastDeadline then [.setCutover k .failed, .reopen] else []))
  | .teardown k cdc =>
    (db, some ([.setCutover k .switching, .setCutover k .complete, .setPlan .cutoverComplete,
      .call] ++ stopped cdc))
  | .pollValidation i =>
    (db, some (match x.outcome with
      | some passed =>
        [.endValidation i, .setPlan (if passed then .validated else .failed)]
      | none => []))

/-- What a thread does after a statement or call that fails. -/
def Op.onError : Op → Option (List Op)
  -- no cluster was created: the plan goes back to `assessed`
  | .applyEdge i => some [.endEdge i, .setPlan .assessed]
  | .discovered | .teardown .. => some []
  | .pollEdge _ | .pollLoad | .pollConnector .. | .pollValidation _ => some []
  | .updateLag _ _ _ soft | .restartCdc _ soft | .bumpRestart _ _ soft | .reapply _ soft
  | .restarted _ _ soft => if soft then some [] else none
  | _ => none

/-- The jobs of a plan. -/
inductive Job
  | discover | assess | provision | fullLoad | startCdc | stopCdc | restartCdc | validate | cutover
  | rollback
  deriving DecidableEq, Repr

def Job.program (src : Source) (k8s : Bool) : Job → List Op
  | .discover => [.call, .discovered]
  | .assess => [.call, .setPlan .assessed]
  | .provision => [.beginProvision k8s]
  | .fullLoad => .setPlan .fullLoading ::
    if src.real k8s then if src.homogeneous then [.call] else [.call, .setPlan .loaded]
    else [.setPlan .loaded, .call]
  | .startCdc => [.beginCdc k8s]
  | .stopCdc => [.stopCdc k8s]
  | .restartCdc => [.restartCdc k8s false]
  | .validate => [.setPlan .validating, .insertValidation k8s]
  | .cutover => [.cutover k8s]
  | .rollback => [.rollback]

def reconcileOnce (k8s : Bool) : List Op :=
  .drainFakeCdc ::
    if k8s then [.listEdges, .listLoading, .listStreaming, .listDraining, .listRunning] else []

inductive Task
  | reconciler
  | job (i : Nat)
  deriving DecidableEq, Repr

/-- The rows, and what every thread has left to do. -/
structure World where
  db : Db
  threads : Task → List Op := fun _ => []

/-- A new thread takes the place of one that has ended, or that a crash or a timeout cut short. -/
inductive Event
  | enqueue (i : Nat) (j : Job) (k8s : Bool)
  | tick (k8s : Bool)
  | run (t : Task) (x : Input)

/-- The outcome of the next statement of a thread. -/
def World.outcome (src : Source) (s : World) (op : Op) (x : Input) : Db × Option (List Op) :=
  if x.ok then exec src s.db x op else (s.db, op.onError)

def World.exec (src : Source) (s : World) (t : Task) (x : Input) (op : Op) (rest : List Op) :
    World :=
  let r := s.outcome src op x
  { db := r.1, threads := Function.update s.threads t (r.2.elim [] (· ++ rest)) }

def step (src : Source) (s : World) : Event → World
  | .enqueue i j k8s =>
    { s with threads := Function.update s.threads (.job i) (j.program src k8s) }
  | .tick k8s => { s with threads := Function.update s.threads .reconciler (reconcileOnce k8s) }
  | .run t x =>
    match s.threads t with
    | op :: rest => s.exec src t x op rest
    | [] => s

end AtlasNative.Databridge
