import AtlasNative.Raft.Step

/-!
# Runs of a group of Raft nodes

A cluster is a set of servers, each a disk and, while it is up, a node, together with every message
a node ever released. An event opens a node, lets one take a call, or crashes it: idle, or after any
number of the effects of a call or an opening. Messages stay available, so they may be delivered
late, twice, in any order or never.

`applied` and `created` record what the run did; no event reads them.
-/

namespace AtlasNative

structure Server where
  disk : Disk := {}
  /-- The running node, none while the server is down. -/
  node : Option RaftNode := none
  /-- How often the node has been opened. -/
  epoch : Nat := 0

structure Cluster where
  servers : NodeId → Server := fun _ => {}
  soup : List Envelope := []
  /-- Entries nodes have applied. -/
  applied : List (NodeId × Entry) := []
  /-- Entries leaders have created, each with the term of what preceded it in the leader's log. -/
  created : List (Entry × Nat) := []

inductive Op where
  | tick
  | step (env : Envelope)
  | propose (command : MetaCommand)
  | changeMembership (voters : BTreeSet NodeId) (addrs : BTreeMap NodeId String)
  | takeMessages
  | readIndex
  | readResult (id : Nat)
  | forgetRead (id : Nat)

/-- What a call returned to its caller. -/
inductive Reply where
  | nothing
  | index (i : Nat)
  | messages (msgs : List Envelope)
  | barrier (id : Nat)
  | result (r : Option (Option Nat))

def Op.run : Op → RaftM Reply
  | tick => do
    RaftM.tick
    return .nothing
  | step env => do
    RaftM.step env
    return .nothing
  | propose command => return .index (← RaftM.propose command)
  | changeMembership voters addrs => return .index (← RaftM.changeMembership voters addrs)
  | takeMessages => return .messages (← RaftM.takeMessages)
  | readIndex => return .barrier (← RaftM.readIndex)
  | readResult id => return .result (← RaftM.readResult id)
  | forgetRead id => do
    RaftM.forgetRead id
    return .nothing

inductive Event where
  | start (id : NodeId) (cfg : RaftConfig)
  | call (id : NodeId) (op : Op)
  /-- A crash between calls; the last unsynced records past `kept` are lost. -/
  | crash (id : NodeId) (kept : Nat)
  /-- A crash after the first `done` effects of opening, or of a call. -/
  | crashStart (id : NodeId) (cfg : RaftConfig) (done kept : Nat)
  | crashCall (id : NodeId) (op : Op) (done kept : Nat)

/-- The entries applied, and those created, among some effects. -/
def appliedOf (fx : List (Effect × Disk)) : List Entry := fx.filterMap fun x => match x.1 with
  | .applied e => some e
  | _ => none

def createdOf (fx : List (Effect × Disk)) : List (Entry × Nat) := fx.filterMap fun x => match x.1 with
  | .created e t => some (e, t)
  | _ => none

namespace Cluster

/-- A call a client or the network can make: messages are delivered to their destination. -/
def Deliverable (σ : Cluster) (id : NodeId) : Op → Prop
  | .step env => env ∈ σ.soup ∧ env.dest = id
  | _ => True

instance (σ : Cluster) (id : NodeId) (op : Op) : Decidable (σ.Deliverable id op) := by
  cases op <;> unfold Deliverable <;> infer_instance

/-- The history variables after the effects `fx` of server `id`. -/
def record (σ : Cluster) (id : NodeId) (fx : List (Effect × Disk)) : Cluster :=
  { σ with
    applied := σ.applied ++ (appliedOf fx).map (id, ·)
    created := σ.created ++ createdOf fx }

def setServer (σ : Cluster) (id : NodeId) (s : Server) : Cluster :=
  { σ with servers := Function.update σ.servers id s }

/-- Server `id` loses what is not on disk, after the first `done` of the effects `fx`. -/
def lose (σ : Cluster) (id : NodeId) (fx : List (Effect × Disk)) (done kept : Nat) : Cluster :=
  let fx := fx.take done
  let s := σ.servers id
  let disk := (fx.getLast?.map Prod.snd).getD s.disk
  (σ.record id fx).setServer id { s with disk := disk.crash kept, node := none }

/-- The reply of a call reaches its caller. -/
def answer (σ : Cluster) : Reply → Cluster
  | .messages msgs => { σ with soup := σ.soup ++ msgs }
  | _ => σ

/-- Server `id` goes on with the state a call left. -/
def goOn (σ : Cluster) (id : NodeId) (s : NodeState) : Cluster :=
  (σ.record id s.trace).setServer id { σ.servers id with disk := s.disk, node := some s.node }

/-- Server `id` takes a call. A refused one leaves it running; any other error stops it. -/
def call (σ : Cluster) (id : NodeId) (node : RaftNode) (op : Op) : Cluster :=
  match op.run ⟨node, (σ.servers id).disk, []⟩ with
  | .ok r s => (σ.goOn id s).answer r
  | .error e s =>
    if e.refusal then σ.goOn id s
    else (σ.record id s.trace).setServer id { σ.servers id with disk := s.disk, node := none }

/-- The effects of a call, however it ended. -/
def callEffects (σ : Cluster) (id : NodeId) (node : RaftNode) (op : Op) : List (Effect × Disk) :=
  match op.run ⟨node, (σ.servers id).disk, []⟩ with
  | .ok _ s => s.trace
  | .error _ s => s.trace

/-- What opening server `id` gives, if it is down and `cfg` is its configuration with the group's
first voters `m₀`. -/
def opening (m₀ : Membership) (σ : Cluster) (id : NodeId) (cfg : RaftConfig) : Option NodeState :=
  if (σ.servers id).node.isSome ∨ cfg.id ≠ id then none
  else match cfg.initial with
    | .error _ => none
    | .ok m => if m ≠ m₀ then none
      else (RaftNode.open cfg (σ.servers id).disk ((σ.servers id).epoch + 1)).toOption

/-- One event, if it can happen. -/
def exec (m₀ : Membership) (σ : Cluster) : Event → Option Cluster
  | .start id cfg => do
    let s ← σ.opening m₀ id cfg
    let σ' := σ.goOn id s
    return σ'.setServer id { σ'.servers id with epoch := s.node.epoch }
  | .call id op => do
    let node ← (σ.servers id).node
    if σ.Deliverable id op then return σ.call id node op else none
  | .crash id kept => return σ.lose id [] 0 kept
  | .crashStart id cfg done kept => do
    let s ← σ.opening m₀ id cfg
    return σ.lose id s.trace done kept
  | .crashCall id op done kept => do
    let node ← (σ.servers id).node
    if σ.Deliverable id op then return σ.lose id (σ.callEffects id node op) done kept else none

/-- A run: the events one after another. -/
def run (m₀ : Membership) (σ : Cluster) : List Event → Option Cluster
  | [] => some σ
  | ev :: evs => do run m₀ (← σ.exec m₀ ev) evs

end Cluster

end AtlasNative
