import KvEngine.Raft.Durability

/-!
# Nodes that stop and come back

`raft_demo` stops a node (`Stop`, `Unregister`) and brings it back as a new `RaftNode`
on the same `KVStore`. Term, vote and log are in memory only ("persistent-ish", says the
header), so the new node has none of them. A `Deployment` is a cluster of which a
minority may be down; beside it stands what each node that came back would hold had it
kept those three.
-/

namespace KvEngine

open Consensus

variable {ι : Type} [DecidableEq ι]

/-! ## The model -/

/-- The node one of whose threads takes the action. -/
def Action.node : Action ι → ι
  | .electionTimeout v | .startElection v | .deliverVote v | .loseVote v | .voteReply v => v
  | .heartbeatTick v | .heartbeatBuild v | .deliverHeartbeat v | .loseHeartbeat v => v
  | .heartbeatReply v | .proposePut v _ _ | .proposeDel v _ | .proposalRead v _ => v
  | .deliverProposal v _ | .loseProposal v _ | .proposalReply v _ | .proposalCommit v _ => v
  | .deliverNotify v _ | .loseNotify v _ | .notifyReply v _ | .applyTake v | .applyRun v => v

/-- The action is one of the three loops that `Stop` ends; the others are client calls. -/
def Action.InLoop : Action ι → Bool
  | .proposePut _ _ _ | .proposeDel _ _ | .proposalRead _ _ | .deliverProposal _ _ => false
  | .loseProposal _ _ | .proposalReply _ _ | .proposalCommit _ _ | .deliverNotify _ _ => false
  | .loseNotify _ _ | .notifyReply _ _ => false
  | _ => true

/-- The node that stands for election in the action. -/
def Action.stands? : Action ι → Option ι
  | .startElection v => some v
  | _ => none

/-- The vote request an action delivers, and to whom. -/
def Cluster.asks? (c : Cluster ι) : Action ι → Option (ι × RequestVoteReq ι)
  | .deliverVote v =>
    match c.election v with
    | .calling req _ p _ none => some (p, req)
    | _ => none
  | _ => none

def Proposal.hasReturned (pr : Proposal ι) : Bool :=
  match pr.phase with
  | .returned _ => true
  | _ => false

/-- `v` is a new `RaftNode`, started (`raft_demo.cpp`, lines 115–129). Its state machine is
the old one; calls on the old object that had not returned are gone with it. -/
def Cluster.recreate (c : Cluster ι) (v : ι) : Cluster ι where
  nodes := Function.update c.nodes v {}
  election := Function.update c.election v .sleeping
  heartbeat := Function.update c.heartbeat v .sleeping
  apply := Function.update c.apply v .sleeping
  proposals := Function.update c.proposals v ((c.proposals v).filter Proposal.hasReturned)
  applied := c.applied

/-- The cluster with some nodes in other states. -/
def Cluster.overlay (c : Cluster ι) (lost : ι → Option (RaftNode ι)) : Cluster ι :=
  { c with nodes := fun v => (lost v).getD (c.nodes v) }

/-- A cluster and the nodes that are down. For a node that came back, `lost` is what it
would hold had it kept its term, vote and log, until it holds that again; the code has
no such thing. -/
structure Deployment (ι : Type) where
  cluster : Cluster ι
  down : Finset ι
  lost : ι → Option (RaftNode ι)

/-- What happens next to a deployment. -/
inductive Move (ι : Type) where
  | act (a : Action ι)
  | stop (v : ι)
  | restart (v : ι)

/-- Term, vote and log of `n` are those of `m`. -/
def RaftNode.CaughtUp (m n : RaftNode ι) : Prop :=
  n.currentTerm = m.currentTerm ∧ n.votedFor = m.votedFor ∧ n.log = m.log

instance (m n : RaftNode ι) : Decidable (m.CaughtUp n) :=
  inferInstanceAs (Decidable (_ ∧ _ ∧ _))

/-- What `n` has still to catch up with. -/
def RaftNode.ahead (m n : RaftNode ι) : Option (RaftNode ι) :=
  if m.CaughtUp n then none else some m

namespace Deployment

/-- Every node has just been started. -/
def init : Deployment ι := ⟨Cluster.init, ∅, fun _ => none⟩

/-- The cluster had the nodes that came back forgotten nothing. -/
def remembered (d : Deployment ι) : Cluster ι := d.cluster.overlay d.lost

/-- The loops of a node that is down are over, and no request reaches it. -/
def Available (d : Deployment ι) (a : Action ι) : Prop :=
  (a.InLoop = true → a.node ∉ d.down) ∧ (∀ q ∈ d.cluster.asks? a, q.1 ∉ d.down) ∧
    ∀ q ∈ d.cluster.delivers? a, q.1 ∉ d.down

instance (d : Deployment ι) (a : Action ι) : Decidable (d.Available a) :=
  inferInstanceAs (Decidable (_ ∧ _ ∧ _))

/-- One move; only a minority may be down at any time. -/
def step [Fintype ι] (cfg : Config ι) (d : Deployment ι) : Move ι → Option (Deployment ι)
  | .act a =>
    if d.Available a then
      match d.cluster.step cfg a with
      | none => none
      | some c =>
        let r := (d.remembered.step cfg a).getD d.remembered
        some { d with
          cluster := c
          lost := fun v => (d.lost v).bind fun _ => (r.nodes v).ahead (c.nodes v) }
    else none
  | .stop v =>
    if v ∉ d.down ∧ 2 * (insert v d.down).card < Fintype.card ι then
      some { d with down := insert v d.down }
    else none
  | .restart v =>
    if v ∈ d.down then
      let m := { d.remembered.nodes v with role := .follower }
      some
        { cluster := d.cluster.recreate v
          down := d.down.erase v
          lost := Function.update d.lost v (m.ahead {}) }
    else none

/-- A sequence of moves, each of which must satisfy `P`. -/
def run [Fintype ι] (cfg : Config ι) (P : Deployment ι → Move ι → Prop)
    [∀ d x, Decidable (P d x)] (d : Deployment ι) : List (Move ι) → Option (Deployment ι)
  | [] => some d
  | x :: xs =>
    if P d x then
      match d.step cfg x with
      | none => none
      | some d' => d'.run cfg P xs
    else none

/-- A run from `d` all of whose moves satisfy `P`. -/
inductive Runs [Fintype ι] (cfg : Config ι) (P : Deployment ι → Move ι → Prop) (d : Deployment ι) :
    Deployment ι → Prop where
  | start : Runs cfg P d d
  | step {d' d'' : Deployment ι} (x : Move ι) (h : Runs cfg P d d') (hP : P d' x)
      (hstep : d'.step cfg x = some d'') : Runs cfg P d d''

section

variable [Fintype ι] {cfg : Config ι} {P : Deployment ι → Move ι → Prop}

theorem Runs.head {d d' d'' : Deployment ι} {x : Move ι} (hP : P d x)
    (hstep : d.step cfg x = some d') (h : Runs cfg P d' d'') : Runs cfg P d d'' := by
  induction h with
  | start => exact .step x .start hP hstep
  | step y _ hPy hy ih => exact .step y ih hPy hy

theorem Runs.of_run [∀ d x, Decidable (P d x)] {d d' : Deployment ι} {xs : List (Move ι)}
    (h : d.run cfg P xs = some d') : Runs cfg P d d' := by
  induction xs generalizing d with
  | nil =>
    obtain rfl := Option.some.inj h
    exact .start
  | cons x xs ih =>
    rw [run] at h
    split_ifs at h with hP
    cases hstep : d.step cfg x with
    | none => simp [hstep] at h
    | some d₁ =>
      rw [hstep] at h
      exact .head hP hstep (ih h)

theorem Runs.of_isSome [∀ d x, Decidable (P d x)] {d : Deployment ι} {xs : List (Move ι)}
    (h : (d.run cfg P xs).isSome = true) : Runs cfg P d ((d.run cfg P xs).getD d) := by
  obtain ⟨d', hd'⟩ := Option.isSome_iff_exists.mp h
  rw [hd']
  exact .of_run hd'

theorem Runs.mono {Q : Deployment ι → Move ι → Prop} (hPQ : ∀ d x, P d x → Q d x)
    {d d' : Deployment ι} (h : Runs cfg P d d') : Runs cfg Q d d' := by
  induction h with
  | start => exact .start
  | step x _ hP hstep ih => exact .step x ih (hPQ _ _ hP) hstep

end

end Deployment

/-! ## The conditions -/

/-- A node that came back stands with the term and log it would hold had it kept them, and
grants votes and acknowledges entries only where it would have done so with these. -/
def AsRemembered (d : Deployment ι) : Move ι → Prop
  | .act a =>
    (∀ v ∈ a.stands?, (d.cluster.nodes v).currentTerm = (d.remembered.nodes v).currentTerm ∧
      (d.cluster.nodes v).log = (d.remembered.nodes v).log) ∧
    (∀ q ∈ d.cluster.asks? a, ((d.cluster.nodes q.1).onRequestVote q.2).1.voteGranted = true →
      ((d.remembered.nodes q.1).onRequestVote q.2).1.voteGranted = true) ∧
    ∀ q ∈ d.cluster.delivers? a, q.2.entries ≠ [] →
      ((d.cluster.nodes q.1).onAppendEntries q.2).1.success = true →
        ((d.remembered.nodes q.1).onAppendEntries q.2).1.success = true
  | _ => True

/-- In addition the action is careful, with what nodes that came back would hold. -/
def CarefulAsRemembered (d : Deployment ι) : Move ι → Prop
  | .act a => AsRemembered d (.act a) ∧ Careful d.remembered a
  | _ => True

instance (d : Deployment ι) (x : Move ι) : Decidable (AsRemembered d x) := by
  cases x <;> unfold AsRemembered <;> infer_instance

instance (d : Deployment ι) (x : Move ι) : Decidable (CarefulAsRemembered d x) := by
  cases x <;> unfold CarefulAsRemembered <;> infer_instance

theorem CarefulAsRemembered.asRemembered (d : Deployment ι) (x : Move ι)
    (h : CarefulAsRemembered d x) : AsRemembered d x := by
  cases x with
  | act a => exact h.1
  | stop v => trivial
  | restart v => trivial

end KvEngine
