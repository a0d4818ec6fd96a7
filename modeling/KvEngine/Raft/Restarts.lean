import KvEngine.Raft.Remembered

/-!
# Safety across restarts

A deployment whose moves are those of the cluster that forgot nothing is simulated by
the abstract protocol like that cluster, with the leaders and the acknowledged writes it
had before.

Results:
* `safeAcrossRestarts`: as long as nodes that came back do only what they would have
  done, at most one node leads a term, and in careful runs an acknowledged write is in
  the log of every later leader.
* `not_safeAcrossRestarts`: a node that came back votes twice in a term, and one helps
  to elect a leader without the write it had acknowledged.
-/

namespace KvEngine

open Consensus

variable {ι : Type} [DecidableEq ι]

/-! ## The simulation -/

section

variable [Fintype ι] {c c' : Cluster ι} {w : World ι LogEntry} {cfg : Config ι} {x : Move ι}

/-- A leader steps down. -/
theorem Sim.demote {P : World ι LogEntry → Event ι LogEntry → Prop} (h : Sim c w)
    (hE : w.Elections) (v : ι) (hP : P w (.receive v ⟨w.term v, 0, 0, []⟩)) :
    ∃ w', World.Run P v w w' ∧ Sim (c.setNode v { c.nodes v with role := .follower }) w' := by
  have hrun : World.Run P v w (w.apply (.receive v ⟨w.term v, 0, 0, []⟩)) :=
    .single (le_refl (w.term v)) hP rfl
  refine ⟨_, hrun, h.setNode hE hrun ?_⟩
  have hnode := h.node v
  have hno : ¬ (⟨w.term v, 0, 0, []⟩ : Msg LogEntry).Stores (w.log v) := fun hs => hs.1 rfl
  refine ⟨?_, ?_, hnode.voted, ?_, fun hrole => by simp at hrole⟩
  · exact (Function.update_self _ _ _).trans hnode.term
  · refine (Function.update_self _ _ _).trans ?_
    rw [Msg.store, if_neg hno, hnode.log]
  · simp [World.apply]

theorem Moved.sim (h : Moved cfg c x c') (hsim : Sim c w) (hE : w.Elections) :
    ∃ w', w'.Elections ∧ w.Extends w' ∧ Sim c' w' := by
  cases h with
  | act hstep =>
    obtain ⟨u, w', hrun, hsim'⟩ : ∃ u w', World.Run (fun _ _ => True) u w w' ∧ Sim c' w' :=
      hsim.step (fun _ _ _ => trivial) cfg hE hstep (fun _ _ _ _ => trivial)
    exact ⟨w', hrun.elections hE, hrun.extends hE, hsim'⟩
  | still => exact ⟨w, hE, .refl w, hsim⟩
  | restart v =>
    obtain ⟨w', hrun, hsim'⟩ := hsim.demote (P := fun _ _ => True) hE v trivial
    exact ⟨w', hrun.elections hE, hrun.extends hE, hsim'⟩

theorem Moved.orderly (h : Moved cfg c x c') (hsim : OrderlySim c w) (hall : AllBacked c w)
    (hcareful : ∀ a, x = .act a → Careful c a) :
    ∃ w', w.Extends w' ∧ OrderlySim c' w' ∧ AllBacked c' w' := by
  cases h with
  | @act a c' hstep =>
    obtain ⟨w', hext, hsim'⟩ := hsim.step (hcareful a rfl) hstep
    exact ⟨w', hext, hsim', hall.step hsim (hcareful a rfl) hstep hext⟩
  | still => exact ⟨w, .refl w, hsim, hall⟩
  | restart v =>
    have horderly : w.Orderly (.receive v ⟨w.term v, 0, 0, []⟩) := fun hs => absurd rfl hs.1
    obtain ⟨w', hrun, hsim'⟩ := hsim.sim.demote hsim.sound.elections v horderly
    have hext := hrun.extends hsim.sound.elections
    exact ⟨w', hext,
      ⟨hrun.sound hsim.sound, hsim', fun req hreq => (hsim.carried req hreq).mono hext⟩,
      fun u pr hpr => ProposalPhase.Backed.mono (hall u pr hpr) hext⟩

end

namespace Deployment

variable [Fintype ι] {d d' : Deployment ι} {cfg : Config ι} {w : World ι LogEntry}

/-- Runs of the deployment are simulated by the protocol. -/
theorem Runs.sim (hruns : Runs cfg AsRemembered d d') (hq : d.Quiet) (hsim : Sim d.remembered w)
    (hE : w.Elections) :
    ∃ w', w'.Elections ∧ w.Extends w' ∧ Sim d'.remembered w' ∧ d'.Quiet := by
  induction hruns with
  | start => exact ⟨w, hE, .refl w, hsim, hq⟩
  | step x _ hP hstep ih =>
    obtain ⟨w₁, hE₁, hext₁, hsim₁, hq₁⟩ := ih
    obtain ⟨hq₂, r, hmoved, hcov⟩ := hq₁.step hP hstep
    obtain ⟨w₂, hE₂, hext₂, hsim₂⟩ := hmoved.sim hsim₁ hE₁
    exact ⟨w₂, hE₂, hext₁.trans hext₂, hsim₂.of_covers hcov, hq₂⟩

/-- Careful runs of the deployment keep all invariants. -/
theorem Runs.orderly (hruns : Runs cfg CarefulAsRemembered d d') (hq : d.Quiet)
    (hsim : OrderlySim d.remembered w) (hall : AllBacked d.remembered w) :
    ∃ w', w.Extends w' ∧ OrderlySim d'.remembered w' ∧ AllBacked d'.remembered w' ∧ d'.Quiet := by
  induction hruns with
  | start => exact ⟨w, .refl w, hsim, hall, hq⟩
  | step x _ hP hstep ih =>
    obtain ⟨w₁, hext₁, hsim₁, hall₁, hq₁⟩ := ih
    obtain ⟨hq₂, r, hmoved, hcov⟩ := hq₁.step (CarefulAsRemembered.asRemembered _ _ hP) hstep
    obtain ⟨w₂, hext₂, hsim₂, hall₂⟩ := hmoved.orderly hsim₁ hall₁ (by
      rintro a rfl
      exact hP.2)
    exact ⟨w₂, hext₁.trans hext₂, hsim₂.of_covers hcov, hall₂.of_covers hcov, hq₂⟩

omit [DecidableEq ι] [Fintype ι] in
theorem Quiet.init : (Deployment.init : Deployment ι).Quiet := by
  intro v m h
  simp [Deployment.init] at h

/-! ## Safety -/

/-- Leaders of one term, first one and then the other, are one node. -/
def OneLeader (d₁ d₂ : Deployment ι) : Prop :=
  ∀ a b, (d₁.cluster.nodes a).role = .leader → (d₂.cluster.nodes b).role = .leader →
    (d₁.cluster.nodes a).currentTerm = (d₂.cluster.nodes b).currentTerm → a = b

/-- What had been acknowledged is, later, in the log of every leader of a later term. -/
def KeepsAcknowledged (d₁ d₂ : Deployment ι) : Prop :=
  ∀ v u, ∀ pr ∈ d₁.cluster.proposals v, pr.phase = .returned true →
    (d₂.cluster.nodes u).role = .leader → pr.entry.term < (d₂.cluster.nodes u).currentTerm →
      (d₂.cluster.nodes u).log[pr.index - 1]? = some pr.entry

omit [DecidableEq ι] [Fintype ι] in
/-- A node that leads holds what it would hold. -/
theorem Quiet.leading (hq : d.Quiet) {v : ι} (hrole : (d.cluster.nodes v).role = .leader) :
    d.remembered.nodes v = d.cluster.nodes v :=
  remembered_of_none (hq.lost_eq_none (by simp [hrole]))

/-- **Safety across restarts.** In every run in which nodes that came back stand, vote and
acknowledge only where they would have done so with the term, vote and log they had, at
most one node leads a term; if the steps are careful besides, no acknowledged write is
lost. -/
theorem safeAcrossRestarts {cfg : Config ι} {d₁ d₂ : Deployment ι} :
    (Runs cfg AsRemembered init d₁ → Runs cfg AsRemembered d₁ d₂ → OneLeader d₁ d₂) ∧
    (Runs cfg CarefulAsRemembered init d₁ → Runs cfg CarefulAsRemembered d₁ d₂ →
      KeepsAcknowledged d₁ d₂) := by
  constructor
  · intro h₁ h₂ a b ha hb hterm
    obtain ⟨w₁, hE₁, -, hsim₁, hq₁⟩ := h₁.sim Quiet.init Sim.init World.Elections.init
    obtain ⟨w₂, hE₂, hext, hsim₂, hq₂⟩ := h₂.sim hq₁ hsim₁ hE₁
    have hra := hq₁.leading ha
    have hrb := hq₂.leading hb
    rw [← hra] at ha hterm
    rw [← hrb] at hb hterm
    exact hsim₁.leader_eq hE₁ hext hsim₂ hE₂ ha hb hterm
  · intro h₁ h₂ v u pr hpr hret hlead hterm
    obtain ⟨w₁, -, hsim₁, hall₁, hq₁⟩ := h₁.orderly Quiet.init OrderlySim.init
      (fun v pr hpr => by simp [Deployment.init, remembered, Cluster.overlay, Cluster.init] at hpr)
    obtain ⟨w₂, hext, hsim₂, -, hq₂⟩ := h₂.orderly hq₁ hsim₁ hall₁
    have hru := hq₂.leading hlead
    rw [← hru] at hlead hterm ⊢
    exact hsim₁.log_acknowledged hall₁ hext hsim₂ hpr hret hlead hterm

end Deployment

/-! ## A node that catches up -/

/-- After the put that node 1 acknowledged, node 1 is stopped and comes back; a heartbeat
brings it the entry again. It refuses node 2 its vote in terms 1 and 2 and is elected
with the vote of node 2 in term 3. -/
def rejoined : List (Move (Fin 3)) :=
  [.stop 1, .restart 1] ++
    [.heartbeatTick 0, .heartbeatBuild 0, .deliverHeartbeat 0, .heartbeatReply 0,
      .electionTimeout 2, .startElection 2, .loseVote 2, .voteReply 2, .loseVote 2, .voteReply 2,
      .electionTimeout 2, .startElection 2, .loseVote 2, .voteReply 2, .deliverVote 2,
      .voteReply 2, .electionTimeout 1, .startElection 1, .loseVote 1, .voteReply 1,
      .deliverVote 1, .voteReply 1].map Move.act

/-- The deployment after the put. -/
def ackedDeployment : Deployment (Fin 3) :=
  (Deployment.init.run Config.three CarefulAsRemembered (ackedPut.map Move.act)).getD
    Deployment.init

/-- The deployment after that. -/
def rejoinedDeployment : Deployment (Fin 3) :=
  (ackedDeployment.run Config.three CarefulAsRemembered rejoined).getD ackedDeployment

/-- The theorem at that leader of term 1 and at that put. -/
theorem safeAcrossRestarts_rejoined :
    (∀ b, (rejoinedDeployment.cluster.nodes b).role = .leader →
      (ackedDeployment.cluster.nodes 0).currentTerm =
        (rejoinedDeployment.cluster.nodes b).currentTerm → 0 = b) ∧
    (rejoinedDeployment.cluster.nodes 1).role = .leader ∧
    (rejoinedDeployment.cluster.nodes 1).log[0]? = some ⟨1, .put, str "a", str "1"⟩ := by
  have h₁ : Deployment.Runs Config.three CarefulAsRemembered Deployment.init ackedDeployment :=
    .of_isSome (by decide +kernel)
  have h₂ : Deployment.Runs Config.three CarefulAsRemembered ackedDeployment rejoinedDeployment :=
    .of_isSome (by decide +kernel)
  have hfirst : (ackedDeployment.cluster.nodes 0).role = .leader := by decide +kernel
  have hlead : (rejoinedDeployment.cluster.nodes 1).role = .leader := by decide +kernel
  have hpr : (⟨⟨1, .put, str "a", str "1"⟩, 1, .returned true⟩ : Proposal (Fin 3)) ∈
      ackedDeployment.cluster.proposals 0 := by
    refine List.mem_of_getElem? (i := 0) ?_
    rfl
  refine ⟨fun b => ?_, hlead, ?_⟩
  · exact Deployment.safeAcrossRestarts.1 (h₁.mono CarefulAsRemembered.asRemembered)
      (h₂.mono CarefulAsRemembered.asRemembered) 0 b hfirst
  · exact Deployment.safeAcrossRestarts.2 h₁ h₂ 0 1 _ hpr rfl hlead (by decide +kernel)

/-! ## A node that forgets -/

/-- Node 0 is elected with the vote of node 1, which is stopped and comes back; then node 2
stands for the same term. -/
def votedTwice : List (Move (Fin 3)) :=
  electZero.map .act ++ [.stop 1, .restart 1] ++
    [.electionTimeout 2, .startElection 2, .loseVote 2, .voteReply 2, .deliverVote 2,
      .voteReply 2].map Move.act

/-- After the put that node 1 acknowledged, node 1 is stopped and comes back; then node 2
stands for the next term. -/
def forgottenPut : List (Move (Fin 3)) :=
  [.stop 1, .restart 1] ++
    [.electionTimeout 2, .startElection 2, .loseVote 2, .voteReply 2, .loseVote 2, .voteReply 2,
      .electionTimeout 2, .startElection 2, .loseVote 2, .voteReply 2, .deliverVote 2,
      .voteReply 2].map Move.act

/-- The action is careful with what the nodes hold. -/
def CarefulMove (d : Deployment ι) : Move ι → Prop
  | .act a => Careful d.cluster a
  | _ => True

instance (d : Deployment ι) (x : Move ι) : Decidable (CarefulMove d x) :=
  match x with
  | .act a => inferInstanceAs (Decidable (Careful d.cluster a))
  | .stop _ | .restart _ => isTrue trivial

/-- Without the condition there are two leaders of one term, and also in careful runs a
leader without an acknowledged write. -/
theorem not_safeAcrossRestarts :
    (¬ ∀ d₁ d₂ : Deployment (Fin 3), Deployment.Runs Config.three (fun _ _ => True)
      Deployment.init d₁ → Deployment.Runs Config.three (fun _ _ => True) d₁ d₂ →
        Deployment.OneLeader d₁ d₂) ∧
    ¬ ∀ d₁ d₂ : Deployment (Fin 3), Deployment.Runs Config.three CarefulMove Deployment.init d₁ →
      Deployment.Runs Config.three CarefulMove d₁ d₂ → Deployment.KeepsAcknowledged d₁ d₂ := by
  constructor
  · intro hall
    have heq := hall
      ((Deployment.init.run Config.three (fun _ _ => True) votedTwice).getD Deployment.init) _
      (.of_isSome (by decide +kernel)) .start 0 2 (by decide +kernel) (by decide +kernel)
      (by decide +kernel)
    revert heq
    decide +kernel
  · intro hall
    set d := (Deployment.init.run Config.three CarefulMove (ackedPut.map Move.act)).getD
      Deployment.init with hd
    have hpr : (⟨⟨1, .put, str "a", str "1"⟩, 1, .returned true⟩ : Proposal (Fin 3)) ∈
        d.cluster.proposals 0 := by
      refine List.mem_of_getElem? (i := 0) ?_
      rfl
    have hlog := hall d ((d.run Config.three CarefulMove forgottenPut).getD d)
      (.of_isSome (by decide +kernel)) (.of_isSome (by decide +kernel)) 0 2 _ hpr rfl
      (by decide +kernel) (by decide +kernel)
    revert hlog
    decide +kernel

end KvEngine
