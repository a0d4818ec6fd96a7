import KvEngine.Raft.Durability

/-!
# Who speaks for a term

An append request names the term of the node that built it. `HeartbeatLoop` looks at the
role in the critical section that builds; the two sections of a proposal that build do
not. While they find their node leading, every request in flight is one of the leader of
its term to another node, and election safety keeps it away from leaders.

Results:
* `Cluster.heartbeat_step`: how an action changes a heartbeat thread.
* `onlyLeadersSpeak`: in every run in which proposals build while their node leads,
  requests are built by the leader of their term and no leader of a term gets one of it.
* `not_onlyLeadersSpeak`: a deposed node sends the new leader a request of its own term.
-/

namespace KvEngine

open Consensus

variable {ι : Type} [DecidableEq ι]

/-! ## How heartbeat threads move on -/

/-- What an action can make of the heartbeat thread of `v`. -/
inductive HeartbeatStep (cfg : Config ι) (c : Cluster ι) (v : ι) :
    Action ι → HeartbeatThread ι → Prop where
  | same {a : Action ι} : HeartbeatStep cfg c v a (c.heartbeat v)
  | tick {a : Action ι} (hrole : (c.nodes v).role = .leader) :
    HeartbeatStep cfg c v a (RaftNode.nextBeat (cfg.peers v))
  | build {p : ι} {rest : List ι} (hth : c.heartbeat v = .building p rest) :
    HeartbeatStep cfg c v (.heartbeatBuild v) ((c.nodes v).heartbeatBuild v p rest)
  | answered {a : Action ι} {req : AppendEntriesReq ι} {p : ι} {rest : List ι}
      {reply reply' : Option AppendEntriesResp} (hth : c.heartbeat v = .calling req p rest reply) :
    HeartbeatStep cfg c v a (.calling req p rest reply')
  | reply {req : AppendEntriesReq ι} {p : ι} {rest : List ι} {resp : AppendEntriesResp}
      (hth : c.heartbeat v = .calling req p rest (some resp)) :
    HeartbeatStep cfg c v (.heartbeatReply v)
      ((c.nodes v).heartbeatReply (cfg.peers v) req p rest resp).2

namespace Cluster

variable {c c' : Cluster ι}

/-- How an action changes a heartbeat thread. -/
theorem heartbeat_step {cfg : Config ι} {a : Action ι} (hstep : c.step cfg a = some c') (v : ι) :
    HeartbeatStep cfg c v a (c'.heartbeat v) := by
  -- the threads of the other nodes stay
  have hset : ∀ {u : ι} {th : HeartbeatThread ι} {d : Cluster ι}, d.heartbeat = c.heartbeat →
      HeartbeatStep cfg c u a th → HeartbeatStep cfg c v a ((d.setHeartbeat u th).heartbeat v) := by
    intro u th d hd hth
    by_cases hv : v = u
    · subst hv
      simpa only [setHeartbeat, Function.update_self] using hth
    · simp only [setHeartbeat, Function.update_of_ne hv, hd]
      exact .same
  have hpropose : ∀ {u : ι} {r : RaftNode ι × Proposal ι},
      HeartbeatStep cfg c v a ((c.propose u r).heartbeat v) := by
    intro u r
    unfold propose
    split_ifs <;> exact .same
  cases step_inv hstep with
  | heartbeatTick hth hrole => exact hset rfl (.tick hrole)
  | heartbeatBuild hth => exact hset rfl (.build hth)
  | deliverHeartbeat hth => exact hset (d := c.setNode _ _) rfl (.answered hth)
  | loseHeartbeat hth => exact hset rfl (.answered hth)
  | heartbeatReply hth => exact hset (d := c.setNode _ _) rfl (.reply hth)
  | proposePut => exact hpropose
  | proposeDel => exact hpropose
  | _ =>
    -- the other threads
    exact .same

end Cluster

/-! ## Requests built -/

/-- The append request an action builds, and who builds it. -/
def Cluster.builds? (c : Cluster ι) : Action ι → Option (ι × AppendEntriesReq ι)
  | .heartbeatBuild v =>
    match c.heartbeat v with
    | .building p _ =>
      if (c.nodes v).role ≠ .leader then none
      else some (v, (c.nodes v).buildAppendEntriesLocked v p)
    | _ => none
  | .proposalRead v i =>
    match (c.proposals v)[i]? with
    | some ⟨e, _, .appended⟩ => some (v, (c.nodes v).proposalRequest v e)
    | _ => none
  | .proposalCommit v i =>
    match c.phase? v i with
    | some .committing => some (v, (c.nodes v).proposalHeartbeat v)
    | _ => none
  | _ => none

/-- The sections of a proposal that build find their node leading. -/
def SpeaksLeading (c : Cluster ι) : Action ι → Prop
  | .proposalRead v _ => (c.nodes v).role = .leader
  | .proposalCommit v _ => (c.nodes v).role = .leader
  | _ => True

instance (c : Cluster ι) (a : Action ι) : Decidable (SpeaksLeading c a) :=
  match a with
  | .proposalRead v _ | .proposalCommit v _ =>
    inferInstanceAs (Decidable ((c.nodes v).role = .leader))
  | .electionTimeout _ | .startElection _ | .deliverVote _ | .loseVote _ | .voteReply _
  | .heartbeatTick _ | .heartbeatBuild _ | .deliverHeartbeat _ | .loseHeartbeat _
  | .heartbeatReply _ | .proposePut _ _ _ | .proposeDel _ _ | .deliverProposal _ _
  | .loseProposal _ _ | .proposalReply _ _ | .deliverNotify _ _ | .loseNotify _ _
  | .notifyReply _ _ | .applyTake _ | .applyRun _ => isTrue trivial

omit [DecidableEq ι] in
/-- Who builds a request speaks for itself and its term. -/
theorem Cluster.signed_of_builds {c : Cluster ι} {a : Action ι} {d : ι × AppendEntriesReq ι}
    (h : c.builds? a = some d) :
    d.2.leaderId = d.1 ∧ d.2.term = (c.nodes d.1).currentTerm := by
  unfold Cluster.builds? at h
  split at h
  · split at h
    · split_ifs at h
      obtain rfl := Option.some.inj h
      exact ⟨rfl, rfl⟩
    · simp at h
  · split at h
    · obtain rfl := Option.some.inj h
      exact ⟨rfl, rfl⟩
    · simp at h
  · split at h
    · obtain rfl := Option.some.inj h
      exact ⟨rfl, rfl⟩
    · simp at h
  · simp at h

/-- An action that happens builds as a leader exactly under the condition. -/
theorem Cluster.leads_of_builds_iff {cfg : Config ι} {c c' : Cluster ι} {a : Action ι}
    (hstep : c.step cfg a = some c') :
    (∀ d, c.builds? a = some d → (c.nodes d.1).role = .leader) ↔ SpeaksLeading c a := by
  cases step_inv hstep with
  | proposalRead hpr => simp only [builds?, hpr, SpeaksLeading, Option.some.injEq, forall_eq']
  | proposalCommit hph => simp only [builds?, hph, SpeaksLeading, Option.some.injEq, forall_eq']
  | heartbeatBuild hth =>
    refine iff_of_true (fun d hd => ?_) trivial
    simp only [builds?, hth] at hd
    split_ifs at hd with hrole
    obtain rfl := Option.some.inj hd
    exact not_not.mp hrole
  | _ => exact iff_of_true (fun d hd => by simp [builds?] at hd) trivial

/-! ## Requests in flight -/

/-- The peers a heartbeat round has still to reach. -/
def HeartbeatThread.pending : HeartbeatThread ι → List ι
  | .building p rest => p :: rest
  | .calling _ p rest _ => p :: rest
  | .sleeping => []

/-- The peers a proposal has still to reach in this phase. -/
def ProposalPhase.pending : ProposalPhase ι → List ι
  | .replicating _ _ p rest _ => p :: rest
  | .notifying _ p rest _ => p :: rest
  | _ => []

/-- A thread of `v` that will call these peers, with this request, as a leader. -/
structure Speaks (cfg : Config ι) (w : World ι LogEntry) (v : ι) (pending : List ι)
    (req? : Option (AppendEntriesReq ι)) : Prop where
  peers : ∀ p ∈ pending, p ∈ cfg.peers v
  leader : ∀ req, req? = some req → w.leader req.term = some v

/-- All threads speak as leaders. -/
structure AllSpeak (cfg : Config ι) (c : Cluster ι) (w : World ι LogEntry) : Prop where
  heartbeat : ∀ v, Speaks cfg w v (c.heartbeat v).pending (c.heartbeat v).req?
  proposal : ∀ v, ∀ pr ∈ c.proposals v, Speaks cfg w v pr.phase.pending pr.phase.req?

section

variable {cfg : Config ι} {c c' : Cluster ι} {w w' : World ι LogEntry} {v : ι} {p : ι}
  {rest : List ι} {req : AppendEntriesReq ι}

omit [DecidableEq ι] in
theorem Speaks.mono {ps : List ι} {r : Option (AppendEntriesReq ι)} (h : Speaks cfg w v ps r)
    (hext : w.Extends w') : Speaks cfg w' v ps r :=
  ⟨h.peers, fun req hreq => hext.leader _ _ (h.leader req hreq)⟩

omit [DecidableEq ι] in
theorem speaks_nil : Speaks cfg w v [] none :=
  ⟨fun _ hp => absurd hp (List.not_mem_nil), fun _ hreq => by simp at hreq⟩

omit [DecidableEq ι] in
theorem speaks_nextBeat (h : ∀ q ∈ rest, q ∈ cfg.peers v) :
    Speaks cfg w v (RaftNode.nextBeat rest).pending (RaftNode.nextBeat rest).req? := by
  cases rest with
  | nil => exact speaks_nil
  | cons q qs => exact ⟨h, fun _ hreq => by simp [RaftNode.nextBeat, HeartbeatThread.req?] at hreq⟩

omit [DecidableEq ι] in
theorem speaks_replicate {peers : List ι} {acks : ℕ} (h : ∀ q ∈ rest, q ∈ cfg.peers v)
    (hleader : w.leader req.term = some v) :
    Speaks cfg w v (RaftNode.replicate peers req acks rest).pending
      (RaftNode.replicate peers req acks rest).req? := by
  cases rest with
  | nil =>
    unfold RaftNode.replicate
    split_ifs <;> exact speaks_nil
  | cons q qs => exact ⟨h, fun _ hreq => Option.some.inj hreq ▸ hleader⟩

omit [DecidableEq ι] in
theorem speaks_notify (h : ∀ q ∈ rest, q ∈ cfg.peers v) (hleader : w.leader req.term = some v) :
    Speaks cfg w v (RaftNode.notify req rest).pending (RaftNode.notify req rest).req? := by
  cases rest with
  | nil => exact speaks_nil
  | cons q qs => exact ⟨h, fun _ hreq => Option.some.inj hreq ▸ hleader⟩

/-- How the heartbeat thread of a node keeps speaking as a leader. -/
theorem Speaks.heartbeat_step
    (hleads : ∀ u, (c.nodes u).role = .leader → w.leader (c.nodes u).currentTerm = some u)
    (h : Speaks cfg w v (c.heartbeat v).pending (c.heartbeat v).req?) {a : Action ι}
    {th : HeartbeatThread ι} (hth : HeartbeatStep cfg c v a th) :
    Speaks cfg w v th.pending th.req? := by
  cases hth with
  | same => exact h
  | tick hrole => exact speaks_nextBeat fun _ hq => hq
  | build hold =>
    rw [hold] at h
    unfold RaftNode.heartbeatBuild
    split_ifs with hrole
    · exact speaks_nil
    · exact ⟨h.peers, fun req hreq => Option.some.inj hreq ▸ hleads v (not_not.mp hrole)⟩
  | answered hold =>
    rw [hold] at h
    exact ⟨h.peers, h.leader⟩
  | reply hold =>
    rw [hold] at h
    have hrest := fun q hq => h.peers q (List.mem_cons_of_mem _ hq)
    unfold RaftNode.heartbeatReply
    split_ifs
    · exact speaks_nil
    all_goals exact speaks_nextBeat hrest

omit [DecidableEq ι] in
/-- How a proposal keeps speaking as a leader. -/
theorem Speaks.proposal_step
    (hleads : ∀ u, (c.nodes u).role = .leader → w.leader (c.nodes u).currentTerm = some u)
    {pr : Proposal ι} (h : Speaks cfg w v pr.phase.pending pr.phase.req?) {a : Action ι}
    (hspeaks : SpeaksLeading c a) {ph : ProposalPhase ι} (hph : ProposalStep cfg c v pr a ph) :
    Speaks cfg w v ph.pending ph.req? := by
  cases hph with
  | read hpr => exact speaks_replicate (fun _ hq => hq) (hleads v hspeaks)
  | answered hold =>
    rw [hold] at h
    exact ⟨h.peers, h.leader⟩
  | reply hold =>
    rw [hold] at h
    have hrest := fun q hq => h.peers q (List.mem_cons_of_mem _ hq)
    unfold RaftNode.proposalReply
    split_ifs
    · exact speaks_nil
    · exact speaks_nil
    all_goals
      simp only
      split_ifs
      · exact speaks_nil
      · exact speaks_replicate hrest (h.leader _ rfl)
  | commit hold => exact speaks_notify (fun _ hq => hq) (hleads v hspeaks)
  | notified hold =>
    rw [hold] at h
    exact ⟨h.peers, h.leader⟩
  | notifyReply hold =>
    rw [hold] at h
    have hrest := fun q hq => h.peers q (List.mem_cons_of_mem _ hq)
    unfold RaftNode.notifyReply
    split_ifs
    · exact speaks_nil
    · exact speaks_notify hrest (h.leader _ rfl)

omit [DecidableEq ι] in
/-- A node that leads speaks for its term. -/
theorem Sim.leads [Fintype ι] (h : Sim c w) (hE : w.Elections) {u : ι}
    (hrole : (c.nodes u).role = .leader) : w.leader (c.nodes u).currentTerm = some u := by
  rw [← (h.node u).term]
  exact (hE.leads u ((h.node u).lead.mpr hrole)).1

omit [DecidableEq ι] in
theorem AllSpeak.init : AllSpeak cfg (Cluster.init : Cluster ι) World.init :=
  ⟨fun _ => speaks_nil, fun _ _ h => by simp [Cluster.init] at h⟩

/-- An action that speaks leading keeps it. -/
theorem AllSpeak.step [Fintype ι] (h : AllSpeak cfg c w) (hsim : Sim c w) (hE : w.Elections)
    {a : Action ι} (hspeaks : SpeaksLeading c a) (hstep : c.step cfg a = some c')
    (hext : w.Extends w') : AllSpeak cfg c' w' := by
  have hleads : ∀ u, (c.nodes u).role = .leader → w.leader (c.nodes u).currentTerm = some u :=
    fun u => hsim.leads hE
  refine ⟨fun v => ?_, fun v pr hpr => ?_⟩
  · exact ((h.heartbeat v).heartbeat_step hleads (Cluster.heartbeat_step hstep v)).mono hext
  · rcases Cluster.proposals_step hstep hpr with hold | hnew | ⟨pr₀, hpr₀, ph, hph, rfl⟩
    · exact (h.proposal v pr hold).mono hext
    · rw [hnew]
      exact speaks_nil
    · exact ((h.proposal v pr₀ hpr₀).proposal_step hleads hspeaks hph).mono hext

omit [DecidableEq ι] in
/-- A request is delivered to a peer of the leader of its term. -/
theorem AllSpeak.delivers (h : AllSpeak cfg c w) {a : Action ι}
    (hdel : c.delivers? a = some (p, req)) :
    ∃ u, w.leader req.term = some u ∧ p ∈ cfg.peers u := by
  have hthread : ∀ {u : ι} {ps : List ι} {r : Option (AppendEntriesReq ι)},
      Speaks cfg w u ps r → p ∈ ps → r = some req →
        ∃ u, w.leader req.term = some u ∧ p ∈ cfg.peers u :=
    fun hs hp hr => ⟨_, hs.leader req hr, hs.peers p hp⟩
  have hphase : ∀ {u : ι} {i : ℕ} {ph : ProposalPhase ι}, c.phase? u i = some ph →
      Speaks cfg w u ph.pending ph.req? := by
    intro u i ph hph
    obtain ⟨pr, hpr, rfl⟩ := Option.map_eq_some_iff.mp hph
    exact h.proposal u pr (List.mem_of_getElem? hpr)
  unfold Cluster.delivers? at hdel
  split at hdel
  · rename_i u
    split at hdel
    · rename_i hth
      obtain ⟨rfl, rfl⟩ := Prod.mk.inj (Option.some.inj hdel)
      have hs := h.heartbeat u
      rw [hth] at hs
      exact hthread hs List.mem_cons_self rfl
    · simp at hdel
  · split at hdel
    · rename_i hph
      obtain ⟨rfl, rfl⟩ := Prod.mk.inj (Option.some.inj hdel)
      exact hthread (hphase hph) List.mem_cons_self rfl
    · simp at hdel
  · split at hdel
    · rename_i hph
      obtain ⟨rfl, rfl⟩ := Prod.mk.inj (Option.some.inj hdel)
      exact hthread (hphase hph) List.mem_cons_self rfl
    · simp at hdel
  · simp at hdel

variable [Fintype ι]

theorem Cluster.Runs.exists_speaking {c₀ : Cluster ι}
    (hruns : Cluster.Runs cfg SpeaksLeading Cluster.init c₀) :
    ∃ w : World ι LogEntry, w.Elections ∧ Sim c₀ w ∧ AllSpeak cfg c₀ w := by
  induction hruns with
  | start => exact ⟨World.init, World.Elections.init, Sim.init, AllSpeak.init⟩
  | step a _ hP hstep ih =>
    obtain ⟨w, hE, hsim, hspeak⟩ := ih
    obtain ⟨w', hE', hext, hsim'⟩ := hsim.runs (.step a .start hP hstep) hE
    exact ⟨w', hE', hsim', hspeak.step hsim hE hP hstep hext⟩

/-- **Only the leader of a term speaks for it.** In every run of a cluster of any size in
which proposals build while their node leads, every append request is built by a node
that leads the request's term, and nobody that leads its term handles it. -/
theorem onlyLeadersSpeak (h : Cluster.Runs cfg SpeaksLeading Cluster.init c) {a : Action ι}
    (hspeaks : SpeaksLeading c a) (hstep : c.step cfg a = some c') :
    (∀ v req, c.builds? a = some (v, req) →
      req.leaderId = v ∧ (c.nodes v).role = .leader ∧ (c.nodes v).currentTerm = req.term) ∧
    ∀ p req, c.delivers? a = some (p, req) →
      ¬ ((c.nodes p).role = .leader ∧ (c.nodes p).currentTerm = req.term) := by
  refine ⟨fun v req hbuilds => ?_, fun p req hdel ⟨hrole, hterm⟩ => ?_⟩
  · obtain ⟨hid, hterm⟩ := Cluster.signed_of_builds hbuilds
    exact ⟨hid, (Cluster.leads_of_builds_iff hstep).mpr hspeaks (v, req) hbuilds, hterm.symm⟩
  · obtain ⟨w, hE, hsim, hspeak⟩ := h.exists_speaking
    obtain ⟨u, hleader, hp⟩ := hspeak.delivers hdel
    -- the sender is the one leader of the term
    have hown := hsim.leads hE hrole
    rw [hterm, hleader] at hown
    obtain rfl := Option.some.inj hown
    exact (cfg.mem_peers u u).mp hp rfl

end

/-- Node 0 leads and its first proposal has its request to node 1 in flight. -/
def requestOne : List (Action (Fin 3)) :=
  electZero ++ [.proposePut 0 (str "a") (str "1"), .proposalRead 0 0]

/-- The cluster after that. -/
def requestedOne : Cluster (Fin 3) :=
  (Cluster.init.run Config.three SpeaksLeading requestOne).getD Cluster.init

/-- The theorem at the delivery of that request. -/
theorem onlyLeadersSpeak_requestOne :
    (requestedOne.delivers? (.deliverProposal 0 0)).isSome = true ∧
      ∀ p req, requestedOne.delivers? (.deliverProposal 0 0) = some (p, req) →
        ¬ ((requestedOne.nodes p).role = .leader ∧
          (requestedOne.nodes p).currentTerm = req.term) := by
  have hsome : (requestedOne.step Config.three (.deliverProposal 0 0)).isSome = true := by
    decide +kernel
  obtain ⟨c', hstep⟩ := Option.isSome_iff_exists.mp hsome
  have hrun : Cluster.Runs Config.three SpeaksLeading Cluster.init requestedOne :=
    .of_isSome (by decide +kernel)
  have hspeaks : SpeaksLeading requestedOne (.deliverProposal 0 0) := trivial
  exact ⟨by decide +kernel, (onlyLeadersSpeak hrun hspeaks hstep).2⟩

/-! ## A deposed node -/

/-- Node 0 leads and appends an entry; node 1 is elected in term 2 and its heartbeat
deposes node 0; then the proposal on node 0 reads its term and sends. -/
def deposedPut : List (Action (Fin 3)) :=
  electZero ++
    [.proposePut 0 (str "a") (str "1"), .electionTimeout 1, .startElection 1, .loseVote 1,
      .voteReply 1, .deliverVote 1, .voteReply 1, .heartbeatTick 1, .heartbeatBuild 1,
      .deliverHeartbeat 1, .proposalRead 0 0]

/-- The cluster after that. -/
def deposedCluster : Cluster (Fin 3) :=
  (Cluster.init.run Config.three (fun _ _ => True) deposedPut).getD Cluster.init

/-- Without that condition a leader can get a request of its own term: node 1, which leads
term 2, gets one from node 0. -/
theorem not_onlyLeadersSpeak :
    ¬ ∀ (c c' : Cluster (Fin 3)) (a : Action (Fin 3)),
      Cluster.Runs Config.three (fun _ _ => True) Cluster.init c →
      c.step Config.three a = some c' →
      (∀ v req, c.builds? a = some (v, req) →
        req.leaderId = v ∧ (c.nodes v).role = .leader ∧ (c.nodes v).currentTerm = req.term) ∧
      ∀ p req, c.delivers? a = some (p, req) →
        ¬ ((c.nodes p).role = .leader ∧ (c.nodes p).currentTerm = req.term) := by
  intro hall
  have hsome : (deposedCluster.step Config.three (.deliverProposal 0 0)).isSome = true := by
    decide +kernel
  obtain ⟨c', hstep⟩ := Option.isSome_iff_exists.mp hsome
  obtain ⟨-, hhandled⟩ := hall deposedCluster c' (.deliverProposal 0 0)
    (.of_isSome (by decide +kernel)) hstep
  have hto : (deposedCluster.delivers? (.deliverProposal 0 0)).map
      (fun d => (d.1, d.2.term)) = some (1, 2) := by decide +kernel
  obtain ⟨⟨p, req⟩, hdel, hd⟩ := Option.map_eq_some_iff.mp hto
  obtain ⟨rfl, hterm⟩ := Prod.mk.inj hd
  have hnode : (deposedCluster.nodes 1).role = .leader ∧
      (deposedCluster.nodes 1).currentTerm = 2 := by decide +kernel
  exact hhandled 1 req hdel ⟨hnode.1, hnode.2.trans hterm.symm⟩

end KvEngine
