import KvEngine.Raft.Deployment

/-!
# The cluster that forgot nothing

As long as nodes that came back stand, vote and acknowledge only where they would have
done so with the term, vote and log they had (`AsRemembered`), a deployment does what
its cluster would do had nobody forgotten anything, but for requests that are refused.

Results:
* `Deployment.Quiet.step`: every move is one of the cluster that forgot nothing, up to
  refused replies.
-/

namespace KvEngine

open Consensus

variable {ι : Type} [DecidableEq ι]

/-! ## Clusters that say no more -/

/-- `th'` is `th` with a reply that says no more, or waits for nothing. -/
inductive ElectionThread.Covers : ElectionThread ι → ElectionThread ι → Prop where
  | refl (th : ElectionThread ι) : Covers th th
  | idle (th : ElectionThread ι) : Covers th .sleeping
  | reply {req : RequestVoteReq ι} {votes : ℕ} {p : ι} {rest : List ι} {r r' : RequestVoteResp}
      (h : r'.voteGranted = true → r.voteGranted = true) :
    Covers (.calling req votes p rest (some r)) (.calling req votes p rest (some r'))

/-- The same for heartbeats. -/
inductive HeartbeatThread.Covers : HeartbeatThread ι → HeartbeatThread ι → Prop where
  | refl (th : HeartbeatThread ι) : Covers th th
  | idle (th : HeartbeatThread ι) : Covers th .sleeping
  | reply {req : AppendEntriesReq ι} {p : ι} {rest : List ι} {r r' : AppendEntriesResp}
      (h : req.entries ≠ [] → r'.success = true → r.success = true) :
    Covers (.calling req p rest (some r)) (.calling req p rest (some r'))

/-- The same for proposals. -/
inductive ProposalPhase.Covers : ProposalPhase ι → ProposalPhase ι → Prop where
  | refl (ph : ProposalPhase ι) : Covers ph ph
  | reply {req : AppendEntriesReq ι} {acks : ℕ} {p : ι} {rest : List ι} {r r' : AppendEntriesResp}
      (h : req.entries ≠ [] → r'.success = true → r.success = true) :
    Covers (.replicating req acks p rest (some r)) (.replicating req acks p rest (some r'))
  | notified (req : AppendEntriesReq ι) (p : ι) (rest : List ι) (r r' : AppendEntriesResp) :
    Covers (.notifying req p rest (some r)) (.notifying req p rest (some r'))

/-- The nodes have the same terms, votes, logs and roles, and what the threads of `c'`
know, those of `c` do. -/
structure Cluster.Covers (c c' : Cluster ι) : Prop where
  node : ∀ v, (c.nodes v).CaughtUp (c'.nodes v) ∧ (c'.nodes v).role = (c.nodes v).role
  election : ∀ v, (c.election v).Covers (c'.election v)
  heartbeat : ∀ v, (c.heartbeat v).Covers (c'.heartbeat v)
  proposal : ∀ v, ∀ pr' ∈ c'.proposals v, ∃ pr ∈ c.proposals v, pr'.entry = pr.entry ∧
    pr'.index = pr.index ∧ pr.phase.Covers pr'.phase

section

variable {c c' : Cluster ι} {w : World ι LogEntry}

omit [DecidableEq ι] in
theorem ElectionThread.Covers.sim {v : ι} {th th' : ElectionThread ι} (h : th.Covers th')
    (hsim : th.Sim w v) : th'.Sim w v := by
  cases h with
  | refl => exact hsim
  | idle => trivial
  | @reply req votes p rest r r' hgranted =>
    obtain ⟨hreq, htally, hreply⟩ := hsim
    refine ⟨hreq, htally, fun resp hresp hyes => ?_⟩
    obtain rfl := Option.some.inj hresp
    exact hreply r rfl (hgranted hyes)

omit [DecidableEq ι] in
theorem ReplySim.weaken {req : AppendEntriesReq ι} {p : ι} {r r' : AppendEntriesResp}
    (h : ReplySim w req p (some r)) (hsuccess : req.entries ≠ [] → r'.success = true →
      r.success = true) : ReplySim w req p (some r') := by
  intro resp hresp hyes hne
  obtain rfl := Option.some.inj hresp
  exact h r rfl (hsuccess hne hyes) hne

omit [DecidableEq ι] in
theorem HeartbeatThread.Covers.sim {th th' : HeartbeatThread ι} (h : th.Covers th')
    (hsim : th.Sim w) : th'.Sim w := by
  cases h with
  | refl => exact hsim
  | idle => trivial
  | reply hsuccess => exact ReplySim.weaken hsim hsuccess

omit [DecidableEq ι] in
theorem ProposalPhase.Covers.sim {v : ι} {e : LogEntry} {ph ph' : ProposalPhase ι}
    (h : ph.Covers ph') (hsim : ph.Sim w v e) : ph'.Sim w v e := by
  cases h with
  | refl => exact hsim
  | reply hsuccess => exact ⟨hsim.1, hsim.2.1, hsim.2.2.weaken hsuccess⟩
  | notified => trivial

omit [DecidableEq ι] in
theorem Sim.of_covers (h : Sim c w) (hcov : c.Covers c') : Sim c' w := by
  refine ⟨fun v => ?_, fun v => (hcov.election v).sim (h.election v),
    fun v => (hcov.heartbeat v).sim (h.heartbeat v), fun v pr' hpr' => ?_⟩
  · obtain ⟨⟨hterm, hvoted, hlog⟩, hrole⟩ := hcov.node v
    exact (h.node v).congr hterm hlog hvoted hrole
  · obtain ⟨pr, hpr, hentry, hindex, hphase⟩ := hcov.proposal v pr' hpr'
    have hold := h.proposal v pr hpr
    exact ⟨by rw [hentry, hindex]; exact hold.placed, by rw [hindex]; exact hold.positive,
      by rw [hentry, hindex]; exact hold.self, by rw [hentry]; exact hphase.sim hold.phase⟩

omit [DecidableEq ι] in
theorem Cluster.Covers.holds {req : AppendEntriesReq ι} (hcov : c.Covers c') (h : c'.Holds req) :
    c.Holds req := by
  rcases h with ⟨v, hv⟩ | ⟨v, pr', hpr', hreq⟩
  · refine Or.inl ⟨v, ?_⟩
    have hth := hcov.heartbeat v
    generalize c.heartbeat v = th at hth ⊢
    generalize c'.heartbeat v = th' at hth hv
    cases hth with
    | refl => exact hv
    | idle => simp [HeartbeatThread.req?] at hv
    | reply => exact hv
  · obtain ⟨pr, hpr, -, -, hphase⟩ := hcov.proposal v pr' hpr'
    refine Or.inr ⟨v, pr, hpr, ?_⟩
    generalize pr.phase = ph at hphase ⊢
    generalize pr'.phase = ph' at hphase hreq
    cases hphase with
    | refl => exact hreq
    | reply => exact hreq
    | notified => exact hreq

variable [Fintype ι]

omit [DecidableEq ι] in
theorem OrderlySim.of_covers (h : OrderlySim c w) (hcov : c.Covers c') : OrderlySim c' w :=
  ⟨h.sound, h.sim.of_covers hcov, fun req hreq => h.carried req (hcov.holds hreq)⟩

omit [DecidableEq ι] in
theorem AllBacked.of_covers (h : AllBacked c w) (hcov : c.Covers c') : AllBacked c' w := by
  intro v pr' hpr'
  obtain ⟨pr, hpr, hentry, hindex, hphase⟩ := hcov.proposal v pr' hpr'
  have hold := h v pr hpr
  unfold Proposal.Backed at hold ⊢
  rw [hentry, hindex]
  generalize pr.phase = ph at hphase hold
  generalize pr'.phase = ph' at hphase ⊢
  cases hphase with
  | refl => exact hold
  | reply => exact hold
  | notified => exact hold

end

/-! ## Actions of the others -/

namespace Cluster

variable {c c' : Cluster ι} {lost : ι → Option (RaftNode ι)} {cfg : Config ι} {a : Action ι}

omit [DecidableEq ι] in
theorem overlay_of_none {v : ι} (h : lost v = none) : (c.overlay lost).nodes v = c.nodes v := by
  simp [overlay, h]

theorem setNode_overlay {v : ι} (h : lost v = none) (n : RaftNode ι) :
    (c.overlay lost).setNode v n = (c.setNode v n).overlay lost := by
  unfold setNode overlay
  congr 1
  funext u
  by_cases hu : u = v
  · subst hu
    simp [h]
  · simp only [Function.update_of_ne hu]

theorem propose_overlay {v : ι} (h : lost v = none) (r : RaftNode ι × Proposal ι) :
    (c.overlay lost).propose v r = (c.propose v r).overlay lost := by
  unfold propose
  rw [overlay_of_none h, setNode_overlay h]
  split_ifs <;> rfl

omit [DecidableEq ι] in
@[simp] theorem election_overlay : (c.overlay lost).election = c.election := rfl
omit [DecidableEq ι] in
@[simp] theorem heartbeat_overlay : (c.overlay lost).heartbeat = c.heartbeat := rfl
omit [DecidableEq ι] in
@[simp] theorem apply_overlay : (c.overlay lost).apply = c.apply := rfl
omit [DecidableEq ι] in
@[simp] theorem proposals_overlay : (c.overlay lost).proposals = c.proposals := rfl
omit [DecidableEq ι] in
@[simp] theorem phase?_overlay (v : ι) (i : ℕ) : (c.overlay lost).phase? v i = c.phase? v i := rfl

/-- What a node that lost nothing makes of a request. -/
theorem setNode_nodes_overlay {p : ι} (hp : lost p = none) (f : RaftNode ι → RaftNode ι) :
    (c.overlay lost).setNode p (f ((c.overlay lost).nodes p)) =
      (c.setNode p (f (c.nodes p))).overlay lost := by
  rw [overlay_of_none hp, setNode_overlay hp]

theorem deliverVote_overlay (v : ι) (hasks : ∀ q ∈ c.asks? (.deliverVote v), lost q.1 = none) :
    (c.overlay lost).step cfg (.deliverVote v) =
      (c.step cfg (.deliverVote v)).map (·.overlay lost) := by
  simp only [step, asks?, election_overlay] at hasks ⊢
  split
  · rename_i req votes p rest hth
    have hp : lost p = none := hasks (p, req) (by simp [hth])
    rw [setNode_nodes_overlay hp fun n => (n.onRequestVote req).2, overlay_of_none hp]
    rfl
  · rfl

theorem deliverHeartbeat_overlay (v : ι)
    (hdelivers : ∀ q ∈ c.delivers? (.deliverHeartbeat v), lost q.1 = none) :
    (c.overlay lost).step cfg (.deliverHeartbeat v) =
      (c.step cfg (.deliverHeartbeat v)).map (·.overlay lost) := by
  simp only [step, delivers?, heartbeat_overlay] at hdelivers ⊢
  split
  · rename_i req p rest hth
    have hp : lost p = none := hdelivers (p, req) (by simp [hth])
    rw [setNode_nodes_overlay hp fun n => (n.onAppendEntries req).2, overlay_of_none hp]
    rfl
  · rfl

theorem deliverProposal_overlay (v : ι) (i : ℕ)
    (hdelivers : ∀ q ∈ c.delivers? (.deliverProposal v i), lost q.1 = none) :
    (c.overlay lost).step cfg (.deliverProposal v i) =
      (c.step cfg (.deliverProposal v i)).map (·.overlay lost) := by
  simp only [step, delivers?, phase?_overlay] at hdelivers ⊢
  split
  · rename_i req acks p rest hph
    have hp : lost p = none := hdelivers (p, req) (by simp [hph])
    rw [setNode_nodes_overlay hp fun n => (n.onAppendEntries req).2, overlay_of_none hp]
    rfl
  · rfl

theorem deliverNotify_overlay (v : ι) (i : ℕ)
    (hdelivers : ∀ q ∈ c.delivers? (.deliverNotify v i), lost q.1 = none) :
    (c.overlay lost).step cfg (.deliverNotify v i) =
      (c.step cfg (.deliverNotify v i)).map (·.overlay lost) := by
  simp only [step, delivers?, phase?_overlay] at hdelivers ⊢
  split
  · rename_i req p rest hph
    have hp : lost p = none := hdelivers (p, req) (by simp [hph])
    rw [setNode_nodes_overlay hp fun n => (n.onAppendEntries req).2, overlay_of_none hp]
    rfl
  · rfl

theorem applyTake_overlay {v : ι} (hv : lost v = none) :
    (c.overlay lost).step cfg (.applyTake v) =
      (c.step cfg (.applyTake v)).map (·.overlay lost) := by
  simp only [step, overlay_of_none hv, setNode_overlay hv, apply_overlay]
  split
  · split_ifs
    · split <;> rfl
    · rfl
  · rfl

/-- An action at other nodes, with requests to other nodes, is the same with or without
what some nodes lost. -/
theorem step_overlay (hnode : lost a.node = none) (hasks : ∀ q ∈ c.asks? a, lost q.1 = none)
    (hdelivers : ∀ q ∈ c.delivers? a, lost q.1 = none) :
    (c.overlay lost).step cfg a = (c.step cfg a).map (·.overlay lost) := by
  have hv := overlay_of_none (c := c) hnode
  have hset := setNode_overlay (c := c) hnode
  cases a with
  | deliverVote v => exact deliverVote_overlay v hasks
  | deliverHeartbeat v => exact deliverHeartbeat_overlay v hdelivers
  | deliverProposal v i => exact deliverProposal_overlay v i hdelivers
  | deliverNotify v i => exact deliverNotify_overlay v i hdelivers
  | applyTake v => exact applyTake_overlay hnode
  | proposePut v key value =>
    simp only [Action.node] at hnode hv
    simp only [step, hv, propose_overlay hnode, Option.map_some]
  | proposeDel v key =>
    simp only [Action.node] at hnode hv
    simp only [step, hv, propose_overlay hnode, Option.map_some]
  | _ =>
    simp only [Action.node] at hnode hv hset
    simp only [step, hv, hset, election_overlay, heartbeat_overlay, apply_overlay,
      proposals_overlay, phase?_overlay]
    split
    all_goals first | rfl | (split_ifs <;> rfl)

/-- What an action leaves alone: the threads of the other nodes, and the nodes that are
sent nothing. -/
theorem step_of_ne (hstep : c.step cfg a = some c') {v : ι} (hv : v ≠ a.node) :
    (c'.election v = c.election v ∧ c'.heartbeat v = c.heartbeat v ∧
      c'.proposals v = c.proposals v) ∧
    (c'.nodes v = c.nodes v ∨
      (∃ req, c.asks? a = some (v, req) ∧ c'.nodes v = ((c.nodes v).onRequestVote req).2) ∨
      ∃ req, c.delivers? a = some (v, req) ∧ c'.nodes v = ((c.nodes v).onAppendEntries req).2) := by
  have hpropose : ∀ {u : ι} {r : RaftNode ι × Proposal ι}, v ≠ u →
      ((c.propose u r).election v = c.election v ∧ (c.propose u r).heartbeat v = c.heartbeat v ∧
        (c.propose u r).proposals v = c.proposals v) ∧
      ((c.propose u r).nodes v = c.nodes v ∨
        (∃ req, c.asks? a = some (v, req) ∧
          (c.propose u r).nodes v = ((c.nodes v).onRequestVote req).2) ∨
        ∃ req, c.delivers? a = some (v, req) ∧
          (c.propose u r).nodes v = ((c.nodes v).onAppendEntries req).2) := by
    intro u r hu
    unfold propose
    split_ifs
    · exact ⟨⟨rfl, rfl, Function.update_of_ne hu _ _⟩, Or.inl (Function.update_of_ne hu _ _)⟩
    · exact ⟨⟨rfl, rfl, rfl⟩, Or.inl rfl⟩
  cases step_inv hstep with
  | @deliverVote u p req votes rest hth =>
    refine ⟨⟨Function.update_of_ne hv _ _, rfl, rfl⟩, ?_⟩
    by_cases hp : v = p
    · subst hp
      exact Or.inr (Or.inl ⟨req, by simp [asks?, hth], Function.update_self _ _ _⟩)
    · exact Or.inl (Function.update_of_ne hp _ _)
  | @deliverHeartbeat u p req rest hth =>
    refine ⟨⟨rfl, Function.update_of_ne hv _ _, rfl⟩, ?_⟩
    by_cases hp : v = p
    · subst hp
      exact Or.inr (Or.inr ⟨req, by simp [delivers?, hth], Function.update_self _ _ _⟩)
    · exact Or.inl (Function.update_of_ne hp _ _)
  | @deliverProposal u p i acks req rest hph =>
    refine ⟨⟨rfl, rfl, Function.update_of_ne hv _ _⟩, ?_⟩
    by_cases hp : v = p
    · subst hp
      exact Or.inr (Or.inr ⟨req, by simp [delivers?, hph], Function.update_self _ _ _⟩)
    · exact Or.inl (Function.update_of_ne hp _ _)
  | @deliverNotify u p i req rest hph =>
    refine ⟨⟨rfl, rfl, Function.update_of_ne hv _ _⟩, ?_⟩
    by_cases hp : v = p
    · subst hp
      exact Or.inr (Or.inr ⟨req, by simp [delivers?, hph], Function.update_self _ _ _⟩)
    · exact Or.inl (Function.update_of_ne hp _ _)
  | proposePut => exact hpropose hv
  | proposeDel => exact hpropose hv
  | _ =>
    simp only [Action.node] at hv
    simp [setNode, setElection, setHeartbeat, setApply, setPhase, Function.update_of_ne hv]

/-- The threads of `v` wait for nothing. -/
structure Idle (c : Cluster ι) (v : ι) : Prop where
  election : c.election v = .sleeping ∨ c.election v = .timedOut
  heartbeat : c.heartbeat v = .sleeping
  proposals : ∀ pr ∈ c.proposals v, ∃ ok, pr.phase = .returned ok

omit [DecidableEq ι] in
theorem Idle.phase {v : ι} (h : c.Idle v) {i : ℕ} {ph : ProposalPhase ι}
    (hph : c.phase? v i = some ph) : ∃ ok, ph = .returned ok := by
  obtain ⟨pr, hpr, rfl⟩ := Option.map_eq_some_iff.mp hph
  exact h.proposals pr (List.mem_of_getElem? hpr)

/-- What `ApplyLoop` takes changes nothing else. -/
theorem applyTake_step {u : ι} (hstep : c.step cfg (.applyTake u) = some c') :
    (c'.election = c.election ∧ c'.heartbeat = c.heartbeat ∧ c'.proposals = c.proposals) ∧
      (c'.nodes u).role = (c.nodes u).role ∧ ∀ v, v ≠ u → c'.nodes v = c.nodes v := by
  cases step_inv hstep with
  | applyTake hth hlt hget =>
    refine ⟨⟨rfl, rfl, rfl⟩, ?_, fun v hv => Function.update_of_ne hv _ _⟩
    simp [setApply, setNode]
  | idleTake hth hle => exact ⟨⟨rfl, rfl, rfl⟩, rfl, fun v _ => rfl⟩

/-! ### Followers that wait for nothing -/

/-- Such a follower refuses to propose and has no heartbeat to send. -/
inductive Refuses (c : Cluster ι) (v : ι) : Action ι → Prop where
  | heartbeatTick (hth : c.heartbeat v = .sleeping) : Refuses c v (.heartbeatTick v)
  | proposePut (key value : Bytes) : Refuses c v (.proposePut v key value)
  | proposeDel (key : Bytes) : Refuses c v (.proposeDel v key)

theorem Refuses.step {v : ι} (h : c.Refuses v a) (hrole : (c.nodes v).role = .follower) :
    c.step cfg a = some c := by
  cases h with
  | heartbeatTick hth => simp [Cluster.step, hth, hrole]
  | proposePut key value => simp [Cluster.step, propose, hrole]
  | proposeDel key => simp [Cluster.step, propose, hrole]

omit [DecidableEq ι] in
theorem Idle.not_calling {v : ι} (h : c.Idle v) {req : RequestVoteReq ι} {votes : ℕ} {p : ι}
    {rest : List ι} {reply : Option RequestVoteResp}
    (hth : c.election v = .calling req votes p rest reply) : False := by
  rcases h.election with he | he
  · simp [he] at hth
  · simp [he] at hth

omit [DecidableEq ι] in
theorem Idle.not_beating {v : ι} (h : c.Idle v) {th : HeartbeatThread ι}
    (hth : c.heartbeat v = th) (hne : th ≠ .sleeping) : False :=
  hne (hth.symm.trans h.heartbeat)

omit [DecidableEq ι] in
theorem Idle.not_proposing {v : ι} (h : c.Idle v) {i : ℕ} {ph : ProposalPhase ι}
    (hph : c.phase? v i = some ph) (hne : ∀ ok, ph ≠ .returned ok) : False := by
  obtain ⟨ok, hok⟩ := h.phase hph
  exact hne ok hok

/-- What a follower that waits for nothing does, other than to stand for election: it
refuses, times out, or takes or runs an entry. -/
theorem Idle.step_cases {v : ι} (h : c.Idle v) (hrole : (c.nodes v).role = .follower)
    (hnode : a.node = v) (hstand : a.stands? = none) (hstep : c.step cfg a = some c') :
    c.Refuses v a ∨
    (a = .electionTimeout v ∧ c.election v = .sleeping ∧ c' = c.setElection v .timedOut) ∨
    a = .applyTake v ∨
    ∃ i e, a = .applyRun v ∧ c.apply v = .holding i e ∧
      c' = { c.setApply v .sleeping with
        applied := Function.update c.applied v (c.applied v ++ [(i, e)]) } := by
  subst hnode
  cases step_inv hstep with
  | leads hth hlead =>
    simp only [Action.node] at hrole
    simp [hrole] at hlead
  | electionTimeout hth hlead => exact Or.inr (Or.inl ⟨rfl, hth, rfl⟩)
  | startElection hth => simp [Action.stands?] at hstand
  | deliverVote hth => exact (h.not_calling hth).elim
  | loseVote hth => exact (h.not_calling hth).elim
  | voteReply hth => exact (h.not_calling hth).elim
  | heartbeatTick hth hlead =>
    simp only [Action.node] at hrole
    simp [hrole] at hlead
  | idleTick hth hlead => exact Or.inl (.heartbeatTick hth)
  | heartbeatBuild hth => exact (h.not_beating hth (by simp)).elim
  | deliverHeartbeat hth => exact (h.not_beating hth (by simp)).elim
  | loseHeartbeat hth => exact (h.not_beating hth (by simp)).elim
  | heartbeatReply hth => exact (h.not_beating hth (by simp)).elim
  | @proposePut u key value => exact Or.inl (.proposePut key value)
  | @proposeDel u key => exact Or.inl (.proposeDel key)
  | proposalRead hpr =>
    obtain ⟨ok, hok⟩ := h.proposals _ (List.mem_of_getElem? hpr)
    simp at hok
  | deliverProposal hph => exact (h.not_proposing hph (by simp)).elim
  | loseProposal hph => exact (h.not_proposing hph (by simp)).elim
  | proposalReply hph => exact (h.not_proposing hph (by simp)).elim
  | proposalCommit hph => exact (h.not_proposing hph (by simp)).elim
  | deliverNotify hph => exact (h.not_proposing hph (by simp)).elim
  | loseNotify hph => exact (h.not_proposing hph (by simp)).elim
  | notifyReply hph => exact (h.not_proposing hph (by simp)).elim
  | applyTake hth hlt hget => exact Or.inr (Or.inr (Or.inl rfl))
  | idleTake hth hle => exact Or.inr (Or.inr (Or.inl rfl))
  | applyRun hth => exact Or.inr (Or.inr (Or.inr ⟨_, _, rfl, hth, rfl⟩))

/-- `ApplyLoop` in the two clusters: with what `v` lost there may be nothing to take. -/
theorem Idle.applyTake_overlay {v : ι} (h : c.Idle v) (hrole : (c.nodes v).role = .follower)
    (hrole' : ((c.overlay lost).nodes v).role = .follower)
    (hstep : c.step cfg (.applyTake v) = some c') {r : Cluster ι}
    (hr : ((c.overlay lost).step cfg (.applyTake v)).getD (c.overlay lost) = r) :
    c'.Idle v ∧
      (c'.election = r.election ∧ c'.heartbeat = r.heartbeat ∧ c'.proposals = r.proposals) ∧
      (c'.nodes v).role = .follower ∧ (r.nodes v).role = .follower ∧
      ∀ u, u ≠ v → c'.nodes u = c.nodes u ∧ r.nodes u = (c.overlay lost).nodes u := by
  obtain ⟨⟨he, hh, hp⟩, hcrole, hcnodes⟩ := applyTake_step hstep
  obtain ⟨⟨re, rh, rp⟩, hrrole, hrnodes⟩ : (r.election = c.election ∧ r.heartbeat = c.heartbeat ∧
      r.proposals = c.proposals) ∧ (r.nodes v).role = ((c.overlay lost).nodes v).role ∧
      ∀ u, u ≠ v → r.nodes u = (c.overlay lost).nodes u := by
    cases hopt : (c.overlay lost).step cfg (.applyTake v) with
    | none =>
      rw [hopt] at hr
      obtain rfl := hr
      exact ⟨⟨rfl, rfl, rfl⟩, rfl, fun v _ => rfl⟩
    | some r' =>
      rw [hopt] at hr
      obtain rfl := hr
      exact applyTake_step hopt
  exact ⟨⟨he ▸ h.election, hh ▸ h.heartbeat, hp ▸ h.proposals⟩, ⟨by rw [he, re], by rw [hh, rh],
    by rw [hp, rp]⟩, by rw [hcrole, hrole], by rw [hrrole, hrole'],
    fun u hu => ⟨hcnodes u hu, hrnodes u hu⟩⟩

/-- What a follower that waits for nothing does, other than to stand for election, with and
without what it lost. -/
theorem Idle.step_overlay {v : ι} (h : c.Idle v) (hrole : (c.nodes v).role = .follower)
    (hrole' : ((c.overlay lost).nodes v).role = .follower) (hnode : a.node = v)
    (hstand : a.stands? = none) (hstep : c.step cfg a = some c') {r : Cluster ι}
    (hr : ((c.overlay lost).step cfg a).getD (c.overlay lost) = r) :
    c'.Idle v ∧
      (c'.election = r.election ∧ c'.heartbeat = r.heartbeat ∧ c'.proposals = r.proposals) ∧
      (c'.nodes v).role = .follower ∧ (r.nodes v).role = .follower ∧
      ∀ u, u ≠ v → c'.nodes u = c.nodes u ∧ r.nodes u = (c.overlay lost).nodes u := by
  rcases h.step_cases hrole hnode hstand hstep with
    hrefuses | ⟨rfl, hth, rfl⟩ | rfl | ⟨i, e, rfl, hth, rfl⟩
  · have hrefuses' : (c.overlay lost).Refuses v a := by
      cases hrefuses with
      | heartbeatTick hth => exact .heartbeatTick hth
      | proposePut key value => exact .proposePut key value
      | proposeDel key => exact .proposeDel key
    rw [hrefuses.step hrole] at hstep
    rw [hrefuses'.step hrole'] at hr
    obtain rfl := Option.some.inj hstep
    subst hr
    exact ⟨h, ⟨rfl, rfl, rfl⟩, hrole, hrole', fun u _ => ⟨rfl, rfl⟩⟩
  · simp only [step, election_overlay, hth, hrole', reduceCtorEq, if_false, Option.getD_some] at hr
    subst hr
    exact ⟨⟨Or.inr (Function.update_self _ _ _), h.heartbeat, h.proposals⟩, ⟨rfl, rfl, rfl⟩,
      hrole, hrole', fun u _ => ⟨rfl, rfl⟩⟩
  · exact h.applyTake_overlay hrole hrole' hstep hr
  · simp only [step, apply_overlay, hth, Option.getD_some] at hr
    subst hr
    exact ⟨⟨h.election, h.heartbeat, h.proposals⟩, ⟨rfl, rfl, rfl⟩, hrole, hrole',
      fun u _ => ⟨rfl, rfl⟩⟩

end Cluster

/-! ## Nodes that came back -/

theorem RaftNode.onRequestVote_follower {n : RaftNode ι} (h : n.role = .follower)
    (req : RequestVoteReq ι) : (n.onRequestVote req).2.role = .follower := by
  unfold RaftNode.onRequestVote
  by_cases hlt : req.term < n.currentTerm
  · rwa [if_pos hlt]
  rw [if_neg hlt]
  have hrole : (if n.currentTerm < req.term then n.becomeFollowerLocked req.term none
      else n).role = .follower := by
    split_ifs
    · rfl
    · exact h
  generalize (if n.currentTerm < req.term then _ else n : RaftNode ι) = n₁ at hrole ⊢
  simp only
  split_ifs <;> exact hrole

omit [DecidableEq ι] in
theorem RaftNode.onAppendEntries_follower {n : RaftNode ι} (h : n.role = .follower)
    (req : AppendEntriesReq ι) : (n.onAppendEntries req).2.role = .follower := by
  by_cases hlt : req.term < n.currentTerm
  · rw [RaftNode.onAppendEntries_of_lt hlt]
    exact h
  · exact (RaftNode.onAppendEntries_appended (Nat.not_lt.mp hlt)).role

namespace Cluster

variable {c c' : Cluster ι} {cfg : Config ι} {a : Action ι} {v : ι}

theorem Idle.of_step (h : c.Idle v) (hstep : c.step cfg a = some c') (hv : v ≠ a.node) :
    c'.Idle v := by
  obtain ⟨⟨he, hh, hp⟩, -⟩ := step_of_ne hstep hv
  exact ⟨he ▸ h.election, hh ▸ h.heartbeat, hp ▸ h.proposals⟩

theorem follower_of_step (h : (c.nodes v).role = .follower) (hstep : c.step cfg a = some c')
    (hv : v ≠ a.node) : (c'.nodes v).role = .follower := by
  rcases (step_of_ne hstep hv).2 with hn | ⟨req, -, hn⟩ | ⟨req, -, hn⟩
  · rw [hn, h]
  · rw [hn]
    exact RaftNode.onRequestVote_follower h req
  · rw [hn]
    exact RaftNode.onAppendEntries_follower h req

end Cluster

namespace Deployment

variable {d d' : Deployment ι} {cfg : Config ι} {a : Action ι}

/-- Nodes that came back and have not caught up are followers that wait for nothing. -/
def Quiet (d : Deployment ι) : Prop :=
  ∀ v m, d.lost v = some m →
    d.cluster.Idle v ∧ (d.cluster.nodes v).role = .follower ∧ m.role = .follower

omit [DecidableEq ι] in
theorem remembered_of_some {v : ι} {m : RaftNode ι} (h : d.lost v = some m) :
    d.remembered.nodes v = m := by
  simp [remembered, Cluster.overlay, h]

omit [DecidableEq ι] in
theorem remembered_of_none {v : ι} (h : d.lost v = none) :
    d.remembered.nodes v = d.cluster.nodes v :=
  Cluster.overlay_of_none h

omit [DecidableEq ι] in
theorem Quiet.role (h : d.Quiet) (v : ι) :
    (d.cluster.nodes v).role = (d.remembered.nodes v).role := by
  cases hlost : d.lost v with
  | none => rw [remembered_of_none hlost]
  | some m =>
    obtain ⟨-, hrole, hm⟩ := h v m hlost
    rw [remembered_of_some hlost, hrole, hm]

omit [DecidableEq ι] in
/-- A node that leads has caught up. -/
theorem Quiet.lost_eq_none (h : d.Quiet) {v : ι} (hrole : (d.cluster.nodes v).role ≠ .follower) :
    d.lost v = none := by
  by_contra hsome
  obtain ⟨m, hm⟩ := Option.ne_none_iff_exists'.mp hsome
  exact hrole (h v m hm).2.1

/-- The deployment once its cluster is `c` and the one that forgot nothing would be `r`. -/
def advance (d : Deployment ι) (c r : Cluster ι) : Deployment ι :=
  { d with cluster := c, lost := fun v => (d.lost v).bind fun _ => (r.nodes v).ahead (c.nodes v) }

/-- The replies aside, `r` is what the cluster would be had nobody forgotten anything. -/
theorem covers_advance {c r : Cluster ι}
    (hnone : ∀ v, d.lost v = none → c.nodes v = r.nodes v)
    (hrole : ∀ v m, d.lost v = some m → (c.nodes v).role = (r.nodes v).role)
    (helection : ∀ v, (r.election v).Covers (c.election v))
    (hheartbeat : ∀ v, (r.heartbeat v).Covers (c.heartbeat v))
    (hproposal : ∀ v, ∀ pr' ∈ c.proposals v, ∃ pr ∈ r.proposals v, pr'.entry = pr.entry ∧
      pr'.index = pr.index ∧ pr.phase.Covers pr'.phase) :
    r.Covers (d.advance c r).remembered := by
  refine ⟨fun v => ?_, helection, hheartbeat, hproposal⟩
  cases hlost : d.lost v with
  | none =>
    have hnode : (d.advance c r).remembered.nodes v = c.nodes v :=
      remembered_of_none (by simp [advance, hlost])
    rw [hnode, hnone v hlost]
    exact ⟨⟨rfl, rfl, rfl⟩, rfl⟩
  | some m =>
    by_cases hcaught : (r.nodes v).CaughtUp (c.nodes v)
    · have hnode : (d.advance c r).remembered.nodes v = c.nodes v :=
        remembered_of_none (by simp [advance, hlost, RaftNode.ahead, hcaught])
      rw [hnode]
      exact ⟨hcaught, hrole v m hlost⟩
    · have hnode : (d.advance c r).remembered.nodes v = r.nodes v :=
        remembered_of_some (by simp [advance, hlost, RaftNode.ahead, hcaught])
      rw [hnode]
      exact ⟨⟨rfl, rfl, rfl⟩, rfl⟩

theorem lost_advance {c r : Cluster ι} {v : ι} {m : RaftNode ι}
    (h : (d.advance c r).lost v = some m) :
    r.nodes v = m ∧ ¬ m.CaughtUp (c.nodes v) ∧ ∃ m₀, d.lost v = some m₀ := by
  obtain ⟨m₀, hm₀, hahead⟩ := Option.bind_eq_some_iff.mp h
  unfold RaftNode.ahead at hahead
  split_ifs at hahead with hcaught
  obtain rfl := Option.some.inj hahead
  exact ⟨rfl, hcaught, m₀, hm₀⟩

omit [DecidableEq ι] in
theorem ne_of_lost {u v : ι} {m : RaftNode ι} (hv : d.lost v = none) (hu : d.lost u = some m) :
    v ≠ u := by
  rintro rfl
  rw [hv] at hu
  simp at hu

/-- An action of another node leaves a quiet one quiet. -/
theorem Quiet.stays (hq : d.Quiet) {c r : Cluster ι} (hstep : d.cluster.step cfg a = some c)
    (hr : (d.remembered.step cfg a).getD d.remembered = r) {v : ι} {m : RaftNode ι}
    (hlost : d.lost v = some m) (hv : v ≠ a.node) :
    c.Idle v ∧ (c.nodes v).role = .follower ∧ (r.nodes v).role = .follower := by
  obtain ⟨hidle, hrole, hmrole⟩ := hq v m hlost
  have hremembered : (d.remembered.nodes v).role = .follower := by
    rwa [remembered_of_some hlost]
  refine ⟨hidle.of_step hstep hv, Cluster.follower_of_step hrole hstep hv, ?_⟩
  cases hopt : d.remembered.step cfg a with
  | none =>
    rw [hopt] at hr
    subst hr
    exact hremembered
  | some r' =>
    rw [hopt] at hr
    subst hr
    exact Cluster.follower_of_step hremembered hopt hv

theorem Quiet.role_eq (hq : d.Quiet) {c r : Cluster ι} {p : ι} {m : RaftNode ι}
    (hnode : d.lost a.node = none) (hlost : d.lost p = some m)
    (hstep : d.cluster.step cfg a = some c)
    (hr : (d.remembered.step cfg a).getD d.remembered = r) :
    (c.nodes p).role = (r.nodes p).role := by
  obtain ⟨-, hcrole, hrrole⟩ := hq.stays hstep hr hlost (ne_of_lost hnode hlost).symm
  rw [hcrole, hrrole]

/-- An action of a node that has caught up leaves the others quiet. -/
theorem Quiet.advance (hq : d.Quiet) {c r : Cluster ι} (hnode : d.lost a.node = none)
    (hstep : d.cluster.step cfg a = some c)
    (hr : (d.remembered.step cfg a).getD d.remembered = r) : (d.advance c r).Quiet := by
  intro v m hlost
  obtain ⟨rfl, -, m₀, hm₀⟩ := lost_advance hlost
  exact hq.stays hstep hr hm₀ (ne_of_lost hnode hm₀).symm

/-- An action that changes one node that came back, and otherwise only what the threads
know. -/
theorem Quiet.covers_of_others (hq : d.Quiet) {c r : Cluster ι} {p : ι} {m : RaftNode ι}
    (hlost : d.lost p = some m)
    (hothers : ∀ v, v ≠ p → c.nodes v = d.cluster.nodes v ∧ r.nodes v = d.remembered.nodes v)
    (hrole : (c.nodes p).role = (r.nodes p).role)
    (helection : ∀ v, (r.election v).Covers (c.election v))
    (hheartbeat : ∀ v, (r.heartbeat v).Covers (c.heartbeat v))
    (hproposal : ∀ v, ∀ pr' ∈ c.proposals v, ∃ pr ∈ r.proposals v, pr'.entry = pr.entry ∧
      pr'.index = pr.index ∧ pr.phase.Covers pr'.phase) :
    r.Covers (d.advance c r).remembered := by
  refine covers_advance (fun v hv => ?_) (fun v m' hm' => ?_) helection hheartbeat hproposal
  · obtain ⟨hcv, hrv⟩ := hothers v (ne_of_lost hv hlost)
    rw [hcv, hrv, remembered_of_none hv]
  · by_cases hv : v = p
    · subst hv
      exact hrole
    · obtain ⟨hcv, hrv⟩ := hothers v hv
      rw [hcv, hrv, hq.role v]

/-- An action of a node that has caught up, with requests to such nodes. -/
theorem Quiet.covers_of_none (hq : d.Quiet) {c r : Cluster ι} (hnode : d.lost a.node = none)
    (hasks : ∀ q ∈ d.cluster.asks? a, d.lost q.1 = none)
    (hdelivers : ∀ q ∈ d.cluster.delivers? a, d.lost q.1 = none)
    (hstep : d.cluster.step cfg a = some c)
    (hr : (d.remembered.step cfg a).getD d.remembered = r) :
    r.Covers (d.advance c r).remembered := by
  have hoverlay : d.remembered.step cfg a = some (c.overlay d.lost) := by
    rw [remembered, Cluster.step_overlay hnode hasks hdelivers, hstep]
    rfl
  rw [hoverlay] at hr
  obtain rfl : c.overlay d.lost = r := hr
  refine covers_advance (fun v hv => (Cluster.overlay_of_none hv).symm) (fun v m hm => ?_)
    (fun v => .refl _) (fun v => .refl _) (fun v pr hpr => ⟨pr, hpr, rfl, rfl, .refl _⟩)
  obtain ⟨-, hrole, hmrole⟩ := hq v m hm
  rw [Cluster.follower_of_step hrole hstep (ne_of_lost hnode hm).symm]
  simp [Cluster.overlay, hm, hmrole]

/-- A node stands with its term and log. -/
theorem startElection_congr {n m : RaftNode ι} (hterm : n.currentTerm = m.currentTerm)
    (hlog : n.log = m.log) (id : ι) (peers : List ι) :
    (m.startElection id peers).1.CaughtUp (n.startElection id peers).1 ∧
      (n.startElection id peers).1.role = (m.startElection id peers).1.role ∧
      (n.startElection id peers).2 = (m.startElection id peers).2 := by
  simp only [RaftNode.startElection, RaftNode.becomeCandidateLocked, RaftNode.CaughtUp,
    RaftNode.lastLogIndexLocked, RaftNode.lastLogTermLocked, hterm, hlog, and_self]

/-- A node that came back stands as it would have. -/
theorem Quiet.covers_of_stands (hq : d.Quiet) {c r : Cluster ι} {u : ι} {m : RaftNode ι}
    (hlost : d.lost u = some m) (hP : AsRemembered d (.act (.startElection u)))
    (hstep : d.cluster.step cfg (.startElection u) = some c)
    (hr : (d.remembered.step cfg (.startElection u)).getD d.remembered = r) :
    (d.advance c r).Quiet ∧ r.Covers (d.advance c r).remembered := by
  obtain ⟨hterm, hlog⟩ := hP.1 u rfl
  obtain ⟨hcaught, hrole, hthread⟩ := startElection_congr hterm hlog u (cfg.peers u)
  have htimed : d.cluster.election u = .timedOut := by
    rcases (hq u m hlost).1.election with he | he
    · simp [Cluster.step, he] at hstep
    · exact he
  have hremembered : d.remembered.election u = .timedOut := htimed
  have hstand := hstep
  have hremembers := hr
  simp only [Cluster.step, htimed, Option.some.injEq] at hstep
  simp only [Cluster.step, hremembered, Option.getD_some] at hr
  have hcu : c.nodes u = ((d.cluster.nodes u).startElection u (cfg.peers u)).1 := by
    rw [← hstep]
    exact Function.update_self _ _ _
  have hru : r.nodes u = ((d.remembered.nodes u).startElection u (cfg.peers u)).1 := by
    rw [← hr]
    exact Function.update_self _ _ _
  have hothers : ∀ v, v ≠ u → c.nodes v = d.cluster.nodes v ∧ r.nodes v = d.remembered.nodes v := by
    intro v hv
    rw [← hstep, ← hr]
    exact ⟨Function.update_of_ne hv _ _, Function.update_of_ne hv _ _⟩
  have helection : c.election = r.election := by
    rw [← hstep, ← hr]
    show Function.update _ _ _ = Function.update _ _ _
    rw [hthread]
    rfl
  have hrest : c.heartbeat = r.heartbeat ∧ c.proposals = r.proposals := by
    rw [← hstep, ← hr]
    exact ⟨rfl, rfl⟩
  refine ⟨fun v m' hm' => ?_, hq.covers_of_others hlost hothers (by rw [hcu, hru, hrole])
    (fun v => helection ▸ .refl _) (fun v => hrest.1 ▸ .refl _)
    (fun v pr hpr => ⟨pr, hrest.2 ▸ hpr, rfl, rfl, .refl _⟩)⟩
  obtain ⟨rfl, hnot, m₀, hm₀⟩ := lost_advance hm'
  have hv : v ≠ u := by
    rintro rfl
    rw [hcu, hru] at hnot
    exact hnot hcaught
  exact hq.stays hstand hremembers hm₀ hv

/-- A node that came back does nothing else by itself. -/
theorem Quiet.covers_of_idle (hq : d.Quiet) {c r : Cluster ι} {m : RaftNode ι}
    (hlost : d.lost a.node = some m) (hstand : a.stands? = none)
    (hstep : d.cluster.step cfg a = some c)
    (hr : (d.remembered.step cfg a).getD d.remembered = r) :
    (d.advance c r).Quiet ∧ r.Covers (d.advance c r).remembered := by
  obtain ⟨hidle, hrole, hmrole⟩ := hq _ m hlost
  have hrole' : (d.remembered.nodes a.node).role = .follower := by rwa [remembered_of_some hlost]
  obtain ⟨hidle', ⟨he, hh, hp⟩, hcrole, hrrole, hothers⟩ :=
    hidle.step_overlay hrole hrole' rfl hstand hstep hr
  refine ⟨fun v m' hm' => ?_, hq.covers_of_others hlost hothers (by rw [hcrole, hrrole])
    (fun v => he ▸ .refl _) (fun v => hh ▸ .refl _)
    (fun v pr hpr => ⟨pr, hp ▸ hpr, rfl, rfl, .refl _⟩)⟩
  obtain ⟨rfl, -, m₀, hm₀⟩ := lost_advance hm'
  by_cases hv : v = a.node
  · subst hv
    exact ⟨hidle', hcrole, hrrole⟩
  · exact hq.stays hstep hr hm₀ hv

/-- A vote request reaches a node that came back. -/
theorem Quiet.covers_of_asks (hq : d.Quiet) {c r : Cluster ι} {p : ι} {req : RequestVoteReq ι}
    {m : RaftNode ι} (hnode : d.lost a.node = none) (hlost : d.lost p = some m)
    (hasks : d.cluster.asks? a = some (p, req)) (hP : AsRemembered d (.act a))
    (hstep : d.cluster.step cfg a = some c)
    (hr : (d.remembered.step cfg a).getD d.remembered = r) :
    r.Covers (d.advance c r).remembered := by
  have hrole := hq.role_eq hnode hlost hstep hr
  cases a with
  | deliverVote u =>
    simp only [Cluster.asks?] at hasks
    split at hasks
    · rename_i req' votes p' rest hth
      obtain ⟨rfl, rfl⟩ := Prod.mk.inj (Option.some.inj hasks)
      have hgranted := hP.2.1 (p', req') (by simp [Cluster.asks?, hth])
      have hremembered : d.remembered.election u = .calling req' votes p' rest none := hth
      simp only [Cluster.step, hth, Option.some.injEq] at hstep
      simp only [Cluster.step, hremembered, Option.getD_some] at hr
      subst hstep hr
      refine hq.covers_of_others hlost (fun v hv => ⟨Function.update_of_ne hv _ _,
        Function.update_of_ne hv _ _⟩) hrole (fun v => ?_) (fun v => .refl _)
        (fun v pr hpr => ⟨pr, hpr, rfl, rfl, .refl _⟩)
      by_cases hv : v = u
      · subst hv
        simp only [Cluster.setElection, Function.update_self]
        exact .reply hgranted
      · simp only [Cluster.setElection, Function.update_of_ne hv]
        exact .refl _
    · simp at hasks
  | _ => simp [Cluster.asks?] at hasks

/-- The proposals once the reply to one of them is known. -/
theorem setPhase_covers {c r : Cluster ι} {u : ι} {i : ℕ} {ph ph' : ProposalPhase ι}
    (hph : ph'.Covers ph) (hsame : c.proposals = r.proposals) (v : ι) :
    ∀ pr' ∈ (c.setPhase u i ph).proposals v, ∃ pr ∈ (r.setPhase u i ph').proposals v,
      pr'.entry = pr.entry ∧ pr'.index = pr.index ∧ pr.phase.Covers pr'.phase := by
  intro pr' hpr'
  by_cases hv : v = u
  · subst hv
    simp only [Cluster.setPhase, Function.update_self, hsame] at hpr' ⊢
    obtain ⟨j, hj⟩ := List.getElem?_of_mem hpr'
    rw [List.getElem?_modify, Option.map_eq_map, Option.map_eq_some_iff] at hj
    obtain ⟨pr, hpr, rfl⟩ := hj
    have hmem : ((r.proposals v).modify i fun pr => { pr with phase := ph' })[j]? =
        some (if i = j then { pr with phase := ph' } else pr) := by
      rw [List.getElem?_modify, hpr]
      rfl
    refine ⟨_, List.mem_of_getElem? hmem, ?_⟩
    split_ifs
    · exact ⟨rfl, rfl, hph⟩
    · exact ⟨rfl, rfl, .refl _⟩
  · simp only [Cluster.setPhase, Function.update_of_ne hv, hsame] at hpr' ⊢
    exact ⟨pr', hpr', rfl, rfl, .refl _⟩

/-- An append request reaches a node that came back. -/
theorem Quiet.covers_of_delivers (hq : d.Quiet) {c r : Cluster ι} {p : ι}
    {req : AppendEntriesReq ι} {m : RaftNode ι} (hnode : d.lost a.node = none)
    (hlost : d.lost p = some m) (hdelivers : d.cluster.delivers? a = some (p, req))
    (hP : AsRemembered d (.act a)) (hstep : d.cluster.step cfg a = some c)
    (hr : (d.remembered.step cfg a).getD d.remembered = r) :
    r.Covers (d.advance c r).remembered := by
  have hrole := hq.role_eq hnode hlost hstep hr
  have hsuccess := hP.2.2 (p, req) hdelivers
  cases a with
  | deliverHeartbeat u =>
    simp only [Cluster.delivers?] at hdelivers
    split at hdelivers
    · rename_i req' p' rest hth
      obtain ⟨rfl, rfl⟩ := Prod.mk.inj (Option.some.inj hdelivers)
      have hremembered : d.remembered.heartbeat u = .calling req' p' rest none := hth
      simp only [Cluster.step, hth, Option.some.injEq] at hstep
      simp only [Cluster.step, hremembered, Option.getD_some] at hr
      subst hstep hr
      refine hq.covers_of_others hlost (fun v hv => ⟨Function.update_of_ne hv _ _,
        Function.update_of_ne hv _ _⟩) hrole (fun v => .refl _) (fun v => ?_)
        (fun v pr hpr => ⟨pr, hpr, rfl, rfl, .refl _⟩)
      by_cases hv : v = u
      · subst hv
        simp only [Cluster.setHeartbeat, Function.update_self]
        exact .reply hsuccess
      · simp only [Cluster.setHeartbeat, Function.update_of_ne hv]
        exact .refl _
    · simp at hdelivers
  | deliverProposal u i =>
    simp only [Cluster.delivers?] at hdelivers
    split at hdelivers
    · rename_i req' acks p' rest hph
      obtain ⟨rfl, rfl⟩ := Prod.mk.inj (Option.some.inj hdelivers)
      have hremembered : d.remembered.phase? u i = some (.replicating req' acks p' rest none) := hph
      simp only [Cluster.step, hph, Option.some.injEq] at hstep
      simp only [Cluster.step, hremembered, Option.getD_some] at hr
      subst hstep hr
      exact hq.covers_of_others hlost (fun v hv => ⟨Function.update_of_ne hv _ _,
        Function.update_of_ne hv _ _⟩) hrole (fun v => .refl _) (fun v => .refl _)
        (setPhase_covers (.reply hsuccess) rfl)
    · simp at hdelivers
  | deliverNotify u i =>
    simp only [Cluster.delivers?] at hdelivers
    split at hdelivers
    · rename_i req' p' rest hph
      obtain ⟨rfl, rfl⟩ := Prod.mk.inj (Option.some.inj hdelivers)
      have hremembered : d.remembered.phase? u i = some (.notifying req' p' rest none) := hph
      simp only [Cluster.step, hph, Option.some.injEq] at hstep
      simp only [Cluster.step, hremembered, Option.getD_some] at hr
      subst hstep hr
      exact hq.covers_of_others hlost (fun v hv => ⟨Function.update_of_ne hv _ _,
        Function.update_of_ne hv _ _⟩) hrole (fun v => .refl _) (fun v => .refl _)
        (setPhase_covers (.notified _ _ _ _ _) rfl)
    · simp at hdelivers
  | _ => simp [Cluster.delivers?] at hdelivers

end Deployment
/-! ## One move -/

/-- What a move is to the cluster that forgot nothing: an action, or nothing; a node that
comes back follows. -/
inductive Moved (cfg : Config ι) (c : Cluster ι) : Move ι → Cluster ι → Prop where
  | act {a : Action ι} {c' : Cluster ι} (h : c.step cfg a = some c') : Moved cfg c (.act a) c'
  | still (x : Move ι) : Moved cfg c x c
  | restart (v : ι) :
    Moved cfg c (.restart v) (c.setNode v { c.nodes v with role := .follower })

namespace Deployment

variable {d d' : Deployment ι} {cfg : Config ι} {a : Action ι}

/-- An action of the deployment is one of the cluster that forgot nothing, up to refused
replies. -/
theorem act_covered (hq : d.Quiet) (hP : AsRemembered d (.act a)) {c r : Cluster ι}
    (hstep : d.cluster.step cfg a = some c)
    (hr : (d.remembered.step cfg a).getD d.remembered = r) :
    (d.advance c r).Quiet ∧ r.Covers (d.advance c r).remembered := by
  cases hnode : d.lost a.node with
  | some m =>
    cases hstand : a.stands? with
    | none => exact hq.covers_of_idle hnode hstand hstep hr
    | some u =>
      cases a with
      | startElection u => exact hq.covers_of_stands hnode hP hstep hr
      | _ => simp [Action.stands?] at hstand
  | none =>
    refine ⟨hq.advance hnode hstep hr, ?_⟩
    by_cases hasks : ∀ q ∈ d.cluster.asks? a, d.lost q.1 = none
    · by_cases hdelivers : ∀ q ∈ d.cluster.delivers? a, d.lost q.1 = none
      · exact hq.covers_of_none hnode hasks hdelivers hstep hr
      · push Not at hdelivers
        obtain ⟨⟨p, req⟩, hreq, hp⟩ := hdelivers
        obtain ⟨m, hm⟩ := Option.ne_none_iff_exists'.mp hp
        exact hq.covers_of_delivers hnode hm hreq hP hstep hr
    · push Not at hasks
      obtain ⟨⟨p, req⟩, hreq, hp⟩ := hasks
      obtain ⟨m, hm⟩ := Option.ne_none_iff_exists'.mp hp
      exact hq.covers_of_asks hnode hm hreq hP hstep hr

/-- A node comes back. -/
theorem restart_covered (hq : d.Quiet) (v : ι) :
    let m := { d.remembered.nodes v with role := .follower }
    let d' : Deployment ι := ⟨d.cluster.recreate v, d.down.erase v,
      Function.update d.lost v (m.ahead {})⟩
    d'.Quiet ∧ (d.remembered.setNode v m).Covers d'.remembered := by
  intro m d'
  have hlost : ∀ u, u ≠ v → d'.lost u = d.lost u := fun u hu => Function.update_of_ne hu _ _
  have hself : d'.lost v = m.ahead {} := Function.update_self _ _ _
  refine ⟨fun u m' hm' => ?_, fun u => ?_, fun u => ?_, fun u => ?_, fun u pr hpr => ?_⟩
  · by_cases hu : u = v
    · subst hu
      rw [hself, RaftNode.ahead] at hm'
      split_ifs at hm' with hcaught
      obtain rfl := Option.some.inj hm'
      refine ⟨⟨Or.inl (Function.update_self _ _ _), Function.update_self _ _ _, fun pr hpr => ?_⟩,
        ?_, rfl⟩
      · simp only [d', Cluster.recreate, Function.update_self, List.mem_filter] at hpr
        obtain ⟨-, hret⟩ := hpr
        unfold Proposal.hasReturned at hret
        split at hret
        · rename_i ok hph
          exact ⟨ok, hph⟩
        · simp at hret
      · simp only [d', Cluster.recreate, Function.update_self]
    · rw [hlost u hu] at hm'
      obtain ⟨hidle, hrole, hmrole⟩ := hq u m' hm'
      refine ⟨⟨?_, ?_, ?_⟩, ?_, hmrole⟩
      · simpa only [d', Cluster.recreate, Function.update_of_ne hu] using hidle.election
      · simpa only [d', Cluster.recreate, Function.update_of_ne hu] using hidle.heartbeat
      · simpa only [d', Cluster.recreate, Function.update_of_ne hu] using hidle.proposals
      · simpa only [d', Cluster.recreate, Function.update_of_ne hu] using hrole
  · by_cases hu : u = v
    · subst hu
      have hset : (d.remembered.setNode u m).nodes u = m := Function.update_self _ _ _
      have hnew : d'.cluster.nodes u = {} := Function.update_self _ _ _
      rw [hset]
      by_cases hcaught : m.CaughtUp {}
      · rw [remembered_of_none (by rw [hself, RaftNode.ahead, if_pos hcaught]), hnew]
        exact ⟨hcaught, rfl⟩
      · rw [remembered_of_some (by rw [hself, RaftNode.ahead, if_neg hcaught])]
        exact ⟨⟨rfl, rfl, rfl⟩, rfl⟩
    · have hset : (d.remembered.setNode v m).nodes u = d.remembered.nodes u :=
        Function.update_of_ne hu _ _
      have hsame : d'.remembered.nodes u = d.remembered.nodes u := by
        show (d'.lost u).getD (d'.cluster.nodes u) = (d.lost u).getD (d.cluster.nodes u)
        rw [hlost u hu]
        congr 1
        exact Function.update_of_ne hu _ _
      rw [hset, hsame]
      exact ⟨⟨rfl, rfl, rfl⟩, rfl⟩
  · by_cases hu : u = v
    · subst hu
      rw [show d'.remembered.election u = .sleeping from Function.update_self _ _ _]
      exact .idle _
    · rw [show d'.remembered.election u = d.cluster.election u from Function.update_of_ne hu _ _]
      exact .refl _
  · by_cases hu : u = v
    · subst hu
      rw [show d'.remembered.heartbeat u = .sleeping from Function.update_self _ _ _]
      exact .idle _
    · rw [show d'.remembered.heartbeat u = d.cluster.heartbeat u from Function.update_of_ne hu _ _]
      exact .refl _
  · refine ⟨pr, ?_, rfl, rfl, .refl _⟩
    by_cases hu : u = v
    · subst hu
      rw [show d'.remembered.proposals u = (d.cluster.proposals u).filter Proposal.hasReturned
        from Function.update_self _ _ _] at hpr
      exact (List.mem_filter.mp hpr).1
    · rwa [show d'.remembered.proposals u = d.cluster.proposals u from
        Function.update_of_ne hu _ _] at hpr

variable [Fintype ι]

/-- Every move is one of the cluster that forgot nothing, up to refused replies. -/
theorem Quiet.step (hq : d.Quiet) {x : Move ι} (hP : AsRemembered d x)
    (hstep : d.step cfg x = some d') :
    d'.Quiet ∧ ∃ r, Moved cfg d.remembered x r ∧ r.Covers d'.remembered := by
  cases x with
  | act a =>
    simp only [Deployment.step] at hstep
    split_ifs at hstep
    split at hstep
    · simp at hstep
    · rename_i c hc
      obtain rfl := Option.some.inj hstep
      obtain ⟨hquiet, hcov⟩ := act_covered hq hP hc rfl
      refine ⟨hquiet, _, ?_, hcov⟩
      cases hopt : d.remembered.step cfg a with
      | none => exact .still _
      | some r => exact .act hopt
  | stop v =>
    simp only [Deployment.step] at hstep
    split_ifs at hstep
    obtain rfl := Option.some.inj hstep
    exact ⟨hq, _, .still _, fun v => ⟨⟨rfl, rfl, rfl⟩, rfl⟩, fun v => .refl _, fun v => .refl _,
      fun v pr hpr => ⟨pr, hpr, rfl, rfl, .refl _⟩⟩
  | restart v =>
    simp only [Deployment.step] at hstep
    split_ifs at hstep
    obtain rfl := Option.some.inj hstep
    obtain ⟨hquiet, hcov⟩ := restart_covered hq v
    exact ⟨hquiet, _, .restart v, hcov⟩

end Deployment

end KvEngine
