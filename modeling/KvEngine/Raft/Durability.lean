import KvEngine.Raft.Orderly

/-!
# Acknowledged writes

A proposal that returned true has its entry stored by a majority, at its index or, for
equal entries of one leader, behind it: `Proposal.Backed` follows it from the critical
section that reads the request to the return. In a careful run no later leader misses
the entry.

Results:
* `Cluster.proposals_step`: how an action moves proposals on.
* `leader_has_acknowledged`: in every careful run an acknowledged write is in the log of
  every leader of a later term.
* `not_leader_has_acknowledged`: a heartbeat that arrives late truncates an acknowledged
  entry, and a leader is elected without it.
-/

namespace KvEngine

open Consensus

variable {ι : Type} [DecidableEq ι]

/-! ## How proposals move on -/

/-- One step of a proposal on `v`: it reads its request, gets a reply or none, handles
it, and so on with its heartbeat. -/
inductive ProposalStep (cfg : Config ι) (c : Cluster ι) (v : ι) (pr : Proposal ι) :
    Action ι → ProposalPhase ι → Prop where
  | read {i : ℕ} (hpr : (c.proposals v)[i]? = some pr) :
    ProposalStep cfg c v pr (.proposalRead v i) (RaftNode.replicate (cfg.peers v)
      ((c.nodes v).proposalRequest v pr.entry) 1 (cfg.peers v))
  | answered {a : Action ι} {req : AppendEntriesReq ι} {acks : ℕ} {p : ι} {rest : List ι}
      {reply reply' : Option AppendEntriesResp}
      (hph : pr.phase = .replicating req acks p rest reply) :
    ProposalStep cfg c v pr a (.replicating req acks p rest reply')
  | reply {a : Action ι} {req : AppendEntriesReq ι} {acks : ℕ} {p : ι} {rest : List ι}
      {resp : AppendEntriesResp} (hph : pr.phase = .replicating req acks p rest (some resp)) :
    ProposalStep cfg c v pr a ((c.nodes v).proposalReply (cfg.peers v) req acks rest resp).2
  | commit {i : ℕ} (hph : pr.phase = .committing) :
    ProposalStep cfg c v pr (.proposalCommit v i)
      (RaftNode.notify ((c.nodes v).proposalHeartbeat v) (cfg.peers v))
  | notified {a : Action ι} {req : AppendEntriesReq ι} {p : ι} {rest : List ι}
      {reply reply' : Option AppendEntriesResp} (hph : pr.phase = .notifying req p rest reply) :
    ProposalStep cfg c v pr a (.notifying req p rest reply')
  | notifyReply {a : Action ι} {req : AppendEntriesReq ι} {p : ι} {rest : List ι}
      {resp : AppendEntriesResp} (hph : pr.phase = .notifying req p rest (some resp)) :
    ProposalStep cfg c v pr a ((c.nodes v).notifyReply req rest resp).2

namespace Cluster

variable {c c' : Cluster ι}

omit [DecidableEq ι] in
theorem phase?_eq {v : ι} {i : ℕ} {pr : Proposal ι} {ph : ProposalPhase ι}
    (hpr : (c.proposals v)[i]? = some pr) (hph : c.phase? v i = some ph) : pr.phase = ph := by
  rw [phase?, hpr] at hph
  exact Option.some.inj hph

/-- The proposals after one of them moved on. -/
theorem mem_setPhase {v u : ι} {i : ℕ} {ph : ProposalPhase ι} {pr : Proposal ι}
    (h : pr ∈ (c.setPhase v i ph).proposals u) :
    pr ∈ c.proposals u ∨
      u = v ∧ ∃ pr₀, (c.proposals v)[i]? = some pr₀ ∧ pr = { pr₀ with phase := ph } := by
  by_cases hu : u = v
  · subst hu
    simp only [setPhase, Function.update_self] at h
    obtain ⟨j, hj⟩ := List.getElem?_of_mem h
    rw [List.getElem?_modify, Option.map_eq_map, Option.map_eq_some_iff] at hj
    obtain ⟨pr₀, hpr₀, rfl⟩ := hj
    split_ifs with hij
    · subst hij
      exact Or.inr ⟨rfl, pr₀, hpr₀, rfl⟩
    · exact Or.inl (List.mem_of_getElem? hpr₀)
  · simp only [setPhase, Function.update_of_ne hu] at h
    exact Or.inl h

/-- How an action moves proposals on. -/
theorem proposals_step {cfg : Config ι} {a : Action ι} (hstep : c.step cfg a = some c') {v : ι}
    {pr : Proposal ι} (hpr : pr ∈ c'.proposals v) :
    pr ∈ c.proposals v ∨ pr.phase = .appended ∨
      ∃ pr₀ ∈ c.proposals v, ∃ ph, ProposalStep cfg c v pr₀ a ph ∧
        pr = { pr₀ with phase := ph } := by
  -- the proposals of a node one of whose proposals takes the step
  have hmoved : ∀ {u : ι} {i : ℕ} {ph : ProposalPhase ι} {d : Cluster ι},
      d.proposals = c.proposals → pr ∈ (d.setPhase u i ph).proposals v →
      (∀ pr₀, (c.proposals u)[i]? = some pr₀ → ProposalStep cfg c u pr₀ a ph) →
      pr ∈ c.proposals v ∨ pr.phase = .appended ∨
        ∃ pr₀ ∈ c.proposals v, ∃ ph, ProposalStep cfg c v pr₀ a ph ∧
          pr = { pr₀ with phase := ph } := by
    intro u i ph d hd hmem hnext
    rcases mem_setPhase hmem with hold | ⟨rfl, pr₀, hpr₀, rfl⟩
    · exact Or.inl (by rwa [← hd])
    · rw [hd] at hpr₀
      exact Or.inr (Or.inr ⟨pr₀, List.mem_of_getElem? hpr₀, ph, hnext pr₀ hpr₀, rfl⟩)
  have hnew : ∀ {u : ι} {op : OpType} {key value : Bytes},
      pr ∈ (c.propose u ((c.nodes u).propose op key value)).proposals v →
        pr ∈ c.proposals v ∨ pr.phase = .appended := by
    intro u op key value hmem
    unfold propose at hmem
    split_ifs at hmem
    · by_cases hv : v = u
      · subst hv
        simp only [Function.update_self, List.mem_append, List.mem_singleton] at hmem
        rcases hmem with hmem | rfl
        · exact Or.inl hmem
        · exact Or.inr rfl
      · simp only [Function.update_of_ne hv] at hmem
        exact Or.inl hmem
    · exact Or.inl hmem
  cases step_inv hstep with
  | proposePut => exact (hnew hpr).imp_right Or.inl
  | proposeDel => exact (hnew hpr).imp_right Or.inl
  | @proposalRead u i idx e hu =>
    refine hmoved rfl hpr fun pr₀ hpr₀ => ?_
    have hread : ProposalStep cfg c u pr₀ (.proposalRead u i) _ := .read hpr₀
    rw [hu] at hpr₀
    obtain rfl := Option.some.inj hpr₀
    exact hread
  | deliverProposal hph =>
    exact hmoved (d := c.setNode _ _) rfl hpr fun pr₀ hpr₀ => .answered (phase?_eq hpr₀ hph)
  | loseProposal hph => exact hmoved rfl hpr fun pr₀ hpr₀ => .answered (phase?_eq hpr₀ hph)
  | proposalReply hph =>
    exact hmoved (d := c.setNode _ _) rfl hpr fun pr₀ hpr₀ => .reply (phase?_eq hpr₀ hph)
  | proposalCommit hph => exact hmoved rfl hpr fun pr₀ hpr₀ => .commit (phase?_eq hpr₀ hph)
  | deliverNotify hph =>
    exact hmoved (d := c.setNode _ _) rfl hpr fun pr₀ hpr₀ => .notified (phase?_eq hpr₀ hph)
  | loseNotify hph => exact hmoved rfl hpr fun pr₀ hpr₀ => .notified (phase?_eq hpr₀ hph)
  | notifyReply hph =>
    exact hmoved (d := c.setNode _ _) rfl hpr fun pr₀ hpr₀ => .notifyReply (phase?_eq hpr₀ hph)
  | _ =>
    -- the other threads
    exact Or.inl hpr

end Cluster

/-! ## What the acknowledgements say -/

variable [Fintype ι] {c c' : Cluster ι} {w w' : World ι LogEntry}

/-- The request stores the log of the leader of `t` up to its last position, which is
not before `index` and holds an entry of that term. -/
structure Reaches (w : World ι LogEntry) (v : ι) (t index : ℕ) (req : AppendEntriesReq ι) :
    Prop where
  term : req.term = t
  index : index ≤ req.msg.last
  anchored : w.Anchored t req.msg.last
  self : req.msg.last ≤ w.stored v t

/-- A majority stored the log of the leader of `t` up to `index` or behind it. -/
def Acknowledged (w : World ι LogEntry) (t index : ℕ) : Prop :=
  ∃ n, index ≤ n ∧ w.Anchored t n ∧ ∃ Q : Finset ι, Majority Q ∧ ∀ u ∈ Q, n ≤ w.stored u t

/-- What stands behind a phase of a proposal of term `t` on `v`. -/
def ProposalPhase.Backed (w : World ι LogEntry) (v : ι) (t index : ℕ) : ProposalPhase ι → Prop
  | .appended => True
  | .replicating req _ _ _ _ => Reaches w v t index req
  | .committing => Acknowledged w t index
  | .notifying _ _ _ _ => Acknowledged w t index
  | .returned ok => ok = true → Acknowledged w t index

omit [DecidableEq ι] [Fintype ι] in
theorem Reaches.mono {v : ι} {t i : ℕ} {req : AppendEntriesReq ι} (h : Reaches w v t i req)
    (hext : w.Extends w') : Reaches w' v t i req :=
  ⟨h.term, h.index, (hext.anchored h.anchored.length.2.1).mpr h.anchored,
    h.self.trans (hext.stored _ _)⟩

omit [DecidableEq ι] in
theorem Acknowledged.mono {t i : ℕ} (h : Acknowledged w t i) (hext : w.Extends w') :
    Acknowledged w' t i := by
  obtain ⟨n, hindex, hanchored, Q, hQ, hstored⟩ := h
  exact ⟨n, hindex, (hext.anchored hanchored.length.2.1).mpr hanchored, Q, hQ,
    fun u hu => (hstored u hu).trans (hext.stored _ _)⟩

omit [DecidableEq ι] in
theorem ProposalPhase.Backed.mono {v : ι} {t i : ℕ} {ph : ProposalPhase ι}
    (h : ph.Backed w v t i) (hext : w.Extends w') : ph.Backed w' v t i := by
  cases ph with
  | appended => trivial
  | replicating req acks p rest reply => exact Reaches.mono h hext
  | committing => exact Acknowledged.mono h hext
  | notifying req p rest reply => exact Acknowledged.mono h hext
  | returned ok => exact fun hok => (h hok).mono hext

omit [DecidableEq ι] in
/-- The request of a proposal that reads in place. -/
theorem OrderlySim.reaches (h : OrderlySim c w) {v : ι} {pr : Proposal ι}
    (hpr : pr ∈ c.proposals v) (hrole : (c.nodes v).role = .leader)
    (hterm : (c.nodes v).currentTerm = pr.entry.term)
    (hlast : (c.nodes v).log.getLast? = some pr.entry) :
    Reaches w v pr.entry.term pr.index ((c.nodes v).proposalRequest v pr.entry) := by
  obtain ⟨-, hown, hself⟩ := h.leads hrole
  rw [hterm] at hown hself
  have hplaced := (h.sim.proposal v pr hpr).placed
  have hindex : pr.index - 1 < (c.nodes v).log.length := by
    rw [hown]
    exact (List.getElem?_eq_some_iff.mp hplaced).1
  have hpos := (h.sim.proposal v pr hpr).positive
  have hreq : ((c.nodes v).proposalRequest v pr.entry).msg.last = (c.nodes v).log.length := by
    have hprev : ((c.nodes v).proposalRequest v pr.entry).msg.prev =
        (c.nodes v).log.length - 1 :=
      if_neg (show ¬ (c.nodes v).log.length = 0 by omega)
    show _ + 1 = _
    omega
  refine ⟨hterm, by omega, ⟨pr.entry, ?_, rfl⟩, by omega⟩
  rw [World.pre, hreq, ← hown, List.take_length, ← List.getLast?_eq_getElem?, hlast]

/-- Enough acknowledgements. -/
theorem Reaches.acknowledged {v : ι} {t i : ℕ} {req : AppendEntriesReq ι}
    (h : Reaches w v t i req) (cfg : Config ι) {acks : ℕ} {rest : List ι}
    (htally : Tally (fun u => u = v ∨ req.msg.last ≤ w.stored u req.term) acks rest)
    (hneeded : RaftNode.needed (cfg.peers v) ≤ acks) : Acknowledged w t i := by
  obtain ⟨Q, hQ, hall⟩ := htally.majority cfg v hneeded
  refine ⟨req.msg.last, h.index, h.anchored, Q, hQ, fun u hu => ?_⟩
  rcases hall u hu with rfl | hstored
  · exact h.self
  · rwa [← h.term]

theorem Reaches.backed_replicate {v : ι} {t i : ℕ} {req : AppendEntriesReq ι}
    (h : Reaches w v t i req) (cfg : Config ι) {acks : ℕ} {rest : List ι}
    (htally : Tally (fun u => u = v ∨ req.msg.last ≤ w.stored u req.term) acks rest) :
    (RaftNode.replicate (cfg.peers v) req acks rest).Backed w v t i := by
  cases rest with
  | nil =>
    unfold RaftNode.replicate
    split_ifs with hneeded
    · exact fun hok => by simp at hok
    · exact h.acknowledged cfg htally (Nat.not_lt.mp hneeded)
  | cons p ps => exact h

/-- What stands behind a proposal on `v`. -/
def Proposal.Backed (w : World ι LogEntry) (v : ι) (pr : Proposal ι) : Prop :=
  pr.phase.Backed w v pr.entry.term pr.index

/-- A careful step of a proposal keeps what stands behind it. -/
theorem Proposal.Backed.step (h : OrderlySim c w) {cfg : Config ι} {a : Action ι}
    (hcareful : Careful c a) {v : ι} {pr : Proposal ι} (hpr : pr ∈ c.proposals v)
    (hback : pr.Backed w v) {ph : ProposalPhase ι} (hph : ProposalStep cfg c v pr a ph) :
    ph.Backed w v pr.entry.term pr.index := by
  unfold Proposal.Backed at hback
  have hself : v ∉ cfg.peers v := fun hv => (cfg.mem_peers v v).mp hv rfl
  cases hph with
  | read hget =>
    obtain ⟨hrole, hterm, hlast⟩ := hcareful.1 pr hget
    exact (h.reaches hpr hrole hterm hlast).backed_replicate cfg
      (Tally.start (cfg.nodup v) hself (Or.inl rfl))
  | answered hold =>
    rw [hold] at hback
    exact hback
  | @reply _ req acks p rest resp hold =>
    have hsim := (h.sim.proposal v pr hpr).phase
    rw [hold] at hback hsim
    have htally := tally_of_reply hsim
    unfold RaftNode.proposalReply
    by_cases hrole : (c.nodes v).role = .leader
    · rw [if_neg (not_not.mpr hrole)]
      by_cases hnew : (c.nodes v).currentTerm < resp.term
      · rw [if_pos hnew]
        exact fun hok => by simp at hok
      · rw [if_neg hnew]
        simp only
        generalize (if resp.success = true then acks + 1 else acks) = k at htally ⊢
        split_ifs with hneeded
        · exact Reaches.acknowledged hback cfg htally hneeded
        · exact Reaches.backed_replicate hback cfg htally
    · rw [if_pos hrole]
      exact fun hok => by simp at hok
  | commit hold =>
    rw [hold] at hback
    cases hpeers : cfg.peers v with
    | nil => exact fun _ => hback
    | cons p ps => exact hback
  | notified hold =>
    rw [hold] at hback
    exact hback
  | @notifyReply _ req p rest resp hold =>
    rw [hold] at hback
    unfold RaftNode.notifyReply
    split_ifs
    · exact fun _ => hback
    · cases rest with
      | nil => exact fun _ => hback
      | cons p ps => exact hback

/-! ## No acknowledged write is lost -/

/-- All proposals are backed. -/
def AllBacked (c : Cluster ι) (w : World ι LogEntry) : Prop :=
  ∀ v, ∀ pr ∈ c.proposals v, pr.Backed w v

theorem AllBacked.step (h : OrderlySim c w) {cfg : Config ι} {a : Action ι}
    (hcareful : Careful c a) (hstep : c.step cfg a = some c') (hext : w.Extends w')
    (hall : AllBacked c w) : AllBacked c' w' := by
  intro v pr hpr
  rcases Cluster.proposals_step hstep hpr with hold | hnew | ⟨pr₀, hpr₀, ph, hph, rfl⟩
  · exact ProposalPhase.Backed.mono (hall v pr hold) hext
  · rw [Proposal.Backed, hnew]
    trivial
  · exact ((hall v pr₀ hpr₀).step h hcareful hpr₀ hph).mono hext

/-- What was acknowledged in one state of a run is in the log of every leader of a later
term in another. -/
theorem OrderlySim.log_acknowledged {c₁ c₂ : Cluster ι} {w₁ w₂ : World ι LogEntry}
    (hsim₁ : OrderlySim c₁ w₁) (hall : AllBacked c₁ w₁) (hext : w₁.Extends w₂)
    (hsim₂ : OrderlySim c₂ w₂) {v : ι} {pr : Proposal ι} (hpr : pr ∈ c₁.proposals v)
    (hret : pr.phase = .returned true) {u : ι} (hlead : (c₂.nodes u).role = .leader)
    (hterm : pr.entry.term < (c₂.nodes u).currentTerm) :
    (c₂.nodes u).log[pr.index - 1]? = some pr.entry := by
  have hback := hall v pr hpr
  rw [Proposal.Backed, hret] at hback
  obtain ⟨n, hindex, hanchored, Q, hQ, hstored⟩ := (hback rfl).mono hext
  have hplaced := ((hsim₁.sim.proposal v pr hpr).mono hext).placed
  have hpos := (hsim₁.sim.proposal v pr hpr).positive
  obtain ⟨hleader, hown, -⟩ := hsim₂.leads hlead
  have hled : w₂.leader (c₂.nodes u).currentTerm ≠ none := by
    rw [hleader]
    exact Option.some_ne_none u
  -- the leader was elected with the prefix that the majority stored
  have hpre := hsim₂.sound.complete.prefix_elog hQ.half hstored hanchored hterm hled
  have hlog := hpre.trans (hsim₂.sound.matching.elog_prefix _ hled)
  rw [← hown] at hlog
  refine getElem?_of_isPrefix hlog ?_
  rw [World.pre, List.getElem?_take_of_lt (by omega), hplaced]

/-- **No acknowledged write is lost.** In every careful run, once a proposal has
returned true, every node that leads a later term has its entry at its index. -/
theorem leader_has_acknowledged {cfg : Config ι} {c₁ c₂ : Cluster ι}
    (h₁ : Cluster.Runs cfg Careful Cluster.init c₁) (h₂ : Cluster.Runs cfg Careful c₁ c₂) {v : ι}
    {pr : Proposal ι} (hpr : pr ∈ c₁.proposals v) (hret : pr.phase = .returned true) {u : ι}
    (hlead : (c₂.nodes u).role = .leader) (hterm : pr.entry.term < (c₂.nodes u).currentTerm) :
    (c₂.nodes u).log[pr.index - 1]? = some pr.entry := by
  obtain ⟨w₁, -, hsim₁, hall⟩ : ∃ w₁, World.init.Extends w₁ ∧ OrderlySim c₁ w₁ ∧ AllBacked c₁ w₁ :=
    OrderlySim.runs (fun _ _ h => h)
      (fun _ _ _ _ _ h hP hstep hext _ hI => hI.step h hP hstep hext) h₁ OrderlySim.init
      (fun v pr hpr => by simp [Cluster.init] at hpr)
  obtain ⟨w₂, hext, hsim₂, -⟩ : ∃ w₂, w₁.Extends w₂ ∧ OrderlySim c₂ w₂ ∧ True :=
    OrderlySim.runs (fun _ _ h => h) (fun _ _ _ _ _ _ _ _ _ _ _ => trivial) h₂ hsim₁ trivial
  exact hsim₁.log_acknowledged hall hext hsim₂ hpr hret hlead hterm

/-- Node 1 is elected with the vote of node 2. -/
def electOne : List (Action (Fin 3)) :=
  [.electionTimeout 1, .startElection 1, .loseVote 1, .voteReply 1, .deliverVote 1, .voteReply 1]

/-- Node 0 leads and a put returns true with the acknowledgement of node 1. -/
def ackedPut : List (Action (Fin 3)) :=
  electZero ++
    [.proposePut 0 (str "a") (str "1"), .proposalRead 0 0, .deliverProposal 0 0,
      .proposalReply 0 0, .proposalCommit 0 0, .loseNotify 0 0, .notifyReply 0 0, .loseNotify 0 0,
      .notifyReply 0 0]

/-- The cluster after that. -/
def ackedCluster : Cluster (Fin 3) :=
  (Cluster.init.run Config.three Careful ackedPut).getD Cluster.init

/-- The theorem at that put and the next leader. -/
theorem leader_has_acknowledged_ackedPut :
    let c := (ackedCluster.run Config.three Careful electOne).getD ackedCluster
    (c.nodes 1).role = .leader ∧ (c.nodes 1).log[0]? = some ⟨1, .put, str "a", str "1"⟩ := by
  have hlead : (((ackedCluster.run Config.three Careful electOne).getD ackedCluster).nodes 1).role =
      .leader := by decide +kernel
  have hpr : (⟨⟨1, .put, str "a", str "1"⟩, 1, .returned true⟩ : Proposal (Fin 3)) ∈
      ackedCluster.proposals 0 := by
    refine List.mem_of_getElem? (i := 0) ?_
    rfl
  exact ⟨hlead, leader_has_acknowledged (.of_isSome (by decide +kernel))
    (.of_isSome (by decide +kernel)) hpr rfl hlead (by decide +kernel)⟩

/-! ## A late heartbeat -/

/-- Node 0 leads; a heartbeat with its first entry to node 1 is under way while node 1
acknowledges the first entry and then the second, and the second put returns true; then
the heartbeat arrives. -/
def lateHeartbeat : List (Action (Fin 3)) :=
  electZero ++
    [.proposePut 0 (str "a") (str "1"), .heartbeatTick 0, .heartbeatBuild 0,
      .proposalRead 0 0, .deliverProposal 0 0, .proposalReply 0 0,
      .proposePut 0 (str "b") (str "2"), .proposalRead 0 1, .deliverProposal 0 1,
      .proposalReply 0 1, .proposalCommit 0 1, .loseNotify 0 1, .notifyReply 0 1, .loseNotify 0 1,
      .notifyReply 0 1, .deliverHeartbeat 0]

/-- The cluster after that. -/
def lateCluster : Cluster (Fin 3) :=
  (Cluster.init.run Config.three (fun _ _ => True) lateHeartbeat).getD Cluster.init

/-- Without that condition an acknowledged write can be lost: node 1 dropped the second
entry and is elected without it. -/
theorem not_leader_has_acknowledged :
    ¬ ∀ (c₁ c₂ : Cluster (Fin 3)) (v u : Fin 3) (pr : Proposal (Fin 3)),
      Cluster.Runs Config.three (fun _ _ => True) Cluster.init c₁ →
      Cluster.Runs Config.three (fun _ _ => True) c₁ c₂ →
      pr ∈ c₁.proposals v → pr.phase = .returned true → (c₂.nodes u).role = .leader →
      pr.entry.term < (c₂.nodes u).currentTerm →
        (c₂.nodes u).log[pr.index - 1]? = some pr.entry := by
  intro hall
  have hpr : (⟨⟨1, .put, str "b", str "2"⟩, 2, .returned true⟩ : Proposal (Fin 3)) ∈
      lateCluster.proposals 0 := by
    refine List.mem_of_getElem? (i := 1) ?_
    rfl
  have hlog := hall lateCluster
    ((lateCluster.run Config.three (fun _ _ => True) electOne).getD lateCluster) 0 1 _
    (.of_isSome (by decide +kernel)) (.of_isSome (by decide +kernel)) hpr rfl (by decide +kernel)
    (by decide +kernel)
  revert hlog
  decide +kernel

end KvEngine
