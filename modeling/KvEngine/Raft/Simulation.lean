import KvEngine.Consensus.Completeness
import KvEngine.Raft.Cluster

/-!
# The cluster simulates the election protocol

`Sim c w` relates a cluster to a world of the abstract protocol: the nodes' terms,
logs, votes and leadership are the world's, and what the threads have counted so far
(votes, acknowledgements) is in the world's history. Every action of the cluster is a
run of events at one node.

Results:
* `Sim.step`: the simulation step, for any property of events that holds of all but
  deliveries.
* `electionSafety`: at most one node ever leads a term.
-/

namespace KvEngine

open Consensus

variable {ι : Type}

/-- A request as the abstract protocol sees it. -/
def AppendEntriesReq.msg (req : AppendEntriesReq ι) : Msg LogEntry :=
  ⟨req.term, req.prevLogIndex, req.prevLogTerm, req.entries⟩

/-! ## What the node's functions do -/

namespace RaftNode

theorem termAtLocked_eq (n : RaftNode ι) (idx : ℕ) : n.termAtLocked idx = termAt n.log idx := by
  cases idx with
  | zero => rfl
  | succ k =>
    simp only [termAtLocked, termAt, Nat.add_sub_cancel, if_neg (Nat.succ_ne_zero k)]
    cases n.log[k]? <;> rfl

theorem lastLogTermLocked_eq (n : RaftNode ι) : n.lastLogTermLocked = lastTerm n.log := by
  unfold lastLogTermLocked lastTerm
  rw [List.getLast?_eq_getElem?]
  cases hlen : n.log.length with
  | zero =>
    rw [List.getElem?_eq_none (by omega)]
    rfl
  | succ k =>
    rw [Nat.add_sub_cancel, termAt]
    cases n.log[k]? <;> rfl

theorem upToDate_of_isUpToDateLocked {n : RaftNode ι} {L : List LogEntry}
    (h : n.isUpToDateLocked L.length (lastTerm L) = true) : UpToDate L n.log := by
  unfold isUpToDateLocked at h
  rw [lastLogTermLocked_eq] at h
  split_ifs at h with hne
  · exact Or.inl (by simpa using h)
  · exact Or.inr ⟨not_not.mp hne, of_decide_eq_true h⟩

/-- What `OnAppendEntries` makes of a request of the node's or a later term. -/
structure Appended (n : RaftNode ι) (req : AppendEntriesReq ι) (resp : AppendEntriesResp)
    (n' : RaftNode ι) : Prop where
  currentTerm : n'.currentTerm = req.term
  role : n'.role = .follower
  votedFor : n'.votedFor = if n.currentTerm < req.term then none else n.votedFor
  log : n'.log = req.msg.store n.log
  success : resp.success = true ↔
    req.prevLogIndex ≤ n.log.length ∧ termAt n.log req.prevLogIndex = req.prevLogTerm
  commitIndex : n'.commitIndex =
    if resp.success = true ∧ n.commitIndex < req.leaderCommit then
      min req.leaderCommit n'.log.length
    else n.commitIndex
  lastApplied : n'.lastApplied = n.lastApplied
  nextIndex : n'.nextIndex = n.nextIndex

theorem onAppendEntries_of_lt {n : RaftNode ι} {req : AppendEntriesReq ι}
    (h : req.term < n.currentTerm) : n.onAppendEntries req = (⟨n.currentTerm, false⟩, n) :=
  if_pos h

theorem onAppendEntries_appended {n : RaftNode ι} {req : AppendEntriesReq ι}
    (h : n.currentTerm ≤ req.term) :
    n.Appended req (n.onAppendEntries req).1 (n.onAppendEntries req).2 := by
  unfold onAppendEntries
  rw [if_neg (Nat.not_lt.mpr h)]
  -- the node once it follows the sender
  generalize hn₁ : (if n.currentTerm < req.term then
      n.becomeFollowerLocked req.term (some req.leaderId)
    else { n with role := .follower, leaderId := some req.leaderId }) = n₁
  obtain ⟨hterm, hrole, hvoted, hlog, hcommit, happlied, hnext⟩ : n₁.currentTerm = req.term ∧
      n₁.role = .follower ∧
      n₁.votedFor = (if n.currentTerm < req.term then none else n.votedFor) ∧ n₁.log = n.log ∧
      n₁.commitIndex = n.commitIndex ∧ n₁.lastApplied = n.lastApplied ∧
      n₁.nextIndex = n.nextIndex := by
    subst hn₁
    split_ifs with hlt
    · exact ⟨rfl, rfl, rfl, rfl, rfl, rfl, rfl⟩
    · exact ⟨le_antisymm h (Nat.not_lt.mp hlt), rfl, rfl, rfl, rfl, rfl, rfl⟩
  simp only [lastLogIndexLocked, termAtLocked_eq, hlog]
  by_cases hprev : n.log.length < req.prevLogIndex
  · have hno : ¬ req.msg.Stores n.log := fun hs => absurd hs.2.1 (Nat.not_le.mpr hprev)
    rw [if_pos hprev]
    exact ⟨hterm, hrole, hvoted, by rw [Msg.store, if_neg hno, hlog], by simp; omega,
      by simp [hcommit], happlied, hnext⟩
  by_cases hpterm : termAt n.log req.prevLogIndex = req.prevLogTerm
  · rw [if_neg hprev, if_neg (not_not.mpr hpterm)]
    have hle := Nat.not_lt.mp hprev
    have hkept : (if req.prevLogIndex < n.log.length then n.log.take req.prevLogIndex else n.log) =
        n.log.take req.prevLogIndex := by
      by_cases hlt : req.prevLogIndex < n.log.length
      · exact if_pos hlt
      · rw [if_neg hlt, List.take_of_length_le (Nat.not_lt.mp hlt)]
    rw [hkept]
    -- the node once it stored the entries
    generalize hn₂ : (if req.entries.isEmpty = true then n₁ else _ : RaftNode ι) = n₂
    obtain ⟨hterm₂, hrole₂, hvoted₂, hlog₂, hcommit₂, happlied₂, hnext₂⟩ :
        n₂.currentTerm = req.term ∧ n₂.role = .follower ∧
        n₂.votedFor = (if n.currentTerm < req.term then none else n.votedFor) ∧
        n₂.log = req.msg.store n.log ∧ n₂.commitIndex = n.commitIndex ∧
        n₂.lastApplied = n.lastApplied ∧ n₂.nextIndex = n.nextIndex := by
      subst hn₂
      by_cases hempty : req.entries.isEmpty = true
      · have hno : ¬ req.msg.Stores n.log := fun hs => hs.1 (List.isEmpty_iff.mp hempty)
        rw [if_pos hempty]
        exact ⟨hterm, hrole, hvoted, by rw [Msg.store, if_neg hno, hlog], hcommit, happlied, hnext⟩
      · have hstores : req.msg.Stores n.log :=
          ⟨fun hnil => hempty (List.isEmpty_iff.mpr hnil), hle, hpterm⟩
        rw [if_neg hempty]
        refine ⟨hterm, hrole, hvoted, ?_, hcommit, happlied, hnext⟩
        rw [Msg.store, if_pos hstores]
        rfl
    rw [hcommit₂]
    by_cases hleader : n.commitIndex < req.leaderCommit
    · rw [if_pos hleader]
      exact ⟨hterm₂, hrole₂, hvoted₂, hlog₂, by simp [hle, hpterm], by simp [hleader], happlied₂,
        hnext₂⟩
    · rw [if_neg hleader]
      exact ⟨hterm₂, hrole₂, hvoted₂, hlog₂, by simp [hle, hpterm], by simp [hleader, hcommit₂],
        happlied₂, hnext₂⟩
  · have hno : ¬ req.msg.Stores n.log := fun hs => hpterm hs.2.2
    rw [if_neg hprev, if_pos hpterm]
    exact ⟨hterm, hrole, hvoted, by rw [Msg.store, if_neg hno, hlog], by simp [hpterm],
      by simp [hcommit], happlied, hnext⟩

end RaftNode

/-! ## Counting replies -/

/-- A count of distinct nodes that are `ok`, none of which is still to be asked. -/
def Tally (ok : ι → Prop) (k : ℕ) (pending : List ι) : Prop :=
  pending.Nodup ∧ ∃ Q : Finset ι, k ≤ Q.card ∧ (∀ u ∈ Q, ok u) ∧ ∀ u ∈ Q, u ∉ pending

namespace Tally

variable {ok ok' : ι → Prop} {k : ℕ} {p : ι} {ps : List ι}

theorem start (hps : ps.Nodup) {v : ι} (hv : v ∉ ps) (hok : ok v) : Tally ok 1 ps :=
  ⟨hps, {v}, by simp, by simpa using hok, by simpa using hv⟩

theorem mono (h : Tally ok k ps) (hok : ∀ u, ok u → ok' u) : Tally ok' k ps := by
  obtain ⟨hps, Q, hcard, hall, hdisj⟩ := h
  exact ⟨hps, Q, hcard, fun u hu => hok u (hall u hu), hdisj⟩

/-- The node asked did not answer as hoped. -/
theorem skip (h : Tally ok k (p :: ps)) : Tally ok k ps := by
  obtain ⟨hps, Q, hcard, hall, hdisj⟩ := h
  exact ⟨(List.nodup_cons.mp hps).2, Q, hcard, hall,
    fun u hu hmem => hdisj u hu (List.mem_cons_of_mem p hmem)⟩

/-- The node asked did. -/
theorem succ [DecidableEq ι] (h : Tally ok k (p :: ps)) (hp : ok p) :
    Tally ok (k + 1) ps := by
  obtain ⟨hps, Q, hcard, hall, hdisj⟩ := h
  have hpQ : p ∉ Q := fun hp => hdisj p hp (List.mem_cons_self)
  refine ⟨(List.nodup_cons.mp hps).2, insert p Q, ?_, ?_, ?_⟩
  · rw [Finset.card_insert_of_notMem hpQ]
    omega
  · intro u hu
    rcases Finset.mem_insert.mp hu with rfl | hu
    · exact hp
    · exact hall u hu
  · intro u hu hmem
    rcases Finset.mem_insert.mp hu with rfl | hu
    · exact (List.nodup_cons.mp hps).1 hmem
    · exact hdisj u hu (List.mem_cons_of_mem p hmem)

end Tally

theorem Config.card_eq [Fintype ι] [DecidableEq ι] (cfg : Config ι) (v : ι) :
    Fintype.card ι = 1 + (cfg.peers v).length := by
  have huniv : (Finset.univ : Finset ι) = insert v (cfg.peers v).toFinset := by
    ext p
    by_cases hp : p = v <;> simp [hp, cfg.mem_peers]
  have hv : v ∉ (cfg.peers v).toFinset := by simp [cfg.mem_peers]
  rw [← Finset.card_univ, huniv, Finset.card_insert_of_notMem hv,
    List.toFinset_card_of_nodup (cfg.nodup v), Nat.add_comm]

/-- Enough replies are a majority. -/
theorem Tally.majority [Fintype ι] [DecidableEq ι] (cfg : Config ι) (v : ι) {ok : ι → Prop}
    {k : ℕ} {ps : List ι} (h : Tally ok k ps)
    (hk : RaftNode.needed (cfg.peers v) ≤ k) :
    ∃ Q : Finset ι, Majority Q ∧ ∀ u ∈ Q, ok u := by
  obtain ⟨-, Q, hcard, hall, -⟩ := h
  refine ⟨Q, ?_, hall⟩
  unfold Majority
  rw [cfg.card_eq v]
  unfold RaftNode.needed at hk
  omega

/-! ## The simulation relation -/

section

variable [DecidableEq ι]

/-- The node `v` of the world is in the state `n`; a candidate stands with its log
and has not led its term. -/
structure NodeSim (w : World ι LogEntry) (v : ι) (n : RaftNode ι) : Prop where
  term : w.term v = n.currentTerm
  log : w.log v = n.log
  voted : w.granted v n.currentTerm = n.votedFor
  lead : w.lead v ↔ n.role = .leader
  candidate : n.role = .candidate →
    w.standing v n.currentTerm = some n.log ∧ w.leader n.currentTerm ≠ some v

/-- The votes an election has counted were cast. -/
def ElectionThread.Sim (w : World ι LogEntry) (v : ι) : ElectionThread ι → Prop
  | .calling req votes peer rest reply =>
    (∃ L, w.standing v req.term = some L ∧ req.candidateId = v ∧ req.lastLogIndex = L.length ∧
      req.lastLogTerm = lastTerm L) ∧
    Tally (fun u => w.granted u req.term = some v) votes (peer :: rest) ∧
    ∀ resp, reply = some resp → resp.voteGranted = true → w.granted peer req.term = some v
  | _ => True

/-- A reply that reports success does so rightly. -/
def ReplySim (w : World ι LogEntry) (req : AppendEntriesReq ι) (peer : ι)
    (reply : Option AppendEntriesResp) : Prop :=
  ∀ resp, reply = some resp → resp.success = true → req.entries ≠ [] →
    req.msg.last ≤ w.stored peer req.term

/-- The replies heartbeats wait for. -/
def HeartbeatThread.Sim (w : World ι LogEntry) : HeartbeatThread ι → Prop
  | .calling req peer _ reply => ReplySim w req peer reply
  | _ => True

/-- The acknowledgements a proposal on `v` has counted. -/
def ProposalPhase.Sim (w : World ι LogEntry) (v : ι) (e : LogEntry) : ProposalPhase ι → Prop
  | .replicating req acks peer rest reply =>
    req.entries = [e] ∧
    Tally (fun u => u = v ∨ req.msg.last ≤ w.stored u req.term) acks (peer :: rest) ∧
    ReplySim w req peer reply
  | _ => True

/-- The entry of a proposal is in its leader's log, and the leader has stored it. -/
structure Proposal.Sim (w : World ι LogEntry) (v : ι) (pr : Proposal ι) : Prop where
  placed : (w.llog pr.entry.term)[pr.index - 1]? = some pr.entry
  positive : 0 < pr.index
  self : pr.index ≤ w.stored v pr.entry.term
  phase : pr.phase.Sim w v pr.entry

/-- The cluster `c` is in the state `w` of the protocol. -/
structure Sim (c : Cluster ι) (w : World ι LogEntry) : Prop where
  node : ∀ v, NodeSim w v (c.nodes v)
  election : ∀ v, (c.election v).Sim w v
  heartbeat : ∀ v, (c.heartbeat v).Sim w
  proposal : ∀ v, ∀ pr ∈ c.proposals v, pr.Sim w v

/-! ## History grows -/

variable {w w' : World ι LogEntry}

omit [DecidableEq ι] in
theorem ElectionThread.Sim.mono {v : ι} {th : ElectionThread ι} (h : th.Sim w v)
    (hext : w.Extends w') : th.Sim w' v := by
  cases th with
  | sleeping => trivial
  | timedOut => trivial
  | calling req votes peer rest reply =>
    obtain ⟨⟨L, hL, hreq⟩, htally, hreply⟩ := h
    exact ⟨⟨L, hext.standing _ _ _ hL, hreq⟩, htally.mono fun u hu => hext.granted _ _ _ hu,
      fun resp hr hg => hext.granted _ _ _ (hreply resp hr hg)⟩

omit [DecidableEq ι] in
theorem ReplySim.mono {req : AppendEntriesReq ι} {peer : ι} {reply : Option AppendEntriesResp}
    (h : ReplySim w req peer reply) (hext : w.Extends w') : ReplySim w' req peer reply :=
  fun resp hr hs hne => (h resp hr hs hne).trans (hext.stored _ _)

omit [DecidableEq ι] in
theorem HeartbeatThread.Sim.mono {th : HeartbeatThread ι} (h : th.Sim w) (hext : w.Extends w') :
    th.Sim w' := by
  cases th with
  | sleeping => trivial
  | building peer rest => trivial
  | calling req peer rest reply => exact ReplySim.mono h hext

omit [DecidableEq ι] in
theorem ProposalPhase.Sim.mono {v : ι} {e : LogEntry} {ph : ProposalPhase ι} (h : ph.Sim w v e)
    (hext : w.Extends w') : ph.Sim w' v e := by
  cases ph with
  | appended => trivial
  | committing => trivial
  | notifying req peer rest reply => trivial
  | returned ok => trivial
  | replicating req acks peer rest reply =>
    obtain ⟨he, htally, hreply⟩ := h
    exact ⟨he, htally.mono fun u hu => hu.imp_right fun hle => hle.trans (hext.stored _ _),
      hreply.mono hext⟩

omit [DecidableEq ι] in
theorem Proposal.Sim.mono {v : ι} {pr : Proposal ι} (h : pr.Sim w v) (hext : w.Extends w') :
    pr.Sim w' v :=
  ⟨getElem?_of_isPrefix (hext.llog _) h.placed, h.positive, h.self.trans (hext.stored _ _),
    h.phase.mono hext⟩

/-- Events at one node leave the others in their states. -/
theorem NodeSim.of_ne [Fintype ι] {P : World ι LogEntry → Event ι LogEntry → Prop} {u v : ι}
    {n : RaftNode ι} (h : NodeSim w v n) (hrun : World.Run P u w w') (hv : v ≠ u) :
    NodeSim w' v n := by
  obtain ⟨hterm, hlog, hlead, hgranted, hstanding⟩ := hrun.of_ne hv
  refine ⟨hterm.trans h.term, hlog.trans h.log, by rw [hgranted]; exact h.voted,
    hlead.trans h.lead, fun hrole => ⟨by rw [hstanding]; exact (h.candidate hrole).1, ?_⟩⟩
  intro hleader
  rcases hrun.leader hleader with hold | hu
  · exact (h.candidate hrole).2 hold
  · exact hv hu

/-! ## One function of a node -/

section Functions

variable [Fintype ι] {v : ι} {n : RaftNode ι}

omit [DecidableEq ι] [Fintype ι] in
/-- Nothing the protocol speaks of has changed. -/
theorem NodeSim.congr (h : NodeSim w v n) {n' : RaftNode ι} (hterm : n'.currentTerm = n.currentTerm)
    (hlog : n'.log = n.log) (hvoted : n'.votedFor = n.votedFor) (hrole : n'.role = n.role) :
    NodeSim w v n' :=
  ⟨by rw [hterm, h.term], by rw [hlog, h.log], by rw [hterm, hvoted, h.voted],
    by rw [hrole, h.lead], by rw [hrole, hterm, hlog]; exact h.candidate⟩

theorem NodeSim.becomeFollower (h : NodeSim w v n) (hE : w.Elections) {t : ℕ}
    (ht : n.currentTerm < t) (leader : Option ι) :
    w.Enabled (.raise v t) ∧
      NodeSim (w.apply (.raise v t)) v (n.becomeFollowerLocked t leader) := by
  have ht' : w.term v < t := by rwa [h.term]
  refine ⟨ht', ⟨by simp [World.apply, RaftNode.becomeFollowerLocked], h.log,
    hE.granted_future v t ht', by simp [World.apply, RaftNode.becomeFollowerLocked],
    fun hrole => by simp [RaftNode.becomeFollowerLocked] at hrole⟩⟩

theorem NodeSim.becomeCandidate (h : NodeSim w v n) (hE : w.Elections) :
    NodeSim (w.apply (.stand v)) v (n.becomeCandidateLocked v) := by
  have hterm : w.term v + 1 = n.currentTerm + 1 := by rw [h.term]
  refine ⟨?_, h.log, ?_, ?_, fun _ => ⟨?_, ?_⟩⟩
  · simp [World.apply, RaftNode.becomeCandidateLocked, h.term]
  · simp [World.apply, RaftNode.becomeCandidateLocked, hterm]
  · simp [World.apply, RaftNode.becomeCandidateLocked]
  · simp [World.apply, RaftNode.becomeCandidateLocked, hterm, h.log]
  · -- a leader of the new term would have been a candidate before
    intro hleader
    obtain ⟨Q, hQ, hvotes⟩ := hE.majority _ _ hleader
    obtain ⟨u, hu, -⟩ := hQ.exists_mem hQ.half
    obtain ⟨L, hL⟩ := hE.stood u _ v (hvotes u hu)
    have hfuture := hE.standing_future v (n.currentTerm + 1) (by rw [h.term]; omega)
    simp only [RaftNode.becomeCandidateLocked] at hL
    rw [hfuture] at hL
    simp at hL

theorem NodeSim.becomeLeader (h : NodeSim w v n) (hrole : n.role = .candidate) {Q : Finset ι}
    (hQ : Majority Q) (hvotes : ∀ u ∈ Q, w.granted u n.currentTerm = some v) (peers : List ι) :
    w.Enabled (.win v) ∧ NodeSim (w.apply (.win v)) v (n.becomeLeaderLocked v peers) := by
  obtain ⟨hstood, hnot⟩ := h.candidate hrole
  refine ⟨⟨by rw [h.term, h.log, hstood], by rwa [h.term], Q, hQ, by rwa [h.term]⟩,
    ⟨h.term, h.log, h.voted, by simp [World.apply, RaftNode.becomeLeaderLocked],
      fun hrole => by simp [RaftNode.becomeLeaderLocked] at hrole⟩⟩

theorem NodeSim.propose (h : NodeSim w v n) (hrole : n.role = .leader) (op : OpType)
    (key value : Bytes) :
    let r := n.propose op key value
    w.Enabled (.append v r.2.entry) ∧ NodeSim (w.apply (.append v r.2.entry)) v r.1 := by
  refine ⟨⟨h.lead.mpr hrole, h.term.symm⟩, ⟨h.term, ?_, h.voted, h.lead, fun hc => ?_⟩⟩
  · simp [World.apply, RaftNode.propose, h.log]
  · simp [RaftNode.propose, hrole] at hc

/-- A vote request of a node that stood for the request's term. -/
theorem NodeSim.onRequestVote {P : World ι LogEntry → Event ι LogEntry → Prop}
    (hfree : ∀ w ev, (∀ v m, ev ≠ .receive v m) → P w ev) (h : NodeSim w v n) (hE : w.Elections)
    {req : RequestVoteReq ι} {L : List LogEntry}
    (hstood : w.standing req.candidateId req.term = some L) (hidx : req.lastLogIndex = L.length)
    (hlast : req.lastLogTerm = lastTerm L) :
    ∃ w', World.Run P v w w' ∧ NodeSim w' v (n.onRequestVote req).2 ∧
      ((n.onRequestVote req).1.voteGranted = true →
        w'.granted v req.term = some req.candidateId) := by
  unfold RaftNode.onRequestVote
  by_cases hlt : req.term < n.currentTerm
  · rw [if_pos hlt]
    exact ⟨w, .refl w, h, by simp⟩
  rw [if_neg hlt]
  -- the node in the request's term
  obtain ⟨n₁, hn₁, w₁, hrun, hsim, hterm⟩ : ∃ n₁,
      (if n.currentTerm < req.term then n.becomeFollowerLocked req.term none else n) = n₁ ∧
      ∃ w₁, World.Run P v w w₁ ∧ NodeSim w₁ v n₁ ∧ n₁.currentTerm = req.term := by
    by_cases hnew : n.currentTerm < req.term
    · rw [if_pos hnew]
      obtain ⟨hev, hsim⟩ := h.becomeFollower hE hnew none
      exact ⟨_, rfl, _, .single hev (hfree _ _ (by simp)) rfl, hsim, rfl⟩
    · rw [if_neg hnew]
      exact ⟨_, rfl, w, .refl w, h, by omega⟩
  rw [hn₁]
  have hE₁ := hrun.elections hE
  have hstood₁ := (hrun.extends hE).standing _ _ _ hstood
  simp only
  split_ifs with hvote
  · obtain ⟨hcan, hup⟩ := hvote
    rw [hidx, hlast] at hup
    have hev : w₁.Enabled (.grant v req.candidateId) := by
      refine ⟨?_, L, ?_, ?_⟩
      · rwa [hsim.term, hsim.voted]
      · rwa [hsim.term, hterm]
      · rw [hsim.log]
        exact RaftNode.upToDate_of_isUpToDateLocked hup
    have hgranted : (w₁.apply (.grant v req.candidateId)).granted v req.term =
        some req.candidateId := by
      rw [← hterm, ← hsim.term]
      exact set2_self _ _ _ _
    have hgrant : World.Run P v w₁ (w₁.apply (.grant v req.candidateId)) :=
      .single hev (hfree _ _ (by simp)) rfl
    refine ⟨_, hrun.trans hgrant, ⟨hsim.term, hsim.log, ?_, hsim.lead, hsim.candidate⟩,
      fun _ => hgranted⟩
    rw [hterm]
    exact hgranted
  · exact ⟨w₁, hrun, hsim, by simp⟩

/-- An append request. -/
theorem NodeSim.onAppendEntries {P : World ι LogEntry → Event ι LogEntry → Prop}
    (h : NodeSim w v n) (hE : w.Elections) {req : AppendEntriesReq ι}
    (hP : n.currentTerm ≤ req.term → P w (.receive v req.msg)) :
    ∃ w', World.Run P v w w' ∧ NodeSim w' v (n.onAppendEntries req).2 ∧
      ReplySim w' req v (some (n.onAppendEntries req).1) := by
  by_cases hlt : req.term < n.currentTerm
  · rw [RaftNode.onAppendEntries_of_lt hlt]
    refine ⟨w, .refl w, h, ?_⟩
    rintro resp hresp hsuccess
    obtain rfl := Option.some.inj hresp
    simp at hsuccess
  have hle := Nat.not_lt.mp hlt
  have happ := RaftNode.onAppendEntries_appended hle
  have hev : w.Enabled (.receive v req.msg) := by
    show w.term v ≤ req.term
    rwa [h.term]
  refine ⟨_, .single hev (hP hle) rfl, ⟨?_, ?_, ?_, ?_, ?_⟩, ?_⟩
  · rw [happ.currentTerm]
    exact Function.update_self _ _ _
  · rw [happ.log, ← h.log]
    exact Function.update_self _ _ _
  · rw [happ.currentTerm, happ.votedFor]
    show w.granted v req.term = _
    split_ifs with hnew
    · exact hE.granted_future v _ (by rwa [h.term])
    · rw [← h.voted, show req.term = n.currentTerm by omega]
  · rw [happ.role]
    simp [World.apply]
  · rw [happ.role]
    intro hrole
    simp at hrole
  · rintro resp hresp hsuccess hne
    obtain rfl := Option.some.inj hresp
    obtain ⟨hprev, hterm⟩ := happ.success.mp hsuccess
    have hstores : req.msg.Stores (w.log v) := by
      rw [h.log]
      exact ⟨hne, hprev, hterm⟩
    simp only [World.apply, if_pos hstores]
    rw [show req.term = req.msg.term from rfl, set2_self]
    exact le_max_right _ _

/-! ### Handling replies -/

variable {P : World ι LogEntry → Event ι LogEntry → Prop}

/-- A later term in a reply. -/
theorem NodeSim.exists_becomeFollower (hfree : ∀ w ev, (∀ v m, ev ≠ .receive v m) → P w ev)
    (h : NodeSim w v n) (hE : w.Elections) {t : ℕ} (ht : n.currentTerm < t) :
    ∃ w', World.Run P v w w' ∧ NodeSim w' v (n.becomeFollowerLocked t none) := by
  obtain ⟨hev, hsim⟩ := h.becomeFollower hE ht none
  exact ⟨_, .single hev (hfree _ _ (by simp)) rfl, hsim⟩

omit [DecidableEq ι] [Fintype ι] in
theorem sim_callForVote {req : RequestVoteReq ι} {votes : ℕ} {rest : List ι}
    (hstood : ∃ L, w.standing v req.term = some L ∧ req.candidateId = v ∧
      req.lastLogIndex = L.length ∧ req.lastLogTerm = lastTerm L)
    (htally : Tally (fun u => w.granted u req.term = some v) votes rest) :
    (RaftNode.callForVote req votes rest).Sim w v := by
  cases rest with
  | nil => trivial
  | cons p ps => exact ⟨hstood, htally, by simp⟩

theorem NodeSim.voteReply (hfree : ∀ w ev, (∀ v m, ev ≠ .receive v m) → P w ev) (cfg : Config ι)
    (h : NodeSim w v n) (hE : w.Elections) {req : RequestVoteReq ι} {votes : ℕ} {p : ι}
    {rest : List ι} {resp : RequestVoteResp}
    (hth : (ElectionThread.calling req votes p rest (some resp)).Sim w v) :
    ∃ w', World.Run P v w w' ∧
      NodeSim w' v (n.voteReply v (cfg.peers v) req votes rest resp).1 ∧
      (n.voteReply v (cfg.peers v) req votes rest resp).2.Sim w' v := by
  obtain ⟨hstood, htally, hreply⟩ := hth
  unfold RaftNode.voteReply
  by_cases hrole : n.role = .candidate
  · rw [if_neg (not_not.mpr hrole)]
    by_cases hterm : n.currentTerm = req.term
    · rw [if_neg (not_not.mpr hterm)]
      by_cases hnew : n.currentTerm < resp.term
      · rw [if_pos hnew]
        obtain ⟨w', hrun, hsim⟩ := h.exists_becomeFollower hfree hE hnew
        exact ⟨w', hrun, hsim, trivial⟩
      · rw [if_neg hnew]
        have htally' : Tally (fun u => w.granted u req.term = some v)
            (if resp.voteGranted then votes + 1 else votes) rest := by
          split_ifs with hgranted
          · exact htally.succ (hreply resp rfl hgranted)
          · exact htally.skip
        simp only
        generalize (if resp.voteGranted = true then votes + 1 else votes) = k at htally' ⊢
        split_ifs with hneeded
        · obtain ⟨Q, hQ, hvotes⟩ := htally'.majority cfg v hneeded
          rw [← hterm] at hvotes
          obtain ⟨hev, hsim⟩ := h.becomeLeader hrole hQ hvotes (cfg.peers v)
          exact ⟨_, .single hev (hfree _ _ (by simp)) rfl, hsim, trivial⟩
        · exact ⟨w, .refl w, h, sim_callForVote hstood htally'⟩
    · rw [if_pos hterm]
      exact ⟨w, .refl w, h, trivial⟩
  · rw [if_pos hrole]
    exact ⟨w, .refl w, h, trivial⟩

omit [DecidableEq ι] [Fintype ι] in
theorem RaftNode.advanceCommitIndexLocked_eq (n : RaftNode ι) (peers : List ι) :
    ∃ k, n.advanceCommitIndexLocked peers = { n with commitIndex := k } := by
  unfold RaftNode.advanceCommitIndexLocked
  simp only
  split_ifs
  · exact ⟨_, rfl⟩
  · exact ⟨n.commitIndex, rfl⟩

theorem NodeSim.heartbeatReply (hfree : ∀ w ev, (∀ v m, ev ≠ .receive v m) → P w ev)
    (h : NodeSim w v n) (hE : w.Elections) (peers : List ι) (req : AppendEntriesReq ι) (p : ι)
    (rest : List ι) (resp : AppendEntriesResp) :
    ∃ w', World.Run P v w w' ∧ NodeSim w' v (n.heartbeatReply peers req p rest resp).1 ∧
      (n.heartbeatReply peers req p rest resp).2.Sim w' := by
  have hnext : ∀ w : World ι LogEntry, (RaftNode.nextBeat rest).Sim w := by
    intro w
    cases rest <;> trivial
  unfold RaftNode.heartbeatReply
  by_cases hnew : n.currentTerm < resp.term
  · rw [if_pos hnew]
    obtain ⟨w', hrun, hsim⟩ := h.exists_becomeFollower hfree hE hnew
    exact ⟨w', hrun, hsim, trivial⟩
  · rw [if_neg hnew]
    refine ⟨w, .refl w, ?_⟩
    by_cases hsuccess : resp.success = true
    · rw [if_pos hsuccess]
      obtain ⟨k, hk⟩ := RaftNode.advanceCommitIndexLocked_eq
        (if req.entries.isEmpty then n else
          { n with
            matchIndex := Function.update n.matchIndex p
              (some (req.prevLogIndex + req.entries.length))
            nextIndex := Function.update n.nextIndex p
              (some (req.prevLogIndex + req.entries.length + 1)) }) peers
      refine ⟨?_, hnext w⟩
      simp only [hk]
      split_ifs
      · exact h.congr rfl rfl rfl rfl
      · exact h.congr rfl rfl rfl rfl
    · rw [if_neg hsuccess]
      refine ⟨?_, hnext w⟩
      simp only
      split
      · exact h
      · split_ifs
        · exact h.congr rfl rfl rfl rfl
        · exact h

omit [DecidableEq ι] [Fintype ι] in
theorem sim_replicate {req : AppendEntriesReq ι} {peers rest : List ι} {acks : ℕ} {e : LogEntry}
    (hentries : req.entries = [e])
    (htally : Tally (fun u => u = v ∨ req.msg.last ≤ w.stored u req.term) acks rest) :
    (RaftNode.replicate peers req acks rest).Sim w v e := by
  cases rest with
  | nil =>
    unfold RaftNode.replicate
    split_ifs <;> trivial
  | cons p ps => exact ⟨hentries, htally, by simp [ReplySim]⟩

omit [Fintype ι] in
/-- The count once a reply is in. -/
theorem tally_of_reply {req : AppendEntriesReq ι} {acks : ℕ} {p : ι} {rest : List ι}
    {resp : AppendEntriesResp} {e : LogEntry}
    (hph : (ProposalPhase.replicating req acks p rest (some resp)).Sim w v e) :
    Tally (fun u => u = v ∨ req.msg.last ≤ w.stored u req.term)
      (if resp.success then acks + 1 else acks) rest := by
  obtain ⟨hentries, htally, hreply⟩ := hph
  split_ifs with hsuccess
  · exact htally.succ (Or.inr (hreply resp rfl hsuccess (by simp [hentries])))
  · exact htally.skip

theorem NodeSim.proposalReply (hfree : ∀ w ev, (∀ v m, ev ≠ .receive v m) → P w ev)
    (h : NodeSim w v n) (hE : w.Elections) (peers : List ι) {req : AppendEntriesReq ι} {acks : ℕ}
    {p : ι} {rest : List ι} {resp : AppendEntriesResp} {e : LogEntry}
    (hph : (ProposalPhase.replicating req acks p rest (some resp)).Sim w v e) :
    ∃ w', World.Run P v w w' ∧ NodeSim w' v (n.proposalReply peers req acks rest resp).1 ∧
      (n.proposalReply peers req acks rest resp).2.Sim w' v e := by
  have htally' := tally_of_reply hph
  unfold RaftNode.proposalReply
  by_cases hrole : n.role = .leader
  · rw [if_neg (not_not.mpr hrole)]
    by_cases hnew : n.currentTerm < resp.term
    · rw [if_pos hnew]
      obtain ⟨w', hrun, hsim⟩ := h.exists_becomeFollower hfree hE hnew
      exact ⟨w', hrun, hsim, trivial⟩
    · rw [if_neg hnew]
      simp only
      generalize (if resp.success = true then acks + 1 else acks) = k at htally' ⊢
      split_ifs with hneeded
      · exact ⟨w, .refl w, h, trivial⟩
      · exact ⟨w, .refl w, h, sim_replicate hph.1 htally'⟩
  · rw [if_pos hrole]
    exact ⟨w, .refl w, h, trivial⟩

theorem NodeSim.notifyReply (hfree : ∀ w ev, (∀ v m, ev ≠ .receive v m) → P w ev)
    (h : NodeSim w v n) (hE : w.Elections) (req : AppendEntriesReq ι) (rest : List ι)
    (resp : AppendEntriesResp) (e : LogEntry) :
    ∃ w', World.Run P v w w' ∧ NodeSim w' v (n.notifyReply req rest resp).1 ∧
      (n.notifyReply req rest resp).2.Sim w' v e := by
  unfold RaftNode.notifyReply
  by_cases hnew : n.currentTerm < resp.term
  · rw [if_pos hnew]
    obtain ⟨w', hrun, hsim⟩ := h.exists_becomeFollower hfree hE hnew
    exact ⟨w', hrun, hsim, trivial⟩
  · rw [if_neg hnew]
    refine ⟨w, .refl w, h, ?_⟩
    cases rest <;> trivial

end Functions

/-! ## One action of the cluster -/

section Steps

variable [Fintype ι] {c : Cluster ι} {P : World ι LogEntry → Event ι LogEntry → Prop}

theorem Sim.setNode (h : Sim c w) (hE : w.Elections) {u : ι} (hrun : World.Run P u w w')
    {n : RaftNode ι} (hn : NodeSim w' u n) : Sim (c.setNode u n) w' := by
  have hext := hrun.extends hE
  refine ⟨fun v => ?_, fun v => (h.election v).mono hext, fun v => (h.heartbeat v).mono hext,
    fun v pr hpr => (h.proposal v pr hpr).mono hext⟩
  by_cases hv : v = u
  · subst hv
    simpa only [Cluster.setNode, Function.update_self] using hn
  · simpa only [Cluster.setNode, Function.update_of_ne hv] using (h.node v).of_ne hrun hv

omit [Fintype ι] in
theorem Sim.setElection (h : Sim c w) {v : ι} {th : ElectionThread ι} (hth : th.Sim w v) :
    Sim (c.setElection v th) w := by
  refine ⟨h.node, fun u => ?_, h.heartbeat, h.proposal⟩
  by_cases hu : u = v
  · subst hu
    simpa only [Cluster.setElection, Function.update_self] using hth
  · simpa only [Cluster.setElection, Function.update_of_ne hu] using h.election u

omit [Fintype ι] in
theorem Sim.setHeartbeat (h : Sim c w) {v : ι} {th : HeartbeatThread ι} (hth : th.Sim w) :
    Sim (c.setHeartbeat v th) w := by
  refine ⟨h.node, h.election, fun u => ?_, h.proposal⟩
  by_cases hu : u = v
  · subst hu
    simpa only [Cluster.setHeartbeat, Function.update_self] using hth
  · simpa only [Cluster.setHeartbeat, Function.update_of_ne hu] using h.heartbeat u

omit [Fintype ι] in
theorem Sim.setApply (h : Sim c w) (v : ι) (th : ApplyThread) : Sim (c.setApply v th) w :=
  ⟨h.node, h.election, h.heartbeat, h.proposal⟩

omit [DecidableEq ι] [Fintype ι] in
/-- The phase of a proposal is simulated. -/
theorem Sim.phase (h : Sim c w) {v : ι} {i : ℕ} {pr : Proposal ι}
    (hpr : (c.proposals v)[i]? = some pr) {ph : ProposalPhase ι} (hph : c.phase? v i = some ph) :
    ph.Sim w v pr.entry := by
  have hprph : pr.phase = ph := by
    rw [Cluster.phase?, hpr] at hph
    exact Option.some.inj hph
  exact hprph ▸ (h.proposal v pr (List.mem_of_getElem? hpr)).phase

omit [Fintype ι] in
theorem Sim.setPhase (h : Sim c w) {v : ι} {i : ℕ} {ph : ProposalPhase ι}
    (hph : ∀ pr, (c.proposals v)[i]? = some pr → ph.Sim w v pr.entry) :
    Sim (c.setPhase v i ph) w := by
  refine ⟨h.node, h.election, h.heartbeat, fun u pr hpr => ?_⟩
  by_cases hu : u = v
  · subst hu
    simp only [Cluster.setPhase, Function.update_self] at hpr
    obtain ⟨j, hj⟩ := List.getElem?_of_mem hpr
    rw [List.getElem?_modify, Option.map_eq_map, Option.map_eq_some_iff] at hj
    obtain ⟨pr', hpr', rfl⟩ := hj
    have hold := h.proposal u pr' (List.mem_of_getElem? hpr')
    split_ifs with hij
    · subst hij
      exact ⟨hold.placed, hold.positive, hold.self, hph pr' hpr'⟩
    · exact hold
  · simp only [Cluster.setPhase, Function.update_of_ne hu] at hpr
    exact h.proposal u pr hpr

/-- A client's call: a leader appends the entry. -/
theorem Sim.propose (hfree : ∀ w ev, (∀ v m, ev ≠ .receive v m) → P w ev) (h : Sim c w)
    (hE : w.Elections) {v : ι} (op : OpType) (key value : Bytes) :
    ∃ u w', World.Run P u w w' ∧ Sim (c.propose v ((c.nodes v).propose op key value)) w' := by
  unfold Cluster.propose
  split_ifs with hrole
  · obtain ⟨hev, hnode⟩ := (h.node v).propose hrole op key value
    have hrun : World.Run P v w _ := .single hev (hfree _ _ (by simp)) rfl
    have hsim := h.setNode hE hrun hnode
    refine ⟨v, _, hrun, ⟨hsim.node, hsim.election, hsim.heartbeat, fun u pr hpr => ?_⟩⟩
    by_cases hu : u = v
    · subst hu
      simp only [Function.update_self] at hpr
      rcases List.mem_append.mp hpr with hpr | hpr
      · exact hsim.proposal u pr hpr
      · -- the new proposal
        obtain rfl := List.mem_singleton.mp hpr
        obtain ⟨-, hown, -⟩ := hE.leads u ((h.node u).lead.mpr hrole)
        have hterm := (h.node u).term
        have hlog := (h.node u).log
        refine ⟨?_, Nat.succ_pos _, ?_, trivial⟩
        · simp only [RaftNode.propose, World.apply, ← hterm, Function.update_self, ← hown, hlog,
            Nat.add_sub_cancel]
          simp
        · simp only [RaftNode.propose, World.apply, ← hterm, set2_self, hlog]
          exact le_max_right _ _
    · simp only [Function.update_of_ne hu] at hpr
      exact hsim.proposal u pr hpr
  · exact ⟨v, w, .refl w, h⟩

/-! ### The election thread -/

theorem Sim.startElection (hfree : ∀ w ev, (∀ v m, ev ≠ .receive v m) → P w ev)
    (cfg : Config ι) (h : Sim c w) (hE : w.Elections) (v : ι) :
    ∃ u w', World.Run P u w w' ∧
      Sim ((c.setNode v ((c.nodes v).startElection v (cfg.peers v)).1).setElection v
        ((c.nodes v).startElection v (cfg.peers v)).2) w' := by
  have hnode := (h.node v).becomeCandidate hE
  have hrun : World.Run P v w (w.apply (.stand v)) := .single trivial (hfree _ _ (by simp)) rfl
  refine ⟨v, _, hrun, (h.setNode hE hrun hnode).setElection (sim_callForVote ?_ ?_)⟩
  · refine ⟨(c.nodes v).log, (hnode.candidate rfl).1, rfl, rfl, ?_⟩
    exact RaftNode.lastLogTermLocked_eq _
  · exact Tally.start (cfg.nodup v) (fun hv => (cfg.mem_peers v v).mp hv rfl) hnode.voted

/-- A vote that is granted is recorded before the reply is on its way. -/
theorem Sim.deliverVote (hfree : ∀ w ev, (∀ v m, ev ≠ .receive v m) → P w ev) (h : Sim c w)
    (hE : w.Elections) {v p : ι} {req : RequestVoteReq ι} {votes : ℕ} {rest : List ι}
    (hth : c.election v = .calling req votes p rest none) :
    ∃ u w', World.Run P u w w' ∧
      Sim ((c.setNode p ((c.nodes p).onRequestVote req).2).setElection v
        (.calling req votes p rest (some ((c.nodes p).onRequestVote req).1))) w' := by
  have hold := h.election v
  rw [hth] at hold
  obtain ⟨⟨L, hL, hcand, hidx, hlast⟩, htally, -⟩ := hold
  subst hcand
  obtain ⟨w', hrun, hnode, hreply⟩ := (h.node p).onRequestVote hfree hE hL hidx hlast
  have hext := hrun.extends hE
  refine ⟨p, w', hrun, (h.setNode hE hrun hnode).setElection
    ⟨⟨L, hext.standing _ _ _ hL, rfl, hidx, hlast⟩,
      htally.mono fun u hu => hext.granted _ _ _ hu, ?_⟩⟩
  intro resp hresp hgranted
  obtain rfl := Option.some.inj hresp
  exact hreply hgranted

theorem Sim.voteReply (hfree : ∀ w ev, (∀ v m, ev ≠ .receive v m) → P w ev) (cfg : Config ι)
    (h : Sim c w) (hE : w.Elections) {v p : ι} {req : RequestVoteReq ι} {votes : ℕ}
    {rest : List ι} {resp : RequestVoteResp}
    (hth : c.election v = .calling req votes p rest (some resp)) :
    ∃ u w', World.Run P u w w' ∧
      Sim ((c.setNode v ((c.nodes v).voteReply v (cfg.peers v) req votes rest resp).1).setElection
        v ((c.nodes v).voteReply v (cfg.peers v) req votes rest resp).2) w' := by
  have hold := h.election v
  rw [hth] at hold
  obtain ⟨w', hrun, hnode, hthread⟩ := (h.node v).voteReply hfree cfg hE hold
  exact ⟨v, w', hrun, (h.setNode hE hrun hnode).setElection hthread⟩

/-! ### The heartbeat thread -/

omit [Fintype ι] in
theorem Sim.heartbeatBuild (h : Sim c w) (v p : ι) (rest : List ι) :
    Sim (c.setHeartbeat v ((c.nodes v).heartbeatBuild v p rest)) w := by
  refine h.setHeartbeat ?_
  unfold RaftNode.heartbeatBuild
  split_ifs
  · trivial
  · simp [HeartbeatThread.Sim, ReplySim]

theorem Sim.deliverHeartbeat (h : Sim c w) (hE : w.Elections) {v p : ι}
    {req : AppendEntriesReq ι} {rest : List ι}
    (hin : (c.nodes p).currentTerm ≤ req.term → P w (.receive p req.msg)) :
    ∃ u w', World.Run P u w w' ∧
      Sim ((c.setNode p ((c.nodes p).onAppendEntries req).2).setHeartbeat v
        (.calling req p rest (some ((c.nodes p).onAppendEntries req).1))) w' := by
  obtain ⟨w', hrun, hnode, hreply⟩ := (h.node p).onAppendEntries hE hin
  exact ⟨p, w', hrun, (h.setNode hE hrun hnode).setHeartbeat hreply⟩

theorem Sim.heartbeatReply (hfree : ∀ w ev, (∀ v m, ev ≠ .receive v m) → P w ev)
    (cfg : Config ι) (h : Sim c w) (hE : w.Elections) (v p : ι) (req : AppendEntriesReq ι)
    (rest : List ι) (resp : AppendEntriesResp) :
    ∃ u w', World.Run P u w w' ∧
      Sim ((c.setNode v
        ((c.nodes v).heartbeatReply (cfg.peers v) req p rest resp).1).setHeartbeat v
        ((c.nodes v).heartbeatReply (cfg.peers v) req p rest resp).2) w' := by
  obtain ⟨w', hrun, hnode, hthread⟩ :=
    (h.node v).heartbeatReply hfree hE (cfg.peers v) req p rest resp
  exact ⟨v, w', hrun, (h.setNode hE hrun hnode).setHeartbeat hthread⟩

/-! ### A client's call -/

omit [Fintype ι] in
theorem Sim.proposalRead (cfg : Config ι) (h : Sim c w) {v : ι} {i idx : ℕ} {e : LogEntry}
    (hpr : (c.proposals v)[i]? = some ⟨e, idx, .appended⟩) :
    Sim (c.setPhase v i (RaftNode.replicate (cfg.peers v) ((c.nodes v).proposalRequest v e) 1
      (cfg.peers v))) w := by
  refine h.setPhase fun pr hpr' => ?_
  rw [hpr] at hpr'
  obtain rfl := Option.some.inj hpr'
  refine sim_replicate rfl (Tally.start (cfg.nodup v) ?_ (Or.inl rfl))
  exact fun hv => (cfg.mem_peers v v).mp hv rfl

theorem Sim.deliverProposal (h : Sim c w) (hE : w.Elections) {v p : ι} {i acks : ℕ}
    {req : AppendEntriesReq ι} {rest : List ι}
    (hph : c.phase? v i = some (.replicating req acks p rest none))
    (hin : (c.nodes p).currentTerm ≤ req.term → P w (.receive p req.msg)) :
    ∃ u w', World.Run P u w w' ∧
      Sim ((c.setNode p ((c.nodes p).onAppendEntries req).2).setPhase v i
        (.replicating req acks p rest (some ((c.nodes p).onAppendEntries req).1))) w' := by
  obtain ⟨w', hrun, hnode, hreply⟩ := (h.node p).onAppendEntries hE hin
  refine ⟨p, w', hrun, (h.setNode hE hrun hnode).setPhase fun pr hpr => ?_⟩
  obtain ⟨he, htally, -⟩ := (h.phase hpr hph).mono (hrun.extends hE)
  exact ⟨he, htally, hreply⟩

/-- The caller and its phase after a reply that its node has taken in. -/
theorem Sim.setNode_setPhase (h : Sim c w) (hE : w.Elections) {v : ι} {i : ℕ} {pr : Proposal ι}
    (hpr : (c.proposals v)[i]? = some pr) (hrun : World.Run P v w w') {n : RaftNode ι}
    (hnode : NodeSim w' v n) {ph : ProposalPhase ι} (hph : ph.Sim w' v pr.entry) :
    Sim ((c.setNode v n).setPhase v i ph) w' := by
  refine (h.setNode hE hrun hnode).setPhase fun pr' hpr' => ?_
  rw [show (c.setNode v n).proposals v = c.proposals v from rfl, hpr] at hpr'
  obtain rfl := Option.some.inj hpr'
  exact hph

theorem Sim.proposalReply (hfree : ∀ w ev, (∀ v m, ev ≠ .receive v m) → P w ev)
    (cfg : Config ι) (h : Sim c w) (hE : w.Elections) {v p : ι} {i acks : ℕ}
    {req : AppendEntriesReq ι} {rest : List ι} {resp : AppendEntriesResp}
    (hph : c.phase? v i = some (.replicating req acks p rest (some resp))) :
    ∃ u w', World.Run P u w w' ∧
      Sim ((c.setNode v ((c.nodes v).proposalReply (cfg.peers v) req acks rest resp).1).setPhase
        v i ((c.nodes v).proposalReply (cfg.peers v) req acks rest resp).2) w' := by
  obtain ⟨pr, hpr, -⟩ := Option.map_eq_some_iff.mp hph
  obtain ⟨w', hrun, hnode, hphase⟩ :=
    (h.node v).proposalReply hfree hE (cfg.peers v) (h.phase hpr hph)
  exact ⟨v, w', hrun, h.setNode_setPhase hE hpr hrun hnode hphase⟩

theorem Sim.notifyReply (hfree : ∀ w ev, (∀ v m, ev ≠ .receive v m) → P w ev) (h : Sim c w)
    (hE : w.Elections) {v p : ι} {i : ℕ} {req : AppendEntriesReq ι} {rest : List ι}
    {resp : AppendEntriesResp} (hph : c.phase? v i = some (.notifying req p rest (some resp))) :
    ∃ u w', World.Run P u w w' ∧
      Sim ((c.setNode v ((c.nodes v).notifyReply req rest resp).1).setPhase v i
        ((c.nodes v).notifyReply req rest resp).2) w' := by
  obtain ⟨pr, hpr, -⟩ := Option.map_eq_some_iff.mp hph
  obtain ⟨w', hrun, hnode, hphase⟩ := (h.node v).notifyReply hfree hE req rest resp pr.entry
  exact ⟨v, w', hrun, h.setNode_setPhase hE hpr hrun hnode hphase⟩

/-! ### The step -/

/-- Every action is a run of events at one node. -/
theorem Sim.step (hfree : ∀ w ev, (∀ v m, ev ≠ .receive v m) → P w ev) (cfg : Config ι)
    (h : Sim c w) (hE : w.Elections) {a : Action ι} {c' : Cluster ι}
    (hstep : c.step cfg a = some c')
    (hreceive : ∀ p req, c.delivers? a = some (p, req) → (c.nodes p).currentTerm ≤ req.term →
      P w (.receive p req.msg)) :
    ∃ u w', World.Run P u w w' ∧ Sim c' w' := by
  have hquiet : ∀ {c'}, ι → Sim c' w → ∃ u w', World.Run P u w w' ∧ Sim c' w' :=
    fun v hsim => ⟨v, w, .refl w, hsim⟩
  cases Cluster.step_inv hstep with
  | @leads v hth hrole => exact hquiet v h
  | @electionTimeout v hth hrole => exact hquiet v (h.setElection trivial)
  | @startElection v hth => exact h.startElection hfree cfg hE v
  | @deliverVote v p req votes rest hth => exact h.deliverVote hfree hE hth
  | @loseVote v p req votes rest reply hth =>
    have hold := h.election v
    rw [hth] at hold
    exact hquiet v (h.setElection ⟨hold.1, hold.2.1, by simp⟩)
  | @voteReply v p req votes rest resp hth => exact h.voteReply hfree cfg hE hth
  | @heartbeatTick v hth hrole =>
    refine hquiet v (h.setHeartbeat ?_)
    cases cfg.peers v <;> trivial
  | @idleTick v hth hrole => exact hquiet v h
  | @heartbeatBuild v p rest hth => exact hquiet v (h.heartbeatBuild v p rest)
  | @deliverHeartbeat v p req rest hth =>
    exact h.deliverHeartbeat hE (hreceive p req (by simp only [Cluster.delivers?, hth]))
  | @loseHeartbeat v p req rest reply hth =>
    exact hquiet v (h.setHeartbeat (by simp [HeartbeatThread.Sim, ReplySim]))
  | @heartbeatReply v p req rest resp hth => exact h.heartbeatReply hfree cfg hE v p req rest resp
  | @proposePut v key value => exact h.propose hfree hE .put key value
  | @proposeDel v key => exact h.propose hfree hE .del key []
  | @proposalRead v i idx e hpr => exact hquiet v (h.proposalRead cfg hpr)
  | @deliverProposal v p i acks req rest hph =>
    exact h.deliverProposal hE hph (hreceive p req (by simp only [Cluster.delivers?, hph]))
  | @loseProposal v p i acks req rest reply hph =>
    refine hquiet v (h.setPhase fun pr hpr => ?_)
    obtain ⟨he, htally, -⟩ := h.phase hpr hph
    exact ⟨he, htally, by simp [ReplySim]⟩
  | @proposalReply v p i acks req rest resp hph => exact h.proposalReply hfree cfg hE hph
  | @proposalCommit v i hph =>
    refine hquiet v (h.setPhase fun pr hpr => ?_)
    cases cfg.peers v <;> trivial
  | @deliverNotify v p i req rest hph =>
    have hin := hreceive p req (by simp only [Cluster.delivers?, hph])
    obtain ⟨w', hrun, hnode, -⟩ := (h.node p).onAppendEntries hE hin
    exact ⟨p, w', hrun, (h.setNode hE hrun hnode).setPhase fun pr hpr => trivial⟩
  | @loseNotify v p i req rest reply hph =>
    exact hquiet v (h.setPhase fun pr hpr => trivial)
  | @notifyReply v p i req rest resp hph => exact h.notifyReply hfree hE hph
  | @applyTake v e hth hlt hget =>
    have hnode : NodeSim w v { c.nodes v with lastApplied := (c.nodes v).lastApplied + 1 } :=
      (h.node v).congr rfl rfl rfl rfl
    have hrun : World.Run P v w w := .refl w
    exact ⟨v, w, hrun, (h.setNode hE hrun hnode).setApply v _⟩
  | @idleTake v hth hle => exact hquiet v h
  | @applyRun v i e hth => exact hquiet v ⟨h.node, h.election, h.heartbeat, h.proposal⟩

/-! ## Runs -/

omit [DecidableEq ι] [Fintype ι] in
theorem Sim.init : Sim (Cluster.init : Cluster ι) World.init :=
  ⟨fun _ => ⟨rfl, rfl, rfl, by simp [World.init, Cluster.init],
    fun h => by simp [Cluster.init] at h⟩, fun _ => trivial, fun _ => trivial,
    fun _ _ h => by simp [Cluster.init] at h⟩

/-- A run of the cluster extends the history. -/
theorem Sim.runs {cfg : Config ι} {Q : Cluster ι → Action ι → Prop} {c' : Cluster ι}
    (hruns : Cluster.Runs cfg Q c c') (h : Sim c w) (hE : w.Elections) :
    ∃ w', w'.Elections ∧ w.Extends w' ∧ Sim c' w' := by
  induction hruns with
  | start => exact ⟨w, hE, World.Extends.refl w, h⟩
  | step a _ _ hstep ih =>
    obtain ⟨w₁, hE₁, hext₁, h₁⟩ := ih
    have hany : ∃ u w₂, World.Run (fun _ _ => True) u w₁ w₂ ∧ Sim _ w₂ :=
      h₁.step (fun _ _ _ => trivial) cfg hE₁ hstep (fun _ _ _ _ => trivial)
    obtain ⟨u, w₂, hrun, h₂⟩ := hany
    exact ⟨w₂, hrun.elections hE₁, hext₁.trans (hrun.extends hE₁), h₂⟩

omit [DecidableEq ι] in
/-- Of two states of a run, leaders of one term are one node. -/
theorem Sim.leader_eq {c₁ c₂ : Cluster ι} {w₁ w₂ : World ι LogEntry} (hsim₁ : Sim c₁ w₁)
    (hE₁ : w₁.Elections) (hext : w₁.Extends w₂) (hsim₂ : Sim c₂ w₂) (hE₂ : w₂.Elections) {a b : ι}
    (ha : (c₁.nodes a).role = .leader) (hb : (c₂.nodes b).role = .leader)
    (hterm : (c₁.nodes a).currentTerm = (c₂.nodes b).currentTerm) : a = b := by
  have hleader₁ := (hE₁.leads a ((hsim₁.node a).lead.mpr ha)).1
  have hleader₂ := (hE₂.leads b ((hsim₂.node b).lead.mpr hb)).1
  rw [(hsim₁.node a).term] at hleader₁
  rw [(hsim₂.node b).term, ← hterm, hext.leader _ _ hleader₁] at hleader₂
  exact Option.some.inj hleader₂

/-- **Election safety.** In every run of a cluster of any size, however its critical
sections interleave and messages are delayed or lost, at most one node ever leads a
term. -/
theorem electionSafety {cfg : Config ι} {c₁ c₂ : Cluster ι}
    (h₁ : Cluster.Runs cfg (fun _ _ => True) Cluster.init c₁)
    (h₂ : Cluster.Runs cfg (fun _ _ => True) c₁ c₂) {a b : ι}
    (ha : (c₁.nodes a).role = .leader) (hb : (c₂.nodes b).role = .leader)
    (hterm : (c₁.nodes a).currentTerm = (c₂.nodes b).currentTerm) : a = b := by
  obtain ⟨w₁, hE₁, -, hsim₁⟩ := Sim.init.runs h₁ World.Elections.init
  obtain ⟨w₂, hE₂, hext, hsim₂⟩ := hsim₁.runs h₂ hE₁
  exact hsim₁.leader_eq hE₁ hext hsim₂ hE₂ ha hb hterm

end Steps

end

/-! ## An election -/

/-- Node 0 stands, gets the vote of node 1 and leads term 1. -/
def electZero : List (Action (Fin 3)) :=
  [.electionTimeout 0, .startElection 0, .deliverVote 0, .voteReply 0]

/-- The cluster after that. -/
def electedZero : Cluster (Fin 3) :=
  (Cluster.init.run Config.three (fun _ _ => True) electZero).getD Cluster.init

/-- The theorem at that leader and whoever leads when it has sent a heartbeat. -/
theorem electionSafety_electZero : (electedZero.nodes 0).role = .leader ∧
    ∀ b, (((electedZero.run Config.three (fun _ _ => True)
        [.heartbeatTick 0, .heartbeatBuild 0, .deliverHeartbeat 0]).getD electedZero).nodes
          b).role = .leader →
      (electedZero.nodes 0).currentTerm = (((electedZero.run Config.three (fun _ _ => True)
        [.heartbeatTick 0, .heartbeatBuild 0, .deliverHeartbeat 0]).getD electedZero).nodes
          b).currentTerm → 0 = b := by
  have ha : (electedZero.nodes 0).role = .leader := by decide +kernel
  exact ⟨ha, fun b => electionSafety (.of_isSome (by decide +kernel))
    (.of_isSome (by decide +kernel)) ha⟩

end KvEngine
