import KvEngine.Raft.Indices
import KvEngine.Raft.Majority

/-!
# Replies to old heartbeats

The section of `HeartbeatLoop` that handles a reply (`src/raft.cpp`, lines 462–487) does not
ask whether the node still leads the term of the request, as `ElectionLoop` and `ProposePut`
do for theirs. What it does to `next_index_`, `match_index_` and `commit_index_` is the same
at any time.

Results:
* `Cluster.maps_step`: how an action changes the maps of a node.
* `Cluster.Runs.replicating`: who has a heartbeat under way has every peer in both maps, and
  no map already says what the reply is about to tell.
* `staleReply_unchanged_iff`: which replies to heartbeats of an earlier term of office change
  nothing.
-/

namespace KvEngine

open Consensus

variable {ι : Type} [DecidableEq ι]

/-! ## How the maps change -/

/-- What an action can make of the two maps of `v`. -/
inductive MapChange (cfg : Config ι) (c : Cluster ι) (v : ι) : Action ι → RaftNode ι → Prop where
  | kept {a : Action ι} {n : RaftNode ι} (hnext : n.nextIndex = (c.nodes v).nextIndex)
      (hmatch : n.matchIndex = (c.nodes v).matchIndex)
      (hrole : n.role = .leader → (c.nodes v).role = .leader) : MapChange cfg c v a n
  | elected {a : Action ι} :
    MapChange cfg c v a ((c.nodes v).becomeLeaderLocked v (cfg.peers v))
  | replied {req : AppendEntriesReq ι} {p : ι} {rest : List ι} {resp : AppendEntriesResp}
      (hth : c.heartbeat v = .calling req p rest (some resp)) :
    MapChange cfg c v (.heartbeatReply v)
      ((c.nodes v).heartbeatReply (cfg.peers v) req p rest resp).1

omit [DecidableEq ι] in
theorem maps_onAppendEntries (n : RaftNode ι) (req : AppendEntriesReq ι) :
    (n.onAppendEntries req).2.nextIndex = n.nextIndex ∧
      (n.onAppendEntries req).2.matchIndex = n.matchIndex ∧
      ((n.onAppendEntries req).2.role = .leader → n.role = .leader) := by
  rcases Nat.lt_or_ge req.term n.currentTerm with hlt | hge
  · rw [RaftNode.onAppendEntries_of_lt hlt]
    exact ⟨rfl, rfl, id⟩
  · have happ := RaftNode.onAppendEntries_appended hge
    refine ⟨happ.nextIndex, ?_, fun hrole => ?_⟩
    · unfold RaftNode.onAppendEntries
      simp only [apply_ite Prod.snd, apply_ite RaftNode.matchIndex,
        RaftNode.becomeFollowerLocked, ite_self]
    · rw [happ.role] at hrole
      simp at hrole

theorem maps_onRequestVote (n : RaftNode ι) (req : RequestVoteReq ι) :
    (n.onRequestVote req).2.nextIndex = n.nextIndex ∧
      (n.onRequestVote req).2.matchIndex = n.matchIndex ∧
      ((n.onRequestVote req).2.role = .leader → n.role = .leader) := by
  unfold RaftNode.onRequestVote
  by_cases hlt : req.term < n.currentTerm
  · rw [if_pos hlt]
    exact ⟨rfl, rfl, id⟩
  rw [if_neg hlt]
  by_cases hnew : n.currentTerm < req.term
  · rw [if_pos hnew]
    simp only
    split_ifs
    · exact ⟨rfl, rfl, fun h => by simp [RaftNode.becomeFollowerLocked] at h⟩
    · exact ⟨rfl, rfl, fun h => by simp [RaftNode.becomeFollowerLocked] at h⟩
  · rw [if_neg hnew]
    simp only
    split_ifs
    · exact ⟨rfl, rfl, id⟩
    · exact ⟨rfl, rfl, id⟩

namespace Cluster

variable {cfg : Config ι} {c c' : Cluster ι} {a : Action ι}

theorem mapChange_same {v : ι} : MapChange cfg c v a (c.nodes v) :=
  .kept rfl rfl id

/-- A node that steps down keeps its maps. -/
theorem mapChange_becomeFollower {v : ι} (t : ℕ) (l : Option ι) :
    MapChange cfg c v a ((c.nodes v).becomeFollowerLocked t l) :=
  .kept rfl rfl fun h => by simp [RaftNode.becomeFollowerLocked] at h

/-- How an action changes the maps of a node. -/
theorem maps_step (hstep : c.step cfg a = some c') (v : ι) :
    MapChange cfg c v a (c'.nodes v) := by
  have hvisit := nodes_visit hstep v
  generalize c'.nodes v = n at hvisit ⊢
  cases hvisit with
  | same => exact mapChange_same
  | startElection =>
    exact .kept rfl rfl fun h => by
      simp [RaftNode.startElection, RaftNode.becomeCandidateLocked] at h
  | onRequestVote =>
    obtain ⟨hnext, hmatch, hrole⟩ := maps_onRequestVote (c.nodes v) _
    exact .kept hnext hmatch hrole
  | voteReply =>
    unfold RaftNode.voteReply
    split_ifs
    · exact mapChange_same
    · exact mapChange_same
    · exact mapChange_becomeFollower _ _
    all_goals simp only
    all_goals split_ifs
    all_goals first | exact .elected | exact mapChange_same
  | onAppendEntries hdel =>
    obtain ⟨hnext, hmatch, hrole⟩ := maps_onAppendEntries (c.nodes v) _
    exact .kept hnext hmatch hrole
  | heartbeatReply hth => exact .replied hth
  | propose hrole => exact .kept rfl rfl id
  | proposalReply =>
    unfold RaftNode.proposalReply
    split_ifs
    · exact mapChange_same
    · exact mapChange_becomeFollower _ _
    all_goals simp only
    all_goals split_ifs
    all_goals exact mapChange_same
  | notifyReply =>
    unfold RaftNode.notifyReply
    split_ifs
    · exact mapChange_becomeFollower _ _
    · exact mapChange_same
  | applyTake hlt => exact .kept rfl rfl id

/-- A reply is handled in one section, and the thread goes on to the next peer. -/
theorem heartbeat_replied {v : ι} (hstep : c.step cfg (.heartbeatReply v) = some c') :
    ∃ req p rest resp, c.heartbeat v = .calling req p rest (some resp) ∧
      c'.nodes v = ((c.nodes v).heartbeatReply (cfg.peers v) req p rest resp).1 ∧
      (c'.heartbeat v = .sleeping ∨ c'.heartbeat v = RaftNode.nextBeat rest) := by
  cases step_inv hstep with
  | @heartbeatReply v p req rest resp hth =>
    refine ⟨req, p, rest, resp, hth, Function.update_self _ _ _, ?_⟩
    simp only [setHeartbeat, Function.update_self]
    unfold RaftNode.heartbeatReply
    split_ifs
    · exact Or.inl rfl
    · exact Or.inr rfl
    · exact Or.inr rfl
    · exact Or.inr rfl

end Cluster

/-! ## What a heartbeat under way finds -/

section

variable {cfg : Config ι} {c c' : Cluster ι} {a : Action ι} {v : ι}

omit [DecidableEq ι] in
/-- Every peer is in both maps. -/
def RaftNode.Populated (n : RaftNode ι) (peers : List ι) : Prop :=
  ∀ p ∈ peers, n.nextIndex p ≠ none ∧ n.matchIndex p ≠ none

omit [DecidableEq ι] in
/-- One of the maps does not say yet what a success will tell of the peer. -/
def RaftNode.Unanswered (n : RaftNode ι) (req : AppendEntriesReq ι) (p : ι) : Prop :=
  req.entries ≠ [] → n.nextIndex p = some (req.prevLogIndex + 1) ∨ n.matchIndex p = some 0

/-- A node and its heartbeat thread. -/
structure Replicating (cfg : Config ι) (v : ι) (n : RaftNode ι) (th : HeartbeatThread ι) :
    Prop where
  populated : n.role = .leader ∨ th ≠ .sleeping → n.Populated (cfg.peers v)
  pending : ∀ p ∈ th.pending, p ∈ cfg.peers v
  unanswered : ∀ req p rest reply, th = .calling req p rest reply → n.Unanswered req p

/-- Entries are never taken out of the maps. -/
theorem MapChange.populated {n : RaftNode ι} (h : MapChange cfg c v a n)
    (hpop : (c.nodes v).Populated (cfg.peers v)) : n.Populated (cfg.peers v) := by
  cases h with
  | kept hnext hmatch hrole =>
    intro p hp
    rw [hnext, hmatch]
    exact hpop p hp
  | elected =>
    intro p hp
    simp [RaftNode.becomeLeaderLocked, hp]
  | @replied req q rest resp hth =>
    have hupdate : ∀ (f : ι → Option ℕ) (k : ℕ) (p : ι), f p ≠ none →
        Function.update f q (some k) p ≠ none := by
      intro f k p hf
      by_cases hpq : p = q
      · subst hpq
        simp
      · rwa [Function.update_of_ne hpq]
    intro p hp
    obtain ⟨hnext, hmatch⟩ := hpop p hp
    unfold RaftNode.heartbeatReply
    split_ifs with hterm hsuccess hempty
    · exact ⟨hnext, hmatch⟩
    · simp only
      obtain ⟨k, hk⟩ := (c.nodes v).advanceCommitIndexLocked_eq (cfg.peers v)
      rw [hk]
      exact ⟨hnext, hmatch⟩
    · simp only
      obtain ⟨k, hk⟩ := RaftNode.advanceCommitIndexLocked_eq _ (cfg.peers v)
      rw [hk]
      exact ⟨hupdate _ _ p hnext, hupdate _ _ p hmatch⟩
    · simp only
      split
      · exact ⟨hnext, hmatch⟩
      · split_ifs
        · exact ⟨hupdate _ _ p hnext, hmatch⟩
        · exact ⟨hnext, hmatch⟩

/-- Only an election makes a leader. -/
theorem MapChange.populated_of_leader {n : RaftNode ι} (h : MapChange cfg c v a n)
    (hpop : (c.nodes v).role = .leader → (c.nodes v).Populated (cfg.peers v))
    (hth : c.heartbeat v ≠ .sleeping → (c.nodes v).Populated (cfg.peers v))
    (hrole : n.role = .leader) : n.Populated (cfg.peers v) := by
  cases h with
  | kept hnext hmatch hkept =>
    exact (MapChange.kept (a := a) hnext hmatch hkept).populated (hpop (hkept hrole))
  | elected =>
    intro p hp
    simp [RaftNode.becomeLeaderLocked, hp]
  | replied hcall => exact (MapChange.replied hcall).populated (hth (by rw [hcall]; simp))

/-- A request that is under way before and after the step. -/
theorem MapChange.unanswered {n : RaftNode ι} (h : MapChange cfg c v a n)
    (hne : a ≠ .heartbeatReply v) {req : AppendEntriesReq ι} {p : ι} (hp : p ∈ cfg.peers v)
    (hreq : (c.nodes v).Unanswered req p) : n.Unanswered req p := by
  cases h with
  | kept hnext hmatch hrole =>
    intro hentries
    rw [hnext, hmatch]
    exact hreq hentries
  | elected => exact fun _ => Or.inr (if_pos hp)
  | replied => exact absurd rfl hne

omit [DecidableEq ι] in
/-- A heartbeat with entries begins behind the peer's next index. -/
theorem unanswered_build {n : RaftNode ι} {p : ι} (hpop : n.nextIndex p ≠ none) :
    n.Unanswered (n.buildAppendEntriesLocked v p) p := by
  intro hentries
  obtain ⟨k, hk⟩ := Option.ne_none_iff_exists'.mp hpop
  refine Or.inl ?_
  simp only [RaftNode.buildAppendEntriesLocked, hk, Option.getD_some] at hentries ⊢
  split_ifs at hentries with hrange
  · split_ifs with hone
    · congr 1
      omega
    · congr 1
      omega
  · exact absurd rfl hentries

omit [DecidableEq ι] in
theorem pending_nextBeat (ps : List ι) : (RaftNode.nextBeat ps).pending = ps := by
  cases ps <;> rfl

omit [DecidableEq ι] in
theorem nextBeat_ne_calling {ps rest : List ι} {req : AppendEntriesReq ι} {p : ι}
    {reply : Option AppendEntriesResp} : RaftNode.nextBeat ps ≠ .calling req p rest reply := by
  cases ps <;> simp [RaftNode.nextBeat]

/-- The peers a round has still to reach are peers. -/
theorem Replicating.pending_step (h : Replicating cfg v (c.nodes v) (c.heartbeat v))
    {th : HeartbeatThread ι} (hbeat : HeartbeatStep cfg c v a th) :
    ∀ p ∈ th.pending, p ∈ cfg.peers v := by
  have hpending := h.pending
  intro q hq
  cases hbeat with
  | same => exact hpending q hq
  | tick hrole => rwa [pending_nextBeat] at hq
  | build hth =>
    rw [hth] at hpending
    unfold RaftNode.heartbeatBuild at hq
    split_ifs at hq
    · simp [HeartbeatThread.pending] at hq
    · exact hpending q hq
  | answered hth =>
    rw [hth] at hpending
    exact hpending q hq
  | @reply req p rest resp hth =>
    rw [hth] at hpending
    have hrest : ∀ r ∈ rest, r ∈ cfg.peers v := fun r hr => hpending r (List.mem_cons_of_mem p hr)
    unfold RaftNode.heartbeatReply at hq
    split_ifs at hq
    · simp [HeartbeatThread.pending] at hq
    all_goals exact hrest q (pending_nextBeat rest ▸ hq)

theorem Replicating.step (h : Replicating cfg v (c.nodes v) (c.heartbeat v))
    (hstep : c.step cfg a = some c') : Replicating cfg v (c'.nodes v) (c'.heartbeat v) := by
  have hmaps := Cluster.maps_step hstep v
  have hbeat := Cluster.heartbeat_step hstep v
  have hawake : c'.heartbeat v ≠ .sleeping → (c.nodes v).Populated (cfg.peers v) := by
    intro hne
    generalize c'.heartbeat v = th at hbeat hne
    cases hbeat with
    | same => exact h.populated (Or.inr hne)
    | tick hrole => exact h.populated (Or.inl hrole)
    | build hth => exact h.populated (Or.inr (by rw [hth]; simp))
    | answered hth => exact h.populated (Or.inr (by rw [hth]; simp))
    | reply hth => exact h.populated (Or.inr (by rw [hth]; simp))
  refine ⟨?_, h.pending_step hbeat, ?_⟩
  · rintro (hrole | hne)
    · exact hmaps.populated_of_leader (fun hl => h.populated (Or.inl hl))
        (fun hth => h.populated (Or.inr hth)) hrole
    · exact hmaps.populated (hawake hne)
  · intro req p rest reply hcall
    have hp : p ∈ cfg.peers v := h.pending_step hbeat p (by rw [hcall]; exact List.mem_cons_self)
    by_cases ha : a = .heartbeatReply v
    · -- the thread has gone on
      subst ha
      obtain ⟨-, -, rest', -, -, -, hth | hth⟩ := Cluster.heartbeat_replied hstep
      · simp [hth] at hcall
      · rw [hth] at hcall
        exact absurd hcall nextBeat_ne_calling
    · refine hmaps.unanswered ha hp ?_
      have hpop := hawake (by rw [hcall]; simp)
      rw [hcall] at hbeat
      generalize hth : HeartbeatThread.calling req p rest reply = th at hbeat
      cases hbeat with
      | same => exact h.unanswered req p rest reply hth.symm
      | tick => exact absurd hth.symm nextBeat_ne_calling
      | build =>
        unfold RaftNode.heartbeatBuild at hth
        split_ifs at hth
        obtain ⟨rfl, rfl, rfl, rfl⟩ := HeartbeatThread.calling.inj hth
        exact unanswered_build (hpop p hp).1
      | answered hold =>
        obtain ⟨rfl, rfl, rfl, -⟩ := HeartbeatThread.calling.inj hth
        exact h.unanswered req p rest _ hold
      | reply => exact absurd rfl ha

/-- In every run. -/
theorem Cluster.Runs.replicating {P : Cluster ι → Action ι → Prop}
    (hruns : Cluster.Runs cfg P Cluster.init c) (v : ι) :
    Replicating cfg v (c.nodes v) (c.heartbeat v) := by
  induction hruns with
  | start =>
    exact ⟨fun h => by simp [Cluster.init] at h, fun p hp => by simp [Cluster.init,
      HeartbeatThread.pending] at hp, fun _ _ _ _ h => by simp [Cluster.init] at h⟩
  | step a _ _ hstep ih => exact ih.step hstep

end

/-! ## Replies that change nothing -/

namespace RaftNode

omit [DecidableEq ι] in
/-- Every entry of the current term beyond the commit index that half of the nodes have
reached by `match_index_` has one behind it that they have reached. -/
def Settled (n : RaftNode ι) (peers : List ι) : Prop :=
  ∀ N, n.commitIndex < N → n.termAtLocked N = n.currentTerm →
    half peers ≤ n.replicas peers N → half peers ≤ n.replicas peers (N + 1)

omit [DecidableEq ι] in
/-- The commit index stays exactly then. -/
theorem commitIndex_advance_eq_iff {n : RaftNode ι} {peers : List ι} (hpop : n.Populated peers) :
    (n.advanceCommitIndexLocked peers).commitIndex = n.commitIndex ↔ n.Settled peers := by
  have hlen := length_matchValues fun p hp => (hpop p hp).2
  have hmid : (n.matchValues peers).length / 2 < (n.matchValues peers).length := by omega
  have hK := le_middle_iff hlen hmid
  have hgetD : (n.matchValues peers).getD ((n.matchValues peers).length / 2) 0 =
      (n.matchValues peers)[(n.matchValues peers).length / 2] :=
    List.getD_eq_getElem _ _ hmid
  set K := (n.matchValues peers)[(n.matchValues peers).length / 2]
  simp only [advanceCommitIndexLocked, hgetD]
  constructor
  · intro hsame N hN hterm hhalf
    have hle := (hK N).mpr hhalf
    rcases Nat.lt_or_eq_of_le hle with hlt | rfl
    · exact (hK (N + 1)).mp hlt
    · rw [if_pos ⟨hN, hterm⟩] at hsame
      have : K = n.commitIndex := hsame
      omega
  · intro hsettled
    split_ifs with hadvance
    · have := (hK (K + 1)).mpr (hsettled K hadvance.1 hadvance.2 ((hK K).mp le_rfl))
      omega
    · rfl

/-- `next_index_`, `match_index_` and `commit_index_` are the same. -/
structure SameProgress (n n' : RaftNode ι) : Prop where
  nextIndex : n'.nextIndex = n.nextIndex
  matchIndex : n'.matchIndex = n.matchIndex
  commitIndex : n'.commitIndex = n.commitIndex

variable {n : RaftNode ι} {peers : List ι} {req : AppendEntriesReq ι} {p : ι} {rest : List ι}
  {resp : AppendEntriesResp}

/-- A success changes nothing when it tells nothing and the commit index is settled. -/
theorem sameProgress_success_iff (hterm : resp.term ≤ n.currentTerm)
    (hsuccess : resp.success = true) (hpop : n.Populated peers) (hreq : n.Unanswered req p) :
    n.SameProgress (n.heartbeatReply peers req p rest resp).1 ↔
      req.entries = [] ∧ n.Settled peers := by
  rw [heartbeatReply_eq (Nat.not_lt.mpr hterm) hsuccess]
  by_cases hempty : req.entries = []
  · obtain ⟨k, hk⟩ := n.advanceCommitIndexLocked_eq peers
    rw [if_pos hempty, ← commitIndex_advance_eq_iff hpop]
    simp only [hempty, true_and]
    constructor
    · exact fun hsame => hsame.commitIndex
    · intro hcommit
      refine ⟨?_, ?_, hcommit⟩
      · rw [hk]
      · rw [hk]
  · rw [if_neg hempty]
    simp only [hempty, false_and, iff_false]
    intro hsame
    have hpos := List.length_pos_of_ne_nil hempty
    obtain ⟨k, hk⟩ := advanceCommitIndexLocked_eq
      { n with
        matchIndex := Function.update n.matchIndex p
          (some (req.prevLogIndex + req.entries.length))
        nextIndex := Function.update n.nextIndex p
          (some (req.prevLogIndex + req.entries.length + 1)) } peers
    rw [hk] at hsame
    -- the reply told a value that one of the maps did not have
    have hnext := congrFun hsame.nextIndex p
    have hmatch := congrFun hsame.matchIndex p
    simp only [Function.update_self] at hnext hmatch
    rcases hreq hempty with hold | hold
    · rw [hold, Option.some.injEq] at hnext
      omega
    · rw [hold, Option.some.injEq] at hmatch
      omega

/-- A failure changes nothing when the next index cannot go down. -/
theorem sameProgress_failure_iff (hterm : resp.term ≤ n.currentTerm)
    (hfail : ¬ resp.success = true) :
    n.SameProgress (n.heartbeatReply peers req p rest resp).1 ↔
      ∀ k, n.nextIndex p = some k → k ≤ 1 := by
  rw [heartbeatReply, if_neg (Nat.not_lt.mpr hterm), if_neg hfail]
  simp only
  cases hnext : n.nextIndex p with
  | none =>
    refine iff_of_true ⟨rfl, rfl, rfl⟩ ?_
    simp
  | some k =>
    simp only [Option.some.injEq, forall_eq']
    by_cases hk : 1 < k
    · rw [if_pos hk]
      refine iff_of_false (fun hsame => ?_) (by omega)
      have hsome := congrFun hsame.nextIndex p
      simp only [Function.update_self, hnext, Option.some.injEq] at hsome
      omega
    · rw [if_neg hk]
      exact iff_of_true ⟨rfl, rfl, rfl⟩ (by omega)

end RaftNode

/-- `v` is about to handle the reply to a heartbeat of another term of office, and steps not
down for it. -/
structure Cluster.StaleReply (c : Cluster ι) (v : ι) (req : AppendEntriesReq ι) (p : ι)
    (resp : AppendEntriesResp) : Prop where
  calling : ∃ rest, c.heartbeat v = .calling req p rest (some resp)
  stale : (c.nodes v).role ≠ .leader ∨ (c.nodes v).currentTerm ≠ req.term
  term_le : resp.term ≤ (c.nodes v).currentTerm

/-- **Replies to old heartbeats.** In every run of a cluster of any size, the reply to a
heartbeat of a node that does not lead the heartbeat's term any more leaves its
`next_index_`, `match_index_` and `commit_index_` alone exactly when it is a success of a
heartbeat without entries and the commit index is settled, or a failure and the next index of
the peer is 1 already. -/
theorem staleReply_unchanged_iff {cfg : Config ι} {c c' : Cluster ι}
    (hruns : Cluster.Runs cfg (fun _ _ => True) Cluster.init c) {v p : ι}
    {req : AppendEntriesReq ι} {resp : AppendEntriesResp} (h : c.StaleReply v req p resp)
    (hstep : c.step cfg (.heartbeatReply v) = some c') :
    (c.nodes v).SameProgress (c'.nodes v) ↔
      if resp.success = true then req.entries = [] ∧ (c.nodes v).Settled (cfg.peers v)
      else ∀ k, (c.nodes v).nextIndex p = some k → k ≤ 1 := by
  have hrep := hruns.replicating v
  obtain ⟨rest, hcall⟩ := h.calling
  obtain ⟨req', p', rest', resp', hth, hnode, -⟩ := Cluster.heartbeat_replied hstep
  rw [hcall] at hth
  simp only [HeartbeatThread.calling.injEq, Option.some.injEq] at hth
  obtain ⟨rfl, rfl, rfl, rfl⟩ := hth
  rw [hnode]
  have hpop := hrep.populated (Or.inr (by rw [hcall]; simp))
  split_ifs with hsuccess
  · exact RaftNode.sameProgress_success_iff h.term_le hsuccess hpop
      (hrep.unanswered req p rest _ hcall)
  · exact RaftNode.sameProgress_failure_iff h.term_le hsuccess

/-! ## A reply after stepping down -/

/-- Node 0 leads term 1 and node 1 takes its heartbeat, which carries nothing, before
it stands itself in term 2 and asks node 0 for its vote. -/
def staleBeat : List (Action (Fin 3)) :=
  electZero ++
    [.heartbeatTick 0, .heartbeatBuild 0, .deliverHeartbeat 0, .electionTimeout 1,
      .startElection 1, .deliverVote 1]

/-- The cluster after that. -/
def staleBeatCluster : Cluster (Fin 3) :=
  (Cluster.init.run Config.three (fun _ _ => True) staleBeat).getD Cluster.init

/-- The theorem at the reply. -/
theorem staleReply_unchanged_staleBeat :
    ∃ c', staleBeatCluster.step Config.three (.heartbeatReply 0) = some c' ∧
      (staleBeatCluster.nodes 0).SameProgress (c'.nodes 0) := by
  have hsome : (staleBeatCluster.step Config.three (.heartbeatReply 0)).isSome = true := by
    decide +kernel
  obtain ⟨c', hstep⟩ := Option.isSome_iff_exists.mp hsome
  have hreply : staleBeatCluster.StaleReply 0 ⟨1, 0, 0, 0, [], 0⟩ 1 ⟨1, true⟩ :=
    ⟨⟨[2], rfl⟩, Or.inl (by decide +kernel), by decide +kernel⟩
  have hiff := staleReply_unchanged_iff (.of_isSome (by decide +kernel)) hreply hstep
  refine ⟨c', hstep, hiff.mpr ?_⟩
  rw [if_pos rfl]
  refine ⟨rfl, fun N hN hterm => ?_⟩
  -- there is no entry at all
  have hlog : (staleBeatCluster.nodes 0).log = [] := by decide +kernel
  have hcur : (staleBeatCluster.nodes 0).currentTerm = 2 := by decide +kernel
  change (staleBeatCluster.nodes 0).termAtLocked N = _ at hterm
  rw [RaftNode.termAtLocked_eq, hlog, termAt_of_length_lt (Nat.zero_lt_of_lt hN)] at hterm
  exact absurd (hterm.trans hcur) (by decide)

/-- The same with a first entry in the heartbeat. -/
def staleAppend : List (Action (Fin 3)) :=
  electZero ++
    [.proposePut 0 (str "a") (str "1"), .heartbeatTick 0, .heartbeatBuild 0, .deliverHeartbeat 0,
      .electionTimeout 1, .startElection 1, .deliverVote 1]

/-- The cluster after that. -/
def staleAppendCluster : Cluster (Fin 3) :=
  (Cluster.init.run Config.three (fun _ _ => True) staleAppend).getD Cluster.init

/-- Node 0, now a follower in term 2, records the success of term 1. -/
theorem not_staleReply_unchanged :
    ¬ ∀ (c c' : Cluster (Fin 3)) (v p : Fin 3) (req : AppendEntriesReq (Fin 3))
      (resp : AppendEntriesResp),
      Cluster.Runs Config.three (fun _ _ => True) Cluster.init c → c.StaleReply v req p resp →
      c.step Config.three (.heartbeatReply v) = some c' →
        (c.nodes v).SameProgress (c'.nodes v) := by
  intro hall
  have hreply : staleAppendCluster.StaleReply 0
      ⟨1, 0, 0, 0, [⟨1, .put, str "a", str "1"⟩], 0⟩ 1 ⟨1, true⟩ :=
    ⟨⟨[2], rfl⟩, Or.inl (by decide +kernel), by decide +kernel⟩
  have hmatch : (staleAppendCluster.step Config.three (.heartbeatReply 0)).map
      (fun c' => (c'.nodes 0).matchIndex 1) = some (some 1) := by decide +kernel
  obtain ⟨c', hstep, hone⟩ := Option.map_eq_some_iff.mp hmatch
  have hsame := hall _ _ 0 1 _ _ (.of_isSome (by decide +kernel)) hreply hstep
  have hzero : (staleAppendCluster.nodes 0).matchIndex 1 = some 0 := by decide +kernel
  rw [hsame.matchIndex] at hone
  exact absurd (hone.symm.trans hzero) (by decide)

end KvEngine
