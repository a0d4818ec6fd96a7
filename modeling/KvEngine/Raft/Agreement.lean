import KvEngine.Raft.Orderly

/-!
# State machine safety

Commit indices only cover chosen entries: a leader advances its own to a value that
half of the nodes have stored, and a follower takes it over with a request whose log it
agrees with. Chosen prefixes are prefixes of one another, so nodes apply the same
entries. `HeartbeatLoop` leaves one more gap than those of `Careful`: the section that
counts a success does not look at the role and the term again.

Results:
* `Cluster.nodes_step`: how an action changes a node.
* `stateMachineSafety`: in every careful run in which heartbeat replies count for the
  leader of their term only, nodes apply the same entry at one index.
* `not_stateMachineSafety`: two concurrent proposals make two nodes apply different
  entries.
-/

namespace KvEngine

open Consensus

variable {ι : Type}

/-! ## How nodes change -/

/-- A change of a node that does not bear on commitment. -/
structure Quiet (n n' : RaftNode ι) : Prop where
  log : n'.log = n.log
  commitIndex : n'.commitIndex = n.commitIndex
  currentTerm : n.currentTerm ≤ n'.currentTerm
  leader : n'.role = .leader →
    n.role = .leader ∧ n'.currentTerm = n.currentTerm ∧ n'.matchIndex = n.matchIndex
  nextIndex : ∀ p, n'.nextIndex p = some 0 → n.nextIndex p = some 0
  lastApplied : n'.lastApplied = n.lastApplied ∨
    n.lastApplied < n.commitIndex ∧ n'.lastApplied = n.lastApplied + 1

theorem Quiet.refl (n : RaftNode ι) : Quiet n n :=
  ⟨rfl, rfl, le_rfl, fun h => ⟨h, rfl, rfl⟩, fun _ h => h, Or.inl rfl⟩

theorem Quiet.becomeFollower {n : RaftNode ι} {t : ℕ} (h : n.currentTerm ≤ t) (l : Option ι) :
    Quiet n (n.becomeFollowerLocked t l) :=
  ⟨rfl, rfl, h, fun hrole => by simp [RaftNode.becomeFollowerLocked] at hrole, fun _ h => h,
    Or.inl rfl⟩

variable [DecidableEq ι]

/-- The critical section that an action runs on the node `v`. -/
inductive NodeVisit (cfg : Config ι) (c : Cluster ι) (v : ι) : Action ι → RaftNode ι → Prop where
  | same {a : Action ι} : NodeVisit cfg c v a (c.nodes v)
  | startElection :
    NodeVisit cfg c v (.startElection v) ((c.nodes v).startElection v (cfg.peers v)).1
  | onRequestVote {a : Action ι} {req : RequestVoteReq ι} :
    NodeVisit cfg c v a ((c.nodes v).onRequestVote req).2
  | voteReply {req : RequestVoteReq ι} {votes : ℕ} {rest : List ι} {resp : RequestVoteResp} :
    NodeVisit cfg c v (.voteReply v)
      ((c.nodes v).voteReply v (cfg.peers v) req votes rest resp).1
  | onAppendEntries {a : Action ι} {req : AppendEntriesReq ι}
      (hdel : c.delivers? a = some (v, req)) :
    NodeVisit cfg c v a ((c.nodes v).onAppendEntries req).2
  | heartbeatReply {req : AppendEntriesReq ι} {p : ι} {rest : List ι} {resp : AppendEntriesResp}
      (hth : c.heartbeat v = .calling req p rest (some resp)) :
    NodeVisit cfg c v (.heartbeatReply v)
      ((c.nodes v).heartbeatReply (cfg.peers v) req p rest resp).1
  | propose {a : Action ι} {op : OpType} {key value : Bytes} (hrole : (c.nodes v).role = .leader) :
    NodeVisit cfg c v a ((c.nodes v).propose op key value).1
  | proposalReply {a : Action ι} {req : AppendEntriesReq ι} {acks : ℕ} {rest : List ι}
      {resp : AppendEntriesResp} :
    NodeVisit cfg c v a ((c.nodes v).proposalReply (cfg.peers v) req acks rest resp).1
  | notifyReply {a : Action ι} {req : AppendEntriesReq ι} {rest : List ι}
      {resp : AppendEntriesResp} :
    NodeVisit cfg c v a ((c.nodes v).notifyReply req rest resp).1
  | applyTake (hlt : (c.nodes v).lastApplied < (c.nodes v).commitIndex) :
    NodeVisit cfg c v (.applyTake v)
      { c.nodes v with lastApplied := (c.nodes v).lastApplied + 1 }

/-- What an action can make of the node `v`. -/
inductive NodeChange (cfg : Config ι) (c : Cluster ι) (v : ι) : Action ι → RaftNode ι → Prop where
  | quiet {a : Action ι} {n : RaftNode ι} (h : Quiet (c.nodes v) n) : NodeChange cfg c v a n
  | elected {a : Action ι} :
    NodeChange cfg c v a ((c.nodes v).becomeLeaderLocked v (cfg.peers v))
  | received {a : Action ι} {req : AppendEntriesReq ι} (hdel : c.delivers? a = some (v, req))
      (hterm : (c.nodes v).currentTerm ≤ req.term) :
    NodeChange cfg c v a ((c.nodes v).onAppendEntries req).2
  | appended {a : Action ι} {op : OpType} {key value : Bytes}
      (hrole : (c.nodes v).role = .leader) :
    NodeChange cfg c v a ((c.nodes v).propose op key value).1
  | replied {req : AppendEntriesReq ι} {p : ι} {rest : List ι} {resp : AppendEntriesResp}
      (hth : c.heartbeat v = .calling req p rest (some resp))
      (hterm : ¬ (c.nodes v).currentTerm < resp.term) (hsuccess : resp.success = true) :
    NodeChange cfg c v (.heartbeatReply v)
      ((c.nodes v).heartbeatReply (cfg.peers v) req p rest resp).1

theorem quiet_onRequestVote (n : RaftNode ι) (req : RequestVoteReq ι) :
    Quiet n (n.onRequestVote req).2 := by
  unfold RaftNode.onRequestVote
  by_cases hlt : req.term < n.currentTerm
  · rw [if_pos hlt]
    exact Quiet.refl n
  rw [if_neg hlt]
  obtain ⟨n₁, hn₁, hq⟩ : ∃ n₁,
      (if n.currentTerm < req.term then n.becomeFollowerLocked req.term none else n) = n₁ ∧
        Quiet n n₁ := by
    refine ⟨_, rfl, ?_⟩
    split_ifs with hnew
    · exact Quiet.becomeFollower (Nat.le_of_lt hnew) none
    · exact Quiet.refl n
  rw [hn₁]
  simp only
  split_ifs
  · exact ⟨hq.log, hq.commitIndex, hq.currentTerm, hq.leader, hq.nextIndex, hq.lastApplied⟩
  · exact hq

namespace Cluster

variable {c c' : Cluster ι}

/-- Handling an append request of an old term changes nothing. -/
theorem nodeChange_onAppendEntries (cfg : Config ι) {a : Action ι} {p : ι}
    {req : AppendEntriesReq ι} (hdel : c.delivers? a = some (p, req)) :
    NodeChange cfg c p a ((c.nodes p).onAppendEntries req).2 := by
  by_cases hlt : req.term < (c.nodes p).currentTerm
  · rw [RaftNode.onAppendEntries_of_lt hlt]
    exact .quiet (Quiet.refl _)
  · exact .received hdel (Nat.not_lt.mp hlt)

theorem nodeChange_voteReply (cfg : Config ι) (c : Cluster ι) (a : Action ι) (v : ι)
    (req : RequestVoteReq ι) (votes : ℕ) (rest : List ι) (resp : RequestVoteResp) :
    NodeChange cfg c v a ((c.nodes v).voteReply v (cfg.peers v) req votes rest resp).1 := by
  unfold RaftNode.voteReply
  by_cases hrole : (c.nodes v).role ≠ .candidate
  · rw [if_pos hrole]
    exact .quiet (Quiet.refl _)
  by_cases hterm : (c.nodes v).currentTerm ≠ req.term
  · rw [if_neg hrole, if_pos hterm]
    exact .quiet (Quiet.refl _)
  by_cases hnew : (c.nodes v).currentTerm < resp.term
  · rw [if_neg hrole, if_neg hterm, if_pos hnew]
    exact .quiet (Quiet.becomeFollower (Nat.le_of_lt hnew) none)
  · rw [if_neg hrole, if_neg hterm, if_neg hnew]
    simp only
    generalize (if resp.voteGranted = true then votes + 1 else votes) = k
    split_ifs
    · exact .elected
    · exact .quiet (Quiet.refl _)

theorem nodeChange_heartbeatReply (cfg : Config ι) {v : ι} {req : AppendEntriesReq ι} {p : ι}
    {rest : List ι} {resp : AppendEntriesResp}
    (hth : c.heartbeat v = .calling req p rest (some resp)) :
    NodeChange cfg c v (.heartbeatReply v)
      ((c.nodes v).heartbeatReply (cfg.peers v) req p rest resp).1 := by
  by_cases hnew : (c.nodes v).currentTerm < resp.term
  · rw [RaftNode.heartbeatReply, if_pos hnew]
    exact .quiet (Quiet.becomeFollower (Nat.le_of_lt hnew) none)
  by_cases hsuccess : resp.success = true
  · exact .replied hth hnew hsuccess
  · rw [RaftNode.heartbeatReply, if_neg hnew, if_neg hsuccess]
    refine .quiet ?_
    simp only
    split
    · exact Quiet.refl _
    · rename_i next hnext
      split_ifs
      · refine ⟨rfl, rfl, le_rfl, fun h => ⟨h, rfl, rfl⟩, fun q hq => ?_, Or.inl rfl⟩
        by_cases hqp : q = p
        · subst hqp
          simp only [Function.update_self, Option.some.injEq] at hq
          omega
        · simpa only [Function.update_of_ne hqp] using hq
      · exact Quiet.refl _

omit [DecidableEq ι] in
theorem quiet_proposalReply (n : RaftNode ι) (peers : List ι) (req : AppendEntriesReq ι)
    (acks : ℕ) (rest : List ι) (resp : AppendEntriesResp) :
    Quiet n (n.proposalReply peers req acks rest resp).1 := by
  unfold RaftNode.proposalReply
  split_ifs with hrole hnew
  · exact Quiet.refl n
  · exact Quiet.becomeFollower (Nat.le_of_lt hnew) none
  all_goals simp only
  all_goals split_ifs
  all_goals exact Quiet.refl n

omit [DecidableEq ι] in
theorem quiet_notifyReply (n : RaftNode ι) (req : AppendEntriesReq ι) (rest : List ι)
    (resp : AppendEntriesResp) : Quiet n (n.notifyReply req rest resp).1 := by
  unfold RaftNode.notifyReply
  split_ifs with hnew
  · exact Quiet.becomeFollower (Nat.le_of_lt hnew) none
  · exact Quiet.refl n

/-- An action changes a node by a critical section, if at all. -/
theorem nodes_visit {cfg : Config ι} {a : Action ι} (hstep : c.step cfg a = some c') (v : ι) :
    NodeVisit cfg c v a (c'.nodes v) := by
  have hsame : NodeVisit cfg c v a (c.nodes v) := .same
  -- the other nodes stay
  have hset : ∀ {u : ι} {n : RaftNode ι}, NodeVisit cfg c u a n →
      NodeVisit cfg c v a ((c.setNode u n).nodes v) := by
    intro u n hn
    by_cases hv : v = u
    · subst hv
      simpa only [setNode, Function.update_self] using hn
    · simpa only [setNode, Function.update_of_ne hv] using hsame
  have hpropose : ∀ {u : ι} {op : OpType} {key value : Bytes},
      NodeVisit cfg c v a ((c.propose u ((c.nodes u).propose op key value)).nodes v) := by
    intro u op key value
    unfold propose
    split_ifs with hrole
    · exact hset (.propose hrole)
    · exact hsame
  cases step_inv hstep with
  | leads hth hrole => exact hsame
  | electionTimeout hth hrole => exact hsame
  | startElection hth => exact hset .startElection
  | deliverVote hth => exact hset .onRequestVote
  | loseVote hth => exact hsame
  | voteReply hth => exact hset .voteReply
  | heartbeatTick hth hrole => exact hsame
  | idleTick hth hrole => exact hsame
  | heartbeatBuild hth => exact hsame
  | deliverHeartbeat hth => exact hset (.onAppendEntries (by simp only [delivers?, hth]))
  | loseHeartbeat hth => exact hsame
  | heartbeatReply hth => exact hset (.heartbeatReply hth)
  | proposePut => exact hpropose
  | proposeDel => exact hpropose
  | proposalRead hpr => exact hsame
  | deliverProposal hph => exact hset (.onAppendEntries (by simp only [delivers?, hph]))
  | loseProposal hph => exact hsame
  | proposalReply hph => exact hset .proposalReply
  | proposalCommit hph => exact hsame
  | deliverNotify hph => exact hset (.onAppendEntries (by simp only [delivers?, hph]))
  | loseNotify hph => exact hsame
  | notifyReply hph => exact hset .notifyReply
  | applyTake hth hlt hget => exact hset (.applyTake hlt)
  | idleTake hth hle => exact hsame
  | applyRun hth => exact hsame

/-- How an action changes a node. -/
theorem nodes_step {cfg : Config ι} {a : Action ι} (hstep : c.step cfg a = some c') (v : ι) :
    NodeChange cfg c v a (c'.nodes v) := by
  have hvisit := nodes_visit hstep v
  generalize c'.nodes v = n at hvisit ⊢
  cases hvisit with
  | same => exact .quiet (Quiet.refl _)
  | startElection =>
    refine .quiet ⟨rfl, rfl, Nat.le_succ _, fun h => ?_, fun _ h => h, Or.inl rfl⟩
    simp [RaftNode.startElection, RaftNode.becomeCandidateLocked] at h
  | onRequestVote => exact .quiet (quiet_onRequestVote _ _)
  | voteReply => exact nodeChange_voteReply cfg c _ _ _ _ _ _
  | onAppendEntries hdel => exact nodeChange_onAppendEntries cfg hdel
  | heartbeatReply hth => exact nodeChange_heartbeatReply cfg hth
  | propose hrole => exact .appended hrole
  | proposalReply => exact .quiet (quiet_proposalReply _ _ _ _ _ _)
  | notifyReply => exact .quiet (quiet_notifyReply _ _ _ _)
  | applyTake hlt =>
    exact .quiet ⟨rfl, rfl, le_rfl, fun h => ⟨h, rfl, rfl⟩, fun _ h => h, Or.inr ⟨hlt, rfl⟩⟩

/-- Only the apply thread moves `last_applied_`. -/
theorem lastApplied_visit {cfg : Config ι} {a : Action ι} {v : ι} {n : RaftNode ι}
    (h : NodeVisit cfg c v a n) (ha : a ≠ .applyTake v) :
    n.lastApplied = (c.nodes v).lastApplied := by
  cases h with
  | same => rfl
  | startElection => rfl
  | onRequestVote =>
    unfold RaftNode.onRequestVote
    simp only
    split_ifs <;> rfl
  | voteReply =>
    unfold RaftNode.voteReply
    simp only
    split_ifs <;> rfl
  | @onAppendEntries _ req hdel =>
    by_cases hlt : req.term < (c.nodes v).currentTerm
    · rw [RaftNode.onAppendEntries_of_lt hlt]
    · exact (RaftNode.onAppendEntries_appended (Nat.not_lt.mp hlt)).lastApplied
  | heartbeatReply hth =>
    have hadvance : ∀ n : RaftNode ι,
        (n.advanceCommitIndexLocked (cfg.peers v)).lastApplied = n.lastApplied := by
      intro n
      obtain ⟨k, hk⟩ := n.advanceCommitIndexLocked_eq (cfg.peers v)
      rw [hk]
    unfold RaftNode.heartbeatReply
    simp only
    split_ifs
    · rfl
    · rw [hadvance]
    · rw [hadvance]
    · split
      · rfl
      · split_ifs <;> rfl
  | propose hrole => rfl
  | proposalReply =>
    unfold RaftNode.proposalReply
    simp only
    split_ifs <;> rfl
  | notifyReply =>
    unfold RaftNode.notifyReply
    split_ifs <;> rfl
  | applyTake hlt => exact absurd rfl ha

/-- How an action moves the apply thread of a node on. -/
inductive ApplyChange (c c' : Cluster ι) (v : ι) : Prop where
  | same (hthread : c'.apply v = c.apply v) (happlied : c'.applied v = c.applied v)
      (hlast : (c'.nodes v).lastApplied = (c.nodes v).lastApplied)
  | take {e : LogEntry} (hsleeping : c.apply v = .sleeping)
      (hlt : (c.nodes v).lastApplied < (c.nodes v).commitIndex)
      (hget : (c.nodes v).log[(c.nodes v).lastApplied]? = some e)
      (hthread : c'.apply v = .holding ((c.nodes v).lastApplied + 1) e)
      (happlied : c'.applied v = c.applied v)
      (hlast : (c'.nodes v).lastApplied = (c.nodes v).lastApplied + 1)
  | run {i : ℕ} {e : LogEntry} (hheld : c.apply v = .holding i e)
      (hthread : c'.apply v = .sleeping) (happlied : c'.applied v = c.applied v ++ [(i, e)])
      (hlast : (c'.nodes v).lastApplied = (c.nodes v).lastApplied)

/-- An entry is taken from the committed prefix, and handed over after that. -/
theorem apply_change {cfg : Config ι} {a : Action ι} (hstep : c.step cfg a = some c') (v : ι) :
    ApplyChange c c' v := by
  have hkept := lastApplied_visit (nodes_visit hstep v)
  have hpropose : ∀ {u : ι} {r : RaftNode ι × Proposal ι},
      (c.propose u r).apply v = c.apply v ∧ (c.propose u r).applied v = c.applied v := by
    intro u r
    unfold propose
    split_ifs <;> exact ⟨rfl, rfl⟩
  cases step_inv hstep with
  | @applyTake u e hth hlt hget =>
    by_cases hv : v = u
    · subst hv
      exact .take hth hlt hget (by simp [setApply]) rfl (by simp [setApply, setNode])
    · exact .same (by simp [setApply, setNode, hv]) rfl (by simp [setApply, setNode, hv])
  | idleTake hth hle => exact .same rfl rfl rfl
  | @applyRun u i e hth =>
    by_cases hv : v = u
    · subst hv
      exact .run hth (by simp [setApply]) (by simp) rfl
    · exact .same (by simp [setApply, hv]) (by simp [hv]) rfl
  | proposePut => exact .same hpropose.1 hpropose.2 (hkept (by simp))
  | proposeDel => exact .same hpropose.1 hpropose.2 (hkept (by simp))
  | _ =>
    -- the other threads
    exact .same rfl rfl (hkept (by simp))

/-- An entry about to be applied is the next one of a committed prefix. -/
theorem apply_step {cfg : Config ι} {a : Action ι} (hstep : c.step cfg a = some c') {v : ι} {i : ℕ}
    {e : LogEntry} (h : c'.apply v = .holding i e) :
    c.apply v = .holding i e ∨ 0 < i ∧ i ≤ (c.nodes v).commitIndex ∧
      (c.nodes v).log[i - 1]? = some e := by
  cases apply_change hstep v with
  | same hthread =>
    left
    rwa [← hthread]
  | take hsleeping hlt hget hthread =>
    right
    rw [hthread, ApplyThread.holding.injEq] at h
    obtain ⟨rfl, rfl⟩ := h
    exact ⟨Nat.succ_pos _, hlt, hget⟩
  | run hheld hthread =>
    rw [hthread] at h
    simp at h

/-- What is applied was held. -/
theorem applied_step {cfg : Config ι} {a : Action ι} (hstep : c.step cfg a = some c') {v : ι}
    {x : ℕ × LogEntry} (h : x ∈ c'.applied v) :
    x ∈ c.applied v ∨ c.apply v = .holding x.1 x.2 := by
  cases apply_change hstep v with
  | same hthread happlied =>
    left
    rwa [← happlied]
  | take hsleeping hlt hget hthread happlied =>
    left
    rwa [← happlied]
  | run hheld hthread happlied =>
    rw [happlied, List.mem_append, List.mem_singleton] at h
    refine h.imp_right ?_
    rintro rfl
    exact hheld

end Cluster

/-! ## The invariant -/

section

variable [Fintype ι]

/-- The node's commit index covers a chosen prefix of its log. -/
def Committed (w : World ι LogEntry) (n : RaftNode ι) : Prop :=
  n.commitIndex = 0 ∨
    n.commitIndex ≤ n.log.length ∧ w.Chosen n.currentTerm (n.log.take n.commitIndex)

/-- A request that carries a commit index carries the end of a genuine log that has the
chosen prefix, unless no node can store it. -/
def CarriesCommit (w : World ι LogEntry) (req : AppendEntriesReq ι) : Prop :=
  req.leaderCommit = 0 ∨ (0 < req.prevLogIndex ∧ req.prevLogTerm = 0) ∨
    ∃ X, Genuine w.llog X ∧ req.prevLogTerm = termAt X req.prevLogIndex ∧
      req.prevLogIndex ≤ X.length ∧ req.entries = X.drop req.prevLogIndex ∧
      req.leaderCommit ≤ X.length ∧ w.Chosen req.term (X.take req.leaderCommit)

/-- A leader's match indices are stored. -/
def Matched (cfg : Config ι) (w : World ι LogEntry) (v : ι) (n : RaftNode ι) : Prop :=
  n.role = .leader →
    ∀ p ∈ cfg.peers v, ∃ k, n.matchIndex p = some k ∧ k ≤ w.stored p n.currentTerm

/-- The entry is in a chosen list at its index. -/
def ChosenAt (w : World ι LogEntry) (i : ℕ) (e : LogEntry) : Prop :=
  ∃ T p, w.Chosen T p ∧ 0 < i ∧ p[i - 1]? = some e

/-- All that commitment rests on. -/
structure Agreed (cfg : Config ι) (c : Cluster ι) (w : World ι LogEntry) : Prop where
  committed : ∀ v, Committed w (c.nodes v)
  matched : ∀ v, Matched cfg w v (c.nodes v)
  nextIndex : ∀ v p, (c.nodes v).nextIndex p ≠ some 0
  carried : ∀ req, c.Holds req → CarriesCommit w req
  held : ∀ v i e, c.apply v = .holding i e → ChosenAt w i e
  applied : ∀ v, ∀ x ∈ c.applied v, ChosenAt w x.1 x.2

variable {c c' : Cluster ι} {w w' : World ι LogEntry}

omit [DecidableEq ι] in
theorem Committed.mono {n : RaftNode ι} (h : Committed w n) (hext : w.Extends w') :
    Committed w' n :=
  h.imp_right fun h => ⟨h.1, h.2.extends hext⟩

omit [DecidableEq ι] in
/-- More of the log and a later term do not hurt. -/
theorem Committed.congr {n n' : RaftNode ι} (h : Committed w n) (hlog : n.log <+: n'.log)
    (hcommit : n'.commitIndex = n.commitIndex) (hterm : n.currentTerm ≤ n'.currentTerm) :
    Committed w n' := by
  unfold Committed at *
  rw [hcommit]
  refine h.imp_right fun ⟨hlen, hchosen⟩ => ⟨hlen.trans hlog.length_le, ?_⟩
  obtain ⟨r, hr⟩ := hlog
  rw [← hr, List.take_append_of_le_length hlen]
  exact hchosen.mono hterm

omit [DecidableEq ι] in
theorem CarriesCommit.mono {req : AppendEntriesReq ι} (h : CarriesCommit w req)
    (hext : w.Extends w') : CarriesCommit w' req := by
  refine h.imp_right (Or.imp_right ?_)
  rintro ⟨X, hX, hterm, hprev, hentries, hle, hchosen⟩
  exact ⟨X, hX.mono hext.llog, hterm, hprev, hentries, hle, hchosen.extends hext⟩

omit [DecidableEq ι] [Fintype ι] in
theorem Matched.mono {cfg : Config ι} {v : ι} {n : RaftNode ι} (h : Matched cfg w v n)
    (hext : w.Extends w') : Matched cfg w' v n := by
  intro hrole p hp
  obtain ⟨k, hk, hle⟩ := h hrole p hp
  exact ⟨k, hk, hle.trans (hext.stored _ _)⟩

omit [DecidableEq ι] in
theorem ChosenAt.mono {i : ℕ} {e : LogEntry} (h : ChosenAt w i e) (hext : w.Extends w') :
    ChosenAt w' i e := by
  obtain ⟨T, p, hchosen, hrest⟩ := h
  exact ⟨T, p, hchosen.extends hext, hrest⟩

/-- Chosen entries at one index are one. -/
theorem ChosenAt.eq (hS : w.Sound) {i : ℕ} {x y : LogEntry} (hx : ChosenAt w i x)
    (hy : ChosenAt w i y) : x = y := by
  obtain ⟨T, p, hp, -, hpx⟩ := hx
  obtain ⟨T', q, hq, -, hqy⟩ := hy
  rcases World.Chosen.total hS.complete hS.elections hS.matching hp hq with hpq | hqp
  · have hqx := getElem?_of_isPrefix hpq hpx
    rw [hqy] at hqx
    exact (Option.some.inj hqx).symm
  · have hpy := getElem?_of_isPrefix hqp hqy
    rw [hpx] at hpy
    exact Option.some.inj hpy

/-! ## Requests carry chosen prefixes -/

omit [DecidableEq ι] in
/-- A heartbeat. -/
theorem carriesCommit_build {n : RaftNode ι} (v : ι) {p : ι} (hgenuine : Genuine w.llog n.log)
    (hcommitted : Committed w n) (hnext : n.nextIndex p ≠ some 0) :
    CarriesCommit w (n.buildAppendEntriesLocked v p) := by
  obtain ⟨next, hget, hpos⟩ : ∃ next, (n.nextIndex p).getD 1 = next ∧ 0 < next := by
    refine ⟨_, rfl, ?_⟩
    cases hp : n.nextIndex p with
    | none => exact Nat.one_pos
    | some k =>
      refine Nat.pos_of_ne_zero fun hk => hnext ?_
      rw [hp, show k = 0 from hk]
  have hprev : (n.buildAppendEntriesLocked v p).prevLogIndex = next - 1 := by
    simp only [RaftNode.buildAppendEntriesLocked, hget]
    split_ifs <;> omega
  have hterm : (n.buildAppendEntriesLocked v p).prevLogTerm = termAt n.log (next - 1) := by
    rw [← hprev]
    exact RaftNode.termAtLocked_eq n _
  rcases hcommitted with hzero | ⟨hle, hchosen⟩
  · exact Or.inl hzero
  refine Or.inr ?_
  rcases Nat.lt_or_ge n.log.length (next - 1) with hout | hin
  · -- past the end of the log
    refine Or.inl ⟨by omega, ?_⟩
    rw [hterm, termAt_of_length_lt hout]
  · refine Or.inr ⟨n.log, hgenuine, by rw [hterm, hprev], by omega, ?_, hle, hchosen⟩
    rw [hprev]
    simp only [RaftNode.buildAppendEntriesLocked, hget]
    split_ifs with hrange
    · rfl
    · rw [List.drop_of_length_le (by omega)]

omit [DecidableEq ι] in
/-- The heartbeat of a proposal. -/
theorem carriesCommit_notify {n : RaftNode ι} (v : ι) (hgenuine : Genuine w.llog n.log)
    (hcommitted : Committed w n) : CarriesCommit w (n.proposalHeartbeat v) := by
  rcases hcommitted with hzero | ⟨hle, hchosen⟩
  · exact Or.inl hzero
  · refine Or.inr (Or.inr ⟨n.log, hgenuine, RaftNode.termAtLocked_eq n _, le_rfl, ?_, hle, hchosen⟩)
    exact (List.drop_of_length_le le_rfl).symm

/-! ## Commit indices cover chosen prefixes -/

/-- A follower that stores a request keeps its chosen prefix, and takes over the
request's only with a log that has it. -/
theorem Committed.onAppendEntries (hS : w.Sound) {n : RaftNode ι} {req : AppendEntriesReq ι}
    (hgenuine : Genuine w.llog n.log) (hterm : n.currentTerm ≤ req.term)
    (hown : CarriesOwn w req) (hkeeps : req.msg.Stores n.log → req.msg.Keeps n.log)
    (hcarries : CarriesCommit w req) (h : Committed w n) :
    Committed w (n.onAppendEntries req).2 := by
  have happ := RaftNode.onAppendEntries_appended hterm
  set r := n.onAppendEntries req
  unfold Committed
  rw [happ.currentTerm, happ.commitIndex]
  split_ifs with hnew
  · -- the request's commit index
    obtain ⟨hsuccess, hlt⟩ := hnew
    obtain ⟨hprev, hpterm⟩ := happ.success.mp hsuccess
    right
    rcases hcarries with hzero | ⟨hpos, hzero⟩ | ⟨X, hX, hXterm, hXprev, hentries, hXle, hchosen⟩
    · omega
    · obtain ⟨k, hk⟩ := Nat.exists_eq_succ_of_ne_zero (Nat.ne_of_gt hpos)
      rw [hk] at hprev hpterm
      have hget : n.log[k]? = some n.log[k] := List.getElem?_eq_getElem hprev
      have hstamp := hS.elections.stamp_pos hS.first hgenuine hget
      rw [termAt_succ hget, hzero] at hpterm
      omega
    · have htake : n.log.take req.prevLogIndex = X.take req.prevLogIndex :=
        hgenuine.take_eq_of_termAt hX hprev hXprev (hpterm.trans hXterm)
      have hprefix : X <+: r.2.log := by
        rw [happ.log, Msg.store]
        split_ifs with hstores
        · show X <+: n.log.take req.prevLogIndex ++ req.entries
          rw [htake, hentries, List.take_append_drop]
        · have hnil : X.length ≤ req.prevLogIndex := by
            by_contra hlong
            refine hstores ⟨?_, hprev, hpterm⟩
            show req.entries ≠ []
            rw [hentries]
            exact List.ne_nil_of_length_pos (by rw [List.length_drop]; omega)
          rw [← List.take_of_length_le hnil, ← htake]
          exact List.take_prefix _ _
      have hlen := hprefix.length_le
      rw [Nat.min_eq_left (by omega)]
      obtain ⟨s, hs⟩ := hprefix
      refine ⟨by omega, ?_⟩
      rwa [← hs, List.take_append_of_le_length hXle]
  · -- the node's own
    rcases h with hzero | ⟨hle, hchosen⟩
    · exact Or.inl hzero
    right
    have hprefix : n.log.take n.commitIndex <+: r.2.log := by
      rw [happ.log]
      by_cases hstores : req.msg.Stores n.log
      · have hpiece := hown hstores.1
        have hled : w.leader req.term ≠ none := by
          intro hnone
          have hlast := hpiece.last_le hstores.1
          have hpos := List.length_pos_of_ne_nil hstores.1
          rw [hS.elections.unled _ hnone, List.length_nil, Msg.last] at hlast
          omega
        exact (hkeeps hstores).prefix_store hpiece (hS.matching.llog _) hgenuine hstores
          (List.take_prefix _ _)
          (World.Chosen.prefix_llog hS.complete hS.matching hchosen hterm hled)
      · rw [Msg.store, if_neg hstores]
        exact List.take_prefix _ _
    have hlen : (n.log.take n.commitIndex).length = n.commitIndex := List.length_take_of_le hle
    refine ⟨hlen ▸ hprefix.length_le, ?_⟩
    rw [List.prefix_iff_eq_take, hlen] at hprefix
    rw [← hprefix]
    exact hchosen.mono hterm

/-- A leader's advanced commit index. -/
theorem Committed.advanceCommitIndexLocked (hS : w.Sound) {cfg : Config ι} {v : ι}
    {n : RaftNode ι} (hmatched : Matched cfg w v n) (hrole : n.role = .leader)
    (hown : n.log = w.llog n.currentTerm) (hself : n.log.length ≤ w.stored v n.currentTerm)
    (h : Committed w n) : Committed w (n.advanceCommitIndexLocked (cfg.peers v)) := by
  unfold RaftNode.advanceCommitIndexLocked
  simp only
  split_ifs with hadvance
  · -- the match indices and the node's own last index, as a function of the node
    set f : ι → ℕ := fun u => if u = v then n.log.length else (n.matchIndex u).getD 0 with hf
    have hnot : v ∉ cfg.peers v := fun hv => (cfg.mem_peers v v).mp hv rfl
    have hvalues : n.matchValues (cfg.peers v) =
        ((v :: cfg.peers v).map f).insertionSort (· ≤ ·) := by
      have hmap : (cfg.peers v).filterMap n.matchIndex = (cfg.peers v).map f := by
        rw [List.filterMap_eq_map_iff_forall_eq_some]
        intro p hp
        obtain ⟨k, hk, -⟩ := hmatched hrole p hp
        have hne : p ≠ v := (cfg.mem_peers v p).mp hp
        simp [hf, hne, hk]
      rw [RaftNode.matchValues, hmap, List.map_cons]
      simp only [hf, if_true, RaftNode.lastLogIndexLocked]
    have hlen : (n.matchValues (cfg.peers v)).length = (v :: cfg.peers v).length := by
      rw [hvalues, List.length_insertionSort, List.length_map]
    obtain ⟨Q, hQ, hall⟩ := exists_half_le (List.nodup_cons.mpr ⟨hnot, cfg.nodup v⟩)
      (fun u => by by_cases hu : u = v <;> simp [hu, cfg.mem_peers]) f
    rw [← hvalues, ← hlen] at hall
    generalize (n.matchValues (cfg.peers v)).getD _ 0 = N at hadvance hall ⊢
    obtain ⟨hlt, hterm⟩ := hadvance
    have hstored : ∀ u ∈ Q, N ≤ w.stored u n.currentTerm := by
      intro u hu
      refine (hall u hu).trans ?_
      by_cases huv : u = v
      · subst huv
        simpa [hf] using hself
      · obtain ⟨k, hk, hle⟩ := hmatched hrole u ((cfg.mem_peers v u).mpr huv)
        simpa [hf, huv, hk] using hle
    have hle : N ≤ n.log.length := by
      have hcard := cfg.card_eq v
      obtain ⟨u, hu⟩ : Q.Nonempty := by
        rw [← Finset.card_pos]
        unfold Half at hQ
        omega
      rw [hown]
      exact (hstored u hu).trans (hS.complete.stored_le u _)
    right
    refine ⟨hle, n.currentTerm, le_rfl, N, Q, hQ, hstored, ?_, ?_⟩
    · obtain ⟨k, rfl⟩ := Nat.exists_eq_succ_of_ne_zero (by omega : N ≠ 0)
      have hget : n.log[k]? = some n.log[k] := List.getElem?_eq_getElem hle
      rw [RaftNode.termAtLocked_eq, termAt_succ hget] at hterm
      refine ⟨n.log[k], ?_, hterm⟩
      rw [World.pre, ← hown, Nat.succ_sub_one, List.getElem?_take_of_lt (Nat.lt_succ_self k), hget]
    · rw [World.pre, ← hown]
  · exact h

/-! ## Careful actions keep it -/

/-- A heartbeat's success counts only while the node still leads the request's term. -/
def RepliesInTerm (c : Cluster ι) : Action ι → Prop
  | .heartbeatReply v =>
    match c.heartbeat v with
    | .calling req _ _ (some resp) =>
      ¬ (c.nodes v).currentTerm < resp.term → resp.success = true →
        (c.nodes v).role = .leader ∧ (c.nodes v).currentTerm = req.term
    | _ => True
  | _ => True

/-- The action falls into none of the three gaps. -/
def Guarded (c : Cluster ι) (a : Action ι) : Prop := Careful c a ∧ RepliesInTerm c a

/-- The state of a leader in which it advances its commit index. -/
theorem Matched.reply (h : OrderlySim c w) {cfg : Config ι} {v p : ι} {req : AppendEntriesReq ι}
    {rest : List ι} {resp : AppendEntriesResp}
    (hth : c.heartbeat v = .calling req p rest (some resp)) (hsuccess : resp.success = true)
    (hterm : (c.nodes v).currentTerm = req.term) (hne : req.entries ≠ [])
    (hmatched : Matched cfg w v (c.nodes v)) :
    Matched cfg w v { c.nodes v with
      matchIndex := Function.update (c.nodes v).matchIndex p
        (some (req.prevLogIndex + req.entries.length))
      nextIndex := Function.update (c.nodes v).nextIndex p
        (some (req.prevLogIndex + req.entries.length + 1)) } := by
  intro hrole q hq
  by_cases hqp : q = p
  · subst hqp
    have hreply := h.sim.heartbeat v
    rw [hth] at hreply
    refine ⟨req.msg.last, Function.update_self _ _ _, ?_⟩
    show req.msg.last ≤ w.stored q (c.nodes v).currentTerm
    rw [hterm]
    exact hreply resp rfl hsuccess hne
  · obtain ⟨k, hk, hle⟩ := hmatched hrole q hq
    exact ⟨k, (Function.update_of_ne hqp _ _).trans hk, hle⟩

omit [Fintype ι] in
/-- What `HeartbeatLoop` makes of a success. -/
theorem heartbeatReply_eq {n : RaftNode ι} {peers : List ι} {req : AppendEntriesReq ι} {p : ι}
    {rest : List ι} {resp : AppendEntriesResp} (hterm : ¬ n.currentTerm < resp.term)
    (hsuccess : resp.success = true) :
    (n.heartbeatReply peers req p rest resp).1 =
      (if req.entries = [] then n else
        { n with
          matchIndex := Function.update n.matchIndex p
            (some (req.prevLogIndex + req.entries.length))
          nextIndex := Function.update n.nextIndex p
            (some (req.prevLogIndex + req.entries.length + 1)) }).advanceCommitIndexLocked
              peers := by
  rw [RaftNode.heartbeatReply, if_neg hterm, if_pos hsuccess]
  simp only [List.isEmpty_iff]

/-- How one node keeps its part of the invariant. -/
theorem Agreed.node_step {cfg : Config ι} (h : Agreed cfg c w) (hsim : OrderlySim c w)
    {a : Action ι} (hguarded : Guarded c a) {v : ι} {n : RaftNode ι}
    (hchange : NodeChange cfg c v a n) :
    Committed w n ∧ Matched cfg w v n ∧ ∀ p, n.nextIndex p ≠ some 0 := by
  have hcommitted := h.committed v
  have hmatched := h.matched v
  have hnext := h.nextIndex v
  cases hchange with
  | quiet hq =>
    refine ⟨hcommitted.congr (by rw [hq.log]) hq.commitIndex hq.currentTerm, fun hrole => ?_,
      fun p hp => hnext p (hq.nextIndex p hp)⟩
    obtain ⟨hold, hterm, hmatch⟩ := hq.leader hrole
    rw [hterm, hmatch]
    exact hmatched hold
  | elected =>
    refine ⟨hcommitted.congr List.prefix_rfl rfl le_rfl,
      fun _ p hp => ⟨0, if_pos hp, Nat.zero_le _⟩, fun p => ?_⟩
    simp only [RaftNode.becomeLeaderLocked]
    split_ifs
    · simp
    · exact hnext p
  | @received _ req hdel hterm =>
    have happ := RaftNode.onAppendEntries_appended hterm
    have hgenuine : Genuine w.llog (c.nodes v).log := by
      rw [← (hsim.sim.node v).log]
      exact hsim.sound.matching.log v
    have hholds := Cluster.holds_of_delivers hdel
    refine ⟨hcommitted.onAppendEntries hsim.sound hgenuine hterm (hsim.carried req hholds)
      (hguarded.1.2 (v, req) hdel hterm) (h.carried req hholds), fun hrole => ?_, fun p => ?_⟩
    · rw [happ.role] at hrole
      simp at hrole
    · rw [happ.nextIndex]
      exact hnext p
  | appended hrole =>
    exact ⟨hcommitted.congr (List.prefix_append _ _) rfl le_rfl, hmatched, hnext⟩
  | @replied req p rest resp hth hterm hsuccess =>
    have hin := hguarded.2
    simp only [RepliesInTerm, hth] at hin
    obtain ⟨hrole, hcur⟩ := hin hterm hsuccess
    obtain ⟨-, hown, hself⟩ := hsim.leads hrole
    rw [heartbeatReply_eq hterm hsuccess]
    -- the node once it recorded the peer's progress
    generalize hn₁ : (if req.entries = [] then c.nodes v else _ : RaftNode ι) = n₁
    obtain ⟨hcommitted₁, hmatched₁, hnext₁, hrole₁, hlog₁, hcur₁⟩ : Committed w n₁ ∧
        Matched cfg w v n₁ ∧ (∀ q, n₁.nextIndex q ≠ some 0) ∧ n₁.role = .leader ∧
        n₁.log = (c.nodes v).log ∧ n₁.currentTerm = (c.nodes v).currentTerm := by
      subst hn₁
      split_ifs with hempty
      · exact ⟨hcommitted, hmatched, hnext, hrole, rfl, rfl⟩
      · refine ⟨hcommitted.congr List.prefix_rfl rfl le_rfl,
          hmatched.reply hsim hth hsuccess hcur hempty, fun q => ?_, hrole, rfl, rfl⟩
        by_cases hqp : q = p
        · subst hqp
          simp
        · simpa only [Function.update_of_ne hqp] using hnext q
    obtain ⟨k, hk⟩ := n₁.advanceCommitIndexLocked_eq (cfg.peers v)
    refine ⟨hcommitted₁.advanceCommitIndexLocked hsim.sound hmatched₁ hrole₁ ?_ ?_, ?_, ?_⟩
    · rw [hlog₁, hcur₁, hown]
    · rwa [hlog₁, hcur₁]
    · rw [hk]
      exact hmatched₁
    · rw [hk]
      exact hnext₁

/-- Guarded actions keep the invariant. -/
theorem Agreed.step {cfg : Config ι} (h : Agreed cfg c w) (hsim : OrderlySim c w) {a : Action ι}
    (hguarded : Guarded c a) (hstep : c.step cfg a = some c') (hext : w.Extends w') :
    Agreed cfg c' w' := by
  have hnode := fun v => h.node_step hsim hguarded (Cluster.nodes_step hstep v)
  have hgenuine : ∀ v, Genuine w.llog (c.nodes v).log := by
    intro v
    rw [← (hsim.sim.node v).log]
    exact hsim.sound.matching.log v
  refine ⟨fun v => (hnode v).1.mono hext, fun v => (hnode v).2.1.mono hext, fun v => (hnode v).2.2,
    fun req hreq => ?_, fun v i e hv => ?_, fun v x hx => ?_⟩
  · rcases Cluster.holds_step hstep hreq with hold | ⟨hbuilt, -⟩
    · exact (h.carried req hold).mono hext
    · refine CarriesCommit.mono ?_ hext
      cases hbuilt with
      | @heartbeat v p hrole hreq =>
        subst hreq
        exact carriesCommit_build v (hgenuine v) (h.committed v) (h.nextIndex v p)
      | proposal hpr hreq =>
        subst hreq
        exact Or.inl rfl
      | @notify v i hreq =>
        subst hreq
        exact carriesCommit_notify v (hgenuine v) (h.committed v)
  · rcases Cluster.apply_step hstep hv with hold | ⟨hpos, hle, hget⟩
    · exact (h.held v i e hold).mono hext
    · -- the entry is in the committed prefix
      rcases h.committed v with hzero | ⟨-, hchosen⟩
      · omega
      · refine ChosenAt.mono ⟨_, _, hchosen, hpos, ?_⟩ hext
        rw [List.getElem?_take_of_lt (by omega), hget]
  · rcases Cluster.applied_step hstep hx with hold | hheld
    · exact (h.applied v x hold).mono hext
    · exact (h.held v x.1 x.2 hheld).mono hext

omit [DecidableEq ι] in
theorem Agreed.init (cfg : Config ι) : Agreed cfg (Cluster.init : Cluster ι) World.init := by
  refine ⟨fun _ => Or.inl rfl, fun _ h => by simp [Cluster.init] at h,
    fun _ _ => by simp [Cluster.init], fun req h => ?_, fun _ _ _ h => by simp [Cluster.init] at h,
    fun _ _ h => by simp [Cluster.init] at h⟩
  rcases h with ⟨v, hv⟩ | ⟨v, pr, hpr, -⟩
  · simp [Cluster.init, HeartbeatThread.req?] at hv
  · simp [Cluster.init] at hpr

/-! ## State machine safety -/

/-- **State machine safety.** In every guarded run, if two nodes apply an entry at one
index, they apply the same entry. -/
theorem stateMachineSafety {cfg : Config ι} {c : Cluster ι}
    (h : Cluster.Runs cfg Guarded Cluster.init c) {a b : ι} {i : ℕ} {x y : LogEntry}
    (hx : (i, x) ∈ c.applied a) (hy : (i, y) ∈ c.applied b) : x = y := by
  obtain ⟨w, -, hsim, hagreed⟩ : ∃ w, World.init.Extends w ∧ OrderlySim c w ∧ Agreed cfg c w :=
    OrderlySim.runs (fun _ _ h => h.1)
      (fun _ _ _ _ _ h hP hstep hext _ hI => hI.step h hP hstep hext) h OrderlySim.init
      (Agreed.init cfg)
  exact (hagreed.applied a _ hx).eq hsim.sound (hagreed.applied b _ hy)

end

instance (c : Cluster ι) (a : Action ι) : Decidable (RepliesInTerm c a) :=
  match a with
  | .heartbeatReply v =>
    show Decidable (match c.heartbeat v with
      | .calling req _ _ (some resp) => ¬ (c.nodes v).currentTerm < resp.term →
        resp.success = true → (c.nodes v).role = .leader ∧ (c.nodes v).currentTerm = req.term
      | _ => True) from
    match c.heartbeat v with
    | .calling _ _ _ (some _) => inferInstanceAs (Decidable (_ → _ → _ ∧ _))
    | .sleeping | .building _ _ | .calling _ _ _ none => isTrue trivial
  | .electionTimeout _ | .startElection _ | .deliverVote _ | .loseVote _ | .voteReply _
  | .heartbeatTick _ | .heartbeatBuild _ | .deliverHeartbeat _ | .loseHeartbeat _
  | .proposePut _ _ _ | .proposeDel _ _ | .proposalRead _ _ | .deliverProposal _ _
  | .loseProposal _ _ | .proposalReply _ _ | .proposalCommit _ _ | .deliverNotify _ _
  | .loseNotify _ _ | .notifyReply _ _ | .applyTake _ | .applyRun _ => isTrue trivial

instance (c : Cluster ι) (a : Action ι) : Decidable (Guarded c a) :=
  inferInstanceAs (Decidable (_ ∧ _))

/-- A put on node 0 reaches the others with heartbeats, and nodes 0 and 2 apply it. -/
def appliedPut : List (Action (Fin 3)) :=
  electZero ++
    [.proposePut 0 (str "a") (str "1"), .heartbeatTick 0, .heartbeatBuild 0, .deliverHeartbeat 0,
      .heartbeatReply 0, .heartbeatBuild 0, .deliverHeartbeat 0, .applyTake 0, .applyRun 0,
      .applyTake 2, .applyRun 2]

/-- The theorem at that put. -/
theorem stateMachineSafety_appliedPut :
    let c := (Cluster.init.run Config.three Guarded appliedPut).getD Cluster.init
    c.applied 0 = [(1, ⟨1, .put, str "a", str "1"⟩)] ∧
      ∀ y, (1, y) ∈ c.applied 2 → ⟨1, .put, str "a", str "1"⟩ = y := by
  have hzero : ((Cluster.init.run Config.three Guarded appliedPut).getD Cluster.init).applied 0 =
      [(1, ⟨1, .put, str "a", str "1"⟩)] := by decide +kernel
  refine ⟨hzero, fun y hy => ?_⟩
  exact stateMachineSafety (.of_isSome (by decide +kernel)) (hzero ▸ List.mem_singleton_self _) hy

/-! ## Two proposals at once -/

/-- As `concurrentProposals`, but the leader commits both entries with the help of node 2
before the first proposal sends its entry for the second one's index; the heartbeat of
that proposal commits it on node 1. Nodes 0 and 1 apply what they have. -/
def appliedTwice : List (Action (Fin 3)) :=
  electZero ++
    [.proposePut 0 (str "a") (str "1"), .heartbeatTick 0, .heartbeatBuild 0, .deliverHeartbeat 0,
      .heartbeatReply 0, .proposePut 0 (str "b") (str "2"), .heartbeatBuild 0, .deliverHeartbeat 0,
      .heartbeatReply 0, .proposalRead 0 0, .deliverProposal 0 0, .proposalReply 0 0,
      .proposalCommit 0 0, .deliverNotify 0 0, .applyTake 0, .applyRun 0, .applyTake 0, .applyRun 0,
      .applyTake 1, .applyRun 1, .applyTake 1, .applyRun 1]

/-- Without those conditions nodes can apply different entries: node 0 applies the second
entry at index 2, and node 1 the first one again. -/
theorem not_stateMachineSafety :
    ¬ ∀ (c : Cluster (Fin 3)) (a b : Fin 3) (i : ℕ) (x y : LogEntry),
      Cluster.Runs Config.three (fun _ _ => True) Cluster.init c →
      (i, x) ∈ c.applied a → (i, y) ∈ c.applied b → x = y := by
  intro hall
  have heq := hall
    ((Cluster.init.run Config.three (fun _ _ => True) appliedTwice).getD Cluster.init) 0 1 2
    ⟨1, .put, str "b", str "2"⟩ ⟨1, .put, str "a", str "1"⟩ (.of_isSome (by decide +kernel))
    (by decide +kernel) (by decide +kernel)
  revert heq
  decide +kernel

end KvEngine
