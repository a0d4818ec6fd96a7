import KvEngine.Raft.Agreement
import KvEngine.Raft.Speakers

/-!
# The indices of a node

`last_applied_ <= commit_index_ <= log_.size()`, as `ApplyLoop` (lines 493–519) relies on
when it reads `log_[last_applied_]`. The one statement that shortens a log is the
truncation in `OnAppendEntries`, which does not look at the commit index; as long as what
it stores reaches that far the indices stay in order.

Results:
* `inOrder`: in every run in which stored requests reach the commit index of the node that
  stores them, the indices of every node are in order and no commit index goes down.
* `not_inOrder`: a proposal that is delivered late cuts a log below its commit index.
-/

namespace KvEngine

open Consensus

variable {ι : Type}

/-- The indices of a node are in order. -/
structure RaftNode.InOrder (n : RaftNode ι) : Prop where
  applied : n.lastApplied ≤ n.commitIndex
  committed : n.commitIndex ≤ n.log.length

/-- The entry `ApplyLoop` takes next is there. -/
theorem RaftNode.InOrder.next {n : RaftNode ι} (h : n.InOrder)
    (hlt : n.lastApplied < n.commitIndex) : n.lastApplied < n.log.length :=
  hlt.trans_le h.committed

/-! ## One node -/

/-- A follower's indices after a request that reaches its commit index. -/
theorem RaftNode.Appended.commitIndex_le {n n' : RaftNode ι} {req : AppendEntriesReq ι}
    {resp : AppendEntriesResp} (h : n.Appended req resp n') (hle : n.commitIndex ≤ n.log.length)
    (hpast : req.msg.Stores n.log → n.commitIndex ≤ req.msg.last) :
    n.commitIndex ≤ n'.commitIndex ∧ n'.commitIndex ≤ n'.log.length := by
  have hlen : n.commitIndex ≤ n'.log.length := by
    rw [h.log]
    by_cases hstores : req.msg.Stores n.log
    · rw [Msg.length_store hstores]
      exact hpast hstores
    · rwa [Msg.store, if_neg hstores]
  rw [h.commitIndex]
  split_ifs with hcommit
  · exact ⟨le_min hcommit.2.le hlen, min_le_right _ _⟩
  · exact ⟨le_rfl, hlen⟩

/-- A leader's indices after it advanced its commit index. -/
theorem RaftNode.advanceCommitIndexLocked_le {n : RaftNode ι} {peers : List ι}
    (hterm : 0 < n.currentTerm) (hle : n.commitIndex ≤ n.log.length) :
    n.commitIndex ≤ (n.advanceCommitIndexLocked peers).commitIndex ∧
      (n.advanceCommitIndexLocked peers).commitIndex ≤ n.log.length := by
  unfold RaftNode.advanceCommitIndexLocked
  simp only
  generalize (n.matchValues peers).getD _ 0 = N
  split_ifs with hadvance
  · obtain ⟨hlt, hat⟩ := hadvance
    refine ⟨hlt.le, ?_⟩
    -- behind the end of the log there is no term
    by_contra hlong
    obtain ⟨k, rfl⟩ := Nat.exists_eq_succ_of_ne_zero (by omega : N ≠ 0)
    have hlen : n.log.length ≤ k := Nat.le_of_lt_succ (Nat.not_le.mp hlong)
    have hnone : n.log[k]? = none := List.getElem?_eq_none hlen
    have hzero : n.termAtLocked k.succ = 0 := by
      simp only [termAtLocked, Nat.succ_ne_zero, if_false, Nat.succ_sub_one, hnone]
    rw [hzero] at hat
    omega
  · exact ⟨le_rfl, hle⟩

/-- A success makes `HeartbeatLoop` record it and advance the commit index. -/
theorem exists_advance [DecidableEq ι] {n : RaftNode ι} (peers : List ι)
    {req : AppendEntriesReq ι} {p : ι} {rest : List ι} {resp : AppendEntriesResp}
    (hterm : ¬ n.currentTerm < resp.term) (hsuccess : resp.success = true) :
    ∃ n₁ : RaftNode ι,
      (n.heartbeatReply peers req p rest resp).1 = n₁.advanceCommitIndexLocked peers ∧
      n₁.commitIndex = n.commitIndex ∧ n₁.log = n.log ∧ n₁.currentTerm = n.currentTerm ∧
      n₁.lastApplied = n.lastApplied := by
  refine ⟨_, heartbeatReply_eq hterm hsuccess, ?_⟩
  split_ifs <;> exact ⟨rfl, rfl, rfl, rfl⟩

/-! ## The cluster -/

section

variable [DecidableEq ι]

/-- A request whose entries are stored reaches at least as far as the commit index of the
node that stores them. -/
def StoresPastCommit (c : Cluster ι) (a : Action ι) : Prop :=
  ∀ d ∈ c.delivers? a, (c.nodes d.1).currentTerm ≤ d.2.term →
    d.2.msg.Stores (c.nodes d.1).log → (c.nodes d.1).commitIndex ≤ d.2.msg.last

instance (c : Cluster ι) (a : Action ι) : Decidable (StoresPastCommit c a) := by
  unfold StoresPastCommit
  infer_instance

variable {cfg : Config ι} {c c' : Cluster ι} {a : Action ι} {v : ι}

/-- Terms grow, and what is applied was committed. -/
theorem NodeChange.grows {n : RaftNode ι} (h : NodeChange cfg c v a n) :
    (c.nodes v).currentTerm ≤ n.currentTerm ∧
      (n.lastApplied = (c.nodes v).lastApplied ∨
        (c.nodes v).lastApplied < (c.nodes v).commitIndex ∧
          n.lastApplied = (c.nodes v).lastApplied + 1) := by
  cases h with
  | quiet hq => exact ⟨hq.currentTerm, hq.lastApplied⟩
  | elected => exact ⟨le_rfl, Or.inl rfl⟩
  | received hdel hterm =>
    have happ := RaftNode.onAppendEntries_appended hterm
    exact ⟨happ.currentTerm ▸ hterm, Or.inl happ.lastApplied⟩
  | appended hrole => exact ⟨le_rfl, Or.inl rfl⟩
  | replied hth hterm hsuccess =>
    obtain ⟨n₁, heq, -, -, hcur, happlied⟩ := exists_advance (cfg.peers v) hterm hsuccess
    obtain ⟨k, hk⟩ := n₁.advanceCommitIndexLocked_eq (cfg.peers v)
    rw [heq, hk]
    exact ⟨hcur.ge, Or.inl happlied⟩

/-- How an action changes the commit index and the log. -/
theorem NodeChange.commitIndex_le {n : RaftNode ι} (h : NodeChange cfg c v a n)
    (hpast : StoresPastCommit c a) (hbeat : c.heartbeat v ≠ .sleeping → 0 < (c.nodes v).currentTerm)
    (hle : (c.nodes v).commitIndex ≤ (c.nodes v).log.length) :
    (c.nodes v).commitIndex ≤ n.commitIndex ∧ n.commitIndex ≤ n.log.length := by
  cases h with
  | quiet hq =>
    rw [hq.commitIndex, hq.log]
    exact ⟨le_rfl, hle⟩
  | elected => exact ⟨le_rfl, hle⟩
  | @received _ req hdel hterm =>
    exact (RaftNode.onAppendEntries_appended hterm).commitIndex_le hle (hpast (v, req) hdel hterm)
  | appended hrole =>
    refine ⟨le_rfl, hle.trans ?_⟩
    simp only [RaftNode.propose, List.length_append]
    omega
  | replied hth hterm hsuccess =>
    have hpos : 0 < (c.nodes v).currentTerm := hbeat (by rw [hth]; simp)
    obtain ⟨n₁, heq, hcommit, hlog, hcur, -⟩ :=
      exists_advance (cfg.peers v) hterm hsuccess
    have hbound : n₁.commitIndex ≤ (n₁.advanceCommitIndexLocked (cfg.peers v)).commitIndex ∧
        (n₁.advanceCommitIndexLocked (cfg.peers v)).commitIndex ≤ n₁.log.length :=
      RaftNode.advanceCommitIndexLocked_le (by rwa [hcur]) (by rwa [hcommit, hlog])
    obtain ⟨k, hk⟩ := n₁.advanceCommitIndexLocked_eq (cfg.peers v)
    rw [heq]
    rw [hcommit, hk] at hbound
    rw [hk]
    exact hbound

/-- The indices of every node are in order, and who has a heartbeat round under way has a
term. -/
structure IndicesInOrder (c : Cluster ι) : Prop where
  node : ∀ v, (c.nodes v).InOrder
  beating : ∀ v, c.heartbeat v ≠ .sleeping → 0 < (c.nodes v).currentTerm

omit [DecidableEq ι] in
theorem IndicesInOrder.init : IndicesInOrder (Cluster.init : Cluster ι) :=
  ⟨fun _ => ⟨le_rfl, le_rfl⟩, fun _ h => absurd rfl h⟩

theorem IndicesInOrder.step (h : IndicesInOrder c) (hpast : StoresPastCommit c a)
    (hleads : ∀ u, (c.nodes u).role = .leader → 0 < (c.nodes u).currentTerm)
    (hstep : c.step cfg a = some c') :
    IndicesInOrder c' ∧ ∀ v, (c.nodes v).commitIndex ≤ (c'.nodes v).commitIndex := by
  have hbound := fun v => (Cluster.nodes_step hstep v).commitIndex_le hpast (h.beating v)
    (h.node v).committed
  refine ⟨⟨fun v => ⟨?_, (hbound v).2⟩, fun v hv => ?_⟩, fun v => (hbound v).1⟩
  · obtain ⟨-, happlied⟩ := (Cluster.nodes_step hstep v).grows
    have hle := (h.node v).applied
    have hcommit := (hbound v).1
    omega
  · have hpos : 0 < (c.nodes v).currentTerm := by
      have hth := Cluster.heartbeat_step hstep v
      generalize c'.heartbeat v = th at hth hv
      cases hth with
      | same => exact h.beating v hv
      | tick hrole => exact hleads v hrole
      | build hold => exact h.beating v (by rw [hold]; simp)
      | answered hold => exact h.beating v (by rw [hold]; simp)
      | reply hold => exact h.beating v (by rw [hold]; simp)
    exact hpos.trans_le (Cluster.nodes_step hstep v).grows.1

variable [Fintype ι]

/-- Nobody leads term 0. -/
theorem Cluster.Runs.leader_pos {P : Cluster ι → Action ι → Prop}
    (hruns : Cluster.Runs cfg P Cluster.init c) (hrole : (c.nodes v).role = .leader) :
    0 < (c.nodes v).currentTerm := by
  obtain ⟨w, hE, hzero, hsim⟩ : ∃ w : World ι LogEntry,
      w.Elections ∧ (∀ u, w.standing u 0 = none) ∧ Sim c w := by
    clear hrole
    induction hruns with
    | start => exact ⟨World.init, World.Elections.init, fun _ => rfl, Sim.init⟩
    | step a _ _ hstep ih =>
      obtain ⟨w, hE, hzero, hsim⟩ := ih
      obtain ⟨u, w', hrun, hsim'⟩ : ∃ u w', World.Run (fun _ _ => True) u w w' ∧ Sim _ w' :=
        hsim.step (fun _ _ _ => trivial) cfg hE hstep (fun _ _ _ _ => trivial)
      have hkeeps : ∀ Inv : World ι LogEntry → Prop, (∀ w ev, Inv w → Inv (w.apply ev)) →
          Inv w → Inv w' :=
        fun _ hInv hw => hrun.preserves (fun w ev _ _ _ => hInv w ev) hE hw
      exact ⟨w', hrun.elections hE, hkeeps (fun w => ∀ u, w.standing u 0 = none)
        (fun _ ev hz => World.standing_zero_apply hz ev) hzero, hsim'⟩
  by_contra hterm
  have hleader := hsim.leads hE hrole
  rw [Nat.eq_zero_of_not_pos hterm, hE.leader_zero hzero] at hleader
  simp at hleader

theorem Cluster.Runs.indicesInOrder (hruns : Cluster.Runs cfg StoresPastCommit Cluster.init c) :
    IndicesInOrder c := by
  induction hruns with
  | start => exact IndicesInOrder.init
  | step a hruns hP hstep ih => exact (ih.step hP (fun _ => hruns.leader_pos) hstep).1

/-- **Indices in order.** In every run of a cluster of any size in which requests that are
stored reach the commit index of the node that stores them, `last_applied_`,
`commit_index_` and the size of the log are in order on every node, the entry `ApplyLoop`
takes is there, and no further such action lowers a commit index. -/
theorem inOrder (hruns : Cluster.Runs cfg StoresPastCommit Cluster.init c) :
    (∀ v, (c.nodes v).lastApplied ≤ (c.nodes v).commitIndex ∧
      (c.nodes v).commitIndex ≤ (c.nodes v).log.length ∧
      ((c.nodes v).lastApplied < (c.nodes v).commitIndex →
        (c.nodes v).lastApplied < (c.nodes v).log.length)) ∧
    ∀ a c', StoresPastCommit c a → c.step cfg a = some c' →
      ∀ v, (c.nodes v).commitIndex ≤ (c'.nodes v).commitIndex := by
  have hinorder := hruns.indicesInOrder
  refine ⟨fun v => ⟨(hinorder.node v).applied, (hinorder.node v).committed,
    (hinorder.node v).next⟩, fun a c' hP hstep => ?_⟩
  exact (hinorder.step hP (fun _ => hruns.leader_pos) hstep).2

end

/-- The theorem at a put that two nodes commit and apply. -/
theorem inOrder_appliedPut :
    let c := (Cluster.init.run Config.three StoresPastCommit appliedPut).getD Cluster.init
    (c.nodes 2).commitIndex = 1 ∧ (c.nodes 2).commitIndex ≤ (c.nodes 2).log.length := by
  have hcommit : (((Cluster.init.run Config.three StoresPastCommit appliedPut).getD
      Cluster.init).nodes 2).commitIndex = 1 := by decide +kernel
  exact ⟨hcommit, ((inOrder (.of_isSome (by decide +kernel))).1 2).2.1⟩

/-! ## A late proposal -/

/-- A heartbeat round of node 0. -/
def beat : List (Action (Fin 3)) :=
  [.heartbeatTick 0, .heartbeatBuild 0, .deliverHeartbeat 0, .heartbeatReply 0, .heartbeatBuild 0,
    .loseHeartbeat 0, .heartbeatReply 0]

/-- Node 0 leads; the request of its first proposal to node 1 is under way while heartbeats
bring node 1 two entries and the commit index 2; then the request arrives. -/
def lateProposal : List (Action (Fin 3)) :=
  electZero ++ [.proposePut 0 (str "a") (str "1"), .proposalRead 0 0] ++ beat ++
    [.proposePut 0 (str "b") (str "2")] ++ beat ++ beat ++ [.deliverProposal 0 0]

/-- Without that condition the indices get out of order: node 1 has the commit index 2 and
one entry. -/
theorem not_inOrder :
    ¬ ∀ c : Cluster (Fin 3), Cluster.Runs Config.three (fun _ _ => True) Cluster.init c →
      ∀ v, (c.nodes v).lastApplied ≤ (c.nodes v).commitIndex ∧
        (c.nodes v).commitIndex ≤ (c.nodes v).log.length := by
  intro hall
  have hle := (hall
    ((Cluster.init.run Config.three (fun _ _ => True) lateProposal).getD Cluster.init)
    (.of_isSome (by decide +kernel)) 1).2
  revert hle
  decide +kernel

end KvEngine
