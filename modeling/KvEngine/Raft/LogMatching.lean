import KvEngine.Raft.Simulation

/-!
# Log matching in the cluster

The requests in flight carry pieces of genuine logs, as long as a proposal reads its
index and previous term while its entry is the last one of the log. It need not be:
the entry is appended in one critical section and the index read in another.

Results:
* `Cluster.holds_step`: where the requests in flight come from.
* `logMatching`: in every run in which proposals read while their entry is last, logs
  match.
* `not_logsMatch_concurrentProposals`: two concurrent proposals on one leader leave
  logs that do not.
-/

namespace KvEngine

open Consensus

variable {ι : Type}

/-! ## Requests in flight -/

/-- The request the thread holds. -/
def HeartbeatThread.req? : HeartbeatThread ι → Option (AppendEntriesReq ι)
  | .calling req _ _ _ => some req
  | _ => none

/-- The request the proposal holds. -/
def ProposalPhase.req? : ProposalPhase ι → Option (AppendEntriesReq ι)
  | .replicating req _ _ _ _ => some req
  | .notifying req _ _ _ => some req
  | _ => none

theorem req?_replicate {peers rest : List ι} {req req' : AppendEntriesReq ι} {acks : ℕ}
    (h : (RaftNode.replicate peers req acks rest).req? = some req') : req = req' := by
  cases rest with
  | nil =>
    unfold RaftNode.replicate at h
    split_ifs at h <;> simp [ProposalPhase.req?] at h
  | cons p ps => exact Option.some.inj h

theorem req?_notify {rest : List ι} {req req' : AppendEntriesReq ι}
    (h : (RaftNode.notify req rest).req? = some req') : req = req' := by
  cases rest with
  | nil => simp [RaftNode.notify, ProposalPhase.req?] at h
  | cons p ps => exact Option.some.inj h

theorem req?_nextBeat (rest : List ι) : (RaftNode.nextBeat rest).req? = none := by
  cases rest <;> rfl

namespace Cluster

/-- Some thread holds the request: it is in flight, or was and its reply is. -/
def Holds (c : Cluster ι) (req : AppendEntriesReq ι) : Prop :=
  (∃ v, (c.heartbeat v).req? = some req) ∨ ∃ v, ∃ pr ∈ c.proposals v, pr.phase.req? = some req

theorem holds_of_heartbeat {c : Cluster ι} {v : ι} {th : HeartbeatThread ι}
    {req : AppendEntriesReq ι} (h : c.heartbeat v = th) (hreq : th.req? = some req) :
    c.Holds req :=
  Or.inl ⟨v, h ▸ hreq⟩

theorem holds_of_phase {c : Cluster ι} {v : ι} {i : ℕ} {ph : ProposalPhase ι}
    {req : AppendEntriesReq ι} (h : c.phase? v i = some ph) (hreq : ph.req? = some req) :
    c.Holds req := by
  obtain ⟨pr, hpr, rfl⟩ := Option.map_eq_some_iff.mp h
  exact Or.inr ⟨v, pr, List.mem_of_getElem? hpr, hreq⟩

variable [DecidableEq ι] {c : Cluster ι} {req : AppendEntriesReq ι}

theorem Holds.of_setHeartbeat {v : ι} {th : HeartbeatThread ι}
    (h : (c.setHeartbeat v th).Holds req) : c.Holds req ∨ th.req? = some req := by
  rcases h with ⟨u, hu⟩ | h
  · by_cases huv : u = v
    · subst huv
      simp only [setHeartbeat, Function.update_self] at hu
      exact Or.inr hu
    · simp only [setHeartbeat, Function.update_of_ne huv] at hu
      exact Or.inl (Or.inl ⟨u, hu⟩)
  · exact Or.inl (Or.inr h)

theorem Holds.of_setPhase {v : ι} {i : ℕ} {ph : ProposalPhase ι}
    (h : (c.setPhase v i ph).Holds req) : c.Holds req ∨ ph.req? = some req := by
  rcases h with h | ⟨u, pr, hpr, hreq⟩
  · exact Or.inl (Or.inl h)
  · by_cases huv : u = v
    · subst huv
      simp only [setPhase, Function.update_self] at hpr
      obtain ⟨j, hj⟩ := List.getElem?_of_mem hpr
      rw [List.getElem?_modify, Option.map_eq_map, Option.map_eq_some_iff] at hj
      obtain ⟨pr', hpr', rfl⟩ := hj
      split_ifs at hreq with hij
      · exact Or.inr hreq
      · exact Or.inl (Or.inr ⟨u, pr', List.mem_of_getElem? hpr', hreq⟩)
    · simp only [setPhase, Function.update_of_ne huv] at hpr
      exact Or.inl (Or.inr ⟨u, pr, hpr, hreq⟩)

theorem Holds.of_propose {v : ι} {n : RaftNode ι} {op : OpType} {key value : Bytes}
    (h : (c.propose v (n.propose op key value)).Holds req) : c.Holds req := by
  unfold propose at h
  split_ifs at h
  · rcases h with h | ⟨u, pr, hpr, hreq⟩
    · exact Or.inl h
    · by_cases huv : u = v
      · subst huv
        simp only [Function.update_self] at hpr
        rcases List.mem_append.mp hpr with hpr | hpr
        · exact Or.inr ⟨u, pr, hpr, hreq⟩
        · obtain rfl := List.mem_singleton.mp hpr
          simp [RaftNode.propose, ProposalPhase.req?] at hreq
      · simp only [Function.update_of_ne huv] at hpr
        exact Or.inr ⟨u, pr, hpr, hreq⟩
  · exact h

/-- A request in flight was so before, or is the one the action builds. -/
inductive Built (c : Cluster ι) (req : AppendEntriesReq ι) : Action ι → Prop where
  | heartbeat {v p : ι} (hrole : (c.nodes v).role = .leader)
      (hreq : req = (c.nodes v).buildAppendEntriesLocked v p) : Built c req (.heartbeatBuild v)
  | proposal {v : ι} {i : ℕ} {pr : Proposal ι} (hpr : (c.proposals v)[i]? = some pr)
      (hreq : req = (c.nodes v).proposalRequest v pr.entry) : Built c req (.proposalRead v i)
  | notify {v : ι} {i : ℕ} (hreq : req = (c.nodes v).proposalHeartbeat v) :
      Built c req (.proposalCommit v i)

/-- Where the requests in flight come from; building one changes no node. -/
theorem holds_step {cfg : Config ι} {a : Action ι} {c' : Cluster ι}
    (hstep : c.step cfg a = some c') (h : c'.Holds req) :
    c.Holds req ∨ (Built c req a ∧ c'.nodes = c.nodes) := by
  cases step_inv hstep with
  | leads hth hrole => exact Or.inl h
  | electionTimeout hth hrole => exact Or.inl h
  | startElection hth => exact Or.inl h
  | deliverVote hth => exact Or.inl h
  | loseVote hth => exact Or.inl h
  | voteReply hth => exact Or.inl h
  | heartbeatTick hth hrole =>
    exact Or.inl (h.of_setHeartbeat.resolve_right (by simp [req?_nextBeat]))
  | idleTick hth hrole => exact Or.inl h
  | heartbeatBuild hth =>
    refine h.of_setHeartbeat.imp_right fun hreq => ?_
    unfold RaftNode.heartbeatBuild at hreq
    split_ifs at hreq with hrole
    · simp [HeartbeatThread.req?] at hreq
    · exact ⟨.heartbeat (not_not.mp hrole) (Option.some.inj hreq).symm, rfl⟩
  | deliverHeartbeat hth =>
    exact Or.inl ((h.of_setHeartbeat).elim id fun hreq => holds_of_heartbeat hth hreq)
  | loseHeartbeat hth =>
    exact Or.inl ((h.of_setHeartbeat).elim id fun hreq => holds_of_heartbeat hth hreq)
  | heartbeatReply hth =>
    refine Or.inl (h.of_setHeartbeat.resolve_right ?_)
    unfold RaftNode.heartbeatReply
    split_ifs
    · simp [HeartbeatThread.req?]
    all_goals simp [req?_nextBeat]
  | proposePut => exact Or.inl h.of_propose
  | proposeDel => exact Or.inl h.of_propose
  | proposalRead hpr =>
    exact h.of_setPhase.imp_right fun hreq => ⟨.proposal hpr (req?_replicate hreq).symm, rfl⟩
  | deliverProposal hph =>
    exact Or.inl ((h.of_setPhase).elim id fun hreq => holds_of_phase hph hreq)
  | loseProposal hph =>
    exact Or.inl ((h.of_setPhase).elim id fun hreq => holds_of_phase hph hreq)
  | @proposalReply v p i acks req' rest resp hph =>
    refine Or.inl ((h.of_setPhase).elim id fun hreq => holds_of_phase hph ?_)
    unfold RaftNode.proposalReply at hreq
    by_cases hrole : (c.nodes v).role = .leader
    · rw [if_neg (not_not.mpr hrole)] at hreq
      by_cases hnew : (c.nodes v).currentTerm < resp.term
      · simp [if_pos hnew, ProposalPhase.req?] at hreq
      · rw [if_neg hnew] at hreq
        simp only at hreq
        by_cases hneeded : RaftNode.needed (cfg.peers v) ≤
            if resp.success = true then acks + 1 else acks
        · simp [if_pos hneeded, ProposalPhase.req?] at hreq
        · rw [if_neg hneeded] at hreq
          exact congrArg some (req?_replicate hreq)
    · simp [if_pos hrole, ProposalPhase.req?] at hreq
  | proposalCommit hph =>
    exact h.of_setPhase.imp_right fun hreq => ⟨.notify (req?_notify hreq).symm, rfl⟩
  | deliverNotify hph =>
    exact Or.inl ((h.of_setPhase).elim id fun hreq => holds_of_phase hph hreq)
  | loseNotify hph =>
    exact Or.inl ((h.of_setPhase).elim id fun hreq => holds_of_phase hph hreq)
  | notifyReply hph =>
    refine Or.inl ((h.of_setPhase).elim id fun hreq => holds_of_phase hph ?_)
    unfold RaftNode.notifyReply at hreq
    split_ifs at hreq
    · simp [ProposalPhase.req?] at hreq
    · exact congrArg some (req?_notify hreq)
  | applyTake hth hlt hget => exact Or.inl h
  | idleTake hth hle => exact Or.inl h
  | applyRun hth => exact Or.inl h

end Cluster

/-! ## What new requests carry -/

/-- A heartbeat carries the rest of the log from the peer's next index on. -/
theorem RaftNode.buildAppendEntriesLocked_pieceOf [DecidableEq ι] (n : RaftNode ι) (v p : ι)
    (hne : (n.buildAppendEntriesLocked v p).entries ≠ []) :
    (n.buildAppendEntriesLocked v p).msg.PieceOf n.log := by
  unfold RaftNode.buildAppendEntriesLocked at hne ⊢
  simp only at hne ⊢
  set next := (n.nextIndex p).getD 1 with hnext
  split_ifs at hne with hrange
  · have hprev : (if next = 0 ∨ next = 1 then 0 else next - 1) = next - 1 := by
      split_ifs <;> omega
    refine ⟨termAtLocked_eq n _, ?_⟩
    simp only [AppendEntriesReq.msg, hprev, if_pos hrange]
    exact List.prefix_rfl
  · exact absurd rfl hne

/-- A proposal that reads while its entry is the last one carries that one. -/
theorem RaftNode.proposalRequest_pieceOf {n : RaftNode ι} {v : ι} {e : LogEntry}
    (hlast : n.log.getLast? = some e) : (n.proposalRequest v e).msg.PieceOf n.log := by
  have hpos : n.log ≠ [] := by
    rintro hnil
    simp [hnil] at hlast
  have hlen := List.length_pos_of_ne_nil hpos
  have hprev : (n.proposalRequest v e).msg.prev = n.log.length - 1 :=
    if_neg (show ¬ n.log.length = 0 by omega)
  refine ⟨?_, ?_⟩
  · rw [hprev]
    show n.termAtLocked (n.proposalRequest v e).msg.prev = _
    rw [hprev, termAtLocked_eq]
  · have hdrop : n.log.drop (n.log.length - 1) = [e] := by
      rw [List.drop_length_sub_one hpos]
      rw [List.getLast?_eq_some_getLast hpos] at hlast
      rw [Option.some.inj hlast]
    rw [hprev, hdrop]
    exact List.prefix_rfl

/-! ## Log matching -/

/-- A proposal reads its index and previous term while its entry is the last one. -/
def ProposesLast [DecidableEq ι] (c : Cluster ι) : Action ι → Prop
  | .proposalRead v i =>
    ∀ pr ∈ (c.proposals v)[i]?, (c.nodes v).log.getLast? = some pr.entry
  | _ => True

/-- Logs with entries of one term at one index agree up to it. -/
def Cluster.LogsMatch (c : Cluster ι) : Prop :=
  ∀ (u v : ι) (k : ℕ) (e e' : LogEntry), (c.nodes u).log[k]? = some e →
    (c.nodes v).log[k]? = some e' → e.term = e'.term →
      (c.nodes u).log.take (k + 1) = (c.nodes v).log.take (k + 1)

/-- A request in flight that carries anything carries a piece of a genuine log. -/
def CarriesGenuine (w : World ι LogEntry) (req : AppendEntriesReq ι) : Prop :=
  req.entries ≠ [] →
    ∃ L, Genuine w.llog L ∧ req.msg.PieceOf L ∧ ∀ e ∈ req.entries, e.term ≤ req.term

theorem CarriesGenuine.mono {w w' : World ι LogEntry} {req : AppendEntriesReq ι}
    (h : CarriesGenuine w req) (hext : w.Extends w') : CarriesGenuine w' req := by
  intro hne
  obtain ⟨L, hL, hpiece, hle⟩ := h hne
  exact ⟨L, hL.mono hext.llog, hpiece, hle⟩

section

variable [DecidableEq ι] [Fintype ι]

omit [DecidableEq ι] [Fintype ι] in
/-- Only deliveries can be untidy. -/
theorem tidy_of_not_receive (w : World ι LogEntry) (ev : Event ι LogEntry)
    (h : ∀ v m, ev ≠ .receive v m) : w.Tidy ev := by
  cases ev with
  | receive v m => exact absurd rfl (h v m)
  | raise v t => trivial
  | stand v => trivial
  | grant v c => trivial
  | win v => trivial
  | append v e => trivial

omit [DecidableEq ι] [Fintype ι] in
/-- The request delivered is in flight. -/
theorem Cluster.holds_of_delivers {c : Cluster ι} {a : Action ι} {p : ι} {req : AppendEntriesReq ι}
    (h : c.delivers? a = some (p, req)) : c.Holds req := by
  unfold Cluster.delivers? at h
  split at h
  · split at h
    · rename_i hth
      obtain ⟨rfl, rfl⟩ := Prod.mk.inj (Option.some.inj h)
      exact holds_of_heartbeat hth rfl
    · simp at h
  · split at h
    · rename_i hph
      obtain ⟨rfl, rfl⟩ := Prod.mk.inj (Option.some.inj h)
      exact holds_of_phase hph rfl
    · simp at h
  · split at h
    · rename_i hph
      obtain ⟨rfl, rfl⟩ := Prod.mk.inj (Option.some.inj h)
      exact holds_of_phase hph rfl
    · simp at h
  · simp at h

/-- The world behind a run in which proposals read while their entry is last. -/
theorem Cluster.Runs.exists_matching {cfg : Config ι} {c : Cluster ι}
    (h : Cluster.Runs cfg ProposesLast Cluster.init c) :
    ∃ w : World ι LogEntry, w.Elections ∧ w.Matching ∧ Sim c w ∧
      ∀ req, c.Holds req → CarriesGenuine w req := by
  induction h with
  | start =>
    refine ⟨World.init, World.Elections.init, World.Matching.init, Sim.init, fun req h => ?_⟩
    rcases h with ⟨v, hv⟩ | ⟨v, pr, hpr, -⟩
    · simp [Cluster.init, HeartbeatThread.req?] at hv
    · simp [Cluster.init] at hpr
  | @step c c' a _ hP hstep ih =>
    obtain ⟨w, hE, hM, hsim, hcarry⟩ := ih
    obtain ⟨u, w', hrun, hsim'⟩ : ∃ u w', World.Run World.Tidy u w w' ∧ Sim c' w' := by
      refine hsim.step tidy_of_not_receive cfg hE hstep fun p req hdel _ => ?_
      exact fun hstores => hcarry req (Cluster.holds_of_delivers hdel) hstores.1
    have hE' := hrun.elections hE
    have hM' : w'.Matching :=
      hrun.preserves (fun _ _ hE hev htidy hM => hM.apply hE hev htidy) hE hM
    refine ⟨w', hE', hM', hsim', fun req hreq => ?_⟩
    rcases Cluster.holds_step hstep hreq with hold | ⟨hbuilt, hnodes⟩
    · exact (hcarry req hold).mono (hrun.extends hE)
    · -- a new request is a piece of its sender's log
      have hpiece : ∀ v, req.term = (c.nodes v).currentTerm → req.msg.PieceOf (c.nodes v).log →
          CarriesGenuine w' req := by
        intro v hterm hpiece _
        have hlog : w'.log v = (c.nodes v).log := hnodes ▸ (hsim'.node v).log
        have hterm' : w'.term v = (c.nodes v).currentTerm := hnodes ▸ (hsim'.node v).term
        refine ⟨_, hlog ▸ hM'.log v, hpiece, fun e he => ?_⟩
        rw [hterm, ← hterm']
        apply hM'.log_le v
        rw [hlog]
        exact List.mem_of_mem_drop (hpiece.2.subset he)
      cases hbuilt with
      | heartbeat hrole hreq =>
        subst hreq
        exact fun hne => hpiece _ rfl (RaftNode.buildAppendEntriesLocked_pieceOf _ _ _ hne) hne
      | proposal hpr hreq =>
        subst hreq
        exact hpiece _ rfl (RaftNode.proposalRequest_pieceOf (hP _ hpr))
      | notify hreq =>
        subst hreq
        exact fun hne => absurd rfl hne

/-- **Log matching.** In every run of a cluster of any size in which proposals read
their index and previous term while their entry is the last one of the log. -/
theorem logMatching {cfg : Config ι} {c : Cluster ι}
    (h : Cluster.Runs cfg ProposesLast Cluster.init c) : c.LogsMatch := by
  obtain ⟨w, -, hM, hsim, -⟩ := h.exists_matching
  intro u v k e e' hu hv hterm
  rw [← (hsim.node u).log] at hu ⊢
  rw [← (hsim.node v).log] at hv ⊢
  exact hM.take_eq hu hv hterm

end

instance [DecidableEq ι] (c : Cluster ι) (a : Action ι) : Decidable (ProposesLast c a) := by
  cases a <;> unfold ProposesLast <;> infer_instance

/-- Node 0, elected, proposes an entry that node 1 stores. -/
def proposeOne : List (Action (Fin 3)) :=
  electZero ++ [.proposePut 0 (str "a") (str "1"), .proposalRead 0 0, .deliverProposal 0 0]

/-- The theorem at the run in which one proposal reaches one peer. -/
theorem logMatching_proposeOne :
    (Cluster.init.run Config.three ProposesLast proposeOne).isSome = true ∧
      ((Cluster.init.run Config.three ProposesLast proposeOne).getD Cluster.init).LogsMatch := by
  have hrun : (Cluster.init.run Config.three ProposesLast proposeOne).isSome = true := by
    decide +kernel
  exact ⟨hrun, logMatching (.of_isSome hrun)⟩

/-! ## Two proposals at once -/

/-- A leader with two proposals: a heartbeat brings the first entry to node 1; then
the first proposal reads the index of the second one's entry and sends its own entry
for it. -/
def concurrentProposals : List (Action (Fin 3)) :=
  electZero ++
    [.proposePut 0 (str "a") (str "1"), .heartbeatTick 0, .heartbeatBuild 0, .deliverHeartbeat 0,
      .proposePut 0 (str "b") (str "2"), .proposalRead 0 0, .deliverProposal 0 0]

/-- Without that condition logs need not match: the leader has the two entries, node 1
has the first one twice. -/
theorem not_logsMatch_concurrentProposals :
    ¬ ∀ c : Cluster (Fin 3), Cluster.Runs Config.three (fun _ _ => True) Cluster.init c →
      c.LogsMatch := by
  intro hall
  have hrun : (Cluster.init.run Config.three (fun _ _ => True) concurrentProposals).isSome = true :=
    by decide +kernel
  have hne := hall _ (.of_isSome hrun) 0 1 1 ⟨1, .put, str "b", str "2"⟩
    ⟨1, .put, str "a", str "1"⟩ (by decide +kernel) (by decide +kernel) rfl
  revert hne
  decide +kernel

end KvEngine
