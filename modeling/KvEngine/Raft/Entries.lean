import KvEngine.Raft.Reads
import KvEngine.Systems.Ledger

/-!
# Calls and entries

What clients see of a cluster are their calls of `ProposePut` and `ProposeDel`, the calls that
return true, and what the apply threads hand over to the stores. An entry begins as a call; from
there it goes into its leader's log, from logs into requests, from requests into other logs, and
with the apply threads into the stores.

Results:
* `Cluster.seen_step`: what an action that shows an event does to calls and stores.
* `Cluster.Everywhere.step`: what holds of the entries of calls holds of all entries.
* `logged_asked`: in every run, whatever a node logs or applies was called for.
-/

namespace KvEngine

open Consensus Systems

variable {ι : Type}

namespace Cluster

/-! ## What clients see -/

/-- What the calls on `v` appended, and where. -/
def calls (c : Cluster ι) (v : ι) : List (LogEntry × ℕ) :=
  (c.proposals v).map fun pr => (pr.entry, pr.index)

/-- The `i`-th call on `v` returned true. -/
def Returned (c : Cluster ι) (v : ι) (i : ℕ) : Prop := c.phase? v i = some (.returned true)

theorem Returned.exists {c : Cluster ι} {v : ι} {i : ℕ} (h : c.Returned v i) :
    ∃ pr, (c.proposals v)[i]? = some pr ∧ pr.phase = .returned true :=
  Option.map_eq_some_iff.mp h

variable [DecidableEq ι]

/-- What is seen of an action that makes `c'` of `c`. The `i`-th call on `v` is called
`(v, i)`. -/
def shown (c c' : Cluster ι) : Action ι → Option (Ledger.Event ι (ι × ℕ) LogEntry)
  | .proposePut v _ _ | .proposeDel v _ =>
    ((c'.proposals v)[(c.proposals v).length]?).map fun pr =>
      .invoke (v, (c.proposals v).length) pr.entry
  | .proposalCommit v i | .notifyReply v i =>
    match c'.phase? v i with
    | some (.returned true) => some (.respond (v, i))
    | _ => none
  | .applyRun v =>
    match c.apply v with
    | .holding _ e => some (.hand v e)
    | _ => none
  | _ => none

/-- The cluster as a system, run with actions that satisfy `P`. -/
def lts (cfg : Config ι) (P : Cluster ι → Action ι → Prop) :
    Lts (Cluster ι) (Ledger.Event ι (ι × ℕ) LogEntry) where
  start := (· = init)
  step c o c' := ∃ a, P c a ∧ c.step cfg a = some c' ∧ o = shown c c' a

variable {c c' : Cluster ι} {cfg : Config ι}

theorem calls_setPhase (v : ι) (i : ℕ) (ph : ProposalPhase ι) :
    (c.setPhase v i ph).calls = c.calls := by
  funext u
  by_cases hu : u = v
  · subst hu
    refine List.ext_getElem? fun j => ?_
    simp only [calls, setPhase, Function.update_self, List.getElem?_map, List.getElem?_modify,
      Option.map_eq_map, Option.map_map]
    refine Option.map_congr fun pr _ => ?_
    show Prod.mk (if i = j then { pr with phase := ph } else pr).entry _ = _
    split_ifs <;> rfl
  · simp only [calls, setPhase, Function.update_of_ne hu]

/-- Only the phase that is set is new. -/
theorem phase_setPhase {v u : ι} {i j : ℕ} {ph x : ProposalPhase ι}
    (h : (c.setPhase v i ph).phase? u j = some x) :
    c.phase? u j = some x ∨ u = v ∧ j = i ∧ ph = x := by
  by_cases hu : u = v
  · subst hu
    simp only [phase?, setPhase, Function.update_self, List.getElem?_modify, Option.map_eq_map,
      Option.map_map] at h
    by_cases hij : i = j
    · subst hij
      obtain ⟨pr, -, hx⟩ := Option.map_eq_some_iff.mp h
      exact .inr ⟨rfl, rfl, by simpa using hx⟩
    · left
      simpa [hij, phase?] using h
  · left
    simpa only [phase?, setPhase, Function.update_of_ne hu] using h

theorem phase_setPhase_self {v : ι} {i : ℕ} {ph ph₀ : ProposalPhase ι}
    (h : c.phase? v i = some ph₀) : (c.setPhase v i ph).phase? v i = some ph := by
  obtain ⟨pr, hpr, -⟩ := Option.map_eq_some_iff.mp h
  simp [phase?, setPhase, hpr]

omit [DecidableEq ι] in
theorem calls_congr (h : c'.proposals = c.proposals) : c'.calls = c.calls := by
  funext v
  rw [calls, h, calls]

omit [DecidableEq ι] in
/-- Sending the entry on does not make a call return true. -/
theorem replicate_ne_returned (peers : List ι) (req : AppendEntriesReq ι) (acks : ℕ)
    (rest : List ι) : RaftNode.replicate peers req acks rest ≠ .returned true := by
  cases rest with
  | nil =>
    unfold RaftNode.replicate
    split_ifs <;> simp
  | cons p ps => simp [RaftNode.replicate]

omit [DecidableEq ι] in
/-- Nor does a reply. -/
theorem proposalReply_ne_returned (n : RaftNode ι) (peers : List ι) (req : AppendEntriesReq ι)
    (acks : ℕ) (rest : List ι) (resp : AppendEntriesResp) :
    (n.proposalReply peers req acks rest resp).2 ≠ .returned true := by
  unfold RaftNode.proposalReply
  split_ifs
  · simp
  · simp
  all_goals simp only
  all_goals split_ifs
  all_goals first | exact replicate_ne_returned _ _ _ _ | simp

/-- A call that returned true stays so. -/
theorem Returned.step {a : Action ι} (hstep : c.step cfg a = some c') {u : ι} {j : ℕ}
    (h : c.Returned u j) : c'.Returned u j := by
  have hset : ∀ {v : ι} {i : ℕ} {ph ph₀ : ProposalPhase ι} {d : Cluster ι},
      d.proposals = c.proposals → c.phase? v i = some ph₀ → ph₀ ≠ .returned true →
      (d.setPhase v i ph).Returned u j := by
    intro v i ph ph₀ d hd hph hne
    rw [Returned] at h ⊢
    by_cases hu : u = v
    · subst hu
      have hij : i ≠ j := by
        rintro rfl
        rw [hph] at h
        exact hne (Option.some.inj h)
      simpa [phase?, setPhase, hd, hij] using h
    · simpa only [phase?, setPhase, Function.update_of_ne hu, hd] using h
  have hpropose : ∀ v (r : RaftNode ι × Proposal ι), (c.propose v r).Returned u j := by
    intro v r
    unfold propose
    split_ifs
    · obtain ⟨pr, hpr, hph⟩ := h.exists
      refine Option.map_eq_some_iff.mpr ⟨pr, ?_, hph⟩
      show (Function.update c.proposals v (c.proposals v ++ [r.2]) u)[j]? = some pr
      by_cases hu : u = v
      · subst hu
        rw [Function.update_self, List.getElem?_append_left (List.getElem?_eq_some_iff.mp hpr).1]
        exact hpr
      · rwa [Function.update_of_ne hu]
    · exact h
  cases step_inv hstep with
  | proposePut => exact hpropose _ _
  | proposeDel => exact hpropose _ _
  | proposalRead hpr => exact hset rfl (by rw [phase?, hpr]; rfl) (by simp)
  | deliverProposal hph => exact hset (d := c.setNode _ _) rfl hph (by simp)
  | loseProposal hph => exact hset rfl hph (by simp)
  | proposalReply hph => exact hset (d := c.setNode _ _) rfl hph (by simp)
  | proposalCommit hph => exact hset rfl hph (by simp)
  | deliverNotify hph => exact hset (d := c.setNode _ _) rfl hph (by simp)
  | loseNotify hph => exact hset rfl hph (by simp)
  | notifyReply hph => exact hset (d := c.setNode _ _) rfl hph (by simp)
  | _ => exact h

/-- An action that shows an event does what the event says; one that shows none does nothing
of the kind. -/
inductive Seen (c c' : Cluster ι) : Option (Ledger.Event ι (ι × ℕ) LogEntry) → Prop where
  | invoke {v : ι} {e : LogEntry} (hrole : (c.nodes v).role = .leader)
      (hterm : e.term = (c.nodes v).currentTerm)
      (hcalls : c'.calls =
        Function.update c.calls v (c.calls v ++ [(e, (c.nodes v).log.length + 1)]))
      (hreturned : ∀ u j, c'.Returned u j → c.Returned u j) (happlied : c'.applied = c.applied) :
    Seen c c' (some (.invoke (v, (c.calls v).length) e))
  | respond {v : ι} {i : ℕ} (hnow : c'.Returned v i) (hcalls : c'.calls = c.calls)
      (hreturned : ∀ u j, c'.Returned u j → c.Returned u j ∨ u = v ∧ j = i)
      (happlied : c'.applied = c.applied) :
    Seen c c' (some (.respond (v, i)))
  | hand {v : ι} {i : ℕ} {e : LogEntry} (hheld : c.apply v = .holding i e)
      (hcalls : c'.calls = c.calls) (hreturned : ∀ u j, c'.Returned u j → c.Returned u j)
      (happlied : c'.applied = Function.update c.applied v (c.applied v ++ [(i, e)])) :
    Seen c c' (some (.hand v e))
  | silent (hcalls : c'.calls = c.calls) (hreturned : ∀ u j, c'.Returned u j → c.Returned u j)
      (happlied : c'.applied = c.applied) :
    Seen c c' none

/-- What is seen of a call that a leader takes, or another node turns down. -/
theorem seen_propose {v : ι} (op : OpType) (key value : Bytes) :
    let d := c.propose v ((c.nodes v).propose op key value)
    Seen c d (((d.proposals v)[(c.proposals v).length]?).map fun pr =>
      .invoke (v, (c.proposals v).length) pr.entry) := by
  by_cases hrole : (c.nodes v).role = .leader
  · have hlen : (c.proposals v).length = (c.calls v).length := (List.length_map _).symm
    simp only [propose, if_pos hrole, Function.update_self, List.getElem?_concat_length,
      Option.map_some]
    rw [hlen]
    refine .invoke hrole rfl ?_ (fun u j hret => ?_) rfl
    · funext u
      by_cases hu : u = v
      · subst hu
        simp [calls, RaftNode.propose]
      · simp [calls, Function.update_of_ne hu]
    · obtain ⟨pr, hpr, hph⟩ := hret.exists
      refine Option.map_eq_some_iff.mpr ⟨pr, ?_, hph⟩
      by_cases hu : u = v
      · subst hu
        simp only [Function.update_self, List.getElem?_append, List.getElem?_singleton] at hpr
        split_ifs at hpr with hj hzero
        · exact hpr
        · -- the new call has not returned
          obtain rfl := Option.some.inj hpr
          simp [RaftNode.propose] at hph
      · simpa only [Function.update_of_ne hu] using hpr
  · simp only [propose, if_neg hrole, List.getElem?_eq_none le_rfl, Option.map_none]
    exact .silent rfl (fun _ _ h => h) rfl

theorem seen_step {a : Action ι} (hstep : c.step cfg a = some c') : Seen c c' (shown c c' a) := by
  have hphase : ∀ {v : ι} {i : ℕ} {ph : ProposalPhase ι} {d : Cluster ι},
      d.proposals = c.proposals → d.applied = c.applied → ph ≠ .returned true →
      Seen c (d.setPhase v i ph) none := by
    intro v i ph d hd happlied hph
    refine .silent ?_ (fun u j h => ?_) happlied
    · rw [calls_setPhase, calls_congr hd]
    · rcases phase_setPhase h with hold | ⟨-, -, hx⟩
      · rwa [phase?, hd] at hold
      · exact absurd hx hph
  -- the two critical sections in which a call can return true
  have hreturn : ∀ {v : ι} {i : ℕ} {ph ph₀ : ProposalPhase ι} {d : Cluster ι},
      d.proposals = c.proposals → d.applied = c.applied → c.phase? v i = some ph₀ →
      Seen c (d.setPhase v i ph) (match (d.setPhase v i ph).phase? v i with
        | some (.returned true) => some (.respond (v, i))
        | _ => none) := by
    intro v i ph ph₀ d hd happlied hold
    have hnow : (d.setPhase v i ph).phase? v i = some ph := by
      have hwas : d.phase? v i = some ph₀ := by rwa [phase?, hd]
      exact phase_setPhase_self hwas
    rw [hnow]
    by_cases hph : ph = .returned true
    · subst hph
      refine .respond hnow ?_ (fun u j h => ?_) happlied
      · rw [calls_setPhase, calls_congr hd]
      · rcases phase_setPhase h with hold | ⟨rfl, rfl, -⟩
        · left
          rwa [phase?, hd] at hold
        · exact .inr ⟨rfl, rfl⟩
    · have hnone : (match some ph with
          | some (.returned true) => some (.respond (v, i))
          | _ => none : Option (Ledger.Event ι (ι × ℕ) LogEntry)) = none := by
        split
        · rename_i heq
          exact absurd (Option.some.inj heq) hph
        · rfl
      rw [hnone]
      exact hphase hd happlied hph
  cases step_inv hstep with
  | proposePut => exact seen_propose _ _ _
  | proposeDel => exact seen_propose _ _ _
  | proposalRead hpr => exact hphase rfl rfl (replicate_ne_returned _ _ _ _)
  | deliverProposal hph => exact hphase (d := c.setNode _ _) rfl rfl (by simp)
  | loseProposal hph => exact hphase rfl rfl (by simp)
  | proposalReply hph =>
    exact hphase (d := c.setNode _ _) rfl rfl (proposalReply_ne_returned _ _ _ _ _ _)
  | proposalCommit hph => exact hreturn rfl rfl hph
  | deliverNotify hph => exact hphase (d := c.setNode _ _) rfl rfl (by simp)
  | loseNotify hph => exact hphase rfl rfl (by simp)
  | notifyReply hph => exact hreturn (d := c.setNode _ _) rfl rfl hph
  | applyRun hth =>
    simp only [shown, hth]
    exact .hand hth rfl (fun _ _ h => h) rfl
  | _ => exact .silent rfl (fun _ _ h => h) rfl

/-! ## Where entries are -/

/-- How an action changes the log of a node: a request is stored, or a call appends its entry. -/
inductive LogChange (c c' : Cluster ι) (a : Action ι) (v : ι) : Prop where
  | same (hlog : (c'.nodes v).log = (c.nodes v).log)
  | stored {req : AppendEntriesReq ι} (hdel : c.delivers? a = some (v, req))
      (hlog : (c'.nodes v).log = req.msg.store (c.nodes v).log)
  | appended {e : LogEntry} (hcalls : c'.calls v = c.calls v ++ [(e, (c.nodes v).log.length + 1)])
      (hlog : (c'.nodes v).log = (c.nodes v).log ++ [e])

/-- An action that only sets a node to one with the same log. -/
theorem LogChange.setNode {a : Action ι} {u : ι} {n : RaftNode ι} (v : ι)
    (hnodes : c'.nodes = Function.update c.nodes u n) (hlog : n.log = (c.nodes u).log) :
    LogChange c c' a v := by
  refine .same ?_
  rw [hnodes]
  by_cases hv : v = u
  · subst hv
    rwa [Function.update_self]
  · rw [Function.update_of_ne hv]

/-- An action that has a node handle an append request. -/
theorem LogChange.onAppendEntries {a : Action ι} {p : ι} {req : AppendEntriesReq ι} (v : ι)
    (hdel : c.delivers? a = some (p, req))
    (hnodes : c'.nodes = Function.update c.nodes p ((c.nodes p).onAppendEntries req).2) :
    LogChange c c' a v := by
  by_cases hlt : req.term < (c.nodes p).currentTerm
  · rw [RaftNode.onAppendEntries_of_lt hlt] at hnodes
    exact .setNode v hnodes rfl
  · have hlog := (RaftNode.onAppendEntries_appended (Nat.not_lt.mp hlt)).log
    by_cases hv : v = p
    · subst hv
      refine .stored hdel ?_
      rw [hnodes, Function.update_self, hlog]
    · refine .same ?_
      rw [hnodes, Function.update_of_ne hv]

/-- A call. -/
theorem LogChange.propose {a : Action ι} {u : ι} (v : ι) (op : OpType) (key value : Bytes) :
    LogChange c (c.propose u ((c.nodes u).propose op key value)) a v := by
  by_cases hrole : (c.nodes u).role = .leader
  · rw [Cluster.propose, if_pos hrole]
    by_cases hv : v = u
    · subst hv
      exact .appended (e := ((c.nodes v).propose op key value).2.entry)
        (by simp [calls, RaftNode.propose]) (by simp [Cluster.setNode, RaftNode.propose])
    · exact .same (by simp [Cluster.setNode, Function.update_of_ne hv])
  · rw [Cluster.propose, if_neg hrole]
    exact .same rfl

theorem log_voteReply (n : RaftNode ι) (id : ι) (peers : List ι) (req : RequestVoteReq ι)
    (votes : ℕ) (rest : List ι) (resp : RequestVoteResp) :
    (n.voteReply id peers req votes rest resp).1.log = n.log := by
  unfold RaftNode.voteReply
  simp only
  split_ifs <;> rfl

theorem log_heartbeatReply (n : RaftNode ι) (peers : List ι) (req : AppendEntriesReq ι) (p : ι)
    (rest : List ι) (resp : AppendEntriesResp) :
    (n.heartbeatReply peers req p rest resp).1.log = n.log := by
  by_cases hterm : n.currentTerm < resp.term
  · rw [RaftNode.heartbeatReply, if_pos hterm]
    rfl
  by_cases hsuccess : resp.success = true
  · obtain ⟨n₁, heq, hlog⟩ : ∃ n₁ : RaftNode ι,
        (n.heartbeatReply peers req p rest resp).1 = n₁.advanceCommitIndexLocked peers ∧
          n₁.log = n.log := by
      obtain ⟨n₁, heq, -, hlog, -⟩ := exists_advance peers hterm hsuccess
      exact ⟨n₁, heq, hlog⟩
    obtain ⟨k, hk⟩ := n₁.advanceCommitIndexLocked_eq peers
    rw [heq, hk]
    exact hlog
  · rw [RaftNode.heartbeatReply, if_neg hterm, if_neg hsuccess]
    simp only
    split
    · rfl
    · split_ifs <;> rfl

theorem log_step {a : Action ι} (hstep : c.step cfg a = some c') (v : ι) :
    LogChange c c' a v := by
  cases step_inv hstep with
  | startElection hth => exact .setNode v rfl rfl
  | deliverVote hth => exact .setNode v rfl (quiet_onRequestVote _ _).log
  | voteReply hth => exact .setNode v rfl (log_voteReply _ _ _ _ _ _ _)
  | deliverHeartbeat hth => exact .onAppendEntries v (by simp only [delivers?, hth]) rfl
  | heartbeatReply hth => exact .setNode v rfl (log_heartbeatReply _ _ _ _ _ _)
  | proposePut => exact .propose v _ _ _
  | proposeDel => exact .propose v _ _ _
  | deliverProposal hph => exact .onAppendEntries v (by simp only [delivers?, hph]) rfl
  | proposalReply hph => exact .setNode v rfl (quiet_proposalReply _ _ _ _ _ _).log
  | deliverNotify hph => exact .onAppendEntries v (by simp only [delivers?, hph]) rfl
  | notifyReply hph => exact .setNode v rfl (quiet_notifyReply _ _ _ _).log
  | applyTake hth hlt hget => exact .setNode v rfl rfl
  | _ =>
    -- the nodes stay
    exact .same rfl

/-- Whatever entry a node has in its log, in flight, in hand or applied, and at whatever index,
is as `P` says. -/
structure Everywhere (P : ℕ → LogEntry → Prop) (c : Cluster ι) : Prop where
  logs : ∀ v k e, (c.nodes v).log[k]? = some e → P (k + 1) e
  requests : ∀ req, c.Holds req → ∀ k e, req.entries[k]? = some e → P (req.prevLogIndex + k + 1) e
  held : ∀ v i e, c.apply v = .holding i e → P i e
  applied : ∀ v, ∀ x ∈ c.applied v, P x.1 x.2

omit [DecidableEq ι] in
theorem Everywhere.init (P : ℕ → LogEntry → Prop) : Everywhere P (init : Cluster ι) := by
  refine ⟨fun v k e h => by simp [Cluster.init] at h, fun req h => ?_,
    fun v i e h => by simp [Cluster.init] at h, fun v x h => by simp [Cluster.init] at h⟩
  rcases h with ⟨v, hv⟩ | ⟨v, pr, hpr, -⟩
  · simp [Cluster.init, HeartbeatThread.req?] at hv
  · simp [Cluster.init] at hpr

omit [DecidableEq ι] in
/-- The entries of a log after it stored a request. -/
theorem getElem?_store {m : Msg LogEntry} {l : List LogEntry} {k : ℕ} {e : LogEntry}
    (h : (m.store l)[k]? = some e) :
    l[k]? = some e ∨ ∃ j, m.entries[j]? = some e ∧ m.prev + j = k := by
  unfold Msg.store at h
  split_ifs at h with hstores
  · have hlen : (l.take m.prev).length = m.prev := List.length_take_of_le hstores.2.1
    rcases Nat.lt_or_ge k m.prev with hlt | hge
    · left
      rwa [List.getElem?_append_left (by rwa [hlen]), List.getElem?_take_of_lt hlt] at h
    · right
      rw [List.getElem?_append_right (by rwa [hlen]), hlen] at h
      exact ⟨k - m.prev, h, Nat.add_sub_of_le hge⟩
  · exact .inl h

omit [DecidableEq ι] in
/-- The entries of a heartbeat are those of the log. -/
theorem getElem?_build {n : RaftNode ι} {v p : ι} {k : ℕ} {e : LogEntry}
    (h : (n.buildAppendEntriesLocked v p).entries[k]? = some e) :
    n.log[(n.buildAppendEntriesLocked v p).prevLogIndex + k]? = some e := by
  unfold RaftNode.buildAppendEntriesLocked at h ⊢
  simp only at h ⊢
  generalize (n.nextIndex p).getD 1 = next at h ⊢
  split_ifs at h with hrange
  · have hprev : (if next = 0 ∨ next = 1 then 0 else next - 1) = next - 1 := by
      split_ifs <;> omega
    rw [hprev, ← List.getElem?_drop]
    exact h
  · simp at h

/-- What holds of the entries that calls append and requests read holds of all entries. -/
theorem Everywhere.step {P P' : ℕ → LogEntry → Prop} (h : Everywhere P c)
    (hmono : ∀ i e, P i e → P' i e) {a : Action ι} (hstep : c.step cfg a = some c')
    (hcall : ∀ v, ∀ x ∈ c'.calls v, P' x.2 x.1)
    (hread : ∀ v i pr, a = .proposalRead v i → (c.proposals v)[i]? = some pr →
      P' (((c.nodes v).proposalRequest v pr.entry).prevLogIndex + 1) pr.entry) :
    Everywhere P' c' := by
  refine ⟨fun v k e hk => ?_, fun req hreq k e hk => ?_, fun v i e hv => ?_, fun v x hx => ?_⟩
  · cases log_step hstep v with
    | same hlog => exact hmono _ _ (h.logs v k e (hlog ▸ hk))
    | @stored req hdel hlog =>
      rw [hlog] at hk
      rcases getElem?_store hk with hold | ⟨j, hj, rfl⟩
      · exact hmono _ _ (h.logs v k e hold)
      · exact hmono _ _ (h.requests req (holds_of_delivers hdel) j e hj)
    | @appended e' hcalls hlog =>
      rw [hlog] at hk
      rcases Nat.lt_or_ge k (c.nodes v).log.length with hlt | hge
      · rw [List.getElem?_append_left hlt] at hk
        exact hmono _ _ (h.logs v k e hk)
      · rw [List.getElem?_append_right hge, List.getElem?_singleton] at hk
        split_ifs at hk with hzero
        · obtain rfl := Option.some.inj hk
          obtain rfl : k = (c.nodes v).log.length := by omega
          exact hcall v _ (hcalls ▸ List.mem_append_right _ (List.mem_singleton_self _))
  · rcases holds_step hstep hreq with hold | ⟨hbuilt, -⟩
    · exact hmono _ _ (h.requests req hold k e hk)
    · cases hbuilt with
      | heartbeat hrole hreq =>
        subst hreq
        exact hmono _ _ (h.logs _ _ e (getElem?_build hk))
      | @proposal v i pr hpr hreq =>
        subst hreq
        obtain ⟨rfl, rfl⟩ : k = 0 ∧ pr.entry = e := by
          simpa [RaftNode.proposalRequest, List.getElem?_singleton] using hk
        exact hread v i pr rfl hpr
      | notify hreq =>
        subst hreq
        simp [RaftNode.proposalHeartbeat] at hk
  · rcases apply_step hstep hv with hold | ⟨hpos, -, hget⟩
    · exact hmono _ _ (h.held v i e hold)
    · rw [← Nat.sub_add_cancel hpos]
      exact hmono _ _ (h.logs v _ e hget)
  · rcases applied_step hstep hx with hold | hheld
    · exact hmono _ _ (h.applied v x hold)
    · exact hmono _ _ (h.held v x.1 x.2 hheld)

/-! ## Entries come from calls -/

/-- It is the entry of a call. -/
def Asked (c : Cluster ι) (e : LogEntry) : Prop := ∃ v, ∃ x ∈ c.calls v, x.1 = e

/-- It is the entry of a call that appended it at the index `i`. -/
def Called (c : Cluster ι) (i : ℕ) (e : LogEntry) : Prop := ∃ v, (e, i) ∈ c.calls v

/-- Calls stay and keep their places. -/
theorem calls_grow {a : Action ι} (hstep : c.step cfg a = some c') (v : ι) :
    c.calls v <+: c'.calls v := by
  have hseen := seen_step hstep
  generalize shown c c' a = o at hseen
  cases hseen with
  | @invoke u e hrole hterm hcalls =>
    rw [hcalls]
    by_cases hv : v = u
    · subst hv
      rw [Function.update_self]
      exact List.prefix_append _ _
    · rw [Function.update_of_ne hv]
  | respond hnow hcalls => rw [hcalls]
  | hand hheld hcalls => rw [hcalls]
  | silent hcalls => rw [hcalls]

omit [DecidableEq ι] in
theorem mem_calls {v : ι} {i : ℕ} {pr : Proposal ι} (h : (c.proposals v)[i]? = some pr) :
    (pr.entry, pr.index) ∈ c.calls v :=
  List.mem_map_of_mem (List.mem_of_getElem? h)

theorem Asked.step {a : Action ι} (hstep : c.step cfg a = some c') {e : LogEntry}
    (h : c.Asked e) : c'.Asked e := by
  obtain ⟨v, x, hx, he⟩ := h
  exact ⟨v, x, (calls_grow hstep v).subset hx, he⟩

theorem Called.step {a : Action ι} (hstep : c.step cfg a = some c') {i : ℕ} {e : LogEntry}
    (h : c.Called i e) : c'.Called i e := by
  obtain ⟨v, hv⟩ := h
  exact ⟨v, (calls_grow hstep v).subset hv⟩

/-- In every run all entries were asked for. -/
theorem Runs.everywhere_asked {P : Cluster ι → Action ι → Prop} (h : Runs cfg P init c) :
    Everywhere (fun _ e => c.Asked e) c := by
  induction h with
  | start => exact .init _
  | step a _ _ hstep ih =>
    refine ih.step (fun _ _ h => h.step hstep) hstep (fun v x hx => ⟨v, x, hx, rfl⟩) ?_
    intro v i pr _ hpr
    exact Asked.step hstep ⟨v, _, mem_calls hpr, rfl⟩

/-- While proposals read in place, all entries are where they were asked for. -/
theorem Everywhere.called_step (h : Everywhere c.Called c) {a : Action ι}
    (hreads : ReadsInPlace c a) (hstep : c.step cfg a = some c') : Everywhere c'.Called c' := by
  refine h.step (fun _ _ h => h.step hstep) hstep (fun v x hx => ⟨v, hx⟩) ?_
  rintro v i pr rfl hpr
  obtain ⟨-, -, hlast⟩ := hreads pr hpr
  -- the request sends the last entry of the log to the index it has there
  have hlog : (c.nodes v).log ≠ [] := by
    intro hnil
    simp [hnil] at hlast
  have hindex : ((c.nodes v).proposalRequest v pr.entry).prevLogIndex =
      (c.nodes v).log.length - 1 :=
    if_neg (by rwa [RaftNode.lastLogIndexLocked, List.length_eq_zero_iff])
  rw [hindex]
  rw [List.getLast?_eq_getElem?] at hlast
  exact (h.logs v _ _ hlast).step hstep

end Cluster

end KvEngine
