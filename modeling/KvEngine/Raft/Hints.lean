import KvEngine.Raft.Entries

/-!
# Whom nodes take for the leader

`leader_id_` is set by the requests that a node handles and by its own election, and cleared
with every new term. It is what `handle_command` sends clients to.

Results:
* `Hinted.step`: what holds of builders and elected nodes holds of the nodes that are named.
* `Cluster.Runs.hint_led`: in every run, whoever a node names has led.
* `hint_leader`: while only leaders speak, it is the leader of the node's own term.
-/

namespace KvEngine

open Consensus

variable {ι : Type} [DecidableEq ι]

/-! ## How the name changes -/

/-- What an action makes of the leader that the node `v` names. -/
inductive HintChange (c : Cluster ι) (v : ι) (a : Action ι) (n : RaftNode ι) : Prop where
  | kept (hterm : n.currentTerm = (c.nodes v).currentTerm)
      (hhint : n.leaderId = (c.nodes v).leaderId)
  | cleared (hhint : n.leaderId = none)
  | elected (hrole : n.role = .leader) (hhint : n.leaderId = some v)
  | heard {req : AppendEntriesReq ι} (hdel : c.delivers? a = some (v, req))
      (hterm : n.currentTerm = req.term) (hhint : n.leaderId = some req.leaderId)

omit [DecidableEq ι] in
/-- A request of the node's or a later term names its sender. -/
theorem RaftNode.leaderId_onAppendEntries {n : RaftNode ι} {req : AppendEntriesReq ι}
    (h : n.currentTerm ≤ req.term) : (n.onAppendEntries req).2.leaderId = some req.leaderId := by
  unfold onAppendEntries
  rw [if_neg (Nat.not_lt.mpr h)]
  generalize hn₁ : (if n.currentTerm < req.term then
      n.becomeFollowerLocked req.term (some req.leaderId)
    else { n with role := .follower, leaderId := some req.leaderId }) = n₁
  have hhint : n₁.leaderId = some req.leaderId := by
    subst hn₁
    split_ifs <;> rfl
  simp only
  split_ifs <;> exact hhint

theorem Cluster.hint_step {cfg : Config ι} {c c' : Cluster ι} {a : Action ι}
    (hstep : c.step cfg a = some c') (v : ι) : HintChange c v a (c'.nodes v) := by
  have hvisit := nodes_visit hstep v
  generalize c'.nodes v = n at hvisit ⊢
  cases hvisit with
  | same => exact .kept rfl rfl
  | startElection => exact .cleared rfl
  | @onRequestVote _ req =>
    unfold RaftNode.onRequestVote
    by_cases hold : req.term < (c.nodes v).currentTerm
    · rw [if_pos hold]
      exact .kept rfl rfl
    rw [if_neg hold]
    by_cases hnew : (c.nodes v).currentTerm < req.term
    · simp only [if_pos hnew]
      split_ifs <;> exact .cleared rfl
    · simp only [if_neg hnew]
      split_ifs <;> exact .kept rfl rfl
  | voteReply =>
    unfold RaftNode.voteReply
    simp only
    split_ifs
    · exact .kept rfl rfl
    · exact .kept rfl rfl
    · exact .cleared rfl
    all_goals first | exact .elected rfl rfl | exact .kept rfl rfl
  | @onAppendEntries _ req hdel =>
    by_cases hlt : req.term < (c.nodes v).currentTerm
    · rw [RaftNode.onAppendEntries_of_lt hlt]
      exact .kept rfl rfl
    · have hle := Nat.not_lt.mp hlt
      exact .heard hdel (RaftNode.onAppendEntries_appended hle).currentTerm
        (RaftNode.leaderId_onAppendEntries hle)
  | heartbeatReply hth =>
    have hadvance : ∀ n : RaftNode ι, ∃ k,
        n.advanceCommitIndexLocked (cfg.peers v) = { n with commitIndex := k } := fun n =>
      n.advanceCommitIndexLocked_eq (cfg.peers v)
    unfold RaftNode.heartbeatReply
    simp only
    split_ifs
    · exact .cleared rfl
    · obtain ⟨k, hk⟩ := hadvance (c.nodes v)
      rw [hk]
      exact .kept rfl rfl
    · rw [(hadvance _).choose_spec]
      exact .kept rfl rfl
    · split
      · exact .kept rfl rfl
      · split_ifs <;> exact .kept rfl rfl
  | propose hrole => exact .kept rfl rfl
  | proposalReply =>
    unfold RaftNode.proposalReply
    simp only
    split_ifs
    · exact .kept rfl rfl
    · exact .cleared rfl
    all_goals exact .kept rfl rfl
  | notifyReply =>
    unfold RaftNode.notifyReply
    split_ifs
    · exact .cleared rfl
    · exact .kept rfl rfl
  | applyTake hlt => exact .kept rfl rfl

/-! ## What is named -/

/-- Whoever is named for a term, by a node or in a request, is as `H` says. -/
structure Hinted (H : ι → ℕ → Prop) (c : Cluster ι) : Prop where
  nodes : ∀ v l, (c.nodes v).leaderId = some l → H l (c.nodes v).currentTerm
  requests : ∀ req, c.Holds req → H req.leaderId req.term

omit [DecidableEq ι] in
theorem Hinted.init (H : ι → ℕ → Prop) : Hinted H (Cluster.init : Cluster ι) := by
  refine ⟨fun v l h => by simp [Cluster.init] at h, fun req h => ?_⟩
  rcases h with ⟨v, hv⟩ | ⟨v, pr, hpr, -⟩
  · simp [Cluster.init, HeartbeatThread.req?] at hv
  · simp [Cluster.init] at hpr

theorem Hinted.step {H H' : ι → ℕ → Prop} {cfg : Config ι} {c c' : Cluster ι} {a : Action ι}
    (h : Hinted H c) (hmono : ∀ l t, H l t → H' l t) (hstep : c.step cfg a = some c')
    (hlead : ∀ v, (c'.nodes v).role = .leader → H' v (c'.nodes v).currentTerm)
    (hbuild : ∀ req, Cluster.Built c req a → H' req.leaderId req.term) : Hinted H' c' := by
  refine ⟨fun v l hl => ?_, fun req hreq => ?_⟩
  · cases Cluster.hint_step hstep v with
    | kept hterm hhint =>
      rw [hterm]
      exact hmono _ _ (h.nodes v l (hhint ▸ hl))
    | cleared hhint =>
      rw [hhint] at hl
      simp at hl
    | elected hrole hhint =>
      rw [hhint] at hl
      obtain rfl := Option.some.inj hl
      exact hlead _ hrole
    | @heard req hdel hterm hhint =>
      rw [hhint] at hl
      obtain rfl := Option.some.inj hl
      rw [hterm]
      exact hmono _ _ (h.requests req (Cluster.holds_of_delivers hdel))
  · rcases Cluster.holds_step hstep hreq with hold | ⟨hbuilt, -⟩
    · exact hmono _ _ (h.requests req hold)
    · exact hbuild req hbuilt

/-! ## Earlier leaders -/

/-- The node led the term in an earlier state of the run. -/
def Cluster.Led (cfg : Config ι) (P : Cluster ι → Action ι → Prop) (c : Cluster ι) (l : ι)
    (t : ℕ) : Prop :=
  ∃ c₀, Runs cfg P init c₀ ∧ Runs cfg P c₀ c ∧ (c₀.nodes l).role = .leader ∧
    (c₀.nodes l).currentTerm = t

section

variable {cfg : Config ι} {P : Cluster ι → Action ι → Prop} {c c' : Cluster ι} {l : ι} {t : ℕ}

theorem Cluster.Led.now (h : Cluster.Runs cfg P Cluster.init c)
    (hrole : (c.nodes l).role = .leader) : c.Led cfg P l (c.nodes l).currentTerm :=
  ⟨c, h, .start, hrole, rfl⟩

theorem Cluster.Led.step {a : Action ι} (h : c.Led cfg P l t) (hP : P c a)
    (hstep : c.step cfg a = some c') : c'.Led cfg P l t := by
  obtain ⟨c₀, h₀, hrun, hled⟩ := h
  exact ⟨c₀, h₀, .step a hrun hP hstep, hled⟩

/-- Who took a call has led. -/
theorem Cluster.Runs.led_of_calls (h : Cluster.Runs cfg P Cluster.init c) {v : ι}
    (hcalls : c.calls v ≠ []) : ∃ t, c.Led cfg P v t := by
  induction h with
  | start => simp [Cluster.calls, Cluster.init] at hcalls
  | @step c₁ c₂ a hruns hP hstep ih =>
    have hold : c₁.calls v ≠ [] → ∃ t, c₂.Led cfg P v t := by
      intro hne
      obtain ⟨t, ht⟩ := ih hne
      exact ⟨t, ht.step hP hstep⟩
    have hseen := Cluster.seen_step hstep
    generalize Cluster.shown c₁ c₂ a = o at hseen
    cases hseen with
    | @invoke u e hrole hterm hnew =>
      by_cases hv : v = u
      · subst hv
        exact ⟨_, (Cluster.Led.now hruns hrole).step hP hstep⟩
      · rw [hnew, Function.update_of_ne hv] at hcalls
        exact hold hcalls
    | respond hnow hsame => exact hold (hsame ▸ hcalls)
    | hand hheld hsame => exact hold (hsame ▸ hcalls)
    | silent hsame => exact hold (hsame ▸ hcalls)

end

/-- Whoever a node takes for the leader was leader of some term before. -/
theorem Cluster.Runs.hint_led {cfg : Config ι} {P : Cluster ι → Action ι → Prop} {c : Cluster ι}
    (h : Cluster.Runs cfg P Cluster.init c) {v l : ι} (hhint : (c.nodes v).leaderId = some l) :
    ∃ t, c.Led cfg P l t := by
  have hinted : Hinted (fun l _ => ∃ t, c.Led cfg P l t) c := by
    clear hhint
    induction h with
    | start => exact .init _
    | @step c₁ c₂ a hruns hP hstep ih =>
      refine ih.step (fun l _ => ?_) hstep (fun v hrole => ?_) fun req hbuilt => ?_
      · rintro ⟨t, ht⟩
        exact ⟨t, ht.step hP hstep⟩
      · exact ⟨_, .now (.step a hruns hP hstep) hrole⟩
      · -- heartbeats are built by leaders, proposals by nodes that took a call
        have hcalled : ∀ v, c₁.calls v ≠ [] → ∃ t, c₂.Led cfg P v t := by
          intro v hne
          obtain ⟨t, ht⟩ := hruns.led_of_calls hne
          exact ⟨t, ht.step hP hstep⟩
        cases hbuilt with
        | heartbeat hrole hreq =>
          subst hreq
          exact ⟨_, (Cluster.Led.now hruns hrole).step hP hstep⟩
        | proposal hpr hreq =>
          subst hreq
          exact hcalled _ (List.ne_nil_of_mem (Cluster.mem_calls hpr))
        | notify hreq =>
          subst hreq
          cases Cluster.step_inv hstep with
          | proposalCommit hph =>
            obtain ⟨pr, hpr, -⟩ := Option.map_eq_some_iff.mp hph
            exact hcalled _ (List.ne_nil_of_mem (Cluster.mem_calls hpr))
  exact hinted.nodes v l hhint

/-- **Hints name the leader.** In every run in which proposals build while their node leads,
whoever a node takes for the leader is the leader of the node's current term, or was. -/
theorem hint_leader {cfg : Config ι} {c : Cluster ι}
    (h : Cluster.Runs cfg SpeaksLeading Cluster.init c) {v l : ι}
    (hhint : (c.nodes v).leaderId = some l) :
    c.Led cfg SpeaksLeading l (c.nodes v).currentTerm := by
  have hinted : Hinted (c.Led cfg SpeaksLeading) c := by
    clear hhint
    induction h with
    | start => exact .init _
    | @step c₁ c₂ a hruns hP hstep ih =>
      refine ih.step (fun l t ht => ht.step hP hstep) hstep (fun v hrole => ?_) fun req hbuilt => ?_
      · exact .now (.step a hruns hP hstep) hrole
      · cases hbuilt with
        | heartbeat hrole hreq =>
          subst hreq
          exact (Cluster.Led.now hruns hrole).step hP hstep
        | proposal hpr hreq =>
          subst hreq
          exact (Cluster.Led.now hruns hP).step hP hstep
        | notify hreq =>
          subst hreq
          exact (Cluster.Led.now hruns hP).step hP hstep
  exact hinted.nodes v l hhint

/-- Node 0 leads and its first proposal reaches node 1. -/
def heardOne : List (Action (Fin 3)) :=
  requestOne ++ ([.deliverProposal 0 0] : List (Action (Fin 3)))

/-- The theorem at node 1. -/
theorem hint_leader_heardOne :
    let c := (Cluster.init.run Config.three SpeaksLeading heardOne).getD Cluster.init
    c.Led Config.three SpeaksLeading 0 1 := by
  have hhint : (((Cluster.init.run Config.three SpeaksLeading heardOne).getD
      Cluster.init).nodes 1).leaderId = some 0 := by decide +kernel
  have hterm : (((Cluster.init.run Config.three SpeaksLeading heardOne).getD
      Cluster.init).nodes 1).currentTerm = 1 := by decide +kernel
  exact hterm ▸ hint_leader (.of_isSome (by decide +kernel)) hhint

end KvEngine
