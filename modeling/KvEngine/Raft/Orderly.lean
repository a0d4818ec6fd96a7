import KvEngine.Raft.LogMatching

/-!
# Orderly runs

`RaftNode` leaves two gaps. A proposal reads the term and index it sends in a second
critical section, without looking again at the role, the term or its entry. And
`OnAppendEntries` truncates the log behind the entry before the request's, whether or
not what is there conflicts with the request. A run that falls into neither gap
(`Careful`) is a run of the abstract protocol in which leader completeness holds.

Results:
* `OrderlySim.step`, `OrderlySim.runs`: the simulation of careful runs.
-/

namespace KvEngine

open Consensus

variable {ι : Type} [DecidableEq ι]

/-! ## The conditions -/

/-- A proposal reads while its node still leads the entry's term and the entry is the
last of its log. -/
def ReadsInPlace (c : Cluster ι) : Action ι → Prop
  | .proposalRead v i =>
    ∀ pr ∈ (c.proposals v)[i]?, (c.nodes v).role = .leader ∧
      (c.nodes v).currentTerm = pr.entry.term ∧ (c.nodes v).log.getLast? = some pr.entry
  | _ => True

/-- A request that is stored drops no entries that agree with it. -/
def DeliversKeeping (c : Cluster ι) (a : Action ι) : Prop :=
  ∀ d ∈ c.delivers? a, (c.nodes d.1).currentTerm ≤ d.2.term →
    d.2.msg.Stores (c.nodes d.1).log → d.2.msg.Keeps (c.nodes d.1).log

/-- The action falls into neither gap. -/
def Careful (c : Cluster ι) (a : Action ι) : Prop := ReadsInPlace c a ∧ DeliversKeeping c a

instance (c : Cluster ι) (a : Action ι) : Decidable (ReadsInPlace c a) :=
  match a with
  | .proposalRead v i => inferInstanceAs (Decidable (∀ pr ∈ (c.proposals v)[i]?, _ ∧ _ ∧ _))
  | .electionTimeout _ | .startElection _ | .deliverVote _ | .loseVote _ | .voteReply _
  | .heartbeatTick _ | .heartbeatBuild _ | .deliverHeartbeat _ | .loseHeartbeat _
  | .heartbeatReply _ | .proposePut _ _ _ | .proposeDel _ _ | .deliverProposal _ _
  | .loseProposal _ _ | .proposalReply _ _ | .proposalCommit _ _ | .deliverNotify _ _
  | .loseNotify _ _ | .notifyReply _ _ | .applyTake _ | .applyRun _ => isTrue trivial

instance (c : Cluster ι) (a : Action ι) : Decidable (DeliversKeeping c a) := by
  unfold DeliversKeeping
  infer_instance

instance (c : Cluster ι) (a : Action ι) : Decidable (Careful c a) :=
  inferInstanceAs (Decidable (_ ∧ _))

/-! ## The simulation -/

/-- A request in flight that carries anything carries a piece of the log of the leader
of its term. -/
def CarriesOwn (w : World ι LogEntry) (req : AppendEntriesReq ι) : Prop :=
  req.entries ≠ [] → req.msg.PieceOf (w.llog req.term)

omit [DecidableEq ι] in
theorem CarriesOwn.mono {w w' : World ι LogEntry} {req : AppendEntriesReq ι}
    (h : CarriesOwn w req) (hext : w.Extends w') : CarriesOwn w' req :=
  fun hne => (h hne).mono (hext.llog _) hne

variable [Fintype ι] {c c' : Cluster ι} {w : World ι LogEntry}

/-- The cluster is in the state `w` of the protocol, with all its invariants. -/
structure OrderlySim (c : Cluster ι) (w : World ι LogEntry) : Prop where
  sound : w.Sound
  sim : Sim c w
  carried : ∀ req, c.Holds req → CarriesOwn w req

omit [DecidableEq ι] in
theorem OrderlySim.init : OrderlySim (Cluster.init : Cluster ι) World.init := by
  refine ⟨World.Sound.init, Sim.init, fun req h => ?_⟩
  rcases h with ⟨v, hv⟩ | ⟨v, pr, hpr, -⟩
  · simp [Cluster.init, HeartbeatThread.req?] at hv
  · simp [Cluster.init] at hpr

omit [DecidableEq ι] in
/-- The log of a leading node is that of its term's leader. -/
theorem OrderlySim.leads (h : OrderlySim c w) {v : ι}
    (hrole : (c.nodes v).role = .leader) :
    w.leader (c.nodes v).currentTerm = some v ∧
      (c.nodes v).log = w.llog (c.nodes v).currentTerm ∧
      (c.nodes v).log.length ≤ w.stored v (c.nodes v).currentTerm := by
  have hleads := h.sound.elections.leads v ((h.sim.node v).lead.mpr hrole)
  rwa [(h.sim.node v).term, (h.sim.node v).log] at hleads

omit [DecidableEq ι] [Fintype ι] in
/-- Only deliveries can be disorderly. -/
theorem orderly_of_not_receive (w : World ι LogEntry) (ev : Event ι LogEntry)
    (h : ∀ v m, ev ≠ .receive v m) : w.Orderly ev := by
  cases ev with
  | receive v m => exact absurd rfl (h v m)
  | raise v t => trivial
  | stand v => trivial
  | grant v c => trivial
  | win v => trivial
  | append v e => trivial

/-- A careful action is a run of orderly events. -/
theorem OrderlySim.step (h : OrderlySim c w) {cfg : Config ι} {a : Action ι}
    (hcareful : Careful c a) (hstep : c.step cfg a = some c') :
    ∃ w', w.Extends w' ∧ OrderlySim c' w' := by
  obtain ⟨hreads, hkeeping⟩ := hcareful
  obtain ⟨u, w', hrun, hsim⟩ : ∃ u w', World.Run World.Orderly u w w' ∧ Sim c' w' := by
    refine h.sim.step orderly_of_not_receive cfg h.sound.elections hstep fun p req hdel hterm => ?_
    intro hstores
    rw [(h.sim.node p).log] at hstores ⊢
    exact ⟨h.carried req (Cluster.holds_of_delivers hdel) hstores.1,
      hkeeping (p, req) hdel hterm hstores⟩
  have hext := hrun.extends h.sound.elections
  refine ⟨w', hext, hrun.sound h.sound, hsim, fun req hreq => ?_⟩
  rcases Cluster.holds_step hstep hreq with hold | ⟨hbuilt, -⟩
  · exact (h.carried req hold).mono hext
  · refine CarriesOwn.mono ?_ hext
    cases hbuilt with
    | @heartbeat v p hrole hreq =>
      subst hreq
      intro hne
      have hown := (h.leads hrole).2.1
      have hpiece := (c.nodes v).buildAppendEntriesLocked_pieceOf v p hne
      rwa [hown] at hpiece
    | @proposal v i pr hpr hreq =>
      subst hreq
      intro _
      obtain ⟨hrole, -, hlast⟩ := hreads pr hpr
      have hown := (h.leads hrole).2.1
      have hpiece : ((c.nodes v).proposalRequest v pr.entry).msg.PieceOf (c.nodes v).log :=
        RaftNode.proposalRequest_pieceOf hlast
      rwa [hown] at hpiece
    | notify hreq =>
      subst hreq
      exact fun hne => absurd rfl hne

/-- What careful actions keep in addition, careful runs keep. -/
theorem OrderlySim.runs {cfg : Config ι} {P : Cluster ι → Action ι → Prop}
    {Inv : Cluster ι → World ι LogEntry → Prop} (hcareful : ∀ c a, P c a → Careful c a)
    (hinv : ∀ c w c' w' a, OrderlySim c w → P c a → c.step cfg a = some c' → w.Extends w' →
      OrderlySim c' w' → Inv c w → Inv c' w')
    (hruns : Cluster.Runs cfg P c c') (h : OrderlySim c w) (hI : Inv c w) :
    ∃ w', w.Extends w' ∧ OrderlySim c' w' ∧ Inv c' w' := by
  induction hruns with
  | start => exact ⟨w, World.Extends.refl w, h, hI⟩
  | step a _ hP hstep ih =>
    obtain ⟨w₁, hext₁, h₁, hI₁⟩ := ih
    obtain ⟨w₂, hext₂, h₂⟩ := h₁.step (hcareful _ _ hP) hstep
    exact ⟨w₂, hext₁.trans hext₂, h₂, hinv _ _ _ _ a h₁ hP hstep hext₂ h₂ hI₁⟩

end KvEngine
