import KvEngine.Raft.Durability
import KvEngine.Raft.Indices
import KvEngine.Store.KVStore

/-!
# Reads at the leader

`GET` reads the node's own `KVStore`, which `ApplyLoop` feeds. A proposal returns once a
majority has its entry; the commit index follows with the heartbeat thread, and the entry
reaches the store with the apply thread. Nothing makes a read wait for either.

Results:
* `Cluster.applied_inOrder`: in every run each node hands over entries 1, 2, 3 and so on.
* `HandsChosen.applied_eq_take`: in a guarded run a leader has handed over a first part of
  its log.
* `readsOwnWrite`: in a guarded run a leader whose apply thread has come as far as the
  proposal's entry answers with its value or that of a later entry.
* `not_readsOwnWrite`: a read right after the proposal returned finds nothing.
-/

namespace KvEngine

open Consensus

variable {ι : Type}

/-! ## The state machine of a node -/

/-- The update of an entry. -/
def LogEntry.logOp (e : LogEntry) : LogOp :=
  match e.op with
  | .put => .put e.key e.value
  | .del => .del e.key

theorem LogEntry.key_logOp (e : LogEntry) : e.logOp.key = e.key := by
  unfold logOp
  cases e.op <;> rfl

/-- The call of `ApplyLoop` on the state machine (lines 512–516). -/
def KVStore.applyEntry (s : KVStore) (e : LogEntry) : KVStore :=
  match e.op with
  | .put => s.applyPut e.key e.value
  | .del => s.applyDel e.key

/-- The store of the node `v` that was `s` at the start. -/
def Cluster.storeOf (c : Cluster ι) (s : KVStore) (v : ι) : KVStore :=
  (c.applied v).foldl (fun s x => s.applyEntry x.2) s

/-- It has the updates of the entries that were handed over. -/
theorem Cluster.map_storeOf (c : Cluster ι) (s : KVStore) (v : ι) :
    (c.storeOf s v).map = applyAll ((c.applied v).map fun x => x.2.logOp) s.map := by
  have happly : ∀ (s : KVStore) (e : LogEntry), (s.applyEntry e).map = e.logOp.apply s.map := by
    intro s e
    unfold KVStore.applyEntry LogEntry.logOp
    cases e.op <;> rfl
  unfold storeOf
  generalize c.applied v = xs
  induction xs generalizing s with
  | nil => rfl
  | cons x xs ih =>
    rw [List.foldl_cons, ih, happly]
    rfl

/-! ## The order of application -/

variable [DecidableEq ι]

/-- The apply thread has handed over the entries up to the last one it took, or has that one
in its hands. -/
structure Cluster.HandsInOrder (c : Cluster ι) (v : ι) : Prop where
  indices : ∀ j, ∀ x ∈ (c.applied v)[j]?, x.1 = j + 1
  sleeping : c.apply v = .sleeping → (c.nodes v).lastApplied = (c.applied v).length
  holding : ∀ i e, c.apply v = .holding i e →
    i = (c.applied v).length + 1 ∧ (c.nodes v).lastApplied = i

namespace Cluster

variable {c c' : Cluster ι} {cfg : Config ι} {v : ι}

theorem HandsInOrder.step {a : Action ι} (h : c.HandsInOrder v) (hstep : c.step cfg a = some c') :
    c'.HandsInOrder v := by
  cases apply_change hstep v with
  | same hthread happlied hlast =>
    constructor
    · rw [happlied]
      exact h.indices
    · rw [hthread, happlied, hlast]
      exact h.sleeping
    · rw [hthread, happlied, hlast]
      exact h.holding
  | take hsleeping hlt hget hthread happlied hlast =>
    have hlen := h.sleeping hsleeping
    constructor
    · rw [happlied]
      exact h.indices
    · rw [hthread]
      simp
    · rw [hthread, happlied, hlast]
      rintro i e heq
      obtain ⟨rfl, rfl⟩ := ApplyThread.holding.inj heq
      omega
  | @run i e hheld hthread happlied hlast =>
    obtain ⟨hi, hlen⟩ := h.holding i e hheld
    constructor
    · rw [happlied]
      intro j x hx
      rcases Nat.lt_or_ge j (c.applied v).length with hlt | hge
      · rw [List.getElem?_append_left hlt] at hx
        exact h.indices j x hx
      · rw [List.getElem?_append_right hge, List.getElem?_singleton] at hx
        split_ifs at hx with hzero
        · obtain rfl := Option.some.inj hx
          show i = j + 1
          omega
        · simp at hx
    · rw [happlied, hlast, List.length_append, List.length_singleton]
      omega
    · rw [hthread]
      simp

/-- Every node hands its entries over in the order of their indices, none twice and none
left out. -/
theorem applied_inOrder {P : Cluster ι → Action ι → Prop} (h : Runs cfg P init c) (v : ι) :
    c.HandsInOrder v := by
  induction h with
  | start => exact ⟨by simp [init], fun _ => rfl, by simp [init]⟩
  | step a _ _ hstep ih => exact ih.step hstep

end Cluster

/-! ## What a leader hands over -/

section

variable [Fintype ι]

/-- The entry is at its index in a list chosen by term `T`. -/
def ChosenBy (w : World ι LogEntry) (T i : ℕ) (e : LogEntry) : Prop :=
  ∃ p, w.Chosen T p ∧ 0 < i ∧ p[i - 1]? = some e

variable {c c' : Cluster ι} {w w' : World ι LogEntry} {cfg : Config ι} {v : ι}

omit [DecidableEq ι] in
theorem ChosenBy.mono {T T' i : ℕ} {e : LogEntry} (h : ChosenBy w T i e) (hT : T ≤ T')
    (hext : w.Extends w') : ChosenBy w' T' i e := by
  obtain ⟨p, hp, hrest⟩ := h
  exact ⟨p, (hp.mono hT).extends hext, hrest⟩

/-- The entries a node holds or has handed over were chosen by its own term. -/
structure HandsChosen (c : Cluster ι) (w : World ι LogEntry) : Prop where
  held : ∀ v i e, c.apply v = .holding i e → ChosenBy w (c.nodes v).currentTerm i e
  applied : ∀ v, ∀ x ∈ c.applied v, ChosenBy w (c.nodes v).currentTerm x.1 x.2

omit [DecidableEq ι] in
theorem HandsChosen.init : HandsChosen (Cluster.init : Cluster ι) World.init :=
  ⟨fun _ _ _ h => by simp [Cluster.init] at h, fun _ _ h => by simp [Cluster.init] at h⟩

/-- Every step keeps that while commit indices cover chosen prefixes. -/
theorem HandsChosen.step (h : HandsChosen c w) (hagreed : Agreed cfg c w) {a : Action ι}
    (hstep : c.step cfg a = some c') (hext : w.Extends w') : HandsChosen c' w' := by
  have hterm : ∀ v, (c.nodes v).currentTerm ≤ (c'.nodes v).currentTerm := fun v =>
    (Cluster.nodes_step hstep v).grows.1
  constructor
  · intro v i e hv
    rcases Cluster.apply_step hstep hv with hold | ⟨hpos, hle, hget⟩
    · exact (h.held v i e hold).mono (hterm v) hext
    · rcases hagreed.committed v with hzero | ⟨-, hchosen⟩
      · omega
      · refine ChosenBy.mono ⟨_, hchosen, hpos, ?_⟩ (hterm v) hext
        rw [List.getElem?_take_of_lt (by omega), hget]
  · intro v x hx
    rcases Cluster.applied_step hstep hx with hold | hheld
    · exact (h.applied v x hold).mono (hterm v) hext
    · exact (h.held v x.1 x.2 hheld).mono (hterm v) hext

/-- A leader has handed over a first part of its log. -/
theorem HandsChosen.applied_eq_take (h : HandsChosen c w) (hsim : OrderlySim c w)
    (horder : c.HandsInOrder v) (hrole : (c.nodes v).role = .leader) :
    (c.applied v).map (·.2) = (c.nodes v).log.take (c.applied v).length := by
  obtain ⟨hleader, hown, -⟩ := hsim.leads hrole
  have hled : w.leader (c.nodes v).currentTerm ≠ none := by
    rw [hleader]
    exact Option.some_ne_none v
  refine List.ext_getElem? fun j => ?_
  rw [List.getElem?_map, List.getElem?_take]
  split_ifs with hj
  · have hget : (c.applied v)[j]? = some (c.applied v)[j] := List.getElem?_eq_getElem hj
    have hindex := horder.indices j _ hget
    obtain ⟨p, hp, -, hpx⟩ := h.applied v _ (List.getElem_mem hj)
    -- the leader's log has all that was chosen by its term
    have hprefix := World.Chosen.prefix_llog hsim.sound.complete hsim.sound.matching hp le_rfl hled
    rw [hindex, Nat.add_sub_cancel] at hpx
    rw [hget, hown, getElem?_of_isPrefix hprefix hpx]
    rfl
  · rw [List.getElem?_eq_none (Nat.not_lt.mp hj)]
    rfl

/-! ## Reads -/

/-- The value was set by an entry for the key at `index` or behind it. -/
def SetSince (log : List LogEntry) (index : ℕ) (key : Bytes) (value : Option Bytes) : Prop :=
  ∃ j e, index ≤ j ∧ log[j - 1]? = some e ∧ e.key = key ∧ e.logOp.result = value

/-- A node that returned true and leads has the entry at its index. -/
theorem OrderlySim.log_returned (h : OrderlySim c w) (hall : AllBacked c w) {pr : Proposal ι}
    (hpr : pr ∈ c.proposals v) (hret : pr.phase = .returned true)
    (hrole : (c.nodes v).role = .leader) : (c.nodes v).log[pr.index - 1]? = some pr.entry := by
  have hprop := h.sim.proposal v pr hpr
  have hle : pr.entry.term ≤ (c.nodes v).currentTerm := by
    by_contra hlt
    -- nothing is stored of the log of a later term
    have hzero := h.sound.complete.stored_future v pr.entry.term (by
      rw [(h.sim.node v).term]
      omega)
    have hself := hprop.self
    have hpos := hprop.positive
    omega
  rcases Nat.eq_or_lt_of_le hle with heq | hlt
  · rw [(h.leads hrole).2.1, ← heq]
    exact hprop.placed
  · exact h.log_acknowledged hall (World.Extends.refl w) h hpr hret hrole hlt

/-- What a leader's store answers once it has come as far as an entry of its log. -/
theorem HandsChosen.setSince (h : HandsChosen c w) (hsim : OrderlySim c w)
    (horder : c.HandsInOrder v) (hrole : (c.nodes v).role = .leader) {index : ℕ} {e : LogEntry}
    (hpos : 0 < index) (hget : (c.nodes v).log[index - 1]? = some e)
    (hle : index ≤ (c.applied v).length) (s : KVStore) :
    SetSince (c.nodes v).log index e.key ((c.storeOf s v).get e.key) := by
  have htake := h.applied_eq_take hsim horder hrole
  set ops := (c.applied v).map fun x => x.2.logOp with hops
  have hget' : ∀ j, j < (c.applied v).length →
      ops[j]? = ((c.nodes v).log[j]?).map LogEntry.logOp := by
    intro j hj
    have hlog : (c.nodes v).log[j]? = ((c.applied v)[j]?).map (·.2) := by
      rw [← List.getElem?_map, htake, List.getElem?_take_of_lt hj]
    rw [hlog, hops, List.getElem?_map, Option.map_map]
    rfl
  have hop : ops[index - 1]? = some e.logOp := by
    rw [hget' _ (by omega), hget]
    rfl
  obtain ⟨j, op, hij, hj, hkey, hlookup⟩ := exists_lookup_applyAll hop s.map
  have hjlt : j < (c.applied v).length := by
    have hlt := (List.getElem?_eq_some_iff.mp hj).1
    rwa [hops, List.length_map] at hlt
  rw [hget' j hjlt, Option.map_eq_some_iff] at hj
  obtain ⟨e', he', rfl⟩ := hj
  rw [e'.key_logOp, e.key_logOp] at hkey
  rw [e.key_logOp, ← Cluster.map_storeOf] at hlookup
  exact ⟨j + 1, e', by omega, he', hkey, hlookup.symm⟩

/-- What the answers to reads rest on. -/
structure Answers (cfg : Config ι) (c : Cluster ι) (w : World ι LogEntry) : Prop where
  backed : AllBacked c w
  agreed : Agreed cfg c w
  hands : HandsChosen c w

omit [DecidableEq ι] in
theorem Answers.init (cfg : Config ι) : Answers cfg (Cluster.init : Cluster ι) World.init := by
  refine ⟨fun v pr hpr => ?_, Agreed.init cfg, HandsChosen.init⟩
  simp [Cluster.init] at hpr

/-- Guarded actions keep it. -/
theorem Answers.step (h : Answers cfg c w) (hsim : OrderlySim c w) {a : Action ι}
    (hguarded : Guarded c a) (hstep : c.step cfg a = some c') (hext : w.Extends w') :
    Answers cfg c' w' :=
  ⟨h.backed.step hsim hguarded.1 hstep hext, h.agreed.step hsim hguarded hstep hext,
    h.hands.step h.agreed hstep hext⟩

/-- **Read your writes.** In every guarded run, once a proposal has returned true on a node
that leads and whose apply thread has handed over the entry at its index, the node's store
answers with the value of that entry or of a later one. -/
theorem readsOwnWrite {cfg : Config ι} {c : Cluster ι}
    (h : Cluster.Runs cfg Guarded Cluster.init c) {v : ι} {pr : Proposal ι}
    (hpr : pr ∈ c.proposals v) (hret : pr.phase = .returned true)
    (hrole : (c.nodes v).role = .leader) (happlied : pr.index ≤ (c.applied v).length)
    (s : KVStore) :
    (c.nodes v).log[pr.index - 1]? = some pr.entry ∧
      SetSince (c.nodes v).log pr.index pr.entry.key ((c.storeOf s v).get pr.entry.key) := by
  obtain ⟨w, -, hsim, hI⟩ : ∃ w, World.init.Extends w ∧ OrderlySim c w ∧ Answers cfg c w :=
    OrderlySim.runs (fun _ _ h => h.1)
      (fun _ _ _ _ _ h hP hstep hext _ hI => hI.step h hP hstep hext) h OrderlySim.init
      (Answers.init cfg)
  have hget := hsim.log_returned hI.backed hpr hret hrole
  exact ⟨hget, hI.hands.setSince hsim (Cluster.applied_inOrder h v) hrole
    (hsim.sim.proposal v pr hpr).positive hget happlied s⟩

end

/-- A put on node 0 returns true, and the next heartbeat commits it there; then node 0
applies it. -/
def readPut : List (Action (Fin 3)) :=
  ackedPut ++ ([.heartbeatTick 0, .heartbeatBuild 0, .deliverHeartbeat 0, .heartbeatReply 0,
    .applyTake 0, .applyRun 0] : List (Action (Fin 3)))

/-- The theorem at that put. -/
theorem readsOwnWrite_readPut :
    let c := (Cluster.init.run Config.three Guarded readPut).getD Cluster.init
    SetSince (c.nodes 0).log 1 (str "a") ((c.storeOf { } 0).get (str "a")) := by
  have hpr : (⟨⟨1, .put, str "a", str "1"⟩, 1, .returned true⟩ : Proposal (Fin 3)) ∈
      ((Cluster.init.run Config.three Guarded readPut).getD Cluster.init).proposals 0 := by
    refine List.mem_of_getElem? (i := 0) ?_
    rfl
  exact (readsOwnWrite (.of_isSome (by decide +kernel)) hpr rfl (by decide +kernel)
    (by decide +kernel) { }).2

/-- Without waiting for the apply thread the read can come too early: the put returned true
and the store of node 0 has nothing yet. -/
theorem not_readsOwnWrite :
    ¬ ∀ (c : Cluster (Fin 3)) (v : Fin 3) (pr : Proposal (Fin 3)) (s : KVStore),
      Cluster.Runs Config.three (fun _ _ => True) Cluster.init c → pr ∈ c.proposals v →
      pr.phase = .returned true → (c.nodes v).role = .leader →
        SetSince (c.nodes v).log pr.index pr.entry.key ((c.storeOf s v).get pr.entry.key) := by
  intro hall
  set c := (Cluster.init.run Config.three (fun _ _ => True) ackedPut).getD Cluster.init with hc
  have hpr : (⟨⟨1, .put, str "a", str "1"⟩, 1, .returned true⟩ : Proposal (Fin 3)) ∈
      c.proposals 0 := by
    refine List.mem_of_getElem? (i := 0) ?_
    rfl
  obtain ⟨j, e, hj, hget, -, hresult⟩ := hall c 0 _ { } (.of_isSome (by decide +kernel)) hpr rfl
    (by decide +kernel)
  have hlog : (c.nodes 0).log = [⟨1, .put, str "a", str "1"⟩] := by decide +kernel
  have hnone : (c.storeOf { } 0).get (str "a") = none := by decide +kernel
  -- the log has one entry, and it is not the one that was read
  rw [hlog] at hget
  obtain rfl := List.mem_singleton.mp (List.mem_of_getElem? hget)
  rw [hnone] at hresult
  simp [LogEntry.logOp, LogOp.result] at hresult

end KvEngine
