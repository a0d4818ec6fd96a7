import KvEngine.Raft.History
import KvEngine.Server.Responses

/-!
# One order for all clients

In a guarded run the calls on the nodes enter one history (`ledger_simulates`), and a command
makes one call at most. So one order of updates explains what all servers wrote: an `OK` has its
update in it, a read sees the updates up to some place, and as the program goes on the order only
gets longer.

Results:
* `Runs.serializes`: there is such an order in every state of a guarded run.
* `served_serializes`: it grows at its end, and behind what is there when a command is taken
  comes what the command writes.
-/

namespace KvEngine

open Consensus Systems

variable {ι : Type} [DecidableEq ι] {cfg : Config ι} {nodeId : ι → ℤ}
  {P : Cluster ι → Action ι → Prop} {d d' : Served ι} {u v : ι}

/-- The calls `H` in this order, with the updates `ops`, explain what the servers of `d` wrote.
A call is named by its node and its number there. -/
structure Serializes (d : Served ι) (H : List (ι × ℕ)) (ops : List LogOp) : Prop where
  nodup : H.Nodup
  requested : List.Forall₂ (fun k op => ∃ cmd ∈ d.commands k.1,
    k.2 ∈ cmd.made ∧ Requests cmd.line op) H ops
  once : ∀ v, ((d.commands v).flatMap Command.made).Nodup ∧
    ∀ cmd ∈ d.commands v, cmd.made.length ≤ 1
  acknowledged : ∀ v, ∀ x ∈ d.written v, x.resp = str "OK\n" → ∃ i ∈ x.made, (v, i) ∈ H
  applied : ∀ v, (d.cluster.applied v).map (fun y => y.2.logOp) <+: ops
  read : ∀ v, ∀ x ∈ d.written v, ∀ key, words 2 x.line = [str "GET", key] →
    ∃ n, x.resp = readResponse ((applyAll (ops.take n) ∅).lookup key)

namespace Served

/-! ## Replies -/

/-- The replies in which a call that returned true is one that was made. -/
def Acknowledges (d : Served ι) (v : ι) (made : List ℕ) : ∀ q : Call, q.Answer ι → Prop
  | .proposePut _ _, true => ∃ i ∈ made, d.cluster.Returned v i
  | .proposeDel _, true => ∃ i ∈ made, d.cluster.Returned v i
  | _, _ => True

/-- The replies in which a read sees a first part of what its node has applied by now. -/
def ReadsPart (d : Served ι) (v : ι) : ∀ q : Call, q.Answer ι → Prop
  | .get key, value => ∃ n, value =
      (applyAll (((d.cluster.applied v).take n).map fun y => y.2.logOp) ∅).lookup key
  | _, _ => True

theorem returned_step {m : ServerMove ι} (hstep : d.step cfg nodeId m = some d') {i : ℕ}
    (h : d.cluster.Returned v i) : d'.cluster.Returned v i := by
  rcases cluster_step hstep with heq | ⟨a, -, hc⟩
  · rwa [heq]
  · exact h.step hc

omit [DecidableEq ι] in
theorem Acknowledges.mono {made made' : List ℕ} {q : Call} {a : q.Answer ι}
    (h : Acknowledges d v made q a) (hmade : made ⊆ made')
    (hreturned : ∀ i, d.cluster.Returned v i → d'.cluster.Returned v i) :
    Acknowledges d' v made' q a := by
  cases q with
  | proposePut key value =>
    cases a with
    | false => trivial
    | true =>
      obtain ⟨i, hi, hret⟩ := h
      exact ⟨i, hmade hi, hreturned i hret⟩
  | proposeDel key =>
    cases a with
    | false => trivial
    | true =>
      obtain ⟨i, hi, hret⟩ := h
      exact ⟨i, hmade hi, hreturned i hret⟩
  | _ => trivial

omit [DecidableEq ι] in
theorem Given.acknowledges {made : List ℕ} {t : Prog.Reply Call (Call.Answer ι)}
    (h : Given d v made t) : Acknowledges d v made t.1 t.2 := by
  cases h with
  | @now q a ha =>
    -- a call that is turned down returns false
    have hfalse : ∀ b : Bool, (if (d.cluster.nodes v).role = .leader then none else some false) =
        some b → b = false := by
      intro b hb
      split_ifs at hb
      exact (Option.some.inj hb).symm
    cases q with
    | proposePut key value =>
      obtain rfl := hfalse a ha
      trivial
    | proposeDel key =>
      obtain rfl := hfalse a ha
      trivial
    | _ => trivial
  | @returned q a i ok x hi hx hq hph ha =>
    cases q with
    | proposePut key value =>
      obtain rfl : ok = a := Option.some.inj ha
      cases ok with
      | false => trivial
      | true => exact ⟨i, hi, hph⟩
    | proposeDel key =>
      obtain rfl : ok = a := Option.some.inj ha
      cases ok with
      | false => trivial
      | true => exact ⟨i, hi, hph⟩
    | _ => trivial

theorem Runs.acknowledges (h : Runs cfg nodeId P init d) {cmd : Command ι}
    (hcmd : cmd ∈ d.commands v) : ∀ t ∈ cmd.asked, Acknowledges d v cmd.made t.1 t.2 :=
  h.replies (G := fun d v made t => Acknowledges d v made t.1 t.2)
    (fun _ _ _ _ _ hgiven => hgiven.acknowledges)
    (fun _ _ _ _ _ ht => ht.mono (List.subset_append_left _ _) fun _ hi => hi)
    (fun _ _ _ _ _ _ _ _ hstep ht => ht.mono (List.Subset.refl _) fun _ => returned_step hstep)
    v cmd hcmd

theorem applied_step {m : ServerMove ι} (hstep : d.step cfg nodeId m = some d') :
    d.cluster.applied v <+: d'.cluster.applied v := by
  rcases cluster_step hstep with heq | ⟨a, -, hc⟩
  · rw [heq]
  · cases Cluster.apply_change hc v with
    | same hthread happlied => rw [happlied]
    | take hsleeping hlt hget hthread happlied => rw [happlied]
    | run hheld hthread happlied =>
      rw [happlied]
      exact List.prefix_append _ _

omit [DecidableEq ι] in
/-- What is a first part stays one. -/
theorem ReadsPart.mono {q : Call} {a : q.Answer ι} (h : ReadsPart d v q a)
    (happlied : d.cluster.applied v <+: d'.cluster.applied v) : ReadsPart d' v q a := by
  cases q with
  | get key =>
    obtain ⟨n, hn⟩ := h
    obtain ⟨late, hlate⟩ := happlied
    refine ⟨min n (d.cluster.applied v).length, hn.trans ?_⟩
    rw [← hlate, List.take_append_of_le_length (Nat.min_le_right _ _), List.take_eq_take_min]
  | _ => trivial

omit [DecidableEq ι] in
theorem Given.readsPart {made : List ℕ} {t : Prog.Reply Call (Call.Answer ι)}
    (h : Given d v made t) : ReadsPart d v t.1 t.2 := by
  cases h with
  | @now q a ha =>
    cases q with
    | get key =>
      refine ⟨(d.cluster.applied v).length, ?_⟩
      rw [List.take_length, ← show (d.cluster.storeOf {} v).get key = a from Option.some.inj ha,
        KVStore.get, Cluster.map_storeOf]
    | _ => trivial
  | @returned q a i ok x hi hx hq =>
    cases q with
    | get key => simp [Call.update?] at hq
    | _ => trivial

theorem Runs.readsPart (h : Runs cfg nodeId P init d) {cmd : Command ι}
    (hcmd : cmd ∈ d.commands v) : ∀ t ∈ cmd.asked, ReadsPart d v t.1 t.2 :=
  h.replies (G := fun d v _ t => ReadsPart d v t.1 t.2)
    (fun _ _ _ _ _ hgiven => hgiven.readsPart) (fun _ _ _ _ _ ht => ht)
    (fun _ _ _ _ _ _ _ _ hstep ht => ht.mono (applied_step hstep)) v cmd hcmd

/-! ## Commands that are taken later -/

omit [DecidableEq ι] in
/-- The proposals of commands that were taken since `n` there were have numbers from `N` on. -/
theorem Change.late (hchange : Change nodeId d d' v) {n N : ℕ}
    (hN : N ≤ (d.cluster.calls v).length)
    (h : ∀ j cmd, n ≤ j → (d.commands v)[j]? = some cmd → ∀ i ∈ cmd.made, N ≤ i) :
    ∀ j cmd, n ≤ j → (d'.commands v)[j]? = some cmd → ∀ i ∈ cmd.made, N ≤ i := by
  have hlast : ∀ {before : List (Command ι)} {cmd₀ cmd₁ : Command ι},
      d.commands v = before ++ [cmd₀] → (∀ i ∈ cmd₁.made, i ∈ cmd₀.made ∨ N ≤ i) →
      ∀ j cmd, n ≤ j → (before ++ [cmd₁])[j]? = some cmd → ∀ i ∈ cmd.made, N ≤ i := by
    intro before cmd₀ cmd₁ hold hmade j cmd hj hcmd i hi
    rw [hold] at h
    rcases Nat.lt_or_ge j before.length with hlt | hge
    · rw [List.getElem?_append_left hlt] at hcmd
      exact h j cmd hj (by rwa [List.getElem?_append_left hlt]) i hi
    · rw [List.getElem?_append_right hge, List.getElem?_singleton] at hcmd
      split_ifs at hcmd with hzero
      obtain rfl := Option.some.inj hcmd
      obtain rfl : j = before.length := by omega
      rcases hmade i hi with hi | hi
      · exact h _ cmd₀ hj (by simp) i hi
      · exact hi
  cases hchange with
  | same hcommands =>
    rw [hcommands]
    exact h
  | @taken line hcommands =>
    intro j cmd hj hcmd i hi
    rw [hcommands] at hcmd
    rcases Nat.lt_or_ge j (d.commands v).length with hlt | hge
    · rw [List.getElem?_append_left hlt] at hcmd
      exact h j cmd hj hcmd i hi
    · rw [List.getElem?_append_right hge, List.getElem?_singleton] at hcmd
      split_ifs at hcmd
      obtain rfl := Option.some.inj hcmd
      simp at hi
  | replied hold hnew =>
    rw [hnew]
    exact hlast hold fun i hi => .inl hi
  | called hold hnew =>
    rw [hnew]
    refine hlast hold fun i hi => ?_
    rcases List.mem_append.mp hi with hi | hi
    · exact .inl hi
    · obtain rfl := List.mem_singleton.mp hi
      exact .inr hN

theorem Runs.late (h : Runs cfg nodeId P init d) (h' : Runs cfg nodeId P d d') :
    ∀ cmd ∈ (d'.commands v).drop (d.commands v).length, ∀ i ∈ cmd.made,
      (d.cluster.calls v).length ≤ i := by
  have hlate : ∀ j cmd, (d.commands v).length ≤ j → (d'.commands v)[j]? = some cmd →
      ∀ i ∈ cmd.made, (d.cluster.calls v).length ≤ i := by
    induction h' with
    | start =>
      intro j cmd hj hcmd
      rw [List.getElem?_eq_none hj] at hcmd
      simp at hcmd
    | @step d₁ d₂ m hruns hP hstep ih =>
      exact ((h.trans hruns).handled.change hstep v).late (hruns.cluster.calls_grow v).length_le ih
  intro cmd hcmd
  obtain ⟨j, hj⟩ := List.getElem?_of_mem hcmd
  rw [List.getElem?_drop] at hj
  exact hlate _ cmd (Nat.le_add_right _ _) hj

omit [DecidableEq ι] in
/-- Only a call that returned true answers `OK`. -/
theorem handles_ok (line : Bytes) (S : ∀ q : Call, q.Answer ι → Prop) {goal : Prop}
    (hput : ∀ key value, S (.proposePut key value) true → goal)
    (hdel : ∀ key, S (.proposeDel key) true → goal) :
    Handles line (fun _ => True) S (fun r => r = str "OK\n" → goal) where
  fixed := by
    have hne : ∀ r ∈ fixedResponses, r ≠ str "OK\n" := by decide
    exact fun r hr heq => absurd heq (hne r hr)
  role := trivial
  get k _ := ⟨trivial, fun v _ heq => by
    have hhead : some (86 : UInt8) = some 79 := congrArg List.head? heq
    exact absurd hhead (by decide)⟩
  size := ⟨trivial, fun n _ heq => by
    have hhead : some (83 : UInt8) = some 79 := congrArg List.head? heq
    exact absurd hhead (by decide)⟩
  put k v _ := ⟨trivial, fun h _ => hput k v h⟩
  del k _ := ⟨trivial, fun h _ => hdel k h⟩
  stop := ⟨trivial, fun _ heq => absurd heq (by decide)⟩

theorem Runs.acknowledged (h : Runs cfg nodeId P init d) {x : Exchange ι} (hx : x ∈ d.written v)
    (hresp : x.resp = str "OK\n") : ∃ i ∈ x.made, d.cluster.Returned v i := by
  refine h.response hx (fun r => r = str "OK\n" → ∃ i ∈ x.made, d.cluster.Returned v i)
    (ClusterDemo.meets_handleCommand
      (handles_ok x.line (fun q a => Acknowledges d v x.made q a) (fun _ _ hret => hret)
        fun _ hret => hret)
      ⟨trivial, fun _ _ _ heq => ?_⟩ trivial) (h.acknowledges (command_mem hx)) hresp
  have hhead : some (78 : UInt8) = some 79 := congrArg List.head? heq
  exact absurd hhead (by decide)

end Served

/-! ## The order -/

section

variable [Fintype ι] {w : World ι LogEntry} {p : List LogEntry} {c c' : Cluster ι}
  {L L' : Ledger ι (ι × ℕ) LogEntry}

omit [DecidableEq ι] in
/-- The chosen list has the entries of the history. -/
theorem Records.entries (h : Records c w p L) (hcalled : ∀ k ∈ L.history, L.calls k ≠ none) :
    L.entries = p := by
  obtain ⟨hlen, hentry⟩ := Ledger.length_entries hcalled
  refine List.ext_getElem? fun j => ?_
  rcases Nat.lt_or_ge j p.length with hlt | hge
  · obtain ⟨k, hk, hcall, -⟩ := h.getElem? (List.getElem?_eq_getElem hlt)
    rw [hentry j k hk, hcall, List.getElem?_eq_getElem hlt]
  · rw [List.getElem?_eq_none hge, List.getElem?_eq_none]
    rwa [hlen, h.length]

omit [DecidableEq ι] in
/-- As the history grows, so does the list. -/
theorem Records.isPrefix {w' : World ι LogEntry} {p' : List LogEntry} (h : Records c w p L)
    (h' : Records c' w' p' L') (hcalls : ∀ v, c.calls v <+: c'.calls v)
    (hhistory : L.history <+: L'.history) : p <+: p' := by
  rw [List.prefix_iff_getElem?]
  intro j hj
  obtain ⟨k, hk, -, hcall⟩ := h.getElem? (List.getElem?_eq_getElem hj)
  obtain ⟨e, he, hcall'⟩ := h'.place j k (getElem?_of_isPrefix hhistory hk)
  rw [getElem?_of_isPrefix (hcalls k.1) hcall] at hcall'
  obtain rfl : p[j] = e := congrArg Prod.fst (Option.some.inj hcall')
  exact he

/-- The history of the calls explains what the servers wrote. -/
theorem Served.Runs.serializes (h : Served.Runs cfg nodeId P Served.init d)
    {events : List (Ledger.Event ι (ι × ℕ) LogEntry)}
    (hevents : (Cluster.lts cfg P).Trace events d.cluster) (hL : Ledger.lts.Trace events L)
    (hrecords : Records d.cluster w p L) (hanswered : Answered d.cluster L) :
    Serializes d L.history (p.map LogEntry.logOp) := by
  have hkept := Ledger.kept_of_trace hL
  have happlied : ∀ v, (d.cluster.applied v).map (fun y => y.2.logOp) <+: p.map LogEntry.logOp := by
    intro v
    have hentries := Cluster.applied_eq_handed hevents v
    rw [hkept.handed v, hrecords.entries hkept.called] at hentries
    have hmap : (d.cluster.applied v).map (fun y => y.2.logOp) =
        ((d.cluster.applied v).map (·.2)).map LogEntry.logOp := by
      rw [List.map_map]
      rfl
    rw [hmap, hentries]
    exact (List.take_prefix _ _).map _
  refine ⟨hkept.nodup, ?_, fun v => ⟨?_, fun cmd hcmd => h.handled.made_le_one hcmd⟩,
    fun v x hx hresp => ?_, happlied, fun v x hx key hline => ?_⟩
  · -- the calls of the history were made by commands that ask for their updates
    refine List.forall₂_iff_get.mpr ⟨by rw [hrecords.length, List.length_map], fun j hj hj' => ?_⟩
    obtain ⟨e, he, hcall⟩ := hrecords.place j _ (List.getElem?_eq_getElem hj)
    obtain ⟨cmd, hcmd, hmade, hrequests⟩ := (h.paired _).exists hcall
    obtain ⟨hjp, rfl⟩ := List.getElem?_eq_some_iff.mp he
    exact ⟨cmd, hcmd, hmade, by simpa using hrequests⟩
  · rw [(h.paired v).made]
    exact List.nodup_range
  · obtain ⟨i, hi, hret⟩ := h.acknowledged hx hresp
    exact ⟨i, hi, hanswered v i hret⟩
  · refine h.response hx (fun r => ∃ n, r = readResponse
      ((applyAll ((p.map LogEntry.logOp).take n) ∅).lookup key))
      (ClusterDemo.meets_handleCommand_get hline trivial trivial fun a ha => ?_)
      (h.readsPart (command_mem hx))
    obtain ⟨n, rfl⟩ : ∃ n, a =
      (applyAll (((d.cluster.applied v).take n).map fun y => y.2.logOp) ∅).lookup key := ha
    obtain ⟨late, hlate⟩ := happlied v
    refine ⟨min n (d.cluster.applied v).length, ?_⟩
    rw [← hlate, List.take_append_of_le_length (by simp), ← List.map_take, ← List.take_eq_take_min]

end

/-- **One order for all clients.** In every guarded run of the program there is an order of updates,
each asked for by a command of its own, that explains what the servers wrote: the update of each
command that was answered `OK` is in it, what a node has applied is its beginning, and each `GET`
was answered from a beginning of it. As the program goes on the order grows at its end only, and
the updates of commands that are taken from then on come behind: an update that was answered `OK`
before another command was taken stands before that one's. -/
theorem served_serializes [Fintype ι] {d₁ d₂ : Served ι}
    (h₁ : Served.Runs cfg nodeId Guarded Served.init d₁)
    (h₂ : Served.Runs cfg nodeId Guarded d₁ d₂) :
    ∃ H₁ H₂ ops₁ ops₂, Serializes d₁ H₁ ops₁ ∧ Serializes d₂ H₂ ops₂ ∧ H₁ <+: H₂ ∧ ops₁ <+: ops₂ ∧
      ∀ v, ∀ cmd ∈ (d₂.commands v).drop (d₁.commands v).length, ∀ i ∈ cmd.made, (v, i) ∉ H₁ := by
  obtain ⟨events₁, hmoves₁⟩ := h₁.cluster.moves
  obtain ⟨events₂, hmoves₂⟩ := h₂.cluster.moves
  have hsim := ledger_simulates (ι := ι) cfg
  obtain ⟨L₁, hL₁, w₁, p₁, hrec₁, hrecords₁, hans₁⟩ := hsim.trace ⟨_, rfl, hmoves₁⟩
  obtain ⟨L₂, hL₂, w₂, p₂, hrec₂, hrecords₂, hans₂⟩ :=
    hsim.moves hmoves₂ ⟨w₁, p₁, hrec₁, hrecords₁, hans₁⟩
  have hhistory := Ledger.history_prefix hL₂
  refine ⟨L₁.history, L₂.history, _, _, h₁.serializes ⟨_, rfl, hmoves₁⟩ hL₁ hrecords₁ hans₁,
    (h₁.trans h₂).serializes ⟨_, rfl, hmoves₁.trans hmoves₂⟩ (hL₁.moves hL₂) hrecords₂ hans₂,
    hhistory, (hrecords₁.isPrefix hrecords₂ h₂.cluster.calls_grow hhistory).map _,
    fun v cmd hcmd i hi hmem => ?_⟩
  -- a call in the history was made before
  obtain ⟨j, hj⟩ := List.getElem?_of_mem hmem
  obtain ⟨e, -, hcall⟩ := hrecords₁.place j _ hj
  have hlt : i < (d₁.cluster.calls v).length := (List.getElem?_eq_some_iff.mp hcall).1
  exact absurd (h₁.late h₂ cmd hcmd i hi) (Nat.not_le.mpr hlt)

/-- Then node 1 is elected, and a client puts a value there. -/
def toldLater : List (ServerMove (Fin 3)) :=
  electOne.map .act ++ [.read 1 (str "PUT b 2\n"), .take 1, .ask 1, .call 1] ++
    ([.proposalRead 1 0, .deliverProposal 1 0, .proposalReply 1 0, .proposalCommit 1 0,
      .loseNotify 1 0, .notifyReply 1 0, .loseNotify 1 0, .notifyReply 1 0] :
        List (Action (Fin 3))).map .act ++
    [.returned 1, .respond 1]

/-- The theorem at the put on node 0 and that one. -/
theorem served_serializes_toldLater :
    ∃ H₁ H₂ : List (Fin 3 × ℕ), H₁ <+: H₂ ∧ (0, 0) ∈ H₁ ∧ (1, 0) ∉ H₁ ∧ (1, 0) ∈ H₂ := by
  set d₁ := (Served.init.run Config.three nodeIds Guarded toldZero).getD Served.init with hd₁
  set d₂ := (d₁.run Config.three nodeIds Guarded toldLater).getD d₁ with hd₂
  have h₁ : Served.Runs Config.three nodeIds Guarded Served.init d₁ :=
    .of_isSome (by decide +kernel)
  have h₂ : Served.Runs Config.three nodeIds Guarded d₁ d₂ := .of_isSome (by decide +kernel)
  obtain ⟨H₁, H₂, ops₁, ops₂, hs₁, hs₂, hprefix, -, hlate⟩ := served_serializes h₁ h₂
  obtain ⟨x₁, hx₁, hok₁, hmade₁⟩ : ∃ x ∈ d₁.written 0, x.resp = str "OK\n" ∧ x.made = [0] := by
    decide +kernel
  obtain ⟨x₂, hx₂, hok₂, hmade₂⟩ : ∃ x ∈ d₂.written 1, x.resp = str "OK\n" ∧ x.made = [0] := by
    decide +kernel
  have hnone : d₁.commands 1 = [] := by
    have hlen : (d₁.commands 1).length = 0 := by decide +kernel
    exact List.length_eq_zero_iff.mp hlen
  obtain ⟨i₁, hi₁, hmem₁⟩ := hs₁.acknowledged 0 x₁ hx₁ hok₁
  obtain ⟨i₂, hi₂, hmem₂⟩ := hs₂.acknowledged 1 x₂ hx₂ hok₂
  rw [hmade₁, List.mem_singleton] at hi₁
  rw [hmade₂, List.mem_singleton] at hi₂
  subst hi₁ hi₂
  refine ⟨H₁, H₂, hprefix, hmem₁, hlate 1 x₂.toCommand ?_ 0 (by rw [hmade₂]; simp), hmem₂⟩
  rw [hnone]
  exact Served.command_mem hx₂

end KvEngine
