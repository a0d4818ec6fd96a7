import KvEngine.Server.Served

/-!
# What clients are told

A response is what the handler makes of its replies, so what holds of every reply decides what
responses can be. All this is about every run: critical sections in any order, requests that are
late or lost, and buffers as `read` happens to return them.

Results:
* `value_sent`: a value that `GET` returns was sent to some server with a `PUT` of its key.
* `response_lines`: every line of a client gets one line back, in order.
* `redirect_hasLed`: the port that a client is sent to is that of a node that has led.
* `stopped_frozen`: behind `STOPPED` reads stay what they are, and no election is won.
-/

namespace KvEngine

open Consensus Delimited Systems

variable {ι : Type} [DecidableEq ι] {cfg : Config ι} {nodeId : ι → ℤ}
  {P : Cluster ι → Action ι → Prop} {d d' : Served ι} {u v : ι}

namespace Served

/-! ## Lines that were sent -/

/-- The lines a server has taken. -/
def lines (d : Served ι) (v : ι) : List Bytes := (d.commands v).map Command.line

omit [DecidableEq ι] in
theorem Change.lines_grow (h : Change nodeId d d' v) : d.lines v <+: d'.lines v := by
  unfold lines
  cases h with
  | same hcommands => rw [hcommands]
  | taken hcommands =>
    rw [hcommands, List.map_append]
    exact List.prefix_append _ _
  | replied hold hnew =>
    rw [hold, hnew, List.map_append, List.map_append]
    exact List.prefix_rfl
  | called hold hnew =>
    rw [hold, hnew, List.map_append, List.map_append]
    exact List.prefix_rfl

/-- Some server was sent a `PUT` of the value. -/
def Sent (d : Served ι) (key value : Bytes) : Prop :=
  ∃ u, ∃ line ∈ d.lines u, words 3 line = [str "PUT", key, value]

theorem Runs.sent_mono (h : Runs cfg nodeId P init d) {m : ServerMove ι}
    (hstep : d.step cfg nodeId m = some d') {key value : Bytes} (hsent : d.Sent key value) :
    d'.Sent key value := by
  obtain ⟨u, line, hline, hwords⟩ := hsent
  exact ⟨u, line, (h.handled.change hstep u).lines_grow.subset hline, hwords⟩

/-- What a store has was sent. -/
theorem Runs.sent_of_get (h : Runs cfg nodeId P init d) {key value : Bytes}
    (hget : (d.cluster.storeOf {} v).get key = some value) : d.Sent key value := by
  rw [KVStore.get, Cluster.map_storeOf] at hget
  rcases mem_or_of_lookup_applyAll hget with hempty | hmem
  · simp at hempty
  · obtain ⟨x, hx, hop⟩ := List.mem_map.mp hmem
    obtain ⟨u, y, hy, he⟩ := h.cluster.everywhere_asked.applied v x hx
    obtain ⟨i, hi⟩ := List.getElem?_of_mem hy
    obtain ⟨cmd, hcmd, -, hrequests⟩ := (h.paired u).exists hi
    rw [he, hop] at hrequests
    exact ⟨u, cmd.line, List.mem_map_of_mem hcmd, hrequests⟩

/-- The replies in which a value that was read was sent. -/
def ReadsSent (d : Served ι) : ∀ q : Call, q.Answer ι → Prop
  | .get key, some value => d.Sent key value
  | _, _ => True

theorem Runs.readsSent (h : Runs cfg nodeId P init d) {cmd : Command ι}
    (hcmd : cmd ∈ d.commands v) :
    ∀ t ∈ cmd.asked, d.ReadsSent t.1 t.2 := by
  refine h.replies (G := fun d _ _ t => d.ReadsSent t.1 t.2) (fun d v made t hd hgiven => ?_)
    (fun _ _ _ _ _ ht => ht) (fun d d' v made t m hd _ hstep ht => ?_) v cmd hcmd
  · cases hgiven with
    | @now q a ha =>
      cases q with
      | get key =>
        cases a with
        | none => trivial
        | some value => exact hd.sent_of_get (Option.some.inj ha)
      | _ => trivial
    | @returned q a i ok x hi hx hq =>
      cases q with
      | get key => simp [Call.update?] at hq
      | _ => trivial
  · obtain ⟨q, a⟩ := t
    cases q with
    | get key =>
      cases a with
      | none => trivial
      | some value => exact hd.sent_mono hstep ht
    | _ => trivial

theorem readResponse_eq_value {a : Option Bytes} {value : Bytes}
    (h : readResponse a = str "VALUE " ++ value ++ str "\n") : a = some value := by
  cases a with
  | none =>
    have hhead : some (78 : UInt8) = some 86 := congrArg List.head? h
    exact absurd hhead (by decide)
  | some b =>
    have hvalue := List.append_cancel_left (List.append_cancel_right h)
    rw [hvalue]

end Served

/-- The nodes of `main`. -/
def nodeIds (v : Fin 3) : ℤ := v + 1

/-- Node 0 leads; a client puts a value there, which gets to its store, and reads it. -/
def toldZero : List (ServerMove (Fin 3)) :=
  electZero.map .act ++
    [.read 0 (str "PUT a 1\nGET"), .take 0, .ask 0, .call 0] ++
    ([.proposalRead 0 0, .deliverProposal 0 0, .proposalReply 0 0, .proposalCommit 0 0,
      .loseNotify 0 0, .notifyReply 0 0, .loseNotify 0 0, .notifyReply 0 0] :
        List (Action (Fin 3))).map .act ++
    [.returned 0, .respond 0] ++
    ([.heartbeatTick 0, .heartbeatBuild 0, .deliverHeartbeat 0, .heartbeatReply 0,
      .heartbeatBuild 0, .loseHeartbeat 0, .heartbeatReply 0, .applyTake 0, .applyRun 0] :
        List (Action (Fin 3))).map .act ++
    [.read 0 (str " a\nKILL\n"), .take 0, .ask 0, .ask 0, .respond 0]

namespace Served

/-- What a server took and has before it are the lines of its clients. -/
structure Framed (d : Served ι) (v : ι) : Prop where
  taken : d.lines v ++ commandLines (d.pending v) = (d.streams v).flatMap commandLines
  rest : rest newline (d.pending v) = rest newline ((d.streams v).getLast?.getD [])
  client : d.streams v ≠ []

omit [DecidableEq ι] in
theorem Framed.congr (h : Framed d v) (hlines : d'.lines v = d.lines v)
    (hpending : d'.pending v = d.pending v) (hstreams : d'.streams v = d.streams v) :
    Framed d' v := by
  refine ⟨?_, ?_, ?_⟩
  · rw [hlines, hpending, hstreams]
    exact h.taken
  · rw [hpending, hstreams]
    exact h.rest
  · rw [hstreams]
    exact h.client

/-- A server that goes on with its command. -/
theorem lines_serve {s s' : Serving ι} (hserving : d.serving u = some s)
    (hline : s'.line = s.line) : (d.serve u s').lines v = d.lines v := by
  unfold lines
  by_cases hv : v = u
  · subst hv
    rw [commands_of_serving hserving, commands_of_serving (serving_serve_self ..)]
    simp [hline, Served.serve]
  · rw [commands_congr (serving_serve_of_ne hv) rfl]

/-- The client goes on. -/
theorem Framed.read (h : Framed d v) (buffer : Bytes) (hpending : newline ∉ d.pending v) :
    Framed (d.receive v (d.pending v ++ buffer)
      ((d.streams v).dropLast ++ [(d.streams v).getLast?.getD [] ++ buffer])) v := by
  obtain ⟨before, last, hstreams⟩ := (List.eq_nil_or_concat' (d.streams v)).resolve_left h.client
  have hrest := h.rest
  have htaken := h.taken
  rw [rest_of_not_mem hpending, hstreams, List.getLast?_concat, Option.getD_some] at hrest
  rw [commandLines_of_not_mem hpending, hstreams, List.flatMap_append, List.flatMap_singleton,
    List.append_nil] at htaken
  rw [hstreams, List.dropLast_concat, List.getLast?_concat, Option.getD_some]
  refine ⟨?_, ?_, ?_⟩
  · -- what was pending is behind the last newline of the stream
    simp only [receive, Function.update_self, List.flatMap_append, List.flatMap_singleton]
    rw [commandLines_append last, ← hrest, ← List.append_assoc, ← htaken]
    rfl
  · simp only [receive, Function.update_self, List.getLast?_concat, Option.getD_some]
    rw [rest_append last, ← hrest]
  · simp [receive]

/-- A line is taken. -/
theorem Framed.take (h : Framed d v) {nl : ℕ} {left : Asking ι Bytes} (hidle : d.serving v = none)
    (hnl : findFrom (d.pending v) newline 0 = some nl) :
    Framed ((d.receive v ((d.pending v).drop (nl + 1)) (d.streams v)).serve v
      { line := popReturn ((d.pending v).take nl), left := left }) v := by
  have htaken := h.taken
  have hrest := h.rest
  rcases eq_or_append_cons newline (d.pending v) with hno | ⟨line, after, hsplit, hline⟩
  · rw [findFrom_eq_none (show newline ∉ (d.pending v).drop 0 from hno)] at hnl
    simp at hnl
  · have hdrop : (d.pending v).drop 0 = line ++ newline :: after := hsplit
    rw [findFrom_eq_some hdrop hline, Nat.zero_add] at hnl
    obtain rfl := Option.some.inj hnl
    rw [hsplit, commandLines_append_cons hline] at htaken
    rw [hsplit, rest_append_cons hline] at hrest
    have hbefore : (d.pending v).take line.length = line := by rw [hsplit, List.take_left]
    have hafter : (d.pending v).drop (line.length + 1) = after := by
      rw [← List.drop_drop, hsplit, List.drop_left]
      rfl
    rw [hbefore, hafter]
    refine ⟨?_, ?_, ?_⟩
    · simp only [lines, commands_of_serving (serving_serve_self ..)]
      simp only [serve, receive, Function.update_self, List.map_append, List.map_cons, List.map_nil]
      rw [← htaken, List.append_assoc, lines, commands_of_idle hidle]
      rfl
    · simpa [serve, receive] using hrest
    · simpa [serve, receive] using h.client

theorem Framed.step (h : Framed d v) {m : ServerMove ι}
    (hstep : d.step cfg nodeId m = some d') : Framed d' v := by
  cases step_inv hstep with
  | act hcall hrunning hc => exact h.congr rfl rfl rfl
  | @read u buffer hidle hpending =>
    by_cases hv : v = u
    · subst hv
      exact h.read buffer hpending
    · exact h.congr rfl (Function.update_of_ne hv ..) (Function.update_of_ne hv ..)
  | @hangUp u hidle hpending =>
    by_cases hv : v = u
    · subst hv
      have htaken := h.taken
      rw [commandLines_of_not_mem hpending, List.append_nil] at htaken
      refine ⟨?_, ?_, ?_⟩
      · simp only [receive, Function.update_self, List.flatMap_append, ← htaken]
        rfl
      · simp [receive]
      · simp [receive]
    · exact h.congr rfl (Function.update_of_ne hv ..) (Function.update_of_ne hv ..)
  | @take u nl hidle hnl =>
    by_cases hv : v = u
    · subst hv
      exact h.take hidle hnl
    · refine h.congr ?_ (Function.update_of_ne hv ..) (Function.update_of_ne hv ..)
      rw [lines, commands_congr (serving_serve_of_ne hv) rfl]
      rfl
  | ask hserving ha => exact h.congr (lines_serve hserving rfl) rfl rfl
  | call hserving ha hrole hc =>
    exact h.congr (lines_serve (d := d.setCluster _) hserving rfl) rfl rfl
  | returned hserving hph ha => exact h.congr (lines_serve hserving rfl) rfl rfl
  | stop hserving hasleep => exact h.congr (lines_serve (d := d.halt _) hserving rfl) rfl rfl
  | @respond u cmd resp hserving =>
    refine h.congr ?_ rfl rfl
    unfold lines
    by_cases hv : v = u
    · subst hv
      rw [commands_of_serving hserving, commands_of_idle (Function.update_self ..)]
      simp
    · rw [commands_congr (Function.update_of_ne hv ..) (Function.update_of_ne hv ..)]

theorem Runs.framed (h : Runs cfg nodeId P init d) (v : ι) : Framed d v := by
  induction h with
  | start => exact ⟨rfl, rfl, by simp [init]⟩
  | step m _ _ hstep ih => exact ih.step hstep

omit [DecidableEq ι] in
/-- Values that were sent are on one line. -/
theorem ReadsSent.onOneLine {q : Call} {a : q.Answer ι} (h : d.ReadsSent q a) : OnOneLine q a := by
  cases q with
  | get key =>
    cases a with
    | none => trivial
    | some value =>
      obtain ⟨u, line, -, hwords⟩ := h
      have htoken : Token value := by
        have hmem : value ∈ words 3 line := by simp [hwords]
        exact token_of_mem_words hmem
      intro hmem
      have hspace := htoken.2 _ hmem
      revert hspace
      decide
  | _ => trivial

end Served

namespace Served

/-- Nodes that have led. -/
theorem led_step {m : ServerMove ι} (hP : ∀ a ∈ d.action? m, P d.cluster a)
    (hstep : d.step cfg nodeId m = some d') {l : ι} {t : ℕ} (h : d.cluster.Led cfg P l t) :
    d'.cluster.Led cfg P l t := by
  rcases cluster_step hstep with heq | ⟨a, ha, hc⟩
  · rwa [heq]
  · exact h.step (hP a ha) hc

theorem Runs.hints_led (h : Runs cfg nodeId P init d) {cmd : Command ι}
    (hcmd : cmd ∈ d.commands v) :
    ∀ t ∈ cmd.asked, Hints (fun l => ∃ t, d.cluster.Led cfg P l t) t.1 t.2 := by
  refine h.replies (G := fun d _ _ t => Hints (fun l => ∃ t, d.cluster.Led cfg P l t) t.1 t.2)
    (fun d v made t hd hgiven => ?_) (fun _ _ _ _ _ ht => ht)
    (fun d d' v made t m _ hP hstep ht => ?_) v cmd hcmd
  · cases hgiven with
    | @now q a ha =>
      cases q with
      | leaderId =>
        cases a with
        | none => trivial
        | some l => exact hd.cluster.hint_led (Option.some.inj ha)
      | _ => trivial
    | @returned q a i ok x hi hx hq =>
      cases q with
      | leaderId => simp [Call.update?] at hq
      | _ => trivial
  · obtain ⟨q, a⟩ := t
    cases q with
    | leaderId =>
      cases a with
      | none => trivial
      | some l =>
        obtain ⟨t, ht⟩ := ht
        exact ⟨t, led_step hP hstep ht⟩
    | _ => trivial

end Served

/-- **Redirections name nodes that led.** In every run of the program, if the client goes on to
another port with its command, it is the port of a node that has been the leader of some term. -/
theorem redirect_hasLed (h : Served.Runs cfg nodeId (fun _ _ => True) Served.init d)
    {x : Exchange ι} (hx : x ∈ d.written v) {port : ℤ}
    (hport : redirect (cString x.resp) = some port) :
    ∃ l t, portForNode (nodeId l) = port ∧ d.cluster.Led cfg (fun _ _ => True) l t := by
  have hshould : RedirectsTo nodeId (fun l => ∃ t, d.cluster.Led cfg (fun _ _ => True) l t)
      x.resp := by
    refine h.response hx _ (ClusterDemo.meets_handleCommand (handles_redirect nodeId _ x.line)
      ⟨trivial, fun l hl hpos => redirectsTo_notLeaderAt hl hpos⟩ trivial) fun t ht => ?_
    exact h.hints_led (Served.command_mem hx) t ht
  obtain ⟨l, ⟨t, ht⟩, hl⟩ := hshould port hport
  exact ⟨l, t, hl, ht⟩

/-- Node 1 heard from node 0 and turns a put down. -/
def toldOne : List (ServerMove (Fin 3)) :=
  electZero.map .act ++
    ([.heartbeatTick 0, .heartbeatBuild 0, .deliverHeartbeat 0] : List (Action (Fin 3))).map .act ++
    [.read 1 (str "PUT a 1\n"), .take 1, .ask 1, .ask 1, .ask 1, .respond 1]

/-- The theorem at that put. -/
theorem redirect_hasLed_toldOne :
    let d := (Served.init.run Config.three nodeIds (fun _ _ => True) toldOne).getD Served.init
    ∃ l t, portForNode (nodeIds l) = 9101 ∧ d.cluster.Led Config.three (fun _ _ => True) l t := by
  intro d
  obtain ⟨x, hx, hport⟩ : ∃ x ∈ d.written 1, redirect (cString x.resp) = some 9101 := by
    decide +kernel
  exact redirect_hasLed (.of_isSome (by decide +kernel)) hx hport

/-! ## Behind `STOPPED` -/

/-- The threads of a node are where they look at `running_`. -/
structure Cluster.Asleep (c : Cluster ι) (v : ι) : Prop where
  election : c.election v = .sleeping
  heartbeat : c.heartbeat v = .sleeping
  apply : c.apply v = .sleeping

omit [DecidableEq ι] in
theorem Cluster.Asleep.of_asleep {c : Cluster ι} (h : c.asleep v = true) : c.Asleep v := by
  unfold Cluster.asleep at h
  split at h
  · exact ⟨‹_›, ‹_›, ‹_›⟩
  · simp at h

section

variable {c c' : Cluster ι} {a : Action ι}

theorem Cluster.election_asleep (h : c.election v = .sleeping) (hwakes : v ∉ a.wakes?)
    (hstep : c.step cfg a = some c') : c'.election v = .sleeping := by
  have hset : ∀ {d : Cluster ι} {u : ι} {th th' : ElectionThread ι}, d.election = c.election →
      c.election u = th' → th' ≠ .sleeping → (d.setElection u th).election v = .sleeping := by
    intro d u th th' hd hu hth'
    have hv : v ≠ u := by
      rintro rfl
      exact hth' (hu.symm.trans h)
    exact (Function.update_of_ne hv ..).trans (hd ▸ h)
  cases Cluster.step_inv hstep with
  | @electionTimeout u hth hrole =>
    have hv : v ≠ u := by
      rintro rfl
      exact hwakes rfl
    exact (Function.update_of_ne hv ..).trans h
  | startElection hth => exact hset (d := c.setNode _ _) rfl hth (by simp)
  | deliverVote hth => exact hset (d := c.setNode _ _) rfl hth (by simp)
  | loseVote hth => exact hset rfl hth (by simp)
  | voteReply hth => exact hset (d := c.setNode _ _) rfl hth (by simp)
  | proposePut => unfold Cluster.propose; split_ifs <;> exact h
  | proposeDel => unfold Cluster.propose; split_ifs <;> exact h
  | _ => exact h

theorem Cluster.heartbeat_asleep (h : c.heartbeat v = .sleeping) (hwakes : v ∉ a.wakes?)
    (hstep : c.step cfg a = some c') : c'.heartbeat v = .sleeping := by
  have hset : ∀ {d : Cluster ι} {u : ι} {th th' : HeartbeatThread ι}, d.heartbeat = c.heartbeat →
      c.heartbeat u = th' → th' ≠ .sleeping → (d.setHeartbeat u th).heartbeat v = .sleeping := by
    intro d u th th' hd hu hth'
    have hv : v ≠ u := by
      rintro rfl
      exact hth' (hu.symm.trans h)
    exact (Function.update_of_ne hv ..).trans (hd ▸ h)
  cases Cluster.step_inv hstep with
  | @heartbeatTick u hth hrole =>
    have hv : v ≠ u := by
      rintro rfl
      exact hwakes rfl
    exact (Function.update_of_ne hv ..).trans h
  | heartbeatBuild hth => exact hset rfl hth (by simp)
  | deliverHeartbeat hth => exact hset (d := c.setNode _ _) rfl hth (by simp)
  | loseHeartbeat hth => exact hset rfl hth (by simp)
  | heartbeatReply hth => exact hset (d := c.setNode _ _) rfl hth (by simp)
  | proposePut => unfold Cluster.propose; split_ifs <;> exact h
  | proposeDel => unfold Cluster.propose; split_ifs <;> exact h
  | _ => exact h

theorem Cluster.apply_asleep (h : c.apply v = .sleeping) (hwakes : v ∉ a.wakes?)
    (hstep : c.step cfg a = some c') :
    c'.apply v = .sleeping ∧ c'.applied v = c.applied v := by
  cases Cluster.step_inv hstep with
  | @applyTake u e hth hlt hget =>
    have hv : v ≠ u := by
      rintro rfl
      exact hwakes rfl
    exact ⟨(Function.update_of_ne hv ..).trans h, rfl⟩
  | @applyRun u i e hth =>
    have hv : v ≠ u := by
      rintro rfl
      rw [h] at hth
      simp at hth
    exact ⟨(Function.update_of_ne hv ..).trans h, Function.update_of_ne hv ..⟩
  | proposePut => unfold Cluster.propose; split_ifs <;> exact ⟨h, rfl⟩
  | proposeDel => unfold Cluster.propose; split_ifs <;> exact ⟨h, rfl⟩
  | _ => exact ⟨h, rfl⟩

/-- Threads that do not look stay where they are, and the node hands nothing over. -/
theorem Cluster.Asleep.step (h : c.Asleep v) (hwakes : v ∉ a.wakes?)
    (hstep : c.step cfg a = some c') : c'.Asleep v ∧ c'.applied v = c.applied v := by
  obtain ⟨happly, happlied⟩ := Cluster.apply_asleep h.apply hwakes hstep
  exact ⟨⟨Cluster.election_asleep h.election hwakes hstep,
    Cluster.heartbeat_asleep h.heartbeat hwakes hstep, happly⟩, happlied⟩

/-- The node does not become leader. -/
theorem Cluster.Asleep.leads (h : c.Asleep v) (hstep : c.step cfg a = some c')
    (hrole : (c'.nodes v).role = .leader) :
    (c.nodes v).role = .leader ∧ (c'.nodes v).currentTerm = (c.nodes v).currentTerm := by
  have hquiet : ∀ {n : RaftNode ι}, Quiet (c.nodes v) n → n.role = .leader →
      (c.nodes v).role = .leader ∧ n.currentTerm = (c.nodes v).currentTerm := fun hq hn =>
    ⟨(hq.leader hn).1, (hq.leader hn).2.1⟩
  have hvisit := Cluster.nodes_visit hstep v
  generalize c'.nodes v = n at hvisit hrole ⊢
  cases hvisit with
  | same => exact ⟨hrole, rfl⟩
  | startElection => simp [Cluster.step, h.election] at hstep
  | onRequestVote => exact hquiet (quiet_onRequestVote _ _) hrole
  | voteReply => simp [Cluster.step, h.election] at hstep
  | @onAppendEntries a req hdel =>
    by_cases hlt : req.term < (c.nodes v).currentTerm
    · rw [RaftNode.onAppendEntries_of_lt hlt] at hrole ⊢
      exact ⟨hrole, rfl⟩
    · rw [(RaftNode.onAppendEntries_appended (Nat.not_lt.mp hlt)).role] at hrole
      simp at hrole
  | heartbeatReply hth => simp [h.heartbeat] at hth
  | propose hlead => exact ⟨hlead, rfl⟩
  | proposalReply => exact hquiet (quiet_proposalReply _ _ _ _ _ _) hrole
  | notifyReply => exact hquiet (quiet_notifyReply _ _ _ _) hrole
  | applyTake hlt => exact ⟨hrole, rfl⟩

end

namespace Served

omit [DecidableEq ι] in
/-- No thread looks at `running_` for a call. -/
theorem wakes_action {q : Call} {a : Action ι} (ha : q.action? u = some a) : a.wakes? = none := by
  cases q with
  | proposePut key value =>
    obtain rfl := Option.some.inj ha
    rfl
  | proposeDel key =>
    obtain rfl := Option.some.inj ha
    rfl
  | _ => simp [Call.action?] at ha

/-- Threads that have ended do not look any more. -/
theorem halted_step (hv : d.running v = false) {m : ServerMove ι}
    (hstep : d.step cfg nodeId m = some d') :
    d'.running v = false ∧ ∀ a ∈ d.action? m, v ∉ a.wakes? := by
  cases step_inv hstep with
  | @act a c hcall hrunning hc =>
    refine ⟨hv, fun a' ha hwakes => ?_⟩
    obtain rfl := Option.some.inj ha
    rw [hrunning v hwakes] at hv
    simp at hv
  | @call u cmd q next a c hserving ha hrole hc =>
    refine ⟨hv, fun a' ha' => ?_⟩
    simp only [action?, hserving] at ha'
    rw [wakes_action ha']
    simp
  | @stop u cmd next hserving hasleep =>
    refine ⟨?_, fun a ha => by simp [action?] at ha⟩
    show Function.update d.running u false v = false
    by_cases hu : v = u
    · subst hu
      exact Function.update_self ..
    · rwa [Function.update_of_ne hu]
  | _ => exact ⟨hv, fun a ha => by simp [action?] at ha⟩

/-- They were where they look when they ended. -/
theorem Runs.asleep (h : Runs cfg nodeId P init d) (hv : d.running v = false) :
    d.cluster.Asleep v := by
  induction h with
  | start => simp [init] at hv
  | @step d₁ d₂ m hruns hP hstep ih =>
    by_cases hold : d₁.running v = false
    · rcases cluster_step hstep with heq | ⟨a, ha, hc⟩
      · rw [heq]
        exact ih hold
      · exact ((ih hold).step ((halted_step hold hstep).2 a ha) hc).1
    · cases step_inv hstep with
      | @stop u cmd next hserving hasleep =>
        by_cases hu : v = u
        · subst hu
          exact .of_asleep hasleep
        · exact absurd ((Function.update_of_ne hu ..).symm.trans hv) hold
      | _ => exact absurd hv hold

/-- The node hands nothing over any more, and is not elected. -/
theorem Runs.halted (h : Runs cfg nodeId P init d) (hv : d.running v = false)
    (h' : Runs cfg nodeId P d d') :
    d'.running v = false ∧ d'.cluster.applied v = d.cluster.applied v ∧
      ((d'.cluster.nodes v).role = .leader → (d.cluster.nodes v).role = .leader ∧
        (d'.cluster.nodes v).currentTerm = (d.cluster.nodes v).currentTerm) := by
  induction h' with
  | start => exact ⟨hv, rfl, fun hrole => ⟨hrole, rfl⟩⟩
  | @step d₁ d₂ m hruns hP hstep ih =>
    obtain ⟨hv₁, happlied, hleads⟩ := ih
    obtain ⟨hv₂, hwakes⟩ := halted_step hv₁ hstep
    rcases cluster_step hstep with heq | ⟨a, ha, hc⟩
    · rw [heq]
      exact ⟨hv₂, happlied, hleads⟩
    · have hasleep := (h.trans hruns).asleep hv₁
      refine ⟨hv₂, (hasleep.step (hwakes a ha) hc).2.trans happlied, fun hrole => ?_⟩
      obtain ⟨hrole₁, hterm⟩ := hasleep.leads hc hrole
      exact ⟨(hleads hrole₁).1, hterm.trans (hleads hrole₁).2⟩

/-- Commands whose handler stopped the node. -/
theorem Runs.stopped (h : Runs cfg nodeId P init d) {cmd : Command ι} (hcmd : cmd ∈ d.commands v)
    (hstop : ⟨.stop, ()⟩ ∈ cmd.asked) : d.running v = false := by
  refine h.replies (G := fun d v _ t => t.1 = .stop → d.running v = false)
    (fun d v made t hd hgiven hq => ?_) (fun _ _ _ _ _ ht => ht)
    (fun d d' v made t m _ _ hstep ht hq => (halted_step (ht hq) hstep).1) v cmd hcmd _ hstop rfl
  cases hgiven with
  | @now q a ha =>
    obtain rfl : q = .stop := hq
    simpa [answer?] using ha
  | @returned q a i ok x hi hx hupdate =>
    obtain rfl : q = .stop := hq
    simp [Call.update?] at hupdate

/-- The replies in which what was read is what the store has now. -/
def ReadsNow (d : Served ι) (v : ι) : ∀ q : Call, q.Answer ι → Prop
  | .get key, value => value = (d.cluster.storeOf {} v).get key
  | _, _ => True

omit [DecidableEq ι] in
theorem ReadsNow.congr {q : Call} {a : q.Answer ι} (h : d.ReadsNow v q a)
    (happlied : d'.cluster.applied v = d.cluster.applied v) : d'.ReadsNow v q a := by
  cases q with
  | get key =>
    have hstore : d'.cluster.storeOf {} v = d.cluster.storeOf {} v := by
      rw [Cluster.storeOf, happlied, Cluster.storeOf]
    exact h.trans (by rw [hstore])
  | _ => trivial

omit [DecidableEq ι] in
theorem Given.readsNow {made : List ℕ} {t : Prog.Reply Call (Call.Answer ι)}
    (h : Given d v made t) : d.ReadsNow v t.1 t.2 := by
  cases h with
  | @now q a ha =>
    cases q with
    | get key => exact (Option.some.inj ha).symm
    | _ => trivial
  | @returned q a i ok x hi hx hq =>
    cases q with
    | get key => simp [Call.update?] at hq
    | _ => trivial

/-- Commands behind one that stopped the node read what the store has now. -/
def Frozen (d : Served ι) (v : ι) : Prop :=
  (d.commands v).Pairwise fun cmd cmd' =>
    ⟨.stop, ()⟩ ∈ cmd.asked → ∀ t ∈ cmd'.asked, d.ReadsNow v t.1 t.2

theorem Runs.frozen (h : Runs cfg nodeId P init d) (v : ι) : Frozen d v := by
  induction h with
  | start => simp [Frozen, commands, init]
  | @step d₁ d₂ m hruns hP hstep ih =>
    -- behind a stop the store stays
    have hold : (d₁.commands v).Pairwise fun cmd cmd' =>
        ⟨.stop, ()⟩ ∈ cmd.asked → ∀ t ∈ cmd'.asked, d₂.ReadsNow v t.1 t.2 := by
      refine List.Pairwise.imp_of_mem (fun {cmd cmd'} hcmd _ hreads hstop t ht => ?_) ih
      have hv := hruns.stopped hcmd hstop
      exact (hreads hstop t ht).congr (hruns.halted hv (.step m .start hP hstep)).2.1
    unfold Frozen
    cases hruns.handled.change hstep v with
    | same hcommands => rwa [hcommands]
    | taken hcommands =>
      rw [hcommands, List.pairwise_append]
      refine ⟨hold, List.pairwise_singleton _ _, fun cmd _ cmd' hcmd' _ t ht => ?_⟩
      obtain rfl := List.mem_singleton.mp hcmd'
      simp at ht
    | @replied before cmd₀ t₀ hwas hnew hgiven =>
      rw [hwas, List.pairwise_append] at hold
      rw [hnew, List.pairwise_append]
      refine ⟨hold.1, List.pairwise_singleton _ _, fun cmd hcmd cmd' hcmd' hstop t ht => ?_⟩
      obtain rfl := List.mem_singleton.mp hcmd'
      rcases List.mem_append.mp ht with ht | ht
      · exact hold.2.2 cmd hcmd cmd₀ (List.mem_singleton_self _) hstop t ht
      · obtain rfl := List.mem_singleton.mp ht
        exact hgiven.readsNow
    | @called before cmd₀ q next x hwas hnew =>
      rw [hwas, List.pairwise_append] at hold
      rw [hnew, List.pairwise_append]
      refine ⟨hold.1, List.pairwise_singleton _ _, fun cmd hcmd cmd' hcmd' => ?_⟩
      obtain rfl := List.mem_singleton.mp hcmd'
      exact hold.2.2 cmd hcmd cmd₀ (List.mem_singleton_self _)

omit [DecidableEq ι] in
/-- Only what stopped the node answers `STOPPED`. -/
theorem handles_stopped (line : Bytes) (S : ∀ q : Call, q.Answer ι → Prop) :
    Handles line (fun _ => True) S (fun r => r = str "STOPPED\n" → S .stop ()) where
  fixed := by
    have hne : ∀ r ∈ fixedResponses, r ≠ str "STOPPED\n" := by decide
    exact fun r hr heq => absurd heq (hne r hr)
  role := trivial
  get k _ := ⟨trivial, fun v _ heq => by
    have hhead : some (86 : UInt8) = some 83 := congrArg List.head? heq
    exact absurd hhead (by decide)⟩
  size := ⟨trivial, fun n _ heq => by
    have hnext : some (73 : UInt8) = some 84 := congrArg (·[1]?) heq
    exact absurd hnext (by decide)⟩
  put _ _ _ := ⟨trivial, fun _ heq => absurd heq (by decide)⟩
  del _ _ := ⟨trivial, fun _ heq => absurd heq (by decide)⟩
  stop := ⟨trivial, fun h _ => h⟩

theorem written_step {m : ServerMove ι} (hstep : d.step cfg nodeId m = some d') :
    d.written v <+: d'.written v := by
  cases step_inv hstep with
  | @respond u cmd resp hserving =>
    show d.written v <+: Function.update d.written u _ v
    by_cases hu : v = u
    · subst hu
      rw [Function.update_self]
      exact List.prefix_append _ _
    · rw [Function.update_of_ne hu]
  | _ => exact List.prefix_rfl

theorem Runs.written_grow (h : Runs cfg nodeId P d d') : d.written v <+: d'.written v := by
  induction h with
  | start => exact List.prefix_rfl
  | step m _ _ hstep ih => exact ih.trans (written_step hstep)

end Served

/-- **Behind `STOPPED`.** In every run of the program, once a server has answered `STOPPED` its
node hands nothing over to its store any more and becomes leader of no further term, and from then
on the server answers every `GET` with what the store had, whatever it answers to `PUT`s. -/
theorem stopped_frozen (h : Served.Runs cfg nodeId (fun _ _ => True) Served.init d)
    (h' : Served.Runs cfg nodeId (fun _ _ => True) d d') {x : Exchange ι} (hx : x ∈ d.written v)
    (hresp : x.resp = str "STOPPED\n") :
    d'.cluster.applied v = d.cluster.applied v ∧
      ((d'.cluster.nodes v).role = .leader → (d.cluster.nodes v).role = .leader ∧
        (d'.cluster.nodes v).currentTerm = (d.cluster.nodes v).currentTerm) ∧
      ∀ y ∈ (d'.written v).drop (d.written v).length, ∀ key,
        words 2 y.line = [str "GET", key] →
          y.resp = readResponse ((d.cluster.storeOf {} v).get key) := by
  have hstop : ⟨.stop, ()⟩ ∈ x.asked := by
    refine h.response hx (fun r => r = str "STOPPED\n" → ⟨.stop, ()⟩ ∈ x.asked)
      (ClusterDemo.meets_handleCommand
        (Served.handles_stopped x.line fun q a => ⟨q, a⟩ ∈ x.asked)
        ⟨trivial, fun _ _ _ heq => ?_⟩ trivial) (fun t ht => ht) hresp
    have hhead : some (78 : UInt8) = some 83 := congrArg List.head? heq
    exact absurd hhead (by decide)
  have hrun := h.trans h'
  obtain ⟨-, happlied, hleads⟩ := h.halted (h.stopped (Served.command_mem hx) hstop) h'
  refine ⟨happlied, hleads, fun y hy key hline => ?_⟩
  -- the exchanges since then are behind the one that stopped the node
  have hbehind : ∀ t ∈ y.asked, d'.ReadsNow v t.1 t.2 := by
    have hfrozen := hrun.frozen v
    unfold Served.Frozen Served.commands at hfrozen
    have hpairs := (List.pairwise_append.mp hfrozen).1
    obtain ⟨late, hlate⟩ := Served.Runs.written_grow (v := v) h'
    rw [← hlate, List.drop_left] at hy
    rw [← hlate, List.map_append, List.pairwise_append] at hpairs
    exact hpairs.2.2 _ (List.mem_map_of_mem hx) _ (List.mem_map_of_mem hy) hstop
  have hstore : d'.cluster.storeOf {} v = d.cluster.storeOf {} v := by
    rw [Cluster.storeOf, happlied, Cluster.storeOf]
  rw [← hstore]
  refine hrun.response (List.mem_of_mem_drop hy)
    (fun r => r = readResponse ((d'.cluster.storeOf {} v).get key))
    (ClusterDemo.meets_handleCommand_get hline trivial trivial fun a ha => ?_) hbehind
  obtain rfl : a = (d'.cluster.storeOf {} v).get key := ha
  rfl

/-- The next command of node 0 stops it. -/
def stoppedZero : List (ServerMove (Fin 3)) := [.take 0, .ask 0, .stop 0, .respond 0]

/-- The theorem at a read behind that. -/
theorem stopped_frozen_stoppedZero :
    let d := (Served.init.run Config.three nodeIds (fun _ _ => True)
      (toldZero ++ stoppedZero)).getD Served.init
    let d' := (d.run Config.three nodeIds (fun _ _ => True)
      [.read 0 (str "GET a\n"), .take 0, .ask 0, .ask 0, .respond 0]).getD d
    ∃ y ∈ d'.written 0, y.resp = readResponse ((d.cluster.storeOf {} 0).get (str "a")) := by
  intro d d'
  obtain ⟨x, hx, hresp⟩ : ∃ x ∈ d.written 0, x.resp = str "STOPPED\n" := by decide +kernel
  obtain ⟨y, hy, hline⟩ : ∃ y ∈ (d'.written 0).drop (d.written 0).length,
      words 2 y.line = [str "GET", str "a"] := by decide +kernel
  have h : Served.Runs Config.three nodeIds (fun _ _ => True) Served.init d :=
    .of_isSome (by decide +kernel)
  have h' : Served.Runs Config.three nodeIds (fun _ _ => True) d d' :=
    .of_isSome (by decide +kernel)
  exact ⟨y, List.mem_of_mem_drop hy, (stopped_frozen h h' hx hresp).2.2 y hy _ hline⟩

end KvEngine
