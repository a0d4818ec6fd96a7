import KvEngine.Raft.Hints
import KvEngine.Raft.Reads
import KvEngine.Server.Command

/-!
# The served cluster

The program of `src/cluster_demo.cpp`: nodes that are started with an empty store each, and a
server thread for each of them, which accepts one client after the other and runs
`handle_command` on its lines. `KILL` stops the threads of the node, but not its server, and not
the handlers that its peers call. Writes reach the cluster through servers only.

A step is one critical section, as for the cluster: `read` returns, a line is taken, a handler
asks and is answered, a response is written.

Results:
* `Served.Runs.cluster`: a run of the program is a run of the cluster.
* `Served.Runs.replies`: what holds of a reply when it is given, and stays, holds of all replies
  that handlers got.
* `Served.Runs.response`: so the responses are what handlers make of such replies.
-/

namespace KvEngine

open Consensus Systems

variable {ι : Type}

/-! ## Servers -/

/-- A command that was taken: its line and, which the code does not keep, what its handler asked
and was answered, and which proposals of its node it made. -/
structure Command (ι : Type) where
  line : Bytes
  asked : List (Prog.Reply Call (Call.Answer ι)) := []
  made : List ℕ := []

/-- The updates that a command asked for and got replies to. -/
def Command.updates (cmd : Command ι) : ℕ := cmd.asked.countP fun t => t.1.update?.isSome

/-- A command under way: what is left of the handler, and the proposal it waits for. -/
structure Serving (ι : Type) extends Command ι where
  left : Asking ι Bytes
  waits : Option ℕ := none

/-- A command that was answered. -/
structure Exchange (ι : Type) extends Command ι where
  resp : Bytes

/-- The nodes, whether their threads run, and what their servers do: the bytes they have not
taken yet, the command under way, what they wrote, and, which the code does not keep, what each
of their clients sent so far. -/
structure Served (ι : Type) where
  cluster : Cluster ι
  running : ι → Bool
  pending : ι → Bytes
  serving : ι → Option (Serving ι)
  written : ι → List (Exchange ι)
  streams : ι → List Bytes

/-- What happens next. -/
inductive ServerMove (ι : Type) where
  /-- Another thread than a server, or the delivery or loss of a request. -/
  | act (a : Action ι)
  /-- `read` returns a buffer. -/
  | read (v : ι) (buffer : Bytes)
  /-- `read` fails or returns 0, and the next client is accepted. -/
  | hangUp (v : ι)
  /-- The next line goes to `handle_command`. -/
  | take (v : ι)
  /-- The handler asks and is answered at once. -/
  | ask (v : ι)
  /-- It calls `ProposePut` or `ProposeDel` on a node that leads. -/
  | call (v : ι)
  /-- That call returns. -/
  | returned (v : ι)
  /-- `Stop` has joined the threads. -/
  | stop (v : ι)
  /-- The response is written. -/
  | respond (v : ι)

/-- Servers make these. -/
def Action.isCall : Action ι → Bool
  | .proposePut _ _ _ => true
  | .proposeDel _ _ => true
  | _ => false

/-- The node one of whose threads has looked at `running_` before this. -/
def Action.wakes? : Action ι → Option ι
  | .electionTimeout v => some v
  | .heartbeatTick v => some v
  | .applyTake v => some v
  | _ => none

/-- The call that a question makes on a leader. -/
def Call.action? (v : ι) : Call → Option (Action ι)
  | .proposePut key value => some (.proposePut v key value)
  | .proposeDel key => some (.proposeDel v key)
  | _ => none

/-- What the call returned. -/
def Call.returned? (ok : Bool) : (q : Call) → Option (q.Answer ι)
  | .proposePut _ _ => some ok
  | .proposeDel _ => some ok
  | _ => none

/-- The threads of the node are where they look at `running_`. -/
def Cluster.asleep (c : Cluster ι) (v : ι) : Bool :=
  match c.election v, c.heartbeat v, c.apply v with
  | .sleeping, .sleeping, .sleeping => true
  | _, _, _ => false

namespace Served

/-- The nodes were started, and the servers listen. -/
def init : Served ι where
  cluster := .init
  running _ := true
  pending _ := []
  serving _ := none
  written _ := []
  streams _ := [[]]

/-- What the node `v` and its store answer at once. -/
def answer? (d : Served ι) (v : ι) : (q : Call) → Option (q.Answer ι)
  | .role => some (d.cluster.nodes v).role
  | .leaderId => some (d.cluster.nodes v).leaderId
  | .get key => some ((d.cluster.storeOf {} v).get key)
  | .size => some (d.cluster.storeOf {} v).size
  | .proposePut _ _ => if (d.cluster.nodes v).role = .leader then none else some false
  | .proposeDel _ => if (d.cluster.nodes v).role = .leader then none else some false
  | .stop => if d.running v then none else some ()
  -- only the standalone server has `FLUSH`
  | .flushWal => none
  | .undefined => none

/-- All commands a server has taken. -/
def commands (d : Served ι) (v : ι) : List (Command ι) :=
  (d.written v).map Exchange.toCommand ++ (d.serving v).toList.map Serving.toCommand

variable [DecidableEq ι]

/-- The server of `v` goes on with its command. -/
def serve (d : Served ι) (v : ι) (s : Serving ι) : Served ι :=
  { d with serving := Function.update d.serving v (some s) }

@[simp] theorem serving_serve_self (d : Served ι) (v : ι) (s : Serving ι) :
    (d.serve v s).serving v = some s := Function.update_self ..

theorem serving_serve_of_ne {d : Served ι} {u v : ι} {s : Serving ι} (h : u ≠ v) :
    (d.serve v s).serving u = d.serving u := Function.update_of_ne h ..

def setCluster (d : Served ι) (c : Cluster ι) : Served ι := { d with cluster := c }

/-- The threads of `v` have ended. -/
def halt (d : Served ι) (v : ι) : Served ι :=
  { d with running := Function.update d.running v false }

/-- The server of `v` has these bytes before it, of clients that sent these streams. -/
def receive (d : Served ι) (v : ι) (bytes : Bytes) (streams : List Bytes) : Served ι :=
  { d with
    pending := Function.update d.pending v bytes
    streams := Function.update d.streams v streams }

/-- One move; `none` when the thread is not at that point. -/
def step (cfg : Config ι) (nodeId : ι → ℤ) (d : Served ι) : ServerMove ι → Option (Served ι)
  | .act a =>
    if a.isCall = true ∨ ∃ v ∈ a.wakes?, d.running v = false then none
    else (d.cluster.step cfg a).map d.setCluster
  | .read v buffer =>
    if (d.serving v).isNone = true ∧ newline ∉ d.pending v then
      some (d.receive v (d.pending v ++ buffer)
        ((d.streams v).dropLast ++ [(d.streams v).getLast?.getD [] ++ buffer]))
    else none
  | .hangUp v =>
    if (d.serving v).isNone = true ∧ newline ∉ d.pending v then
      some (d.receive v [] (d.streams v ++ [[]]))
    else none
  | .take v =>
    match d.serving v, findFrom (d.pending v) newline 0 with
    | none, some nl =>
      let line := popReturn ((d.pending v).take nl)
      let d := d.receive v ((d.pending v).drop (nl + 1)) (d.streams v)
      some (d.serve v
        { line := line, left := ClusterDemo.handleCommand nodeId true line })
    | _, _ => none
  | .ask v =>
    match d.serving v with
    | some ⟨⟨line, asked, made⟩, .ask q next, none⟩ =>
      (d.answer? v q).map fun a => d.serve v ⟨⟨line, asked ++ [⟨q, a⟩], made⟩, next a, none⟩
    | _ => none
  | .call v =>
    match d.serving v with
    | some ⟨⟨line, asked, made⟩, .ask q next, none⟩ =>
      match q.action? v with
      | none => none
      | some a =>
        let i := (d.cluster.proposals v).length
        if (d.cluster.nodes v).role = .leader then
          (d.cluster.step cfg a).map fun c =>
            (d.setCluster c).serve v ⟨⟨line, asked, made ++ [i]⟩, .ask q next, some i⟩
        else none
    | _ => none
  | .returned v =>
    match d.serving v with
    | some ⟨⟨line, asked, made⟩, .ask q next, some i⟩ =>
      match d.cluster.phase? v i with
      | some (.returned ok) =>
        (q.returned? ok).map fun a => d.serve v ⟨⟨line, asked ++ [⟨q, a⟩], made⟩, next a, none⟩
      | _ => none
    | _ => none
  | .stop v =>
    match d.serving v with
    | some ⟨⟨line, asked, made⟩, .ask .stop next, none⟩ =>
      if d.running v = true ∧ d.cluster.asleep v = true then
        some ((d.halt v).serve v ⟨⟨line, asked ++ [⟨.stop, ()⟩], made⟩, next (), none⟩)
      else none
    | _ => none
  | .respond v =>
    match d.serving v with
    | some ⟨cmd, .done resp, none⟩ =>
      some { d with
        serving := Function.update d.serving v none
        written := Function.update d.written v (d.written v ++ [⟨cmd, resp⟩]) }
    | _ => none

/-! ## What a move does -/

/-- What the moves do: one constructor for every way in which `step` goes. -/
inductive Step (cfg : Config ι) (nodeId : ι → ℤ) (d : Served ι) :
    ServerMove ι → Served ι → Prop where
  | act {a : Action ι} {c : Cluster ι} (hcall : a.isCall = false)
      (hrunning : ∀ v ∈ a.wakes?, d.running v = true) (hstep : d.cluster.step cfg a = some c) :
    Step cfg nodeId d (.act a) (d.setCluster c)
  | read {v : ι} {buffer : Bytes} (hidle : d.serving v = none) (hpending : newline ∉ d.pending v) :
    Step cfg nodeId d (.read v buffer) (d.receive v (d.pending v ++ buffer)
      ((d.streams v).dropLast ++ [(d.streams v).getLast?.getD [] ++ buffer]))
  | hangUp {v : ι} (hidle : d.serving v = none) (hpending : newline ∉ d.pending v) :
    Step cfg nodeId d (.hangUp v) (d.receive v [] (d.streams v ++ [[]]))
  | take {v : ι} {nl : ℕ} (hidle : d.serving v = none)
      (hnl : findFrom (d.pending v) newline 0 = some nl) :
    Step cfg nodeId d (.take v)
      ((d.receive v ((d.pending v).drop (nl + 1)) (d.streams v)).serve v
        { line := popReturn ((d.pending v).take nl)
          left := ClusterDemo.handleCommand nodeId true (popReturn ((d.pending v).take nl)) })
  | ask {v : ι} {cmd : Command ι} {q : Call} {next : q.Answer ι → Asking ι Bytes}
      {a : q.Answer ι} (hserving : d.serving v = some ⟨cmd, .ask q next, none⟩)
      (ha : d.answer? v q = some a) :
    Step cfg nodeId d (.ask v)
      (d.serve v ⟨{ cmd with asked := cmd.asked ++ [⟨q, a⟩] }, next a, none⟩)
  | call {v : ι} {cmd : Command ι} {q : Call} {next : q.Answer ι → Asking ι Bytes} {a : Action ι}
      {c : Cluster ι} (hserving : d.serving v = some ⟨cmd, .ask q next, none⟩)
      (ha : q.action? v = some a) (hrole : (d.cluster.nodes v).role = .leader)
      (hstep : d.cluster.step cfg a = some c) :
    Step cfg nodeId d (.call v) ((d.setCluster c).serve v
      ⟨{ cmd with made := cmd.made ++ [(d.cluster.proposals v).length] }, .ask q next,
        some (d.cluster.proposals v).length⟩)
  | returned {v : ι} {cmd : Command ι} {q : Call} {next : q.Answer ι → Asking ι Bytes} {i : ℕ}
      {ok : Bool} {a : q.Answer ι} (hserving : d.serving v = some ⟨cmd, .ask q next, some i⟩)
      (hph : d.cluster.phase? v i = some (.returned ok)) (ha : q.returned? ok = some a) :
    Step cfg nodeId d (.returned v)
      (d.serve v ⟨{ cmd with asked := cmd.asked ++ [⟨q, a⟩] }, next a, none⟩)
  | stop {v : ι} {cmd : Command ι} {next : Unit → Asking ι Bytes}
      (hserving : d.serving v = some ⟨cmd, .ask .stop next, none⟩)
      (hasleep : d.cluster.asleep v = true) :
    Step cfg nodeId d (.stop v)
      ((d.halt v).serve v ⟨{ cmd with asked := cmd.asked ++ [⟨.stop, ()⟩] }, next (), none⟩)
  | respond {v : ι} {cmd : Command ι} {resp : Bytes}
      (hserving : d.serving v = some ⟨cmd, .done resp, none⟩) :
    Step cfg nodeId d (.respond v) { d with
      serving := Function.update d.serving v none
      written := Function.update d.written v (d.written v ++ [⟨cmd, resp⟩]) }

/-- The action of the cluster that a move is, if it is one. -/
def action? (d : Served ι) : ServerMove ι → Option (Action ι)
  | .act a => some a
  | .call v =>
    match d.serving v with
    | some ⟨_, .ask q _, none⟩ => q.action? v
    | _ => none
  | _ => none

variable {cfg : Config ι} {nodeId : ι → ℤ} {d d' : Served ι}

/-- The inversion of `step`. -/
theorem step_inv {m : ServerMove ι} (h : d.step cfg nodeId m = some d') :
    Step cfg nodeId d m d' := by
  cases m with
  | act a =>
    simp only [step] at h
    split_ifs at h with hno
    rw [not_or] at hno
    obtain ⟨c, hc, rfl⟩ := Option.map_eq_some_iff.mp h
    refine .act (by simpa using hno.1) (fun v hv => ?_) hc
    by_contra hstopped
    exact hno.2 ⟨v, hv, by simpa using hstopped⟩
  | read v buffer =>
    simp only [step] at h
    split_ifs at h with hidle
    obtain rfl := Option.some.inj h
    exact .read (Option.isNone_iff_eq_none.mp hidle.1) hidle.2
  | hangUp v =>
    simp only [step] at h
    split_ifs at h with hidle
    obtain rfl := Option.some.inj h
    exact .hangUp (Option.isNone_iff_eq_none.mp hidle.1) hidle.2
  | take v =>
    simp only [step] at h
    split at h
    · obtain rfl := Option.some.inj h
      exact .take ‹_› ‹_›
    · simp at h
  | ask v =>
    simp only [step] at h
    split at h
    · obtain ⟨a, ha, rfl⟩ := Option.map_eq_some_iff.mp h
      exact .ask ‹_› ha
    · simp at h
  | call v =>
    simp only [step] at h
    split at h
    · split at h
      · simp at h
      · split_ifs at h with hrole
        obtain ⟨c, hc, rfl⟩ := Option.map_eq_some_iff.mp h
        exact .call ‹_› ‹_› hrole hc
    · simp at h
  | returned v =>
    simp only [step] at h
    split at h
    · split at h
      · obtain ⟨a, ha, rfl⟩ := Option.map_eq_some_iff.mp h
        exact .returned ‹_› ‹_› ha
      · simp at h
    · simp at h
  | stop v =>
    simp only [step] at h
    split at h
    · split_ifs at h with hstop
      obtain rfl := Option.some.inj h
      exact .stop ‹_› hstop.2
    · simp at h
  | respond v =>
    simp only [step] at h
    split at h
    · obtain rfl := Option.some.inj h
      exact .respond ‹_›
    · simp at h

/-- A run from `d` in which the actions of the cluster satisfy `P`. -/
inductive Runs (cfg : Config ι) (nodeId : ι → ℤ) (P : Cluster ι → Action ι → Prop)
    (d : Served ι) : Served ι → Prop where
  | start : Runs cfg nodeId P d d
  | step {d' d'' : Served ι} (m : ServerMove ι) (h : Runs cfg nodeId P d d')
      (hP : ∀ a ∈ d'.action? m, P d'.cluster a) (hstep : d'.step cfg nodeId m = some d'') :
      Runs cfg nodeId P d d''

/-- A move is an action of the cluster or leaves the cluster as it is. -/
theorem cluster_step {m : ServerMove ι} (h : d.step cfg nodeId m = some d') :
    d'.cluster = d.cluster ∨ ∃ a ∈ d.action? m, d.cluster.step cfg a = some d'.cluster := by
  cases step_inv h with
  | act hcall hrunning hstep => exact .inr ⟨_, rfl, hstep⟩
  | @call v cmd q next a c hserving ha hrole hstep =>
    refine .inr ⟨a, ?_, hstep⟩
    simp only [action?, hserving]
    exact ha
  | _ => exact .inl rfl

/-- A sequence of moves, whose actions of the cluster must satisfy `P`. -/
def run (cfg : Config ι) (nodeId : ι → ℤ) (P : Cluster ι → Action ι → Prop)
    [∀ c a, Decidable (P c a)] (d : Served ι) : List (ServerMove ι) → Option (Served ι)
  | [] => some d
  | m :: ms =>
    if ∀ a ∈ d.action? m, P d.cluster a then
      match d.step cfg nodeId m with
      | none => none
      | some d' => d'.run cfg nodeId P ms
    else none

theorem Runs.head {P : Cluster ι → Action ι → Prop} {d'' : Served ι} {m : ServerMove ι}
    (hP : ∀ a ∈ d.action? m, P d.cluster a) (hstep : d.step cfg nodeId m = some d')
    (h : Runs cfg nodeId P d' d'') : Runs cfg nodeId P d d'' := by
  induction h with
  | start => exact .step m .start hP hstep
  | step m' _ hP' hstep' ih => exact .step m' ih hP' hstep'

theorem Runs.of_run {P : Cluster ι → Action ι → Prop} [∀ c a, Decidable (P c a)]
    {ms : List (ServerMove ι)} (h : d.run cfg nodeId P ms = some d') :
    Runs cfg nodeId P d d' := by
  induction ms generalizing d with
  | nil =>
    obtain rfl := Option.some.inj h
    exact .start
  | cons m ms ih =>
    rw [run] at h
    split_ifs at h with hP
    cases hstep : d.step cfg nodeId m with
    | none => simp [hstep] at h
    | some d₁ =>
      rw [hstep] at h
      exact .head hP hstep (ih h)

theorem Runs.of_isSome {P : Cluster ι → Action ι → Prop} [∀ c a, Decidable (P c a)]
    {ms : List (ServerMove ι)} (h : (d.run cfg nodeId P ms).isSome = true) :
    Runs cfg nodeId P d ((d.run cfg nodeId P ms).getD d) := by
  obtain ⟨d', hd'⟩ := Option.isSome_iff_exists.mp h
  rw [hd']
  exact .of_run hd'

theorem Runs.trans {P : Cluster ι → Action ι → Prop} {d'' : Served ι}
    (h : Runs cfg nodeId P d d') (h' : Runs cfg nodeId P d' d'') : Runs cfg nodeId P d d'' := by
  induction h' with
  | start => exact h
  | step m _ hP hstep ih => exact .step m ih hP hstep

/-- A run of the program is one of the cluster. -/
theorem Runs.cluster {P : Cluster ι → Action ι → Prop} (h : Runs cfg nodeId P d d') :
    Cluster.Runs cfg P d.cluster d'.cluster := by
  induction h with
  | start => exact .start
  | step m _ hP hstep ih =>
    rcases cluster_step hstep with heq | ⟨a, ha, hc⟩
    · rwa [heq]
    · exact .step a ih (hP a ha) hc

/-! ## Commands and calls -/

omit [DecidableEq ι] in
theorem commands_of_serving {v : ι} {s : Serving ι} (h : d.serving v = some s) :
    d.commands v = (d.written v).map Exchange.toCommand ++ [s.toCommand] := by
  simp [commands, h]

omit [DecidableEq ι] in
theorem commands_of_idle {v : ι} (h : d.serving v = none) :
    d.commands v = (d.written v).map Exchange.toCommand := by
  simp [commands, h]

omit [DecidableEq ι] in
theorem commands_congr {v : ι} (hserving : d'.serving v = d.serving v)
    (hwritten : d'.written v = d.written v) : d'.commands v = d.commands v := by
  rw [commands, hserving, hwritten, commands]

/-- A question that is a call on a leader appends its update. -/
theorem calls_action {c c' : Cluster ι} {v : ι} {q : Call} {a : Action ι}
    (ha : q.action? v = some a) (hrole : (c.nodes v).role = .leader)
    (hstep : c.step cfg a = some c') :
    ∃ x, q.update? = some x.1.logOp ∧
      c'.calls = Function.update c.calls v (c.calls v ++ [x]) := by
  have hpropose : ∀ op key value, (c.propose v ((c.nodes v).propose op key value)).calls =
      Function.update c.calls v
        (c.calls v ++
          [(⟨(c.nodes v).currentTerm, op, key, value⟩, (c.nodes v).log.length + 1)]) := by
    intro op key value
    rw [Cluster.propose, if_pos hrole]
    funext u
    by_cases hu : u = v
    · subst hu
      simp [Cluster.calls, RaftNode.propose]
    · simp [Cluster.calls, Function.update_of_ne hu]
  cases q with
  | proposePut key value =>
    obtain rfl := Option.some.inj ha
    obtain rfl := Option.some.inj hstep
    exact ⟨_, rfl, hpropose .put key value⟩
  | proposeDel key =>
    obtain rfl := Option.some.inj ha
    obtain rfl := Option.some.inj hstep
    exact ⟨_, rfl, hpropose .del key []⟩
  | _ => simp [Call.action?] at ha

/-- Nothing else does. -/
theorem calls_of_not_isCall {c c' : Cluster ι} {a : Action ι} (hcall : a.isCall = false)
    (hstep : c.step cfg a = some c') : c'.calls = c.calls := by
  have hseen := Cluster.seen_step hstep
  have hshown : ∀ k e, Cluster.shown c c' a ≠ some (.invoke k e) := by
    intro k e
    cases a with
    | proposePut v key value => simp [Action.isCall] at hcall
    | proposeDel v key => simp [Action.isCall] at hcall
    | _ =>
      simp only [Cluster.shown]
      try split
      all_goals simp
  generalize Cluster.shown c c' a = o at hseen hshown
  cases hseen with
  | invoke => exact absurd rfl (hshown _ _)
  | respond hnow hcalls => exact hcalls
  | hand hheld hcalls => exact hcalls
  | silent hcalls => exact hcalls

/-- A reply that the node or its store gives now, or the return of one of the proposals that
were made. -/
inductive Given (d : Served ι) (v : ι) (made : List ℕ) :
    Prog.Reply Call (Call.Answer ι) → Prop where
  | now {q : Call} {a : q.Answer ι} (ha : d.answer? v q = some a) : Given d v made ⟨q, a⟩
  | returned {q : Call} {a : q.Answer ι} {i : ℕ} {ok : Bool} {x : LogEntry × ℕ} (hi : i ∈ made)
      (hx : (d.cluster.calls v)[i]? = some x) (hq : q.update? = some x.1.logOp)
      (hph : d.cluster.phase? v i = some (.returned ok)) (ha : q.returned? ok = some a) :
    Given d v made ⟨q, a⟩

/-- What its handler asked led a command to where it is, and the proposal it waits for is the one
it made. -/
structure Fits (nodeId : ι → ℤ) (calls : List (LogEntry × ℕ)) (s : Serving ι) : Prop where
  leads : (ClusterDemo.handleCommand nodeId true s.line).Leads s.asked s.left
  made : s.made.length ≤ s.updates + s.waits.toList.length
  waits : ∀ i ∈ s.waits, ∃ q next x, s.left = .ask q next ∧ i ∈ s.made ∧ calls[i]? = some x ∧
    q.update? = some x.1.logOp

omit [DecidableEq ι] in
theorem Fits.mono {calls calls' : List (LogEntry × ℕ)} {s : Serving ι} (h : Fits nodeId calls s)
    (hcalls : calls <+: calls') : Fits nodeId calls' s := by
  refine ⟨h.leads, h.made, fun i hi => ?_⟩
  obtain ⟨q, next, x, hleft, hmade, hx, hq⟩ := h.waits i hi
  exact ⟨q, next, x, hleft, hmade, getElem?_of_isPrefix hcalls hx, hq⟩

omit [DecidableEq ι] in
/-- It waits for the update it asked for. -/
theorem Fits.waiting {calls : List (LogEntry × ℕ)} {cmd : Command ι} {q : Call}
    {next : q.Answer ι → Asking ι Bytes} {i : ℕ}
    (h : Fits nodeId calls ⟨cmd, .ask q next, some i⟩) :
    i ∈ cmd.made ∧ ∃ x, calls[i]? = some x ∧ q.update? = some x.1.logOp := by
  obtain ⟨q', next', x, hleft, hmade, hx, hq⟩ := h.waits i rfl
  obtain ⟨rfl, -⟩ := Prog.ask.inj hleft
  exact ⟨hmade, x, hx, hq⟩

omit [DecidableEq ι] in
/-- A command that waits for nothing. -/
theorem Fits.of_leads {calls : List (LogEntry × ℕ)} {cmd : Command ι} {left : Asking ι Bytes}
    (h : (ClusterDemo.handleCommand nodeId true cmd.line).Leads cmd.asked left)
    (hmade : cmd.made.length ≤ cmd.updates) : Fits nodeId calls ⟨cmd, left, none⟩ :=
  ⟨h, hmade, fun _ hi => by simp at hi⟩

omit [DecidableEq ι] in
/-- It gets a reply. -/
theorem Fits.reply {calls : List (LogEntry × ℕ)} {cmd : Command ι} {q : Call}
    {next : q.Answer ι → Asking ι Bytes} {waits : Option ℕ} (a : q.Answer ι)
    (h : Fits nodeId calls ⟨cmd, .ask q next, waits⟩)
    (hwaits : ∀ i ∈ waits, q.update?.isSome = true) :
    Fits nodeId calls ⟨{ cmd with asked := cmd.asked ++ [⟨q, a⟩] }, next a, none⟩ := by
  refine .of_leads (h.leads.ask a) ?_
  have hmade := h.made
  simp only [Command.updates, List.countP_append, List.countP_singleton] at hmade ⊢
  cases waits with
  | none =>
    simp only [Option.toList_none, List.length_nil] at hmade
    omega
  | some i =>
    rw [if_pos (hwaits i rfl)]
    simpa using hmade

/-- What the commands of all servers rest on. -/
structure Handled (nodeId : ι → ℤ) (d : Served ι) : Prop where
  serving : ∀ v s, d.serving v = some s → Fits nodeId (d.cluster.calls v) s
  written : ∀ v, ∀ x ∈ d.written v,
    (ClusterDemo.handleCommand nodeId true x.line).Leads x.asked (.done x.resp) ∧
      x.made.length ≤ x.updates

omit [DecidableEq ι] in
theorem Handled.init : Handled nodeId (Served.init : Served ι) :=
  ⟨fun v s h => by simp [Served.init] at h, fun v x h => by simp [Served.init] at h⟩

omit [DecidableEq ι] in
/-- The cluster goes on. -/
theorem Handled.setCluster (h : Handled nodeId d) {c : Cluster ι}
    (hcalls : ∀ v, d.cluster.calls v <+: c.calls v) : Handled nodeId (d.setCluster c) :=
  ⟨fun v s hs => (h.serving v s hs).mono (hcalls v), h.written⟩

/-- A server goes on. -/
theorem Handled.serve (h : Handled nodeId d) {v : ι} {s : Serving ι}
    (hs : Fits nodeId (d.cluster.calls v) s) : Handled nodeId (d.serve v s) := by
  refine ⟨fun u s' hs' => ?_, h.written⟩
  by_cases hu : u = v
  · subst hu
    rw [serving_serve_self] at hs'
    obtain rfl := Option.some.inj hs'
    exact hs
  · rw [serving_serve_of_ne hu] at hs'
    exact h.serving u s' hs'

/-- Commands keep what they rest on. -/
theorem Handled.step (h : Handled nodeId d) {m : ServerMove ι}
    (hstep : d.step cfg nodeId m = some d') : Handled nodeId d' := by
  cases step_inv hstep with
  | act hcall hrunning hc => exact h.setCluster fun v => Cluster.calls_grow hc v
  | read hidle hpending => exact ⟨h.serving, h.written⟩
  | hangUp hidle hpending => exact ⟨h.serving, h.written⟩
  | @take v nl hidle hnl =>
    exact Handled.serve (d := d.receive _ _ _) ⟨h.serving, h.written⟩ (.of_leads .refl le_rfl)
  | ask hserving ha => exact h.serve ((h.serving _ _ hserving).reply _ (by simp))
  | @call v cmd q next a c hserving ha hrole hc =>
    obtain ⟨x, hx, hcalls⟩ := calls_action ha hrole hc
    have hfits := h.serving _ _ hserving
    refine (h.setCluster fun v => Cluster.calls_grow hc v).serve
      ⟨hfits.leads, by simpa [Command.updates] using hfits.made, fun i hi => ?_⟩
    obtain rfl := Option.some.inj hi
    refine ⟨q, next, x, rfl, List.mem_append_right _ (List.mem_singleton_self _), ?_, hx⟩
    have hlen : (d.cluster.proposals v).length = (d.cluster.calls v).length :=
      (List.length_map _).symm
    show (c.calls v)[(d.cluster.proposals v).length]? = some x
    rw [hcalls, Function.update_self, hlen, List.getElem?_concat_length]
  | returned hserving hph ha =>
    obtain ⟨-, x, -, hq⟩ := (h.serving _ _ hserving).waiting
    exact h.serve ((h.serving _ _ hserving).reply _ (by simp [hq]))
  | stop hserving hasleep =>
    exact Handled.serve (d := d.halt _) ⟨h.serving, h.written⟩
      ((h.serving _ _ hserving).reply _ (by simp))
  | @respond v cmd resp hserving =>
    constructor
    · intro u s hs
      by_cases hu : u = v
      · subst hu
        simp at hs
      · simp only [Function.update_of_ne hu] at hs
        exact h.serving u s hs
    · intro u x hx
      by_cases hu : u = v
      · subst hu
        simp only [Function.update_self, List.mem_append, List.mem_singleton] at hx
        rcases hx with hx | rfl
        · exact h.written u x hx
        · exact ⟨(h.serving u _ hserving).leads, by simpa using (h.serving u _ hserving).made⟩
      · simp only [Function.update_of_ne hu] at hx
        exact h.written u x hx

/-- What a move does to the commands of a server and to the calls on its node. -/
inductive Change (nodeId : ι → ℤ) (d d' : Served ι) (v : ι) : Prop where
  | same (hcommands : d'.commands v = d.commands v)
      (hcalls : d'.cluster.calls v = d.cluster.calls v)
  | taken {line : Bytes} (hcommands : d'.commands v = d.commands v ++ [{ line := line }])
      (hcalls : d'.cluster.calls v = d.cluster.calls v)
  | replied {before : List (Command ι)} {cmd : Command ι} {t : Prog.Reply Call (Call.Answer ι)}
      (hold : d.commands v = before ++ [cmd])
      (hnew : d'.commands v = before ++ [{ cmd with asked := cmd.asked ++ [t] }])
      (hgiven : Given d' v cmd.made t) (hcalls : d'.cluster.calls v = d.cluster.calls v)
  | called {before : List (Command ι)} {cmd : Command ι} {q : Call}
      {next : q.Answer ι → Asking ι Bytes} {x : LogEntry × ℕ}
      (hold : d.commands v = before ++ [cmd])
      (hnew : d'.commands v =
        before ++ [{ cmd with made := cmd.made ++ [(d.cluster.calls v).length] }])
      (hleads : (ClusterDemo.handleCommand nodeId true cmd.line).Leads cmd.asked (.ask q next))
      (hupdate : q.update? = some x.1.logOp)
      (hcalls : d'.cluster.calls v = d.cluster.calls v ++ [x])

/-- A server that gets a reply. -/
theorem Change.reply {v u : ι} {cmd : Command ι} {left left' : Asking ι Bytes} {waits : Option ℕ}
    {t : Prog.Reply Call (Call.Answer ι)} (hserving : d.serving v = some ⟨cmd, left, waits⟩)
    (hnew : d'.serving = Function.update d.serving v
      (some ⟨{ cmd with asked := cmd.asked ++ [t] }, left', none⟩))
    (hwritten : d'.written = d.written) (hcalls : d'.cluster.calls = d.cluster.calls)
    (hgiven : Given d' v cmd.made t) : Change nodeId d d' u := by
  by_cases hu : u = v
  · subst hu
    refine .replied (commands_of_serving hserving) ?_ hgiven (congrFun hcalls u)
    rw [commands_of_serving (hnew ▸ Function.update_self ..), hwritten]
  · refine .same (commands_congr ?_ (congrFun hwritten u)) (congrFun hcalls u)
    rw [hnew, Function.update_of_ne hu]

theorem Handled.change (h : Handled nodeId d) {m : ServerMove ι}
    (hstep : d.step cfg nodeId m = some d') (u : ι) : Change nodeId d d' u := by
  cases step_inv hstep with
  | act hcall hrunning hc =>
    exact .same rfl (congrFun (calls_of_not_isCall hcall hc) u)
  | read hidle hpending => exact .same rfl rfl
  | hangUp hidle hpending => exact .same rfl rfl
  | @take v nl hidle hnl =>
    by_cases hu : u = v
    · subst hu
      have hcommands := commands_of_serving (serving_serve_self
        (d.receive u ((d.pending u).drop (nl + 1)) (d.streams u)) u
        { line := popReturn ((d.pending u).take nl)
          left := ClusterDemo.handleCommand nodeId true (popReturn ((d.pending u).take nl)) })
      exact .taken (hcommands.trans (by rw [commands_of_idle hidle]; rfl)) rfl
    · exact .same (commands_congr (serving_serve_of_ne hu) rfl) rfl
  | ask hserving ha => exact .reply hserving rfl rfl rfl (.now ha)
  | @call v cmd q next a c hserving ha hrole hc =>
    obtain ⟨x, hx, hcalls⟩ := calls_action ha hrole hc
    by_cases hu : u = v
    · subst hu
      have hlen : (d.cluster.proposals u).length = (d.cluster.calls u).length :=
        (List.length_map _).symm
      rw [hlen]
      refine .called (commands_of_serving hserving) (commands_of_serving (serving_serve_self ..))
        (h.serving _ _ hserving).leads hx ?_
      show c.calls u = _
      rw [hcalls, Function.update_self]
    · refine .same (commands_congr (serving_serve_of_ne hu) rfl) ?_
      show c.calls u = _
      rw [hcalls, Function.update_of_ne hu]
  | @returned v cmd q next i ok a hserving hph ha =>
    obtain ⟨hi, x, hx, hq⟩ := (h.serving _ _ hserving).waiting
    exact .reply hserving rfl rfl rfl (.returned hi hx hq hph ha)
  | @stop v cmd next hserving hasleep =>
    refine .reply hserving rfl rfl rfl (.now ?_)
    show (if Function.update d.running v false v = true then none else some ()) = some ()
    rw [Function.update_self]
    rfl
  | @respond v cmd resp hserving =>
    refine .same ?_ rfl
    by_cases hu : u = v
    · subst hu
      rw [commands_of_serving hserving, commands_of_idle (Function.update_self ..)]
      simp
    · exact commands_congr (Function.update_of_ne hu ..) (Function.update_of_ne hu ..)

/-! ## Runs -/

section

variable {P : Cluster ι → Action ι → Prop}

theorem Runs.handled (h : Runs cfg nodeId P init d) : Handled nodeId d := by
  induction h with
  | start => exact .init
  | step m _ _ hstep ih => exact ih.step hstep

/-- What holds of a reply when it is given, and stays, holds of all replies that handlers got. -/
theorem Runs.replies {G : Served ι → ι → List ℕ → Prog.Reply Call (Call.Answer ι) → Prop}
    (h : Runs cfg nodeId P init d)
    (hgiven : ∀ d v made t, Runs cfg nodeId P init d → Given d v made t → G d v made t)
    (hmore : ∀ d v made i t, G d v made t → G d v (made ++ [i]) t)
    (hstays : ∀ d d' v made t m, Runs cfg nodeId P init d → (∀ a ∈ d.action? m, P d.cluster a) →
      d.step cfg nodeId m = some d' → G d v made t → G d' v made t) (v : ι) :
    ∀ cmd ∈ d.commands v, ∀ t ∈ cmd.asked, G d v cmd.made t := by
  induction h with
  | start =>
    intro cmd hcmd
    simp [commands, init] at hcmd
  | @step d₁ d₂ m hruns hP hstep ih =>
    have hruns₂ : Runs cfg nodeId P init d₂ := .step m hruns hP hstep
    have hold : ∀ cmd ∈ d₁.commands v, ∀ t ∈ cmd.asked, G d₂ v cmd.made t := fun cmd hcmd t ht =>
      hstays _ _ _ _ _ m hruns hP hstep (ih cmd hcmd t ht)
    cases hruns.handled.change hstep v with
    | same hcommands => rwa [hcommands]
    | @taken line hcommands =>
      intro cmd hcmd t ht
      rw [hcommands, List.mem_append, List.mem_singleton] at hcmd
      rcases hcmd with hcmd | rfl
      · exact hold cmd hcmd t ht
      · simp at ht
    | @replied before cmd₀ t₀ hwas hnew hgot =>
      intro cmd hcmd t ht
      rw [hwas] at hold
      rw [hnew, List.mem_append, List.mem_singleton] at hcmd
      rcases hcmd with hcmd | rfl
      · exact hold cmd (List.mem_append_left _ hcmd) t ht
      · rcases List.mem_append.mp ht with ht | ht
        · exact hold cmd₀ (List.mem_append_right _ (List.mem_singleton_self _)) t ht
        · obtain rfl := List.mem_singleton.mp ht
          exact hgiven _ _ _ _ hruns₂ hgot
    | @called before cmd₀ q next x hwas hnew =>
      intro cmd hcmd t ht
      rw [hwas] at hold
      rw [hnew, List.mem_append, List.mem_singleton] at hcmd
      rcases hcmd with hcmd | rfl
      · exact hold cmd (List.mem_append_left _ hcmd) t ht
      · exact hmore _ _ _ _ _
          (hold cmd₀ (List.mem_append_right _ (List.mem_singleton_self _)) t ht)

omit [DecidableEq ι] in
theorem command_mem {v : ι} {x : Exchange ι} (h : x ∈ d.written v) :
    x.toCommand ∈ d.commands v :=
  List.mem_append_left _ (List.mem_map_of_mem h)

/-- A response is what the handler makes of its replies. -/
theorem Runs.response (h : Runs cfg nodeId P init d) {v : ι} {x : Exchange ι}
    (hx : x ∈ d.written v) {expected : ∀ q : Call, q.Answer ι → Prop} (should : Bytes → Prop)
    (hmeets : (ClusterDemo.handleCommand nodeId true x.line).Meets (fun _ => True) expected should)
    (hreplies : ∀ t ∈ x.asked, expected t.1 t.2) : should x.resp :=
  hmeets.result (h.handled.written v x hx).1 hreplies

/-! ## Proposals and commands -/

/-- The proposals on a node are those that the commands of its server made, one after the other,
and their entries are what the lines ask for. -/
structure Paired (d : Served ι) (v : ι) : Prop where
  made : (d.commands v).flatMap Command.made = List.range (d.cluster.calls v).length
  requested : ∀ cmd ∈ d.commands v, ∀ i ∈ cmd.made, ∀ x ∈ (d.cluster.calls v)[i]?,
    Requests cmd.line x.1.logOp

omit [DecidableEq ι] in
theorem Paired.lt (h : Paired d v) {cmd : Command ι} (hcmd : cmd ∈ d.commands v) {i : ℕ}
    (hi : i ∈ cmd.made) : i < (d.cluster.calls v).length := by
  have hmem : i ∈ (d.commands v).flatMap Command.made := List.mem_flatMap.mpr ⟨cmd, hcmd, hi⟩
  rw [h.made] at hmem
  exact List.mem_range.mp hmem

omit [DecidableEq ι] in
/-- The command behind a proposal. -/
theorem Paired.exists (h : Paired d v) {i : ℕ} {x : LogEntry × ℕ}
    (hx : (d.cluster.calls v)[i]? = some x) :
    ∃ cmd ∈ d.commands v, i ∈ cmd.made ∧ Requests cmd.line x.1.logOp := by
  have hi : i ∈ (d.commands v).flatMap Command.made := by
    rw [h.made, List.mem_range]
    exact (List.getElem?_eq_some_iff.mp hx).1
  obtain ⟨cmd, hcmd, hmade⟩ := List.mem_flatMap.mp hi
  exact ⟨cmd, hcmd, hmade, h.requested cmd hcmd i hmade x hx⟩

omit [DecidableEq ι] in
theorem Paired.change (h : Paired d v) (hchange : Change nodeId d d' v) : Paired d' v := by
  cases hchange with
  | same hcommands hcalls =>
    refine ⟨?_, ?_⟩
    · rw [hcommands, hcalls]
      exact h.made
    · rw [hcommands, hcalls]
      exact h.requested
  | @taken line hcommands hcalls =>
    refine ⟨?_, ?_⟩
    · rw [hcommands, hcalls, List.flatMap_append, h.made]
      exact List.append_nil _
    · rw [hcommands, hcalls]
      intro cmd hcmd i hi x hx
      rcases List.mem_append.mp hcmd with hcmd | hcmd
      · exact h.requested cmd hcmd i hi x hx
      · obtain rfl := List.mem_singleton.mp hcmd
        simp at hi
  | @replied before cmd₀ t hold hnew hgiven hcalls =>
    have hmade := h.made
    have hrequested := h.requested
    rw [hold] at hmade hrequested
    refine ⟨?_, ?_⟩
    · rw [hnew, hcalls, ← hmade]
      simp
    · rw [hnew, hcalls]
      intro cmd hcmd i hi x hx
      rcases List.mem_append.mp hcmd with hcmd | hcmd
      · exact hrequested cmd (List.mem_append_left _ hcmd) i hi x hx
      · obtain rfl := List.mem_singleton.mp hcmd
        exact hrequested cmd₀ (List.mem_append_right _ (List.mem_singleton_self _)) i hi x hx
  | @called before cmd₀ q next x₀ hold hnew hleads hupdate hcalls =>
    have hmade := h.made
    rw [hold] at hmade
    have hlast : cmd₀ ∈ d.commands v := hold ▸ List.mem_append_right _ (List.mem_singleton_self _)
    have hbefore : ∀ cmd ∈ before, cmd ∈ d.commands v := fun cmd hcmd =>
      hold ▸ List.mem_append_left _ hcmd
    refine ⟨?_, ?_⟩
    · rw [hnew, hcalls, List.length_append, List.length_singleton, List.range_succ, ← hmade]
      simp
    · rw [hnew, hcalls]
      intro cmd hcmd i hi x hx
      have hkept : ∀ cmd ∈ d.commands v, i ∈ cmd.made → Requests cmd.line x.1.logOp := by
        intro cmd hcmd hi
        rw [List.getElem?_append_left (h.lt hcmd hi)] at hx
        exact h.requested cmd hcmd i hi x hx
      rcases List.mem_append.mp hcmd with hcmd | hcmd
      · exact hkept cmd (hbefore cmd hcmd) hi
      · obtain rfl := List.mem_singleton.mp hcmd
        rcases List.mem_append.mp hi with hi | hi
        · exact hkept cmd₀ hlast hi
        · -- the new proposal is what the handler asks for
          obtain rfl := List.mem_singleton.mp hi
          rw [List.getElem?_concat_length] at hx
          obtain rfl := Option.some.inj hx
          have hmeets := (ClusterDemo.requests_handleCommand cmd₀.line).of_leads hleads
            fun _ _ => trivial
          exact hmeets.1.1 _ hupdate

theorem Runs.paired (h : Runs cfg nodeId P init d) (v : ι) : Paired d v := by
  induction h with
  | start => exact ⟨rfl, fun cmd hcmd => by simp [commands, init] at hcmd⟩
  | step m hruns _ hstep ih => exact ih.change (hruns.handled.change hstep v)

omit [DecidableEq ι] in
/-- A command makes one proposal at most. -/
theorem Handled.made_le_one (h : Handled nodeId d) {v : ι} {cmd : Command ι}
    (hcmd : cmd ∈ d.commands v) : cmd.made.length ≤ 1 := by
  have hasks : (ClusterDemo.handleCommand nodeId true cmd.line).AtMost
      (fun q => q.update?.isSome) 1 := ClusterDemo.atMost_handleCommand cmd.line
  rcases List.mem_append.mp hcmd with hcmd | hcmd
  · obtain ⟨x, hx, rfl⟩ := List.mem_map.mp hcmd
    obtain ⟨hleads, hmade⟩ := h.written v x hx
    exact hmade.trans (hasks.of_leads hleads).1
  · obtain ⟨s, hs, rfl⟩ := List.mem_map.mp hcmd
    have hfits := h.serving v s (Option.mem_toList.mp hs)
    have hmade := hfits.made
    cases hwaits : s.waits with
    | none =>
      rw [hwaits] at hmade
      exact hmade.trans (hasks.of_leads hfits.leads).1
    | some i =>
      -- the update it waits for is the one it may ask for
      obtain ⟨q, next, x, hleft, -, -, hq⟩ := hfits.waits i hwaits
      have hleads := hfits.leads
      rw [hleft] at hleads
      have hpos := (hasks.of_leads hleads).2.1 (by simp [hq])
      rw [hwaits, Command.updates] at hmade
      simp only [Option.toList_some, List.length_singleton] at hmade
      omega

end

end Served

end KvEngine
