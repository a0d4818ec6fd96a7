import KvEngine.Raft.Node

/-!
# A cluster of Raft nodes

The nodes' threads as state machines: what a thread holds in its local variables
between two critical sections is its state, and one `Action` is one critical section
of one thread, the delivery of a request to the peer's handler, or its loss. A thread
that made a call waits for the reply; a call that is lost returns the reply of
`InProcessTransport` for an unknown peer, which may happen before or after the
handler ran. Proposals are client threads, any number of them on any node.

Nodes are named by a type `ι`; `Config` says that everybody's peers are exactly the
other nodes, each once.
-/

namespace KvEngine

variable {ι : Type}

/-! ## Threads -/

/-- `ElectionLoop` (lines 373–438): asleep, past the timeout check, or waiting for
the reply of `peer` with the requests to `rest` still to be sent. -/
inductive ElectionThread (ι : Type) where
  | sleeping
  | timedOut
  | calling (req : RequestVoteReq ι) (votes : ℕ) (peer : ι) (rest : List ι)
      (reply : Option RequestVoteResp)

/-- `HeartbeatLoop` (lines 440–492): asleep, about to build the request to `peer`, or
waiting for its reply. -/
inductive HeartbeatThread (ι : Type) where
  | sleeping
  | building (peer : ι) (rest : List ι)
  | calling (req : AppendEntriesReq ι) (peer : ι) (rest : List ι)
      (reply : Option AppendEntriesResp)

/-- `ApplyLoop` (lines 493–519): asleep, or holding the entry it took at index `idx`. -/
inductive ApplyThread where
  | sleeping
  | holding (idx : ℕ) (entry : LogEntry)

/-- Where a proposal stands: its entry is appended, it waits for the reply to its
request from `peer`, it has its acknowledgements, it waits for the reply to its
heartbeat, or it returned. -/
inductive ProposalPhase (ι : Type) where
  | appended
  | replicating (req : AppendEntriesReq ι) (acks : ℕ) (peer : ι) (rest : List ι)
      (reply : Option AppendEntriesResp)
  | committing
  | notifying (req : AppendEntriesReq ι) (peer : ι) (rest : List ι)
      (reply : Option AppendEntriesResp)
  | returned (ok : Bool)
  deriving DecidableEq

/-- A call of `ProposePut` or `ProposeDel` (lines 217–369) that appended `entry`. The
code does not keep `index`, the entry's index in the leader's log at that moment. -/
structure Proposal (ι : Type) where
  entry : LogEntry
  index : ℕ
  phase : ProposalPhase ι
  deriving DecidableEq

namespace RaftNode

/-! ## Critical sections -/

/-- `total / 2 + 1` for a node and its peers. -/
def needed (peers : List ι) : ℕ := (1 + peers.length) / 2 + 1

/-- The loop over the peers of `ElectionLoop` at its next round. -/
def callForVote (req : RequestVoteReq ι) (votes : ℕ) : List ι → ElectionThread ι
  | [] => .sleeping
  | p :: ps => .calling req votes p ps none

/-- The second critical section of `ElectionLoop` (lines 395–415). -/
def startElection [DecidableEq ι] (n : RaftNode ι) (id : ι) (peers : List ι) :
    RaftNode ι × ElectionThread ι :=
  let n := n.becomeCandidateLocked id
  let req :=
    { term := n.currentTerm, candidateId := id, lastLogIndex := n.lastLogIndexLocked
      lastLogTerm := n.lastLogTermLocked }
  (n, callForVote req 1 peers)

/-- The critical section of `ElectionLoop` that handles a reply (lines 420–435). -/
def voteReply [DecidableEq ι] (n : RaftNode ι) (id : ι) (peers : List ι) (req : RequestVoteReq ι)
    (votes : ℕ) (rest : List ι) (resp : RequestVoteResp) : RaftNode ι × ElectionThread ι :=
  if n.role ≠ .candidate then (n, .sleeping)
  else if n.currentTerm ≠ req.term then (n, .sleeping)
  else if n.currentTerm < resp.term then (n.becomeFollowerLocked resp.term none, .sleeping)
  else
    let votes := if resp.voteGranted then votes + 1 else votes
    if needed peers ≤ votes then (n.becomeLeaderLocked id peers, .sleeping)
    else (n, callForVote req votes rest)

/-- The loop over the peers of `HeartbeatLoop` at its next round. -/
def nextBeat : List ι → HeartbeatThread ι
  | [] => .sleeping
  | p :: ps => .building p ps

/-- The critical section of `HeartbeatLoop` that builds a request (lines 453–458). -/
def heartbeatBuild (n : RaftNode ι) (id peer : ι) (rest : List ι) : HeartbeatThread ι :=
  if n.role ≠ .leader then .sleeping
  else .calling (n.buildAppendEntriesLocked id peer) peer rest none

/-- The critical section of `HeartbeatLoop` that handles a reply (lines 462–487). -/
def heartbeatReply [DecidableEq ι] (n : RaftNode ι) (peers : List ι) (req : AppendEntriesReq ι)
    (peer : ι) (rest : List ι) (resp : AppendEntriesResp) : RaftNode ι × HeartbeatThread ι :=
  if n.currentTerm < resp.term then (n.becomeFollowerLocked resp.term none, .sleeping)
  else if resp.success then
    let n :=
      if req.entries.isEmpty then n
      else
        let sentLast := req.prevLogIndex + req.entries.length
        { n with
          matchIndex := Function.update n.matchIndex peer (some sentLast)
          nextIndex := Function.update n.nextIndex peer (some (sentLast + 1)) }
    (n.advanceCommitIndexLocked peers, nextBeat rest)
  else
    let n :=
      match n.nextIndex peer with
      | none => n
      | some next =>
        if 1 < next then
          { n with nextIndex := Function.update n.nextIndex peer (some (max 1 (next - 1))) }
        else n
    (n, nextBeat rest)

/-- The first critical section of a proposal on a leader (lines 219–230). -/
def propose (n : RaftNode ι) (op : OpType) (key value : Bytes) : RaftNode ι × Proposal ι :=
  let e := { term := n.currentTerm, op := op, key := key, value := value }
  ({ n with log := n.log ++ [e] },
    { entry := e, index := n.log.length + 1, phase := .appended })

/-- `ProposePut`. -/
def proposePut (n : RaftNode ι) (key value : Bytes) : RaftNode ι × Proposal ι :=
  n.propose .put key value

/-- `ProposeDel`. -/
def proposeDel (n : RaftNode ι) (key : Bytes) : RaftNode ι × Proposal ι :=
  n.propose .del key []

/-- The loop over the peers of a proposal at its next round. -/
def replicate (peers : List ι) (req : AppendEntriesReq ι) (acks : ℕ) : List ι → ProposalPhase ι
  | [] => if acks < needed peers then .returned false else .committing
  | p :: ps => .replicating req acks p ps none

/-- The second critical section of a proposal (lines 237–256). The node need not be
the leader any more, and its log may have grown or shrunk; `my_index - 1` wraps when
it is empty. -/
def proposalRequest (n : RaftNode ι) (id : ι) (e : LogEntry) : AppendEntriesReq ι :=
  let myIndex := n.lastLogIndexLocked
  let prevIdx := if myIndex = 0 then 2 ^ 64 - 1 else myIndex - 1
  { term := n.currentTerm
    leaderId := id
    prevLogIndex := prevIdx
    prevLogTerm := n.termAtLocked prevIdx
    entries := [e]
    leaderCommit := 0 }

/-- The critical section of a proposal that handles a reply (lines 260–268). -/
def proposalReply (n : RaftNode ι) (peers : List ι) (req : AppendEntriesReq ι) (acks : ℕ)
    (rest : List ι) (resp : AppendEntriesResp) : RaftNode ι × ProposalPhase ι :=
  if n.role ≠ .leader then (n, .returned false)
  else if n.currentTerm < resp.term then
    (n.becomeFollowerLocked resp.term none, .returned false)
  else
    let acks := if resp.success then acks + 1 else acks
    if needed peers ≤ acks then (n, .committing) else (n, replicate peers req acks rest)

/-- The heartbeat a proposal builds when it has its acknowledgements (lines 273–281). -/
def proposalHeartbeat (n : RaftNode ι) (id : ι) : AppendEntriesReq ι :=
  { term := n.currentTerm
    leaderId := id
    prevLogIndex := n.lastLogIndexLocked
    prevLogTerm := n.termAtLocked n.lastLogIndexLocked
    entries := []
    leaderCommit := n.commitIndex }

/-- The second loop over the peers of a proposal at its next round. -/
def notify (req : AppendEntriesReq ι) : List ι → ProposalPhase ι
  | [] => .returned true
  | p :: ps => .notifying req p ps none

/-- The critical section of that loop (lines 286–290). -/
def notifyReply (n : RaftNode ι) (req : AppendEntriesReq ι) (rest : List ι)
    (resp : AppendEntriesResp) : RaftNode ι × ProposalPhase ι :=
  if n.currentTerm < resp.term then (n.becomeFollowerLocked resp.term none, .returned true)
  else (n, notify req rest)

end RaftNode

/-! ## The cluster -/

/-- Everybody's peers: exactly the other nodes, without duplicates. -/
structure Config (ι : Type) where
  peers : ι → List ι
  nodup : ∀ v, (peers v).Nodup
  mem_peers : ∀ v p, p ∈ peers v ↔ p ≠ v

/-- All nodes with their threads; `applied` lists, with their indices, the entries
handed to each node's state machine. -/
structure Cluster (ι : Type) where
  nodes : ι → RaftNode ι
  election : ι → ElectionThread ι
  heartbeat : ι → HeartbeatThread ι
  apply : ι → ApplyThread
  proposals : ι → List (Proposal ι)
  applied : ι → List (ℕ × LogEntry)

/-- What happens next. -/
inductive Action (ι : Type) where
  | electionTimeout (v : ι)
  | startElection (v : ι)
  | deliverVote (v : ι)
  | loseVote (v : ι)
  | voteReply (v : ι)
  | heartbeatTick (v : ι)
  | heartbeatBuild (v : ι)
  | deliverHeartbeat (v : ι)
  | loseHeartbeat (v : ι)
  | heartbeatReply (v : ι)
  | proposePut (v : ι) (key value : Bytes)
  | proposeDel (v : ι) (key : Bytes)
  | proposalRead (v : ι) (i : ℕ)
  | deliverProposal (v : ι) (i : ℕ)
  | loseProposal (v : ι) (i : ℕ)
  | proposalReply (v : ι) (i : ℕ)
  | proposalCommit (v : ι) (i : ℕ)
  | deliverNotify (v : ι) (i : ℕ)
  | loseNotify (v : ι) (i : ℕ)
  | notifyReply (v : ι) (i : ℕ)
  | applyTake (v : ι)
  | applyRun (v : ι)

namespace Cluster

/-- Freshly constructed nodes with their threads started. -/
def init : Cluster ι where
  nodes _ := {}
  election _ := .sleeping
  heartbeat _ := .sleeping
  apply _ := .sleeping
  proposals _ := []
  applied _ := []

variable [DecidableEq ι]

def setNode (c : Cluster ι) (v : ι) (n : RaftNode ι) : Cluster ι :=
  { c with nodes := Function.update c.nodes v n }

def setElection (c : Cluster ι) (v : ι) (th : ElectionThread ι) : Cluster ι :=
  { c with election := Function.update c.election v th }

def setHeartbeat (c : Cluster ι) (v : ι) (th : HeartbeatThread ι) : Cluster ι :=
  { c with heartbeat := Function.update c.heartbeat v th }

def setApply (c : Cluster ι) (v : ι) (th : ApplyThread) : Cluster ι :=
  { c with apply := Function.update c.apply v th }

/-- The `i`-th proposal on `v` moves on to a phase. -/
def setPhase (c : Cluster ι) (v : ι) (i : ℕ) (phase : ProposalPhase ι) : Cluster ι :=
  { c with
    proposals := Function.update c.proposals v
      ((c.proposals v).modify i fun pr => { pr with phase := phase }) }

/-- The phase of the `i`-th proposal on `v`. -/
def phase? (c : Cluster ι) (v : ι) (i : ℕ) : Option (ProposalPhase ι) :=
  ((c.proposals v)[i]?).map Proposal.phase

/-- A proposal on `v` that appended its entry; on a node that does not lead the call
returns false at once. -/
def propose (c : Cluster ι) (v : ι) (r : RaftNode ι × Proposal ι) : Cluster ι :=
  if (c.nodes v).role = .leader then
    { c.setNode v r.1 with
      proposals := Function.update c.proposals v (c.proposals v ++ [r.2]) }
  else c

/-- One action; `none` when the thread is not at that point. -/
def step (cfg : Config ι) (c : Cluster ι) : Action ι → Option (Cluster ι)
  | .electionTimeout v =>
    match c.election v with
    | .sleeping =>
      if (c.nodes v).role = .leader then some c else some (c.setElection v .timedOut)
    | _ => none
  | .startElection v =>
    match c.election v with
    | .timedOut =>
      let r := (c.nodes v).startElection v (cfg.peers v)
      some ((c.setNode v r.1).setElection v r.2)
    | _ => none
  | .deliverVote v =>
    match c.election v with
    | .calling req votes p rest none =>
      let r := (c.nodes p).onRequestVote req
      some ((c.setNode p r.2).setElection v (.calling req votes p rest (some r.1)))
    | _ => none
  | .loseVote v =>
    match c.election v with
    | .calling req votes p rest _ =>
      some (c.setElection v (.calling req votes p rest (some ⟨req.term, false⟩)))
    | _ => none
  | .voteReply v =>
    match c.election v with
    | .calling req votes _ rest (some resp) =>
      let r := (c.nodes v).voteReply v (cfg.peers v) req votes rest resp
      some ((c.setNode v r.1).setElection v r.2)
    | _ => none
  | .heartbeatTick v =>
    match c.heartbeat v with
    | .sleeping =>
      if (c.nodes v).role = .leader then
        some (c.setHeartbeat v (RaftNode.nextBeat (cfg.peers v)))
      else some c
    | _ => none
  | .heartbeatBuild v =>
    match c.heartbeat v with
    | .building p rest => some (c.setHeartbeat v ((c.nodes v).heartbeatBuild v p rest))
    | _ => none
  | .deliverHeartbeat v =>
    match c.heartbeat v with
    | .calling req p rest none =>
      let r := (c.nodes p).onAppendEntries req
      some ((c.setNode p r.2).setHeartbeat v (.calling req p rest (some r.1)))
    | _ => none
  | .loseHeartbeat v =>
    match c.heartbeat v with
    | .calling req p rest _ =>
      some (c.setHeartbeat v (.calling req p rest (some ⟨req.term, false⟩)))
    | _ => none
  | .heartbeatReply v =>
    match c.heartbeat v with
    | .calling req p rest (some resp) =>
      let r := (c.nodes v).heartbeatReply (cfg.peers v) req p rest resp
      some ((c.setNode v r.1).setHeartbeat v r.2)
    | _ => none
  | .proposePut v key value => some (c.propose v ((c.nodes v).proposePut key value))
  | .proposeDel v key => some (c.propose v ((c.nodes v).proposeDel key))
  | .proposalRead v i =>
    match (c.proposals v)[i]? with
    | some ⟨e, _, .appended⟩ =>
      let req := (c.nodes v).proposalRequest v e
      some (c.setPhase v i (RaftNode.replicate (cfg.peers v) req 1 (cfg.peers v)))
    | _ => none
  | .deliverProposal v i =>
    match c.phase? v i with
    | some (.replicating req acks p rest none) =>
      let r := (c.nodes p).onAppendEntries req
      some ((c.setNode p r.2).setPhase v i (.replicating req acks p rest (some r.1)))
    | _ => none
  | .loseProposal v i =>
    match c.phase? v i with
    | some (.replicating req acks p rest _) =>
      some (c.setPhase v i (.replicating req acks p rest (some ⟨req.term, false⟩)))
    | _ => none
  | .proposalReply v i =>
    match c.phase? v i with
    | some (.replicating req acks _ rest (some resp)) =>
      let r := (c.nodes v).proposalReply (cfg.peers v) req acks rest resp
      some ((c.setNode v r.1).setPhase v i r.2)
    | _ => none
  | .proposalCommit v i =>
    match c.phase? v i with
    | some .committing =>
      some (c.setPhase v i (RaftNode.notify ((c.nodes v).proposalHeartbeat v) (cfg.peers v)))
    | _ => none
  | .deliverNotify v i =>
    match c.phase? v i with
    | some (.notifying req p rest none) =>
      let r := (c.nodes p).onAppendEntries req
      some ((c.setNode p r.2).setPhase v i (.notifying req p rest (some r.1)))
    | _ => none
  | .loseNotify v i =>
    match c.phase? v i with
    | some (.notifying req p rest _) =>
      some (c.setPhase v i (.notifying req p rest (some ⟨req.term, false⟩)))
    | _ => none
  | .notifyReply v i =>
    match c.phase? v i with
    | some (.notifying req _ rest (some resp)) =>
      let r := (c.nodes v).notifyReply req rest resp
      some ((c.setNode v r.1).setPhase v i r.2)
    | _ => none
  | .applyTake v =>
    match c.apply v with
    | .sleeping =>
      let n := c.nodes v
      if n.lastApplied < n.commitIndex then
        -- past the end of the log the code reads out of bounds
        match n.log[n.lastApplied]? with
        | some e =>
          some ((c.setNode v { n with lastApplied := n.lastApplied + 1 }).setApply v
            (.holding (n.lastApplied + 1) e))
        | none => none
      else some c
    | _ => none
  | .applyRun v =>
    match c.apply v with
    | .holding idx e =>
      some { c.setApply v .sleeping with
        applied := Function.update c.applied v (c.applied v ++ [(idx, e)]) }
    | _ => none

/-- What the actions do: one constructor for every way in which `step` goes. -/
inductive Step (cfg : Config ι) (c : Cluster ι) : Action ι → Cluster ι → Prop where
  | leads {v : ι} (hth : c.election v = .sleeping) (hrole : (c.nodes v).role = .leader) :
    Step cfg c (.electionTimeout v) c
  | electionTimeout {v : ι} (hth : c.election v = .sleeping)
      (hrole : ¬ (c.nodes v).role = .leader) :
    Step cfg c (.electionTimeout v) (c.setElection v .timedOut)
  | startElection {v : ι} (hth : c.election v = .timedOut) :
    Step cfg c (.startElection v)
      ((c.setNode v ((c.nodes v).startElection v (cfg.peers v)).1).setElection v
        ((c.nodes v).startElection v (cfg.peers v)).2)
  | deliverVote {v p : ι} {req : RequestVoteReq ι} {votes : ℕ} {rest : List ι}
      (hth : c.election v = .calling req votes p rest none) :
    Step cfg c (.deliverVote v)
      ((c.setNode p ((c.nodes p).onRequestVote req).2).setElection v
        (.calling req votes p rest (some ((c.nodes p).onRequestVote req).1)))
  | loseVote {v p : ι} {req : RequestVoteReq ι} {votes : ℕ} {rest : List ι}
      {reply : Option RequestVoteResp} (hth : c.election v = .calling req votes p rest reply) :
    Step cfg c (.loseVote v)
      (c.setElection v (.calling req votes p rest (some ⟨req.term, false⟩)))
  | voteReply {v p : ι} {req : RequestVoteReq ι} {votes : ℕ} {rest : List ι}
      {resp : RequestVoteResp} (hth : c.election v = .calling req votes p rest (some resp)) :
    Step cfg c (.voteReply v)
      ((c.setNode v ((c.nodes v).voteReply v (cfg.peers v) req votes rest resp).1).setElection v
        ((c.nodes v).voteReply v (cfg.peers v) req votes rest resp).2)
  | heartbeatTick {v : ι} (hth : c.heartbeat v = .sleeping) (hrole : (c.nodes v).role = .leader) :
    Step cfg c (.heartbeatTick v) (c.setHeartbeat v (RaftNode.nextBeat (cfg.peers v)))
  | idleTick {v : ι} (hth : c.heartbeat v = .sleeping) (hrole : ¬ (c.nodes v).role = .leader) :
    Step cfg c (.heartbeatTick v) c
  | heartbeatBuild {v p : ι} {rest : List ι} (hth : c.heartbeat v = .building p rest) :
    Step cfg c (.heartbeatBuild v) (c.setHeartbeat v ((c.nodes v).heartbeatBuild v p rest))
  | deliverHeartbeat {v p : ι} {req : AppendEntriesReq ι} {rest : List ι}
      (hth : c.heartbeat v = .calling req p rest none) :
    Step cfg c (.deliverHeartbeat v)
      ((c.setNode p ((c.nodes p).onAppendEntries req).2).setHeartbeat v
        (.calling req p rest (some ((c.nodes p).onAppendEntries req).1)))
  | loseHeartbeat {v p : ι} {req : AppendEntriesReq ι} {rest : List ι}
      {reply : Option AppendEntriesResp} (hth : c.heartbeat v = .calling req p rest reply) :
    Step cfg c (.loseHeartbeat v)
      (c.setHeartbeat v (.calling req p rest (some ⟨req.term, false⟩)))
  | heartbeatReply {v p : ι} {req : AppendEntriesReq ι} {rest : List ι}
      {resp : AppendEntriesResp} (hth : c.heartbeat v = .calling req p rest (some resp)) :
    Step cfg c (.heartbeatReply v)
      ((c.setNode v ((c.nodes v).heartbeatReply (cfg.peers v) req p rest resp).1).setHeartbeat v
        ((c.nodes v).heartbeatReply (cfg.peers v) req p rest resp).2)
  | proposePut {v : ι} {key value : Bytes} :
    Step cfg c (.proposePut v key value) (c.propose v ((c.nodes v).propose .put key value))
  | proposeDel {v : ι} {key : Bytes} :
    Step cfg c (.proposeDel v key) (c.propose v ((c.nodes v).propose .del key []))
  | proposalRead {v : ι} {i idx : ℕ} {e : LogEntry}
      (hpr : (c.proposals v)[i]? = some ⟨e, idx, .appended⟩) :
    Step cfg c (.proposalRead v i)
      (c.setPhase v i (RaftNode.replicate (cfg.peers v) ((c.nodes v).proposalRequest v e) 1
        (cfg.peers v)))
  | deliverProposal {v p : ι} {i acks : ℕ} {req : AppendEntriesReq ι} {rest : List ι}
      (hph : c.phase? v i = some (.replicating req acks p rest none)) :
    Step cfg c (.deliverProposal v i)
      ((c.setNode p ((c.nodes p).onAppendEntries req).2).setPhase v i
        (.replicating req acks p rest (some ((c.nodes p).onAppendEntries req).1)))
  | loseProposal {v p : ι} {i acks : ℕ} {req : AppendEntriesReq ι} {rest : List ι}
      {reply : Option AppendEntriesResp}
      (hph : c.phase? v i = some (.replicating req acks p rest reply)) :
    Step cfg c (.loseProposal v i)
      (c.setPhase v i (.replicating req acks p rest (some ⟨req.term, false⟩)))
  | proposalReply {v p : ι} {i acks : ℕ} {req : AppendEntriesReq ι} {rest : List ι}
      {resp : AppendEntriesResp}
      (hph : c.phase? v i = some (.replicating req acks p rest (some resp))) :
    Step cfg c (.proposalReply v i)
      ((c.setNode v ((c.nodes v).proposalReply (cfg.peers v) req acks rest resp).1).setPhase v i
        ((c.nodes v).proposalReply (cfg.peers v) req acks rest resp).2)
  | proposalCommit {v : ι} {i : ℕ} (hph : c.phase? v i = some .committing) :
    Step cfg c (.proposalCommit v i)
      (c.setPhase v i (RaftNode.notify ((c.nodes v).proposalHeartbeat v) (cfg.peers v)))
  | deliverNotify {v p : ι} {i : ℕ} {req : AppendEntriesReq ι} {rest : List ι}
      (hph : c.phase? v i = some (.notifying req p rest none)) :
    Step cfg c (.deliverNotify v i)
      ((c.setNode p ((c.nodes p).onAppendEntries req).2).setPhase v i
        (.notifying req p rest (some ((c.nodes p).onAppendEntries req).1)))
  | loseNotify {v p : ι} {i : ℕ} {req : AppendEntriesReq ι} {rest : List ι}
      {reply : Option AppendEntriesResp}
      (hph : c.phase? v i = some (.notifying req p rest reply)) :
    Step cfg c (.loseNotify v i) (c.setPhase v i (.notifying req p rest (some ⟨req.term, false⟩)))
  | notifyReply {v p : ι} {i : ℕ} {req : AppendEntriesReq ι} {rest : List ι}
      {resp : AppendEntriesResp} (hph : c.phase? v i = some (.notifying req p rest (some resp))) :
    Step cfg c (.notifyReply v i)
      ((c.setNode v ((c.nodes v).notifyReply req rest resp).1).setPhase v i
        ((c.nodes v).notifyReply req rest resp).2)
  | applyTake {v : ι} {e : LogEntry} (hth : c.apply v = .sleeping)
      (hlt : (c.nodes v).lastApplied < (c.nodes v).commitIndex)
      (hget : (c.nodes v).log[(c.nodes v).lastApplied]? = some e) :
    Step cfg c (.applyTake v)
      ((c.setNode v { c.nodes v with lastApplied := (c.nodes v).lastApplied + 1 }).setApply v
        (.holding ((c.nodes v).lastApplied + 1) e))
  | idleTake {v : ι} (hth : c.apply v = .sleeping)
      (hle : ¬ (c.nodes v).lastApplied < (c.nodes v).commitIndex) :
    Step cfg c (.applyTake v) c
  | applyRun {v : ι} {i : ℕ} {e : LogEntry} (hth : c.apply v = .holding i e) :
    Step cfg c (.applyRun v)
      { c.setApply v .sleeping with
        applied := Function.update c.applied v (c.applied v ++ [(i, e)]) }

/-- The inversion of `step`: every proof about one action starts from it. -/
theorem step_inv {cfg : Config ι} {c c' : Cluster ι} {a : Action ι}
    (h : c.step cfg a = some c') : Step cfg c a c' := by
  cases a with
  | electionTimeout v =>
    simp only [step] at h
    split at h
    · split_ifs at h with hrole
      · obtain rfl := Option.some.inj h
        exact .leads ‹_› hrole
      · obtain rfl := Option.some.inj h
        exact .electionTimeout ‹_› hrole
    · simp at h
  | heartbeatTick v =>
    simp only [step] at h
    split at h
    · split_ifs at h with hrole
      · obtain rfl := Option.some.inj h
        exact .heartbeatTick ‹_› hrole
      · obtain rfl := Option.some.inj h
        exact .idleTick ‹_› hrole
    · simp at h
  | applyTake v =>
    simp only [step] at h
    split at h
    · split_ifs at h with hlt
      · split at h
        · obtain rfl := Option.some.inj h
          exact .applyTake ‹_› hlt ‹_›
        · simp at h
      · obtain rfl := Option.some.inj h
        exact .idleTake ‹_› hlt
    · simp at h
  | proposePut v key value =>
    obtain rfl := Option.some.inj h
    exact .proposePut
  | proposeDel v key =>
    obtain rfl := Option.some.inj h
    exact .proposeDel
  | _ =>
    simp only [step] at h
    split at h
    · obtain rfl := Option.some.inj h
      constructor
      assumption
    · simp at h

/-- The append request an action delivers, and to whom. -/
def delivers? (c : Cluster ι) : Action ι → Option (ι × AppendEntriesReq ι)
  | .deliverHeartbeat v =>
    match c.heartbeat v with
    | .calling req p _ none => some (p, req)
    | _ => none
  | .deliverProposal v i =>
    match c.phase? v i with
    | some (.replicating req _ p _ none) => some (p, req)
    | _ => none
  | .deliverNotify v i =>
    match c.phase? v i with
    | some (.notifying req p _ none) => some (p, req)
    | _ => none
  | _ => none

/-- A sequence of actions, each of which must satisfy `P`. -/
def run (cfg : Config ι) (P : Cluster ι → Action ι → Prop) [∀ c a, Decidable (P c a)]
    (c : Cluster ι) : List (Action ι) → Option (Cluster ι)
  | [] => some c
  | a :: as =>
    if P c a then
      match c.step cfg a with
      | none => none
      | some c' => c'.run cfg P as
    else none

/-- A run from `c` all of whose steps satisfy `P`. -/
inductive Runs (cfg : Config ι) (P : Cluster ι → Action ι → Prop) (c : Cluster ι) :
    Cluster ι → Prop where
  | start : Runs cfg P c c
  | step {c' c'' : Cluster ι} (a : Action ι) (h : Runs cfg P c c') (hP : P c' a)
      (hstep : c'.step cfg a = some c'') : Runs cfg P c c''

theorem Runs.head {cfg : Config ι} {P : Cluster ι → Action ι → Prop} {c c' c'' : Cluster ι}
    {a : Action ι} (hP : P c a) (hstep : c.step cfg a = some c') (h : Runs cfg P c' c'') :
    Runs cfg P c c'' := by
  induction h with
  | start => exact .step a .start hP hstep
  | step b _ hPb hb ih => exact .step b ih hPb hb

theorem Runs.of_run {cfg : Config ι} {P : Cluster ι → Action ι → Prop}
    [∀ c a, Decidable (P c a)] {c c' : Cluster ι} {as : List (Action ι)}
    (h : c.run cfg P as = some c') : Runs cfg P c c' := by
  induction as generalizing c with
  | nil =>
    obtain rfl := Option.some.inj h
    exact .start
  | cons a as ih =>
    rw [run] at h
    split_ifs at h with hP
    cases hstep : c.step cfg a with
    | none => simp [hstep] at h
    | some c₁ =>
      rw [hstep] at h
      exact .head hP hstep (ih h)

theorem Runs.of_isSome {cfg : Config ι} {P : Cluster ι → Action ι → Prop}
    [∀ c a, Decidable (P c a)] {c : Cluster ι} {as : List (Action ι)}
    (h : (c.run cfg P as).isSome = true) : Runs cfg P c ((c.run cfg P as).getD c) := by
  obtain ⟨c', hc'⟩ := Option.isSome_iff_exists.mp h
  rw [hc']
  exact .of_run hc'

end Cluster

instance Config.neZero_three : NeZero 3 := ⟨by decide⟩

/-- Three nodes. -/
def Config.three : Config (Fin 3) where
  peers v := ([0, 1, 2] : List (Fin 3)).filter (· ≠ v)
  nodup := by decide
  mem_peers := by decide

end KvEngine
