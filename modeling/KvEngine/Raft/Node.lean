import KvEngine.Common.Bytes
import KvEngine.Consensus.Election

/-!
# A Raft node

Model of the state and the mutex-protected functions of `class RaftNode`
(`include/kv/raft.h`, `src/raft.cpp`), for nodes named by a type `ι`: each function
takes the state it finds under the lock and returns the state it leaves. Terms and
indices are natural numbers; the one subtraction that can wrap does so modulo
`2^64`. Timers are left out: an election timeout may fire at any time.
-/

namespace KvEngine

/-- `enum class OpType` (header, line 19). -/
inductive OpType where
  | put
  | del
  deriving DecidableEq

/-- `struct LogEntry` (header, lines 21–26). -/
structure LogEntry where
  term : ℕ
  op : OpType
  key : Bytes
  value : Bytes
  deriving DecidableEq

instance : Consensus.Stamped LogEntry := ⟨LogEntry.term⟩

@[simp] theorem stamp_eq (e : LogEntry) : Consensus.stamp e = e.term := rfl

/-- `enum class RaftRole` (header, line 18). -/
inductive RaftRole where
  | follower
  | candidate
  | leader
  deriving DecidableEq

/-- `struct RequestVoteReq` (header, lines 28–33). -/
structure RequestVoteReq (ι : Type) where
  term : ℕ
  candidateId : ι
  lastLogIndex : ℕ
  lastLogTerm : ℕ

/-- `struct RequestVoteResp` (header, lines 35–38). -/
structure RequestVoteResp where
  term : ℕ
  voteGranted : Bool

/-- `struct AppendEntriesReq` (header, lines 40–49). -/
structure AppendEntriesReq (ι : Type) where
  term : ℕ
  leaderId : ι
  prevLogIndex : ℕ
  prevLogTerm : ℕ
  entries : List LogEntry
  leaderCommit : ℕ
  deriving DecidableEq

/-- `struct AppendEntriesResp` (header, lines 51–54). -/
structure AppendEntriesResp where
  term : ℕ
  success : Bool
  deriving DecidableEq

/-- The fields of `class RaftNode` that its mutex protects. -/
structure RaftNode (ι : Type) where
  currentTerm : ℕ := 0
  votedFor : Option ι := none
  log : List LogEntry := []
  role : RaftRole := .follower
  leaderId : Option ι := none
  commitIndex : ℕ := 0
  lastApplied : ℕ := 0
  nextIndex : ι → Option ℕ := fun _ => none
  matchIndex : ι → Option ℕ := fun _ => none

namespace RaftNode

variable {ι : Type}

/-! ## Log helpers -/

/-- `LastLogIndexLocked` (header, line 103). -/
def lastLogIndexLocked (n : RaftNode ι) : ℕ := n.log.length

/-- `LastLogTermLocked` (header, line 104). -/
def lastLogTermLocked (n : RaftNode ι) : ℕ :=
  match n.log.getLast? with
  | none => 0
  | some e => e.term

/-- `TermAtLocked` (header, lines 106–110). -/
def termAtLocked (n : RaftNode ι) (idx : ℕ) : ℕ :=
  if idx = 0 then 0
  else
    match n.log[idx - 1]? with
    | none => 0
    | some e => e.term

/-- `IsUpToDateLocked` (lines 50–55). -/
def isUpToDateLocked (n : RaftNode ι) (candLastIdx candLastTerm : ℕ) : Bool :=
  if candLastTerm ≠ n.lastLogTermLocked then n.lastLogTermLocked < candLastTerm
  else n.lastLogIndexLocked ≤ candLastIdx

/-! ## Role changes -/

/-- `BecomeFollowerLocked` (lines 79–86). -/
def becomeFollowerLocked (n : RaftNode ι) (newTerm : ℕ) (leader : Option ι) : RaftNode ι :=
  { n with role := .follower, leaderId := leader, currentTerm := newTerm, votedFor := none }

/-- `BecomeCandidateLocked` (lines 88–95). -/
def becomeCandidateLocked (n : RaftNode ι) (id : ι) : RaftNode ι :=
  { n with
    role := .candidate, leaderId := none, currentTerm := n.currentTerm + 1, votedFor := some id }

variable [DecidableEq ι]

/-- `BecomeLeaderLocked` (lines 97–108). -/
def becomeLeaderLocked (n : RaftNode ι) (id : ι) (peers : List ι) : RaftNode ι :=
  { n with
    role := .leader
    leaderId := some id
    nextIndex := fun p => if p ∈ peers then some (n.lastLogIndexLocked + 1) else n.nextIndex p
    matchIndex := fun p => if p ∈ peers then some 0 else n.matchIndex p }

/-! ## Replication -/

omit [DecidableEq ι] in
/-- The sorted vector of `AdvanceCommitIndexLocked`: the node's own last index and
the values of `match_index_`, whose keys are all peers. -/
def matchValues (n : RaftNode ι) (peers : List ι) : List ℕ :=
  (n.lastLogIndexLocked :: peers.filterMap n.matchIndex).insertionSort (· ≤ ·)

omit [DecidableEq ι] in
/-- `AdvanceCommitIndexLocked` (lines 57–77). -/
def advanceCommitIndexLocked (n : RaftNode ι) (peers : List ι) : RaftNode ι :=
  let matchValues := n.matchValues peers
  let N := matchValues.getD (matchValues.length / 2) 0
  if n.commitIndex < N ∧ n.termAtLocked N = n.currentTerm then { n with commitIndex := N } else n

omit [DecidableEq ι] in
/-- `BuildAppendEntriesLocked` (lines 111–134). -/
def buildAppendEntriesLocked (n : RaftNode ι) (id peer : ι) : AppendEntriesReq ι :=
  let next := (n.nextIndex peer).getD 1
  let prev := if next = 0 ∨ next = 1 then 0 else next - 1
  { term := n.currentTerm
    leaderId := id
    prevLogIndex := prev
    prevLogTerm := n.termAtLocked prev
    entries := if 1 ≤ next ∧ next ≤ n.log.length then n.log.drop (next - 1) else []
    leaderCommit := n.commitIndex }

/-! ## RPC handlers -/

/-- `OnRequestVote` (lines 138–162). -/
def onRequestVote (n : RaftNode ι) (req : RequestVoteReq ι) : RequestVoteResp × RaftNode ι :=
  if req.term < n.currentTerm then (⟨n.currentTerm, false⟩, n)
  else
    let n := if n.currentTerm < req.term then n.becomeFollowerLocked req.term none else n
    let canVote := n.votedFor = none ∨ n.votedFor = some req.candidateId
    if canVote ∧ n.isUpToDateLocked req.lastLogIndex req.lastLogTerm = true then
      (⟨n.currentTerm, true⟩, { n with votedFor := some req.candidateId })
    else (⟨n.currentTerm, false⟩, n)

omit [DecidableEq ι] in
/-- `OnAppendEntries` (lines 164–213). -/
def onAppendEntries (n : RaftNode ι) (req : AppendEntriesReq ι) : AppendEntriesResp × RaftNode ι :=
  if req.term < n.currentTerm then (⟨n.currentTerm, false⟩, n)
  else
    let n :=
      if n.currentTerm < req.term then n.becomeFollowerLocked req.term (some req.leaderId)
      else { n with role := .follower, leaderId := some req.leaderId }
    if n.lastLogIndexLocked < req.prevLogIndex then (⟨n.currentTerm, false⟩, n)
    else if n.termAtLocked req.prevLogIndex ≠ req.prevLogTerm then (⟨n.currentTerm, false⟩, n)
    else
      let n :=
        if req.entries.isEmpty then n
        else
          let kept :=
            if req.prevLogIndex < n.lastLogIndexLocked then n.log.take req.prevLogIndex else n.log
          { n with log := kept ++ req.entries }
      let n :=
        if n.commitIndex < req.leaderCommit then
          { n with commitIndex := min req.leaderCommit n.lastLogIndexLocked }
        else n
      (⟨n.currentTerm, true⟩, n)

end RaftNode

end KvEngine
