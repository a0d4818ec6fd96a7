import KvEngine.Raft.Cluster

/-!
# A round of elections

What `ElectionLoop` (`src/raft.cpp`, lines 373–438) does from the moment its timeout has
passed to the end of its loop over the peers: it stands as a candidate, handles one reply
after the other and leads as soon as it has the votes. Between two replies other threads may
change the node.

Results:
* `awaitVotes_decides`: the loop over the peers counts a majority, if votes are missing when
  it starts.
* `electionRound_iff`: a round is decided by the majority exactly when there are peers. A node
  without peers has all votes and never looks at them.
* `run_voteRound`: a round of the loop is two steps of the cluster.
-/

namespace KvEngine

variable {ι : Type}

/-- A round of the loop over the peers: what other threads make of the node until the reply is
there, and the reply. -/
structure VoteRound (ι : Type) where
  meanwhile : RaftNode ι → RaftNode ι := id
  resp : RequestVoteResp

/-- The other threads leave the node's role and term. -/
def VoteRound.Quiet (r : VoteRound ι) : Prop :=
  ∀ n, (r.meanwhile n).role = n.role ∧ (r.meanwhile n).currentTerm = n.currentTerm

/-- How many of the replies grant the vote. -/
def granted (rounds : List (VoteRound ι)) : ℕ := rounds.countP fun r => r.resp.voteGranted

@[simp] theorem granted_nil : granted ([] : List (VoteRound ι)) = 0 := rfl

@[simp] theorem granted_cons (r : VoteRound ι) (rounds : List (VoteRound ι)) :
    granted (r :: rounds) = granted rounds + if r.resp.voteGranted then 1 else 0 :=
  List.countP_cons

section

variable [DecidableEq ι]

/-- The loop over the peers (lines 417–436): the node and the thread after the given rounds, of
which none is made any more when the loop is over. -/
def awaitVotes (id : ι) (peers : List ι) :
    List (VoteRound ι) → RaftNode ι × ElectionThread ι → RaftNode ι × ElectionThread ι
  | r :: rounds, (n, .calling req votes _ rest _) =>
    awaitVotes id peers rounds ((r.meanwhile n).voteReply id peers req votes rest r.resp)
  | _, x => x

/-- `ElectionLoop` from line 395 on, on a node whose timeout has passed. -/
def RaftNode.electionRound (n : RaftNode ι) (id : ι) (peers : List ι)
    (rounds : List (VoteRound ι)) : RaftNode ι :=
  (awaitVotes id peers rounds (n.startElection id peers)).1

/-- The node leads if and only if its own vote and the granted ones are more than half, and then
it starts to send every peer what comes behind its log. -/
structure RaftNode.DecidedBy (n : RaftNode ι) (peers : List ι) (votes : ℕ) : Prop where
  leads_iff : n.role = .leader ↔ 1 + peers.length < 2 * (1 + votes)
  indices : n.role = .leader → ∀ p ∈ peers,
    n.nextIndex p = some (n.lastLogIndexLocked + 1) ∧ n.matchIndex p = some 0

variable {id : ι} {peers : List ι}

theorem awaitVotes_sleeping (rounds : List (VoteRound ι)) (n : RaftNode ι) :
    awaitVotes id peers rounds (n, .sleeping) = (n, .sleeping) := by
  cases rounds <;> rfl

/-- A reply without a later term to a candidate of the election's term. -/
theorem voteReply_candidate {n : RaftNode ι} {req : RequestVoteReq ι} (hrole : n.role = .candidate)
    (hterm : n.currentTerm = req.term) {resp : RequestVoteResp} (hresp : resp.term ≤ req.term)
    (votes : ℕ) (rest : List ι) :
    n.voteReply id peers req votes rest resp =
      if RaftNode.needed peers ≤ votes + (if resp.voteGranted then 1 else 0) then
        (n.becomeLeaderLocked id peers, .sleeping)
      else (n, RaftNode.callForVote req (votes + if resp.voteGranted then 1 else 0) rest) := by
  have hcount : (if resp.voteGranted then votes + 1 else votes) =
      votes + if resp.voteGranted then 1 else 0 := by
    split_ifs <;> rfl
  unfold RaftNode.voteReply
  rw [if_neg (by simp [hrole]), if_neg (by simp [hterm]), if_neg (by omega)]
  simp only [hcount]

/-- **The loop over the peers.** A candidate whose votes do not suffice yet leads after the loop
if and only if they do with the granted ones, whatever their order. -/
theorem awaitVotes_decides {rounds : List (VoteRound ι)} {n : RaftNode ι} {req : RequestVoteReq ι}
    {votes : ℕ} {rest : List ι} (hlen : rounds.length = rest.length)
    (hquiet : ∀ r ∈ rounds, r.Quiet) (hresp : ∀ r ∈ rounds, r.resp.term ≤ req.term)
    (hrole : n.role = .candidate) (hterm : n.currentTerm = req.term)
    (hvotes : votes < RaftNode.needed peers) :
    let n' := (awaitVotes id peers rounds (n, RaftNode.callForVote req votes rest)).1
    (n'.role = .leader ↔ RaftNode.needed peers ≤ votes + granted rounds) ∧
      (n'.role = .leader → ∀ p ∈ peers,
        n'.nextIndex p = some (n'.lastLogIndexLocked + 1) ∧ n'.matchIndex p = some 0) := by
  induction rounds generalizing n votes rest with
  | nil =>
    have hno : ¬ n.role = .leader := by simp [hrole]
    refine ⟨iff_of_false hno ?_, fun h => absurd h hno⟩
    rw [granted_nil]
    omega
  | cons r rounds ih =>
    obtain ⟨p, rest, rfl⟩ := List.exists_cons_of_length_eq_add_one hlen.symm
    obtain ⟨hrole', hterm'⟩ := hquiet r List.mem_cons_self n
    rw [RaftNode.callForVote, awaitVotes, voteReply_candidate (hrole'.trans hrole)
      (hterm'.trans hterm) (hresp r List.mem_cons_self), granted_cons]
    generalize (if r.resp.voteGranted then 1 else 0) = vote
    by_cases henough : RaftNode.needed peers ≤ votes + vote
    · -- it leads, and the replies to come are not waited for
      rw [if_pos henough, awaitVotes_sleeping]
      refine ⟨iff_of_true rfl (by omega), fun _ p hp => ⟨?_, ?_⟩⟩
      · exact if_pos hp
      · exact if_pos hp
    · rw [if_neg henough]
      have hnext := ih (Nat.succ.inj hlen) (fun r hr => hquiet r (List.mem_cons_of_mem _ hr))
        (fun r hr => hresp r (List.mem_cons_of_mem _ hr)) (hrole'.trans hrole)
        (hterm'.trans hterm) (Nat.not_le.mp henough)
      rwa [Nat.add_assoc, Nat.add_comm vote] at hnext

/-- **An election round is decided by the majority exactly when there are peers.** With one reply
from every peer and none of a later term, while other threads leave the node's role and term. -/
theorem electionRound_iff {n : RaftNode ι} {rounds : List (VoteRound ι)}
    (hlen : rounds.length = peers.length) (hquiet : ∀ r ∈ rounds, r.Quiet)
    (hresp : ∀ r ∈ rounds, r.resp.term ≤ n.currentTerm + 1) :
    (n.electionRound id peers rounds).DecidedBy peers (granted rounds) ↔ peers ≠ [] := by
  constructor
  · rintro hdecided rfl
    -- no reply, no test of the votes
    obtain rfl := List.length_eq_zero_iff.mp hlen
    have hleads := hdecided.leads_iff.mpr (by simp)
    simp [RaftNode.electionRound, awaitVotes, RaftNode.startElection,
      RaftNode.becomeCandidateLocked] at hleads
  · intro hpeers
    have hpos : 0 < peers.length := List.length_pos_iff.mpr hpeers
    have hvotes : 1 < RaftNode.needed peers := by
      unfold RaftNode.needed
      omega
    set n' := n.becomeCandidateLocked id with hn'
    have hloop := @awaitVotes_decides _ _ id peers rounds n'
      ⟨n'.currentTerm, id, n'.lastLogIndexLocked, n'.lastLogTermLocked⟩ 1 peers hlen hquiet hresp
      rfl rfl hvotes
    obtain ⟨hleads, hindices⟩ := hloop
    refine ⟨hleads.trans ?_, hindices⟩
    unfold RaftNode.needed
    omega

/-- A round of the loop over the peers is two steps of the cluster: the delivery of the request
and the handling of the reply. -/
theorem run_voteRound {cfg : Config ι} {c : Cluster ι} {v p : ι} {req : RequestVoteReq ι}
    {votes : ℕ} {rest : List ι} (hne : p ≠ v)
    (hth : c.election v = .calling req votes p rest none) :
    ∃ c', c.run cfg (fun _ _ => True) [.deliverVote v, .voteReply v] = some c' ∧
      (c'.nodes v, c'.election v) =
        awaitVotes v (cfg.peers v) [{ resp := ((c.nodes p).onRequestVote req).1 }]
          (c.nodes v, c.election v) := by
  simp only [Cluster.run, if_true, Cluster.step, hth, Cluster.setElection, Cluster.setNode,
    Function.update_self, Function.update_of_ne hne.symm]
  refine ⟨_, rfl, ?_⟩
  simp only [Function.update_self, awaitVotes, id]

end

/-- One of two votes; another thread moves the commit index before it arrives. -/
def roundsOfThree : List (VoteRound (Fin 3)) :=
  [{ resp := ⟨1, false⟩ },
   { resp := ⟨1, true⟩, meanwhile := fun n => { n with commitIndex := 1 } }]

theorem electionRound_three :
    (({} : RaftNode (Fin 3)).electionRound 0 [1, 2] roundsOfThree).DecidedBy [1, 2]
      (granted roundsOfThree) := by
  refine (electionRound_iff rfl ?_ ?_).mpr (by simp)
  · intro r hr
    rcases List.mem_cons.mp hr with rfl | hr
    · exact fun _ => ⟨rfl, rfl⟩
    · obtain rfl := List.mem_singleton.mp hr
      exact fun _ => ⟨rfl, rfl⟩
  · intro r hr
    rcases List.mem_cons.mp hr with rfl | hr
    · exact le_rfl
    · obtain rfl := List.mem_singleton.mp hr
      exact le_rfl

/-- A node without peers has one vote of one and stays a candidate. -/
theorem not_decidedBy_alone :
    ¬ (∀ (n : RaftNode ℕ) (id : ℕ) (peers : List ℕ) (rounds : List (VoteRound ℕ)),
      peers.Nodup → id ∉ peers → rounds.length = peers.length → (∀ r ∈ rounds, r.Quiet) →
      (∀ r ∈ rounds, r.resp.term ≤ n.currentTerm + 1) →
      (n.electionRound id peers rounds).DecidedBy peers (granted rounds)) ∧
    (({} : RaftNode ℕ).electionRound 1 [] []).role = .candidate ∧
    1 + ([] : List ℕ).length < 2 * (1 + granted ([] : List (VoteRound ℕ))) := by
  refine ⟨fun hclaim => ?_, rfl, by decide⟩
  have hdecided := hclaim {} 1 [] [] List.nodup_nil List.not_mem_nil rfl (by simp) (by simp)
  exact absurd (hdecided.leads_iff.mpr (by decide)) (by decide)

end KvEngine
