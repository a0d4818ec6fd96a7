import KvEngine.Consensus.Majority
import KvEngine.Raft.Simulation

/-!
# Commit without a majority

`AdvanceCommitIndexLocked` (`src/raft.cpp`, lines 57–77) takes the element at the middle of
the sorted match values, which half of the nodes have reached, rounded up. `ProposePut` and
`ElectionLoop` ask for `total / 2 + 1` nodes: that is one more when the number of nodes is
even.

Results:
* `commitIndex_advanceCommitIndexLocked`: the commit index moves to the commit point of half of the
  nodes.
* `majorityIndex_eq`: more than half of the nodes are what the proposals call `needed`.
* `advanceCommitIndexLocked_majority_iff`: the commit index is that of a majority exactly
  when no further entry of the term is held by just half of the nodes.
-/

namespace KvEngine

open Consensus

namespace RaftNode

variable {ι : Type}

/-- How many of the node and its peers hold the log up to index `N`, the node with its own
log and the peers by `match_index_`. -/
def replicas (n : RaftNode ι) (peers : List ι) (N : ℕ) : ℕ :=
  reached (n.lastLogIndexLocked :: peers.filterMap n.matchIndex) N

/-- The largest index up to which more than half of the nodes hold the log and whose entry
is of the current term; 0 when there is none. -/
def majorityIndex (n : RaftNode ι) (peers : List ι) : ℕ :=
  Nat.findGreatest (fun N => 0 < N ∧ 1 + peers.length < 2 * n.replicas peers N ∧
    n.termAtLocked N = n.currentTerm) n.lastLogIndexLocked

/-- A leader's log is in order, none of its terms is ahead of the node's, and every peer has
a match value inside the log. -/
structure Tracks (n : RaftNode ι) (peers : List ι) : Prop where
  sorted : n.log.Pairwise fun a b => a.term ≤ b.term
  terms : ∀ e ∈ n.log, e.term ≤ n.currentTerm
  matched : ∀ p ∈ peers, ∃ m, n.matchIndex p = some m ∧ m ≤ n.log.length

/-- The quorum that `AdvanceCommitIndexLocked` takes: half of the nodes, rounded up. -/
def half (peers : List ι) : ℕ := (1 + peers.length) - (1 + peers.length) / 2

/-- It is `needed` for an odd number of nodes, and one less for an even number. -/
theorem needed_eq (peers : List ι) :
    needed peers = if Odd (1 + peers.length) then half peers else half peers + 1 := by
  unfold needed half
  split_ifs with h
  · obtain ⟨k, hk⟩ := h
    omega
  · obtain ⟨k, hk⟩ := Nat.not_odd_iff_even.mp h
    omega

/-- More than half of the nodes are `needed` nodes. -/
theorem majorityIndex_eq (n : RaftNode ι) (peers : List ι) :
    n.majorityIndex peers = commitPoint n.log n.currentTerm (needed peers)
      (n.lastLogIndexLocked :: peers.filterMap n.matchIndex) := by
  have hmore : ∀ N, 1 + peers.length < 2 * n.replicas peers N ↔
      needed peers ≤ n.replicas peers N := by
    intro N
    unfold needed
    omega
  simp only [majorityIndex, hmore, termAtLocked_eq]
  rfl

theorem length_matchValues {n : RaftNode ι} {peers : List ι}
    (h : ∀ p ∈ peers, n.matchIndex p ≠ none) :
    (n.matchValues peers).length = 1 + peers.length := by
  have hall : (peers.filterMap n.matchIndex).length = peers.length := by
    rw [List.filterMap_length_eq_length]
    intro p hp
    exact Option.isSome_iff_ne_none.mpr (h p hp)
  rw [matchValues, List.length_insertionSort, List.length_cons, hall, Nat.add_comm]

/-- The middle of the sorted match values is what half of the nodes have reached. -/
theorem le_middle_iff {n : RaftNode ι} {peers : List ι}
    (hlen : (n.matchValues peers).length = 1 + peers.length)
    (hmid : (n.matchValues peers).length / 2 < (n.matchValues peers).length) (N : ℕ) :
    N ≤ (n.matchValues peers)[(n.matchValues peers).length / 2] ↔
      half peers ≤ n.replicas peers N := by
  have hperm : reached (n.matchValues peers) N = n.replicas peers N :=
    reached_perm (List.perm_insertionSort _ _) N
  have hsorted : (n.matchValues peers).Pairwise (· ≤ ·) := List.pairwise_insertionSort _ _
  rw [le_getElem_iff_reached hsorted hmid, hperm, hlen]
  rfl

theorem Tracks.matched_ne_none {n : RaftNode ι} {peers : List ι} (h : n.Tracks peers) :
    ∀ p ∈ peers, n.matchIndex p ≠ none := by
  intro p hp hnone
  obtain ⟨m, hm, -⟩ := h.matched p hp
  rw [hm] at hnone
  simp at hnone

theorem Tracks.le_of_mem_matchValues {n : RaftNode ι} {peers : List ι} (h : n.Tracks peers)
    {m : ℕ} (hm : m ∈ n.matchValues peers) : m ≤ n.log.length := by
  rcases List.mem_cons.mp ((List.perm_insertionSort _ _).subset hm) with rfl | hm
  · exact le_rfl
  · obtain ⟨p, hp, hpm⟩ := List.mem_filterMap.mp hm
    obtain ⟨m', hm', hle⟩ := h.matched p hp
    rw [hm', Option.some.injEq] at hpm
    omega

/-- The commit index moves to the last entry of the term that half of the nodes hold. -/
theorem commitIndex_advanceCommitIndexLocked {n : RaftNode ι} {peers : List ι}
    (h : n.Tracks peers) :
    (n.advanceCommitIndexLocked peers).commitIndex = max n.commitIndex
      (commitPoint n.log n.currentTerm (half peers)
        (n.lastLogIndexLocked :: peers.filterMap n.matchIndex)) := by
  have hcount := length_matchValues h.matched_ne_none
  have hmid : (n.matchValues peers).length / 2 < (n.matchValues peers).length := by omega
  have hK := le_middle_iff hcount hmid
  have hlen : (n.matchValues peers)[(n.matchValues peers).length / 2] ≤ n.log.length :=
    h.le_of_mem_matchValues (List.getElem_mem hmid)
  have hgetD : (n.matchValues peers).getD ((n.matchValues peers).length / 2) 0 =
      (n.matchValues peers)[(n.matchValues peers).length / 2] :=
    List.getD_eq_getElem _ _ hmid
  set K := (n.matchValues peers)[(n.matchValues peers).length / 2]
  rw [commitPoint_eq h.sorted h.terms hlen hK, ← termAtLocked_eq]
  simp only [advanceCommitIndexLocked, hgetD]
  by_cases ht : n.termAtLocked K = n.currentTerm
  · simp only [ht, and_true, if_true]
    split_ifs with hc
    · show K = _
      omega
    · omega
  · rw [if_neg ht, if_neg fun hc => ht hc.2, Nat.max_zero]

/-- **A true majority, or half.** After `AdvanceCommitIndexLocked` the commit index is what a
majority of the nodes commits exactly when no entry of the current term beyond the old commit
index is held by exactly half of the nodes. -/
theorem advanceCommitIndexLocked_majority_iff {n : RaftNode ι} {peers : List ι}
    (h : n.Tracks peers) :
    (n.advanceCommitIndexLocked peers).commitIndex =
        max n.commitIndex (n.majorityIndex peers) ↔
      ∀ N, n.commitIndex < N → N ≤ n.log.length → n.termAtLocked N = n.currentTerm →
        2 * n.replicas peers N ≠ 1 + peers.length := by
  rw [commitIndex_advanceCommitIndexLocked h, majorityIndex_eq, needed_eq]
  simp only [termAtLocked_eq]
  split_ifs with hodd
  · obtain ⟨k, hk⟩ := hodd
    constructor
    · intro _ N _ _ _
      omega
    · exact fun _ => rfl
  · obtain ⟨k, hk⟩ := Nat.not_odd_iff_even.mp hodd
    rw [max_commitPoint_succ_iff]
    have hhalf : half peers = k := by
      unfold half
      omega
    constructor <;> intro hno N hcN hlen ht
    · have := hno N hcN hlen ht
      unfold replicas
      omega
    · have := hno N hcN hlen ht
      unfold replicas at this
      omega

end RaftNode

/-- A leader of four nodes whose entry two of its peers hold. -/
def leaderOfFour : RaftNode (Fin 4) where
  currentTerm := 1
  role := .leader
  log := [⟨1, .put, [107], [118]⟩]
  nextIndex := Function.update (fun _ => some 2) 3 (some 1)
  matchIndex := Function.update (fun _ => some 1) 3 (some 0)

theorem advanceCommitIndexLocked_leaderOfFour :
    (leaderOfFour.advanceCommitIndexLocked [1, 2, 3]).commitIndex =
      max leaderOfFour.commitIndex (leaderOfFour.majorityIndex [1, 2, 3]) := by
  have htracks : leaderOfFour.Tracks [1, 2, 3] := by
    constructor <;> simp [leaderOfFour, Function.update]
  refine (RaftNode.advanceCommitIndexLocked_majority_iff htracks).mpr ?_
  intro N hN hlen _
  obtain rfl : N = 1 := le_antisymm hlen hN
  decide

/-- A leader of two nodes that has appended its first entry; its peer has none. -/
def leaderOfTwo : RaftNode (Fin 2) where
  currentTerm := 1
  role := .leader
  log := [⟨1, .put, [107], [118]⟩]
  nextIndex := Function.update (fun _ => none) 1 (some 1)
  matchIndex := Function.update (fun _ => none) 1 (some 0)

/-- It commits the entry that it alone holds. -/
theorem not_majority_leaderOfTwo : leaderOfTwo.Tracks [1] ∧
    (leaderOfTwo.advanceCommitIndexLocked [1]).commitIndex = 1 ∧
    leaderOfTwo.replicas [1] 1 = 1 ∧
    (leaderOfTwo.advanceCommitIndexLocked [1]).commitIndex ≠
      max leaderOfTwo.commitIndex (leaderOfTwo.majorityIndex [1]) := by
  have htracks : leaderOfTwo.Tracks [1] := by
    constructor <;> simp [leaderOfTwo]
  exact ⟨htracks, by decide, by decide, by decide⟩

end KvEngine
