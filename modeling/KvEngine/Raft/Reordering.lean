import KvEngine.Raft.LogMatching

/-!
# Requests that arrive late

`OnAppendEntries` (`src/raft.cpp`, lines 164–213) cuts the log at `prev_log_index` whenever
the request has entries, also where the log agrees with them: what its comment calls a
conflicting suffix is any suffix. A piece of an earlier version of the leader's log that is
delivered after a longer one takes entries away.

Results:
* `RaftNode.keepsMatching_iff`: when a request leaves the entries of a later one that was
  delivered before it, and drops no entry that it does not conflict with.
-/

namespace KvEngine

open Consensus

variable {ι : Type}

namespace RaftNode

/-- When `r₁` is delivered behind `r₂`, the follower keeps every entry that `r₂` brought, and
loses entries only where `r₁` has an entry of a different term at the same index, and behind
it. -/
def KeepsMatching (n : RaftNode ι) (r₁ r₂ : AppendEntriesReq ι) : Prop :=
  r₂.msg.Held ((n.onAppendEntries r₂).2.onAppendEntries r₁).2.log ∧
    r₁.msg.DropsOnConflict (n.onAppendEntries r₂).2.log
      ((n.onAppendEntries r₂).2.onAppendEntries r₁).2.log

/-- **A late request.** Two requests of the follower's term carry pieces of one growing log.
The one with the longer version is accepted, and the other delivered behind it. It removes no
matching entry exactly when it has no entries, or is refused for the term in front of them, or
reaches as far as the first one and fits what that left of the follower's log. -/
theorem keepsMatching_iff {n : RaftNode ι} {r₁ r₂ : AppendEntriesReq ι} {L₁ L₂ : List LogEntry}
    (hterm₁ : r₁.term = n.currentTerm) (hterm₂ : r₂.term = n.currentTerm) (hgrow : L₁ <+: L₂)
    (h₁ : r₁.msg.PieceOf L₁) (h₂ : r₂.msg.PieceOf L₂)
    (haccept : (n.onAppendEntries r₂).1.success = true) :
    n.KeepsMatching r₁ r₂ ↔
      r₁.entries = [] ∨
      ((r₂.entries = [] ∨ r₁.prevLogIndex < r₂.prevLogIndex) ∧
        n.termAtLocked r₁.prevLogIndex ≠ r₁.prevLogTerm) ∨
      ((r₂.entries = [] ∨
          r₂.prevLogIndex + r₂.entries.length ≤ r₁.prevLogIndex + r₁.entries.length) ∧
        r₁.msg.Fits (if r₂.entries = [] then n.log else n.log.take r₂.prevLogIndex)) := by
  have happ₂ := onAppendEntries_appended (show n.currentTerm ≤ r₂.term by omega)
  have hle₁ : (n.onAppendEntries r₂).2.currentTerm ≤ r₁.term := by
    rw [happ₂.currentTerm]
    omega
  obtain ⟨hprev, hterm⟩ := happ₂.success.mp haccept
  unfold KeepsMatching
  rw [(onAppendEntries_appended hle₁).log, happ₂.log, termAtLocked_eq]
  exact h₂.late_iff h₁ hgrow hprev hterm

end RaftNode

/-- The entries of two proposals in term 1. -/
def lateEntries : List LogEntry := [⟨1, .put, [97], [49]⟩, ⟨1, .put, [98], [50]⟩]

/-- A follower in term 1 with nothing in its log. -/
def lateFollower : RaftNode (Fin 3) := { currentTerm := 1 }

/-- The request with the first `k` of the entries. -/
def lateRequest (k : ℕ) : AppendEntriesReq (Fin 3) where
  term := 1
  leaderId := 0
  prevLogIndex := 0
  prevLogTerm := 0
  entries := lateEntries.take k
  leaderCommit := 0

theorem lateRequest_pieceOf (k : ℕ) : (lateRequest k).msg.PieceOf (lateEntries.take k) :=
  ⟨rfl, List.prefix_rfl⟩

/-- The same entries once more change nothing. -/
theorem keepsMatching_again : lateFollower.KeepsMatching (lateRequest 2) (lateRequest 2) :=
  (RaftNode.keepsMatching_iff (by decide) (by decide) List.prefix_rfl (lateRequest_pieceOf 2)
    (lateRequest_pieceOf 2) (by decide)).mpr (Or.inr (Or.inr ⟨Or.inr le_rfl,
      ⟨fun _ _ _ ha => by simp [lateFollower] at ha, Or.inl (by decide)⟩⟩))

/-- The request with the first entry alone, delivered after the one with both, takes the
second away. -/
theorem not_keepsMatching : (lateRequest 1).term = lateFollower.currentTerm ∧
    (lateRequest 2).term = lateFollower.currentTerm ∧
    lateEntries.take 1 <+: lateEntries.take 2 ∧
    (lateRequest 1).msg.PieceOf (lateEntries.take 1) ∧
    (lateRequest 2).msg.PieceOf (lateEntries.take 2) ∧
    (lateFollower.onAppendEntries (lateRequest 2)).1.success = true ∧
    ¬ lateFollower.KeepsMatching (lateRequest 1) (lateRequest 2) := by
  refine ⟨by decide, by decide, ⟨lateEntries.drop 1, by decide⟩, lateRequest_pieceOf 1,
    lateRequest_pieceOf 2, by decide, ?_⟩
  rintro ⟨hheld, -⟩
  exact absurd (hheld 1 ⟨1, .put, [98], [50]⟩ (by decide)) (by decide)

end KvEngine
