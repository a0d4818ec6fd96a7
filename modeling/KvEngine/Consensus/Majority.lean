import KvEngine.Consensus.Log

/-!
# Commit points

How far a group of nodes has got, from the last positions they have reached. A position of
a log is committed by a quorum of `q` nodes when `q` of them have reached it and its entry
is of the current term.

Results:
* `le_getElem_iff_reached`: the element at a place of the sorted positions is the furthest
  that the nodes from that place on have reached.
* `commitPoint_eq`: only the furthest position that a quorum reached needs to be looked at.
* `max_commitPoint_succ_iff`: when a quorum of one node more commits as much.
-/

namespace Consensus

/-! ## Positions reached -/

/-- How many of the nodes have reached position `N`. -/
def reached {α : Type*} [LinearOrder α] (vs : List α) (N : α) : ℕ := vs.countP (N ≤ ·)

theorem reached_perm {α : Type*} [LinearOrder α] {vs ws : List α} (h : vs.Perm ws) (N : α) :
    reached vs N = reached ws N :=
  h.countP_eq _

theorem reached_anti {α : Type*} [LinearOrder α] (vs : List α) {N M : α} (h : N ≤ M) :
    reached vs M ≤ reached vs N := by
  apply List.countP_mono_left
  intro v _ hv
  simp only [decide_eq_true_eq] at hv ⊢
  exact h.trans hv

/-- The sorted positions from the `i`-th on are those that have reached it. -/
theorem le_getElem_iff_reached {α : Type*} [LinearOrder α] {vs : List α}
    (hs : vs.Pairwise (· ≤ ·)) {i : ℕ} (hi : i < vs.length) (N : α) :
    N ≤ vs[i] ↔ vs.length - i ≤ reached vs N := by
  induction vs generalizing i with
  | nil => exact absurd hi (Nat.not_lt_zero i)
  | cons v vs ih =>
    obtain ⟨hv, hs⟩ := List.pairwise_cons.mp hs
    have hall : N ≤ v → reached vs N = vs.length := by
      intro hN
      apply List.countP_eq_length.mpr
      intro w hw
      exact decide_eq_true (hN.trans (hv w hw))
    have hle : reached vs N ≤ vs.length := List.countP_le_length
    have hcons : reached (v :: vs) N = reached vs N + if N ≤ v then 1 else 0 := by
      simp [reached, List.countP_cons]
    rw [hcons, List.length_cons]
    cases i with
    | zero =>
      rw [List.getElem_cons_zero]
      split_ifs with hN
      · have := hall hN
        simp only [hN, true_iff]
        omega
      · simp only [hN, false_iff]
        omega
    | succ i =>
      rw [List.getElem_cons_succ, ih hs (by simpa using hi)]
      split_ifs with hN
      · have := hall hN
        omega
      · omega

/-! ## Logs in order -/

variable {ε : Type*} [Stamped ε]

/-- Stamps that do not go down do not go down between positions. -/
theorem termAt_mono {l : List ε} (h : l.Pairwise fun a b => stamp a ≤ stamp b) {i j : ℕ}
    (hij : i ≤ j) (hj : j ≤ l.length) : termAt l i ≤ termAt l j := by
  cases i with
  | zero => exact Nat.zero_le _
  | succ i =>
    obtain ⟨j, rfl⟩ : ∃ k, j = k + 1 := ⟨j - 1, by omega⟩
    rw [termAt_succ (List.getElem?_eq_getElem (show i < l.length by omega)),
      termAt_succ (List.getElem?_eq_getElem (show j < l.length by omega))]
    rcases Nat.lt_or_eq_of_le hij with hlt | heq
    · exact List.pairwise_iff_getElem.mp h i j _ _ (by omega)
    · obtain rfl : i = j := by omega
      exact le_rfl

theorem termAt_le {l : List ε} {t : ℕ} (h : ∀ e ∈ l, stamp e ≤ t) (i : ℕ) : termAt l i ≤ t := by
  cases i with
  | zero => exact Nat.zero_le _
  | succ i =>
    rcases Nat.lt_or_ge i l.length with hi | hi
    · rw [termAt_succ (List.getElem?_eq_getElem hi)]
      exact h _ (List.getElem_mem hi)
    · rw [termAt_of_length_lt (by omega)]
      exact Nat.zero_le _

/-! ## Commit points -/

/-- The last entry of `l` that is of term `t` and that `q` of the nodes have reached, by its
position; 0 when there is none. -/
def commitPoint (l : List ε) (t q : ℕ) (vs : List ℕ) : ℕ :=
  Nat.findGreatest (fun N => 0 < N ∧ q ≤ reached vs N ∧ termAt l N = t) l.length

variable {l : List ε} {t q : ℕ} {vs : List ℕ}

theorem le_commitPoint {N : ℕ} (hpos : 0 < N) (hlen : N ≤ l.length) (hq : q ≤ reached vs N)
    (ht : termAt l N = t) : N ≤ commitPoint l t q vs :=
  Nat.le_findGreatest hlen ⟨hpos, hq, ht⟩

theorem commitPoint_le_length : commitPoint l t q vs ≤ l.length := Nat.findGreatest_le _

theorem commitPoint_spec (h : 0 < commitPoint l t q vs) :
    q ≤ reached vs (commitPoint l t q vs) ∧ termAt l (commitPoint l t q vs) = t :=
  (Nat.findGreatest_of_ne_zero rfl h.ne').2

/-- In a log in order whose last term is at most `t`, the furthest position `K` that a quorum
has reached is the only candidate. -/
theorem commitPoint_eq (hsorted : l.Pairwise fun a b => stamp a ≤ stamp b)
    (hterms : ∀ e ∈ l, stamp e ≤ t) {K : ℕ} (hlen : K ≤ l.length)
    (hK : ∀ N, N ≤ K ↔ q ≤ reached vs N) :
    commitPoint l t q vs = if termAt l K = t then K else 0 := by
  have hle : commitPoint l t q vs ≤ K := by
    rcases Nat.eq_zero_or_pos (commitPoint l t q vs) with hzero | hpos
    · omega
    · exact (hK _).mpr (commitPoint_spec hpos).1
  split_ifs with ht
  · rcases Nat.eq_zero_or_pos K with hzero | hpos
    · omega
    · exact hle.antisymm (le_commitPoint hpos hlen ((hK K).mp le_rfl) ht)
  · -- every earlier entry is of an earlier term as well
    by_contra hne
    have hspec := (commitPoint_spec (Nat.pos_of_ne_zero hne)).2
    have hmono := termAt_mono hsorted hle hlen
    have hmax := termAt_le hterms K
    omega

theorem commitPoint_succ_le : commitPoint l t (q + 1) vs ≤ commitPoint l t q vs := by
  rcases Nat.eq_zero_or_pos (commitPoint l t (q + 1) vs) with hzero | hpos
  · omega
  · obtain ⟨hq, ht⟩ := commitPoint_spec hpos
    exact le_commitPoint hpos commitPoint_le_length (by omega) ht

/-- Asking for one node more makes no difference beyond `c` exactly when no entry of the term
beyond `c` has been reached by `q` nodes and no more. -/
theorem max_commitPoint_succ_iff (c : ℕ) :
    max c (commitPoint l t q vs) = max c (commitPoint l t (q + 1) vs) ↔
      ∀ N, c < N → N ≤ l.length → termAt l N = t → reached vs N ≠ q := by
  have hle : commitPoint l t (q + 1) vs ≤ commitPoint l t q vs := commitPoint_succ_le
  constructor
  · intro hmax N hcN hlen ht hq
    have hN : N ≤ commitPoint l t q vs := le_commitPoint (by omega) hlen hq.ge ht
    have heq : commitPoint l t (q + 1) vs = commitPoint l t q vs := by omega
    have hspec := (commitPoint_spec (show 0 < commitPoint l t (q + 1) vs by omega)).1
    rw [heq] at hspec
    have hanti := reached_anti vs hN
    omega
  · intro hno
    rcases Nat.lt_or_ge c (commitPoint l t q vs) with hlt | hge
    · obtain ⟨hq, ht⟩ := commitPoint_spec (show 0 < commitPoint l t q vs by omega)
      have hne := hno _ hlt commitPoint_le_length ht
      have hmore : q + 1 ≤ reached vs (commitPoint l t q vs) := by omega
      have hup : commitPoint l t q vs ≤ commitPoint l t (q + 1) vs :=
        le_commitPoint (by omega) commitPoint_le_length hmore ht
      omega
    · omega

end Consensus
