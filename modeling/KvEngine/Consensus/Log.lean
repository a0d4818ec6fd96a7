import Mathlib

/-!
# Logs of stamped entries

A replicated log is a list of entries, each stamped with the term of the leader
that made it. Terms are compared by position from 1, position 0 being before the
first entry.

`Genuine llog l` says that every prefix of `l` is a prefix of the log of the
leader that stamped its last entry, where `llog t` is the log of the leader of
term `t`. Genuine logs match: if two of them have entries with one stamp at one
position, they agree up to it (`Genuine.take_eq_of_termAt`).
-/

namespace Consensus

/-- An entry of a prefix is at the same position of the whole. -/
theorem getElem?_of_isPrefix {α : Type*} {l l' : List α} (h : l <+: l') {k : ℕ} {e : α}
    (hk : l[k]? = some e) : l'[k]? = some e := by
  obtain ⟨r, rfl⟩ := h
  have hlt : k < l.length := (List.getElem?_eq_some_iff.mp hk).1
  rwa [List.getElem?_append_left hlt]

/-- Entries with a term. -/
class Stamped (ε : Type*) where
  stamp : ε → ℕ

export Stamped (stamp)

variable {ε : Type*} [Stamped ε]

/-- The term at position `i`, 0 outside the log. -/
def termAt (l : List ε) : ℕ → ℕ
  | 0 => 0
  | k + 1 => (l[k]?).elim 0 stamp

/-- The term of the last entry, 0 for the empty log. -/
def lastTerm (l : List ε) : ℕ := termAt l l.length

@[simp] theorem termAt_zero (l : List ε) : termAt l 0 = 0 := rfl

theorem termAt_succ {l : List ε} {k : ℕ} {e : ε} (h : l[k]? = some e) :
    termAt l (k + 1) = stamp e := by
  rw [termAt, h]
  rfl

/-- The term at a position is said by the log up to it. -/
theorem termAt_congr {l l' : List ε} {i : ℕ} (h : l.take i = l'.take i) :
    termAt l i = termAt l' i := by
  cases i with
  | zero => rfl
  | succ k =>
    have hk := congrArg (·[k]?) h
    simp only [List.getElem?_take_of_succ] at hk
    rw [termAt, termAt, hk]

theorem termAt_of_length_lt {l : List ε} {i : ℕ} (h : l.length < i) : termAt l i = 0 := by
  cases i with
  | zero => rfl
  | succ k =>
    rw [termAt, List.getElem?_eq_none (by omega)]
    rfl

/-- The last entry of `L` is at least as new as that of `l`, and `L` at least as
long if they have one term: the test a voter makes. -/
def UpToDate (L l : List ε) : Prop :=
  lastTerm l < lastTerm L ∨ (lastTerm L = lastTerm l ∧ l.length ≤ L.length)

/-! ## Matching logs -/

/-- Logs with entries of one term at one position agree up to it. -/
def LogMatch (l l' : List ε) : Prop :=
  ∀ k e e', l[k]? = some e → l'[k]? = some e' → stamp e = stamp e' →
    l.take (k + 1) = l'.take (k + 1)

/-- Matching logs, by position from 1. -/
theorem LogMatch.take_eq_of_termAt {l l' : List ε} (h : LogMatch l l') {i : ℕ} (hi : i ≤ l.length)
    (hi' : i ≤ l'.length) (hterm : termAt l i = termAt l' i) : l.take i = l'.take i := by
  cases i with
  | zero => rfl
  | succ k =>
    have hk : l[k]? = some l[k] := List.getElem?_eq_getElem (by omega)
    have hk' : l'[k]? = some l'[k] := List.getElem?_eq_getElem (by omega)
    rw [termAt_succ hk, termAt_succ hk'] at hterm
    exact h k _ _ hk hk' hterm

theorem logMatch_of_isPrefix {l l' : List ε} (h : l <+: l') : LogMatch l l' := by
  intro k e e' hk hk' _
  have hlt : k < l.length := (List.getElem?_eq_some_iff.mp hk).1
  obtain ⟨r, rfl⟩ := h
  rw [List.take_append_of_le_length (by omega)]

/-! ## Genuine logs -/

/-- Every prefix of `l` is a prefix of the log of the leader that stamped its last
entry. -/
def Genuine (llog : ℕ → List ε) (l : List ε) : Prop :=
  ∀ k e, l[k]? = some e → l.take (k + 1) = (llog (stamp e)).take (k + 1)

theorem genuine_nil (llog : ℕ → List ε) : Genuine llog [] := by
  intro k e h
  simp at h

namespace Genuine

variable {llog llog' : ℕ → List ε} {l l' : List ε}

theorem of_isPrefix (h : Genuine llog l) (hp : l' <+: l) : Genuine llog l' := by
  intro k e hk
  have hlt : k < l'.length := (List.getElem?_eq_some_iff.mp hk).1
  rw [← h k e (getElem?_of_isPrefix hp hk)]
  obtain ⟨r, rfl⟩ := hp
  rw [List.take_append_of_le_length (by omega)]

theorem take (h : Genuine llog l) (n : ℕ) : Genuine llog (l.take n) :=
  h.of_isPrefix (List.take_prefix n l)

/-- The entry is in the log of the leader that stamped it, at the same position. -/
theorem getElem? (h : Genuine llog l) {k : ℕ} {e : ε} (hk : l[k]? = some e) :
    (llog (stamp e))[k]? = some e := by
  have htake := congrArg (·[k]?) (h k e hk)
  simp only [List.getElem?_take_of_succ] at htake
  rw [← htake, hk]

/-- Genuine logs stay so when leaders' logs grow. -/
theorem mono (h : Genuine llog l) (hgrow : ∀ t, llog t <+: llog' t) : Genuine llog' l := by
  intro k e hk
  have hlt : k < (llog (stamp e)).length := (List.getElem?_eq_some_iff.mp (h.getElem? hk)).1
  rw [h k e hk]
  obtain ⟨r, hr⟩ := hgrow (stamp e)
  rw [← hr, List.take_append_of_le_length (by omega)]

/-- A genuine log that ends in an entry of term `t` is a prefix of that leader's log. -/
theorem prefix_llog (h : Genuine llog l) {e : ε} (hlast : l[l.length - 1]? = some e) :
    l <+: llog (stamp e) := by
  have hlt : l.length - 1 < l.length := (List.getElem?_eq_some_iff.mp hlast).1
  have htake := h _ e hlast
  rw [Nat.sub_add_cancel (by omega), List.take_length] at htake
  rw [htake]
  exact List.take_prefix _ _

/-- Genuine logs match. -/
theorem take_eq (h : Genuine llog l) (h' : Genuine llog l') {k : ℕ} {e e' : ε}
    (hk : l[k]? = some e) (hk' : l'[k]? = some e') (hterm : stamp e = stamp e') :
    l.take (k + 1) = l'.take (k + 1) := by
  rw [h k e hk, h' k e' hk', hterm]

theorem logMatch (h : Genuine llog l) (h' : Genuine llog l') : LogMatch l l' :=
  fun _ _ _ hk hk' hterm => h.take_eq h' hk hk' hterm

/-- Genuine logs match, by position from 1. -/
theorem take_eq_of_termAt (h : Genuine llog l) (h' : Genuine llog l') {i : ℕ}
    (hi : i ≤ l.length) (hi' : i ≤ l'.length) (hterm : termAt l i = termAt l' i) :
    l.take i = l'.take i :=
  (h.logMatch h').take_eq_of_termAt hi hi' hterm

/-- In a genuine log no entry is newer than a later one, as no leader's log has an
entry newer than the leader. -/
theorem stamp_le (h : Genuine llog l) (hllog : ∀ t, ∀ e ∈ llog t, stamp e ≤ t) {j k : ℕ} {e e' : ε}
    (hj : l[j]? = some e) (hk : l[k]? = some e') (hjk : j ≤ k) : stamp e ≤ stamp e' := by
  apply hllog
  have htake : (l.take (k + 1))[j]? = some e := by
    rw [List.getElem?_take_of_lt (by omega), hj]
  rw [h k e' hk] at htake
  exact List.mem_of_mem_take (List.mem_of_getElem? htake)

/-- The leader of `t` appends an entry of its own. -/
theorem append (h : Genuine llog l) {t : ℕ} {e : ε} (he : stamp e = t)
    (hgrow : ∀ t, llog t <+: llog' t) (hnew : llog' t = l ++ [e]) : Genuine llog' (l ++ [e]) := by
  intro k x hk
  by_cases hlt : k < l.length
  · rw [List.getElem?_append_left hlt] at hk
    rw [List.take_append_of_le_length (by omega)]
    exact h.mono hgrow k x hk
  · have hkl : k = l.length := by
      have := (List.getElem?_eq_some_iff.mp hk).1
      simp only [List.length_append, List.length_singleton] at this
      omega
    subst hkl
    obtain rfl : e = x := by simpa using hk
    rw [he, hnew]

end Genuine

end Consensus
