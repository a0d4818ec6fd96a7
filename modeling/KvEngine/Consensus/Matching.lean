import KvEngine.Consensus.Election

/-!
# Log matching

If every request that is stored carries a piece of a genuine log, then all logs
stay genuine, and so match.

Results:
* `World.Matching.apply`: an event that stores pieces of genuine logs only
  (`World.Tidy`) keeps the matching invariant.
* `World.Matching.take_eq`: logs with entries of one term at one position agree up
  to it.
* `Msg.PieceOf.held_store_store_iff`: when a request that arrives late leaves the entries of
  a later one where they are.
* `Msg.dropsOnConflict_store_iff`, `Msg.PieceOf.late_iff`: when a request, and when one that
  arrives late, drops nothing without a conflict.
-/

namespace Consensus

variable {ι ε : Type*} [DecidableEq ι] [Stamped ε]

namespace Msg

/-- The request carries a piece of the log `L`, with the term of the entry before. -/
def PieceOf (m : Msg ε) (L : List ε) : Prop :=
  m.prevTerm = termAt L m.prev ∧ m.entries <+: L.drop m.prev

variable {m : Msg ε} {L l : List ε}

theorem PieceOf.last_le (h : m.PieceOf L) (hne : m.entries ≠ []) : m.last ≤ L.length := by
  have hlen := h.2.length_le
  have hpos := List.length_pos_of_ne_nil hne
  rw [List.length_drop] at hlen
  unfold last
  omega

/-- A piece of a log that grows is a piece of what it grows to. -/
theorem PieceOf.mono {L' : List ε} (h : m.PieceOf L) (hgrow : L <+: L') (hne : m.entries ≠ []) :
    m.PieceOf L' := by
  have hlast := h.last_le hne
  have hpos := List.length_pos_of_ne_nil hne
  have hlen : m.prev < L.length := by unfold last at hlast; omega
  obtain ⟨r, rfl⟩ := hgrow
  refine ⟨?_, ?_⟩
  · rw [h.1]
    cases hp : m.prev with
    | zero => rfl
    | succ k => rw [termAt, termAt, List.getElem?_append_left (by omega)]
  · rw [List.drop_append_of_le_length (by omega)]
    exact h.2.trans (List.prefix_append _ _)

/-- The entry at a position inside the piece. -/
theorem PieceOf.getElem? (h : m.PieceOf L) {i : ℕ} {e : ε} (he : m.entries[i]? = some e) :
    L[m.prev + i]? = some e := by
  have := getElem?_of_isPrefix h.2 he
  rwa [List.getElem?_drop] at this

/-- Storing a piece of a genuine log in a genuine log gives a prefix of the former. -/
theorem PieceOf.store_eq {llog : ℕ → List ε} (h : m.PieceOf L) (hL : Genuine llog L)
    (hl : Genuine llog l) (hstores : m.Stores l) : m.store l = L.take m.last := by
  obtain ⟨hne, hprev, hterm⟩ := hstores
  have hlast := h.last_le hne
  have htake : l.take m.prev = L.take m.prev := by
    apply hl.take_eq_of_termAt hL hprev
    · unfold last at hlast; omega
    · rw [hterm, h.1]
  rw [store, if_pos ⟨hne, hprev, hterm⟩, htake, last, List.take_add,
    ← List.prefix_iff_eq_take.mp h.2]

/-! ## Requests out of order -/

/-- Every entry of the request is in the log at its position. -/
def Held (m : Msg ε) (l : List ε) : Prop :=
  ∀ i e, m.entries[i]? = some e → l[m.prev + i]? = some e

theorem length_store (h : m.Stores l) : (m.store l).length = m.last := by
  rw [store, if_pos h, List.length_append, List.length_take, min_eq_left h.2.1]
  rfl

theorem take_store (h : m.Stores l) : (m.store l).take m.prev = l.take m.prev := by
  rw [store, if_pos h, List.take_left' (by rw [List.length_take, min_eq_left h.2.1])]

theorem held_store (h : m.Stores l) : m.Held (m.store l) := by
  intro i e he
  have hlen : (l.take m.prev).length = m.prev := by rw [List.length_take, min_eq_left h.2.1]
  rw [store, if_pos h, List.getElem?_append_right (by omega), hlen, Nat.add_sub_cancel_left, he]

/-- From `prev` to the end the log then has the terms of the log the piece is of. -/
theorem PieceOf.termAt_store (h : m.PieceOf L) (hstores : m.Stores l) {i : ℕ} (hi : m.prev ≤ i)
    (hlast : i ≤ m.last) : termAt (m.store l) i = termAt L i := by
  rcases Nat.eq_or_lt_of_le hi with rfl | hlt
  · rw [termAt_congr (take_store hstores), hstores.2.2, h.1]
  · obtain ⟨k, rfl⟩ : ∃ k, i = m.prev + k + 1 := ⟨i - m.prev - 1, by omega⟩
    have hk : m.entries[k]? = some _ :=
      List.getElem?_eq_getElem (show k < m.entries.length by unfold last at hlast; omega)
    rw [termAt_succ (held_store hstores k _ hk), termAt_succ (h.getElem? hk)]

/-- A piece of an earlier version of the log that arrives late is stored, unless it begins
further to the front, where the log has another term. -/
theorem PieceOf.stores_store_iff {m' : Msg ε} {L' : List ε} (h : m.PieceOf L)
    (h' : m'.PieceOf L') (hgrow : L' <+: L) (hne : m'.entries ≠ []) (hstores : m.Stores l)
    (hlast : m'.last < m.last) :
    m'.Stores (m.store l) ↔ ¬ (m'.prev < m.prev ∧ termAt l m'.prev ≠ m'.prevTerm) := by
  have hprev : m'.prev ≤ m'.last := Nat.le_add_right _ _
  have hle : m'.prev ≤ (m.store l).length := by rw [length_store hstores]; omega
  have hterm : m'.Stores (m.store l) ↔ termAt (m.store l) m'.prev = m'.prevTerm :=
    ⟨fun hs => hs.2.2, fun ht => ⟨hne, hle, ht⟩⟩
  rw [hterm]
  rcases Nat.lt_or_ge m'.prev m.prev with hlt | hge
  · have htake : (m.store l).take m'.prev = l.take m'.prev := by
      have := congrArg (List.take m'.prev) (take_store hstores)
      rwa [List.take_take, List.take_take, min_eq_left hlt.le] at this
    rw [termAt_congr htake]
    simp only [hlt, true_and, not_not]
  · have htake : L.take m'.prev = L'.take m'.prev := by
      have hlen := h'.last_le hne
      obtain ⟨r, rfl⟩ := hgrow
      rw [List.take_append_of_le_length (by omega)]
    rw [h.termAt_store hstores hge (by omega), termAt_congr htake, h'.1]
    simp only [Nat.not_lt.mpr hge, false_and, not_false_eq_true]

/-- What a piece brought stays when a piece of an earlier version arrives late, exactly when
that reaches as far or is not stored. -/
theorem PieceOf.held_store_store_iff {m' : Msg ε} {L' : List ε} (h : m.PieceOf L)
    (h' : m'.PieceOf L') (hgrow : L' <+: L) (hne : m'.entries ≠ []) (hstores : m.Stores l) :
    m.Held (m'.store (m.store l)) ↔
      m.last ≤ m'.last ∨ (m'.prev < m.prev ∧ termAt l m'.prev ≠ m'.prevTerm) := by
  rcases Nat.lt_or_ge m'.last m.last with hlt | hge
  · have hiff := h.stores_store_iff h' hgrow hne hstores hlt
    constructor
    · intro hheld
      refine Or.inr (by_contra fun hno => ?_)
      have hs := hiff.mpr hno
      -- the last entry brought is cut off
      have hpos := List.length_pos_of_ne_nil hstores.1
      have hend := hheld (m.entries.length - 1) _ (List.getElem?_eq_getElem (by omega))
      have hin := (List.getElem?_eq_some_iff.mp hend).1
      rw [length_store hs] at hin
      unfold last at hlt hin
      omega
    · rintro (hle | hno)
      · omega
      · have hs : ¬ m'.Stores (m.store l) := fun hs => hiff.mp hs hno
        rw [store, if_neg hs]
        exact held_store hstores
  · refine ⟨fun _ => Or.inl hge, fun _ i e he => ?_⟩
    by_cases hs : m'.Stores (m.store l)
    · have hi : i < m.entries.length := (List.getElem?_eq_some_iff.mp he).1
      have hlen : ((m.store l).take m'.prev).length = m'.prev := by
        rw [List.length_take, min_eq_left hs.2.1]
      rw [store, if_pos hs]
      rcases Nat.lt_or_ge (m.prev + i) m'.prev with hbefore | hin
      · rw [List.getElem?_append_left (by omega), List.getElem?_take_of_lt hbefore]
        exact held_store hstores i e he
      · rw [List.getElem?_append_right (by omega), hlen]
        -- both pieces have the entry of the leader's log there
        have hj : m'.entries[m.prev + i - m'.prev]? = some _ :=
          List.getElem?_eq_getElem (by unfold last at hge; omega)
        have hL := getElem?_of_isPrefix hgrow (h'.getElem? hj)
        rw [Nat.add_sub_cancel' hin, h.getElem? he] at hL
        rw [hj, hL]
    · rw [store, if_neg hs]
      exact held_store hstores i e he

/-! ## What is dropped -/

/-- The `i`-th entry of the request has another term than the entry of the log at its
position. -/
def ConflictAt (m : Msg ε) (l : List ε) (i : ℕ) : Prop :=
  ∃ a b, l[m.prev + i]? = some a ∧ m.entries[i]? = some b ∧ stamp a ≠ stamp b

/-- Where the log `l'` no longer has an entry of `l`, the request has a conflict with `l`, there
or before. -/
def DropsOnConflict (m : Msg ε) (l l' : List ε) : Prop :=
  ∀ i e, l[i]? = some e → l'[i]? ≠ some e → ∃ j, m.prev + j ≤ i ∧ m.ConflictAt l j

/-- Where log and request first have different entries, these have different terms, and if they
nowhere have, the request reaches the end of the log. -/
structure Fits (m : Msg ε) (l : List ε) : Prop where
  differs : ∀ i a b, l[m.prev + i]? = some a → m.entries[i]? = some b → a ≠ b →
    ∃ j ≤ i, m.ConflictAt l j
  reaches : l.length ≤ m.last ∨ ∃ j, m.ConflictAt l j

theorem ConflictAt.lt {i : ℕ} (h : m.ConflictAt l i) : i < m.entries.length := by
  obtain ⟨a, b, -, hb, -⟩ := h
  exact (List.getElem?_eq_some_iff.mp hb).1

theorem getElem?_store (h : m.Stores l) (i : ℕ) :
    (m.store l)[i]? = if i < m.prev then l[i]? else m.entries[i - m.prev]? := by
  have hlen : (l.take m.prev).length = m.prev := by rw [List.length_take, min_eq_left h.2.1]
  rw [store, if_pos h]
  split_ifs with hi
  · rw [List.getElem?_append_left (by omega), List.getElem?_take_of_lt hi]
  · rw [List.getElem?_append_right (by omega), hlen]

theorem DropsOnConflict.refl (m : Msg ε) (l : List ε) : m.DropsOnConflict l l :=
  fun _ _ he hne => absurd he hne

/-- A request that is stored drops nothing without a conflict exactly when it fits the log. -/
theorem dropsOnConflict_store_iff (h : m.Stores l) :
    m.DropsOnConflict l (m.store l) ↔ m.Fits l := by
  constructor
  · intro hdrops
    constructor
    · intro i a b ha hb hne
      have hnew : (m.store l)[m.prev + i]? = some b := by
        rw [getElem?_store h, if_neg (by omega), Nat.add_sub_cancel_left, hb]
      obtain ⟨j, hj, hconflict⟩ := hdrops _ a ha (by simp [hnew, Ne.symm hne])
      exact ⟨j, by omega, hconflict⟩
    · rcases Nat.lt_or_ge m.last l.length with hlt | hge
      · -- the entry behind the request is cut off
        have hgone : (m.store l)[m.last]? = none := by
          rw [List.getElem?_eq_none_iff, length_store h]
        obtain ⟨j, -, hconflict⟩ := hdrops m.last _ (List.getElem?_eq_getElem hlt)
          (by simp [hgone])
        exact Or.inr ⟨j, hconflict⟩
      · exact Or.inl hge
  · intro hfits i e he hne
    rw [getElem?_store h] at hne
    split_ifs at hne with hi
    · exact absurd he hne
    · obtain ⟨k, rfl⟩ := Nat.exists_eq_add_of_le (Nat.le_of_not_lt hi)
      rw [Nat.add_sub_cancel_left] at hne
      cases hk : m.entries[k]? with
      | some b =>
        obtain ⟨j, hj, hconflict⟩ := hfits.differs k e b he hk fun heq => hne (heq ▸ hk)
        exact ⟨j, by omega, hconflict⟩
      | none =>
        have hlen := (List.getElem?_eq_some_iff.mp he).1
        rw [List.getElem?_eq_none_iff] at hk
        obtain hend | ⟨j, hconflict⟩ := hfits.reaches
        · unfold last at hend
          omega
        · have := hconflict.lt
          exact ⟨j, by omega, hconflict⟩

/-- A request in front of which the log ends fits it. -/
theorem fits_of_length_lt (h : l.length < m.prev) : m.Fits l := by
  refine ⟨fun i a b ha _ _ => ?_, Or.inl ?_⟩
  · have := (List.getElem?_eq_some_iff.mp ha).1
    omega
  · unfold last
    omega

/-- When a request drops nothing without a conflict. -/
theorem dropsOnConflict_iff :
    m.DropsOnConflict l (m.store l) ↔
      m.entries = [] ∨ termAt l m.prev ≠ m.prevTerm ∨ m.Fits l := by
  by_cases hs : m.Stores l
  · rw [dropsOnConflict_store_iff hs]
    simp [hs.1, hs.2.2]
  · rw [store, if_neg hs, iff_true_left (.refl m l)]
    rcases Nat.lt_or_ge l.length m.prev with hlt | hle
    · exact Or.inr (Or.inr (fits_of_length_lt hlt))
    · by_contra hno
      push Not at hno
      exact hs ⟨hno.1, hle, hno.2.1⟩

/-- A conflict in front of `n` does not depend on what is behind. -/
theorem conflictAt_take {n i : ℕ} (hi : m.prev + i < n) :
    m.ConflictAt (l.take n) i ↔ m.ConflictAt l i := by
  unfold ConflictAt
  rw [List.getElem?_take_of_lt hi]

/-- A piece of an earlier version of the log that reaches as far fits the log with the piece
exactly when it fits what is in front of the piece. -/
theorem PieceOf.fits_store_iff {m' : Msg ε} {L' : List ε} (h : m.PieceOf L) (h' : m'.PieceOf L')
    (hgrow : L' <+: L) (hstores : m.Stores l) (hlast : m.last ≤ m'.last) :
    m'.Fits (m.store l) ↔ m'.Fits (l.take m.prev) := by
  have hprev : m.prev ≤ m.last := Nat.le_add_right _ _
  have hlen : (l.take m.prev).length = m.prev := by rw [List.length_take, min_eq_left hstores.2.1]
  have hfront : ∀ j, m'.prev + j < m.prev →
      (m'.ConflictAt (m.store l) j ↔ m'.ConflictAt (l.take m.prev) j) := by
    intro j hj
    rw [← conflictAt_take hj, take_store hstores]
  constructor
  · intro hfits
    refine ⟨fun i a b ha hb hne => ?_, Or.inl (by omega)⟩
    have hi : m'.prev + i < m.prev := hlen ▸ (List.getElem?_eq_some_iff.mp ha).1
    have ha' : (m.store l)[m'.prev + i]? = some a := by
      rw [getElem?_store hstores, if_pos hi, ← List.getElem?_take_of_lt hi, ha]
    obtain ⟨j, hj, hconflict⟩ := hfits.differs i a b ha' hb hne
    exact ⟨j, hj, (hfront j (by omega)).mp hconflict⟩
  · intro hfits
    refine ⟨fun i a b ha hb hne => ?_, Or.inl (by rw [length_store hstores]; omega)⟩
    rw [getElem?_store hstores] at ha
    split_ifs at ha with hi
    · rw [← List.getElem?_take_of_lt hi] at ha
      obtain ⟨j, hj, hconflict⟩ := hfits.differs i a b ha hb hne
      exact ⟨j, hj, (hfront j (by omega)).mpr hconflict⟩
    · -- there both pieces have the entry of the leader's log
      have hL := h.getElem? ha
      have hL' := getElem?_of_isPrefix hgrow (h'.getElem? hb)
      rw [Nat.add_sub_cancel' (Nat.le_of_not_lt hi), hL'] at hL
      exact absurd (Option.some.inj hL).symm hne

/-- **A request that arrives late** leaves what a later one brought and drops nothing without
a conflict, exactly when it has no entries, or is refused for the term in front of them, or
reaches as far and fits what the later one left of the log. -/
theorem PieceOf.late_iff {m' : Msg ε} {L' : List ε} (h : m.PieceOf L) (h' : m'.PieceOf L')
    (hgrow : L' <+: L) (hprev : m.prev ≤ l.length) (hterm : termAt l m.prev = m.prevTerm) :
    m.Held (m'.store (m.store l)) ∧ m'.DropsOnConflict (m.store l) (m'.store (m.store l)) ↔
      m'.entries = [] ∨
      ((m.entries = [] ∨ m'.prev < m.prev) ∧ termAt l m'.prev ≠ m'.prevTerm) ∨
      ((m.entries = [] ∨ m.last ≤ m'.last) ∧
        m'.Fits (if m.entries = [] then l else l.take m.prev)) := by
  by_cases hne' : m'.entries = []
  · have hs : ¬ m'.Stores (m.store l) := fun hs => hs.1 hne'
    rw [store, if_neg hs]
    refine iff_of_true ⟨?_, .refl m' _⟩ (Or.inl hne')
    by_cases hne : m.entries = []
    · simp [Held, hne]
    · exact held_store ⟨hne, hprev, hterm⟩
  by_cases hne : m.entries = []
  · -- the later one brought nothing, and left the log as it was
    have hsame : m.store l = l := if_neg fun hs => hs.1 hne
    have hheld : ∀ l', m.Held l' := by simp [Held, hne]
    rw [hsame, dropsOnConflict_iff, and_iff_right (hheld _)]
    simp [hne]
  · have hstores : m.Stores l := ⟨hne, hprev, hterm⟩
    rw [h.held_store_store_iff h' hgrow hne' hstores, dropsOnConflict_iff, if_neg hne]
    simp only [hne', hne, false_or]
    rcases Nat.lt_or_ge m'.prev m.prev with hlt | hge
    · -- the term in front of its entries is that of the log before
      have htake : (m.store l).take m'.prev = l.take m'.prev := by
        have := congrArg (List.take m'.prev) (take_store hstores)
        rwa [List.take_take, List.take_take, min_eq_left hlt.le] at this
      rw [termAt_congr htake]
      by_cases hrefused : termAt l m'.prev ≠ m'.prevTerm
      · simp [hlt, hrefused]
      · simp only [hrefused, and_false, or_false, false_or]
        exact and_congr_right fun hlast => h.fits_store_iff h' hgrow hstores hlast
    · -- it is that of the leader's log, unless the log ends in front of it
      have hno : ¬ m'.prev < m.prev := by omega
      simp only [hno, false_and, or_false, false_or]
      refine and_congr_right fun hlast => ?_
      rw [← h.fits_store_iff h' hgrow hstores hlast]
      refine ⟨fun hor => hor.elim (fun hrefused => ?_) id, Or.inr⟩
      rcases Nat.lt_or_ge m.last m'.prev with hbehind | hin
      · exact fits_of_length_lt (by rwa [length_store hstores])
      · have htake : L.take m'.prev = L'.take m'.prev := by
          have hlen := h'.last_le hne'
          have hle : m'.prev ≤ m'.last := Nat.le_add_right _ _
          obtain ⟨r, rfl⟩ := hgrow
          rw [List.take_append_of_le_length (by omega)]
        rw [h.termAt_store hstores hge hin, termAt_congr htake, h'.1] at hrefused
        exact absurd rfl hrefused

end Msg

namespace World

/-- A request that is stored carries a piece of a genuine log, no entry of it newer
than the request. -/
def Tidy (w : World ι ε) : Event ι ε → Prop
  | .receive v m =>
    m.Stores (w.log v) →
      ∃ L, Genuine w.llog L ∧ m.PieceOf L ∧ ∀ e ∈ m.entries, stamp e ≤ m.term
  | _ => True

/-- Logs, past and present, are genuine and bounded by the terms of their holders. -/
structure Matching (w : World ι ε) : Prop where
  log : ∀ v, Genuine w.llog (w.log v)
  log_le : ∀ v, ∀ e ∈ w.log v, stamp e ≤ w.term v
  llog : ∀ t, Genuine w.llog (w.llog t)
  llog_le : ∀ t, ∀ e ∈ w.llog t, stamp e ≤ t
  standing : ∀ v t L, w.standing v t = some L → Genuine w.llog L ∧ ∀ e ∈ L, stamp e < t
  elog_lt : ∀ t, w.leader t ≠ none → ∀ e ∈ w.elog t, stamp e < t
  elog_prefix : ∀ t, w.leader t ≠ none → w.elog t <+: w.llog t

omit [DecidableEq ι] in
theorem Matching.init : (World.init : World ι ε).Matching :=
  ⟨fun _ => genuine_nil _, fun _ _ h => by simp [World.init] at h, fun _ => genuine_nil _,
    fun _ _ h => by simp [World.init] at h, fun _ _ _ h => by simp [World.init] at h,
    fun _ _ _ h => by simp [World.init] at h, fun _ _ => List.prefix_rfl⟩

omit [DecidableEq ι] in
/-- Log matching. -/
theorem Matching.take_eq {w : World ι ε} (h : w.Matching) {u v : ι} {k : ℕ} {e e' : ε}
    (hu : (w.log u)[k]? = some e) (hv : (w.log v)[k]? = some e') (hterm : stamp e = stamp e') :
    (w.log u).take (k + 1) = (w.log v).take (k + 1) :=
  (h.log u).take_eq (h.log v) hu hv hterm

omit [DecidableEq ι] in
/-- A log stays genuine when history grows. -/
theorem Matching.log_extends {w w' : World ι ε} (h : w.Matching) (hext : w.Extends w') (v : ι) :
    Genuine w'.llog (w.log v) :=
  (h.log v).mono hext.llog

omit [DecidableEq ι] in
theorem Matching.standing_extends {w w' : World ι ε} (h : w.Matching) (hext : w.Extends w')
    {v : ι} {t : ℕ} {L : List ε} (hL : w.standing v t = some L) :
    Genuine w'.llog L ∧ ∀ e ∈ L, stamp e < t :=
  ⟨(h.standing v t L hL).1.mono hext.llog, (h.standing v t L hL).2⟩

/-! ### One lemma for each event that changes logs -/

section Steps

variable [Fintype ι] {w : World ι ε}

theorem Matching.raise (hE : w.Elections) {v : ι} {t : ℕ} (hev : w.Enabled (.raise v t))
    (h : w.Matching) : (w.apply (.raise v t)).Matching :=
  { h with log_le := fun u e he =>
      (h.log_le u e he).trans ((hE.extends_apply hev).term u) }

/-- The log with which a node stands is of the terms before. -/
theorem Matching.stand (hE : w.Elections) (h : w.Matching) (v : ι) :
    (w.apply (.stand v)).Matching := by
  have hev : w.Enabled (.stand v) := trivial
  have hext := hE.extends_apply hev
  refine { h with log_le := fun u e he => (h.log_le u e he).trans (hext.term u), standing := ?_ }
  intro u t L hL
  by_cases heq : u = v ∧ t = w.term v + 1
  · obtain ⟨rfl, rfl⟩ := heq
    simp only [World.apply, set2_self, Option.some.injEq] at hL
    subst hL
    exact ⟨h.log u, fun e he => Nat.lt_succ_of_le (h.log_le u e he)⟩
  · simp only [World.apply, set2, if_neg heq] at hL
    exact h.standing u t L hL

/-- The winner's log becomes the recorded one of its term. -/
theorem Matching.win (hE : w.Elections) {v : ι} (hev : w.Enabled (.win v)) (h : w.Matching) :
    (w.apply (.win v)).Matching := by
  have hext := hE.extends_apply hev
  have hstood := h.standing v _ _ hev.1
  refine ⟨h.log_extends hext, h.log_le, ?_, ?_, fun _ _ _ hL => h.standing_extends hext hL,
    ?_, ?_⟩
  · intro t
    by_cases heq : t = w.term v
    · subst heq
      simpa only [World.apply, Function.update_self] using h.log_extends hext v
    · have := (h.llog t).mono hext.llog
      simpa only [World.apply, Function.update_of_ne heq] using this
  · intro t e he
    by_cases heq : t = w.term v
    · subst heq
      simp only [World.apply, Function.update_self] at he
      exact h.log_le v e he
    · simp only [World.apply, Function.update_of_ne heq] at he
      exact h.llog_le t e he
  · intro t ht e he
    by_cases heq : t = w.term v
    · subst heq
      simp only [World.apply, Function.update_self] at he
      exact hstood.2 e he
    · simp only [World.apply, Function.update_of_ne heq] at he ht
      exact h.elog_lt t ht e he
  · intro t ht
    by_cases heq : t = w.term v
    · subst heq
      simp only [World.apply, Function.update_self, List.prefix_rfl]
    · simp only [World.apply, Function.update_of_ne heq] at ht ⊢
      exact h.elog_prefix t ht

/-- What a leader appends to its log is appended to the recorded one. -/
theorem Matching.append (hE : w.Elections) {v : ι} {e : ε} (hev : w.Enabled (.append v e))
    (h : w.Matching) : (w.apply (.append v e)).Matching := by
  have hext := hE.extends_apply hev
  obtain ⟨-, hown, -⟩ := hE.leads v hev.1
  have hnew : Genuine (w.apply (.append v e)).llog (w.log v ++ [e]) := by
    refine (h.log v).append hev.2 hext.llog ?_
    simp only [World.apply, Function.update_self, hown]
  refine ⟨?_, ?_, ?_, ?_, fun _ _ _ hL => h.standing_extends hext hL, h.elog_lt,
    fun t ht => (h.elog_prefix t ht).trans (hext.llog t)⟩
  · intro u
    by_cases huv : u = v
    · subst huv
      simpa only [World.apply, Function.update_self] using hnew
    · have := h.log_extends hext u
      simpa only [World.apply, Function.update_of_ne huv] using this
  · intro u x hx
    by_cases huv : u = v
    · subst huv
      simp only [World.apply, Function.update_self, List.mem_append, List.mem_singleton] at hx
      rcases hx with hx | rfl
      · exact h.log_le u x hx
      · exact le_of_eq hev.2
    · simp only [World.apply, Function.update_of_ne huv] at hx
      exact h.log_le u x hx
  · intro t
    by_cases heq : t = w.term v
    · subst heq
      have : (w.apply (.append v e)).llog (w.term v) = w.log v ++ [e] := by
        simp only [World.apply, Function.update_self, hown]
      rw [this]
      exact hnew
    · have := (h.llog t).mono hext.llog
      simpa only [World.apply, Function.update_of_ne heq] using this
  · intro t x hx
    by_cases heq : t = w.term v
    · subst heq
      simp only [World.apply, Function.update_self, List.mem_append, List.mem_singleton] at hx
      rcases hx with hx | rfl
      · exact h.llog_le _ x hx
      · exact le_of_eq hev.2
    · simp only [World.apply, Function.update_of_ne heq] at hx
      exact h.llog_le t x hx

/-- The log of the receiver becomes a prefix of the log the piece is of, if the request is
stored. -/
theorem Matching.receive (hE : w.Elections) {v : ι} {m : Msg ε}
    (hev : w.Enabled (.receive v m)) (htidy : w.Tidy (.receive v m)) (h : w.Matching) :
    (w.apply (.receive v m)).Matching := by
  have hext := hE.extends_apply hev
  have hself : (w.apply (.receive v m)).log v = m.store (w.log v) := Function.update_self _ _ _
  have hne : ∀ u, u ≠ v → (w.apply (.receive v m)).log u = w.log u := fun _ huv =>
    Function.update_of_ne huv _ _
  refine { h with log := ?_, log_le := ?_ }
  · intro u
    by_cases huv : u = v
    · subst huv
      rw [hself]
      by_cases hstores : m.Stores (w.log u)
      · obtain ⟨L, hL, hpiece, -⟩ := htidy hstores
        rw [hpiece.store_eq hL (h.log u) hstores]
        exact hL.take _
      · rw [Msg.store, if_neg hstores]
        exact h.log u
    · rw [hne u huv]
      exact h.log u
  · intro u x hx
    by_cases huv : u = v
    · subst huv
      have htermu : (w.apply (.receive u m)).term u = m.term := Function.update_self _ _ _
      rw [hself] at hx
      rw [htermu]
      by_cases hstores : m.Stores (w.log u)
      · obtain ⟨L, -, -, hle⟩ := htidy hstores
        rw [Msg.store, if_pos hstores, List.mem_append] at hx
        rcases hx with hx | hx
        · exact (h.log_le u x (List.mem_of_mem_take hx)).trans hev
        · exact hle x hx
      · rw [Msg.store, if_neg hstores] at hx
        exact (h.log_le u x hx).trans hev
    · rw [hne u huv] at hx
      exact (h.log_le u x hx).trans (hext.term u)

/-- Events that only store pieces of genuine logs keep logs genuine. -/
theorem Matching.apply {ev : Event ι ε} (hE : w.Elections) (hev : w.Enabled ev)
    (htidy : w.Tidy ev) (h : w.Matching) : (w.apply ev).Matching := by
  cases ev with
  | raise v t => exact h.raise hE hev
  | stand v => exact h.stand hE v
  | grant v c => exact { h with }
  | win v => exact h.win hE hev
  | append v e => exact h.append hE hev
  | receive v m => exact h.receive hE hev htidy

end Steps

end World

end Consensus
