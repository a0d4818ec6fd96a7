import KvEngine.Consensus.Matching

/-!
# Leader completeness

What enough nodes have stored of a leader's log, up to an entry of its own term, is
in the log of every later leader, as long as every request that is stored carries a
piece of the log of the leader of its term and drops nothing that agrees with it
(`World.Orderly`).

The invariant `World.Complete` follows a stored prefix through the nodes that hold
it. A node keeps it over leaders that have it; a vote passes it on to the candidate,
by the test that compares the last entries; a majority of votes passes it on to the
leader, whose votes meet any half of the nodes.

Results:
* `World.Complete.apply`: an orderly event keeps the invariant.
* `World.Complete.prefix_elog`: leader completeness.
* `World.Chosen.total`: of two chosen prefixes one is a prefix of the other.
-/

namespace Consensus

variable {ι ε : Type*} [DecidableEq ι] [Stamped ε]

namespace Msg

/-- Storing the request drops nothing that agrees with it: the log does not reach
past it, or differs from it in the term of some entry it carries. -/
def Keeps (m : Msg ε) (l : List ε) : Prop :=
  l.length ≤ m.last ∨
    ∃ i x y, l[m.prev + i]? = some x ∧ m.entries[i]? = some y ∧ stamp x ≠ stamp y

instance (m : Msg ε) (l : List ε) : Decidable (m.Keeps l) :=
  decidable_of_iff (l.length ≤ m.last ∨ ∃ i < m.entries.length, ∃ x ∈ l[m.prev + i]?,
    ∃ y ∈ m.entries[i]?, stamp x ≠ stamp y) <| or_congr_right <| by
  constructor
  · rintro ⟨i, -, x, hx, y, hy, hne⟩
    exact ⟨i, x, y, hx, hy, hne⟩
  · rintro ⟨i, x, y, hx, hy, hne⟩
    exact ⟨i, (List.getElem?_eq_some_iff.mp hy).1, x, hx, y, hy, hne⟩

/-- What the log shares with the leader's log survives. -/
theorem Keeps.length_le {m : Msg ε} {l L p : List ε} (h : m.Keeps l) (hpiece : m.PieceOf L)
    (hl : p <+: l) (hL : p <+: L) : p.length ≤ m.last := by
  rcases h with hlen | ⟨i, x, y, hx, hy, hne⟩
  · exact hl.length_le.trans hlen
  · by_contra hlt
    have hi : i < m.entries.length := (List.getElem?_eq_some_iff.mp hy).1
    have hin : m.prev + i < p.length := by unfold last at hlt; omega
    have hpi : p[m.prev + i]? = some p[m.prev + i] := List.getElem?_eq_getElem hin
    have hpx := getElem?_of_isPrefix hl hpi
    have hpy := getElem?_of_isPrefix hL hpi
    rw [hx] at hpx
    rw [hpiece.getElem? hy] at hpy
    exact hne (by rw [Option.some.inj hpx, Option.some.inj hpy])

/-- What the log shares with the leader's log is still there after storing a piece
of the latter. -/
theorem Keeps.prefix_store {llog : ℕ → List ε} {m : Msg ε} {l L p : List ε} (h : m.Keeps l)
    (hpiece : m.PieceOf L) (hgenuine : Genuine llog L) (hgenuine' : Genuine llog l)
    (hstores : m.Stores l) (hl : p <+: l) (hL : p <+: L) : p <+: m.store l := by
  rw [hpiece.store_eq hgenuine hgenuine' hstores]
  refine List.prefix_of_prefix_length_le hL (List.take_prefix _ _) ?_
  have hlast := hpiece.last_le hstores.1
  have hlen := h.length_le hpiece hl hL
  rw [List.length_take]
  omega

end Msg

namespace World

/-- A request that is stored carries a piece of the log of the leader of its term,
and drops nothing that agrees with it. -/
def Orderly (w : World ι ε) : Event ι ε → Prop
  | .receive v m => m.Stores (w.log v) → m.PieceOf (w.llog m.term) ∧ m.Keeps (w.log v)
  | _ => True

omit [DecidableEq ι] in
theorem Orderly.tidy {w : World ι ε} (hM : w.Matching) {ev : Event ι ε} (h : w.Orderly ev) :
    w.Tidy ev := by
  cases ev with
  | receive v m =>
    intro hstores
    obtain ⟨hpiece, -⟩ := h hstores
    refine ⟨_, hM.llog m.term, hpiece, fun e he => hM.llog_le m.term e ?_⟩
    exact List.mem_of_mem_drop (hpiece.2.subset he)
  | raise v t => trivial
  | stand v => trivial
  | grant v c => trivial
  | win v => trivial
  | append v e => trivial

/-- The first `n` entries of the log of the leader of `t`. -/
def pre (w : World ι ε) (t n : ℕ) : List ε := (w.llog t).take n

/-- The last of these entries is of the leader's own term. -/
def Anchored (w : World ι ε) (t n : ℕ) : Prop := ∃ e, (w.pre t n)[n - 1]? = some e ∧ stamp e = t

/-- Every leader after `t` and before `t'` was elected with these entries. -/
def Carried (w : World ι ε) (t n t' : ℕ) : Prop :=
  ∀ s, t < s → s < t' → w.leader s ≠ none → w.pre t n <+: w.elog s

/-- Stored prefixes are kept, passed on with votes, and end up with later leaders. -/
structure Complete [Fintype ι] (w : World ι ε) : Prop where
  stored_le : ∀ v t, w.stored v t ≤ (w.llog t).length
  stored_future : ∀ v t, w.term v < t → w.stored v t = 0
  kept : ∀ v t n, n ≤ w.stored v t → w.Carried t n (w.term v + 1) → w.pre t n <+: w.log v
  voted : ∀ v t n t' c L, n ≤ w.stored v t → w.Anchored t n → t < t' → w.granted v t' = some c →
    w.standing c t' = some L → w.leader t' = none → w.Carried t n t' → w.pre t n <+: L
  elected : ∀ t', w.leader t' ≠ none → ∃ Q : Finset ι, Majority Q ∧ ∀ v ∈ Q, t' ≤ w.term v ∧
    ∀ t n, n ≤ w.stored v t → w.Anchored t n → t < t' → w.Carried t n t' → w.pre t n <+: w.elog t'

omit [DecidableEq ι] in
theorem Complete.init [Fintype ι] : (World.init : World ι ε).Complete :=
  ⟨fun _ _ => le_rfl, fun _ _ _ => rfl, fun _ _ _ _ _ => by simp [pre, World.init],
    fun _ _ _ _ _ _ _ _ _ h => by simp [World.init] at h, fun _ h => by simp [World.init] at h⟩

section

variable {w : World ι ε}

omit [DecidableEq ι] in
theorem Anchored.length {t n : ℕ} (h : w.Anchored t n) :
    0 < n ∧ n ≤ (w.llog t).length ∧ (w.pre t n).length = n := by
  obtain ⟨e, he, -⟩ := h
  have hlt : n - 1 < (w.pre t n).length := (List.getElem?_eq_some_iff.mp he).1
  rw [pre, List.length_take] at hlt ⊢
  omega

omit [DecidableEq ι] in
/-- A voter's test passes a prefix on: a candidate's log that is at least as new as
one with the prefix has it too, if the leaders in between do. -/
theorem Matching.prefix_of_upToDate (hM : w.Matching)
    (hunled : ∀ s, w.leader s = none → w.llog s = []) {t n t' : ℕ} {l L : List ε}
    (hl : Genuine w.llog l) (hL : Genuine w.llog L) (hlt : ∀ e ∈ L, stamp e < t')
    (hanchored : w.Anchored t n) (hcarried : w.Carried t n t') (hup : UpToDate L l)
    (hpre : w.pre t n <+: l) : w.pre t n <+: L := by
  obtain ⟨hn, hnlen, hprelen⟩ := hanchored.length
  obtain ⟨a, ha, hat⟩ := hanchored
  have hlen : n ≤ l.length := hprelen ▸ hpre.length_le
  -- the last entry of `l` is at least as new as the last of the prefix
  have hlastl : l[l.length - 1]? = some l[l.length - 1] := List.getElem?_eq_getElem (by omega)
  have hterml : lastTerm l = stamp l[l.length - 1] := by
    rw [lastTerm, ← termAt_succ hlastl]
    congr 1
    omega
  have hge : t ≤ lastTerm l := by
    have := hl.stamp_le hM.llog_le (getElem?_of_isPrefix hpre ha) hlastl (by omega)
    omega
  have hLne : L ≠ [] := by
    rintro rfl
    rcases hup with hlt | ⟨-, hle⟩
    · simp [lastTerm] at hlt
    · simp only [List.length_nil] at hle
      omega
  have hLpos := List.length_pos_of_ne_nil hLne
  have hlastL : L[L.length - 1]? = some L[L.length - 1] := List.getElem?_eq_getElem (by omega)
  have htermL : lastTerm L = stamp L[L.length - 1] := by
    rw [lastTerm, ← termAt_succ hlastL]
    congr 1
    omega
  have hLprefix := hL.prefix_llog hlastL
  set s := stamp L[L.length - 1] with hs
  have hts : t ≤ s := by
    rcases hup with hlt | ⟨heq, -⟩ <;> omega
  rcases Nat.eq_or_lt_of_le hts with heq | hts
  · -- both end in an entry of term `t`, and `L` is at least as long
    rw [← heq] at hLprefix
    refine List.prefix_of_prefix_length_le (List.take_prefix n _) hLprefix ?_
    rcases hup with hlt | ⟨-, hle⟩ <;> omega
  · -- `L` ends in an entry of a later leader, behind what that leader was elected with
    have hst' : s < t' := hlt _ (List.mem_of_getElem? hlastL)
    have hled : w.leader s ≠ none := by
      intro hnone
      rw [hunled s hnone] at hLprefix
      exact hLne (List.prefix_nil.mp hLprefix)
    have hprefix := (hcarried s hts hst' hled).trans (hM.elog_prefix s hled)
    refine List.prefix_of_prefix_length_le hprefix hLprefix ?_
    by_contra hshort
    have hle := (hcarried s hts hst' hled).length_le
    have hmem : L[L.length - 1] ∈ w.elog s := by
      have hin := getElem?_of_isPrefix hLprefix hlastL
      obtain ⟨r, hr⟩ := hM.elog_prefix s hled
      rw [← hr, List.getElem?_append_left (by omega)] at hin
      exact List.mem_of_getElem? hin
    have := hM.elog_lt s hled _ hmem
    omega

/-! ## Growth -/

section Growth

variable {w' : World ι ε} {t n : ℕ}

omit [DecidableEq ι] [Stamped ε] in
theorem Extends.pre_eq (h : w.Extends w') (hn : n ≤ (w.llog t).length) :
    w'.pre t n = w.pre t n := by
  obtain ⟨r, hr⟩ := h.llog t
  rw [pre, pre, ← hr, List.take_append_of_le_length hn]

omit [DecidableEq ι] in
theorem Extends.anchored (h : w.Extends w') (hn : n ≤ (w.llog t).length) :
    w'.Anchored t n ↔ w.Anchored t n := by
  rw [Anchored, Anchored, h.pre_eq hn]

omit [DecidableEq ι] [Stamped ε] in
theorem Extends.carried (h : w.Extends w') (hn : n ≤ (w.llog t).length) {t' : ℕ}
    (hc : w'.Carried t n t') : w.Carried t n t' := by
  intro s hts hst' hs
  rw [← h.pre_eq hn, ← h.elog s hs]
  exact hc s hts hst' (h.leader_ne_none hs)

omit [DecidableEq ι] [Stamped ε] in
theorem Carried.mono {t' t'' : ℕ} (h : w.Carried t n t'') (hle : t' ≤ t'') : w.Carried t n t' :=
  fun s hts hst' hs => h s hts (lt_of_lt_of_le hst' hle) hs

/-- Nothing more is stored of the log of a term that the node has left behind. -/
theorem stored_apply_of_lt (w : World ι ε) (ev : Event ι ε) {v : ι}
    (ht : t < (w.apply ev).term v) : (w.apply ev).stored v t = w.stored v t := by
  cases ev with
  | raise u s => rfl
  | stand u => rfl
  | grant u c => rfl
  | win u =>
    have hne : ¬ (v = u ∧ t = w.term u) := by
      rintro ⟨rfl, rfl⟩
      exact lt_irrefl _ ht
    simp only [World.apply, set2, if_neg hne]
  | append u e =>
    have hne : ¬ (v = u ∧ t = w.term u) := by
      rintro ⟨rfl, rfl⟩
      exact lt_irrefl _ ht
    simp only [World.apply, set2, if_neg hne]
  | receive u m =>
    have hne : ¬ (v = u ∧ t = m.term) := by
      rintro ⟨rfl, rfl⟩
      simp [World.apply] at ht
    simp only [World.apply]
    split_ifs with hstores
    · simp only [set2, if_neg hne]
    · rfl

end Growth

variable [Fintype ι]

/-- What votes that were there before pass on, they still do. -/
theorem Complete.voted_apply (h : w.Complete) (hE : w.Elections) {ev : Event ι ε}
    (hev : w.Enabled ev) {v : ι} {t n t' : ℕ} {c : ι} {L : List ε}
    (hn : n ≤ (w.apply ev).stored v t) (hanchored : (w.apply ev).Anchored t n) (ht : t < t')
    (hgranted : w.granted v t' = some c) (hstanding : w.standing c t' = some L)
    (hleader : (w.apply ev).leader t' = none) (hcarried : (w.apply ev).Carried t n t') :
    (w.apply ev).pre t n <+: L := by
  have hext := hE.extends_apply hev
  have ht' : t' ≤ w.term v := by
    by_contra hlt
    rw [hE.granted_future v t' (by omega)] at hgranted
    simp at hgranted
  rw [stored_apply_of_lt w ev (by have := hext.term v; omega)] at hn
  have hlen := hn.trans (h.stored_le v t)
  rw [hext.pre_eq hlen]
  refine h.voted v t n t' c L hn ((hext.anchored hlen).mp hanchored) ht hgranted hstanding ?_
    (hext.carried hlen hcarried)
  by_contra hne
  exact hext.leader_ne_none hne hleader

/-- What leaders that were there before were elected with, they still were. -/
theorem Complete.elected_apply (h : w.Complete) (hE : w.Elections) {ev : Event ι ε}
    (hev : w.Enabled ev) {t' : ℕ} (ht' : w.leader t' ≠ none) :
    ∃ Q : Finset ι, Majority Q ∧ ∀ v ∈ Q, t' ≤ (w.apply ev).term v ∧
      ∀ t n, n ≤ (w.apply ev).stored v t → (w.apply ev).Anchored t n → t < t' →
        (w.apply ev).Carried t n t' → (w.apply ev).pre t n <+: (w.apply ev).elog t' := by
  have hext := hE.extends_apply hev
  obtain ⟨Q, hQ, hall⟩ := h.elected t' ht'
  refine ⟨Q, hQ, fun v hv => ?_⟩
  obtain ⟨hterm, hpre⟩ := hall v hv
  refine ⟨hterm.trans (hext.term v), fun t n hn hanchored ht hcarried => ?_⟩
  rw [stored_apply_of_lt w ev (by have := hext.term v; omega)] at hn
  have hlen := hn.trans (h.stored_le v t)
  rw [hext.pre_eq hlen, hext.elog t' ht']
  exact hpre t n hn ((hext.anchored hlen).mp hanchored) ht (hext.carried hlen hcarried)

/-- What a node had stored before, it still had. -/
theorem Complete.kept_apply (h : w.Complete) (hE : w.Elections) {ev : Event ι ε}
    (hev : w.Enabled ev) {v : ι} {t n : ℕ} (hn : n ≤ w.stored v t)
    (hcarried : (w.apply ev).Carried t n ((w.apply ev).term v + 1)) :
    (w.apply ev).pre t n <+: w.log v := by
  have hext := hE.extends_apply hev
  have hlen := hn.trans (h.stored_le v t)
  rw [hext.pre_eq hlen]
  refine h.kept v t n hn ((hext.carried hlen hcarried).mono ?_)
  have := hext.term v
  omega

/-- The new leader's log has every prefix that its votes pass on. -/
theorem Complete.apply_win (h : w.Complete) (hE : w.Elections) {v : ι}
    (hev : w.Enabled (.win v)) : (w.apply (.win v)).Complete := by
  have hext := hE.extends_apply hev
  have hnone := hE.leader_eq_none_of_win hev
  have hzero : ∀ u, w.stored u (w.term v) = 0 := by
    intro u
    have := h.stored_le u (w.term v)
    rw [hE.unled _ hnone] at this
    exact Nat.le_zero.mp this
  have hllog : (w.apply (.win v)).llog (w.term v) = w.log v := Function.update_self _ _ _
  have hstored : (w.apply (.win v)).stored v (w.term v) = (w.log v).length := by
    simp only [World.apply, set2_self, hzero, Nat.zero_max]
  have hstored' : ∀ u t, ¬ (u = v ∧ t = w.term v) →
      (w.apply (.win v)).stored u t = w.stored u t := by
    intro u t hne
    simp only [World.apply, set2, if_neg hne]
  refine ⟨?_, ?_, ?_, ?_, ?_⟩
  · intro u t
    by_cases heq : u = v ∧ t = w.term v
    · obtain ⟨rfl, rfl⟩ := heq
      rw [hstored, hllog]
    · rw [hstored' u t heq]
      exact (h.stored_le u t).trans (hext.llog t).length_le
  · intro u t ht
    have hne : ¬ (u = v ∧ t = w.term v) := by
      rintro ⟨rfl, rfl⟩
      exact lt_irrefl _ ht
    rw [hstored' u t hne]
    exact h.stored_future u t ht
  · intro u t n hn hcarried
    by_cases heq : u = v ∧ t = w.term v
    · obtain ⟨rfl, rfl⟩ := heq
      rw [pre, hllog]
      exact List.take_prefix n _
    · rw [hstored' u t heq] at hn
      exact h.kept_apply hE hev hn hcarried
  · exact fun u t n t' c L hn ha ht hg hs hl hc => h.voted_apply hE hev hn ha ht hg hs hl hc
  · intro t' ht'
    by_cases heq : t' = w.term v
    · subst heq
      obtain ⟨hstood, -, Q, hQ, hvotes⟩ := hev
      refine ⟨Q, hQ, fun u hu => ?_⟩
      have hterm : w.term v ≤ w.term u := by
        by_contra hlt
        have := hE.granted_future u (w.term v) (by omega)
        rw [hvotes u hu] at this
        simp at this
      refine ⟨hterm, fun t n hn hanchored ht hcarried => ?_⟩
      rw [hstored' u t (by rintro ⟨-, rfl⟩; exact lt_irrefl _ ht)] at hn
      have hlen := hn.trans (h.stored_le u t)
      rw [hext.pre_eq hlen, show (w.apply (.win v)).elog (w.term v) = w.log v from
        Function.update_self _ _ _]
      exact h.voted u t n _ v _ hn ((hext.anchored hlen).mp hanchored) ht (hvotes u hu) hstood hnone
        (hext.carried hlen hcarried)
    · refine h.elected_apply hE hev ?_
      have hleader : (w.apply (.win v)).leader t' = w.leader t' := Function.update_of_ne heq _ _
      rwa [hleader] at ht'

/-- A leader stores what it appends. -/
theorem Complete.apply_append (h : w.Complete) (hE : w.Elections) {v : ι} {e : ε}
    (hev : w.Enabled (.append v e)) : (w.apply (.append v e)).Complete := by
  have hext := hE.extends_apply hev
  obtain ⟨-, hown, -⟩ := hE.leads v hev.1
  have hlog : (w.apply (.append v e)).log v = w.log v ++ [e] := Function.update_self _ _ _
  have hllog : (w.apply (.append v e)).llog (w.term v) = w.log v ++ [e] := by
    simp only [World.apply, Function.update_self, hown]
  have hstored : ∀ u t, ¬ (u = v ∧ t = w.term v) →
      (w.apply (.append v e)).stored u t = w.stored u t := by
    intro u t hne
    simp only [World.apply, set2, if_neg hne]
  refine ⟨?_, ?_, ?_, ?_, fun t' ht' => h.elected_apply hE hev ht'⟩
  · intro u t
    by_cases heq : u = v ∧ t = w.term v
    · obtain ⟨rfl, rfl⟩ := heq
      have := h.stored_le u (w.term u)
      rw [← hown] at this
      rw [hllog]
      simp only [World.apply, set2_self, List.length_append, List.length_singleton]
      omega
    · rw [hstored u t heq]
      exact (h.stored_le u t).trans (hext.llog t).length_le
  · intro u t ht
    have hne : ¬ (u = v ∧ t = w.term v) := by
      rintro ⟨rfl, rfl⟩
      exact lt_irrefl _ ht
    rw [hstored u t hne]
    exact h.stored_future u t ht
  · intro u t n hn hcarried
    by_cases heq : u = v ∧ t = w.term v
    · obtain ⟨rfl, rfl⟩ := heq
      rw [pre, hllog, hlog]
      exact List.take_prefix n _
    · rw [hstored u t heq] at hn
      have hkept := h.kept_apply hE hev hn hcarried
      by_cases huv : u = v
      · subst huv
        rw [hlog]
        exact hkept.trans (List.prefix_append _ _)
      · rwa [show (w.apply (.append v e)).log u = w.log u from Function.update_of_ne huv _ _]
  · exact fun u t n t' c L hn ha ht hg hs hl hc => h.voted_apply hE hev hn ha ht hg hs hl hc

/-- A node keeps what it had stored, and stores the leader's log up to the end of
the request. -/
theorem Complete.apply_receive (h : w.Complete) (hE : w.Elections) (hM : w.Matching) {v : ι}
    {m : Msg ε} (hev : w.Enabled (.receive v m)) (horderly : w.Orderly (.receive v m)) :
    (w.apply (.receive v m)).Complete := by
  have hlog : (w.apply (.receive v m)).log v = m.store (w.log v) := Function.update_self _ _ _
  have hterm : (w.apply (.receive v m)).term v = m.term := Function.update_self _ _ _
  have hext := hE.extends_apply hev
  -- either the node had stored as much before, or the request made it so
  have hstored : ∀ u t n, n ≤ (w.apply (.receive v m)).stored u t → n ≤ w.stored u t ∨
      (u = v ∧ t = m.term ∧ m.Stores (w.log v) ∧ n ≤ m.last) := by
    intro u t n hn
    simp only [World.apply] at hn
    split_ifs at hn with hstores
    · by_cases heq : u = v ∧ t = m.term
      · obtain ⟨rfl, rfl⟩ := heq
        rw [set2_self, le_max_iff] at hn
        exact hn.imp_right fun hlast => ⟨rfl, rfl, hstores, hlast⟩
      · simp only [set2, if_neg heq] at hn
        exact Or.inl hn
    · exact Or.inl hn
  refine ⟨?_, ?_, ?_, ?_, fun t' ht' => h.elected_apply hE hev ht'⟩
  · intro u t
    rcases hstored u t _ le_rfl with hle | ⟨rfl, rfl, hstores, hle⟩
    · exact hle.trans (h.stored_le u t)
    · exact hle.trans ((horderly hstores).1.last_le hstores.1)
  · intro u t ht
    rcases hstored u t _ le_rfl with hle | ⟨rfl, rfl, -, -⟩
    · rw [h.stored_future u t (lt_of_le_of_lt (hext.term u) ht)] at hle
      exact Nat.le_zero.mp hle
    · rw [hterm] at ht
      exact absurd ht (lt_irrefl _)
  · intro u t n hn hcarried
    rcases hstored u t n hn with hold | ⟨rfl, rfl, hstores, hlast⟩
    · have hkept := h.kept_apply hE hev hold hcarried
      by_cases huv : u = v
      · subst huv
        rw [hlog]
        by_cases hstores : m.Stores (w.log u)
        · obtain ⟨hpiece, hkeeps⟩ := horderly hstores
          refine hkeeps.prefix_store hpiece (hM.llog _) (hM.log u) hstores hkept ?_
          rcases lt_trichotomy t m.term with hlt | rfl | hgt
          · -- the leader of the request's term was elected with the prefix
            have hled : w.leader m.term ≠ none := by
              intro hnone
              have := hpiece.last_le hstores.1
              have hpos := List.length_pos_of_ne_nil hstores.1
              rw [hE.unled _ hnone, List.length_nil, Msg.last] at this
              omega
            exact (hcarried m.term hlt (by rw [hterm]; omega) hled).trans (hM.elog_prefix _ hled)
          · exact List.take_prefix n _
          · rw [h.stored_future u t (lt_of_le_of_lt hev hgt)] at hold
            rw [Nat.le_zero.mp hold]
            exact List.nil_prefix
        · rwa [Msg.store, if_neg hstores]
      · rwa [show (w.apply (.receive v m)).log u = w.log u from Function.update_of_ne huv _ _]
    · obtain ⟨hpiece, -⟩ := horderly hstores
      rw [hlog, hpiece.store_eq (hM.llog _) (hM.log u) hstores]
      exact List.take_prefix_take_left hlast
  · exact fun u t n t' c L hn ha ht hg hs hl hc => h.voted_apply hE hev hn ha ht hg hs hl hc

/-- Orderly events keep the invariant. -/
theorem Complete.apply (h : w.Complete) (hE : w.Elections) (hM : w.Matching) {ev : Event ι ε}
    (hev : w.Enabled ev) (horderly : w.Orderly ev) : (w.apply ev).Complete := by
  have hext := hE.extends_apply hev
  have hstored : ∀ v t, w.stored v t ≤ ((w.apply ev).llog t).length := fun v t =>
    (h.stored_le v t).trans (hext.llog t).length_le
  have hfuture : ∀ v t, (w.apply ev).term v < t → w.stored v t = 0 := fun v t ht =>
    h.stored_future v t (lt_of_le_of_lt (hext.term v) ht)
  have hvoted : ∀ v t n t' c L, n ≤ (w.apply ev).stored v t → (w.apply ev).Anchored t n → t < t' →
      w.granted v t' = some c → w.standing c t' = some L → (w.apply ev).leader t' = none →
      (w.apply ev).Carried t n t' → (w.apply ev).pre t n <+: L :=
    fun v t n t' c L hn ha ht hg hs hl hc => h.voted_apply hE hev hn ha ht hg hs hl hc
  cases ev with
  | raise v t =>
    exact ⟨hstored, hfuture, fun u s n hn hc => h.kept_apply hE hev hn hc, hvoted,
      fun t' ht' => h.elected_apply hE hev ht'⟩
  | stand v =>
    refine ⟨hstored, hfuture, fun u s n hn hc => h.kept_apply hE hev hn hc, ?_,
      fun t' ht' => h.elected_apply hE hev ht'⟩
    intro u s n t' c L hn hanchored hst' hgranted hstanding hleader hcarried
    by_cases heq : u = v ∧ t' = w.term v + 1
    · -- the node's vote for itself: it stands with its own log
      obtain ⟨rfl, rfl⟩ := heq
      simp only [World.apply, set2_self, Option.some.injEq] at hgranted
      subst hgranted
      simp only [World.apply, set2_self, Option.some.injEq] at hstanding
      subst hstanding
      refine h.kept_apply hE hev hn ?_
      intro r hsr hr hled
      have hterm : (w.apply (.stand u)).term u = w.term u + 1 := Function.update_self _ _ _
      by_cases hlast : r < w.term u + 1
      · exact hcarried r hsr hlast hled
      · obtain rfl : r = w.term u + 1 := by omega
        exact absurd hleader hled
    · simp only [World.apply, set2, if_neg heq] at hgranted
      obtain ⟨L', hL'⟩ := hE.stood u t' c hgranted
      have hLL : L' = L := by
        have := hext.standing c t' L' hL'
        rw [hstanding] at this
        exact (Option.some.inj this).symm
      subst hLL
      exact hvoted u s n t' c L' hn hanchored hst' hgranted hL' hleader hcarried
  | grant v c =>
    refine ⟨hstored, hfuture, fun u s n hn hc => h.kept_apply hE hev hn hc, ?_,
      fun t' ht' => h.elected_apply hE hev ht'⟩
    intro u s n t' c' L hn hanchored hst' hgranted hstanding hleader hcarried
    by_cases heq : u = v ∧ t' = w.term v
    · -- the new vote: the candidate's log is at least as new as the voter's
      obtain ⟨rfl, rfl⟩ := heq
      simp only [World.apply, set2_self, Option.some.injEq] at hgranted
      subst hgranted
      obtain ⟨-, L', hL', hup⟩ := hev
      have hLL : L' = L := by
        rw [show w.standing c (w.term u) = some L from hstanding] at hL'
        exact (Option.some.inj hL').symm
      subst hLL
      obtain ⟨hgenuine, hlt⟩ := hM.standing c _ _ hL'
      have hkept : w.pre s n <+: w.log u := by
        refine h.kept u s n hn ?_
        intro r hsr hr hled
        rcases Nat.lt_succ_iff_lt_or_eq.mp hr with hr | rfl
        · exact hcarried r hsr hr hled
        · exact absurd hleader hled
      exact hM.prefix_of_upToDate hE.unled (hM.log u) hgenuine hlt hanchored hcarried hup hkept
    · simp only [World.apply, set2, if_neg heq] at hgranted
      exact hvoted u s n t' c' L hn hanchored hst' hgranted hstanding hleader hcarried
  | win v => exact h.apply_win hE hev
  | append v e => exact h.apply_append hE hev
  | receive v m => exact h.apply_receive hE hM hev horderly

/-! ## Orderly runs -/

/-- All invariants of orderly runs; nobody stands for term 0. -/
structure Sound (w : World ι ε) : Prop where
  elections : w.Elections
  matching : w.Matching
  complete : w.Complete
  first : ∀ v, w.standing v 0 = none

omit [DecidableEq ι] in
theorem Sound.init : (World.init : World ι ε).Sound :=
  ⟨Elections.init, Matching.init, Complete.init, fun _ => rfl⟩

theorem Sound.apply (h : w.Sound) {ev : Event ι ε} (hev : w.Enabled ev) (horderly : w.Orderly ev) :
    (w.apply ev).Sound :=
  ⟨h.elections.apply hev, h.matching.apply h.elections hev (horderly.tidy h.matching),
    h.complete.apply h.elections h.matching hev horderly, standing_zero_apply h.first ev⟩

/-- Orderly runs keep all invariants. -/
theorem Run.sound {u : ι} {w' : World ι ε} (hrun : Run Orderly u w w') (h : w.Sound) : w'.Sound :=
  hrun.preserves (fun _ _ _ hev horderly hS => hS.apply hev horderly) h.elections h

/-! ## Leader completeness -/

/-- **Leader completeness.** A prefix of the log of the leader of `t` that ends in an
entry of that term and is stored by half of the nodes is in the log with which any
later leader is elected. -/
theorem Complete.prefix_elog (h : w.Complete) {Q : Finset ι} (hQ : Half Q) {t n : ℕ}
    (hstored : ∀ v ∈ Q, n ≤ w.stored v t) (hanchored : w.Anchored t n) {t' : ℕ} (ht : t < t')
    (hled : w.leader t' ≠ none) : w.pre t n <+: w.elog t' := by
  -- strong induction on the later term: leaders in between have the prefix
  induction t' using Nat.strong_induction_on with
  | _ t' ih =>
    obtain ⟨R, hR, hall⟩ := h.elected t' hled
    obtain ⟨v, hvR, hvQ⟩ := hR.exists_mem hQ
    exact (hall v hvR).2 t n (hstored v hvQ) hanchored ht fun s hts hst' hs => ih s hst' hts hs

/-- The list is chosen: a prefix of what half of the nodes stored of the log of a
leader of term at most `T`, up to an entry of that term. -/
def Chosen (w : World ι ε) (T : ℕ) (p : List ε) : Prop :=
  ∃ t ≤ T, ∃ n, ∃ Q : Finset ι, Half Q ∧ (∀ v ∈ Q, n ≤ w.stored v t) ∧ w.Anchored t n ∧
    p <+: w.pre t n

omit [DecidableEq ι] in
theorem Chosen.mono {T T' : ℕ} {p : List ε} (h : w.Chosen T p) (hT : T ≤ T') : w.Chosen T' p := by
  obtain ⟨t, ht, hrest⟩ := h
  exact ⟨t, ht.trans hT, hrest⟩

omit [DecidableEq ι] in
theorem Chosen.of_isPrefix {T : ℕ} {p q : List ε} (h : w.Chosen T p) (hq : q <+: p) :
    w.Chosen T q := by
  obtain ⟨t, ht, n, Q, hQ, hstored, hanchored, hp⟩ := h
  exact ⟨t, ht, n, Q, hQ, hstored, hanchored, hq.trans hp⟩

omit [DecidableEq ι] in
/-- What is chosen stays chosen. -/
theorem Chosen.extends {w' : World ι ε} (hext : w.Extends w') {T : ℕ} {p : List ε}
    (h : w.Chosen T p) : w'.Chosen T p := by
  obtain ⟨t, ht, n, Q, hQ, hstored, hanchored, hp⟩ := h
  have hlen := hanchored.length.2.1
  refine ⟨t, ht, n, Q, hQ, fun v hv => (hstored v hv).trans (hext.stored v t),
    (hext.anchored hlen).mpr hanchored, ?_⟩
  rwa [hext.pre_eq hlen]

/-- What is chosen by term `T` is in the log of every leader from `T` on. -/
theorem Chosen.prefix_llog (h : w.Complete) (hM : w.Matching) {T : ℕ} {p : List ε}
    (hp : w.Chosen T p) {t' : ℕ} (hT : T ≤ t') (hled : w.leader t' ≠ none) : p <+: w.llog t' := by
  obtain ⟨t, ht, n, Q, hQ, hstored, hanchored, hpre⟩ := hp
  rcases Nat.eq_or_lt_of_le (ht.trans hT) with rfl | hlt
  · exact hpre.trans (List.take_prefix n _)
  · exact (hpre.trans (h.prefix_elog hQ hstored hanchored hlt hled)).trans (hM.elog_prefix t' hled)

/-- **Agreement.** Of two chosen lists one is a prefix of the other. -/
theorem Chosen.total (h : w.Complete) (hE : w.Elections) (hM : w.Matching) {T T' : ℕ}
    {p q : List ε} (hp : w.Chosen T p) (hq : w.Chosen T' q) : p <+: q ∨ q <+: p := by
  obtain ⟨t, -, n, Q, hQ, hstored, hanchored, hpre⟩ := hp
  obtain ⟨t', -, n', Q', hQ', hstored', hanchored', hpre'⟩ := hq
  have hled : ∀ s k, w.Anchored s k → w.leader s ≠ none := by
    intro s k hk hnone
    have := hk.length
    rw [hE.unled s hnone, List.length_nil] at this
    omega
  have hself : ∀ s k R, Half R → (∀ v ∈ R, k ≤ w.stored v s) → w.Anchored s k →
      w.Chosen s (w.pre s k) :=
    fun s k R hR hst ha => ⟨s, le_rfl, k, R, hR, hst, ha, List.prefix_rfl⟩
  -- both are in the log of the later of the two leaders
  have hboth : ∃ s, p <+: w.llog s ∧ q <+: w.llog s := by
    rcases le_total t t' with hle | hle
    · exact ⟨t', ((hself t n Q hQ hstored hanchored).of_isPrefix hpre).prefix_llog h hM hle
        (hled t' n' hanchored'), hpre'.trans (List.take_prefix n' _)⟩
    · exact ⟨t, hpre.trans (List.take_prefix n _),
        ((hself t' n' Q' hQ' hstored' hanchored').of_isPrefix hpre').prefix_llog h hM hle
        (hled t n hanchored)⟩
  obtain ⟨s, hps, hqs⟩ := hboth
  exact List.prefix_or_prefix_of_prefix hps hqs

/-- What is chosen is in the log of some node. -/
theorem Chosen.prefix_log [Nonempty ι] (h : w.Complete) {T : ℕ} {p : List ε}
    (hp : w.Chosen T p) : ∃ v, p <+: w.log v := by
  obtain ⟨t, -, n, Q, hQ, hstored, hanchored, hpre⟩ := hp
  have hcard : 0 < Fintype.card ι := Fintype.card_pos
  obtain ⟨v, hv⟩ : Q.Nonempty := by
    rw [← Finset.card_pos]
    unfold Half at hQ
    omega
  exact ⟨v, hpre.trans (h.kept v t n (hstored v hv) fun s hts _ hs =>
    h.prefix_elog hQ hstored hanchored hts hs)⟩

end

end World

end Consensus
