import KvEngine.Consensus.Majority

/-!
# Votes and leaders

A protocol state `World` has each node's term, log and whether it leads, and the
history that safety arguments speak of: who stood for which term with which log,
who voted for whom, who led each term, with which log it was elected and what its
log grew to, and up to which length each node stored that log. An `Event` is one
atomic change at one node. A node votes once for each term, and a leader needs
the votes of a majority.

Results:
* `Elections.apply`: every enabled event keeps the election invariant.
* `Elections.extends_apply`: history only grows; in particular, no term gets a
  second leader, since two majorities meet.
-/

namespace Consensus

variable {ι ε : Type*}

/-! ## Majorities -/

section Quorums

variable [Fintype ι]

/-- More than half of the nodes. -/
def Majority (Q : Finset ι) : Prop := Fintype.card ι < 2 * Q.card

/-- At least half of the nodes: it meets every majority. -/
def Half (Q : Finset ι) : Prop := Fintype.card ι ≤ 2 * Q.card

theorem Majority.half {Q : Finset ι} (h : Majority Q) : Half Q := Nat.le_of_lt h

/-- A majority and a half have a node in common. -/
theorem Majority.exists_mem [DecidableEq ι] {Q R : Finset ι} (hQ : Majority Q) (hR : Half R) :
    ∃ v, v ∈ Q ∧ v ∈ R := by
  have hcard : Fintype.card ι < Q.card + R.card := by
    unfold Majority Half at *
    omega
  obtain ⟨v, hv⟩ := Finset.inter_nonempty_of_card_lt_card_add_card (Finset.subset_univ Q)
    (Finset.subset_univ R) (by rwa [Finset.card_univ])
  exact ⟨v, Finset.mem_inter.mp hv⟩

/-- The value in the middle of the sorted list is reached by half of the nodes. -/
theorem exists_half_le [DecidableEq ι] {l : List ι} (hnodup : l.Nodup) (hall : ∀ u, u ∈ l)
    (f : ι → ℕ) : ∃ Q : Finset ι, Half Q ∧
      ∀ u ∈ Q, ((l.map f).insertionSort (· ≤ ·)).getD (l.length / 2) 0 ≤ f u := by
  set sorted := (l.map f).insertionSort (· ≤ ·) with hsorted
  set x := sorted.getD (l.length / 2) 0 with hx
  have hlen : sorted.length = l.length := by
    rw [hsorted, List.length_insertionSort, List.length_map]
  have hcard : Fintype.card ι = l.length := by
    rw [← Finset.card_univ, ← List.toFinset_card_of_nodup hnodup]
    congr 1
    ext u
    simp [hall]
  refine ⟨(l.filter (x ≤ f ·)).toFinset, ?_, fun u hu => by simpa [hall] using hu⟩
  have hcount : l.length - l.length / 2 ≤ (l.filter (x ≤ f ·)).length := by
    rcases Nat.eq_zero_or_pos l.length with hzero | hpos
    · omega
    · have hmid : l.length / 2 < sorted.length := by omega
      have hxeq : x = sorted[l.length / 2] := List.getD_eq_getElem _ _ hmid
      have hpair : sorted.Pairwise (· ≤ ·) := List.pairwise_insertionSort _ _
      calc l.length - l.length / 2 ≤ reached sorted x := by
            have hmiddle := (le_getElem_iff_reached hpair hmid x).mp hxeq.le
            omega
        _ = reached (l.map f) x := reached_perm (List.perm_insertionSort _ _) x
        _ = (l.filter (x ≤ f ·)).length := by
            rw [reached, List.countP_map, List.countP_eq_length_filter]
            rfl
  unfold Half
  rw [List.toFinset_card_of_nodup (hnodup.filter _), hcard]
  omega

end Quorums

/-! ## Worlds and events -/

/-- The nodes' states and the protocol's history. -/
structure World (ι ε : Type*) where
  /-- The term a node is in. -/
  term : ι → ℕ
  /-- Its log. -/
  log : ι → List ε
  /-- It leads its term. -/
  lead : ι → Prop
  /-- The log with which it stood for a term. -/
  standing : ι → ℕ → Option (List ε)
  /-- Whom it voted for in a term. -/
  granted : ι → ℕ → Option ι
  /-- The leader of a term. -/
  leader : ℕ → Option ι
  /-- The leader's log when elected. -/
  elog : ℕ → List ε
  /-- What that log grew to while it led. -/
  llog : ℕ → List ε
  /-- Up to which length a node stored the log of a term's leader. -/
  stored : ι → ℕ → ℕ

namespace World

/-- The history of `w'` extends that of `w`. -/
structure Extends (w w' : World ι ε) : Prop where
  term : ∀ v, w.term v ≤ w'.term v
  standing : ∀ v t L, w.standing v t = some L → w'.standing v t = some L
  granted : ∀ v t c, w.granted v t = some c → w'.granted v t = some c
  leader : ∀ t c, w.leader t = some c → w'.leader t = some c
  elog : ∀ t, w.leader t ≠ none → w'.elog t = w.elog t
  llog : ∀ t, w.llog t <+: w'.llog t
  stored : ∀ v t, w.stored v t ≤ w'.stored v t

theorem Extends.refl (w : World ι ε) : w.Extends w :=
  ⟨fun _ => le_rfl, fun _ _ _ h => h, fun _ _ _ h => h, fun _ _ h => h, fun _ _ => rfl,
    fun _ => List.prefix_rfl, fun _ _ => le_rfl⟩

theorem Extends.leader_ne_none {w w' : World ι ε} (h : w.Extends w') {t : ℕ}
    (ht : w.leader t ≠ none) : w'.leader t ≠ none := by
  obtain ⟨c, hc⟩ := Option.ne_none_iff_exists'.mp ht
  rw [h.leader t c hc]
  exact Option.some_ne_none c

theorem Extends.trans {w w' w'' : World ι ε} (h : w.Extends w') (h' : w'.Extends w'') :
    w.Extends w'' where
  term v := (h.term v).trans (h'.term v)
  standing v t L hL := h'.standing v t L (h.standing v t L hL)
  granted v t c hc := h'.granted v t c (h.granted v t c hc)
  leader t c hc := h'.leader t c (h.leader t c hc)
  elog t ht := (h'.elog t (h.leader_ne_none ht)).trans (h.elog t ht)
  llog t := (h.llog t).trans (h'.llog t)
  stored v t := (h.stored v t).trans (h'.stored v t)

end World

variable [DecidableEq ι] [Stamped ε]

/-- A request to store `entries` after position `prev`, whose term is `prevTerm`. -/
structure Msg (ε : Type*) where
  term : ℕ
  prev : ℕ
  prevTerm : ℕ
  entries : List ε

namespace Msg

/-- The position of the last entry carried. -/
def last (m : Msg ε) : ℕ := m.prev + m.entries.length

/-- There is something to store, and the log has the entry before it. -/
def Stores (m : Msg ε) (l : List ε) : Prop :=
  m.entries ≠ [] ∧ m.prev ≤ l.length ∧ termAt l m.prev = m.prevTerm

instance (m : Msg ε) (l : List ε) : Decidable (m.Stores l) :=
  inferInstanceAs (Decidable (_ ∧ _))

/-- The log after the request: what is behind `prev` is replaced. -/
def store (m : Msg ε) (l : List ε) : List ε :=
  if m.Stores l then l.take m.prev ++ m.entries else l

end Msg

/-- A function of a node and a term, changed at one pair. -/
def set2 {β : Type*} (f : ι → ℕ → β) (v : ι) (t : ℕ) (x : β) : ι → ℕ → β :=
  fun v' t' => if v' = v ∧ t' = t then x else f v' t'

@[simp] theorem set2_self {β : Type*} (f : ι → ℕ → β) (v : ι) (t : ℕ) (x : β) :
    set2 f v t x v t = x := by
  simp [set2]

theorem set2_of_ne {β : Type*} (f : ι → ℕ → β) {v v' : ι} (t : ℕ) (x : β) (h : v' ≠ v) :
    set2 f v t x v' = f v' := by
  funext t'
  simp [set2, h]

/-- Setting what was not yet set keeps what was. -/
theorem set2_eq_some {β : Type*} (f : ι → ℕ → Option β) {v : ι} {t : ℕ} {x : Option β}
    (hvt : f v t = none ∨ f v t = x) {u : ι} {s : ℕ} {y : β} (hy : f u s = some y) :
    set2 f v t x u s = some y := by
  by_cases heq : u = v ∧ s = t
  · obtain ⟨rfl, rfl⟩ := heq
    rcases hvt with hnone | hx
    · simp [hnone] at hy
    · rw [set2_self, ← hx, hy]
  · rw [set2, if_neg heq, hy]

theorem le_set2_max (f : ι → ℕ → ℕ) (v : ι) (t n : ℕ) (u : ι) (s : ℕ) :
    f u s ≤ set2 f v t (max (f v t) n) u s := by
  by_cases heq : u = v ∧ s = t
  · obtain ⟨rfl, rfl⟩ := heq
    rw [set2_self]
    exact le_max_left _ _
  · simp only [set2, if_neg heq, le_refl]

/-- One atomic change at one node. -/
inductive Event (ι ε : Type*) where
  /-- The node learns of a later term. -/
  | raise (v : ι) (t : ℕ)
  /-- It stands for the next term and votes for itself. -/
  | stand (v : ι)
  /-- It votes for `c` in its term. -/
  | grant (v c : ι)
  /-- It counts a majority of votes for its term. -/
  | win (v : ι)
  /-- As a leader, it appends an entry. -/
  | append (v : ι) (e : ε)
  /-- It handles a request of its own or a later term. -/
  | receive (v : ι) (m : Msg ε)

/-- The node an event is at. -/
def Event.node : Event ι ε → ι
  | raise v _ => v
  | stand v => v
  | grant v _ => v
  | win v => v
  | append v _ => v
  | receive v _ => v

namespace World

/-- The effect of an event. -/
def apply (w : World ι ε) : Event ι ε → World ι ε
  | .raise v t =>
    { w with
      term := Function.update w.term v t
      lead := Function.update w.lead v False }
  | .stand v =>
    { w with
      term := Function.update w.term v (w.term v + 1)
      lead := Function.update w.lead v False
      standing := set2 w.standing v (w.term v + 1) (some (w.log v))
      granted := set2 w.granted v (w.term v + 1) (some v) }
  | .grant v c => { w with granted := set2 w.granted v (w.term v) (some c) }
  | .win v =>
    { w with
      lead := Function.update w.lead v True
      leader := Function.update w.leader (w.term v) (some v)
      elog := Function.update w.elog (w.term v) (w.log v)
      llog := Function.update w.llog (w.term v) (w.log v)
      stored := set2 w.stored v (w.term v) (max (w.stored v (w.term v)) (w.log v).length) }
  | .append v e =>
    { w with
      log := Function.update w.log v (w.log v ++ [e])
      llog := Function.update w.llog (w.term v) (w.llog (w.term v) ++ [e])
      stored := set2 w.stored v (w.term v) (max (w.stored v (w.term v)) ((w.log v).length + 1)) }
  | .receive v m =>
    { w with
      term := Function.update w.term v m.term
      lead := Function.update w.lead v False
      log := Function.update w.log v (m.store (w.log v))
      stored := if m.Stores (w.log v) then
          set2 w.stored v m.term (max (w.stored v m.term) m.last)
        else w.stored }

/-- When an event can happen. -/
def Enabled [Fintype ι] (w : World ι ε) : Event ι ε → Prop
  | .raise v t => w.term v < t
  | .stand _ => True
  | .grant v c =>
    (w.granted v (w.term v) = none ∨ w.granted v (w.term v) = some c) ∧
      ∃ L, w.standing c (w.term v) = some L ∧ UpToDate L (w.log v)
  | .win v =>
    w.standing v (w.term v) = some (w.log v) ∧ w.leader (w.term v) ≠ some v ∧
      ∃ Q : Finset ι, Majority Q ∧ ∀ u ∈ Q, w.granted u (w.term v) = some v
  | .append v e => w.lead v ∧ stamp e = w.term v
  | .receive v m => w.term v ≤ m.term

/-- The world before anything happened. -/
def init : World ι ε where
  term _ := 0
  log _ := []
  lead _ := False
  standing _ _ := none
  granted _ _ := none
  leader _ := none
  elog _ := []
  llog _ := []
  stored _ _ := 0

/-! ## The election invariant -/

/-- What every world keeps, however messages are mixed up: nobody has voted or
stood for a term it has not reached, votes are for nodes that stood, leaders have
a majority, and a leader's log is the recorded one. -/
structure Elections [Fintype ι] (w : World ι ε) : Prop where
  granted_future : ∀ v t, w.term v < t → w.granted v t = none
  standing_future : ∀ v t, w.term v < t → w.standing v t = none
  stood : ∀ v t c, w.granted v t = some c → ∃ L, w.standing c t = some L
  majority : ∀ t c, w.leader t = some c →
    ∃ Q : Finset ι, Majority Q ∧ ∀ v ∈ Q, w.granted v t = some c
  leads : ∀ v, w.lead v → w.leader (w.term v) = some v ∧ w.log v = w.llog (w.term v) ∧
    (w.log v).length ≤ w.stored v (w.term v)
  unled : ∀ t, w.leader t = none → w.llog t = []

omit [DecidableEq ι] [Stamped ε] in
theorem Elections.init [Fintype ι] : (World.init : World ι ε).Elections :=
  ⟨fun _ _ _ => rfl, fun _ _ _ => rfl, fun _ _ _ h => by simp [World.init] at h,
    fun _ _ h => by simp [World.init] at h, fun _ h => False.elim h, fun _ _ => rfl⟩

section Steps

variable [Fintype ι] {w : World ι ε}

/-- A term has no leader before the event in which one wins it. -/
theorem Elections.leader_eq_none_of_win (h : w.Elections) {v : ι} (hwin : w.Enabled (.win v)) :
    w.leader (w.term v) = none := by
  obtain ⟨-, hne, Q, hQ, hvotes⟩ := hwin
  by_contra hsome
  obtain ⟨c, hc⟩ := Option.ne_none_iff_exists'.mp hsome
  obtain ⟨R, hR, hvotes'⟩ := h.majority _ _ hc
  obtain ⟨u, hu, hu'⟩ := hQ.exists_mem hR.half
  have hcv := hvotes' u hu'
  rw [hvotes u hu] at hcv
  exact hne (by rw [hc, hcv])

/-- History only grows. -/
theorem Elections.extends_apply (h : w.Elections) {ev : Event ι ε} (hev : w.Enabled ev) :
    w.Extends (w.apply ev) := by
  have hself := Extends.refl w
  have hmono : ∀ v t, w.term v ≤ t → ∀ u, w.term u ≤ Function.update w.term v t u := by
    intro v t ht u
    by_cases hu : u = v
    · subst hu
      rwa [Function.update_self]
    · rw [Function.update_of_ne hu]
  cases ev with
  | raise v t => exact { hself with term := hmono v t (Nat.le_of_lt hev) }
  | stand v =>
    have hnext : w.term v < w.term v + 1 := Nat.lt_succ_self _
    exact { hself with
      term := hmono v _ hnext.le
      standing := fun _ _ _ => set2_eq_some _ (Or.inl (h.standing_future v _ hnext))
      granted := fun _ _ _ => set2_eq_some _ (Or.inl (h.granted_future v _ hnext)) }
  | grant v c => exact { hself with granted := fun _ _ _ => set2_eq_some _ hev.1 }
  | win v =>
    have hnone := h.leader_eq_none_of_win hev
    refine { hself with leader := ?_, elog := ?_, llog := ?_, stored := ?_ }
    · intro t c hc
      have hne : t ≠ w.term v := by
        rintro rfl
        rw [hnone] at hc
        simp at hc
      simp only [World.apply, Function.update_of_ne hne, hc]
    · intro t ht
      have hne : t ≠ w.term v := by
        rintro rfl
        exact ht hnone
      simp only [World.apply, Function.update_of_ne hne]
    · intro t
      by_cases heq : t = w.term v
      · subst heq
        rw [h.unled _ hnone]
        exact List.nil_prefix
      · simp only [World.apply, Function.update_of_ne heq, List.prefix_rfl]
    · exact le_set2_max _ _ _ _
  | append v e =>
    refine { hself with llog := ?_, stored := ?_ }
    · intro t
      by_cases heq : t = w.term v
      · subst heq
        simp only [World.apply, Function.update_self, List.prefix_append]
      · simp only [World.apply, Function.update_of_ne heq, List.prefix_rfl]
    · exact le_set2_max _ _ _ _
  | receive v m =>
    refine { hself with term := hmono v _ hev, stored := ?_ }
    intro u t
    simp only [World.apply]
    split_ifs with hstores
    · exact le_set2_max _ _ _ _ u t
    · exact le_rfl

omit [DecidableEq ι] [Stamped ε] in
/-- Two leading nodes are in different terms. -/
theorem Elections.term_ne (h : w.Elections) {u v : ι} (hu : w.lead u)
    (hv : w.leader (w.term v) = some v ∨ w.leader (w.term v) = none) (hne : u ≠ v) :
    w.term u ≠ w.term v := by
  intro heq
  have hlead := (h.leads u hu).1
  rw [heq] at hlead
  rcases hv with hv | hv
  · rw [hv] at hlead
    exact hne (Option.some.inj hlead).symm
  · rw [hv] at hlead
    simp at hlead

/-! ### One lemma for each event -/

omit [Fintype ι] [Stamped ε] in
/-- Who still leads when `v` stops. -/
theorem lead_of_update_false {v u : ι} (hu : Function.update w.lead v False u) :
    u ≠ v ∧ w.lead u := by
  by_cases huv : u = v
  · subst huv
    rw [Function.update_self] at hu
    exact False.elim hu
  · rw [Function.update_of_ne huv] at hu
    exact ⟨huv, hu⟩

omit [DecidableEq ι] [Stamped ε] in
theorem Elections.granted_eq_none (h : w.Elections) {w' : World ι ε} (hext : w.Extends w')
    {u : ι} {s : ℕ} (hs : w'.term u < s) : w.granted u s = none :=
  h.granted_future u s (lt_of_le_of_lt (hext.term u) hs)

omit [DecidableEq ι] [Stamped ε] in
theorem Elections.standing_eq_none (h : w.Elections) {w' : World ι ε} (hext : w.Extends w')
    {u : ι} {s : ℕ} (hs : w'.term u < s) : w.standing u s = none :=
  h.standing_future u s (lt_of_le_of_lt (hext.term u) hs)

omit [DecidableEq ι] [Stamped ε] in
/-- The votes of a leader stay. -/
theorem Elections.majority_extends (h : w.Elections) {w' : World ι ε} (hext : w.Extends w')
    {t : ℕ} {c : ι} (hc : w.leader t = some c) :
    ∃ Q : Finset ι, Majority Q ∧ ∀ v ∈ Q, w'.granted v t = some c := by
  obtain ⟨Q, hQ, hall⟩ := h.majority t c hc
  exact ⟨Q, hQ, fun v hv => hext.granted v t c (hall v hv)⟩

theorem Elections.raise (h : w.Elections) {v : ι} {t : ℕ} (hev : w.Enabled (.raise v t)) :
    (w.apply (.raise v t)).Elections where
  granted_future _ _ hs := h.granted_eq_none (h.extends_apply hev) hs
  standing_future _ _ hs := h.standing_eq_none (h.extends_apply hev) hs
  stood := h.stood
  majority := h.majority
  leads u hu := by
    obtain ⟨hne, hlead⟩ := lead_of_update_false hu
    simp only [World.apply, Function.update_of_ne hne]
    exact h.leads u hlead
  unled := h.unled

/-- A node that stands sets its own vote and log, in a term where it had neither. -/
theorem Elections.stand (h : w.Elections) (v : ι) : (w.apply (.stand v)).Elections := by
  have hev : w.Enabled (.stand v) := trivial
  have hext := h.extends_apply hev
  have hfuture : ∀ u s, (w.apply (.stand v)).term u < s → ¬ (u = v ∧ s = w.term v + 1) := by
    rintro u s hs ⟨rfl, rfl⟩
    simp [World.apply] at hs
  refine ⟨?_, ?_, ?_, fun t c hc => h.majority_extends hext hc, ?_, h.unled⟩
  · intro u s hs
    simp only [World.apply, set2, if_neg (hfuture u s hs)]
    exact h.granted_eq_none hext hs
  · intro u s hs
    simp only [World.apply, set2, if_neg (hfuture u s hs)]
    exact h.standing_eq_none hext hs
  · intro u s c hc
    by_cases heq : u = v ∧ s = w.term v + 1
    · obtain ⟨rfl, rfl⟩ := heq
      simp only [World.apply, set2_self, Option.some.injEq] at hc
      subst hc
      exact ⟨w.log u, by simp [World.apply]⟩
    · simp only [World.apply, set2, if_neg heq] at hc
      obtain ⟨L, hL⟩ := h.stood u s c hc
      exact ⟨L, hext.standing c s L hL⟩
  · intro u hu
    obtain ⟨hne, hlead⟩ := lead_of_update_false hu
    simp only [World.apply, Function.update_of_ne hne]
    exact h.leads u hlead

theorem Elections.grant (h : w.Elections) {v c : ι} (hev : w.Enabled (.grant v c)) :
    (w.apply (.grant v c)).Elections := by
  have hext := h.extends_apply hev
  refine ⟨?_, h.standing_future, ?_, fun t c' hc' => h.majority_extends hext hc', h.leads,
    h.unled⟩
  · intro u s hs
    have hne : ¬ (u = v ∧ s = w.term v) := by
      rintro ⟨rfl, rfl⟩
      simp [World.apply] at hs
    simp only [World.apply, set2, if_neg hne]
    exact h.granted_eq_none hext hs
  · intro u s c' hc'
    by_cases heq : u = v ∧ s = w.term v
    · obtain ⟨rfl, rfl⟩ := heq
      simp only [World.apply, set2_self, Option.some.injEq] at hc'
      subst hc'
      obtain ⟨L, hL, -⟩ := hev.2
      exact ⟨L, hL⟩
    · simp only [World.apply, set2, if_neg heq] at hc'
      exact h.stood u s c' hc'

/-- The winner's term had no leader, and nobody else leads in it. -/
theorem Elections.win (h : w.Elections) {v : ι} (hev : w.Enabled (.win v)) :
    (w.apply (.win v)).Elections := by
  have hnone := h.leader_eq_none_of_win hev
  refine ⟨h.granted_future, h.standing_future, h.stood, ?_, ?_, ?_⟩
  · intro t c hc
    by_cases heq : t = w.term v
    · subst heq
      simp only [World.apply, Function.update_self, Option.some.injEq] at hc
      subst hc
      exact hev.2.2
    · simp only [World.apply, Function.update_of_ne heq] at hc
      exact h.majority t c hc
  · intro u hu
    by_cases huv : u = v
    · subst huv
      simp [World.apply]
    · simp only [World.apply, Function.update_of_ne huv] at hu
      have hterm := h.term_ne hu (Or.inr hnone) huv
      simp only [World.apply, Function.update_of_ne hterm, set2_of_ne _ _ _ huv]
      exact h.leads u hu
  · intro t ht
    have hne : t ≠ w.term v := by
      rintro rfl
      simp [World.apply] at ht
    simp only [World.apply, Function.update_of_ne hne] at ht ⊢
    exact h.unled t ht

/-- A leader appends to its log and to the recorded one alike. -/
theorem Elections.append (h : w.Elections) {v : ι} {e : ε} (hev : w.Enabled (.append v e)) :
    (w.apply (.append v e)).Elections := by
  have hv := h.leads v hev.1
  refine ⟨h.granted_future, h.standing_future, h.stood, h.majority, ?_, ?_⟩
  · intro u hu
    by_cases huv : u = v
    · subst huv
      refine ⟨hv.1, ?_, ?_⟩
      · simp only [World.apply, Function.update_self, hv.2.1]
      · simp [World.apply]
    · have hterm := h.term_ne hu (Or.inl hv.1) huv
      simp only [World.apply, Function.update_of_ne huv, Function.update_of_ne hterm,
        set2_of_ne _ _ _ huv]
      exact h.leads u hu
  · intro t ht
    have hne : t ≠ w.term v := by
      rintro rfl
      rw [World.apply, hv.1] at ht
      simp at ht
    simp only [World.apply, Function.update_of_ne hne]
    exact h.unled t ht

theorem Elections.receive (h : w.Elections) {v : ι} {m : Msg ε}
    (hev : w.Enabled (.receive v m)) : (w.apply (.receive v m)).Elections where
  granted_future _ _ hs := h.granted_eq_none (h.extends_apply hev) hs
  standing_future _ _ hs := h.standing_eq_none (h.extends_apply hev) hs
  stood := h.stood
  majority := h.majority
  leads u hu := by
    obtain ⟨hne, hlead⟩ := lead_of_update_false hu
    obtain ⟨hleader, hlog, hlen⟩ := h.leads u hlead
    have hterm : (w.apply (.receive v m)).term u = w.term u := Function.update_of_ne hne _ _
    have hlogu : (w.apply (.receive v m)).log u = w.log u := Function.update_of_ne hne _ _
    rw [hterm, hlogu]
    exact ⟨hleader, hlog, hlen.trans ((h.extends_apply hev).stored u _)⟩
  unled := h.unled

/-- Every enabled event keeps the election invariant. -/
theorem Elections.apply (h : w.Elections) {ev : Event ι ε} (hev : w.Enabled ev) :
    (w.apply ev).Elections := by
  cases ev with
  | raise v t => exact h.raise hev
  | stand v => exact h.stand v
  | grant v c => exact h.grant hev
  | win v => exact h.win hev
  | append v e => exact h.append hev
  | receive v m => exact h.receive hev

/-! ## Nobody leads term 0 -/

omit [Fintype ι] in
/-- Nobody stands for term 0. -/
theorem standing_zero_apply (h : ∀ v, w.standing v 0 = none) (ev : Event ι ε) (v : ι) :
    (w.apply ev).standing v 0 = none := by
  cases ev with
  | stand u => simpa [World.apply, set2] using h v
  | raise u t => exact h v
  | grant u c => exact h v
  | win u => exact h v
  | append u e => exact h v
  | receive u m => exact h v

omit [DecidableEq ι] [Stamped ε] in
theorem Elections.leader_zero [DecidableEq ι] (hE : w.Elections) (h : ∀ v, w.standing v 0 = none) :
    w.leader 0 = none := by
  by_contra hsome
  obtain ⟨c, hc⟩ := Option.ne_none_iff_exists'.mp hsome
  obtain ⟨Q, hQ, hvotes⟩ := hE.majority 0 c hc
  obtain ⟨u, hu, -⟩ := hQ.exists_mem hQ.half
  obtain ⟨L, hL⟩ := hE.stood u 0 c (hvotes u hu)
  rw [h c] at hL
  simp at hL

/-- Entries of genuine logs are of positive terms. -/
theorem Elections.stamp_pos (hE : w.Elections) (h : ∀ v, w.standing v 0 = none) {l : List ε}
    (hl : Genuine w.llog l) {k : ℕ} {e : ε} (hk : l[k]? = some e) : 0 < stamp e := by
  by_contra hzero
  have hmem := hl.getElem? hk
  rw [Nat.eq_zero_of_not_pos hzero, hE.unled 0 (hE.leader_zero h)] at hmem
  simp at hmem

/-! ## Runs at one node -/

omit [Fintype ι] in
/-- Events are local: other nodes' state, votes and candidacies stay. -/
theorem apply_of_ne (w : World ι ε) (ev : Event ι ε) {u : ι} (hu : u ≠ ev.node) :
    (w.apply ev).term u = w.term u ∧ (w.apply ev).log u = w.log u ∧
      ((w.apply ev).lead u ↔ w.lead u) ∧ (w.apply ev).granted u = w.granted u ∧
      (w.apply ev).standing u = w.standing u := by
  cases ev <;> simp only [Event.node] at hu <;>
    simp [World.apply, Function.update_of_ne hu, set2_of_ne _ _ _ hu]

omit [Fintype ι] in
/-- A new leader is the node of the event, in its term. -/
theorem leader_of_apply {w : World ι ε} {ev : Event ι ε} {t : ℕ} {c : ι}
    (h : (w.apply ev).leader t = some c) : w.leader t = some c ∨ c = ev.node := by
  cases ev with
  | win v =>
    by_cases heq : t = w.term v
    · subst heq
      simp only [World.apply, Function.update_self, Option.some.injEq] at h
      exact Or.inr h.symm
    · simp only [World.apply, Function.update_of_ne heq] at h
      exact Or.inl h
  | raise v t => exact Or.inl h
  | stand v => exact Or.inl h
  | grant v c => exact Or.inl h
  | append v e => exact Or.inl h
  | receive v m => exact Or.inl h

/-- A run of enabled events at the node `u` that all satisfy `P`. -/
inductive Run (P : World ι ε → Event ι ε → Prop) (u : ι) : World ι ε → World ι ε → Prop where
  | refl (w : World ι ε) : Run P u w w
  | step {w w' : World ι ε} (ev : Event ι ε) (hev : w.Enabled ev) (hP : P w ev)
      (hnode : ev.node = u) (hrest : Run P u (w.apply ev) w') : Run P u w w'

namespace Run

variable {P : World ι ε → Event ι ε → Prop} {u : ι} {w' : World ι ε}

theorem single {ev : Event ι ε} (hev : w.Enabled ev) (hP : P w ev) (hnode : ev.node = u) :
    Run P u w (w.apply ev) :=
  .step ev hev hP hnode (.refl _)

theorem trans {w'' : World ι ε} (h : Run P u w w') (h' : Run P u w' w'') : Run P u w w'' := by
  induction h with
  | refl w => exact h'
  | step ev hev hP hnode hrest ih => exact .step ev hev hP hnode (ih h')

/-- What every event that satisfies `P` keeps, a run keeps. -/
theorem preserves {Inv : World ι ε → Prop}
    (hstep : ∀ w ev, w.Elections → Enabled w ev → P w ev → Inv w → Inv (w.apply ev))
    (hrun : Run P u w w') (hE : w.Elections) (h : Inv w) : Inv w' := by
  induction hrun with
  | refl w => exact h
  | step ev hev hP hnode hrest ih => exact ih (hE.apply hev) (hstep _ ev hE hev hP h)

theorem elections (hrun : Run P u w w') (h : w.Elections) : w'.Elections :=
  hrun.preserves (fun _ _ hE hev _ _ => hE.apply hev) h h

theorem «extends» (hrun : Run P u w w') (h : w.Elections) : w.Extends w' := by
  induction hrun with
  | refl w => exact Extends.refl w
  | step ev hev hP hnode hrest ih => exact (h.extends_apply hev).trans (ih (h.apply hev))

theorem of_ne (hrun : Run P u w w') {v : ι} (hv : v ≠ u) :
    w'.term v = w.term v ∧ w'.log v = w.log v ∧ (w'.lead v ↔ w.lead v) ∧
      w'.granted v = w.granted v ∧ w'.standing v = w.standing v := by
  induction hrun with
  | refl w => exact ⟨rfl, rfl, Iff.rfl, rfl, rfl⟩
  | step ev hev hP hnode hrest ih =>
    obtain ⟨h₁, h₂, h₃, h₄, h₅⟩ := apply_of_ne _ ev (hnode ▸ hv)
    obtain ⟨i₁, i₂, i₃, i₄, i₅⟩ := ih
    exact ⟨i₁.trans h₁, i₂.trans h₂, i₃.trans h₃, i₄.trans h₄, i₅.trans h₅⟩

theorem leader (hrun : Run P u w w') {t : ℕ} {c : ι} (h : w'.leader t = some c) :
    w.leader t = some c ∨ c = u := by
  induction hrun with
  | refl w => exact Or.inl h
  | step ev hev hP hnode hrest ih =>
    rcases ih h with hmid | hu
    · exact hnode ▸ leader_of_apply hmid
    · exact Or.inr hu

end Run

end Steps

end World

end Consensus
