import KvEngine.Raft.Entries

/-!
# The cluster keeps a ledger

A guarded cluster is a replicated ledger: its calls enter one history, each between its
invocation and its return, and the apply threads hand that history over. The history is the
longest chosen list seen so far, by the names of the calls that appended its entries.

Results:
* `ledger_simulates`: every guarded action is matched by steps of the ledger that show the same.
* `trace_ledger`: what is seen of a guarded cluster, the ledger can show.
* `realTimeOrder`: a write that returned true before another was called stands before it.
-/

namespace KvEngine

open Consensus Systems

variable {ι : Type} [DecidableEq ι]

/-! ## Calls have places of their own -/

/-- The entry of a call. -/
def Cluster.called (c : Cluster ι) (k : ι × ℕ) : Option LogEntry :=
  ((c.calls k.1)[k.2]?).map Prod.fst

/-- The leader of a term took the calls of that term, one behind the other. -/
structure Distinct (c : Cluster ι) (w : World ι LogEntry) : Prop where
  led : ∀ v, ∀ x ∈ c.calls v, w.leader x.1.term = some v
  increasing : ∀ v, (c.calls v).Pairwise fun x y => x.1.term = y.1.term → x.2 < y.2

omit [DecidableEq ι] in
/-- Two calls with the same term and index are one. -/
theorem Distinct.eq {c : Cluster ι} {w : World ι LogEntry} (h : Distinct c w) {k k' : ι × ℕ}
    {x x' : LogEntry × ℕ} (hk : (c.calls k.1)[k.2]? = some x)
    (hk' : (c.calls k'.1)[k'.2]? = some x') (hterm : x.1.term = x'.1.term) (hindex : x.2 = x'.2) : k = k' := by
  obtain ⟨v, i⟩ := k
  obtain ⟨v', i'⟩ := k'
  have hled := h.led v x (List.mem_of_getElem? hk)
  rw [hterm, h.led v' x' (List.mem_of_getElem? hk')] at hled
  obtain rfl := Option.some.inj hled
  obtain ⟨hi, rfl⟩ := List.getElem?_eq_some_iff.mp hk
  obtain ⟨hi', rfl⟩ := List.getElem?_eq_some_iff.mp hk'
  have hlt := List.pairwise_iff_getElem.mp (h.increasing v')
  rcases Nat.lt_trichotomy i i' with hii | rfl | hii
  · exact absurd hindex (hlt i i' hi hi' hii hterm).ne
  · rfl
  · exact absurd hindex (hlt i' i hi' hi hii hterm.symm).ne'

section

variable [Fintype ι] {c c' : Cluster ι} {w w' : World ι LogEntry} {cfg : Config ι}

theorem Distinct.step (h : Distinct c w) (hsim : OrderlySim c w) {a : Action ι}
    (hstep : c.step cfg a = some c') (hext : w.Extends w') : Distinct c' w' := by
  have hkept : c'.calls = c.calls → Distinct c' w' := fun hcalls =>
    ⟨by rw [hcalls]; exact fun v x hx => hext.leader _ _ (h.led v x hx),
      by rw [hcalls]; exact h.increasing⟩
  have hseen := Cluster.seen_step hstep
  generalize Cluster.shown c c' a = o at hseen
  cases hseen with
  | @invoke v e hrole hterm hcalls =>
    obtain ⟨hleader, hown, -⟩ := hsim.leads hrole
    have hv : c'.calls v = c.calls v ++ [(e, (c.nodes v).log.length + 1)] := by
      rw [hcalls, Function.update_self]
    have hne : ∀ u, u ≠ v → c'.calls u = c.calls u := by
      intro u hu
      rw [hcalls, Function.update_of_ne hu]
    constructor
    · intro u x hx
      refine hext.leader _ _ ?_
      by_cases hu : u = v
      · subst hu
        rw [hv, List.mem_append, List.mem_singleton] at hx
        rcases hx with hx | rfl
        · exact h.led u x hx
        · rwa [hterm]
      · exact h.led u x (hne u hu ▸ hx)
    · intro u
      by_cases hu : u = v
      · subst hu
        rw [hv, List.pairwise_append]
        refine ⟨h.increasing u, List.pairwise_singleton _ _, fun x hx y hy hxy => ?_⟩
        obtain rfl := List.mem_singleton.mp hy
        obtain ⟨pr, hpr, rfl⟩ := List.mem_map.mp hx
        -- the entries of the term's earlier calls are in the leader's log
        have hplaced := (hsim.sim.proposal u pr hpr).placed
        rw [show pr.entry.term = (c.nodes u).currentTerm from hxy.trans hterm, ← hown] at hplaced
        have hlt := (List.getElem?_eq_some_iff.mp hplaced).1
        show pr.index < (c.nodes u).log.length + 1
        omega
      · rw [hne u hu]
        exact h.increasing u
  | respond hnow hcalls => exact hkept hcalls
  | hand hheld hcalls => exact hkept hcalls
  | silent hcalls => exact hkept hcalls

/-! ## What guarded runs keep -/

/-- All that the ledger rests on. -/
structure Recorded (cfg : Config ι) (c : Cluster ι) (w : World ι LogEntry) : Prop where
  sim : OrderlySim c w
  answers : Answers cfg c w
  distinct : Distinct c w
  entries : c.Everywhere c.Called
  order : ∀ v, c.HandsInOrder v

theorem Recorded.init (cfg : Config ι) : Recorded cfg (Cluster.init : Cluster ι) World.init where
  sim := .init
  answers := .init cfg
  distinct := ⟨fun v x hx => by simp [Cluster.calls, Cluster.init] at hx,
    fun v => by simp [Cluster.calls, Cluster.init]⟩
  entries := .init _
  order v :=
    Cluster.applied_inOrder (.start : Cluster.Runs cfg Guarded Cluster.init Cluster.init) v

theorem Recorded.step (h : Recorded cfg c w) {a : Action ι} (hguarded : Guarded c a)
    (hstep : c.step cfg a = some c') : ∃ w', w.Extends w' ∧ Recorded cfg c' w' := by
  obtain ⟨w', hext, hsim⟩ := h.sim.step hguarded.1 hstep
  exact ⟨w', hext, hsim, h.answers.step h.sim hguarded hstep hext,
    h.distinct.step h.sim hstep hext, h.entries.called_step hguarded.1.1 hstep,
    fun v => (h.order v).step hstep⟩

/-- What is chosen was called for. -/
theorem Recorded.called_chosen (h : Recorded cfg c w) {T j : ℕ} {q : List LogEntry} {e : LogEntry}
    (hq : w.Chosen T q) (hj : q[j]? = some e) : c.Called (j + 1) e := by
  have hled : ∃ t, w.leader t ≠ none := by
    obtain ⟨t, -, n, -, -, -, hanchored, -⟩ := hq
    refine ⟨t, fun hnone => ?_⟩
    have hlen := hanchored.length
    rw [h.sim.sound.elections.unled t hnone, List.length_nil] at hlen
    omega
  obtain ⟨t, ht⟩ := hled
  obtain ⟨u, -⟩ := Option.ne_none_iff_exists'.mp ht
  have : Nonempty ι := ⟨u⟩
  obtain ⟨v, hv⟩ := World.Chosen.prefix_log h.sim.sound.complete hq
  rw [(h.sim.sim.node v).log] at hv
  exact h.entries.logs v j e (getElem?_of_isPrefix hv hj)

/-! ## The ledger of a cluster -/

/-- The history of the ledger is the chosen list `p`, by the names of calls. -/
structure Records (c : Cluster ι) (w : World ι LogEntry) (p : List LogEntry)
    (L : Ledger ι (ι × ℕ) LogEntry) : Prop where
  calls : L.calls = c.called
  chosen : p = [] ∨ ∃ T, w.Chosen T p
  length : L.history.length = p.length
  place : ∀ (j : ℕ) (k : ι × ℕ), L.history[j]? = some k →
    ∃ e, p[j]? = some e ∧ (c.calls k.1)[k.2]? = some (e, j + 1)
  done : ∀ v, L.done v = (c.applied v).length

variable {p q : List LogEntry} {L L' : Ledger ι (ι × ℕ) LogEntry}

omit [DecidableEq ι] in
/-- One more entry of a chosen list has a call, and it is not in the history yet. -/
theorem Records.exists_new (h : Records c w p L) {e : LogEntry}
    (hcalled : c.Called (p.length + 1) e) :
    ∃ k, (c.calls k.1)[k.2]? = some (e, p.length + 1) ∧ L.calls k = some e ∧ k ∉ L.history := by
  obtain ⟨v, hv⟩ := hcalled
  obtain ⟨i, hi⟩ := List.getElem?_of_mem hv
  refine ⟨(v, i), hi, ?_, fun hmem => ?_⟩
  · rw [h.calls]
    exact congrArg (Option.map Prod.fst) hi
  · -- a call in the history has an index in it
    obtain ⟨j, hj⟩ := List.getElem?_of_mem hmem
    obtain ⟨e', -, hcall⟩ := h.place j _ hj
    have hlt := (List.getElem?_eq_some_iff.mp hj).1
    rw [show (c.calls (v, i).1)[(v, i).2]? = some (e, p.length + 1) from hi] at hcall
    have hindex : p.length + 1 = j + 1 := congrArg Prod.snd (Option.some.inj hcall)
    rw [h.length] at hlt
    omega

/-- It can be entered. -/
theorem Records.enter_one (h : Records c w p L) {e : LogEntry}
    (hcalled : c.Called (p.length + 1) e) (hchosen : ∃ T, w.Chosen T (p ++ [e])) :
    ∃ L', Ledger.lts.step L none L' ∧ Records c w (p ++ [e]) L' ∧ L.history <+: L'.history := by
  obtain ⟨k, hk, hcall, hnew⟩ := h.exists_new hcalled
  refine ⟨_, .enter (by rw [hcall]; simp) hnew, ⟨h.calls, .inr hchosen, ?_, fun j k' hj => ?_,
    h.done⟩, List.prefix_append _ _⟩
  · simp only [List.length_append, h.length, List.length_singleton]
  · rcases Nat.lt_or_ge j L.history.length with hlt | hge
    · rw [List.getElem?_append_left hlt] at hj
      obtain ⟨e', he', hcall'⟩ := h.place j k' hj
      exact ⟨e', by rwa [List.getElem?_append_left (h.length ▸ hlt)], hcall'⟩
    · rw [List.getElem?_append_right hge, List.getElem?_singleton] at hj
      split_ifs at hj with hzero
      · obtain rfl := Option.some.inj hj
        obtain rfl : j = p.length := by
          have := h.length
          omega
        exact ⟨e, by simp, hk⟩

/-- The ledger can enter whatever is chosen. -/
theorem Records.enter (h : Records c w p L) (hrec : Recorded cfg c w) {T : ℕ}
    (hq : w.Chosen T q) :
    ∃ p' L', Ledger.lts.Moves L [] L' ∧ Records c w p' L' ∧ L.history <+: L'.history ∧
      q <+: p' := by
  have hS := hrec.sim.sound
  have hcases : p <+: q ∨ q <+: p := by
    rcases h.chosen with rfl | ⟨T', hp⟩
    · exact .inl (List.nil_prefix)
    · exact World.Chosen.total hS.complete hS.elections hS.matching hp hq
  rcases hcases with ⟨r, rfl⟩ | hqp
  · -- the rest of the chosen list is entered from its beginning on
    induction r generalizing p L with
    | nil => exact ⟨p, L, .refl, h, List.prefix_rfl, by simp⟩
    | cons e r ih =>
      have hpe : p ++ [e] <+: p ++ e :: r := ⟨r, by simp⟩
      obtain ⟨L₁, hstep, h₁, hhist⟩ := h.enter_one
        (hrec.called_chosen hq (by simp)) ⟨T, hq.of_isPrefix hpe⟩
      rw [show p ++ e :: r = (p ++ [e]) ++ r by simp] at hq ⊢
      obtain ⟨p', L', hmoves, h', hhist', hqp⟩ := ih h₁ hq
      refine ⟨p', L', ?_, h', hhist.trans hhist', hqp⟩
      exact (Lts.Moves.single hstep).trans hmoves
  · exact ⟨p, L, .refl, h, List.prefix_rfl, hqp⟩

omit [DecidableEq ι] in
/-- The call in a place of the history. -/
theorem Records.getElem? (h : Records c w p L) {j : ℕ} {e : LogEntry} (hp : p[j]? = some e) :
    ∃ k, L.history[j]? = some k ∧ L.calls k = some e ∧ (c.calls k.1)[k.2]? = some (e, j + 1) := by
  have hlt : j < L.history.length := by
    rw [h.length]
    exact (List.getElem?_eq_some_iff.mp hp).1
  have hget : L.history[j]? = some L.history[j] := List.getElem?_eq_getElem hlt
  obtain ⟨e', he', hcall⟩ := h.place j _ hget
  obtain rfl : e = e' := by
    rw [hp] at he'
    exact Option.some.inj he'
  refine ⟨_, hget, ?_, hcall⟩
  rw [h.calls]
  exact congrArg (Option.map Prod.fst) hcall

/-! ## Steps of the ledger -/

/-- What returned true is in the history. -/
def Answered (c : Cluster ι) (L : Ledger ι (ι × ℕ) LogEntry) : Prop :=
  ∀ v i, c.Returned v i → (v, i) ∈ L.history

omit [DecidableEq ι] in
/-- The calls and what was handed over are as before. -/
theorem Records.congr (h : Records c w p L) (hext : w.Extends w') (hcalls : c'.calls = c.calls)
    (happlied : c'.applied = c.applied) : Records c' w' p L where
  calls := by
    rw [h.calls]
    funext k
    rw [Cluster.called, Cluster.called, hcalls]
  chosen := h.chosen.imp_right fun ⟨T, hp⟩ => ⟨T, hp.extends hext⟩
  length := h.length
  place := by rw [hcalls]; exact h.place
  done := by rw [happlied]; exact h.done

/-- A new call. -/
theorem Records.invoke (h : Records c w p L) (hext : w.Extends w') {v : ι} {x : LogEntry × ℕ}
    (hcalls : c'.calls = Function.update c.calls v (c.calls v ++ [x]))
    (happlied : c'.applied = c.applied) :
    L.calls (v, (c.calls v).length) = none ∧ Records c' w' p
      { L with calls := Function.update L.calls (v, (c.calls v).length) (some x.1) } := by
  have hnone : c.called (v, (c.calls v).length) = none := by
    rw [Cluster.called, List.getElem?_eq_none le_rfl, Option.map_none]
  refine ⟨h.calls ▸ hnone, ?_, h.chosen.imp_right fun ⟨T, hp⟩ => ⟨T, hp.extends hext⟩, h.length,
    fun j k hj => ?_, by rw [happlied]; exact h.done⟩
  · simp only [h.calls]
    funext k
    obtain ⟨u, i⟩ := k
    by_cases hu : u = v
    · subst hu
      rw [Cluster.called, hcalls]
      simp only [Function.update_self]
      by_cases hi : i = (c.calls u).length
      · subst hi
        rw [Function.update_self, List.getElem?_concat_length, Option.map_some]
      · rw [Function.update_of_ne (by simpa using hi), Cluster.called]
        rcases Nat.lt_or_gt_of_ne hi with hlt | hgt
        · rw [List.getElem?_append_left hlt]
        · have hlen : (c.calls u ++ [x]).length ≤ i := by
            rw [List.length_append, List.length_singleton]
            omega
          rw [List.getElem?_eq_none hlen, List.getElem?_eq_none (Nat.le_of_lt hgt)]
    · rw [Function.update_of_ne (by simp [hu]), Cluster.called, Cluster.called, hcalls]
      simp only [Function.update_of_ne hu]
  · obtain ⟨e, he, hcall⟩ := h.place j k hj
    refine ⟨e, he, ?_⟩
    rw [hcalls]
    by_cases hk : k.1 = v
    · rw [hk, Function.update_self]
      rw [hk] at hcall
      exact (List.getElem?_append_left (List.getElem?_eq_some_iff.mp hcall).1).trans hcall
    · rwa [Function.update_of_ne hk]

/-- An entry that is handed over. -/
theorem Records.hand (h : Records c w p L) (hext : w.Extends w') {v : ι} {x : ℕ × LogEntry}
    (hcalls : c'.calls = c.calls)
    (happlied : c'.applied = Function.update c.applied v (c.applied v ++ [x])) :
    Records c' w' p { L with done := Function.update L.done v (L.done v + 1) } := by
  have hcongr : Records { c with proposals := c'.proposals } w' p L := h.congr hext hcalls rfl
  refine ⟨hcongr.calls, hcongr.chosen, hcongr.length, hcongr.place, fun u => ?_⟩
  simp only [happlied]
  by_cases hu : u = v
  · subst hu
    rw [Function.update_self, Function.update_self, h.done, List.length_append,
      List.length_singleton]
  · rw [Function.update_of_ne hu, Function.update_of_ne hu, h.done]

omit [DecidableEq ι] in
/-- A call whose entry is at its index is in the history. -/
theorem Records.mem (h : Records c w p L) (hdistinct : Distinct c w) {v : ι} {i : ℕ}
    {x : LogEntry × ℕ} (hx : (c.calls v)[i]? = some x) (hpos : 0 < x.2)
    (hp : p[x.2 - 1]? = some x.1) : (v, i) ∈ L.history := by
  obtain ⟨k, hk, -, hcall⟩ := h.getElem? hp
  rw [Nat.sub_add_cancel hpos] at hcall
  have hsame := hdistinct.eq hcall (show (c.calls (v, i).1)[(v, i).2]? = some x from hx) rfl rfl
  exact hsame ▸ List.mem_of_getElem? hk

omit [DecidableEq ι] in
/-- The entry of a call that returned true is chosen at its index. -/
theorem Recorded.chosen_returned (h : Recorded cfg c w) {v : ι} {i : ℕ} (hret : c.Returned v i) :
    ∃ x T q, (c.calls v)[i]? = some x ∧ 0 < x.2 ∧ w.Chosen T q ∧ q[x.2 - 1]? = some x.1 := by
  obtain ⟨pr, hpr, hph⟩ := hret.exists
  have hmem := List.mem_of_getElem? hpr
  have hsim := h.sim.sim.proposal v pr hmem
  have hback := h.answers.backed v pr hmem
  rw [Proposal.Backed, hph] at hback
  obtain ⟨n, hindex, hanchored, Q, hQ, hstored⟩ := hback rfl
  have hpos := hsim.positive
  refine ⟨(pr.entry, pr.index), _, w.pre pr.entry.term n, ?_, hpos,
    ⟨_, le_rfl, n, Q, hQ.half, hstored, hanchored, List.prefix_rfl⟩, ?_⟩
  · rw [Cluster.calls, List.getElem?_map, hpr]
    rfl
  · rw [World.pre, List.getElem?_take_of_lt (by simp only; omega)]
    exact hsim.placed

/-- **A replicated ledger.** Every guarded action is matched by steps of the ledger that show the
same. -/
theorem ledger_simulates (cfg : Config ι) :
    Simulates (Cluster.lts cfg Guarded) Ledger.lts fun c L =>
      ∃ w p, Recorded cfg c w ∧ Records c w p L ∧ Answered c L := by
  refine ⟨?_, ?_⟩
  · rintro c rfl
    refine ⟨Ledger.init, rfl, World.init, [], .init cfg, ⟨?_, .inl rfl, rfl, fun j k hj => ?_,
      fun v => rfl⟩, fun v i hret => ?_⟩
    · funext k
      simp [Ledger.init, Cluster.called, Cluster.calls, Cluster.init]
    · simp [Ledger.init] at hj
    · obtain ⟨pr, hpr, -⟩ := hret.exists
      simp [Cluster.init] at hpr
  · rintro c o c' L ⟨w, p, hrec, h, hans⟩ ⟨a, hguarded, hstep, rfl⟩
    obtain ⟨w', hext, hrec'⟩ := hrec.step hguarded hstep
    have hseen := Cluster.seen_step hstep
    generalize Cluster.shown c c' a = o at hseen ⊢
    cases hseen with
    | @invoke v e hrole hterm hcalls hreturned happlied =>
      obtain ⟨hnew, h'⟩ := h.invoke hext hcalls happlied
      exact ⟨_, .single (.invoke hnew), w', p, hrec', h', fun u i hu => hans u i (hreturned u i hu)⟩
    | @respond v i hnow hcalls hreturned happlied =>
      -- what was acknowledged is chosen, and enters the history before the call returns
      obtain ⟨x, T, q, hx, hpos, hq, hget⟩ := hrec'.chosen_returned hnow
      obtain ⟨p', L', hmoves, h', hhist, hqp⟩ := (h.congr hext hcalls happlied).enter hrec' hq
      have hmem := h'.mem hrec'.distinct hx hpos (getElem?_of_isPrefix hqp hget)
      refine ⟨L', hmoves.step (.respond hmem), w', p', hrec', h', fun u j hu => ?_⟩
      rcases hreturned u j hu with hold | ⟨rfl, rfl⟩
      · exact hhist.subset (hans u j hold)
      · exact hmem
    | @hand v i e hheld hcalls hreturned happlied =>
      -- what is held is the next entry of a chosen list
      obtain ⟨T, q, hq, hpos, hget⟩ := hrec.answers.agreed.held v i e hheld
      obtain ⟨hi, -⟩ := (hrec.order v).holding i e hheld
      obtain ⟨p', L', hmoves, h', hhist, hqp⟩ := h.enter hrec hq
      obtain ⟨k, hk, hcall, -⟩ := h'.getElem? (getElem?_of_isPrefix hqp hget)
      have hdone : L'.done v = i - 1 := by
        rw [h'.done]
        omega
      exact ⟨_, hmoves.step (.hand (hdone ▸ hk) hcall), w', p', hrec', h'.hand hext hcalls happlied,
        fun u j hu => hhist.subset (hans u j (hreturned u j hu))⟩
    | silent hcalls hreturned happlied =>
      exact ⟨L, .refl, w', p, hrec', h.congr hext hcalls happlied,
        fun u i hu => hans u i (hreturned u i hu)⟩

/-! ## What is seen of a cluster -/

omit [Fintype ι] in
/-- A run shows something. -/
theorem Cluster.Runs.moves {P : Cluster ι → Action ι → Prop} (h : Cluster.Runs cfg P c c') :
    ∃ events, (Cluster.lts cfg P).Moves c events c' := by
  induction h with
  | start => exact ⟨[], .refl⟩
  | step a _ hP hstep ih =>
    obtain ⟨events, hmoves⟩ := ih
    exact ⟨_, hmoves.step ⟨a, hP, hstep, rfl⟩⟩

omit [Fintype ι] in
/-- What the nodes handed over was seen. -/
theorem Cluster.applied_eq_handed {P : Cluster ι → Action ι → Prop}
    {events : List (Ledger.Event ι (ι × ℕ) LogEntry)} (h : (Cluster.lts cfg P).Trace events c)
    (v : ι) : (c.applied v).map (·.2) = Ledger.handed v events := by
  refine h.invariant (I := fun events c => (c.applied v).map (·.2) = Ledger.handed v events) ?_ ?_
  · rintro c rfl
    rfl
  · rintro events c o c' ih ⟨a, -, hstep, rfl⟩
    have hseen := seen_step hstep
    rw [Ledger.handed_append, ← ih]
    generalize shown c c' a = o at hseen
    cases hseen with
    | invoke hrole hterm hcalls hreturned happlied =>
      rw [happlied]
      exact (List.append_nil _).symm
    | respond hnow hcalls hreturned happlied =>
      rw [happlied]
      exact (List.append_nil _).symm
    | silent hcalls hreturned happlied =>
      rw [happlied]
      exact (List.append_nil _).symm
    | @hand u i e hheld hcalls hreturned happlied =>
      rw [happlied]
      by_cases hu : v = u
      · subst hu
        simp [Ledger.handed]
      · simp [Ledger.handed, Function.update_of_ne hu, Ne.symm hu]

/-- What is seen of a guarded cluster, in whatever order its critical sections run and whatever
messages are lost, a replicated ledger can show, whose history has the calls that returned true
and begins, for every node, with what the node handed over. -/
theorem trace_ledger {cfg : Config ι} {c : Cluster ι}
    {events : List (Ledger.Event ι (ι × ℕ) LogEntry)}
    (h : (Cluster.lts cfg Guarded).Trace events c) :
    ∃ L, Ledger.lts.Trace events L ∧ (∀ v i, c.Returned v i → (v, i) ∈ L.history) ∧
      ∀ v, (c.applied v).map (·.2) = L.entries.take (c.applied v).length := by
  obtain ⟨L, hL, w, p, -, hrecords, hans⟩ := (ledger_simulates cfg).trace h
  refine ⟨L, hL, hans, fun v => ?_⟩
  rw [Cluster.applied_eq_handed h, ← hrecords.done]
  exact (Ledger.kept_of_trace hL).handed v

/-- The theorem at a put on node 0 that returned true and was applied there. -/
theorem trace_ledger_readPut :
    let c := (Cluster.init.run Config.three Guarded readPut).getD Cluster.init
    ∃ (events : List (Ledger.Event (Fin 3) (Fin 3 × ℕ) LogEntry)) (L : Ledger _ _ _),
      Ledger.lts.Trace events L ∧ (0, 0) ∈ L.history ∧
        (c.applied 0).map (·.2) = L.entries.take 1 := by
  intro c
  obtain ⟨events, hmoves⟩ :
      ∃ events, (Cluster.lts Config.three Guarded).Moves Cluster.init events c :=
    (Cluster.Runs.of_isSome (by decide +kernel)).moves
  obtain ⟨L, hL, hret, happlied⟩ := trace_ledger ⟨_, rfl, hmoves⟩
  have hlen : (c.applied 0).length = 1 := by decide +kernel
  exact ⟨events, L, hL, hret 0 0 (by rfl), hlen ▸ happlied 0⟩

omit [DecidableEq ι] in
/-- The call in the history stands at its index. -/
theorem Records.index (h : Records c w p L) {v : ι} {i : ℕ} {x : LogEntry × ℕ}
    (hmem : (v, i) ∈ L.history) (hx : (c.calls v)[i]? = some x) :
    0 < x.2 ∧ L.history[x.2 - 1]? = some (v, i) := by
  obtain ⟨j, hj⟩ := List.getElem?_of_mem hmem
  obtain ⟨e, -, hcall⟩ := h.place j _ hj
  rw [show (c.calls (v, i).1)[(v, i).2]? = some x from hx] at hcall
  obtain rfl := Option.some.inj hcall
  exact ⟨Nat.succ_pos j, hj⟩

/-- Whatever is applied at the index of a call in the history is its entry. -/
theorem Records.applied_eq (h : Records c w p L) (hrec : Recorded cfg c w) {v : ι} {i : ℕ}
    {x : LogEntry × ℕ} (hmem : (v, i) ∈ L.history) (hx : (c.calls v)[i]? = some x) {u : ι}
    {y : ℕ × LogEntry} (hy : y ∈ c.applied u) (hindex : y.1 = x.2) : y.2 = x.1 := by
  obtain ⟨hpos, hj⟩ := h.index hmem hx
  obtain ⟨e, he, hcall⟩ := h.place _ _ hj
  obtain rfl : x.1 = e := congrArg Prod.fst (Option.some.inj (hx.symm.trans hcall))
  have happlied := hrec.answers.agreed.applied u y hy
  rw [hindex] at happlied
  rcases h.chosen with rfl | ⟨T, hp⟩
  · simp at he
  · exact happlied.eq hrec.sim.sound ⟨T, p, hp, hpos, he⟩

omit [Fintype ι] in
/-- Calls stay. -/
theorem Cluster.Runs.calls_grow {P : Cluster ι → Action ι → Prop} (h : Cluster.Runs cfg P c c')
    (v : ι) : c.calls v <+: c'.calls v := by
  induction h with
  | start => exact List.prefix_rfl
  | step a _ _ hstep ih => exact ih.trans (Cluster.calls_grow hstep v)

/-- **Real-time order.** In every guarded run, a write that is called after another has returned
true, on whatever nodes, and returns true itself has the later index, and every node that applies
at these indices applies the two writes. -/
theorem realTimeOrder {cfg : Config ι} {c₁ c₂ : Cluster ι}
    (h₁ : Cluster.Runs cfg Guarded Cluster.init c₁) (h₂ : Cluster.Runs cfg Guarded c₁ c₂) {v u : ι}
    {pr₁ pr₂ : Proposal ι} (hpr₁ : pr₁ ∈ c₁.proposals v) (hret₁ : pr₁.phase = .returned true)
    {j : ℕ} (hnew : (c₁.proposals u).length ≤ j) (hpr₂ : (c₂.proposals u)[j]? = some pr₂)
    (hret₂ : pr₂.phase = .returned true) :
    pr₁.index < pr₂.index ∧ ∀ x, ∀ y ∈ c₂.applied x,
      (y.1 = pr₁.index → y.2 = pr₁.entry) ∧ (y.1 = pr₂.index → y.2 = pr₂.entry) := by
  obtain ⟨i, hi⟩ := List.getElem?_of_mem hpr₁
  obtain ⟨ev₁, hmoves₁⟩ := h₁.moves
  obtain ⟨ev₂, hmoves₂⟩ := h₂.moves
  have hsim := ledger_simulates (ι := ι) cfg
  obtain ⟨L₁, hL₁, w₁, p₁, hrec₁, hrecords₁, hans₁⟩ := hsim.trace ⟨_, rfl, hmoves₁⟩
  obtain ⟨L₂, hL₂, w₂, p₂, hrec₂, hrecords₂, hans₂⟩ :=
    hsim.moves hmoves₂ ⟨w₁, p₁, hrec₁, hrecords₁, hans₁⟩
  have hcalls₁ : (c₁.calls v)[i]? = some (pr₁.entry, pr₁.index) := by
    rw [Cluster.calls, List.getElem?_map, hi]
    rfl
  have hcalls₂ : (c₂.calls u)[j]? = some (pr₂.entry, pr₂.index) := by
    rw [Cluster.calls, List.getElem?_map, hpr₂]
    rfl
  have hkept : (c₂.calls v)[i]? = some (pr₁.entry, pr₁.index) :=
    getElem?_of_isPrefix (h₂.calls_grow v) hcalls₁
  -- the first call is in the history before the second is made
  have hmem₁ : (v, i) ∈ L₁.history := by
    refine hans₁ v i (Option.map_eq_some_iff.mpr ⟨pr₁, hi, hret₁⟩)
  have hmem₂ : (u, j) ∈ L₂.history := by
    refine hans₂ u j (Option.map_eq_some_iff.mpr ⟨pr₂, hpr₂, hret₂⟩)
  have hnot : (u, j) ∉ L₁.history := by
    intro hmem
    refine (Ledger.kept_of_trace hL₁).called _ hmem ?_
    rw [hrecords₁.calls, Cluster.called, List.getElem?_eq_none, Option.map_none]
    rwa [Cluster.calls, List.length_map]
  obtain ⟨r, hr⟩ := Ledger.history_prefix hL₂
  obtain ⟨hpos₁, hget₁⟩ := hrecords₁.index hmem₁ hcalls₁
  obtain ⟨hpos₂, hget₂⟩ := hrecords₂.index hmem₂ hcalls₂
  refine ⟨?_, fun x y hy => ⟨?_, ?_⟩⟩
  · have hlt : pr₁.index - 1 < L₁.history.length := (List.getElem?_eq_some_iff.mp hget₁).1
    have hge : L₁.history.length ≤ pr₂.index - 1 := by
      by_contra hin
      rw [← hr, List.getElem?_append_left (Nat.not_le.mp hin)] at hget₂
      exact hnot (List.mem_of_getElem? hget₂)
    simp only at hpos₁ hpos₂
    omega
  · exact hrecords₂.applied_eq hrec₂ (hr ▸ List.mem_append_left r hmem₁) hkept hy
  · exact hrecords₂.applied_eq hrec₂ hmem₂ hcalls₂ hy

end

/-- Node 0 led and had a put return true; then node 1 does. -/
def laterPut : List (Action (Fin 3)) :=
  electOne ++
    [.proposePut 1 (str "b") (str "2"), .proposalRead 1 0, .deliverProposal 1 0,
      .proposalReply 1 0, .proposalCommit 1 0, .loseNotify 1 0, .notifyReply 1 0, .loseNotify 1 0,
      .notifyReply 1 0]

/-- The theorem at these two puts. -/
theorem realTimeOrder_laterPut :
    let c₁ := (Cluster.init.run Config.three Guarded ackedPut).getD Cluster.init
    let c₂ := (c₁.run Config.three Guarded laterPut).getD c₁
    ∃ pr₁ ∈ c₁.proposals 0, ∃ pr₂ ∈ c₂.proposals 1, pr₁.index < pr₂.index := by
  intro c₁ c₂
  have hpr₁ : (⟨⟨1, .put, str "a", str "1"⟩, 1, .returned true⟩ : Proposal (Fin 3)) ∈
      c₁.proposals 0 := by decide +kernel
  have hpr₂ : (c₂.proposals 1)[0]? = some ⟨⟨2, .put, str "b", str "2"⟩, 2, .returned true⟩ := by
    decide +kernel
  have hnew : (c₁.proposals 1).length ≤ 0 := by decide +kernel
  have h₁ : Cluster.Runs Config.three Guarded Cluster.init c₁ := .of_isSome (by decide +kernel)
  have h₂ : Cluster.Runs Config.three Guarded c₁ c₂ := .of_isSome (by decide +kernel)
  have hlt := (realTimeOrder h₁ h₂ hpr₁ rfl hnew hpr₂ rfl).1
  exact ⟨_, hpr₁, _, List.mem_of_getElem? hpr₂, hlt⟩

end KvEngine
