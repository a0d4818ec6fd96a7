import KvEngine.Systems.Simulation

/-!
# Threads on one object

Threads make calls on a shared state; a call is a program whose steps take turns with those
of the others. The object they are meant to share lets every call act at one moment between
its call and its return, and knows what a crash would leave of it: one of its states since
the last sync. That the programs come to this is proved one program at a time, over worlds
that hold what no thread ever takes back.

Results:
* `Modular.simulates`: programs proved one at a time share a durable object.
* `Modular.trace`: what is seen of them can be seen of that object.
-/

namespace Systems

variable {ι σ α γ ρ π ω : Type*}

/-! ## The object -/

/-- What is seen of threads: calls and their replies. -/
inductive CallEvent (ι γ ρ : Type*) where
  | call (i : ι) (c : γ)
  | reply (i : ι) (r : ρ)

/-- What calls make of an object, the reply to a call that acted on a state and to one that
only looked at some states, and the calls that a crash cannot undo once they have returned. -/
structure Spec (α γ ρ : Type*) where
  init : α
  apply : γ → α → α
  answers : γ → α → ρ → Prop
  looks : γ → Set α → ρ → Prop
  lasts : γ → Prop

/-- A call that has not returned: the state it acted on, once it has, whether a sync came
after that, and the states the object has been in since the call. -/
structure Pending (α γ : Type*) where
  call : γ
  acted : Option α
  kept : Bool
  saw : Set α

namespace Pending

/-- A call that was just made. -/
def new (c : γ) (a : α) : Pending α γ := ⟨c, none, false, {a}⟩

/-- The object comes to a state. -/
def see (q : Pending α γ) (a : α) : Pending α γ := { q with saw := insert a q.saw }

/-- The call acts. -/
def act (q : Pending α γ) (a : α) : Pending α γ := { q with acted := some a }

/-- There is a sync. -/
def keep (q : Pending α γ) : Pending α γ := { q with kept := q.kept || q.acted.isSome }

/-- Later, when the others have acted and synced. -/
structure Grows (q q' : Pending α γ) : Prop where
  call : q'.call = q.call
  acted : q'.acted = q.acted
  kept : q.kept = true → q'.kept = true
  saw : q.saw ⊆ q'.saw

variable {q q' q'' : Pending α γ}

theorem Grows.refl (q : Pending α γ) : q.Grows q := ⟨rfl, rfl, fun h => h, subset_rfl⟩

theorem Grows.trans (h : q.Grows q') (h' : q'.Grows q'') : q.Grows q'' :=
  ⟨h'.call.trans h.call, h'.acted.trans h.acted, fun hk => h'.kept (h.kept hk),
    h.saw.trans h'.saw⟩

theorem grows_see (q : Pending α γ) (a : α) : q.Grows (q.see a) :=
  ⟨rfl, rfl, fun h => h, Set.subset_insert a q.saw⟩

theorem kept_keep {a : α} (h : q.acted = some a) : q.keep.kept = true := by
  simp [keep, h]

theorem grows_keep (q : Pending α γ) : q.Grows q.keep :=
  ⟨rfl, rfl, fun h => by simp [keep, h], subset_rfl⟩

end Pending

namespace Spec

/-- The replies a pending call may get. -/
def Allows (S : Spec α γ ρ) (q : Pending α γ) (r : ρ) : Prop :=
  match q.acted with
  | some a => S.answers q.call a r ∧ (S.lasts q.call → q.kept = true)
  | none => S.looks q.call q.saw r

variable {S : Spec α γ ρ} {q q' : Pending α γ} {r : ρ}

theorem Allows.of_acted {a : α} (hacted : q.acted = some a) (h : S.answers q.call a r)
    (hkept : S.lasts q.call → q.kept = true) : S.Allows q r := by
  unfold Allows
  rw [hacted]
  exact ⟨h, hkept⟩

theorem Allows.of_looks (hacted : q.acted = none) (h : S.looks q.call q.saw r) :
    S.Allows q r := by
  unfold Allows
  rwa [hacted]

/-- A reply that is allowed stays so if looking at more states does no harm. -/
theorem Allows.grows (hlooks : ∀ c saw saw' r, S.looks c saw r → saw ⊆ saw' → S.looks c saw' r)
    (h : S.Allows q r) (hq : q.Grows q') : S.Allows q' r := by
  unfold Allows at h ⊢
  rw [hq.acted, hq.call]
  cases hacted : q.acted with
  | some a =>
    rw [hacted] at h
    exact ⟨h.1, fun hlasts => hq.kept (h.2 hlasts)⟩
  | none =>
    rw [hacted] at h
    exact hlooks _ _ _ _ h hq.saw

end Spec

/-- An object, the states a crash may leave it in, and the calls that are pending on it. -/
structure Durable (ι α γ : Type*) where
  state : α
  fallback : Set α
  pending : ι → Option (Pending α γ)

section Steps

variable [DecidableEq ι]

/-- A call acts once, between its call and its reply. Behind a sync a crash undoes nothing of
what was done before. -/
inductive Durable.Step (S : Spec α γ ρ) (a : Durable ι α γ) :
    Option (CallEvent ι γ ρ) → Durable ι α γ → Prop where
  | call {i : ι} {c : γ} (hidle : a.pending i = none) :
      Step S a (some (.call i c))
        { a with pending := Function.update a.pending i (some (.new c a.state)) }
  | act {i : ι} {q : Pending α γ} (hq : a.pending i = some q) (hnot : q.acted = none) :
      Step S a none {
        state := S.apply q.call a.state
        fallback := insert (S.apply q.call a.state) a.fallback
        pending := fun j => (Function.update a.pending i (some (q.act a.state)) j).map
          (·.see (S.apply q.call a.state)) }
  | sync :
      Step S a none { a with
        fallback := {a.state}
        pending := fun j => (a.pending j).map (·.keep) }
  | reply {i : ι} {q : Pending α γ} {r : ρ} (hq : a.pending i = some q) (hr : S.Allows q r) :
      Step S a (some (.reply i r)) { a with pending := Function.update a.pending i none }

/-- The object as a system. -/
def Spec.lts (S : Spec α γ ρ) : Lts (Durable ι α γ) (CallEvent ι γ ρ) :=
  ⟨(· = ⟨S.init, {S.init}, fun _ => none⟩), Durable.Step S⟩

/-! ## Threads -/

/-- Programs on a shared state, and which call may be made after which others. -/
structure Code (σ γ ρ π : Type*) where
  start : σ → Prop
  admits : List γ → γ → Prop
  prog : γ → π
  step : σ → π → σ → π → Prop
  returns : π → ρ → Prop

/-- The shared state, the calls made so far, and what is left of the programs that run. -/
structure Threads (ι σ γ π : Type*) where
  shared : σ
  made : List γ
  running : ι → Option π

/-- A thread makes a call, takes a step of its program, or returns. -/
inductive Threads.Step (P : Code σ γ ρ π) (t : Threads ι σ γ π) :
    Option (CallEvent ι γ ρ) → Threads ι σ γ π → Prop where
  | call {i : ι} {c : γ} (hidle : t.running i = none) (hc : P.admits t.made c) :
      Step P t (some (.call i c)) { t with
        made := c :: t.made
        running := Function.update t.running i (some (P.prog c)) }
  | run {i : ι} {p p' : π} {u : σ} (hp : t.running i = some p)
      (hstep : P.step t.shared p u p') :
      Step P t none { t with
        shared := u
        running := Function.update t.running i (some p') }
  | reply {i : ι} {p : π} {r : ρ} (hp : t.running i = some p) (hr : P.returns p r) :
      Step P t (some (.reply i r)) { t with running := Function.update t.running i none }

/-- The threads as a system. -/
def Code.lts (P : Code σ γ ρ π) : Lts (Threads ι σ γ π) (CallEvent ι γ ρ) :=
  ⟨fun t => P.start t.shared ∧ t.made = [] ∧ ∀ i, t.running i = none, Threads.Step P⟩

end Steps

/-! ## One program at a time -/

/-- A call goes on: the object stays what it is, or the call acts, or there is a sync. -/
def Proceeds [LE ω] (S : Spec α γ ρ) (Inv : ω → α → Set α → Prop) (w : ω) (q : Pending α γ)
    (a : α) (F : Set α) (Next : ω → Pending α γ → Prop) : Prop :=
  ∃ w', w ≤ w' ∧ ((Inv w' a F ∧ Next w' q) ∨
    (q.acted = none ∧ Inv w' (S.apply q.call a) (insert (S.apply q.call a) F) ∧
      Next w' ((q.act a).see (S.apply q.call a))) ∨
    (Inv w' a {a} ∧ Next w' q.keep))

theorem Proceeds.imp [LE ω] {S : Spec α γ ρ} {Inv : ω → α → Set α → Prop} {w : ω}
    {q : Pending α γ} {a : α} {F : Set α} {Next Next' : ω → Pending α γ → Prop}
    (h : Proceeds S Inv w q a F Next) (hnext : ∀ w' q', Next w' q' → Next' w' q') :
    Proceeds S Inv w q a F Next' := by
  obtain ⟨w', hw, hgoes⟩ := h
  refine ⟨w', hw, ?_⟩
  rcases hgoes with ⟨hinv, hn⟩ | ⟨hnot, hinv, hn⟩ | ⟨hinv, hn⟩
  · exact .inl ⟨hinv, hnext _ _ hn⟩
  · exact .inr (.inl ⟨hnot, hinv, hnext _ _ hn⟩)
  · exact .inr (.inr ⟨hinv, hnext _ _ hn⟩)

/-- A proof that the programs share the object. Worlds grow; `Inv` says what the shared state,
and what a crash may leave of it, holds in a world, and `Safe` what a program relies on and
still does. What a program relies on must be there in all larger worlds, whatever the others
did to get there. -/
structure Modular (P : Code σ γ ρ π) (S : Spec α γ ρ) (ω : Type*) [Preorder ω] where
  Inv : List γ → σ → ω → α → Set α → Prop
  Safe : π → ω → Pending α γ → Prop
  start : ∀ s, P.start s → ∃ w, Inv [] s w S.init {S.init}
  call : ∀ made s w a F c, Inv made s w a F → P.admits made c →
    ∃ w', w ≤ w' ∧ Inv (c :: made) s w' a F ∧ Safe (P.prog c) w' (.new c a)
  mono : ∀ p w w' q q', Safe p w q → w ≤ w' → q.Grows q' → Safe p w' q'
  step : ∀ made s w a F p q s' p', Inv made s w a F → a ∈ q.saw → Safe p w q →
    P.step s p s' p' → Proceeds S (Inv made s') w q a F (Safe p')
  reply : ∀ p w q r, Safe p w q → P.returns p r → S.Allows q r

namespace Modular

variable [Preorder ω] {P : Code σ γ ρ π} {S : Spec α γ ρ} (M : Modular P S ω)

/-- A program and its pending call. -/
def Serves (w : ω) (a : α) (p : π) (q : Pending α γ) : Prop := a ∈ q.saw ∧ M.Safe p w q

/-- Each thread is safe in a world in which the invariant holds. -/
def Related (t : Threads ι σ γ π) (o : Durable ι α γ) : Prop :=
  ∃ w, M.Inv t.made t.shared w o.state o.fallback ∧
    ∀ i, Option.Rel (M.Serves w o.state) (t.running i) (o.pending i)

variable {M} {w w' : ω} {a a' : α} {p : π} {q : Pending α γ}

theorem Serves.mono (h : M.Serves w a p q) (hw : w ≤ w') : M.Serves w' a p q :=
  ⟨h.1, M.mono _ _ _ _ _ h.2 hw (.refl q)⟩

theorem Serves.see (h : M.Serves w a p q) (hw : w ≤ w') : M.Serves w' a' p (q.see a') :=
  ⟨Set.mem_insert a' q.saw, M.mono _ _ _ _ _ h.2 hw (q.grows_see a')⟩

theorem Serves.keep (h : M.Serves w a p q) (hw : w ≤ w') : M.Serves w' a p q.keep :=
  ⟨h.1, M.mono _ _ _ _ _ h.2 hw q.grows_keep⟩

theorem rel_mono {op : Option π} {oq : Option (Pending α γ)}
    (h : Option.Rel (M.Serves w a) op oq) (hw : w ≤ w') : Option.Rel (M.Serves w' a) op oq := by
  cases h with
  | some h => exact .some (h.mono hw)
  | none => exact .none

theorem rel_see {op : Option π} {oq : Option (Pending α γ)}
    (h : Option.Rel (M.Serves w a) op oq) (hw : w ≤ w') :
    Option.Rel (M.Serves w' a') op (oq.map (·.see a')) := by
  cases h with
  | some h => exact .some (h.see hw)
  | none => exact .none

theorem rel_keep {op : Option π} {oq : Option (Pending α γ)}
    (h : Option.Rel (M.Serves w a) op oq) (hw : w ≤ w') :
    Option.Rel (M.Serves w' a) op (oq.map (·.keep)) := by
  cases h with
  | some h => exact .some (h.keep hw)
  | none => exact .none

/-- One thread and its call changed. -/
theorem rel_update [DecidableEq ι] {R : π → Pending α γ → Prop} {f : ι → Option π}
    {g : ι → Option (Pending α γ)} {i : ι} {op : Option π} {oq : Option (Pending α γ)}
    (hi : Option.Rel R op oq) (hj : ∀ j, j ≠ i → Option.Rel R (f j) (g j)) (j : ι) :
    Option.Rel R (Function.update f i op j) (Function.update g i oq j) := by
  by_cases h : j = i
  · subst h
    rwa [Function.update_self, Function.update_self]
  · rw [Function.update_of_ne h, Function.update_of_ne h]
    exact hj j h

variable [DecidableEq ι] {t t' : Threads ι σ γ π} {o : Durable ι α γ} {i : ι}

theorem Related.call (h : M.Related t o) {c : γ} (hidle : t.running i = none)
    (hc : P.admits t.made c) :
    ∃ o', (S.lts (ι := ι)).Moves o [.call i c] o' ∧ M.Related { t with
      made := c :: t.made
      running := Function.update t.running i (some (P.prog c)) } o' := by
  obtain ⟨w, hinv, hrel⟩ := h
  obtain ⟨w', hw, hinv', hsafe⟩ := M.call _ _ _ _ _ _ hinv hc
  have hidle' : o.pending i = none := by
    have hi := hrel i
    rw [hidle] at hi
    generalize o.pending i = oq at hi
    cases hi
    rfl
  have hstep : Durable.Step S o (some (.call i c)) _ := .call hidle'
  refine ⟨_, Lts.Moves.single (S := S.lts) hstep, w', hinv', ?_⟩
  exact rel_update (.some ⟨Set.mem_singleton o.state, hsafe⟩) fun j _ => rel_mono (hrel j) hw

theorem Related.run (h : M.Related t o) {p p' : π} {s' : σ} (hp : t.running i = some p)
    (hstep : P.step t.shared p s' p') :
    ∃ o', (S.lts (ι := ι)).Moves o [] o' ∧ M.Related { t with
      shared := s'
      running := Function.update t.running i (some p') } o' := by
  obtain ⟨w, hinv, hrel⟩ := h
  have hi := hrel i
  rw [hp] at hi
  generalize hq : o.pending i = oq at hi
  cases hi with
  | @some _ q hserves =>
    obtain ⟨hsaw, hsafe⟩ := hserves
    obtain ⟨w', hw, ⟨hinv', hnext⟩ | ⟨hnot, hinv', hnext⟩ | ⟨hinv', hnext⟩⟩ :=
      M.step _ _ _ _ _ _ _ _ _ hinv hsaw hsafe hstep
    · -- the object is left as it is
      refine ⟨o, .refl, w', hinv', ?_⟩
      rw [← Function.update_eq_self i o.pending, hq]
      exact rel_update (.some ⟨hsaw, hnext⟩) fun j _ => rel_mono (hrel j) hw
    · -- the call acts
      have hact : Durable.Step S o none _ := .act hq hnot
      refine ⟨_, Lts.Moves.single (S := S.lts) hact, w', hinv', fun j => ?_⟩
      by_cases hj : j = i
      · subst hj
        simp only [Function.update_self, Option.map_some]
        exact .some ⟨Set.mem_insert _ _, hnext⟩
      · simp only [Function.update_of_ne hj]
        exact rel_see (hrel j) hw
    · -- there is a sync
      have hsync : Durable.Step S o none _ := .sync
      refine ⟨_, Lts.Moves.single (S := S.lts) hsync, w', hinv', fun j => ?_⟩
      by_cases hj : j = i
      · subst hj
        simp only [Function.update_self, hq, Option.map_some]
        exact .some ⟨hsaw, hnext⟩
      · simp only [Function.update_of_ne hj]
        exact rel_keep (hrel j) hw

theorem Related.reply (h : M.Related t o) {p : π} {r : ρ} (hp : t.running i = some p)
    (hr : P.returns p r) :
    ∃ o', (S.lts (ι := ι)).Moves o [.reply i r] o' ∧
      M.Related { t with running := Function.update t.running i none } o' := by
  obtain ⟨w, hinv, hrel⟩ := h
  have hi := hrel i
  rw [hp] at hi
  generalize hq : o.pending i = oq at hi
  cases hi with
  | @some _ q hserves =>
    have hstep : Durable.Step S o (some (.reply i r)) _ :=
      .reply hq (M.reply _ _ _ _ hserves.2 hr)
    refine ⟨_, Lts.Moves.single (S := S.lts) hstep, w, hinv, ?_⟩
    exact rel_update .none fun j _ => hrel j

/-- **Threads on a durable object.** Programs proved one at a time share it. -/
theorem simulates (M : Modular P S ω) :
    Simulates (P.lts (ι := ι)) S.lts (M.Related (ι := ι)) where
  start t ht := by
    obtain ⟨hstart, hmade, hidle⟩ := ht
    obtain ⟨w, hinv⟩ := M.start _ hstart
    refine ⟨_, rfl, w, hmade ▸ hinv, fun i => ?_⟩
    rw [hidle i]
    exact .none
  step t e t' o hrel hstep := by
    cases hstep with
    | call hidle hc => exact hrel.call hidle hc
    | run hp hstep => exact hrel.run hp hstep
    | reply hp hr => exact hrel.reply hp hr

/-- What is seen of the threads can be seen of the object. -/
theorem trace (M : Modular P S ω) {shown : List (CallEvent ι γ ρ)}
    (h : (P.lts (ι := ι)).Trace shown t) : ∃ o, (S.lts (ι := ι)).Trace shown o := by
  obtain ⟨o, ho, -⟩ := M.simulates.trace h
  exact ⟨o, ho⟩

end Modular

end Systems
