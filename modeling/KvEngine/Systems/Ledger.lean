import KvEngine.Systems.Simulation

/-!
# A ledger and its replicas

What a replicated log is for. Clients make calls and calls return; at some point between the
two the ledger enters the call, behind those it has. Replicas hand over what was called, each
of them in the order of the ledger and none of it twice.

Results:
* `Ledger.kept_of_trace`: no call is entered twice or before it was made, what has returned is
  entered, and every replica handed over a beginning of what is.
* `Ledger.history_prefix`: the ledger only grows, at its end.
-/

namespace Systems

/-! ## The ledger -/

variable {ι κ ε : Type*}

/-- The calls that were made, those that are entered, and how many of these each replica has
handed over. -/
structure Ledger (ι κ ε : Type*) where
  calls : κ → Option ε
  history : List κ
  done : ι → ℕ

namespace Ledger

/-- What can be seen: a call, its return, and what a replica hands over. -/
inductive Event (ι κ ε : Type*) where
  | invoke (k : κ) (e : ε)
  | respond (k : κ)
  | hand (v : ι) (e : ε)

/-- The ledger before any call. -/
def init : Ledger ι κ ε := ⟨fun _ => none, [], fun _ => 0⟩

/-- What was called, in the order of the ledger. -/
def entries (L : Ledger ι κ ε) : List ε := L.history.filterMap L.calls

section Steps

variable [DecidableEq ι] [DecidableEq κ]

/-- The steps of a ledger. -/
inductive Step (L : Ledger ι κ ε) : Option (Event ι κ ε) → Ledger ι κ ε → Prop where
  | invoke {k : κ} {e : ε} (hnew : L.calls k = none) :
    Step L (some (.invoke k e)) { L with calls := Function.update L.calls k (some e) }
  | enter {k : κ} (hcalled : L.calls k ≠ none) (hnew : k ∉ L.history) :
    Step L none { L with history := L.history ++ [k] }
  | respond {k : κ} (hentered : k ∈ L.history) : Step L (some (.respond k)) L
  | hand {v : ι} {k : κ} {e : ε} (hget : L.history[L.done v]? = some k)
      (hcall : L.calls k = some e) :
    Step L (some (.hand v e)) { L with done := Function.update L.done v (L.done v + 1) }

/-- The ledger as a system. -/
def lts : Lts (Ledger ι κ ε) (Event ι κ ε) := ⟨(· = init), Step⟩

/-- What the replica `v` handed over. -/
def handed (v : ι) (shown : List (Event ι κ ε)) : List ε :=
  shown.filterMap fun
    | .hand u e => if u = v then some e else none
    | _ => none

omit [DecidableEq κ] in
theorem handed_append (v : ι) (shown shown' : List (Event ι κ ε)) :
    handed v (shown ++ shown') = handed v shown ++ handed v shown' :=
  List.filterMap_append

/-- What holds of a ledger and of what was seen of it. -/
structure Kept (shown : List (Event ι κ ε)) (L : Ledger ι κ ε) : Prop where
  nodup : L.history.Nodup
  called : ∀ k ∈ L.history, L.calls k ≠ none
  invoked : ∀ k e, L.calls k = some e ↔ .invoke k e ∈ shown
  responded : ∀ k, .respond k ∈ shown → k ∈ L.history
  handed : ∀ v, handed v shown = L.entries.take (L.done v)
  done : ∀ v, L.done v ≤ L.history.length

variable {L L' : Ledger ι κ ε} {shown : List (Event ι κ ε)} {o : Option (Event ι κ ε)}

omit [DecidableEq ι] in
/-- A new call has no place in the ledger yet. -/
theorem entries_invoke {k : κ} {e : ε} (hk : k ∉ L.history) :
    entries { L with calls := Function.update L.calls k (some e) } = L.entries := by
  refine List.filterMap_congr fun k' hk' => ?_
  refine Function.update_of_ne ?_ _ _
  rintro rfl
  exact hk hk'

omit [DecidableEq ι] [DecidableEq κ] in
/-- Every place of the ledger has an entry. -/
theorem length_entries (hcalled : ∀ k ∈ L.history, L.calls k ≠ none) :
    L.entries.length = L.history.length ∧
      ∀ (i : ℕ) (k : κ), L.history[i]? = some k → L.entries[i]? = L.calls k := by
  unfold entries
  generalize L.history = ks at hcalled ⊢
  induction ks with
  | nil => exact ⟨rfl, by simp⟩
  | cons k ks ih =>
    obtain ⟨e, he⟩ := Option.ne_none_iff_exists'.mp (hcalled k List.mem_cons_self)
    obtain ⟨hlen, hget⟩ := ih fun k' hk' => hcalled k' (List.mem_cons_of_mem k hk')
    rw [List.filterMap_cons_some he]
    refine ⟨congrArg (· + 1) hlen, fun i k' hi => ?_⟩
    cases i with
    | zero =>
      obtain rfl : k = k' := by simpa using hi
      exact he.symm
    | succ i => exact hget i k' hi

omit [DecidableEq κ] in
theorem Kept.init : Kept [] (init : Ledger ι κ ε) where
  nodup := List.nodup_nil
  called k hk := by simp [Ledger.init] at hk
  invoked k e := by simp [Ledger.init]
  responded k h := by simp at h
  handed v := rfl
  done v := le_rfl

theorem Kept.step (h : Kept shown L) (hstep : Step L o L') : Kept (shown ++ o.toList) L' := by
  obtain ⟨hlen, hentry⟩ := length_entries h.called
  cases hstep with
  | @invoke k e hnew =>
    have hk : k ∉ L.history := fun hk => h.called k hk hnew
    refine ⟨h.nodup, fun k' hk' => ?_, fun k' e' => ?_, fun k' hk' => ?_, fun v => ?_, h.done⟩
    · have hne : k' ≠ k := by
        rintro rfl
        exact hk hk'
      simp only [ne_eq, Function.update_of_ne hne]
      exact h.called k' hk'
    · by_cases heq : k' = k
      · subst heq
        have hno : ∀ e, Event.invoke k' e ∉ shown := fun e he => by
          rw [← h.invoked, hnew] at he
          simp at he
        simp [hno, eq_comm]
      · simp [h.invoked, heq]
    · exact h.responded k' (by simpa using hk')
    · rw [handed_append, h.handed v, entries_invoke hk]
      exact List.append_nil _
  | @enter k hcalled hnew =>
    obtain ⟨e, he⟩ := Option.ne_none_iff_exists'.mp hcalled
    have hentries : entries { L with history := L.history ++ [k] } = L.entries ++ [e] := by
      simp [entries, List.filterMap_append, he]
    simp only [Option.toList_none, List.append_nil]
    refine ⟨?_, fun k' hk' => ?_, h.invoked, fun k' hk' => ?_, fun v => ?_, fun v => ?_⟩
    · exact List.nodup_append.mpr ⟨h.nodup, List.nodup_singleton k, fun a ha b hb heq =>
        hnew (List.mem_singleton.mp hb ▸ heq ▸ ha)⟩
    · rcases List.mem_append.mp hk' with hk' | hk'
      · exact h.called k' hk'
      · rwa [List.mem_singleton.mp hk']
    · exact List.mem_append_left _ (h.responded k' hk')
    · rw [hentries, List.take_append_of_le_length (by rw [hlen]; exact h.done v), h.handed v]
    · rw [List.length_append]
      exact (h.done v).trans (Nat.le_add_right _ _)
  | @respond k hentered =>
    refine ⟨h.nodup, h.called, fun k' e' => ?_, fun k' hk' => ?_, fun v => ?_, h.done⟩
    · simp [h.invoked]
    · simp only [Option.toList_some, List.mem_append, List.mem_singleton,
        Event.respond.injEq] at hk'
      rcases hk' with hk' | rfl
      · exact h.responded k' hk'
      · exact hentered
    · rw [handed_append, h.handed v]
      exact List.append_nil _
  | @hand v k e hget hcall =>
    have hlt : L.done v < L.history.length := (List.getElem?_eq_some_iff.mp hget).1
    have hnext : L.entries[L.done v]? = some e := (hentry _ _ hget).trans hcall
    refine ⟨h.nodup, h.called, fun k' e' => ?_, fun k' hk' => ?_, fun u => ?_, fun u => ?_⟩
    · simp [h.invoked]
    · exact h.responded k' (by simpa using hk')
    · rw [handed_append, h.handed u]
      by_cases hu : u = v
      · subst hu
        show _ = L.entries.take (Function.update L.done u (L.done u + 1) u)
        rw [Function.update_self, List.take_add_one, hnext]
        simp [Ledger.handed]
      · show _ = L.entries.take (Function.update L.done v (L.done v + 1) u)
        rw [Function.update_of_ne hu]
        simp [Ledger.handed, Ne.symm hu]
    · by_cases hu : u = v
      · subst hu
        simpa using hlt
      · simpa [Function.update_of_ne hu] using h.done u

/-- The history only grows. -/
theorem history_prefix (h : lts.Moves L shown L') : L.history <+: L'.history := by
  induction h with
  | refl => exact List.prefix_rfl
  | step _ hstep ih =>
    cases hstep with
    | invoke => exact ih
    | enter => exact ih.trans (List.prefix_append _ _)
    | respond => exact ih
    | hand => exact ih

theorem kept_of_trace (h : lts.Trace shown L) : Kept shown L := by
  refine h.invariant ?_ fun shown L o L' hkept hstep => hkept.step hstep
  rintro L rfl
  exact .init

end Steps

end Ledger

end Systems
