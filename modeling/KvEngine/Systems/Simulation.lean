import Mathlib

/-!
# Systems, what they show, and simulations

A system takes steps, some of which show an event. A forward simulation matches every step
of a concrete system by some steps of an abstract one that show the same, so that whatever
the concrete system shows the abstract one can show.

Results:
* `Lts.Trace.invariant`: what the steps keep holds in every state of a run.
* `Simulates.trace`: a simulated system shows what the abstract one can.
-/

namespace Systems

variable {σ τ ε : Type*}

/-- A system: states to start in, and steps that may show an event. -/
structure Lts (σ ε : Type*) where
  start : σ → Prop
  step : σ → Option ε → σ → Prop

namespace Lts

/-- Steps from one state to another, and the events they showed. -/
inductive Moves (S : Lts σ ε) (s : σ) : List ε → σ → Prop where
  | refl : Moves S s [] s
  | step {shown : List ε} {s' s'' : σ} {o : Option ε} (h : Moves S s shown s')
      (hstep : S.step s' o s'') : Moves S s (shown ++ o.toList) s''

/-- A run from a start, and the events it showed. -/
def Trace (S : Lts σ ε) (shown : List ε) (s : σ) : Prop :=
  ∃ s₀, S.start s₀ ∧ S.Moves s₀ shown s

variable {S : Lts σ ε} {s s' s'' : σ} {shown shown' : List ε}

theorem Moves.single {o : Option ε} (h : S.step s o s') : S.Moves s o.toList s' := by
  simpa using Moves.step .refl h

theorem Moves.trans (h : S.Moves s shown s') (h' : S.Moves s' shown' s'') :
    S.Moves s (shown ++ shown') s'' := by
  induction h' with
  | refl => rwa [List.append_nil]
  | step _ hstep ih =>
    rw [← List.append_assoc]
    exact .step ih hstep

theorem Trace.moves (h : S.Trace shown s) (h' : S.Moves s shown' s') :
    S.Trace (shown ++ shown') s' := by
  obtain ⟨s₀, hstart, h⟩ := h
  exact ⟨s₀, hstart, h.trans h'⟩

/-- What relates the state to the events shown so far and is kept by every step holds in every
state of a run. -/
theorem Trace.invariant {I : List ε → σ → Prop} (hstart : ∀ s, S.start s → I [] s)
    (hkeep : ∀ shown s o s', I shown s → S.step s o s' → I (shown ++ o.toList) s')
    (h : S.Trace shown s) : I shown s := by
  obtain ⟨s₀, hs₀, h⟩ := h
  induction h with
  | refl => exact hstart s₀ hs₀
  | step _ hstep ih => exact hkeep _ _ _ _ ih hstep

end Lts

open Lts

/-- Every step of `C` is matched by steps of `A` that show the same. -/
structure Simulates (C : Lts σ ε) (A : Lts τ ε) (R : σ → τ → Prop) : Prop where
  start : ∀ c, C.start c → ∃ a, A.start a ∧ R c a
  step : ∀ c o c' a, R c a → C.step c o c' → ∃ a', A.Moves a o.toList a' ∧ R c' a'

namespace Simulates

variable {C : Lts σ ε} {A : Lts τ ε} {R : σ → τ → Prop} {shown : List ε} {c c' : σ}

theorem moves (h : Simulates C A R) (hmoves : C.Moves c shown c') {a : τ} (hR : R c a) :
    ∃ a', A.Moves a shown a' ∧ R c' a' := by
  induction hmoves with
  | refl => exact ⟨a, .refl, hR⟩
  | step _ hstep ih =>
    obtain ⟨a₁, h₁, hR₁⟩ := ih
    obtain ⟨a₂, h₂, hR₂⟩ := h.step _ _ _ _ hR₁ hstep
    exact ⟨a₂, h₁.trans h₂, hR₂⟩

/-- What the concrete system shows, the abstract one can show. -/
theorem trace (h : Simulates C A R) (htrace : C.Trace shown c) : ∃ a, A.Trace shown a ∧ R c a := by
  obtain ⟨c₀, hstart, hmoves⟩ := htrace
  obtain ⟨a₀, ha₀, hR₀⟩ := h.start c₀ hstart
  obtain ⟨a, ha, hR⟩ := h.moves hmoves hR₀
  exact ⟨a, ⟨a₀, ha₀, ha⟩, hR⟩

end Simulates

end Systems
