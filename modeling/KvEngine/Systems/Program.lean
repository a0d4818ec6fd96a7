import Mathlib

/-!
# Programs that ask

A thread that uses something shared is a program that asks and goes on with the answer. What it
asked and was answered so far is its transcript.

Results:
* `Prog.meets_bind`: one program after the other.
* `Prog.Meets.of_leads`: a program that meets its conditions against whatever answers are to be
  expected meets them after every transcript of such answers.
-/

namespace Systems

/-- A program with questions `Q`, to each of which there are the answers `A`. -/
inductive Prog (Q : Type) (A : Q → Type) (α : Type) where
  | done (a : α)
  | ask (q : Q) (next : A q → Prog Q A α)

namespace Prog

variable {Q : Type} {A : Q → Type} {α β : Type}

/-- One program after the other. -/
def bind (f : α → Prog Q A β) : Prog Q A α → Prog Q A β
  | done a => f a
  | ask q next => .ask q fun a => (next a).bind f

instance : Monad (Prog Q A) where
  pure := done
  bind p f := p.bind f

/-- One question. -/
def query (q : Q) : Prog Q A (A q) := .ask q .done

/-- A question and its answer. -/
abbrev Reply (Q : Type) (A : Q → Type) := Σ q, A q

/-- What is left of a program after a transcript. -/
inductive Leads (p : Prog Q A α) : List (Reply Q A) → Prog Q A α → Prop where
  | refl : Leads p [] p
  | ask {ts : List (Reply Q A)} {q : Q} {next : A q → Prog Q A α} (h : Leads p ts (.ask q next))
      (a : A q) : Leads p (ts ++ [⟨q, a⟩]) (next a)

/-- While the answers are to be expected, the program asks what it may and ends with what it
should. -/
def Meets (may : Q → Prop) (expected : ∀ q, A q → Prop) (should : α → Prop) : Prog Q A α → Prop
  | done a => should a
  | ask q next => may q ∧ ∀ a, expected q a → (next a).Meets may expected should

section

variable {may : Q → Prop} {expected : ∀ q, A q → Prop} {should : α → Prop} {goal : β → Prop}
  {p p' : Prog Q A α} {f : α → Prog Q A β} {q : Q}

@[simp] theorem meets_pure {a : α} :
    (pure a : Prog Q A α).Meets may expected should ↔ should a := Iff.rfl

@[simp] theorem meets_query {next : A q → Prop} :
    (query q).Meets may expected next ↔ may q ∧ ∀ a, expected q a → next a := Iff.rfl

theorem meets_bind :
    (p >>= f).Meets may expected goal ↔
      p.Meets may expected fun a => (f a).Meets may expected goal := by
  show (p.bind f).Meets may expected goal ↔ _
  induction p with
  | done a => exact Iff.rfl
  | ask q next ih => exact and_congr_right fun _ => forall₂_congr fun a _ => ih a

/-- Transcripts of expected answers. -/
theorem Meets.of_leads (h : p.Meets may expected should) {ts : List (Reply Q A)}
    (hleads : p.Leads ts p') (hts : ∀ t ∈ ts, expected t.1 t.2) :
    p'.Meets may expected should ∧ ∀ t ∈ ts, may t.1 := by
  induction hleads with
  | refl => exact ⟨h, fun t ht => by simp at ht⟩
  | @ask ts q next hprev a ih =>
    obtain ⟨hmeets, hmay⟩ := ih fun t ht => hts t (List.mem_append_left _ ht)
    refine ⟨hmeets.2 a (hts ⟨q, a⟩ (List.mem_append_right _ (List.mem_singleton_self _))), ?_⟩
    intro t ht
    rcases List.mem_append.mp ht with ht | ht
    · exact hmay t ht
    · rw [List.mem_singleton.mp ht]
      exact hmeets.1

/-- A program that has ended. -/
theorem Meets.result (h : p.Meets may expected should) {ts : List (Reply Q A)} {a : α}
    (hleads : p.Leads ts (.done a)) (hts : ∀ t ∈ ts, expected t.1 t.2) : should a :=
  (h.of_leads hleads hts).1

end

/-! ## Counting questions -/

/-- However it goes, the program asks at most `n` of these questions. -/
def AtMost (f : Q → Bool) : Prog Q A α → ℕ → Prop
  | done _, _ => True
  | ask q next, n => (f q = true → 0 < n) ∧ ∀ a, (next a).AtMost f (if f q = true then n - 1 else n)

section

variable {f : Q → Bool} {p p' : Prog Q A α} {g : α → Prog Q A β} {m n : ℕ}

theorem AtMost.mono (h : p.AtMost f m) (hmn : m ≤ n) : p.AtMost f n := by
  induction p generalizing m n with
  | done a => trivial
  | ask q next ih =>
    refine ⟨fun hq => (h.1 hq).trans_le hmn, fun a => ih a (h.2 a) ?_⟩
    split_ifs <;> omega

/-- A program that asks none of them. -/
theorem AtMost.of_meets {expected : ∀ q, A q → Prop} {should : α → Prop}
    (h : p.Meets (fun q => f q = false) expected should) (hall : ∀ q a, expected q a) (n : ℕ) :
    p.AtMost f n := by
  induction p with
  | done a => trivial
  | ask q next ih =>
    refine ⟨fun hq => by simp [h.1] at hq, fun a => ?_⟩
    rw [if_neg (by simp [h.1])]
    exact ih a (h.2 a (hall q a))

theorem AtMost.bind (h : p.AtMost f m) (hg : ∀ a, (g a).AtMost f n) :
    (p >>= g).AtMost f (m + n) := by
  show (p.bind g).AtMost f (m + n)
  induction p generalizing m with
  | done a => exact (hg a).mono (Nat.le_add_left _ _)
  | ask q next ih =>
    refine ⟨fun hq => Nat.add_pos_left (h.1 hq) n, fun a => (ih a (h.2 a)).mono ?_⟩
    split_ifs with hq
    · have hpos := h.1 hq
      omega
    · exact le_rfl

theorem AtMost.of_leads (h : p.AtMost f n) {ts : List (Reply Q A)} (hleads : p.Leads ts p') :
    (ts.countP fun t => f t.1) ≤ n ∧ p'.AtMost f (n - ts.countP fun t => f t.1) := by
  induction hleads with
  | refl => exact ⟨Nat.zero_le n, h⟩
  | @ask ts q next hprev a ih =>
    obtain ⟨hle, hask⟩ := ih
    have hnext := hask.2 a
    rw [List.countP_append, List.countP_singleton]
    split_ifs at hnext ⊢ with hq
    · have hpos := hask.1 hq
      rw [Nat.sub_sub] at hnext
      exact ⟨by omega, hnext⟩
    · exact ⟨hle, hnext⟩

end

end Prog

end Systems
