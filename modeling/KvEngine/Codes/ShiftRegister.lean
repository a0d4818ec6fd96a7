import Mathlib

/-!
# Shift registers with feedback

A register of `w` bits moves towards its low end; the bit that leaves it feeds back through
the polynomial `g`. A symbol of `d` bits is added at the low end, and `d` shifts absorb it.
Shifts are linear, and if the top bit of `g` is set they can be undone: symbols that fit
the register together are absorbed without loss.

Results:
* `absorb_window_ne`: messages that differ only within symbols of together at most `w` bits
  leave different registers.
* `absorb_check`: what a message followed by the symbols of a whole register leaves.
* `clock_eq_low`: the step of a table-driven implementation.
-/

namespace KvEngine.ShiftRegister

variable {w d : ℕ} {g : BitVec w}

/-! ## Shifts -/

/-- One shift. -/
def shift (g x : BitVec w) : BitVec w := if x.getLsbD 0 then g ^^^ (x >>> 1) else x >>> 1

/-- `n` shifts. -/
def clock (g : BitVec w) : ℕ → BitVec w → BitVec w
  | 0, x => x
  | n + 1, x => clock g n (shift g x)

theorem xor_xor_xor_cancel (g x y : BitVec w) : (g ^^^ x) ^^^ (g ^^^ y) = x ^^^ y := by
  rw [BitVec.xor_assoc, BitVec.xor_comm x, BitVec.xor_assoc g y x, ← BitVec.xor_assoc g g,
    BitVec.xor_self, BitVec.zero_xor, BitVec.xor_comm]

theorem shift_xor (g x y : BitVec w) : shift g (x ^^^ y) = shift g x ^^^ shift g y := by
  unfold shift
  rw [BitVec.getLsbD_xor, BitVec.ushiftRight_xor_distrib]
  cases x.getLsbD 0 with
  | false =>
    cases y.getLsbD 0 with
    | false => rfl
    | true =>
      show g ^^^ (x >>> 1 ^^^ y >>> 1) = x >>> 1 ^^^ (g ^^^ y >>> 1)
      rw [← BitVec.xor_assoc, BitVec.xor_comm g, BitVec.xor_assoc]
  | true =>
    cases y.getLsbD 0 with
    | false =>
      show g ^^^ (x >>> 1 ^^^ y >>> 1) = (g ^^^ x >>> 1) ^^^ y >>> 1
      rw [BitVec.xor_assoc]
    | true => exact (xor_xor_xor_cancel g _ _).symm

theorem clock_xor (g : BitVec w) (n : ℕ) (x y : BitVec w) :
    clock g n (x ^^^ y) = clock g n x ^^^ clock g n y := by
  induction n generalizing x y with
  | zero => rfl
  | succ n ih => rw [clock, clock, clock, shift_xor, ih]

theorem clock_add (g : BitVec w) (m n : ℕ) (x : BitVec w) :
    clock g (m + n) x = clock g n (clock g m x) := by
  induction m generalizing x with
  | zero => rw [Nat.zero_add, clock]
  | succ m ih => rw [Nat.succ_add, clock, clock, ih]

/-- Bits that are clear leave without a trace. -/
theorem clock_of_low {n : ℕ} {x : BitVec w} (h : ∀ i < n, x.getLsbD i = false) :
    clock g n x = x >>> n := by
  induction n generalizing x with
  | zero => rw [clock, BitVec.ushiftRight_zero]
  | succ n ih =>
    have hshift : shift g x = x >>> 1 := by
      rw [shift, h 0 (Nat.succ_pos n)]
      rfl
    rw [clock, hshift, ih, ← BitVec.shiftRight_add, Nat.add_comm]
    intro i hi
    rw [BitVec.getLsbD_ushiftRight]
    exact h (1 + i) (by omega)

/-- Shifts can be undone. -/
theorem shift_injective (hg : g.getLsbD (w - 1) = true) : Function.Injective (shift g) := by
  have hw : 0 < w := by
    by_contra hw
    rw [BitVec.getLsbD_of_ge g (w - 1) (by omega)] at hg
    simp at hg
  -- the top bit says which bit has left
  have htop : ∀ x : BitVec w, (shift g x).getLsbD (w - 1) = x.getLsbD 0 := by
    intro x
    have hout : (x >>> 1).getLsbD (w - 1) = false := by
      rw [BitVec.getLsbD_ushiftRight]
      exact BitVec.getLsbD_of_ge x _ (by omega)
    unfold shift
    cases x.getLsbD 0 with
    | false => exact hout
    | true =>
      show (g ^^^ x >>> 1).getLsbD (w - 1) = true
      rw [BitVec.getLsbD_xor, hg, hout]
      rfl
  intro x y hxy
  have hlow : x.getLsbD 0 = y.getLsbD 0 := by rw [← htop, ← htop, hxy]
  have hhigh : x >>> 1 = y >>> 1 := by
    unfold shift at hxy
    rw [hlow] at hxy
    cases hy : y.getLsbD 0 with
    | false => simpa [hy] using hxy
    | true =>
      rw [hy, if_pos rfl, if_pos rfl] at hxy
      exact (BitVec.xor_right_inj g).mp hxy
  apply BitVec.eq_of_getLsbD_eq
  intro i _
  cases i with
  | zero => exact hlow
  | succ i =>
    have hbit := congrArg (fun z : BitVec w => z.getLsbD i) hhigh
    simpa only [BitVec.getLsbD_ushiftRight, Nat.add_comm 1] using hbit

theorem clock_injective (hg : g.getLsbD (w - 1) = true) (n : ℕ) :
    Function.Injective (clock g n) := by
  induction n with
  | zero => exact fun _ _ h => h
  | succ n ih => exact fun x y h => shift_injective hg (ih h)

/-! ## Symbols -/

/-- The register after a symbol. -/
def feed (g : BitVec w) (x : BitVec w) (s : BitVec d) : BitVec w := clock g d (x ^^^ s.setWidth w)

/-- The register after a message. -/
def absorb (g : BitVec w) (x : BitVec w) (msg : List (BitVec d)) : BitVec w := msg.foldl (feed g) x

theorem absorb_append (x : BitVec w) (a b : List (BitVec d)) :
    absorb g x (a ++ b) = absorb g (absorb g x a) b := List.foldl_append

theorem absorb_injective (hg : g.getLsbD (w - 1) = true) (msg : List (BitVec d)) :
    Function.Injective fun x => absorb g x msg := by
  induction msg with
  | nil => exact fun _ _ h => h
  | cons s msg ih =>
    intro x y h
    exact (BitVec.xor_left_inj _).mp (clock_injective hg d (ih h))

/-- Symbols side by side, the first one at the low end. -/
def pack (w : ℕ) : List (BitVec d) → BitVec w
  | [] => 0
  | s :: msg => s.setWidth w ^^^ (pack w msg <<< d)

theorem getLsbD_pack_of_ge {msg : List (BitVec d)} {i : ℕ} (h : msg.length * d ≤ i) :
    (pack w msg).getLsbD i = false := by
  induction msg generalizing i with
  | nil => simp [pack]
  | cons s msg ih =>
    rw [List.length_cons, Nat.succ_mul] at h
    have hs : s.getLsbD i = false := BitVec.getLsbD_of_ge s i (by omega)
    have hrest : (pack w msg).getLsbD (i - d) = false := ih (by omega)
    simp [pack, hs, hrest]

/-- What is moved up and does not leave comes back with the shifts. -/
theorem clock_shiftLeft {n : ℕ} {x : BitVec w} (h : ∀ i, w ≤ i + n → x.getLsbD i = false) :
    clock g n (x <<< n) = x := by
  rw [clock_of_low fun i hi => by simp [hi]]
  apply BitVec.eq_of_getLsbD_eq
  intro i hi
  rw [BitVec.getLsbD_ushiftRight, BitVec.getLsbD_shiftLeft]
  by_cases hin : n + i < w
  · simp [hin]
  · simp [hin, h i (by omega)]

/-- Symbols that fit the register are absorbed as if side by side. -/
theorem absorb_eq {msg : List (BitVec d)} (h : msg.length * d ≤ w) (x : BitVec w) :
    absorb g x msg = clock g (msg.length * d) (x ^^^ pack w msg) := by
  induction msg generalizing x with
  | nil => simp [absorb, pack, clock]
  | cons s msg ih =>
    rw [List.length_cons, Nat.succ_mul] at h
    have hback : clock g d (pack w msg <<< d) = pack w msg :=
      clock_shiftLeft fun i hi => getLsbD_pack_of_ge (by omega)
    calc absorb g x (s :: msg)
        = clock g (msg.length * d) (clock g d (x ^^^ s.setWidth w) ^^^ pack w msg) :=
          ih (by omega) _
      _ = clock g (msg.length * d) (clock g d (x ^^^ pack w (s :: msg))) := by
          rw [pack, ← BitVec.xor_assoc, clock_xor g d _ (pack w msg <<< d), hback]
      _ = clock g ((s :: msg).length * d) (x ^^^ pack w (s :: msg)) := by
          rw [List.length_cons, Nat.succ_mul, Nat.add_comm, clock_add]

theorem pack_inj {msg msg' : List (BitVec d)} (hlen : msg.length = msg'.length)
    (hw : msg.length * d ≤ w) (h : pack w msg = pack w msg') : msg = msg' := by
  induction msg generalizing msg' with
  | nil => exact (List.length_eq_zero_iff.mp hlen.symm).symm
  | cons s msg ih =>
    obtain ⟨s', msg', rfl⟩ := List.exists_cons_of_length_eq_add_one hlen.symm
    rw [List.length_cons, List.length_cons, Nat.succ_inj] at hlen
    rw [List.length_cons, Nat.succ_mul] at hw
    have hbit : ∀ i, (pack w (s :: msg)).getLsbD i = (pack w (s' :: msg')).getLsbD i := by
      rw [h]
      exact fun _ => rfl
    have hs : s = s' := by
      apply BitVec.eq_of_getLsbD_eq
      intro i hi
      have hi' := hbit i
      have hlt : i < w := by omega
      simpa [pack, hi, hlt] using hi'
    have hrest : pack w msg = pack w msg' := by
      apply BitVec.eq_of_getLsbD_eq
      intro i hi
      by_cases hin : i + d < w
      · have hi' := hbit (i + d)
        have hout : s.getLsbD (i + d) = false := BitVec.getLsbD_of_ge s _ (by omega)
        have hout' : s'.getLsbD (i + d) = false := BitVec.getLsbD_of_ge s' _ (by omega)
        simpa [pack, hin, hout, hout', ← BitVec.getLsbD_eq_getElem] using hi'
      · rw [getLsbD_pack_of_ge (by omega), getLsbD_pack_of_ge (hlen ▸ by omega)]
    rw [hs, ih hlen (by omega) hrest]

/-! ## Differences -/

/-- Messages that differ within symbols that fit the register leave different registers. -/
theorem absorb_window_ne (hg : g.getLsbD (w - 1) = true) {m m' : List (BitVec d)}
    (hlen : m.length = m'.length) (hw : m.length * d ≤ w) (hne : m ≠ m') (x : BitVec w)
    (a b : List (BitVec d)) : absorb g x (a ++ m ++ b) ≠ absorb g x (a ++ m' ++ b) := by
  intro h
  rw [absorb_append, absorb_append, absorb_append, absorb_append] at h
  have hmid := absorb_injective hg b h
  have hw' : m'.length * d ≤ w := by rwa [← hlen]
  rw [absorb_eq hw (absorb g x a), absorb_eq hw' (absorb g x a), ← hlen] at hmid
  exact hne (pack_inj hlen hw ((BitVec.xor_right_inj _).mp (clock_injective hg _ hmid)))

/-- A message is followed by the symbols of `c`: what is left tells how `c` differs from the
message's register. -/
theorem absorb_check {check : List (BitVec d)} (hlen : check.length * d = w) (x : BitVec w)
    (msg : List (BitVec d)) :
    absorb g x (msg ++ check) = clock g w (absorb g x msg ^^^ pack w check) := by
  rw [absorb_append, absorb_eq hlen.le, hlen]

/-! ## Tables -/

/-- The step of a table-driven implementation: the table's entry for the low symbol, and the
rest moved down. -/
theorem clock_eq_low (g x : BitVec w) (n : ℕ) {mask : BitVec w}
    (hmask : ∀ i < w, mask.getLsbD i = decide (i < n)) :
    clock g n x = clock g n (x &&& mask) ^^^ (x >>> n) := by
  have hsplit : x = (x &&& mask) ^^^ (x &&& ~~~ mask) := by
    apply BitVec.eq_of_getLsbD_eq
    intro i hi
    simp only [BitVec.getLsbD_xor, BitVec.getLsbD_and, BitVec.getLsbD_not, hi, decide_true,
      Bool.true_and]
    cases x.getLsbD i <;> cases mask.getLsbD i <;> rfl
  have hlow : ∀ i < n, (x &&& ~~~ mask).getLsbD i = false := by
    intro i hi
    by_cases hiw : i < w
    · simp [hmask i hiw, hi]
    · exact BitVec.getLsbD_of_ge _ _ (Nat.not_lt.mp hiw)
  have hhigh : (x &&& ~~~ mask) >>> n = x >>> n := by
    apply BitVec.eq_of_getLsbD_eq
    intro i _
    by_cases hiw : n + i < w
    · have hout : mask.getLsbD (n + i) = false := by simp [hmask (n + i) hiw]
      rw [BitVec.getLsbD_ushiftRight, BitVec.getLsbD_ushiftRight, BitVec.getLsbD_and,
        BitVec.getLsbD_not, hout, decide_eq_true hiw]
      simp
    · rw [BitVec.getLsbD_ushiftRight, BitVec.getLsbD_ushiftRight,
        BitVec.getLsbD_of_ge _ _ (Nat.not_lt.mp hiw), BitVec.getLsbD_of_ge _ _ (Nat.not_lt.mp hiw)]
  calc clock g n x = clock g n ((x &&& mask) ^^^ (x &&& ~~~ mask)) := by rw [← hsplit]
    _ = clock g n (x &&& mask) ^^^ (x >>> n) := by rw [clock_xor, clock_of_low hlow, hhigh]

end KvEngine.ShiftRegister
