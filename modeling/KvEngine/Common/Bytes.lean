import Mathlib

/-!
# Byte strings

Every `std::string` of the source is a list of bytes. Integers are stored by
`memcpy` of a packed struct, that is little-endian on the hosts the engine is
built for; `leBytes` and `leNat` are the two directions.
-/

namespace KvEngine

/-- The bytes of a `std::string` (or of a file). -/
abbrev Bytes := List UInt8

/-- The bytes of an ASCII string literal of the source. -/
def str (s : String) : Bytes := s.toList.map fun c => UInt8.ofNat c.toNat

/-- The `w` little-endian bytes of the unsigned integer `x`; what does not fit
is cut off, as by a conversion to a `w`-byte type. -/
def leBytes : ℕ → ℕ → Bytes
  | 0, _ => []
  | w + 1, x => UInt8.ofNat (x % 256) :: leBytes w (x / 256)

/-- The unsigned integer stored in little-endian bytes. -/
def leNat : Bytes → ℕ
  | [] => 0
  | b :: bs => b.toNat + 256 * leNat bs

@[simp] theorem length_leBytes (w x : ℕ) : (leBytes w x).length = w := by
  induction w generalizing x with
  | zero => rfl
  | succ w ih => simp [leBytes, ih]

theorem leNat_leBytes (w x : ℕ) : leNat (leBytes w x) = x % 256 ^ w := by
  induction w generalizing x with
  | zero => simp [leBytes, leNat, Nat.mod_one]
  | succ w ih =>
    have hb : (UInt8.ofNat (x % 256)).toNat = x % 256 := by
      simp [UInt8.toNat_ofNat']
    rw [leBytes, leNat, hb, ih, pow_succ, mul_comm (256 ^ w), Nat.mod_mul]

theorem leNat_leBytes_of_lt {w x : ℕ} (h : x < 256 ^ w) : leNat (leBytes w x) = x := by
  rw [leNat_leBytes, Nat.mod_eq_of_lt h]

theorem leNat_lt (bs : Bytes) : leNat bs < 256 ^ bs.length := by
  induction bs with
  | nil => simp [leNat]
  | cons b bs ih =>
    have hb := b.toNat_lt
    rw [leNat, List.length_cons, pow_succ]
    omega

/-! ## Reading from a string -/

/-- `read_exact`: the first `n` bytes and the rest, or failure when fewer than
`n` bytes are left. -/
def readExact (rest : Bytes) (n : ℕ) : Option (Bytes × Bytes) :=
  if n ≤ rest.length then some (rest.take n, rest.drop n) else none

theorem readExact_append {a : Bytes} {n : ℕ} (h : a.length = n) (b : Bytes) :
    readExact (a ++ b) n = some (a, b) := by
  subst h
  simp [readExact]

theorem readExact_length {s a b : Bytes} {n : ℕ} (h : readExact s n = some (a, b)) :
    s = a ++ b ∧ a.length = n := by
  unfold readExact at h
  split_ifs at h with hn
  obtain ⟨rfl, rfl⟩ := Prod.mk.inj (Option.some.inj h)
  exact ⟨(List.take_append_drop n s).symm, by simp [hn]⟩

end KvEngine
