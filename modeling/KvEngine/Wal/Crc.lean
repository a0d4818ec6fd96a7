import KvEngine.Codes.ShiftRegister
import KvEngine.Common.Bytes

/-!
# CRC-32

Model of `crc32_update` (`src/wal.cpp`, lines 22–37): the reflected IEEE
polynomial, one table entry for each byte, and the register complemented on the
way in and on the way out, so that calls chain.

Results:
* `crc32Update_eq`: the table-driven loop is the shift register of the polynomial.
* `crc32Update_eq_iff`: bytes followed by four more leave the register in one fixed state
  exactly when these four are the checksum of the others.
-/

namespace KvEngine

/-- One round of the table's bit loop:
`c = (c & 1) ? (0xEDB88320u ^ (c >> 1)) : (c >> 1)`. -/
def crcBit (c : BitVec 32) : BitVec 32 :=
  if c &&& 1#32 = 1#32 then 0xEDB88320#32 ^^^ (c >>> 1) else c >>> 1

/-- `table[i]`: eight rounds from `i`. -/
def crcTable (i : BitVec 32) : BitVec 32 :=
  crcBit (crcBit (crcBit (crcBit (crcBit (crcBit (crcBit (crcBit i)))))))

/-- The body of the byte loop: `crc = table[(crc ^ data[i]) & 0xFFu] ^ (crc >> 8)`. -/
def crcByte (crc : BitVec 32) (b : UInt8) : BitVec 32 :=
  crcTable ((crc ^^^ b.toBitVec.setWidth 32) &&& 0xFF#32) ^^^ (crc >>> 8)

/-- `crc32_update(crc, data, n)`. -/
def crc32Update (crc : BitVec 32) (data : Bytes) : BitVec 32 := ~~~ (data.foldl crcByte (~~~ crc))

@[simp] theorem crc32Update_nil (crc : BitVec 32) : crc32Update crc [] = crc := by
  simp [crc32Update]

/-- Calls chain: the checksum of a concatenation is computed piecewise. -/
theorem crc32Update_append (crc : BitVec 32) (a b : Bytes) :
    crc32Update crc (a ++ b) = crc32Update (crc32Update crc a) b := by
  simp [crc32Update, List.foldl_append]

/-! ## The shift register -/

open ShiftRegister

/-- The polynomial. -/
def crcPoly : BitVec 32 := 0xEDB88320#32

theorem crcBit_eq (c : BitVec 32) : crcBit c = shift crcPoly c := by
  have hlow : c &&& 1#32 = 1#32 ↔ c.getLsbD 0 = true := by
    rw [BitVec.and_one_eq_setWidth_ofBool_getLsbD]
    cases c.getLsbD 0 <;> decide
  unfold crcBit shift
  simp only [hlow]
  rfl

theorem crcTable_eq (i : BitVec 32) : crcTable i = clock crcPoly 8 i := by
  simp only [crcTable, crcBit_eq]
  rfl

/-- The byte loop feeds the register. -/
theorem crcByte_eq (crc : BitVec 32) (b : UInt8) : crcByte crc b = feed crcPoly crc b.toBitVec := by
  have hmask : ∀ i < 32, (0xFF#32).getLsbD i = decide (i < 8) := by decide
  have hbyte : b.toBitVec.setWidth 32 >>> 8 = 0#32 := by
    apply BitVec.eq_of_getLsbD_eq
    intro i _
    rw [BitVec.getLsbD_ushiftRight, BitVec.getLsbD_setWidth,
      BitVec.getLsbD_of_ge b.toBitVec (8 + i) (by omega)]
    simp
  have hrest : (crc ^^^ b.toBitVec.setWidth 32) >>> 8 = crc >>> 8 := by
    rw [BitVec.ushiftRight_xor_distrib, hbyte, BitVec.xor_zero]
  rw [crcByte, crcTable_eq, feed, clock_eq_low crcPoly (crc ^^^ _) 8 hmask, hrest]

/-- Bytes as symbols. -/
def symbols (data : Bytes) : List (BitVec 8) := data.map UInt8.toBitVec

theorem symbols_append (a b : Bytes) : symbols (a ++ b) = symbols a ++ symbols b :=
  List.map_append

theorem symbols_inj {a b : Bytes} (h : symbols a = symbols b) : a = b := by
  refine List.map_injective_iff.mpr ?_ h
  exact fun _ _ => UInt8.eq_of_toBitVec_eq

theorem crc32Update_eq (crc : BitVec 32) (data : Bytes) :
    crc32Update crc data = ~~~ absorb crcPoly (~~~ crc) (symbols data) := by
  have hloop : ∀ x, data.foldl crcByte x = absorb crcPoly x (symbols data) := by
    induction data with
    | nil => exact fun _ => rfl
    | cons b data ih =>
      intro x
      rw [List.foldl_cons, crcByte_eq, ih]
      rfl
  rw [crc32Update, hloop]

theorem pack_symbols (c : Bytes) : pack 32 (symbols c) = BitVec.ofNat 32 (leNat c) := by
  induction c with
  | nil => rfl
  | cons b c ih =>
    apply BitVec.eq_of_getLsbD_eq
    intro i hi
    have hval : leNat (b :: c) = 2 ^ 8 * leNat c + b.toNat := Nat.add_comm _ _
    rw [hval, BitVec.getLsbD_ofNat, Nat.testBit_two_pow_mul_add _ b.toNat_lt]
    show (b.toBitVec.setWidth 32 ^^^ pack 32 (symbols c) <<< 8).getLsbD i = _
    rw [ih, BitVec.getLsbD_xor, BitVec.getLsbD_setWidth, BitVec.getLsbD_shiftLeft]
    by_cases hlow : i < 8
    · simp only [hi, hlow, decide_true, Bool.true_and, if_true, Bool.not_true, Bool.false_and,
        Bool.xor_false]
      rfl
    · rw [BitVec.getLsbD_of_ge b.toBitVec i (Nat.not_lt.mp hlow), BitVec.getLsbD_ofNat]
      simp [hi, hlow, show i - 8 < 32 by omega]

/-- Four bytes behind others are their checksum exactly when the register ends in a fixed
state. -/
theorem crc32Update_eq_iff {data c : Bytes} (hc : c.length = 4) :
    (crc32Update 0 data).toNat = leNat c ↔
      absorb crcPoly (~~~ 0) (symbols (data ++ c)) = clock crcPoly 32 (~~~ 0) := by
  have hlen : (symbols c).length * 8 = 32 := by simp [symbols, hc]
  have hlt : leNat c < 2 ^ 32 := by simpa [hc] using leNat_lt c
  have hinj := clock_injective (g := crcPoly) (by decide) 32
  set R := absorb crcPoly (~~~ 0) (symbols data) with hR
  have hcrc : crc32Update 0 data = ~~~ R := crc32Update_eq 0 data
  have hself : ~~~ (0 : BitVec 32) = R ^^^ ~~~ R := by
    rw [← BitVec.not_xor_right, BitVec.xor_self]
    rfl
  rw [hcrc, symbols_append, absorb_check hlen, ← hR, pack_symbols, hinj.eq_iff, hself,
    BitVec.xor_right_inj]
  constructor
  · intro h
    rw [← h, BitVec.ofNat_toNat, BitVec.setWidth_eq]
  · intro h
    rw [← h, BitVec.toNat_ofNat, Nat.mod_eq_of_lt hlt]

/-- The check value of the standard: the checksum of `"123456789"`. -/
example : crc32Update 0 (str "123456789") = 0xCBF43926#32 := by decide +kernel

end KvEngine
