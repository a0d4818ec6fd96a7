import KvEngine.Store.KVStore

/-!
# Numbers and fields as text

What the object store prints to an `ostringstream` and reads back with `std::getline`
and `std::stoull`.

Results:
* `stoull_decimal`, `stoi_decimal`: printed numbers read back.
* `getlines_joinFields`: fields without the delimiter read back.
-/

namespace KvEngine

/-! ## Printing -/

/-- The digits of `n` in base `b`, lower case. -/
def radix (b n : ℕ) : Bytes := (Nat.toDigits b n).map fun c => UInt8.ofNat c.toNat

/-- `out << n` for an unsigned integer, and `std::to_string(n)`. -/
def decimal (n : ℕ) : Bytes := radix 10 n

/-- `out << std::hex << n`. -/
def hex (n : ℕ) : Bytes := radix 16 n

theorem mem_toDigits {b : ℕ} (hb : 1 < b) {n : ℕ} {c : Char} (h : c ∈ Nat.toDigits b n) :
    ∃ d < b, c = Nat.digitChar d := by
  induction n using Nat.strong_induction_on with
  | _ n ih =>
    by_cases hn : n < b
    · rw [Nat.toDigits_of_lt_base hn, List.mem_singleton] at h
      exact ⟨n, hn, h⟩
    · rw [Nat.toDigits_of_base_le hb (Nat.not_lt.mp hn), List.mem_append, List.mem_singleton] at h
      rcases h with h | rfl
      · exact ih (n / b) (Nat.div_lt_self (by omega) hb) h
      · exact ⟨n % b, Nat.mod_lt _ (by omega), rfl⟩

/-- A byte that is no digit is not printed. -/
theorem not_mem_radix {b : ℕ} (hb : 1 < b) {x : UInt8}
    (hx : ∀ d < b, UInt8.ofNat (Nat.digitChar d).toNat ≠ x) (n : ℕ) : x ∉ radix b n := by
  intro h
  obtain ⟨c, hc, rfl⟩ := List.mem_map.mp h
  obtain ⟨d, hd, rfl⟩ := mem_toDigits hb hc
  exact hx d hd rfl

theorem decimal_ne_nil (n : ℕ) : decimal n ≠ [] := by
  intro h
  exact Nat.toDigits_ne_nil (List.map_eq_nil_iff.mp h)

/-! ## Reading numbers -/

/-- `isdigit`. -/
def isDigit (b : UInt8) : Bool := 48 ≤ b && b ≤ 57

/-- The value of decimal digits. -/
def digitsValue (s : Bytes) : ℕ := s.foldl (fun n d => 10 * n + (d.toNat - 48)) 0

/-- What `strtoull` and its relatives read in base 10: white space, an optional sign and
digits, as the sign and the magnitude; nothing when there is no digit. -/
def parseInteger (s : Bytes) : Option (Bool × ℕ) :=
  let s := s.dropWhile isSpace
  let neg := s.head? = some 45
  let s := if s.head? = some 45 ∨ s.head? = some 43 then s.tail else s
  let digits := s.takeWhile isDigit
  if digits = [] then none else some (neg, digitsValue digits)

/-- `std::stoull`, and `std::stoul` where `unsigned long` has 64 bits; a minus sign
negates modulo `2^64`. `none` is a thrown exception. -/
def stoull (s : Bytes) : Option UInt64 :=
  match parseInteger s with
  | none => none
  | some (neg, n) =>
    if 2 ^ 64 ≤ n then none
    else some (if neg then UInt64.ofNat (2 ^ 64 - n) else UInt64.ofNat n)

/-- `std::stoi` for an `int` of 32 bits. -/
def stoi (s : Bytes) : Option ℤ :=
  match parseInteger s with
  | none => none
  | some (neg, n) =>
    let z : ℤ := if neg then -n else n
    if -2 ^ 31 ≤ z ∧ z < 2 ^ 31 then some z else none

theorem isDigit_digit : ∀ d < 10, isDigit (UInt8.ofNat (Nat.digitChar d).toNat) = true := by
  decide

theorem isDigit_of_mem_decimal {n : ℕ} {b : UInt8} (h : b ∈ decimal n) : isDigit b = true := by
  obtain ⟨c, hc, rfl⟩ := List.mem_map.mp h
  obtain ⟨d, hd, rfl⟩ := mem_toDigits (by norm_num) hc
  exact isDigit_digit d hd

theorem toNat_digitChar_lt : ∀ d < 10, (Nat.digitChar d).toNat < 256 := by
  decide

theorem digitsValue_decimal (n : ℕ) : digitsValue (decimal n) = n := by
  have hval : ∀ (cs : List Char) (acc : ℕ), (∀ c ∈ cs, c.toNat < 256) →
      (cs.map fun c => UInt8.ofNat c.toNat).foldl (fun n d => 10 * n + (d.toNat - 48)) acc =
        Nat.ofDigitChars 10 cs acc := by
    intro cs
    induction cs with
    | nil => exact fun _ _ => rfl
    | cons c cs ih =>
      intro acc hcs
      have hc : (UInt8.ofNat c.toNat).toNat = c.toNat :=
        UInt8.toNat_ofNat_of_lt' (hcs c List.mem_cons_self)
      rw [List.map_cons, List.foldl_cons, hc, ih _ fun x hx => hcs x (List.mem_cons_of_mem c hx)]
      rfl
  rw [digitsValue, decimal, radix, hval _ _ ?_, Nat.ofDigitChars_toDigits (by norm_num) le_rfl]
  intro c hc
  obtain ⟨d, hd, rfl⟩ := mem_toDigits (by norm_num) hc
  exact toNat_digitChar_lt d hd

/-- A digit is neither white space nor a sign. -/
theorem isDigit_ne : ∀ b : UInt8, isDigit b = true → isSpace b = false ∧ b ≠ 45 ∧ b ≠ 43 := by
  intro b h
  simp only [isDigit, Bool.and_eq_true, decide_eq_true_eq, UInt8.le_iff_toNat_le] at h
  have hnum : (48 : UInt8).toNat = 48 ∧ (57 : UInt8).toNat = 57 := ⟨rfl, rfl⟩
  refine ⟨?_, ?_, ?_⟩
  · simp only [isSpace, Bool.or_eq_false_iff, Bool.and_eq_false_imp, decide_eq_false_iff_not,
      decide_eq_true_eq, UInt8.le_iff_toNat_le, ← UInt8.toNat_inj]
    have : (32 : UInt8).toNat = 32 ∧ (13 : UInt8).toNat = 13 := ⟨rfl, rfl⟩
    omega
  · rintro rfl
    exact absurd h.1 (by decide)
  · rintro rfl
    exact absurd h.1 (by decide)

/-- Printed numbers read back. -/
theorem parseInteger_decimal (n : ℕ) : parseInteger (decimal n) = some (false, n) := by
  obtain ⟨b, s, hbs⟩ := List.exists_cons_of_ne_nil (decimal_ne_nil n)
  have hb : isDigit b = true := isDigit_of_mem_decimal (hbs ▸ List.mem_cons_self)
  obtain ⟨hspace, hminus, hplus⟩ := isDigit_ne b hb
  have hdrop : (decimal n).dropWhile isSpace = decimal n := by
    rw [hbs, List.dropWhile_cons_of_neg (by simp [hspace])]
  have hhead : (decimal n).head? = some b := by rw [hbs, List.head?_cons]
  have htake : (decimal n).takeWhile isDigit = decimal n := by
    rw [List.takeWhile_eq_self_iff]
    exact fun x hx => isDigit_of_mem_decimal hx
  unfold parseInteger
  simp only [hdrop, hhead, Option.some.injEq, hminus, hplus, or_self, if_false, htake,
    decimal_ne_nil, digitsValue_decimal]
  rfl

theorem stoull_decimal (x : UInt64) : stoull (decimal x.toNat) = some x := by
  have hlt : ¬ 2 ^ 64 ≤ x.toNat := Nat.not_le.mpr x.toNat_lt
  simp only [stoull, parseInteger_decimal, if_neg hlt, Bool.false_eq_true, if_false,
    UInt64.ofNat_toNat]

theorem stoi_decimal {n : ℕ} (h : n < 2 ^ 31) : stoi (decimal n) = some (n : ℤ) := by
  have hrange : -2 ^ 31 ≤ (n : ℤ) ∧ (n : ℤ) < 2 ^ 31 := by omega
  simp only [stoi, parseInteger_decimal, Bool.false_eq_true, if_false, if_pos hrange]

/-! ## Fields -/

/-- `std::getline(in, field, delim)` on what is left of the stream: the field and the
rest behind the delimiter; failure at the end of the stream. -/
def getline (delim : UInt8) (text : Bytes) : Option (Bytes × Bytes) :=
  if text = [] then none
  else some (text.takeWhile (· ≠ delim), (text.dropWhile (· ≠ delim)).tail)

theorem getline_append {delim : UInt8} {f : Bytes} (h : delim ∉ f) (rest : Bytes) :
    getline delim (f ++ delim :: rest) = some (f, rest) := by
  have hall : ∀ x ∈ f, decide (x ≠ delim) = true := by
    intro x hx
    simp only [ne_eq, decide_not, Bool.not_eq_true', decide_eq_false_iff_not]
    rintro rfl
    exact h hx
  unfold getline
  rw [if_neg (by simp), List.takeWhile_append_of_pos hall, List.dropWhile_append_of_pos hall]
  simp

theorem getline_last {delim : UInt8} {f : Bytes} (h : delim ∉ f) (hne : f ≠ []) :
    getline delim f = some (f, []) := by
  have hall : ∀ x ∈ f, decide (x ≠ delim) = true := by
    intro x hx
    simp only [ne_eq, decide_not, Bool.not_eq_true', decide_eq_false_iff_not]
    rintro rfl
    exact h hx
  unfold getline
  rw [if_neg hne, List.takeWhile_eq_self_iff.mpr hall, List.dropWhile_eq_nil_iff.mpr hall]
  rfl

/-- `n` calls of `getline` in a row. -/
def getlines (delim : UInt8) : ℕ → Bytes → Option (List Bytes)
  | 0, _ => some []
  | n + 1, text =>
    match getline delim text with
    | none => none
    | some (f, rest) => (getlines delim n rest).map (f :: ·)

/-- A field without the delimiter, and the rest. -/
theorem getlines_append {delim : UInt8} {f : Bytes} (h : delim ∉ f) (n : ℕ) (rest : Bytes) :
    getlines delim (n + 1) (f ++ delim :: rest) = (getlines delim n rest).map (f :: ·) := by
  rw [getlines, getline_append h]

/-- What `getline` reads has no delimiter. -/
theorem not_mem_of_getlines {delim : UInt8} {n : ℕ} {text : Bytes} {fs : List Bytes}
    (h : getlines delim n text = some fs) : ∀ f ∈ fs, delim ∉ f := by
  induction n generalizing text fs with
  | zero =>
    obtain rfl := Option.some.inj h
    simp
  | succ n ih =>
    unfold getlines getline at h
    split_ifs at h
    simp only [Option.map_eq_some_iff] at h
    obtain ⟨rest, hrest, rfl⟩ := h
    intro f hf
    rcases List.mem_cons.mp hf with rfl | hf
    · intro hmem
      simpa using List.mem_takeWhile_imp hmem
    · exact ih hrest f hf

/-- `out << f₁ << delim << f₂ << … << fₙ`. -/
def joinFields (delim : UInt8) : List Bytes → Bytes
  | [] => []
  | [f] => f
  | f :: fs => f ++ delim :: joinFields delim fs

/-- Fields without the delimiter read back, if the last one is not empty. -/
theorem getlines_joinFields {delim : UInt8} (fs : List Bytes) (h : ∀ f ∈ fs, delim ∉ f)
    (hlast : fs.getLast? ≠ some []) :
    getlines delim fs.length (joinFields delim fs) = some fs := by
  induction fs with
  | nil => rfl
  | cons f fs ih =>
    have hf := h f List.mem_cons_self
    cases fs with
    | nil =>
      have hne : f ≠ [] := by simpa using hlast
      simp only [joinFields, List.length_singleton, getlines, getline_last hf hne]
      rfl
    | cons g fs =>
      have hrest := ih (fun x hx => h x (List.mem_cons_of_mem f hx)) (by simpa using hlast)
      rw [List.length_cons, joinFields, getlines_append hf]
      · rw [hrest]
        rfl
      · simp

end KvEngine
