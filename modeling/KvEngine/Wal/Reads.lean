import KvEngine.Wal.Log

/-!
# Replay and the results of `read`

`Wal.Log` lets every `read` return what it asks for as far as the file has it. POSIX lets it
return less, or fail with `EINTR`. Key, value and checksum of a record are read with
`read_exact` (`src/wal.cpp`, lines 53–66), which asks again; the header is read with one bare
`read`, and a short one ends the replay as a truncated header does (line 170).

Results:
* `readExactWith_eq`: `read_exact` does not depend on how the bytes arrive.
* `readRecordWith_eq`: a round of the loop depends on the result of its header's `read` only.
* `replayWith_eq_iff`: replay is that of whole reads exactly when no record's header comes
  back short.
-/

namespace KvEngine

/-! ## Reads -/

/-- What a `read` returned: all it asked for as far as the file has it, at most `n + 1` bytes of
that, `EINTR`, or another error. -/
inductive ReadResult where
  | ok
  | short (n : ℕ)
  | interrupted
  | error
  deriving DecidableEq

/-- The results of the calls of `read` to come; past its end all return what they ask for. -/
abbrev Reads := List ReadResult

/-- How many bytes a call that asks for `n` can return. -/
def ReadResult.limit : ReadResult → ℕ → ℕ
  | .short k, n => min (k + 1) n
  | _, n => n

/-- `read_exact(fd, buf, n)` (lines 53–66) on the bytes from the current offset on: `while (got <
n)` read what is missing, again after `EINTR`. Returns the bytes, those after them and the
results that are left; fails on an error and at the end of the file. -/
def readExactWith : Reads → Bytes → ℕ → Option (Bytes × Bytes × Reads)
  | [], rest, n => (readExact rest n).map fun p => (p.1, p.2, [])
  | r :: os, rest, n =>
    if n = 0 then some ([], rest, r :: os)
    else if r = .interrupted then readExactWith os rest n
    else if r = .error ∨ rest = [] then none
    else
      let got := rest.take (r.limit n)
      (readExactWith os (rest.drop (r.limit n)) (n - got.length)).map fun p => (got ++ p.1, p.2)

/-- The header of a record (lines 163–170): `continue` after `EINTR`, and anything but a whole
header breaks the loop. -/
def readHeaderWith : Reads → Bytes → Option (Bytes × Bytes × Reads)
  | [], rest => (readExact rest headerSize).map fun p => (p.1, p.2, [])
  | r :: os, rest =>
    if r = .interrupted then readHeaderWith os rest
    else if r = .error then none
    else
      let got := rest.take (r.limit headerSize)
      if got.length = headerSize then some (got, rest.drop headerSize, os) else none

/-- `readRecord` with the results of its calls. -/
def readRecordWith (os : Reads) (rest : Bytes) : Option (WalRecord × Bytes × Reads) := do
  let (hb, rest, os) ← readHeaderWith os rest
  let h := WalHeader.ofBytes hb
  guard (h.magic = kMagic ∧ h.version = kVersion)
  let type ← WalType.ofCode h.type
  let (key, rest, os) ← readExactWith os rest h.keyLen
  let (val, rest, os) ← readExactWith os rest (if type = .put then h.valLen else 0)
  let (storedCrc, rest, os) ← readExactWith os rest 4
  guard ((recordCrc hb key val).toNat = leNat storedCrc)
  some (⟨type, h.seq, key, val⟩, rest, os)

/-- `replayLoop` with the results of its calls. -/
def replayLoopWith : ℕ → Reads → Bytes → Replay → Replay
  | 0, _, _, st => st
  | fuel + 1, os, rest, st =>
    match readRecordWith os rest with
    | none => st
    | some (r, rest', os') =>
      replayLoopWith fuel os' rest' (st.apply r (rest.length - rest'.length))

/-- `Wal::replay_into` (lines 151–225) of a file with the results of its calls of `read`. -/
def replayWith (os : Reads) (file : Bytes) (map : Map) : Replay :=
  replayLoopWith file.length os file { map := map }

/-! ## What the calls leave -/

namespace Reads

/-- The results left after `n` bytes that are there were read with `read_exact`. -/
def afterExact : Reads → ℕ → Reads
  | [], _ => []
  | r :: os, n =>
    if n = 0 then r :: os
    else if r = .interrupted then afterExact os n
    else afterExact os (n - r.limit n)

/-- The results from the call on that is not interrupted. -/
def headerCall (os : Reads) : Reads := os.dropWhile (· = .interrupted)

/-- That call can return a whole header. -/
def HeaderWhole (os : Reads) : Prop := ∀ r ∈ os.headerCall.head?, r.limit headerSize = headerSize

instance (os : Reads) : Decidable os.HeaderWhole := by
  unfold HeaderWhole
  infer_instance

/-- The results left after a record was read. -/
def afterRecord (os : Reads) (r : WalRecord) : Reads :=
  ((afterExact os.headerCall.tail r.key.length).afterExact r.payload.length).afterExact 4

/-- The header of every one of the records comes back whole. -/
def HeadersWhole : Reads → List WalRecord → Prop
  | _, [] => True
  | os, r :: rs => os.HeaderWhole ∧ HeadersWhole (os.afterRecord r) rs

/-- Calls only use up results. -/
theorem afterExact_suffix (os : Reads) (n : ℕ) : os.afterExact n <:+ os := by
  induction os generalizing n with
  | nil => exact List.suffix_rfl
  | cons r os ih =>
    unfold afterExact
    split_ifs with hn hr
    · exact List.suffix_rfl
    · exact (ih n).trans (List.suffix_cons r os)
    · exact (ih _).trans (List.suffix_cons r os)

theorem headerCall_cons {r : ReadResult} (h : r ≠ .interrupted) (os : Reads) :
    headerCall (r :: os) = r :: os :=
  List.dropWhile_cons_of_neg (by simpa using h)

theorem headerCall_suffix (os : Reads) : os.headerCall <:+ os := List.dropWhile_suffix _

theorem headerCall_tail_suffix (os : Reads) : os.headerCall.tail <:+ os :=
  (List.tail_suffix _).trans os.headerCall_suffix

theorem afterRecord_suffix (os : Reads) (r : WalRecord) : os.afterRecord r <:+ os :=
  calc os.afterRecord r
      <:+ (afterExact os.headerCall.tail r.key.length).afterExact r.payload.length :=
        afterExact_suffix _ _
    _ <:+ afterExact os.headerCall.tail r.key.length := afterExact_suffix _ _
    _ <:+ os.headerCall.tail := afterExact_suffix _ _
    _ <:+ os := os.headerCall_tail_suffix

end Reads

/-! ## A round of the loop -/

theorem ReadResult.limit_le (r : ReadResult) (n : ℕ) : r.limit n ≤ n := by
  cases r with
  | short k => exact Nat.min_le_right _ _
  | _ => exact le_rfl

/-- Reading goes on where a part of the bytes came back. -/
theorem readExact_take_drop {rest : Bytes} {n k : ℕ} (hk : k ≤ n) :
    (readExact (rest.drop k) (n - (rest.take k).length)).map
      (fun p => (rest.take k ++ p.1, p.2)) = readExact rest n := by
  unfold readExact
  rw [List.length_take, List.length_drop]
  by_cases hn : n ≤ rest.length
  · have hmin : min k rest.length = k := by omega
    rw [if_pos (by omega), if_pos hn, hmin, Option.map_some, List.drop_drop, ← List.take_add,
      Nat.add_sub_cancel' hk]
  · rw [if_neg (by omega), if_neg hn, Option.map_none]

/-- **`read_exact` does not depend on how the bytes arrive.** -/
theorem readExactWith_eq {os : Reads} (herr : .error ∉ os) (rest : Bytes) (n : ℕ) :
    readExactWith os rest n =
      (readExact rest n).map fun p => (p.1, p.2, os.afterExact n) := by
  induction os generalizing rest n with
  | nil => rfl
  | cons r os ih =>
    obtain ⟨hr, hos⟩ := not_or.mp (List.mem_cons.not.mp herr)
    unfold readExactWith Reads.afterExact
    by_cases hn : n = 0
    · subst hn
      rw [if_pos rfl, if_pos rfl]
      rfl
    · rw [if_neg hn, if_neg hn]
      by_cases hint : r = .interrupted
      · rw [if_pos hint, if_pos hint, ih hos]
      · rw [if_neg hint, if_neg hint]
        by_cases hrest : rest = []
        · -- the end of the file
          rw [if_pos (Or.inr hrest), hrest, readExact, if_neg (by simpa using hn)]
          rfl
        · rw [if_neg (not_or.mpr ⟨Ne.symm hr, hrest⟩)]
          simp only
          rw [ih hos, ← readExact_take_drop (r.limit_le n), Option.map_map, Option.map_map]
          by_cases hlimit : r.limit n ≤ rest.length
          · rw [List.length_take, Nat.min_eq_left hlimit]
            rfl
          · have hnone : readExact (rest.drop (r.limit n)) (n - (rest.take (r.limit n)).length) =
                none := by
              have hle := r.limit_le n
              rw [List.length_take, readExact, List.length_drop, if_neg (by omega)]
            rw [hnone]
            rfl

/-- The header comes back if the call can return all of it. -/
theorem readHeaderWith_eq {os : Reads} (herr : .error ∉ os) (rest : Bytes) :
    readHeaderWith os rest =
      if os.HeaderWhole then
        (readExact rest headerSize).map fun p => (p.1, p.2, os.headerCall.tail)
      else none := by
  induction os with
  | nil =>
    rw [if_pos (by simp [Reads.HeaderWhole, Reads.headerCall])]
    rfl
  | cons r os ih =>
    obtain ⟨hr, hos⟩ := not_or.mp (List.mem_cons.not.mp herr)
    unfold readHeaderWith
    by_cases hint : r = .interrupted
    · subst hint
      rw [if_pos rfl, ih hos]
      rfl
    · have hcall := Reads.headerCall_cons hint os
      have hwhole : Reads.HeaderWhole (r :: os) ↔ r.limit headerSize = headerSize := by
        simp only [Reads.HeaderWhole, hcall, List.head?_cons, Option.mem_some_iff, forall_eq']
      have hle := r.limit_le headerSize
      simp only [if_neg hint, if_neg (Ne.symm hr), hwhole, hcall, List.tail_cons, readExact,
        List.length_take]
      split_ifs with hgot hlimit hlen hlen
      · rw [hlimit]
        rfl
      · omega
      · omega
      · omega
      · rfl
      · rfl

theorem read_of_map {x : Option (Bytes × Bytes)} {os os' : Reads} {a b : Bytes}
    (h : (x.map fun p => (p.1, p.2, os)) = some (a, b, os')) : x = some (a, b) ∧ os = os' := by
  obtain ⟨p, hp, heq⟩ := Option.map_eq_some_iff.mp h
  obtain ⟨rfl, hrest⟩ := Prod.mk.inj heq
  obtain ⟨rfl, rfl⟩ := Prod.mk.inj hrest
  exact ⟨hp, rfl⟩

/-- A record's payload is what was read as its value. -/
theorem length_payload {t : WalType} {seq n : ℕ} {key val : Bytes}
    (h : val.length = if t = .put then n else 0) :
    (WalRecord.payload ⟨t, seq, key, val⟩).length = if t = .put then n else 0 := by
  cases t with
  | put => exact h
  | del => rfl

/-- **A round of the loop** reads the record of whole reads, if its header comes back whole, and
nothing otherwise. -/
theorem readRecordWith_eq {os : Reads} (herr : .error ∉ os) (rest : Bytes) :
    readRecordWith os rest =
      if os.HeaderWhole then (readRecord rest).map fun p => (p.1, p.2, os.afterRecord p.1)
      else none := by
  have htail : .error ∉ os.headerCall.tail := fun h => herr (os.headerCall_tail_suffix.subset h)
  have hkey : ∀ n, .error ∉ Reads.afterExact os.headerCall.tail n :=
    fun n h => htail ((Reads.afterExact_suffix _ n).subset h)
  have hval : ∀ n n', .error ∉ (Reads.afterExact os.headerCall.tail n).afterExact n' :=
    fun n n' h => hkey n ((Reads.afterExact_suffix _ n').subset h)
  split_ifs with hwhole
  · have hheader := readHeaderWith_eq herr rest
    rw [if_pos hwhole] at hheader
    cases hread : readRecord rest with
    | some p =>
      obtain ⟨r, rest'⟩ := p
      obtain ⟨hb, k, v, c, t, hparts, rfl, rfl⟩ := readRecord_inv hread
      have hafter : os.afterRecord ⟨t, (WalHeader.ofBytes hb).seq, k, v⟩ =
          ((Reads.afterExact os.headerCall.tail (WalHeader.ofBytes hb).keyLen).afterExact
            (if t = .put then (WalHeader.ofBytes hb).valLen else 0)).afterExact 4 := by
        rw [Reads.afterRecord, hparts.key, length_payload hparts.val]
      simp only [readRecordWith, hheader, readExact_append hparts.header, Option.map_some,
        Option.bind_eq_bind, Option.bind_some, hparts.magic, hparts.version, and_self, guard_true,
        Option.pure_def, hparts.type, readExactWith_eq htail, readExact_append hparts.key,
        readExactWith_eq (hkey _), readExact_append hparts.val, readExactWith_eq (hval _ _),
        readExact_append hparts.crc, hparts.check, hafter]
    | none =>
      by_contra hne
      obtain ⟨x, hx⟩ := Option.ne_none_iff_exists'.mp hne
      simp only [readRecordWith, Option.bind_eq_bind, Option.bind_eq_some_iff,
        Option.guard_eq_some', Prod.exists] at hx
      obtain ⟨hb, s₁, os₁, h₁, -, ⟨hmagic, hversion⟩, t, ht, k, s₂, os₂, h₂, v, s₃, os₃, h₃, c, s₄,
        os₄, h₄, -, hcrc, -⟩ := hx
      rw [hheader] at h₁
      obtain ⟨hread₁, rfl⟩ := read_of_map h₁
      rw [readExactWith_eq htail] at h₂
      obtain ⟨hread₂, rfl⟩ := read_of_map h₂
      rw [readExactWith_eq (hkey _)] at h₃
      obtain ⟨hread₃, rfl⟩ := read_of_map h₃
      rw [readExactWith_eq (hval _ _)] at h₄
      obtain ⟨hread₄, rfl⟩ := read_of_map h₄
      obtain ⟨rfl, hlen₁⟩ := readExact_length hread₁
      obtain ⟨rfl, hlen₂⟩ := readExact_length hread₂
      obtain ⟨rfl, hlen₃⟩ := readExact_length hread₃
      obtain ⟨rfl, hlen₄⟩ := readExact_length hread₄
      have hparts : RecordParts hb k v c t :=
        ⟨hlen₁, hmagic, hversion, ht, hlen₂, hlen₃, hlen₄, hcrc⟩
      rw [hparts.readRecord_eq] at hread
      simp at hread
  · rw [readRecordWith, readHeaderWith_eq herr, if_neg hwhole]
    rfl

/-! ## The loop -/

/-- The loop does what it does with whole reads exactly when every header comes back whole. -/
theorem replayLoopWith_eq_iff (fuel : ℕ) {os : Reads} (herr : .error ∉ os) (rest : Bytes)
    (st : Replay) :
    replayLoopWith fuel os rest st = replayLoop fuel rest st ↔
      os.HeadersWhole (readRecords fuel rest) := by
  induction fuel generalizing os rest st with
  | zero => exact iff_of_true rfl trivial
  | succ fuel ih =>
    rw [replayLoopWith, replayLoop, readRecords, readRecordWith_eq herr]
    cases hread : readRecord rest with
    | none =>
      rw [Option.map_none, ite_self]
      exact iff_of_true rfl trivial
    | some p =>
      obtain ⟨r, rest'⟩ := p
      have herr' : .error ∉ os.afterRecord r := fun h => herr ((os.afterRecord_suffix r).subset h)
      by_cases hwhole : os.HeaderWhole
      · simp only [hwhole, if_true, Option.map_some, Reads.HeadersWhole, true_and]
        exact ih herr' _ _
      · -- the record is not applied, and the offset stays before it
        have hlt := readRecord_length hread
        have hle := le_lastGood_replayLoop fuel rest' (st.apply r (rest.length - rest'.length))
        have hgood : (st.apply r (rest.length - rest'.length)).lastGood =
            st.lastGood + (rest.length - rest'.length) := rfl
        simp only [hwhole, if_false, Reads.HeadersWhole, false_and, iff_false]
        intro heq
        have hsame := congrArg Replay.lastGood heq
        omega

/-- **Short reads of a header.** For all results of the calls of `read` that POSIX allows on a
readable file, replay does what it does with whole reads exactly when the header of every record
that the file begins with comes back whole. -/
theorem replayWith_eq_iff {os : Reads} (herr : .error ∉ os) (file : Bytes) (m : Map) :
    replayWith os file m = replay file m ↔ os.HeadersWhole (foundRecords file) :=
  replayLoopWith_eq_iff file.length herr file { map := m }

/-- With whole reads throughout. -/
theorem replayWith_nil (file : Bytes) (m : Map) : replayWith [] file m = replay file m := by
  have hwhole : ∀ rs, Reads.HeadersWhole [] rs := by
    intro rs
    induction rs with
    | nil => trivial
    | cons r rs ih => exact ⟨by decide, ih⟩
  exact (replayLoopWith_eq_iff file.length (by simp) file { map := m }).mpr (hwhole _)

/-- A log of one record. -/
def shortLog : WalRecord := ⟨.put, 1, [97], [98]⟩

theorem fits_shortLog : ∀ r ∈ [shortLog], r.Fits := by
  intro r hr
  obtain rfl := List.mem_singleton.mp hr
  constructor <;> simp [shortLog]

theorem foundRecords_shortLog : foundRecords shortLog.encode = [shortLog] := by
  simpa using foundRecords_encode fits_shortLog readRecord_nil

/-- Interruptions and short reads of everything but the header. -/
theorem replayWith_eq_shortKey :
    replayWith [.interrupted, .ok, .short 0, .interrupted, .short 0, .short 1, .short 0, .short 0]
      shortLog.encode ∅ = replay shortLog.encode ∅ := by
  refine (replayWith_eq_iff (by simp) shortLog.encode ∅).mpr ?_
  rw [foundRecords_shortLog]
  exact ⟨by decide, trivial⟩

/-- The header's `read` returns four bytes: the record is lost, and the good part of the file
ends before it. -/
theorem not_replayWith_eq :
    ¬ (∀ (os : Reads) (file : Bytes) (m : Map), .error ∉ os →
      replayWith os file m = replay file m) ∧
    (replayWith [.short 3] shortLog.encode ∅).map = ∅ ∧
    (replayWith [.short 3] shortLog.encode ∅).lastGood = 0 ∧
    (replay shortLog.encode ∅).lastGood = 29 := by
  have hbreak : replayWith [.short 3] shortLog.encode ∅ = { map := ∅ } := by
    rw [replayWith, WalRecord.length_encode]
    show replayLoopWith (28 + 1) _ _ _ = _
    rw [replayLoopWith, readRecordWith_eq (by simp), if_neg (by decide)]
  have hlast : (replay shortLog.encode ∅).lastGood = 29 := by
    have hall := replay_encode fits_shortLog readRecord_nil ∅
    rw [encodeAll_cons, encodeAll_nil, List.append_nil, List.append_nil] at hall
    rw [hall]
    rfl
  refine ⟨fun hclaim => ?_, by rw [hbreak], by rw [hbreak], hlast⟩
  have heq := hclaim [.short 3] shortLog.encode ∅ (by simp)
  rw [← heq, hbreak] at hlast
  simp at hlast

end KvEngine
