import KvEngine.Common.LogOp
import KvEngine.Os.Disk
import KvEngine.Wal.Record

/-!
# The write-ahead log

Model of `class Wal` (`include/kv/wal.h`, `src/wal.cpp`): the record buffer,
`flush` with its loop over partial writes, and the replay of a file into a map.

Results:
* `Wal.flush_nil`: with every system call succeeding, `flush` appends the whole
  buffer to the file, syncs it and empties the buffer.
* `replay_encode`: replaying whole records followed by bytes that do not parse
  applies exactly those records.
* `take_encodeAll`: a byte prefix of a sequence of records is the records that lie wholly inside
  it, and bytes that do not parse.
-/

namespace KvEngine

/-- `class Wal`. `fd` is the file offset of the open descriptor, `none` for
`fd_ = -1`. -/
structure Wal where
  fd : Option ℕ := none
  path : Path := ""
  buffer : List Bytes := []
  lastGoodOffset : ℕ := 0

namespace Wal

/-- `Wal::open` (lines 86–93): `O_CREAT | O_RDWR`, then `lseek` to the end. -/
def «open» (w : Wal) (path : Path) (disk : Disk) (os : Schedule) : Outcome (Bool × Wal) :=
  match os.next with
  | (.error, os) => ⟨(false, { w with path := path, fd := none }), [], os⟩
  | (_, os) =>
    ⟨(true, { w with
        path := path, fd := some ((disk path).getD []).length, lastGoodOffset := 0 }),
      [.create path], os⟩

/-- `Wal::close` (lines 234–236). -/
def close (w : Wal) : Wal := { w with fd := none }

/-- `Wal::write_record` (lines 103–149): the encoded record joins the buffer;
`none` when no file is open. -/
def writeRecord (w : Wal) (r : WalRecord) : Option Wal :=
  match w.fd with
  | none => none
  | some _ => some { w with buffer := w.buffer ++ [r.encode] }

/-- `Wal::append_put` (lines 95–97). -/
def appendPut (w : Wal) (seq : ℕ) (key value : Bytes) : Option Wal :=
  w.writeRecord ⟨.put, seq, key, value⟩

/-- `Wal::append_del` (lines 99–101). -/
def appendDel (w : Wal) (seq : ℕ) (key : Bytes) : Option Wal :=
  w.writeRecord ⟨.del, seq, key, []⟩

/-- The inner loop of `flush` (lines 246–251) over one record: `while (n > 0)`
write what is left at the current offset. Returns success and the new offset. -/
def writeLoop (path : Path) (pos : ℕ) (p : Bytes) : Schedule → Outcome (Bool × ℕ)
  | [] => ⟨(true, pos + p.length), writes path pos p, []⟩
  | r :: os =>
    if p = [] then ⟨(true, pos), [], r :: os⟩
    else
      match r with
      | .ok => ⟨(true, pos + p.length), writes path pos p, os⟩
      | .error => ⟨(false, pos), [], os⟩
      | .short n =>
        let w := p.take n
        let r := writeLoop path (pos + w.length) (p.drop n) os
        ⟨r.value, writes path pos w ++ r.effects, r.os⟩

/-- The outer loop of `flush` (lines 243–252) over the buffer. -/
def flushLoop (path : Path) : ℕ → List Bytes → Schedule → Outcome (Bool × ℕ)
  | pos, [], os => ⟨(true, pos), [], os⟩
  | pos, rec :: recs, os =>
    let r := writeLoop path pos rec os
    if r.value.1 then
      let r' := flushLoop path r.value.2 recs r.os
      ⟨r'.value, r.effects ++ r'.effects, r'.os⟩
    else ⟨r.value, r.effects, r.os⟩

/-- `Wal::flush` (lines 239–259). The buffer is cleared only after a successful
`fsync`; after a failure it is kept whole, and the offset stays where the last
write left it. -/
def flush (w : Wal) (os : Schedule) : Outcome (Bool × Wal) :=
  match w.fd with
  | none => ⟨(false, w), [], os⟩
  | some pos =>
    if w.buffer = [] then ⟨(true, w), [], os⟩
    else
      let r := flushLoop w.path pos w.buffer os
      let w := { w with fd := some r.value.2 }
      if r.value.1 then
        match r.os.next with
        | (.error, os) => ⟨(false, w), r.effects, os⟩
        | (_, os) => ⟨(true, { w with buffer := [] }), r.effects ++ [.fsync w.path], os⟩
      else ⟨(false, w), r.effects, r.os⟩

end Wal

/-! ## Replay -/

/-- The update a record stands for. -/
def WalRecord.op (r : WalRecord) : LogOp :=
  match r.type with
  | .put => .put r.key r.value
  | .del => .del r.key

/-- The variables of the loop of `replay_into`: the store's map, `max_seq` and
`last_good`. -/
structure Replay where
  map : Map
  maxSeq : ℕ := 0
  lastGood : ℕ := 0

/-- The effect of a record of `n` bytes on the loop's variables (lines 203–216). -/
def Replay.apply (st : Replay) (r : WalRecord) (n : ℕ) : Replay where
  map := r.op.apply st.map
  maxSeq := max st.maxSeq r.seq
  lastGood := st.lastGood + n

/-- The loop of `Wal::replay_into` (lines 162–217) on the bytes from the current
offset to the end of the file, for at most `fuel` records. -/
def replayLoop : ℕ → Bytes → Replay → Replay
  | 0, _, st => st
  | fuel + 1, rest, st =>
    match readRecord rest with
    | none => st
    | some (r, rest') => replayLoop fuel rest' (st.apply r (rest.length - rest'.length))

/-- `Wal::replay_into` (lines 151–225) of a file: the loop runs until it breaks,
which it does after at most `file.length` records since each has at least
`headerSize + 4` bytes (`replayLoop_fuel`). Every `read` returns what it asked
for as far as the file has it. -/
def replay (file : Bytes) (map : Map) : Replay := replayLoop file.length file { map := map }

/-- `Wal::replay_into` on the open log: `lseek` to the start, the loop, and
`lseek` back to the end. Returns whether a file is open, the loop's variables
and the log. -/
def Wal.replayInto (w : Wal) (map : Map) (disk : Disk) : Option (Replay × Wal) :=
  match w.fd with
  | none => none
  | some _ =>
    let file := (disk w.path).getD []
    let st := replay file map
    some (st, { w with lastGoodOffset := st.lastGood, fd := some file.length })

/-- Any fuel of at least the file's length gives the result of the unbounded loop. -/
theorem replayLoop_fuel {fuel fuel' : ℕ} {rest : Bytes} (h : rest.length ≤ fuel)
    (h' : rest.length ≤ fuel') (st : Replay) :
    replayLoop fuel rest st = replayLoop fuel' rest st := by
  induction fuel generalizing fuel' rest st with
  | zero =>
    obtain rfl : rest = [] := List.length_eq_zero_iff.mp (by omega)
    cases fuel' with
    | zero => rfl
    | succ n => rfl
  | succ fuel ih =>
    cases fuel' with
    | zero =>
      obtain rfl : rest = [] := List.length_eq_zero_iff.mp (by omega)
      rfl
    | succ fuel' =>
      rw [replayLoop, replayLoop]
      cases hr : readRecord rest with
      | none => rfl
      | some p =>
        have := readRecord_length hr
        exact ih (by omega) (by omega) _

/-- The updates of a list of records. -/
def logOps (rs : List WalRecord) : List LogOp := rs.map WalRecord.op

/-- The bytes of a list of records. -/
def encodeAll (rs : List WalRecord) : Bytes := (rs.map WalRecord.encode).flatten

@[simp] theorem encodeAll_nil : encodeAll [] = [] := rfl

@[simp] theorem encodeAll_cons (r : WalRecord) (rs : List WalRecord) :
    encodeAll (r :: rs) = r.encode ++ encodeAll rs := rfl

@[simp] theorem encodeAll_append (rs rs' : List WalRecord) :
    encodeAll (rs ++ rs') = encodeAll rs ++ encodeAll rs' := by
  simp [encodeAll]

theorem encodeAll_eq_nil {rs : List WalRecord} : encodeAll rs = [] ↔ rs = [] := by
  constructor
  · intro h
    cases rs with
    | nil => rfl
    | cons r rs =>
      have hlen := congrArg List.length h
      rw [encodeAll_cons, List.length_append, WalRecord.length_encode, List.length_nil] at hlen
      have := r.size_pos
      omega
  · rintro rfl
    rfl

/-- The loop's variables after applying records one by one. -/
def Replay.applyAll (st : Replay) (rs : List WalRecord) : Replay :=
  rs.foldl (fun st r => st.apply r r.size) st

theorem Replay.applyAll_map (st : Replay) (rs : List WalRecord) :
    (st.applyAll rs).map = KvEngine.applyAll (logOps rs) st.map := by
  induction rs generalizing st with
  | nil => rfl
  | cons r rs ih =>
    rw [Replay.applyAll, List.foldl_cons, ← Replay.applyAll, ih]
    rfl

theorem Replay.applyAll_lastGood (st : Replay) (rs : List WalRecord) :
    (st.applyAll rs).lastGood = st.lastGood + (encodeAll rs).length := by
  induction rs generalizing st with
  | nil => rfl
  | cons r rs ih =>
    rw [Replay.applyAll, List.foldl_cons, ← Replay.applyAll, ih]
    simp [Replay.apply, Nat.add_assoc]

/-- Whole records are applied, and the loop goes on behind them. -/
theorem replayLoop_append {rs : List WalRecord} (hfit : ∀ r ∈ rs, r.Fits) (t : Bytes) {fuel : ℕ}
    (hfuel : (encodeAll rs ++ t).length ≤ fuel) (st : Replay) :
    replayLoop fuel (encodeAll rs ++ t) st = replayLoop t.length t (st.applyAll rs) := by
  induction rs generalizing fuel st with
  | nil => exact replayLoop_fuel hfuel le_rfl st
  | cons r rs ih =>
    have hpos := r.size_pos
    rw [encodeAll_cons, List.append_assoc, List.length_append, WalRecord.length_encode] at hfuel
    obtain ⟨fuel, rfl⟩ : ∃ n, fuel = n + 1 := ⟨fuel - 1, by omega⟩
    rw [encodeAll_cons, List.append_assoc, replayLoop,
      readRecord_encode (hfit r (by simp))]
    simp only
    rw [ih (fun x hx => hfit x (by simp [hx])) (by omega)]
    simp [Replay.applyAll]

theorem replayLoop_of_none {t : Bytes} (ht : readRecord t = none) (fuel : ℕ) (st : Replay) :
    replayLoop fuel t st = st := by
  cases fuel with
  | zero => rfl
  | succ n => simp [replayLoop, ht]

/-- Replaying whole records followed by bytes at which the loop breaks. -/
theorem replayLoop_encode {rs : List WalRecord} (hfit : ∀ r ∈ rs, r.Fits) {t : Bytes}
    (ht : readRecord t = none) {fuel : ℕ} (hfuel : (encodeAll rs ++ t).length ≤ fuel)
    (st : Replay) : replayLoop fuel (encodeAll rs ++ t) st = st.applyAll rs := by
  rw [replayLoop_append hfit t hfuel, replayLoop_of_none ht]

/-- The last good offset only moves on. -/
theorem le_lastGood_replayLoop (fuel : ℕ) (rest : Bytes) (st : Replay) :
    st.lastGood ≤ (replayLoop fuel rest st).lastGood := by
  induction fuel generalizing rest st with
  | zero => exact le_rfl
  | succ fuel ih =>
    rw [replayLoop]
    cases readRecord rest with
    | none => exact le_rfl
    | some p =>
      obtain ⟨r, rest'⟩ := p
      exact (Nat.le_add_right _ _).trans (ih rest' (st.apply r (rest.length - rest'.length)))

theorem readRecord_nil : readRecord [] = none := rfl

/-- The first `fuel` whole records of a file. -/
def readRecords : ℕ → Bytes → List WalRecord
  | 0, _ => []
  | fuel + 1, rest =>
    match readRecord rest with
    | none => []
    | some (r, rest') => r :: readRecords fuel rest'

/-- The records replay finds in a file. -/
def foundRecords (file : Bytes) : List WalRecord := readRecords file.length file

/-- Replay makes of a map what the records it finds do. -/
theorem replay_map (file : Bytes) (m : Map) :
    (replay file m).map = applyAll (logOps (foundRecords file)) m := by
  have hloop : ∀ (fuel : ℕ) (rest : Bytes) (st : Replay),
      (replayLoop fuel rest st).map = applyAll (logOps (readRecords fuel rest)) st.map := by
    intro fuel
    induction fuel with
    | zero => exact fun _ _ => rfl
    | succ fuel ih =>
      intro rest st
      rw [replayLoop, readRecords]
      cases readRecord rest with
      | none => rfl
      | some p => exact ih _ _
  exact hloop _ _ _

/-- Replaying a file twice is replaying it once. -/
theorem replay_replay (file : Bytes) (m : Map) :
    (replay file (replay file m).map).map = (replay file m).map := by
  have hagain := applyAll_take_applyAll (logOps (foundRecords file))
    (logOps (foundRecords file)).length m
  rw [List.take_length] at hagain
  rw [replay_map, replay_map]
  exact hagain

theorem readRecords_encode {rs : List WalRecord} (hfit : ∀ r ∈ rs, r.Fits) {t : Bytes}
    (ht : readRecord t = none) {fuel : ℕ} (hfuel : (encodeAll rs ++ t).length ≤ fuel) :
    readRecords fuel (encodeAll rs ++ t) = rs := by
  induction rs generalizing fuel with
  | nil =>
    cases fuel with
    | zero => rfl
    | succ n => simp [readRecords, ht]
  | cons r rs ih =>
    have hpos := r.size_pos
    rw [encodeAll_cons, List.append_assoc, List.length_append, WalRecord.length_encode] at hfuel
    obtain ⟨fuel, rfl⟩ : ∃ n, fuel = n + 1 := ⟨fuel - 1, by omega⟩
    rw [encodeAll_cons, List.append_assoc, readRecords, readRecord_encode (hfit r (by simp))]
    simp only
    rw [ih (fun x hx => hfit x (by simp [hx])) (by omega)]

/-- Whole records are found, up to bytes at which the loop breaks. -/
theorem foundRecords_encode {rs : List WalRecord} (hfit : ∀ r ∈ rs, r.Fits) {t : Bytes}
    (ht : readRecord t = none) : foundRecords (encodeAll rs ++ t) = rs :=
  readRecords_encode hfit ht le_rfl

/-- Replaying whole records followed by bytes that do not parse applies exactly
those records, and the last good offset is their end. -/
theorem replay_encode {rs : List WalRecord} (hfit : ∀ r ∈ rs, r.Fits) {t : Bytes}
    (ht : readRecord t = none) (m : Map) :
    replay (encodeAll rs ++ t) m = ({ map := m } : Replay).applyAll rs :=
  replayLoop_encode hfit ht le_rfl _

/-- A byte prefix of a sequence of records is some whole records and a part of
the next one, at which the loop breaks. -/
theorem take_encodeAll {rs : List WalRecord} (hfit : ∀ r ∈ rs, r.Fits) (n : ℕ) :
    ∃ k t, k ≤ rs.length ∧ (encodeAll rs).take n = encodeAll (rs.take k) ++ t ∧
      readRecord t = none ∧ (t ≠ [] → k < rs.length) ∧
      ((encodeAll rs).length ≤ n → k = rs.length) := by
  induction rs generalizing n with
  | nil => exact ⟨0, [], le_rfl, by simp, readRecord_nil, by simp, fun _ => rfl⟩
  | cons r rs ih =>
    by_cases hn : n < r.size
    · refine ⟨0, r.encode.take n, by simp, ?_, readRecord_take_encode (hfit r (by simp)) hn,
        by simp, ?_⟩
      · rw [encodeAll_cons, List.take_append_of_le_length (by simp; omega)]
        simp
      · intro h
        simp at h
        omega
    · obtain ⟨k, t, hk, htake, ht, hlt, hall⟩ := ih (fun x hx => hfit x (by simp [hx])) (n - r.size)
      refine ⟨k + 1, t, by simpa using hk, ?_, ht, by simpa using hlt, ?_⟩
      · rw [encodeAll_cons, List.take_append, List.take_of_length_le (by simp; omega),
          WalRecord.length_encode, htake]
        simp
      · intro h
        have := hall (by simp at h; omega)
        simp [this]

/-! ## Flush when every system call succeeds -/

theorem Wal.flushLoop_nil (path : Path) (pos : ℕ) (recs : List Bytes) :
    Wal.flushLoop path pos recs [] =
      ⟨(true, pos + recs.flatten.length), writes path pos recs.flatten, []⟩ := by
  induction recs generalizing pos with
  | nil => rfl
  | cons rec recs ih =>
    simp only [Wal.flushLoop, Wal.writeLoop, if_true, ih]
    rw [List.flatten_cons, writes_append, List.length_append, Nat.add_assoc]

/-- With every system call succeeding, `flush` of a nonempty buffer appends all
of it to the file, syncs and empties the buffer. -/
theorem Wal.flush_nil {w : Wal} {pos : ℕ} (hfd : w.fd = some pos) (hbuf : w.buffer ≠ []) :
    w.flush [] =
      ⟨(true, { w with fd := some (pos + w.buffer.flatten.length), buffer := [] }),
        writes w.path pos w.buffer.flatten ++ [.fsync w.path], []⟩ := by
  simp [Wal.flush, hfd, hbuf, Wal.flushLoop_nil]

theorem Wal.flush_working {w : Wal} (hfd : w.fd ≠ none) :
    (w.flush []).value.1 = true ∧ (w.flush []).value.2.fd ≠ none ∧ (w.flush []).os = [] := by
  obtain ⟨pos, hpos⟩ := Option.ne_none_iff_exists'.mp hfd
  by_cases hbuf : w.buffer = []
  · simp [Wal.flush, hpos, hbuf]
  · rw [Wal.flush_nil hpos hbuf]
    exact ⟨rfl, Option.some_ne_none _, rfl⟩

end KvEngine
