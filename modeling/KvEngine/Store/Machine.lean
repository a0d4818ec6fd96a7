import KvEngine.Store.KVStore

/-!
# A store on its files

A `Machine` is an opened store together with the file system it writes to and
the results of the system calls to come. `Machine.step` makes one call,
`Machine.crash` is the file system a crash during the call leaves behind, and
`Machine.boot` is a fresh store opened on a file system.

With every system call succeeding, the state of an opened store that never
checkpointed is described by two lists of records, those in the log file and
those in the buffer (`Machine.Logged`); every call keeps that description
(`Logged.step`), and a crash during a call leaves the file with a byte prefix of
the buffer's records appended (`Logged.crash`).
-/

namespace KvEngine

/-- A call on a store, other than `checkpoint`. -/
inductive Op where
  | put (key value : Bytes)
  | del (key : Bytes)
  | setGroupCommitEvery (n : ℤ)
  | flushWal
  deriving DecidableEq

structure Machine where
  store : KVStore
  disk : Disk
  os : Schedule := []

namespace Machine

/-- A fresh `KVStore` after `open(walPath)` on the files `disk`, every system call
succeeding. -/
def boot (disk : Disk) (walPath : Path) : Machine :=
  let r := ({} : KVStore).open walPath disk []
  ⟨r.value.2, disk.run r.effects, r.os⟩

/-- The call `op` on the store, without its return value. -/
def outcome (m : Machine) : Op → Outcome KVStore
  | .put k v => m.store.put k v m.os
  | .del k =>
    let r := m.store.del k m.os
    ⟨r.value.2, r.effects, r.os⟩
  | .setGroupCommitEvery n => ⟨m.store.setGroupCommitEvery n, [], m.os⟩
  | .flushWal =>
    let r := m.store.flushWal m.os
    ⟨r.value.2, r.effects, r.os⟩

/-- The machine after the call `op`. -/
def step (m : Machine) (op : Op) : Machine :=
  let r := m.outcome op
  ⟨r.value, m.disk.run r.effects, r.os⟩

/-- The machine after a sequence of calls. -/
def run (m : Machine) (ops : List Op) : Machine := ops.foldl step m

/-- The files left by a crash after `n` of the effects of the call `op`. -/
def crash (m : Machine) (op : Op) (n : ℕ) : Disk := m.disk.run ((m.outcome op).effects.take n)

@[simp] theorem run_nil (m : Machine) : m.run [] = m := rfl

@[simp] theorem run_cons (m : Machine) (op : Op) (ops : List Op) :
    m.run (op :: ops) = (m.step op).run ops := rfl

theorem run_append (m : Machine) (ops ops' : List Op) :
    m.run (ops ++ ops') = (m.run ops).run ops' := by
  simp [run, List.foldl_append]

@[simp] theorem crash_zero (m : Machine) (op : Op) : m.crash op 0 = m.disk := by
  simp [crash]

/-- Calls without effects leave the files alone. -/
theorem disk_run {m : Machine} {ops : List Op}
    (h : ∀ k < ops.length, ((m.run (ops.take k)).outcome (ops.getD k .flushWal)).effects = []) :
    (m.run ops).disk = m.disk := by
  induction ops generalizing m with
  | nil => rfl
  | cons op ops ih =>
    have hnone : (m.outcome op).effects = [] := h 0 (by simp)
    have hstep : (m.step op).disk = m.disk := by
      show m.disk.run (m.outcome op).effects = _
      rw [hnone, Disk.run_nil]
    rw [run_cons, ih fun k hk => h (k + 1) (by simpa using hk), hstep]

/-- The files of a crash in a flush, before the whole buffer is written. -/
theorem crash_flushWal {m : Machine} {path : Path} {file : Bytes}
    (hpath : m.store.wal.path = path) (hfile : m.disk path = some file)
    (hfd : m.store.wal.fd = some file.length) (hos : m.os = []) {n : ℕ} (hpos : 0 < n)
    (hn : n ≤ m.store.wal.buffer.flatten.length) :
    m.crash .flushWal n =
      Function.update m.disk path (some (file ++ m.store.wal.buffer.flatten.take n)) := by
  have hbuf : m.store.wal.buffer ≠ [] := by
    rintro hnil
    rw [hnil] at hn
    simp at hn
    omega
  have heffects : (m.outcome .flushWal).effects =
      writes path file.length m.store.wal.buffer.flatten ++ [.fsync path] := by
    simp only [outcome, KVStore.flushWal]
    rw [hos, Wal.flush_nil hfd hbuf, hpath]
  rw [crash, heffects, List.take_append_of_le_length (by rwa [length_writes]),
    Disk.run_take_writes _ _ _ _ hfile]

end Machine

/-! ## What a call logs -/

/-- The update a call appends to the log. -/
def Op.logOp : Op → Option LogOp
  | .put k v => some (.put k v)
  | .del k => some (.del k)
  | .setGroupCommitEvery _ => none
  | .flushWal => none

/-- The record of an update. -/
def LogOp.record (seq : ℕ) : LogOp → WalRecord
  | .put k v => ⟨.put, seq, k, v⟩
  | .del k => ⟨.del, seq, k, []⟩

@[simp] theorem LogOp.op_record (seq : ℕ) (op : LogOp) : (op.record seq).op = op := by
  cases op <;> rfl

/-- The key and value a call logs fit the 32-bit length fields of the record
format. -/
def Op.Fits : Op → Prop
  | .put k v => k.length < 2 ^ 32 ∧ v.length < 2 ^ 32
  | .del k => k.length < 2 ^ 32
  | .setGroupCommitEvery _ => True
  | .flushWal => True

instance (op : Op) : Decidable op.Fits := by
  cases op <;> unfold Op.Fits <;> infer_instance

theorem Op.Fits.record {op : Op} (h : op.Fits) {lop : LogOp} (hop : op.logOp = some lop) {seq : ℕ}
    (hseq : seq < 2 ^ 64) : (lop.record seq).Fits := by
  cases op with
  | put k v =>
    obtain rfl := Option.some.inj hop
    exact ⟨h.1, h.2, hseq, by simp [LogOp.record]⟩
  | del k =>
    obtain rfl := Option.some.inj hop
    exact ⟨h, by simp [LogOp.record], hseq, fun _ => rfl⟩
  | setGroupCommitEvery n => simp [Op.logOp] at hop
  | flushWal => simp [Op.logOp] at hop

/-- The records the call `op` on `m` appends to the log. -/
def Machine.records (m : Machine) (op : Op) : List WalRecord :=
  (op.logOp.map (LogOp.record m.store.nextSeq)).toList

theorem Machine.logOps_records (m : Machine) (op : Op) :
    logOps (m.records op) = op.logOp.toList := by
  cases op <;> simp [Machine.records, logOps, Op.logOp]

theorem Machine.fits_records {m : Machine} {op : Op} (h : op.Fits) :
    ∀ r ∈ m.records op, r.Fits := by
  intro r hr
  simp only [Machine.records, Option.mem_toList, Option.map_eq_some_iff] at hr
  obtain ⟨lop, hop, rfl⟩ := hr
  exact h.record hop (Nat.mod_lt _ (by norm_num))

/-- The call `op` on `m` ends in a completed flush: `flush_wal` returned true,
or the call synced the log (group commit). -/
def Machine.CompletesFlush (m : Machine) (op : Op) : Prop :=
  (op = .flushWal ∧ (m.store.flushWal m.os).value.1 = true) ∨
    Effect.fsync m.store.wal.path ∈ (m.outcome op).effects

/-- The store after the record of `lop` joined the buffer and its update the map. -/
def KVStore.appended (s : KVStore) (lop : LogOp) : KVStore :=
  { s with
    seq := s.nextSeq
    wal := { s.wal with buffer := s.wal.buffer ++ [(lop.record s.nextSeq).encode] }
    map := lop.apply s.map }

theorem Wal.writeRecord_eq {w : Wal} (hfd : w.fd ≠ none) (r : WalRecord) :
    w.writeRecord r = some { w with buffer := w.buffer ++ [r.encode] } := by
  unfold Wal.writeRecord
  split
  · exact absurd ‹_› hfd
  · rfl

/-- `put` on an opened store with an open log. -/
theorem KVStore.put_eq {s : KVStore} (hopen : s.opened = true) (hfd : s.wal.fd ≠ none)
    (k v : Bytes) (os : Schedule) :
    s.put k v os =
      if s.nextSeq % s.groupCommitEvery = 0 then
        ⟨((s.appended (.put k v)).flushWal os).value.2,
          ((s.appended (.put k v)).flushWal os).effects,
          ((s.appended (.put k v)).flushWal os).os⟩
      else ⟨s.appended (.put k v), [], os⟩ := by
  unfold KVStore.put
  rw [if_pos hopen]
  simp only [Wal.appendPut]
  rw [Wal.writeRecord_eq hfd]
  rfl

/-- `del` on an opened store with an open log: a due flush that fails leaves the key in
the map. -/
theorem KVStore.del_eq {s : KVStore} (hopen : s.opened = true) (hfd : s.wal.fd ≠ none)
    (k : Bytes) (os : Schedule) :
    s.del k os =
      if s.nextSeq % s.groupCommitEvery = 0 then
        let r := (s.appended (.del k)).wal.flush os
        ⟨(r.value.1 && (s.map.lookup k).isSome,
          { s.appended (.del k) with
            wal := r.value.2, map := if r.value.1 then s.map.erase k else s.map }),
          r.effects, r.os⟩
      else ⟨((s.map.lookup k).isSome, s.appended (.del k)), [], os⟩ := by
  unfold KVStore.del
  rw [if_pos hopen]
  simp only [Wal.appendDel]
  rw [Wal.writeRecord_eq hfd]
  by_cases hdue : s.nextSeq % s.groupCommitEvery = 0
  · simp only [hdue, if_true]
    show (if ((s.appended (.del k)).wal.flush os).value.1 = true then _ else _) = _
    by_cases hok : ((s.appended (.del k)).wal.flush os).value.1 = true
    · rw [if_pos hok, hok]
      rfl
    · rw [if_neg hok, Bool.eq_false_of_not_eq_true hok]
      rfl
  · simp only [hdue, if_false]
    rfl

/-! ## The state of an opened store -/

/-- The map a fresh store starts replay from: the snapshot's, if there is one. -/
def baseMap (disk : Disk) : Map := (loadFromFileUnlocked ∅ snapshotPath disk []).2.1

theorem baseMap_of_none {disk : Disk} (h : disk snapshotPath = none) : baseMap disk = ∅ := by
  simp [baseMap, loadFromFileUnlocked, h]

theorem baseMap_of_some {disk : Disk} {text : Bytes} (h : disk snapshotPath = some text) :
    baseMap disk = loadText text ∅ := by
  simp [baseMap, loadFromFileUnlocked, h]

/-- Only the snapshot file matters. -/
theorem baseMap_congr {disk disk' : Disk} (h : disk' snapshotPath = disk snapshotPath) :
    baseMap disk' = baseMap disk := by
  simp only [baseMap, loadFromFileUnlocked, h]

theorem baseMap_update {path : Path} (h : path ≠ snapshotPath) (disk : Disk) (f : Option Bytes) :
    baseMap (Function.update disk path f) = baseMap disk :=
  baseMap_congr (Function.update_of_ne h.symm _ _)

/-- The opened store `m` on the log file `path`: the file was `old` when the log
was opened and has grown by the records `written`, the buffer holds the records
`pending`, the map is what both make of the map `base` that replaying `old`
gives, and no system call will fail. -/
structure Machine.Logged (m : Machine) (path : Path) (old : Bytes) (base : Map)
    (written pending : List WalRecord) : Prop where
  path_ne : path ≠ snapshotPath
  base_eq : (replay old (baseMap m.disk)).map = base
  opened : m.store.opened = true
  os : m.os = []
  walPath : m.store.wal.path = path
  file : m.disk path = some (old ++ encodeAll written)
  fd : m.store.wal.fd = some (old ++ encodeAll written).length
  buffer : m.store.wal.buffer = pending.map WalRecord.encode
  map : m.store.map = applyAll (logOps (written ++ pending)) base

namespace Machine.Logged

variable {m : Machine} {path : Path} {old : Bytes} {base : Map} {written pending : List WalRecord}

/-- `flush` on such a store with a nonempty buffer. -/
theorem flush (h : m.Logged path old base written pending) (hp : pending ≠ []) :
    m.store.wal.flush [] =
      ⟨(true, { m.store.wal with
          fd := some (old ++ encodeAll (written ++ pending)).length, buffer := [] }),
        writes path (old ++ encodeAll written).length (encodeAll pending) ++ [.fsync path],
        []⟩ := by
  have hbuf : m.store.wal.buffer ≠ [] := by simp [h.buffer, hp]
  have hflat : m.store.wal.buffer.flatten = encodeAll pending := by rw [h.buffer, encodeAll]
  obtain rfl := h.walPath
  rw [Wal.flush_nil h.fd hbuf, hflat, encodeAll_append, ← List.append_assoc]
  simp only [List.length_append]

/-- `flush` with an empty buffer does nothing. -/
theorem flush_nil (h : m.Logged path old base written []) :
    m.store.wal.flush [] = ⟨(true, m.store.wal), [], []⟩ := by
  have hbuf : m.store.wal.buffer = [] := by simp [h.buffer]
  simp [Wal.flush, h.fd, hbuf]

theorem flush_ok (h : m.Logged path old base written pending) :
    (m.store.wal.flush []).value.1 = true := by
  by_cases hp : pending = []
  · subst hp
    rw [h.flush_nil]
  · rw [h.flush hp]

theorem flush_os (h : m.Logged path old base written pending) : (m.store.wal.flush []).os = [] := by
  by_cases hp : pending = []
  · subst hp
    rw [h.flush_nil]
  · rw [h.flush hp]

/-- The machine after its buffer is flushed to the file. -/
theorem flushed (h : m.Logged path old base written pending) :
    Machine.Logged
      ⟨{ m.store with wal := (m.store.wal.flush []).value.2 },
        m.disk.run (m.store.wal.flush []).effects, []⟩ path old base (written ++ pending) [] := by
  by_cases hp : pending = []
  · subst hp
    rw [h.flush_nil]
    exact ⟨h.path_ne, h.base_eq, h.opened, rfl, h.walPath, by simpa using h.file,
      by simpa using h.fd, h.buffer, by simpa using h.map⟩
  · rw [h.flush hp]
    simp only [Disk.run_append, Disk.run_writes _ _ _ _ h.file, Disk.run_cons, Disk.run_nil,
      Effect.apply]
    exact ⟨h.path_ne, by rw [baseMap_update h.path_ne, h.base_eq], h.opened, rfl, h.walPath,
      by simp, rfl, rfl, by simpa using h.map⟩

/-- A crash `n` effects into a flush leaves the file with a byte prefix of the
buffer appended, the whole buffer once the flush has synced. -/
theorem crash_flush (h : m.Logged path old base written pending) (n : ℕ) :
    ∃ n', m.disk.run ((m.store.wal.flush []).effects.take n) =
        Function.update m.disk path
          (some (old ++ encodeAll written ++ (encodeAll pending).take n')) ∧
      (Effect.fsync path ∈ (m.store.wal.flush []).effects.take n →
        (encodeAll pending).length ≤ n') := by
  by_cases hp : pending = []
  · subst hp
    refine ⟨0, ?_, ?_⟩
    · rw [h.flush_nil]
      simp [← h.file]
    · rw [h.flush_nil]
      simp
  · refine ⟨n, ?_, ?_⟩
    · rw [h.flush hp, List.take_append, Disk.run_append, Disk.run_take_writes _ _ _ _ h.file]
      exact Disk.run_take_fsync _ _ _
    · rw [h.flush hp, List.take_append, List.mem_append]
      rintro (hmem | hmem)
      · exact absurd (List.mem_of_mem_take hmem) (fsync_not_mem_writes _ _ _ _)
      · by_contra hlt
        rw [length_writes, Nat.sub_eq_zero_of_le (by omega)] at hmem
        simp at hmem

theorem fd_ne (h : m.Logged path old base written pending) : m.store.wal.fd ≠ none := by
  simp [h.fd]

/-- A record that joins the buffer joins `pending`. -/
theorem appended (h : m.Logged path old base written pending) (lop : LogOp) :
    Machine.Logged { m with store := m.store.appended lop } path old base written
      (pending ++ [lop.record m.store.nextSeq]) where
  path_ne := h.path_ne
  base_eq := h.base_eq
  opened := h.opened
  os := h.os
  walPath := h.walPath
  file := h.file
  fd := h.fd
  buffer := by simp [KVStore.appended, h.buffer]
  map := by simp [KVStore.appended, h.map, logOps]

/-- What a logging call does: the record joins the buffer, and the buffer is
flushed when the sequence number is due. -/
theorem outcome_of_logOp (h : m.Logged path old base written pending) {op : Op} {lop : LogOp}
    (hop : op.logOp = some lop) :
    m.outcome op =
      if m.store.nextSeq % m.store.groupCommitEvery = 0 then
        ⟨{ m.store.appended lop with wal := ((m.store.appended lop).wal.flush []).value.2 },
          ((m.store.appended lop).wal.flush []).effects, []⟩
      else ⟨m.store.appended lop, [], []⟩ := by
  have hok := (h.appended lop).flush_ok
  have hos := (h.appended lop).flush_os
  simp only at hok hos
  cases op with
  | put k v =>
    obtain rfl := Option.some.inj hop
    simp only [Machine.outcome]
    rw [h.os, KVStore.put_eq h.opened h.fd_ne]
    simp only [KVStore.flushWal, hos]
  | del k =>
    obtain rfl := Option.some.inj hop
    simp only [Machine.outcome]
    rw [h.os, KVStore.del_eq h.opened h.fd_ne]
    by_cases hdue : m.store.nextSeq % m.store.groupCommitEvery = 0
    · simp only [hdue, if_true, hok, hos]
      rfl
    · simp only [hdue, if_false]
  | setGroupCommitEvery n => simp [Op.logOp] at hop
  | flushWal => simp [Op.logOp] at hop

theorem records_of_logOp {op : Op} {lop : LogOp} (hop : op.logOp = some lop) :
    m.records op = [lop.record m.store.nextSeq] := by
  simp [Machine.records, hop]

theorem outcome_flushWal (h : m.Logged path old base written pending) :
    m.outcome .flushWal =
      ⟨{ m.store with wal := (m.store.wal.flush []).value.2 }, (m.store.wal.flush []).effects,
        []⟩ := by
  have hos := h.flush_os
  simp only [Machine.outcome, KVStore.flushWal]
  rw [h.os, hos]

/-- A call that completes a flush leaves every record in the file. -/
theorem step_of_completesFlush (h : m.Logged path old base written pending) {op : Op}
    (hc : m.CompletesFlush op) :
    (m.step op).Logged path old base (written ++ (pending ++ m.records op)) [] := by
  cases hop : op.logOp with
  | some lop =>
    have happ := h.appended lop
    have hflush := happ.flushed
    unfold Machine.CompletesFlush at hc
    unfold Machine.step
    rw [h.outcome_of_logOp hop] at hc ⊢
    rw [records_of_logOp hop]
    split_ifs at hc ⊢ with hdue
    · exact hflush
    · rcases hc with ⟨rfl, -⟩ | hc
      · simp [Op.logOp] at hop
      · simp at hc
  | none =>
    have hrec : m.records op = [] := by simp [Machine.records, hop]
    rw [hrec, List.append_nil]
    cases op with
    | put k v => simp [Op.logOp] at hop
    | del k => simp [Op.logOp] at hop
    | setGroupCommitEvery n => simp [Machine.CompletesFlush, Machine.outcome] at hc
    | flushWal =>
      unfold Machine.step
      rw [h.outcome_flushWal]
      exact h.flushed

/-- A call that completes no flush leaves the file as it is. -/
theorem step_of_not_completesFlush (h : m.Logged path old base written pending) {op : Op}
    (hc : ¬ m.CompletesFlush op) :
    (m.step op).Logged path old base written (pending ++ m.records op) := by
  cases hop : op.logOp with
  | some lop =>
    have happ := h.appended lop
    unfold Machine.CompletesFlush at hc
    unfold Machine.step
    rw [h.outcome_of_logOp hop] at hc ⊢
    rw [records_of_logOp hop]
    split_ifs at hc ⊢ with hdue
    · -- a due flush of a nonempty buffer syncs the file
      exfalso
      apply hc
      right
      rw [happ.flush (by simp)]
      simp [h.walPath]
    · simp only [Disk.run_nil]
      rwa [h.os] at happ
  | none =>
    have hrec : m.records op = [] := by simp [Machine.records, hop]
    rw [hrec, List.append_nil]
    cases op with
    | put k v => simp [Op.logOp] at hop
    | del k => simp [Op.logOp] at hop
    | setGroupCommitEvery n =>
      exact ⟨h.path_ne, h.base_eq, h.opened, h.os, h.walPath, h.file, h.fd, h.buffer, h.map⟩
    | flushWal =>
      exfalso
      apply hc
      left
      refine ⟨rfl, ?_⟩
      simp only [KVStore.flushWal]
      rw [h.os]
      exact h.flush_ok

/-- Every call keeps the description of the store: its record, if any, joins the
log, and the file is as before or has the whole buffer appended, which is so
after a completed flush. -/
theorem step (h : m.Logged path old base written pending) (op : Op) :
    ∃ written' pending', (m.step op).Logged path old base written' pending' ∧
      written' ++ pending' = written ++ (pending ++ m.records op) ∧
      (written' = written ∨ pending' = []) ∧ (m.CompletesFlush op → pending' = []) := by
  by_cases hc : m.CompletesFlush op
  · exact ⟨_, [], h.step_of_completesFlush hc, by simp, Or.inr rfl, fun _ => rfl⟩
  · exact ⟨_, _, h.step_of_not_completesFlush hc, rfl, Or.inl rfl, fun h => absurd h hc⟩

/-- A crash during a call leaves the file with a byte prefix of the buffer
appended, the call's own record included; the whole of it once the call synced. -/
theorem crash (h : m.Logged path old base written pending) (op : Op) (n : ℕ) :
    ∃ n', m.crash op n = Function.update m.disk path
        (some (old ++ encodeAll written ++ (encodeAll (pending ++ m.records op)).take n')) ∧
      (Effect.fsync path ∈ (m.outcome op).effects.take n →
        (encodeAll (pending ++ m.records op)).length ≤ n') := by
  have hnone : m.disk = Function.update m.disk path (some (old ++ encodeAll written)) := by
    rw [← h.file, Function.update_eq_self]
  cases hop : op.logOp with
  | some lop =>
    have happ := h.appended lop
    unfold Machine.crash
    rw [h.outcome_of_logOp hop, records_of_logOp hop]
    split_ifs with hdue
    · exact happ.crash_flush n
    · exact ⟨0, by simpa using hnone, by simp⟩
  | none =>
    have hrec : m.records op = [] := by simp [Machine.records, hop]
    rw [hrec, List.append_nil]
    unfold Machine.crash
    cases op with
    | put k v => simp [Op.logOp] at hop
    | del k => simp [Op.logOp] at hop
    | setGroupCommitEvery k =>
      exact ⟨0, by simpa [Machine.outcome] using hnone, by simp [Machine.outcome]⟩
    | flushWal =>
      rw [h.outcome_flushWal]
      exact h.crash_flush n

end Machine.Logged

end KvEngine
