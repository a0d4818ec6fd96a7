import KvEngine.Store.Recovery

/-!
# Stores that work

An opened store with an open log goes on taking calls whatever the system calls say; as
long as they succeed its map and its log's buffer are easily told.

Results:
* `Machine.Serving.run`: an open store applies its puts, whatever the system calls return.
* `Wal.flush_of_no_error`: writes that are cut short make no flush fail.
* `Machine.Working.run`: the calls a working store takes are applied in order.
* `Machine.Working.step_logOp`, `Machine.Working.step_flushWal`: what they do to the buffer.
-/

namespace KvEngine

/-! ## Open stores -/

/-- What calls make of the map of a working store. -/
def applyOps (ops : List Op) (m : Map) : Map := applyAll (ops.filterMap Op.logOp) m

/-- An opened store with an open log. -/
structure Machine.Serving (m : Machine) : Prop where
  opened : m.store.opened = true
  fd : m.store.wal.fd ≠ none

/-- A flush neither opens nor closes the log. -/
theorem Wal.fd_flush (w : Wal) (os : Schedule) : (w.flush os).value.2.fd = none ↔ w.fd = none := by
  unfold Wal.flush
  split
  · rfl
  · rename_i hfd
    split_ifs
    · rfl
    · dsimp only
      split_ifs
      · split <;> simp [hfd]
      · simp [hfd]

namespace Machine

variable {m : Machine}

/-- An open store stays open, and takes every put. -/
theorem Serving.step (h : m.Serving) (op : Op) : (m.step op).Serving ∧
    ((∀ k, op ≠ .del k) → (m.step op).store.map = applyOps [op] m.store.map) := by
  have hflush : ∀ s : KVStore, s.wal.fd ≠ none → (s.flushWal m.os).value.2.wal.fd ≠ none :=
    fun s hfd hnone => hfd ((s.wal.fd_flush m.os).mp hnone)
  cases op with
  | put k v =>
    simp only [Machine.step, Machine.outcome]
    rw [KVStore.put_eq h.opened h.fd]
    split_ifs
    · exact ⟨⟨h.opened, hflush _ h.fd⟩, fun _ => rfl⟩
    · exact ⟨⟨h.opened, h.fd⟩, fun _ => rfl⟩
  | del k =>
    refine ⟨?_, fun hdel => absurd rfl (hdel k)⟩
    simp only [Machine.step, Machine.outcome]
    rw [KVStore.del_eq h.opened h.fd]
    split_ifs
    · exact ⟨h.opened, hflush (m.store.appended (.del k)) h.fd⟩
    · exact ⟨h.opened, h.fd⟩
  | setGroupCommitEvery n => exact ⟨⟨h.opened, h.fd⟩, fun _ => rfl⟩
  | flushWal => exact ⟨⟨h.opened, hflush _ h.fd⟩, fun _ => rfl⟩

theorem Serving.run (h : m.Serving) (ops : List Op) : (m.run ops).Serving ∧
    ((∀ op ∈ ops, ∀ k, op ≠ .del k) → (m.run ops).store.map = applyOps ops m.store.map) := by
  induction ops generalizing m with
  | nil => exact ⟨h, fun _ => rfl⟩
  | cons op ops ih =>
    obtain ⟨h', hmap⟩ := h.step op
    obtain ⟨hrun, hmap'⟩ := ih h'
    refine ⟨hrun, fun hdel => ?_⟩
    obtain ⟨hop, hops⟩ := List.forall_mem_cons.mp hdel
    rw [run_cons, hmap' hops, hmap hop, applyOps, applyOps, applyOps, ← applyAll_append,
      ← List.filterMap_append, List.singleton_append]

/-- A store whose log is closed takes nothing. -/
theorem step_of_closed (hfd : m.store.wal.fd = none) (op : Op) :
    (m.step op).store.wal.fd = none ∧ (m.step op).store.map = m.store.map := by
  cases op with
  | put k v =>
    by_cases hopen : m.store.opened = true
    · simp [step, outcome, KVStore.put, hopen, Wal.appendPut, Wal.writeRecord, hfd]
    · simp [step, outcome, KVStore.put, hopen, hfd]
  | del k =>
    by_cases hopen : m.store.opened = true
    · simp [step, outcome, KVStore.del, hopen, Wal.appendDel, Wal.writeRecord, hfd]
    · simp [step, outcome, KVStore.del, hopen, hfd]
  | setGroupCommitEvery n => exact ⟨hfd, rfl⟩
  | flushWal => exact ⟨(m.store.wal.fd_flush m.os).mpr hfd, rfl⟩

theorem run_of_closed (hfd : m.store.wal.fd = none) (ops : List Op) :
    (m.run ops).store.wal.fd = none ∧ (m.run ops).store.map = m.store.map := by
  induction ops generalizing m with
  | nil => exact ⟨hfd, rfl⟩
  | cons op ops ih =>
    obtain ⟨hfd', hmap⟩ := step_of_closed hfd op
    obtain ⟨hrun, hmap'⟩ := ih hfd'
    exact ⟨hrun, hmap'.trans hmap⟩

end Machine

/-! ## Schedules without an error -/

namespace Wal

/-- Writes may be cut short; without an error the record is written. -/
theorem writeLoop_of_no_error {os : Schedule} (h : .error ∉ os) (path : Path) (pos : ℕ)
    (p : Bytes) : (writeLoop path pos p os).value.1 = true ∧
      .error ∉ (writeLoop path pos p os).os := by
  induction os generalizing pos p with
  | nil => exact ⟨rfl, h⟩
  | cons r os ih =>
    obtain ⟨hr, hos⟩ := not_or.mp (List.mem_cons.not.mp h)
    unfold writeLoop
    split_ifs with hp
    · exact ⟨rfl, h⟩
    · cases r with
      | ok => exact ⟨rfl, hos⟩
      | short n => exact ih hos (pos + (p.take n).length) (p.drop n)
      | error => exact absurd rfl hr

theorem flushLoop_of_no_error {os : Schedule} (h : .error ∉ os) (path : Path) (pos : ℕ)
    (recs : List Bytes) : (flushLoop path pos recs os).value.1 = true ∧
      .error ∉ (flushLoop path pos recs os).os := by
  induction recs generalizing pos os with
  | nil => exact ⟨rfl, h⟩
  | cons rec recs ih =>
    obtain ⟨hvalue, hos⟩ := writeLoop_of_no_error h path pos rec
    unfold flushLoop
    dsimp only
    rw [if_pos hvalue]
    exact ih hos _

theorem flush_of_no_error {w : Wal} (hfd : w.fd ≠ none) {os : Schedule} (h : .error ∉ os) :
    (w.flush os).value.1 = true ∧ .error ∉ (w.flush os).os := by
  obtain ⟨pos, hpos⟩ := Option.ne_none_iff_exists'.mp hfd
  obtain ⟨hvalue, hos⟩ := flushLoop_of_no_error h w.path pos w.buffer
  simp only [flush, hpos]
  split_ifs with hbuf
  · exact ⟨rfl, h⟩
  · cases hnext : (flushLoop w.path pos w.buffer os).os with
    | nil => simp [Schedule.next]
    | cons r rest =>
      rw [hnext] at hos
      obtain ⟨hr, hrest⟩ := not_or.mp (List.mem_cons.not.mp hos)
      cases r with
      | ok => exact ⟨rfl, hrest⟩
      | short n => exact ⟨rfl, hrest⟩
      | error => exact absurd rfl hr

end Wal

/-- Then a `del` erases its key. -/
theorem Machine.Serving.step_del {m : Machine} (h : m.Serving) (hos : .error ∉ m.os) (k : Bytes) :
    (m.step (.del k)).store.map = m.store.map.erase k ∧ .error ∉ (m.step (.del k)).os := by
  have hfd : (m.store.appended (.del k)).wal.fd ≠ none := h.fd
  obtain ⟨hvalue, hos'⟩ := Wal.flush_of_no_error hfd hos
  simp only [Machine.step, Machine.outcome]
  rw [KVStore.del_eq h.opened h.fd]
  split_ifs
  · simp only [hvalue, if_true]
    exact ⟨trivial, hos'⟩
  · exact ⟨rfl, hos⟩

/-! ## Working stores -/

/-- An opened store whose system calls will succeed. -/
structure Machine.Working (m : Machine) : Prop where
  opened : m.store.opened = true
  fd : m.store.wal.fd ≠ none
  os : m.os = []

theorem Machine.Working.serving {m : Machine} (h : m.Working) : m.Serving := ⟨h.opened, h.fd⟩

/-- An open store works once its system calls do. -/
theorem Machine.Serving.working {m : Machine} (h : m.Serving) :
    Machine.Working { m with os := [] } :=
  ⟨h.opened, h.fd, rfl⟩

theorem Wal.buffer_flush_working {w : Wal} (hfd : w.fd ≠ none) :
    (w.flush []).value.2.buffer = [] := by
  obtain ⟨pos, hpos⟩ := Option.ne_none_iff_exists'.mp hfd
  by_cases hbuf : w.buffer = []
  · simp [Wal.flush, hpos, hbuf]
  · rw [Wal.flush_nil hpos hbuf]

namespace Machine.Working

variable {m : Machine}

/-- A working store goes on working. -/
theorem step (h : m.Working) (op : Op) :
    (m.step op).Working ∧ (m.step op).store.map = applyOps [op] m.store.map := by
  have hflush : ∀ s : KVStore, s.opened = true → s.wal.fd ≠ none → ∀ disk,
      Machine.Working ⟨{ s with wal := (s.wal.flush []).value.2 }, disk, (s.wal.flush []).os⟩ :=
    fun s hs hfd disk => ⟨hs, (Wal.flush_working hfd).2.1, (Wal.flush_working hfd).2.2⟩
  cases op with
  | put k v =>
    simp only [Machine.step, Machine.outcome]
    rw [h.os, KVStore.put_eq h.opened h.fd]
    split_ifs
    · exact ⟨hflush (m.store.appended (.put k v)) h.opened h.fd _, rfl⟩
    · exact ⟨⟨h.opened, h.fd, rfl⟩, rfl⟩
  | del k =>
    have hfd : (m.store.appended (.del k)).wal.fd ≠ none := h.fd
    simp only [Machine.step, Machine.outcome]
    rw [h.os, KVStore.del_eq h.opened h.fd]
    simp only [(Wal.flush_working hfd).1]
    split_ifs
    · exact ⟨hflush (m.store.appended (.del k)) h.opened h.fd _, rfl⟩
    · exact ⟨⟨h.opened, h.fd, rfl⟩, rfl⟩
  | setGroupCommitEvery n => exact ⟨⟨h.opened, h.fd, h.os⟩, rfl⟩
  | flushWal =>
    simp only [Machine.step, Machine.outcome]
    rw [h.os]
    exact ⟨hflush m.store h.opened h.fd _, rfl⟩

theorem run (h : m.Working) (ops : List Op) :
    (m.run ops).Working ∧ (m.run ops).store.map = applyOps ops m.store.map := by
  induction ops generalizing m with
  | nil => exact ⟨h, rfl⟩
  | cons op ops ih =>
    obtain ⟨h', hmap⟩ := h.step op
    obtain ⟨hrun, hmap'⟩ := ih h'
    refine ⟨hrun, ?_⟩
    rw [Machine.run_cons, hmap', hmap, applyOps, applyOps, applyOps, ← applyAll_append,
      ← List.filterMap_append, List.singleton_append]

/-- `del` tells whether the key was there. -/
theorem del_value (h : m.Working) (k : Bytes) :
    (m.store.del k m.os).value.1 = (m.store.map.lookup k).isSome := by
  have hfd : (m.store.appended (.del k)).wal.fd ≠ none := h.fd
  rw [h.os, KVStore.del_eq h.opened h.fd]
  simp only [(Wal.flush_working hfd).1, Bool.true_and]
  split_ifs <;> rfl

theorem flushWal_value (h : m.Working) : (m.store.flushWal m.os).value.1 = true := by
  rw [h.os]
  exact (Wal.flush_working h.fd).1

/-- A logging call on a working store: the buffer is flushed when the number is due. -/
theorem step_logOp (h : m.Working) {op : Op} {lop : LogOp} (hop : op.logOp = some lop) :
    (m.step op).store =
      if m.store.nextSeq % m.store.groupCommitEvery = 0 then
        { m.store.appended lop with wal := ((m.store.appended lop).wal.flush []).value.2 }
      else m.store.appended lop := by
  cases op with
  | put k v =>
    obtain rfl := Option.some.inj hop
    simp only [Machine.step, Machine.outcome]
    rw [h.os, KVStore.put_eq h.opened h.fd]
    split_ifs <;> rfl
  | del k =>
    obtain rfl := Option.some.inj hop
    have hfd : (m.store.appended (.del k)).wal.fd ≠ none := h.fd
    simp only [Machine.step, Machine.outcome]
    rw [h.os, KVStore.del_eq h.opened h.fd]
    simp only [(Wal.flush_working hfd).1]
    split_ifs <;> rfl
  | setGroupCommitEvery n => simp [Op.logOp] at hop
  | flushWal => simp [Op.logOp] at hop

theorem step_flushWal (h : m.Working) :
    (m.step .flushWal).store = { m.store with wal := (m.store.wal.flush []).value.2 } := by
  simp only [Machine.step, Machine.outcome, KVStore.flushWal]
  rw [h.os]

end Machine.Working

/-- A freshly opened store works. -/
theorem Machine.boot_working (disk : Disk) (path : Path) : (Machine.boot disk path).Working := by
  rw [Machine.boot_eq]
  exact ⟨rfl, Option.some_ne_none _, rfl⟩

end KvEngine
