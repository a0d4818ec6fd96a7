import KvEngine.Store.Sharing

/-!
# Sequence numbers over a store's life

`open` counts on from the largest number in the log (lines 44–48). Checkpoints move what
the log had to the snapshot, whose lines have no numbers.

Results:
* `Files.map_open`: the map an open finds is what the recovered updates make of the empty
  one.
* `seqsGrow_iff`: no number goes back exactly if every open finds a record in the log with at
  least the number that was reached when a checkpoint last began.
* `not_seqsGrow`: after a checkpoint and a stop the numbers start again at 1.
-/

namespace KvEngine

/-! ## The largest number -/

/-- The largest sequence number of the records, 0 if there is none. -/
def topSeq (rs : List WalRecord) : ℕ := (rs.map WalRecord.seq).foldr max 0

@[simp] theorem topSeq_nil : topSeq [] = 0 := rfl

@[simp] theorem topSeq_cons (r : WalRecord) (rs : List WalRecord) :
    topSeq (r :: rs) = max r.seq (topSeq rs) := rfl

theorem topSeq_append (rs rs' : List WalRecord) :
    topSeq (rs ++ rs') = max (topSeq rs) (topSeq rs') := by
  induction rs with
  | nil => simp
  | cons r rs ih => rw [List.cons_append, topSeq_cons, topSeq_cons, ih, max_assoc]

theorem topSeq_le_iff {rs : List WalRecord} {n : ℕ} :
    topSeq rs ≤ n ↔ ∀ r ∈ rs, r.seq ≤ n := by
  induction rs with
  | nil => simp
  | cons r rs ih => rw [topSeq_cons, max_le_iff, ih, List.forall_mem_cons]

theorem le_topSeq_iff {rs : List WalRecord} {n : ℕ} :
    n ≤ topSeq rs ↔ n = 0 ∨ ∃ r ∈ rs, n ≤ r.seq := by
  induction rs with
  | nil => simp
  | cons r rs ih =>
    rw [topSeq_cons, le_max_iff, ih, List.exists_mem_cons_iff]
    tauto

/-- `replay_into` returns the largest number of the records it finds. -/
theorem replay_maxSeq (file : Bytes) (m : Map) :
    (replay file m).maxSeq = topSeq (foundRecords file) := by
  have hloop : ∀ (fuel : ℕ) (rest : Bytes) (st : Replay),
      (replayLoop fuel rest st).maxSeq = max st.maxSeq (topSeq (readRecords fuel rest)) := by
    intro fuel
    induction fuel with
    | zero => exact fun _ st => (Nat.max_zero _).symm
    | succ fuel ih =>
      intro rest st
      rw [replayLoop, readRecords]
      cases readRecord rest with
      | none => exact (Nat.max_zero _).symm
      | some p =>
        simp only
        rw [ih, topSeq_cons, ← max_assoc]
        rfl
  exact (hloop _ _ _).trans (Nat.zero_max _)

/-! ## Sessions -/

/-- One life of a store: the calls it completes, and the call it ends in with the number of
its effects that reached the disk. A process that just stops has none of them. -/
structure Session where
  acts : List Act
  last : Act
  cut : ℕ

/-- The files of a store between two sessions. `covered` has the records of all updates in
the map that a checkpoint last began to write to the snapshot, and `mark` is what `seq_`
was then. -/
structure Files where
  disk : Disk
  covered : List WalRecord := []
  mark : ℕ := 0

/-- An open store; `made` has the records of all updates in its map. -/
structure Tracked where
  machine : Machine
  made : List WalRecord
  covered : List WalRecord
  mark : ℕ

/-- The log file. -/
def Files.log (f : Files) (path : Path) : Bytes := (f.disk path).getD []

/-- A fresh store opened on the files: it has the updates of the snapshot and of the records
found in the log. -/
def Files.open (f : Files) (path : Path) : Tracked :=
  ⟨Machine.boot f.disk path, f.covered ++ foundRecords (f.log path), f.covered, f.mark⟩

namespace Tracked

/-- The records a call appends to the log. -/
def logs (t : Tracked) : Act → List WalRecord
  | .call op => t.machine.records op
  | .checkpoint _ => []

/-- The store after a call. -/
def act (t : Tracked) (path : Path) : Act → Tracked
  | .call op => ⟨t.machine.step op, t.made ++ t.machine.records op, t.covered, t.mark⟩
  | .checkpoint order =>
    ⟨t.machine.checkpoint path order, t.made, t.made, t.machine.store.seq⟩

/-- The store after a sequence of calls. -/
def acts (t : Tracked) (path : Path) (as : List Act) : Tracked :=
  as.foldl (fun t a => t.act path a) t

/-- The files left by a crash after `n` of the effects of a call. The first effect of a
checkpoint truncates the snapshot. -/
def crash (t : Tracked) (path : Path) : Act → ℕ → Files
  | .call op, n => ⟨t.machine.crash op n, t.covered, t.mark⟩
  | .checkpoint order, n =>
    if n = 0 then ⟨t.machine.disk, t.covered, t.mark⟩
    else ⟨t.machine.crashCheckpoint path order n, t.made, t.machine.store.seq⟩

/-- Checkpoints list the entries of the map they find, which are words. -/
def Visits (path : Path) : Tracked → List Act → Prop
  | _, [] => True
  | t, a :: as =>
    (∀ order, a = .checkpoint order →
      Enumerates order t.machine.store.map ∧ ∀ e ∈ order, e.IsText) ∧
      Visits path (t.act path a) as

/-- The counter is not at its last value when a call takes a number. -/
def NoWrap (path : Path) : Tracked → List Act → Prop
  | _, [] => True
  | t, a :: as =>
    (a.logOp = none ∨ t.machine.store.seq + 1 < 2 ^ 64) ∧ NoWrap path (t.act path a) as

/-- The calls log larger numbers than those of the records `rs`. -/
def LogsAbove (path : Path) (rs : List WalRecord) : Tracked → List Act → Prop
  | _, [] => True
  | t, a :: as =>
    (∀ r ∈ rs, ∀ r' ∈ t.logs a, r.seq < r'.seq) ∧ LogsAbove path rs (t.act path a) as

end Tracked

namespace Session

/-- Every call of the session, the one it ends in last. -/
def calls (s : Session) : List Act := s.acts ++ [s.last]

/-- The files the session leaves behind. -/
def after (s : Session) (path : Path) (f : Files) : Files :=
  ((f.open path).acts path s.acts).crash path s.last s.cut

end Session

namespace Files

/-- The records of all updates that an open recovers: those behind the snapshot, and those
it finds in the log. Updates that later ones hide count too, and those of lines that a
crash inside a checkpoint cut off. -/
def recovered (f : Files) (path : Path) : List WalRecord := (f.open path).made

/-- Right after an open `seq_` is at least the number of every update recovered. -/
def SeqCovers (f : Files) (path : Path) : Prop :=
  ∀ r ∈ f.recovered path, r.seq ≤ (f.open path).machine.store.seq

/-- If the snapshot was ever written, the log has a record with at least the number that was
reached when a checkpoint last began. -/
def LogReaches (f : Files) (path : Path) : Prop :=
  f.mark = 0 ∨ ∃ r ∈ foundRecords (f.log path), f.mark ≤ r.seq

end Files

/-- The files after a sequence of sessions. -/
def Files.afterAll (f : Files) (path : Path) (ss : List Session) : Files :=
  ss.foldl (fun f s => s.after path f) f

/-- Sequence numbers never go back: every open covers what it recovers, and every session
logs larger numbers than those. -/
def SeqsGrow (path : Path) : Files → List Session → Prop
  | f, [] => f.SeqCovers path
  | f, s :: ss =>
    (f.SeqCovers path ∧ (f.open path).LogsAbove path (f.recovered path) s.calls) ∧
      SeqsGrow path (s.after path f) ss

/-- Every checkpoint of the sessions writes a whole snapshot of words, or none. -/
def WritesWhole (path : Path) : Files → List Session → Prop
  | _, [] => True
  | f, s :: ss =>
    ((f.open path).Visits path s.calls ∧ ∀ order, s.last = .checkpoint order →
      s.cut = 0 ∨ (saveText order).length < s.cut) ∧ WritesWhole path (s.after path f) ss

/-- Every open finds a log that reaches up to the snapshot. -/
def LogsReach (path : Path) : Files → List Session → Prop
  | f, [] => f.LogReaches path
  | f, s :: ss => f.LogReaches path ∧ LogsReach path (s.after path f) ss

/-- In no session does the counter wrap. -/
def NoWrap (path : Path) : Files → List Session → Prop
  | _, [] => True
  | f, s :: ss => (f.open path).NoWrap path s.calls ∧ NoWrap path (s.after path f) ss

/-! ## An open store -/

/-- The store is open on the log `path`, and no system call will fail. -/
structure Machine.Running (m : Machine) (path : Path) : Prop where
  opened : m.store.opened = true
  fd : m.store.wal.fd ≠ none
  walPath : m.store.wal.path = path
  os : m.os = []

theorem Machine.boot_running (disk : Disk) (path : Path) :
    (Machine.boot disk path).Running path := by
  rw [Machine.boot_eq]
  exact ⟨rfl, by simp, rfl, rfl⟩

namespace Machine.Running

variable {m : Machine} {path : Path}

/-- A call applies its update and takes a number for it. -/
theorem step (h : m.Running path) (op : Op) :
    (m.step op).Running path ∧
      (m.step op).store.map = applyAll op.logOp.toList m.store.map ∧
      (m.step op).store.seq = op.logOp.elim m.store.seq fun _ => m.store.nextSeq := by
  have hpath : (m.step op).store.wal.path = path :=
    (Machine.outcome_frame h.os op).1.trans h.walPath
  cases op with
  | put k v =>
    obtain ⟨-, hfd, hos⟩ := Wal.flush_working (w := (m.store.appended (.put k v)).wal) h.fd
    simp only [Machine.step, Machine.outcome, h.os, KVStore.put_eq h.opened h.fd] at hpath ⊢
    split_ifs at hpath ⊢
    · exact ⟨⟨h.opened, hfd, hpath, hos⟩, rfl, rfl⟩
    · exact ⟨⟨h.opened, h.fd, hpath, rfl⟩, rfl, rfl⟩
  | del k =>
    obtain ⟨hok, hfd, hos⟩ := Wal.flush_working (w := (m.store.appended (.del k)).wal) h.fd
    simp only [Machine.step, Machine.outcome, h.os, KVStore.del_eq h.opened h.fd] at hpath ⊢
    split_ifs at hpath ⊢
    · rw [hok]
      exact ⟨⟨h.opened, hfd, hpath, hos⟩, rfl, rfl⟩
    · exact ⟨⟨h.opened, h.fd, hpath, rfl⟩, rfl, rfl⟩
  | setGroupCommitEvery n => exact ⟨⟨h.opened, h.fd, hpath, h.os⟩, rfl, rfl⟩
  | flushWal =>
    obtain ⟨-, hfd, hos⟩ := Wal.flush_working h.fd
    simp only [Machine.step, Machine.outcome, KVStore.flushWal, h.os] at hpath ⊢
    exact ⟨⟨h.opened, hfd, hpath, hos⟩, rfl, rfl⟩

/-- A checkpoint changes neither the map nor the counter. -/
theorem checkpoint (h : m.Running path) (order : List Entry) :
    (m.checkpoint path order).Running path ∧ (m.checkpoint path order).store.map = m.store.map ∧
      (m.checkpoint path order).store.seq = m.store.seq := by
  rw [Machine.checkpoint_eq h.opened h.os]
  exact ⟨⟨h.opened, by simp, rfl, rfl⟩, rfl, rfl⟩

end Machine.Running

/-! ## The records behind the maps -/

/-- The snapshot has the map that the records `covered` make. -/
def Files.Based (f : Files) : Prop := baseMap f.disk = applyAll (logOps f.covered) ∅

/-- An open store whose map is what the records `made` make, on files that are `Based`. -/
structure Tracked.Mapped (t : Tracked) (path : Path) : Prop where
  running : t.machine.Running path
  base : baseMap t.machine.disk = applyAll (logOps t.covered) ∅
  map : t.machine.store.map = applyAll (logOps t.made) ∅

theorem Files.Based.open {f : Files} {path : Path} (hpath : path ≠ snapshotPath) (h : f.Based) :
    (f.open path).Mapped path := by
  refine ⟨Machine.boot_running _ _, ?_, ?_⟩
  · show baseMap (Machine.boot f.disk path).disk = _
    rw [Machine.boot_eq]
    exact (baseMap_update hpath _ _).trans h
  · show (Machine.boot f.disk path).store.map = applyAll (logOps (f.covered ++ _)) ∅
    rw [Machine.boot_map, replay_map, logOps_append, applyAll_append, h]
    rfl

namespace Tracked.Mapped

variable {t : Tracked} {path : Path}

/-- Calls leave the snapshot alone. -/
theorem baseMap_run (h : t.Mapped path) (hpath : path ≠ snapshotPath) {op : Op} {es : List Effect}
    (hes : ∀ e ∈ es, e ∈ (t.machine.outcome op).effects) :
    baseMap (t.machine.disk.run es) = applyAll (logOps t.covered) ∅ := by
  rw [← h.base]
  refine baseMap_congr (Disk.run_of_path_ne (fun e he => ?_) _)
  rw [(Machine.outcome_frame h.running.os op).2.2 e (hes e he), h.running.walPath]
  exact hpath

theorem act (h : t.Mapped path) (hpath : path ≠ snapshotPath) {a : Act}
    (hvisits : ∀ order, a = .checkpoint order →
      Enumerates order t.machine.store.map ∧ ∀ e ∈ order, e.IsText) :
    (t.act path a).Mapped path := by
  cases a with
  | call op =>
    obtain ⟨hrunning, hmap, -⟩ := h.running.step op
    refine ⟨hrunning, h.baseMap_run hpath fun _ he => he, ?_⟩
    show (t.machine.step op).store.map = applyAll (logOps (t.made ++ t.machine.records op)) ∅
    rw [hmap, h.map, logOps_append, applyAll_append, Machine.logOps_records]
  | checkpoint order =>
    obtain ⟨horder, htext⟩ := hvisits order rfl
    obtain ⟨hrunning, hmap, -⟩ := h.running.checkpoint order
    refine ⟨hrunning, ?_, hmap.trans h.map⟩
    show baseMap (t.machine.checkpoint path order).disk = applyAll (logOps t.made) ∅
    rw [Machine.checkpoint_eq h.running.opened h.running.os, ← h.map]
    exact (baseMap_update hpath _ _).trans (horder.baseMap_snapshot htext _)

/-- Wherever the session ends, except inside a snapshot. -/
theorem crash (h : t.Mapped path) (hpath : path ≠ snapshotPath) {a : Act} {n : ℕ}
    (hvisits : ∀ order, a = .checkpoint order →
      Enumerates order t.machine.store.map ∧ ∀ e ∈ order, e.IsText)
    (hwhole : ∀ order, a = .checkpoint order → n = 0 ∨ (saveText order).length < n) :
    (t.crash path a n).Based := by
  cases a with
  | call op => exact h.baseMap_run hpath fun _ he => List.mem_of_mem_take he
  | checkpoint order =>
    obtain ⟨horder, htext⟩ := hvisits order rfl
    simp only [Tracked.crash]
    split_ifs with hn
    · exact h.base
    · have hlong := (hwhole order rfl).resolve_left hn
      show baseMap (t.machine.crashCheckpoint path order n) = applyAll (logOps t.made) ∅
      rw [← h.map]
      rcases Machine.crashCheckpoint_cases h.running.opened h.running.os order n with
        ⟨hzero, -⟩ | ⟨-, hle, hcrash⟩ | ⟨log, -, hcrash⟩
      · exact absurd hzero hn
      · rw [hcrash, List.take_of_length_le (by omega), horder.baseMap_snapshot htext]
      · rw [hcrash, baseMap_update hpath, horder.baseMap_snapshot htext]

/-- A session. -/
theorem acts (h : t.Mapped path) (hpath : path ≠ snapshotPath) {as : List Act} {a : Act} {n : ℕ}
    (hvisits : t.Visits path (as ++ [a]))
    (hwhole : ∀ order, a = .checkpoint order → n = 0 ∨ (saveText order).length < n) :
    ((t.acts path as).crash path a n).Based := by
  induction as generalizing t with
  | nil => exact h.crash hpath hvisits.1 hwhole
  | cons b as ih => exact ih (h.act hpath hvisits.1) hvisits.2

end Tracked.Mapped

theorem Files.Based.afterAll {f : Files} {path : Path} (h : f.Based) (hpath : path ≠ snapshotPath)
    {ss : List Session} (hwhole : WritesWhole path f ss) : (f.afterAll path ss).Based := by
  induction ss generalizing f with
  | nil => exact h
  | cons s ss ih =>
    obtain ⟨⟨hvisits, hcut⟩, hrest⟩ := hwhole
    exact ih ((h.open hpath).acts hpath hvisits hcut) hrest

/-- **What an open recovers**: if the snapshot was always written whole, its map is what the
records behind the snapshot and those found in the log make of the empty one. -/
theorem Files.map_open {path : Path} (hpath : path ≠ snapshotPath) {disk : Disk}
    (hsnap : disk snapshotPath = none) {ss : List Session}
    (hwhole : WritesWhole path { disk := disk } ss) :
    ((Files.afterAll { disk := disk } path ss).open path).machine.store.map =
      applyAll (logOps ((Files.afterAll { disk := disk } path ss).recovered path)) ∅ := by
  have hstart : Files.Based { disk := disk } := baseMap_of_none hsnap
  exact ((hstart.afterAll hpath hwhole).open hpath).map

/-! ## The counter in step with the records -/

theorem LogOp.seq_record (n : ℕ) (op : LogOp) : (op.record n).seq = n := by
  cases op <;> rfl

/-- The counter is the largest number behind the map, and `mark` the largest behind the
snapshot. -/
structure Tracked.InStep (t : Tracked) (path : Path) : Prop where
  running : t.machine.Running path
  made : t.machine.store.seq = topSeq t.made
  covered : t.mark = topSeq t.covered

namespace Tracked

variable {t : Tracked} {path : Path} {rs : List WalRecord}

/-- What a call logs has the next number. -/
theorem seq_of_mem_logs {a : Act} {r : WalRecord} (h : r ∈ t.logs a) :
    a.logOp ≠ none ∧ r.seq = t.machine.store.nextSeq := by
  cases a with
  | call op =>
    simp only [logs, Machine.records, Option.mem_toList, Option.map_eq_some_iff] at h
    obtain ⟨lop, hop, rfl⟩ := h
    exact ⟨by simp [Act.logOp, hop], LogOp.seq_record _ _⟩
  | checkpoint order => simp [logs] at h

theorem made_act (t : Tracked) (path : Path) (a : Act) :
    (t.act path a).made = t.made ++ t.logs a := by
  cases a with
  | call op => rfl
  | checkpoint order => exact (List.append_nil _).symm

/-- A call keeps the counter in step. -/
theorem InStep.act (h : t.InStep path) {a : Act}
    (hwrap : a.logOp = none ∨ t.machine.store.seq + 1 < 2 ^ 64) : (t.act path a).InStep path := by
  cases a with
  | call op =>
    obtain ⟨hrunning, -, hseq⟩ := h.running.step op
    refine ⟨hrunning, ?_, h.covered⟩
    show (t.machine.step op).store.seq = topSeq (t.made ++ t.machine.records op)
    rw [hseq, topSeq_append, ← h.made]
    cases hop : op.logOp with
    | none => simp [Machine.records, hop]
    | some lop =>
      have hlt : t.machine.store.seq + 1 < 2 ^ 64 := hwrap.resolve_left (by simp [Act.logOp, hop])
      have hnext : t.machine.store.nextSeq = t.machine.store.seq + 1 := Nat.mod_eq_of_lt hlt
      simp only [Machine.records, hop, Option.map_some, Option.toList_some, topSeq_cons, topSeq_nil,
        LogOp.seq_record, hnext, Option.elim_some]
      omega
  | checkpoint order =>
    obtain ⟨hrunning, -, hseq⟩ := h.running.checkpoint order
    exact ⟨hrunning, hseq.trans h.made, h.made⟩

/-- Calls keep the counter in step, and log larger numbers than it had. -/
theorem InStep.acts (h : t.InStep path) (hle : ∀ r ∈ rs, r.seq ≤ t.machine.store.seq)
    {as bs : List Act} (hwrap : t.NoWrap path (as ++ bs)) :
    (t.acts path as).InStep path ∧ t.LogsAbove path rs as := by
  induction as generalizing t with
  | nil => exact ⟨h, trivial⟩
  | cons a as ih =>
    obtain ⟨hfirst, hrest⟩ := hwrap
    have hact := h.act hfirst
    have hgrows : t.machine.store.seq ≤ (t.act path a).machine.store.seq := by
      rw [h.made, hact.made, made_act, topSeq_append]
      exact le_max_left _ _
    obtain ⟨hacts, habove⟩ := ih hact (fun r hr => (hle r hr).trans hgrows) hrest
    refine ⟨hacts, fun r hr r' hr' => ?_, habove⟩
    obtain ⟨hlogs, hseq⟩ := seq_of_mem_logs hr'
    have hlt := hfirst.resolve_left hlogs
    have hnext : t.machine.store.nextSeq = t.machine.store.seq + 1 := Nat.mod_eq_of_lt hlt
    have := hle r hr
    omega

/-- Wherever the session ends, `mark` is the largest number behind the snapshot. -/
theorem InStep.crash (h : t.InStep path) (a : Act) (n : ℕ) :
    (t.crash path a n).mark = topSeq (t.crash path a n).covered := by
  cases a with
  | call op => exact h.covered
  | checkpoint order =>
    simp only [Tracked.crash]
    split_ifs
    · exact h.covered
    · exact h.made

end Tracked

namespace Files

variable {f : Files} {path : Path}

/-- `open` counts on from the log alone. -/
theorem seq_open (f : Files) (path : Path) :
    (f.open path).machine.store.seq = topSeq (foundRecords (f.log path)) := by
  rw [Files.open, Machine.boot_eq]
  exact replay_maxSeq _ _

/-- The counter covers what the open recovers exactly if the log reaches up to the
snapshot. -/
theorem seqCovers_iff (hmark : f.mark = topSeq f.covered) :
    f.SeqCovers path ↔ f.LogReaches path := by
  calc f.SeqCovers path
      ↔ topSeq (f.covered ++ foundRecords (f.log path)) ≤ topSeq (foundRecords (f.log path)) := by
        rw [topSeq_le_iff, ← f.seq_open path]
        exact Iff.rfl
    _ ↔ f.mark ≤ topSeq (foundRecords (f.log path)) := by
        rw [topSeq_append, max_le_iff, hmark]
        exact and_iff_left le_rfl
    _ ↔ f.LogReaches path := le_topSeq_iff

/-- Then the counter is in step. -/
theorem LogReaches.inStep (h : f.LogReaches path) (hmark : f.mark = topSeq f.covered) :
    (f.open path).InStep path := by
  refine ⟨Machine.boot_running _ _, ?_, hmark⟩
  have hle : f.mark ≤ topSeq (foundRecords (f.log path)) := le_topSeq_iff.mpr h
  rw [f.seq_open, Files.open, topSeq_append, ← hmark, max_eq_right hle]

end Files

/-- The runs of a store from any files whose `mark` is right. -/
theorem seqsGrow_iff_of_mark {path : Path} {f : Files} (hmark : f.mark = topSeq f.covered)
    {ss : List Session} (hwrap : NoWrap path f ss) : SeqsGrow path f ss ↔ LogsReach path f ss := by
  induction ss generalizing f with
  | nil => exact Files.seqCovers_iff hmark
  | cons s ss ih =>
    obtain ⟨hcalls, hrest⟩ := hwrap
    have hcovers : f.SeqCovers path ↔ f.LogReaches path := Files.seqCovers_iff hmark
    -- an open that finds such a log starts a session in which the counter stays in step
    have hsession : f.LogReaches path →
        (f.open path).LogsAbove path (f.recovered path) s.calls ∧
          (s.after path f).mark = topSeq (s.after path f).covered := by
      intro hreach
      have hopen := hreach.inStep hmark
      have hle : ∀ r ∈ f.recovered path, r.seq ≤ (f.open path).machine.store.seq :=
        hcovers.mpr hreach
      have hwhole : (f.open path).NoWrap path (s.calls ++ []) := by rwa [List.append_nil]
      exact ⟨(hopen.acts hle hwhole).2, (hopen.acts hle hcalls).1.crash s.last s.cut⟩
    constructor
    · rintro ⟨⟨hseq, -⟩, hgrow⟩
      have hreach := hcovers.mp hseq
      exact ⟨hreach, (ih (hsession hreach).2 hrest).mp hgrow⟩
    · rintro ⟨hreach, hreaches⟩
      obtain ⟨habove, hmark'⟩ := hsession hreach
      exact ⟨⟨hcovers.mpr hreach, habove⟩, (ih hmark' hrest).mpr hreaches⟩

/-- **Sequence numbers never go back**, in any run of opens, calls, checkpoints, stops and
crashes on a store without a snapshot, exactly if every open finds a record in the log with
at least the number that was reached when a checkpoint last began. -/
theorem seqsGrow_iff {path : Path} {disk : Disk} {ss : List Session}
    (hwrap : NoWrap path { disk := disk } ss) :
    SeqsGrow path { disk := disk } ss ↔ LogsReach path { disk := disk } ss :=
  seqsGrow_iff_of_mark rfl hwrap

/-- A put that is flushed and checkpointed before the process stops. -/
def checkpointThenStop : Session :=
  ⟨[.call (.put (str "a") (str "1")), .call .flushWal, .checkpoint [⟨str "a", str "1"⟩]],
    .call .flushWal, 0⟩

/-- The same with a second put that is flushed behind the checkpoint. -/
def checkpointThenPut : Session :=
  ⟨[.call (.put (str "a") (str "1")), .call .flushWal, .checkpoint [⟨str "a", str "1"⟩],
    .call (.put (str "b") (str "2")), .call .flushWal], .call .flushWal, 0⟩

/-- The theorem at the second one. -/
theorem seqsGrow_iff_checkpointThenPut :
    SeqsGrow "/tmp/kv.wal" { disk := fun _ => none } [checkpointThenPut] := by
  have hwrap : NoWrap "/tmp/kv.wal" { disk := fun _ => none } [checkpointThenPut] :=
    ⟨⟨Or.inr (by decide +kernel), Or.inl rfl, Or.inl rfl, Or.inr (by decide +kernel), Or.inl rfl,
      Or.inl rfl, trivial⟩, trivial⟩
  refine (seqsGrow_iff hwrap).mpr ⟨Or.inl rfl, Or.inr ⟨⟨.put, 2, str "b", str "2"⟩, ?_, ?_⟩⟩
  · decide +kernel
  · decide +kernel

/-- Without the condition the numbers start again: the put of the first session has number 1
and is in the map, and `seq_` is 0. -/
theorem not_seqsGrow :
    ¬ ∀ (disk : Disk) (ss : List Session), disk snapshotPath = none →
      WritesWhole "/tmp/kv.wal" { disk := disk } ss → NoWrap "/tmp/kv.wal" { disk := disk } ss →
        SeqsGrow "/tmp/kv.wal" { disk := disk } ss := by
  intro hall
  have hwhole : WritesWhole "/tmp/kv.wal" { disk := fun _ => none } [checkpointThenStop] := by
    have hcall : ∀ (op : Op) {P : List Entry → Prop}, ∀ order, Act.call op = .checkpoint order →
        P order := by
      intro op P order h
      cases h
    refine ⟨⟨⟨hcall _, hcall _, ?_, hcall _, trivial⟩, hcall _⟩, trivial⟩
    intro order horder
    obtain rfl := Act.checkpoint.inj horder
    exact ⟨by decide +kernel, by decide +kernel⟩
  have hwrap : NoWrap "/tmp/kv.wal" { disk := fun _ => none } [checkpointThenStop] :=
    ⟨⟨Or.inr (by decide +kernel), Or.inl rfl, Or.inl rfl, Or.inl rfl, trivial⟩, trivial⟩
  obtain ⟨-, hcovers⟩ := hall (fun _ => none) [checkpointThenStop] rfl hwhole hwrap
  have hle := hcovers ⟨.put, 1, str "a", str "1"⟩ (by decide +kernel)
  revert hle
  decide +kernel

end KvEngine
