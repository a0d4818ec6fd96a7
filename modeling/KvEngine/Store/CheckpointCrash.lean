import KvEngine.Store.Snapshot

/-!
# Crashes inside `checkpoint`

A checkpoint truncates the snapshot file in place, writes it anew, removes the
log and creates an empty one; the log's buffer stays as it was. Between the
truncation and the removal, the next open replays the whole log over whatever
part of the snapshot was written.

Results:
* `Machine.recoversCheckpointCrash`: recovery yields a prefix of the history with
  everything that was flushed or checkpointed, provided that a crash between
  truncation and removal finds the buffer empty and the log naming every key that
  is not yet in the new snapshot.
* `not_recoversCheckpointCrash_truncated`: a second checkpoint that is cut right
  after truncating the snapshot loses what the first one saved.
-/

namespace KvEngine

/-! ## Runs with checkpoints -/

/-- A call on a store, checkpoints included. -/
inductive Act where
  | call (op : Op)
  | checkpoint (order : List Entry)

namespace Act

/-- The update the call logs. -/
def logOp : Act → Option LogOp
  | call op => op.logOp
  | checkpoint _ => none

/-- Keys and values are nonempty and free of whitespace. -/
def IsText : Act → Prop
  | call (.put k v) => Token k ∧ Token v
  | call (.del k) => Token k
  | _ => True

/-- Keys and values fit the record format. -/
def Fits : Act → Prop
  | call op => op.Fits
  | checkpoint _ => True

/-- The entries put by calls of words are words. -/
theorem isText_of_mem {as : List Act} (h : ∀ a ∈ as, a.IsText) (k v : Bytes)
    (hmem : LogOp.put k v ∈ as.filterMap Act.logOp) : Token k ∧ Token v := by
  obtain ⟨a, ha, hlog⟩ := List.mem_filterMap.mp hmem
  have htext := h a ha
  cases a with
  | checkpoint order => simp [logOp] at hlog
  | call op =>
    cases op with
    | put k' v' =>
      obtain ⟨rfl, rfl⟩ : k' = k ∧ v' = v := by simpa [logOp, Op.logOp] using hlog
      exact htext
    | del k' => simp [logOp, Op.logOp] at hlog
    | setGroupCommitEvery n => simp [logOp, Op.logOp] at hlog
    | flushWal => simp [logOp, Op.logOp] at hlog

/-- A checkpoint visits the entries of the map of the store it is called on. -/
def Visits (m : Machine) : Act → Prop
  | call _ => True
  | checkpoint order => Enumerates order m.store.map

end Act

namespace Machine

/-- The machine after a call; checkpoints go to the fixed snapshot path. -/
def act (m : Machine) (path : Path) : Act → Machine
  | .call op => m.step op
  | .checkpoint order => m.checkpoint path order

/-- The machine after a sequence of calls. -/
def acts (m : Machine) (path : Path) (as : List Act) : Machine :=
  as.foldl (fun m a => m.act path a) m

theorem acts_append (m : Machine) (path : Path) (as as' : List Act) :
    m.acts path (as ++ as') = (m.acts path as).acts path as' := by
  simp [acts, List.foldl_append]

/-- The call is a flush that completes, or a checkpoint that returns true: all
updates made so far are then on disk. -/
def MakesDurable (m : Machine) (path : Path) : Act → Prop
  | .call op => m.CompletesFlush op
  | .checkpoint order =>
    (m.store.checkpoint snapshotPath path order m.disk m.os).value.1 = true

/-- The files left by a crash after `n` of the effects of a checkpoint. -/
def crashCheckpoint (m : Machine) (path : Path) (order : List Entry) (n : ℕ) : Disk :=
  m.disk.run ((m.store.checkpoint snapshotPath path order m.disk m.os).effects.take n)

/-- The claim of crash safety at one crash point: the calls `as` are made, and a
crash falls `n` effects into a further checkpoint. The next open succeeds, and its
map is the state after the first `k` calls, which include every call that made
its updates durable. -/
def RecoversCheckpointCrash (m : Machine) (path : Path) (as : List Act) (order : List Entry)
    (n : ℕ) : Prop :=
  let disk := (m.acts path as).crashCheckpoint path order n
  (Machine.boot disk path).store.opened = true ∧
  ∃ k ≤ as.length,
    (∀ pre a post, as = pre ++ a :: post → (m.acts path pre).MakesDurable path a →
      pre.length < k) ∧
    (Machine.boot disk path).store.map = (m.acts path (as.take k)).store.map

end Machine

/-! ## The two files -/

/-- The opened store `m` after a history `hist` of updates: the snapshot file has
the first `c` of them, the log file those from `a` on that `written` records, the
buffer the rest. The log goes back at least to the snapshot, and has nothing or
reaches up to it at least. -/
structure Machine.Journal (m : Machine) (path : Path) (hist : List LogOp) (a c : ℕ)
    (written pending : List WalRecord) : Prop where
  logged : m.Logged path [] (applyAll (hist.take c) ∅) written pending
  ops : hist.drop a = logOps (written ++ pending)
  fits : ∀ r ∈ written ++ pending, r.Fits
  start_le : a ≤ c
  covered_le : c ≤ hist.length
  reaches : written = [] ∨ c ≤ a + written.length

namespace Machine.Journal

variable {m : Machine} {path : Path} {hist : List LogOp} {a c : ℕ}
  {written pending : List WalRecord}

theorem length (h : m.Journal path hist a c written pending) :
    hist.length = a + written.length + pending.length := by
  have hlen := congrArg List.length h.ops
  have hac := h.start_le
  have hc := h.covered_le
  rw [List.length_drop, length_logOps, List.length_append] at hlen
  omega

/-- The map is the state after the whole history. -/
theorem map (h : m.Journal path hist a c written pending) : m.store.map = applyAll hist ∅ := by
  rw [h.logged.map, ← h.ops, applyAll_drop_applyAll_take h.start_le]

/-- The snapshot file has the first `c` updates. -/
theorem baseMap_eq (h : m.Journal path hist a c written pending) :
    baseMap m.disk = applyAll (hist.take c) ∅ := h.logged.base_eq

/-- Replaying the log file over any map. -/
theorem replay_log (h : m.Journal path hist a c written pending) (b : Map) :
    (replay (encodeAll written) b).map = applyAll (logOps written) b := by
  have hreplay := replay_encode (fun r hr => h.fits r (List.mem_append_left _ hr)) readRecord_nil b
  rw [List.append_nil] at hreplay
  rw [hreplay, Replay.applyAll_map]

/-- What the files alone hold is the state after the updates up to the end of the
log file, or up to the snapshot if the log file is empty. -/
theorem recovered (h : m.Journal path hist a c written pending) :
    (Machine.boot m.disk path).store.map = applyAll (hist.take (max c (a + written.length))) ∅ := by
  have hlen := h.length
  have hac := h.start_le
  rw [Machine.boot_map, h.logged.file, Option.getD_some, List.nil_append, h.replay_log,
    h.baseMap_eq]
  obtain rfl | hreach := h.reaches
  · rw [List.length_nil, Nat.add_zero, Nat.max_eq_left hac]
    rfl
  · -- the log file reaches past the snapshot and is re-applied to it
    have hdrop : (hist.take (a + written.length)).drop a = logOps written := by
      rw [List.drop_take, h.ops, Nat.add_sub_cancel_left, logOps_append,
        List.take_left' (length_logOps written)]
    have htake : (hist.take (a + written.length)).take c = hist.take c := by
      rw [List.take_take, Nat.min_eq_left hreach]
    rw [Nat.max_eq_right hreach, ← hdrop, ← htake, applyAll_drop_applyAll_take hac]

/-- A fresh store on an absent or empty log with no snapshot file. -/
theorem boot {path : Path} (hpath : path ≠ snapshotPath) {disk : Disk}
    (hsnap : disk snapshotPath = none) (hwal : (disk path).getD [] = []) :
    (Machine.boot disk path).Journal path [] 0 0 [] [] := by
  have hlogged := Machine.boot_logged disk hpath
  have hempty : (Machine.boot disk path).store.map = ∅ := by
    rw [Machine.boot_map, hwal, baseMap_of_none hsnap]
    rfl
  rw [hwal, hempty] at hlogged
  exact ⟨hlogged, rfl, by simp, le_rfl, le_rfl, Or.inl rfl⟩

/-- A call extends the history by its update. The files never lose updates, and
have the whole history after a completed flush. -/
theorem step (h : m.Journal path hist a c written pending) {op : Op} (hop : op.Fits) :
    ∃ written' pending',
      (m.step op).Journal path (hist ++ op.logOp.toList) a c written' pending' ∧
      written.length ≤ written'.length ∧ (m.CompletesFlush op → pending' = []) := by
  have hlen := h.length
  have hac := h.start_le
  have hc := h.covered_le
  obtain ⟨w, p, hlogged, hlog, hgrow, hflush⟩ := h.logged.step op
  have hcount : w.length + p.length = written.length + pending.length + (m.records op).length := by
    have := congrArg List.length hlog
    simp only [List.length_append] at this
    omega
  have hle : written.length ≤ w.length := by
    obtain rfl | rfl := hgrow
    · exact le_rfl
    · simp only [List.length_nil] at hcount
      omega
  refine ⟨w, p, ⟨?_, ?_, ?_, hac, ?_, ?_⟩, hle, hflush⟩
  · rwa [List.take_append_of_le_length hc]
  · rw [List.drop_append_of_le_length (by omega), h.ops, hlog, ← List.append_assoc,
      logOps_append (written ++ pending), Machine.logOps_records]
  · rw [hlog, ← List.append_assoc]
    intro r hr
    rcases List.mem_append.mp hr with hr | hr
    · exact h.fits r hr
    · exact Machine.fits_records hop r hr
  · rw [List.length_append]
    omega
  · obtain rfl | rfl := hgrow
    · exact h.reaches
    · right
      simp only [List.length_nil] at hcount
      omega

/-- The entries of the map are words if all updates are. -/
theorem isText (h : m.Journal path hist a c written pending)
    (htext : ∀ k v, LogOp.put k v ∈ hist → Token k ∧ Token v) {order : List Entry}
    (horder : Enumerates order m.store.map) : ∀ e ∈ order, e.IsText := by
  intro e he
  have hlook := horder.mem_iff.mp he
  rw [h.map] at hlook
  rcases mem_or_of_lookup_applyAll hlook with hempty | hmem
  · simp at hempty
  · exact htext _ _ hmem

/-- After a whole checkpoint the snapshot has the whole history and the log file
nothing; the buffer is as before. -/
theorem checkpoint (h : m.Journal path hist a c written pending)
    (htext : ∀ k v, LogOp.put k v ∈ hist → Token k ∧ Token v) {order : List Entry}
    (horder : Enumerates order m.store.map) :
    (m.checkpoint path order).Journal path hist (a + written.length) hist.length [] pending := by
  have hlen := h.length
  have hopsdrop : hist.drop (a + written.length) = logOps pending := by
    rw [← List.drop_drop, h.ops, logOps_append, List.drop_left' (length_logOps written)]
  have hlogged := h.logged.checkpoint horder (h.isText htext horder)
  rw [h.map, ← List.take_length (l := hist)] at hlogged
  exact ⟨hlogged, hopsdrop, fun r hr => h.fits r (List.mem_append_right _ hr), by omega, le_rfl,
    Or.inl rfl⟩

end Machine.Journal

/-! ## Runs -/

/-- After a run of calls, the files have every update made before the last call
that made its updates durable. -/
theorem Machine.exists_journal {path : Path} (hpath : path ≠ snapshotPath) {disk : Disk}
    (hsnap : disk snapshotPath = none) (hwal : (disk path).getD [] = []) (as : List Act)
    (htext : ∀ a ∈ as, a.IsText) (hfits : ∀ a ∈ as, a.Fits)
    (hvisits : ∀ pre a post, as = pre ++ a :: post →
      a.Visits ((Machine.boot disk path).acts path pre)) :
    ∃ a c written pending,
      ((Machine.boot disk path).acts path as).Journal path (as.filterMap Act.logOp) a c
        written pending ∧
      ∀ pre x post, as = pre ++ x :: post →
        ((Machine.boot disk path).acts path pre).MakesDurable path x →
        ((pre ++ [x]).filterMap Act.logOp).length ≤ max c (a + written.length) := by
  induction as using List.reverseRecOn with
  | nil => exact ⟨0, 0, [], [], Machine.Journal.boot hpath hsnap hwal, by simp⟩
  | append_singleton as x ih =>
    obtain ⟨a, c, w, p, h, hdur⟩ := ih (fun y hy => htext y (by simp [hy]))
      (fun y hy => hfits y (by simp [hy]))
      (fun pre y post heq => hvisits pre y (post ++ [x]) (by simp [heq]))
    have hlen := h.length
    have hac := h.start_le
    rw [Machine.acts_append]
    -- what is durable stays so, and the last call may make everything durable
    have hextend : ∀ d d' : ℕ,
        (∀ pre y post, as = pre ++ y :: post →
          ((Machine.boot disk path).acts path pre).MakesDurable path y →
          ((pre ++ [y]).filterMap Act.logOp).length ≤ d) → d ≤ d' →
        (((Machine.boot disk path).acts path as).MakesDurable path x →
          ((as ++ [x]).filterMap Act.logOp).length ≤ d') →
        ∀ pre y post, as ++ [x] = pre ++ y :: post →
          ((Machine.boot disk path).acts path pre).MakesDurable path y →
          ((pre ++ [y]).filterMap Act.logOp).length ≤ d' := by
      intro d d' hd hdd' hx pre y post heq hy
      rcases List.eq_nil_or_concat post with rfl | ⟨post, z, rfl⟩
      · obtain ⟨rfl, hxy⟩ := List.append_inj' heq rfl
        obtain rfl := List.singleton_inj.mp hxy
        exact hx hy
      · rw [List.concat_eq_append, ← List.cons_append, ← List.append_assoc] at heq
        obtain ⟨heq, -⟩ := List.append_inj' heq rfl
        exact (hd pre y post heq hy).trans hdd'
    cases x with
    | call op =>
      obtain ⟨w', p', h', hle, hflush⟩ := h.step (hfits (.call op) (by simp))
      have hhist : (as ++ [Act.call op]).filterMap Act.logOp =
          as.filterMap Act.logOp ++ op.logOp.toList := by
        cases hl : op.logOp <;> simp [Act.logOp, hl]
      refine ⟨a, c, w', p', hhist ▸ h', hextend _ _ hdur (by omega) ?_⟩
      intro hc
      have hlen' := h'.length
      rw [hflush hc, List.length_nil, Nat.add_zero] at hlen'
      rw [hhist, hlen']
      exact le_max_right _ _
    | checkpoint order =>
      have hwords := Act.isText_of_mem fun y hy => htext y (List.mem_append_left _ hy)
      have h' := h.checkpoint hwords (hvisits as (.checkpoint order) [] rfl)
      have hhist : (as ++ [Act.checkpoint order]).filterMap Act.logOp = as.filterMap Act.logOp := by
        simp [Act.logOp]
      rw [hhist]
      refine ⟨_, _, [], p, h', hextend _ _ hdur ?_ ?_⟩
      · have := h.covered_le
        simp only [List.length_nil]
        omega
      · intro _
        rw [hhist]
        exact le_max_left _ _

/-! ## A crash inside a checkpoint -/

/-- Replaying the log file decides the key, whatever the snapshot has there. -/
def LogDecides (file k : Bytes) : Prop :=
  ∀ b b' : Map, (replay file b).map.lookup k = (replay file b').map.lookup k

theorem logDecides_of_mem {file k : Bytes}
    (h : k ∈ (logOps (foundRecords file)).map LogOp.key) : LogDecides file k := by
  intro b b'
  rw [replay_map, replay_map]
  exact lookup_applyAll_of_mem h b b'

/-- A log that changes nothing of a map makes up for what a snapshot cut short lacks of it
exactly when it decides the keys of the entries that cannot be read. -/
theorem replay_loadText_take_iff {order : List Entry} {m : Map} (horder : Enumerates order m)
    (htext : ∀ e ∈ order, e.IsText) {file : Bytes} (hself : (replay file m).map = m) (n : ℕ) :
    (replay file (loadText ((saveText order).take n) ∅)).map = m ↔
      ∀ pre e post, order = pre ++ e :: post →
        (saveText (pre ++ [e])).length ≤ n + 1 ∨ LogDecides file e.1 := by
  have hread : ∀ pre e post, order = pre ++ e :: post →
      ((loadText ((saveText order).take n) ∅).lookup e.1 = some e.2 ↔
        (saveText (pre ++ [e])).length ≤ n + 1) := by
    rintro pre e post rfl
    exact lookup_loadText_take_iff htext horder.nodupKeys n
  set part := loadText ((saveText order).take n) ∅ with hpart
  constructor
  · intro hmap pre e post heq
    by_contra hlacks
    rw [not_or, ← hread pre e post heq] at hlacks
    obtain ⟨hlook, hdecides⟩ := hlacks
    -- else no record names the key, and the log leaves it as it was read
    rw [replay_map] at hmap
    apply hlook
    rw [← lookup_applyAll_of_not_mem (fun hmem => hdecides (logDecides_of_mem hmem)) part, hmap]
    exact horder.mem_iff.mp (by simp [heq])
  · intro hall
    apply Finmap.ext_lookup
    intro k
    by_cases hk : part.lookup k = m.lookup k
    · rw [replay_map, lookup_applyAll_congr hk, ← replay_map, hself]
    · have hmem : k ∈ order.map Sigma.fst := by
        by_contra hnot
        apply hk
        rw [hpart, ← List.nil_append order, lookup_loadText_take htext (Nat.zero_le _) hnot]
        cases hlook : m.lookup k with
        | none => exact Finmap.lookup_empty k
        | some v => exact absurd (List.mem_map_of_mem (horder.mem_iff.mpr hlook)) hnot
      obtain ⟨e, he, rfl⟩ := List.mem_map.mp hmem
      obtain ⟨pre, post, heq⟩ := List.append_of_mem he
      rcases hall pre e post heq with hline | hdecides
      · exact absurd (((hread pre e post heq).mpr hline).trans (horder.mem_iff.mp he).symm) hk
      · rw [hdecides part m, hself]

/-- A crash `n` effects into a checkpoint that falls between the truncation of the
snapshot and the removal of the log: the log's buffer is empty, and the log file
decides every key whose line is not yet wholly in the snapshot. -/
def Machine.LogCoversSnapshot (m : Machine) (path : Path) (order : List Entry) (n : ℕ) : Prop :=
  0 < n → n ≤ (saveText order).length + 1 →
    m.store.wal.buffer = [] ∧
    ∃ done rest, order = done ++ rest ∧ (saveText done).length < n ∧
      ∀ e ∈ rest, LogDecides ((m.disk path).getD []) e.1

/-- The files a crash inside a checkpoint leaves: the old ones, the old log with
part of the new snapshot, or the new snapshot with no log or an empty one. -/
theorem Machine.crashCheckpoint_cases {m : Machine} (hopen : m.store.opened = true)
    (hos : m.os = []) {path : Path} (order : List Entry) (n : ℕ) :
    (n = 0 ∧ m.crashCheckpoint path order n = m.disk) ∨
    (0 < n ∧ n ≤ (saveText order).length + 1 ∧ m.crashCheckpoint path order n =
      Function.update m.disk snapshotPath (some ((saveText order).take (n - 1)))) ∨
    ∃ log, log.getD [] = [] ∧ m.crashCheckpoint path order n =
      Function.update (Function.update m.disk snapshotPath (some (saveText order))) path log := by
  unfold Machine.crashCheckpoint
  rw [hos, KVStore.checkpoint_nil hopen]
  simp only [checkpointEffects]
  set tail := [Effect.remove path, Effect.create path] with htail
  have hlen : (writes snapshotPath 0 (saveText order)).length = (saveText order).length :=
    length_writes _ _ _
  obtain rfl | hpos := Nat.eq_zero_or_pos n
  · exact Or.inl ⟨rfl, rfl⟩
  · obtain ⟨j, rfl⟩ : ∃ j, n = j + 1 := ⟨n - 1, by omega⟩
    rw [List.cons_append, List.take_succ_cons, List.take_append, ← List.cons_append,
      Disk.run_append, Disk.run_take_snapshot]
    right
    by_cases hj : j ≤ (saveText order).length
    · left
      refine ⟨hpos, by omega, ?_⟩
      rw [show j - (writes snapshotPath 0 (saveText order)).length = 0 by omega]
      rfl
    · right
      obtain ⟨i, hi⟩ : ∃ i, j - (writes snapshotPath 0 (saveText order)).length = i + 1 :=
        ⟨j - (saveText order).length - 1, by omega⟩
      rw [hi, List.take_of_length_le (by omega : (saveText order).length ≤ j), htail,
        List.take_succ_cons]
      cases i with
      | zero => exact ⟨none, rfl, rfl⟩
      | succ i => exact ⟨some [], rfl, by simp [Effect.apply]⟩

/-- Between truncation and removal: the log makes up for what the snapshot lacks. -/
theorem Machine.Journal.map_of_coversSnapshot {m : Machine} {path : Path} {hist : List LogOp}
    {a c : ℕ} {written pending : List WalRecord} (h : m.Journal path hist a c written pending)
    {order : List Entry} (horder : Enumerates order m.store.map) (htext : ∀ e ∈ order, e.IsText)
    {n : ℕ} (hn : 0 < n) (hn' : n ≤ (saveText order).length + 1)
    (hcovers : m.LogCoversSnapshot path order n) :
    (Machine.boot (Function.update m.disk snapshotPath (some ((saveText order).take (n - 1))))
      path).store.map = m.store.map := by
  obtain ⟨hbuf, done, rest, rfl, hdone, hdecides⟩ := hcovers hn hn'
  have hpending : pending = [] := by
    have := h.logged.buffer
    rw [hbuf] at this
    exact List.map_eq_nil_iff.mp this.symm
  subst hpending
  rw [h.logged.file, Option.getD_some, List.nil_append] at hdecides
  -- re-applying the log to the map changes nothing
  have hself : (KvEngine.replay (encodeAll written) m.store.map).map = m.store.map := by
    have hops := h.ops
    rw [List.append_nil] at hops
    have hagain := applyAll_drop_applyAll_take (h.start_le.trans h.covered_le) hist ∅
    rw [h.replay_log, ← hops, h.map]
    rwa [List.take_length] at hagain
  rw [Machine.boot_map, Function.update_of_ne h.logged.path_ne,
    baseMap_of_some (Function.update_self _ _ _), h.logged.file, Option.getD_some, List.nil_append,
    replay_loadText_take_iff horder htext hself]
  intro pre e post heq
  rcases List.append_eq_append_iff.mp heq with ⟨u, -, rfl⟩ | ⟨u, rfl, hu⟩
  · exact Or.inr (hdecides e (by simp))
  · cases u with
    | nil =>
      rw [List.nil_append] at hu
      exact Or.inr (hdecides e (by rw [← hu]; exact List.mem_cons_self))
    | cons x u =>
      -- the line is among those wholly in the snapshot
      left
      obtain ⟨rfl, -⟩ := List.cons_eq_cons.mp hu
      rw [List.append_cons, saveText_append, List.length_append] at hdone
      omega

/-- **A crash inside checkpoint loses nothing**, if the log makes up for what the
half-written snapshot lacks. For every run of calls and checkpoints whose keys and
values are words that fit the record format, from an absent or empty log and no
snapshot, and every crash point of a further checkpoint. -/
theorem Machine.recoversCheckpointCrash {path : Path} (hpath : path ≠ snapshotPath) {disk : Disk}
    (hsnap : disk snapshotPath = none) (hwal : (disk path).getD [] = []) {as : List Act}
    (htext : ∀ a ∈ as, a.IsText) (hfits : ∀ a ∈ as, a.Fits)
    (hvisits : ∀ pre a post, as = pre ++ a :: post →
      a.Visits ((Machine.boot disk path).acts path pre))
    {order : List Entry}
    (horder : Enumerates order ((Machine.boot disk path).acts path as).store.map) {n : ℕ}
    (hcovers : ((Machine.boot disk path).acts path as).LogCoversSnapshot path order n) :
    (Machine.boot disk path).RecoversCheckpointCrash path as order n := by
  obtain ⟨a, c, w, p, h, hdur⟩ := Machine.exists_journal hpath hsnap hwal as htext hfits hvisits
  set m := (Machine.boot disk path).acts path as
  have horderText : ∀ e ∈ order, e.IsText := h.isText (Act.isText_of_mem htext) horder
  refine ⟨Machine.boot_opened _ _, ?_⟩
  -- if the map of `m` is recovered, the prefix is the whole history
  have hwhole : (Machine.boot (m.crashCheckpoint path order n) path).store.map = m.store.map →
      ∃ k ≤ as.length,
        (∀ pre a post, as = pre ++ a :: post →
          ((Machine.boot disk path).acts path pre).MakesDurable path a → pre.length < k) ∧
        (Machine.boot (m.crashCheckpoint path order n) path).store.map =
          ((Machine.boot disk path).acts path (as.take k)).store.map := by
    intro hmap
    refine ⟨as.length, le_rfl, ?_, by rw [hmap, List.take_length]⟩
    intro pre a post heq _
    rw [heq, List.length_append, List.length_cons]
    omega
  rcases Machine.crashCheckpoint_cases h.logged.opened h.logged.os order n with
    ⟨-, hcrash⟩ | ⟨hn, hn', hcrash⟩ | ⟨log, hlog, hcrash⟩
  · -- nothing happened yet: the files have everything that was made durable
    have hd : max c (a + w.length) ≤ (as.filterMap Act.logOp).length := by
      have := h.length
      have := h.covered_le
      omega
    obtain ⟨k, hk, htake, hmax⟩ := exists_take_filterMap Act.logOp as _ hd
    refine ⟨k, hk, ?_, ?_⟩
    · intro pre x post heq hx
      apply hmax (pre.length + 1)
      · rw [heq]; simp
      · rw [heq, show pre ++ x :: post = (pre ++ [x]) ++ post by simp, List.take_left' (by simp)]
        exact hdur pre x post heq hx
    · obtain ⟨_, _, _, _, hk, -⟩ := Machine.exists_journal hpath hsnap hwal (as.take k)
        (fun x hx => htext x (List.mem_of_mem_take hx))
        (fun x hx => hfits x (List.mem_of_mem_take hx))
        (fun pre x post heq => hvisits pre x (post ++ as.drop k) (by
          rw [← List.cons_append, ← List.append_assoc, ← heq, List.take_append_drop]))
      rw [hcrash, h.recovered, hk.map, htake]
  · apply hwhole
    rw [hcrash, h.map_of_coversSnapshot horder horderText hn hn' hcovers]
  · apply hwhole
    rw [hcrash, Machine.boot_map, Function.update_self, hlog, baseMap_update hpath,
      horder.baseMap_snapshot horderText]
    rfl

/-- One flushed put, covered by a checkpoint. -/
def checkpointedPut : List Act :=
  [.call (.put (str "a") (str "1")), .call .flushWal, .checkpoint [⟨str "a", str "1"⟩]]

/-- The counterexample: a second checkpoint cut right after truncating the
snapshot. The log is empty since the first one, so nothing is left. -/
theorem not_recoversCheckpointCrash_truncated :
    ¬ (Machine.boot (fun _ => none) "/tmp/kv.wal").RecoversCheckpointCrash "/tmp/kv.wal"
      checkpointedPut [⟨str "a", str "1"⟩] 1 := by
  rintro ⟨-, k, hk, hdurable, hmap⟩
  have hlost : (Machine.boot (((Machine.boot (fun _ => none) "/tmp/kv.wal").acts "/tmp/kv.wal"
      checkpointedPut).crashCheckpoint "/tmp/kv.wal" [⟨str "a", str "1"⟩] 1)
        "/tmp/kv.wal").store.map = ∅ := by decide +kernel
  have hreturned : ((Machine.boot (fun _ => none) "/tmp/kv.wal").acts "/tmp/kv.wal"
      [.call (.put (str "a") (str "1")), .call .flushWal]).MakesDurable "/tmp/kv.wal"
        (.checkpoint [⟨str "a", str "1"⟩]) := by
    show _ = true
    decide +kernel
  have hall : 2 < k := hdurable _ _ [] rfl hreturned
  obtain rfl : k = 3 := le_antisymm hk hall
  rw [hlost] at hmap
  revert hmap
  decide +kernel

/-- The theorem at one flushed put and a checkpoint cut inside its snapshot: the
log still has the put. -/
theorem recoversCheckpointCrash_put :
    (Machine.boot (fun _ => none) "/tmp/kv.wal").RecoversCheckpointCrash "/tmp/kv.wal"
      [.call (.put (str "a") (str "1")), .call .flushWal] [⟨str "a", str "1"⟩] 3 := by
  have hfile : (((Machine.boot (fun _ => none) "/tmp/kv.wal").acts "/tmp/kv.wal"
      [.call (.put (str "a") (str "1")), .call .flushWal]).disk "/tmp/kv.wal").getD [] =
        encodeAll [⟨.put, 1, str "a", str "1"⟩] ++ [] := by decide +kernel
  have hfits : ∀ r ∈ [(⟨.put, 1, str "a", str "1"⟩ : WalRecord)], r.Fits := by
    intro r hr
    obtain rfl := List.mem_singleton.mp hr
    exact ⟨by decide, by decide, by decide, by decide⟩
  refine Machine.recoversCheckpointCrash (by decide) rfl rfl ?_ ?_ ?_ (by decide +kernel) ?_
  · simp only [List.forall_mem_cons, Act.IsText]
    exact ⟨by decide +kernel, trivial, List.forall_mem_nil _⟩
  · simp only [List.forall_mem_cons, Act.Fits, Op.Fits]
    exact ⟨by decide, trivial, List.forall_mem_nil _⟩
  · intro pre a post heq
    have hmem : a ∈ [Act.call (.put (str "a") (str "1")), .call .flushWal] := by simp [heq]
    simp only [List.mem_cons, List.not_mem_nil, or_false] at hmem
    rcases hmem with rfl | rfl <;> trivial
  · refine fun _ _ => ⟨by decide +kernel, [], _, rfl, by decide, ?_⟩
    intro e he b b'
    obtain rfl := List.mem_singleton.mp he
    rw [hfile, replay_encode hfits readRecord_nil, replay_encode hfits readRecord_nil]
    simp [Replay.applyAll, Replay.apply, WalRecord.op, LogOp.apply]

end KvEngine
