import KvEngine.Store.CheckpointCrash

/-!
# The buffer across a checkpoint

`checkpoint` replaces the log file and leaves the log's buffer alone: the records in it,
which the new snapshot already has, are the first to be written to the new log. A crash
may leave any first part of them there, and the next open replays it over the snapshot.

Results:
* `keepsCheckpoint_iff`: a completed checkpoint is never undone, whatever calls and crash
  follow, exactly when no two buffered records update one key in different ways.
* `not_keepsCheckpoint`: an overwritten value that is still in the buffer comes back.
-/

namespace KvEngine

/-- The updates whose records are in the log's buffer. -/
def KVStore.buffered (s : KVStore) : List LogOp :=
  s.wal.buffer.filterMap fun rec => (readRecord rec).map fun r => r.1.op

theorem KVStore.buffered_eq {s : KVStore} {rs : List WalRecord}
    (hbuf : s.wal.buffer = rs.map WalRecord.encode) (hfits : ∀ r ∈ rs, r.Fits) :
    s.buffered = logOps rs := by
  have hread : ∀ r ∈ rs, readRecord r.encode = some (r, []) := by
    intro r hr
    have h := readRecord_encode (hfits r hr) []
    rwa [List.append_nil] at h
  rw [KVStore.buffered, hbuf, List.filterMap_map, logOps]
  apply List.filterMap_eq_map_iff_forall_eq_some.mpr
  intro r hr
  rw [Function.comp_apply, hread r hr, Option.map_some]

namespace Machine

/-- Once the checkpoint has returned true, for all further calls whose keys and values fit
the record format and every crash in the last of them, the next open yields the state
after some of the first of these calls. -/
def KeepsCheckpoint (m : Machine) (path : Path) (order : List Entry) : Prop :=
  (m.store.checkpoint snapshotPath path order m.disk m.os).value.1 = true →
    ∀ (after : List Op) (op : Op) (n : ℕ), (∀ o ∈ after ++ [op], o.Fits) →
      let m' := m.checkpoint path order
      (Machine.boot ((m'.run after).crash op n) path).store.opened = true ∧
        ∃ k ≤ (after ++ [op]).length,
          (Machine.boot ((m'.run after).crash op n) path).store.map =
            (m'.run ((after ++ [op]).take k)).store.map

variable {m : Machine} {path : Path} {old : Bytes} {base : Map} {written pending : List WalRecord}

/-- The log file a crash leaves behind holds a first part of the records that were in file
and buffer and of those of the calls. -/
theorem Logged.crash_records (h : m.Logged path old base written pending)
    (hfits : ∀ r ∈ written ++ pending, r.Fits) {ops : List Op} {op : Op}
    (hops : ∀ o ∈ ops ++ [op], o.Fits) (n : ℕ) :
    ∃ rs t i, (∀ r ∈ rs, r.Fits) ∧ readRecord t = none ∧
      (m.run ops).crash op n =
        Function.update (m.run ops).disk path (some (old ++ (encodeAll rs ++ t))) ∧
      logOps rs =
        (logOps (written ++ pending) ++ (ops ++ [op]).filterMap Op.logOp).take i := by
  obtain ⟨w, p, hrun, hlog, -, hrunfits, -⟩ := h.run ops
  have hall : ∀ r ∈ w ++ (p ++ (m.run ops).records op), r.Fits := by
    rw [← List.append_assoc]
    intro r hr
    rcases List.mem_append.mp hr with hr | hr
    · exact hrunfits (fun o ho => hops o (List.mem_append_left _ ho)) hfits r hr
    · exact Machine.fits_records (hops op (by simp)) r hr
  set recs := p ++ (m.run ops).records op with hrecs
  obtain ⟨j, t, -, ht, hcrash, -⟩ :=
    hrun.crash_file (fun r hr => hall r (List.mem_append_right _ hr)) n
  have hops' : logOps (w ++ recs) =
      logOps (written ++ pending) ++ (ops ++ [op]).filterMap Op.logOp := by
    rw [hrecs, ← List.append_assoc, logOps_append, hlog, Machine.logOps_records,
      List.filterMap_append, List.append_assoc]
    cases hl : op.logOp <;> simp [hl]
  have hcut : w ++ recs.take j = (w ++ recs).take (w.length + j) :=
    (List.take_length_add_append j).symm
  refine ⟨w ++ recs.take j, t, w.length + j, fun r hr => ?_, ht, hcrash, ?_⟩
  · rw [hcut] at hr
    exact hall r (List.mem_of_mem_take hr)
  · rw [← hops', hcut, logOps, List.map_take]
    rfl

/-- After a crash in a flush of a log that was empty, right behind some of its records. -/
theorem Logged.boot_crash_take (h : m.Logged path [] base [] pending)
    (hfits : ∀ r ∈ pending, r.Fits) (n : ℕ) :
    (Machine.boot (m.crash .flushWal (encodeAll (pending.take n)).length) path).store.map =
      applyAll ((logOps pending).take n) base := by
  have hbase : baseMap m.disk = base := h.base_eq
  have hfile : m.crash .flushWal (encodeAll (pending.take n)).length =
      Function.update m.disk path (some (encodeAll (pending.take n))) := by
    unfold Machine.crash
    rw [h.outcome_flushWal]
    by_cases hp : pending = []
    · subst hp
      rw [h.flush_nil]
      have hold := h.file
      simp only [encodeAll_nil, List.append_nil] at hold
      simp [← hold]
    · have hsplit : encodeAll pending =
          encodeAll (pending.take n) ++ encodeAll (pending.drop n) := by
        rw [← encodeAll_append, List.take_append_drop]
      have hle : (encodeAll (pending.take n)).length ≤ (encodeAll pending).length := by
        rw [hsplit, List.length_append]
        omega
      rw [h.flush hp, List.take_append_of_le_length (by rwa [length_writes]),
        Disk.run_take_writes _ _ _ _ h.file, hsplit, List.take_left]
      rfl
  have hpart : ∀ r ∈ pending.take n, r.Fits := fun r hr => hfits r (List.mem_of_mem_take hr)
  have hreplay := replay_encode hpart readRecord_nil base
  rw [List.append_nil] at hreplay
  rw [Machine.boot_map, hfile, Function.update_self, Option.getD_some, baseMap_update h.path_ne,
    hbase, hreplay, Replay.applyAll_map, logOps, List.map_take]
  rfl

/-- The checkpoint of an opened store, given what its buffer holds. -/
theorem Logged.keeps_iff (h : m.Logged path old base written pending)
    (hfits : ∀ r ∈ pending, r.Fits) {order : List Entry} (horder : Enumerates order m.store.map)
    (htext : ∀ e ∈ order, e.IsText) :
    m.KeepsCheckpoint path order ↔ Settled (logOps pending) := by
  have hcheck := h.checkpoint horder htext
  have hmap : (m.checkpoint path order).store.map = m.store.map := by
    rw [Machine.checkpoint_eq h.opened h.os]
  have hret : (m.store.checkpoint snapshotPath path order m.disk m.os).value.1 = true := by
    rw [h.os, KVStore.checkpoint_nil h.opened]
  set m' := m.checkpoint path order with hm'
  have hagain : applyAll (logOps pending) m.store.map = m.store.map := by
    have hall := hcheck.map
    rw [hmap, List.nil_append] at hall
    exact hall.symm
  constructor
  · intro hkeeps
    rw [← settled_iff hagain]
    intro n
    obtain ⟨-, k, -, hk⟩ := hkeeps hret [] .flushWal (encodeAll (pending.take n)).length
      (by simp [Op.Fits])
    have hstay : ∀ k, (m'.run (([] ++ [Op.flushWal]).take k)).store.map = m.store.map := by
      intro k
      rw [hcheck.run_map, hmap]
      cases k with
      | zero => rfl
      | succ k => rw [List.nil_append, List.take_succ_cons, List.take_nil]; rfl
    rw [Machine.run_nil, hcheck.boot_crash_take hfits n, hstay] at hk
    exact hk
  · intro hsettled _ after op n hops
    refine ⟨Machine.boot_opened _ _, ?_⟩
    obtain ⟨rs, t, i, hrs, ht, hcrash, hlog⟩ := hcheck.crash_records (by simpa using hfits) hops n
    obtain ⟨w, p, hrun, -⟩ := hcheck.run after
    have hbase : baseMap (m'.run after).disk = m.store.map := hrun.base_eq
    have hboot : (Machine.boot ((m'.run after).crash op n) path).store.map =
        applyAll (logOps rs) m.store.map := by
      rw [Machine.boot_map, hcrash, Function.update_self, Option.getD_some,
        baseMap_update h.path_ne, hbase, List.nil_append, replay_encode hrs ht,
        Replay.applyAll_map]
    rw [List.nil_append] at hlog
    rcases Nat.le_total i (logOps pending).length with hi | hi
    · -- only buffered records arrived
      refine ⟨0, Nat.zero_le _, ?_⟩
      rw [hboot, hlog, List.take_append_of_le_length hi, (settled_iff hagain).mpr hsettled i]
      exact hmap.symm
    · -- all buffered records and some of the later ones
      set calls := (after ++ [op]).filterMap Op.logOp with hcalls
      obtain ⟨k, hk, htake, -⟩ := exists_take_filterMap Op.logOp (after ++ [op])
        (min (i - (logOps pending).length) calls.length) (min_le_right _ _)
      refine ⟨k, hk, ?_⟩
      rw [hboot, hlog, List.take_append, List.take_of_length_le hi, applyAll_append, hagain,
        hcheck.run_map, htake, ← hcalls, ← List.take_eq_take_min, hmap]

/-- A store after any run of calls and checkpoints. -/
theorem exists_logged_acts {path : Path} (hpath : path ≠ snapshotPath) {disk : Disk}
    (hwords : ∀ k v, (Machine.boot disk path).store.map.lookup k = some v → Token k ∧ Token v)
    {as : List Act} (htext : ∀ a ∈ as, a.IsText) (hfits : ∀ a ∈ as, a.Fits)
    (hvisits : ∀ pre a post, as = pre ++ a :: post →
      a.Visits ((Machine.boot disk path).acts path pre)) :
    ∃ old base written pending,
      ((Machine.boot disk path).acts path as).Logged path old base written pending ∧
      (∀ r ∈ written ++ pending, r.Fits) ∧
      ∀ k v, ((Machine.boot disk path).acts path as).store.map.lookup k = some v →
        Token k ∧ Token v := by
  induction as using List.reverseRecOn with
  | nil => exact ⟨_, _, [], [], Machine.boot_logged disk hpath, by simp, hwords⟩
  | append_singleton as x ih =>
    obtain ⟨old, base, w, p, h, hrecs, hmap⟩ := ih (fun y hy => htext y (by simp [hy]))
      (fun y hy => hfits y (by simp [hy]))
      (fun pre y post heq => hvisits pre y (post ++ [x]) (by simp [heq]))
    rw [Machine.acts_append]
    set m := (Machine.boot disk path).acts path as
    cases x with
    | call op =>
      obtain ⟨w', p', hstep, hlog, -, -⟩ := h.step op
      refine ⟨old, base, w', p', hstep, ?_, fun k v hlook => ?_⟩
      · rw [hlog, ← List.append_assoc]
        intro r hr
        rcases List.mem_append.mp hr with hr | hr
        · exact hrecs r hr
        · exact Machine.fits_records (hfits (.call op) (by simp)) r hr
      · have hnew : ((m.step op).store.map) = applyAll (logOps (m.records op)) m.store.map := by
          rw [hstep.map, hlog, ← List.append_assoc, logOps_append (w ++ p), applyAll_append,
            ← h.map]
        have hstepped : (m.step op).store.map.lookup k = some v := hlook
        rw [hnew, Machine.logOps_records] at hstepped
        rcases mem_or_of_lookup_applyAll hstepped with hold | hmem
        · exact hmap k v hold
        · have hcall : ∀ a ∈ [Act.call op], a.IsText :=
            fun a ha => htext a (List.mem_append_right _ ha)
          exact Act.isText_of_mem hcall k v (by simpa [Act.logOp] using hmem)
    | checkpoint order =>
      have horder : Enumerates order m.store.map := hvisits as (.checkpoint order) [] rfl
      have hcheck := h.checkpoint horder
        (fun e he => hmap e.1 e.2 (horder.mem_iff.mp he))
      refine ⟨[], _, [], p, hcheck, fun r hr => hrecs r (List.mem_append_right _ hr), ?_⟩
      have hsame : (m.checkpoint path order).store.map = m.store.map := by
        rw [Machine.checkpoint_eq h.opened h.os]
      intro k v hlook
      have hlook' : (m.checkpoint path order).store.map.lookup k = some v := hlook
      rw [hsame] at hlook'
      exact hmap k v hlook'

end Machine

/-- **A completed checkpoint is never undone**, whatever calls and crash follow it, exactly
when no two records in the buffer it finds update one key in different ways. For every
run of calls and checkpoints whose keys and values are words that fit the record format. -/
theorem keepsCheckpoint_iff {path : Path} (hpath : path ≠ snapshotPath) {disk : Disk}
    (hwords : ∀ k v, (Machine.boot disk path).store.map.lookup k = some v → Token k ∧ Token v)
    {as : List Act} (htext : ∀ a ∈ as, a.IsText) (hfits : ∀ a ∈ as, a.Fits)
    (hvisits : ∀ pre a post, as = pre ++ a :: post →
      a.Visits ((Machine.boot disk path).acts path pre))
    {order : List Entry}
    (horder : Enumerates order ((Machine.boot disk path).acts path as).store.map) :
    ((Machine.boot disk path).acts path as).KeepsCheckpoint path order ↔
      Settled ((Machine.boot disk path).acts path as).store.buffered := by
  obtain ⟨old, base, w, p, h, hrecs, hmap⟩ :=
    Machine.exists_logged_acts hpath hwords htext hfits hvisits
  have hpending : ∀ r ∈ p, r.Fits := fun r hr => hrecs r (List.mem_append_right _ hr)
  rw [KVStore.buffered_eq h.buffer hpending]
  exact h.keeps_iff hpending horder fun e he => hmap e.1 e.2 (horder.mem_iff.mp he)

/-- Calls that are no checkpoints visit no map. -/
theorem Act.visits_calls {ops : List Op} (m : Machine) (path : Path) :
    ∀ pre a post, ops.map Act.call = pre ++ a :: post → a.Visits (m.acts path pre) := by
  intro pre a post heq
  have hmem : a ∈ ops.map Act.call := by simp [heq]
  obtain ⟨op, -, rfl⟩ := List.mem_map.mp hmem
  trivial

/-- The theorem at two buffered puts of different keys. -/
theorem keepsCheckpoint_two :
    ((Machine.boot (fun _ => none) "/tmp/kv.wal").acts "/tmp/kv.wal"
      ([.put (str "a") (str "1"), .put (str "b") (str "2")].map Act.call)).KeepsCheckpoint
        "/tmp/kv.wal" [⟨str "a", str "1"⟩, ⟨str "b", str "2"⟩] := by
  have htext : ∀ a ∈ [Op.put (str "a") (str "1"), .put (str "b") (str "2")].map Act.call,
      a.IsText := by
    simp only [List.map_cons, List.map_nil, List.forall_mem_cons, Act.IsText]
    exact ⟨by decide +kernel, by decide +kernel, List.forall_mem_nil _⟩
  have hfits : ∀ a ∈ [Op.put (str "a") (str "1"), .put (str "b") (str "2")].map Act.call,
      a.Fits := by
    simp only [List.map_cons, List.map_nil, List.forall_mem_cons, Act.Fits, Op.Fits]
    exact ⟨by decide, by decide, List.forall_mem_nil _⟩
  exact (keepsCheckpoint_iff (by decide) (Machine.boot_empty_words _) htext hfits
    (Act.visits_calls _ _) (by decide +kernel)).mpr (by decide +kernel)

/-- Without the condition a checkpoint can be undone: the first of two buffered puts of a
key reaches the new log and is replayed over the value the snapshot has. -/
theorem not_keepsCheckpoint :
    ¬ ∀ (path : Path) (disk : Disk) (as : List Act) (order : List Entry), path ≠ snapshotPath →
      (∀ k v, (Machine.boot disk path).store.map.lookup k = some v → Token k ∧ Token v) →
      (∀ a ∈ as, a.IsText) → (∀ a ∈ as, a.Fits) →
      (∀ pre a post, as = pre ++ a :: post →
        a.Visits ((Machine.boot disk path).acts path pre)) →
      Enumerates order ((Machine.boot disk path).acts path as).store.map →
        ((Machine.boot disk path).acts path as).KeepsCheckpoint path order := by
  intro hall
  have htext : ∀ a ∈ [Op.put (str "a") (str "1"), .put (str "a") (str "2")].map Act.call,
      a.IsText := by
    simp only [List.map_cons, List.map_nil, List.forall_mem_cons, Act.IsText]
    exact ⟨by decide +kernel, by decide +kernel, List.forall_mem_nil _⟩
  have hfits : ∀ a ∈ [Op.put (str "a") (str "1"), .put (str "a") (str "2")].map Act.call,
      a.Fits := by
    simp only [List.map_cons, List.map_nil, List.forall_mem_cons, Act.Fits, Op.Fits]
    exact ⟨by decide, by decide, List.forall_mem_nil _⟩
  obtain ⟨-, k, hk, hmap⟩ := hall "/tmp/kv.wal" (fun _ => none) _ [⟨str "a", str "2"⟩] (by decide)
    (Machine.boot_empty_words _) htext hfits (Act.visits_calls _ _) (by decide +kernel)
    (by decide +kernel) [] .flushWal 29 (by simp [Op.Fits])
  have hlookup := congrArg (fun map => map.lookup (str "a")) hmap
  revert hlookup
  have hk' : k = 0 ∨ k = 1 := by
    simp only [List.nil_append, List.length_singleton] at hk
    omega
  rcases hk' with rfl | rfl
  · decide +kernel
  · decide +kernel

end KvEngine
