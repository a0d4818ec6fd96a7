import KvEngine.Store.Machine

/-!
# Recovery of a store from its log

What a fresh `KVStore::open` makes of the file a crash left behind, for a store
with no snapshot file.

Results:
* `Machine.recoversPrefix`: when every key and value fits the format's 32-bit
  lengths, the recovered map is the state after a prefix of the history that
  contains every call up to the last completed flush.
* `recoversPrefix_fails_key`: a key of `2^32` bytes is lost although its flush
  completed.
-/

namespace KvEngine

/-! ## Opening a store -/

theorem loadFromFileUnlocked_os (m : Map) (path : Path) (disk : Disk) :
    (loadFromFileUnlocked m path disk []).2.2 = [] := by
  unfold loadFromFileUnlocked
  cases disk path <;> rfl

/-- A fresh store opened on the files `disk`. -/
theorem Machine.boot_eq (disk : Disk) (path : Path) :
    Machine.boot disk path =
      ⟨{ map := (replay ((disk path).getD []) (baseMap disk)).map
         wal := { fd := some ((disk path).getD []).length, path := path, buffer := []
                  lastGoodOffset := (replay ((disk path).getD []) (baseMap disk)).lastGood }
         seq := (replay ((disk path).getD []) (baseMap disk)).maxSeq
         opened := true },
        Function.update disk path (some ((disk path).getD [])), []⟩ := by
  have hos := loadFromFileUnlocked_os ∅ snapshotPath disk
  simp only [Machine.boot, KVStore.open, Bool.false_eq_true, if_false, hos, Wal.open,
    Schedule.next_nil, if_true, Wal.replayInto, Disk.run_cons, Disk.run_nil, Effect.apply,
    Function.update_self, Option.getD_some]
  rfl

@[simp] theorem Machine.boot_opened (disk : Disk) (path : Path) :
    (Machine.boot disk path).store.opened = true := by
  rw [Machine.boot_eq]

theorem Machine.boot_map (disk : Disk) (path : Path) :
    (Machine.boot disk path).store.map = (replay ((disk path).getD []) (baseMap disk)).map := by
  rw [Machine.boot_eq]

/-- A store opened on no files is empty. -/
theorem Machine.boot_map_of_no_files (path : Path) :
    (Machine.boot (fun _ => none) path).store.map = ∅ := by
  rw [Machine.boot_map, baseMap_of_none rfl]
  rfl

/-- A freshly opened store: nothing was written since, nothing is pending. -/
theorem Machine.boot_logged (disk : Disk) {path : Path} (hpath : path ≠ snapshotPath) :
    (Machine.boot disk path).Logged path ((disk path).getD []) (Machine.boot disk path).store.map
      [] [] := by
  rw [Machine.boot_eq]
  exact ⟨hpath, by rw [baseMap_update hpath], rfl, rfl, rfl, by simp, by simp, rfl, rfl⟩

/-! ## Runs -/

@[simp] theorem logOps_append (rs rs' : List WalRecord) :
    logOps (rs ++ rs') = logOps rs ++ logOps rs' := by
  simp [logOps]

@[simp] theorem length_logOps (rs : List WalRecord) : (logOps rs).length = rs.length := by
  simp [logOps]

/-- A run of calls logs their updates in order, and every update made up to a
completed flush is in the file. -/
theorem Machine.Logged.run {m : Machine} {path : Path} {old : Bytes} {base : Map}
    {written pending : List WalRecord} (h : m.Logged path old base written pending)
    (ops : List Op) :
    ∃ written' pending', (m.run ops).Logged path old base written' pending' ∧
      logOps (written' ++ pending') = logOps (written ++ pending) ++ ops.filterMap Op.logOp ∧
      written <+: written' ∧
      ((∀ o ∈ ops, o.Fits) → (∀ r ∈ written ++ pending, r.Fits) →
        ∀ r ∈ written' ++ pending', r.Fits) ∧
      ∀ pre o post, ops = pre ++ o :: post → (m.run pre).CompletesFlush o →
        (written ++ pending).length + ((pre ++ [o]).filterMap Op.logOp).length ≤
          written'.length := by
  induction ops generalizing m written pending with
  | nil => exact ⟨written, pending, h, by simp, List.prefix_rfl, fun _ hf => hf, by simp⟩
  | cons op ops ih =>
    obtain ⟨w₁, p₁, h₁, hlog₁, hgrow₁, hempty₁⟩ := h.step op
    have hpre₁ : written <+: w₁ := by
      obtain rfl | rfl := hgrow₁
      · exact List.prefix_rfl
      · rw [List.append_nil] at hlog₁
        exact hlog₁ ▸ List.prefix_append _ _
    obtain ⟨w₂, p₂, h₂, hlog₂, hpre₂, hfits₂, hflush₂⟩ := ih h₁
    have hlogs : logOps (w₁ ++ p₁) = logOps (written ++ pending) ++ op.logOp.toList := by
      rw [hlog₁, ← List.append_assoc, logOps_append, Machine.logOps_records]
    have hcons : ∀ l : List Op, (op :: l).filterMap Op.logOp =
        op.logOp.toList ++ l.filterMap Op.logOp := by
      intro l
      cases hl : op.logOp <;> simp [hl]
    refine ⟨w₂, p₂, h₂, ?_, hpre₁.trans hpre₂, ?_, ?_⟩
    · rw [hlog₂, hlogs, hcons, List.append_assoc]
    · intro hops hf
      refine hfits₂ (fun o ho => hops o (by simp [ho])) ?_
      rw [hlog₁, ← List.append_assoc]
      intro r hr
      rcases List.mem_append.mp hr with hr | hr
      · exact hf r hr
      · exact Machine.fits_records (hops op (by simp)) r hr
    · intro pre o post heq hc
      cases pre with
      | nil =>
        -- the flush completed in the first call: its records were in the file at once
        obtain ⟨rfl, -⟩ := List.cons_eq_cons.mp heq
        have hlen := congrArg List.length hlogs
        have hle := hpre₂.length_le
        rw [hempty₁ hc, List.append_nil] at hlen
        rw [List.nil_append, hcons]
        simp only [List.length_append, length_logOps, List.filterMap_nil, List.length_nil] at hlen ⊢
        omega
      | cons o' pre =>
        obtain ⟨rfl, rfl⟩ := List.cons_eq_cons.mp heq
        have := hflush₂ pre o post rfl hc
        have hlen := congrArg List.length hlogs
        rw [List.cons_append, hcons, List.length_append]
        simp only [List.length_append, length_logOps] at this hlen ⊢
        omega

/-- A run only adds to the records of the log. -/
theorem Machine.Logged.run_records {m : Machine} {path : Path} {old : Bytes} {base : Map}
    {written pending : List WalRecord} (h : m.Logged path old base written pending)
    (ops : List Op) :
    ∃ written' pending', (m.run ops).Logged path old base written' pending' ∧
      written ++ pending <+: written' ++ pending' := by
  induction ops generalizing m written pending with
  | nil => exact ⟨written, pending, h, List.prefix_rfl⟩
  | cons op ops ih =>
    obtain ⟨w, p, hstep, hlog, -⟩ := h.step op
    obtain ⟨w', p', hrun, hpre⟩ := ih hstep
    refine ⟨w', p', hrun, List.IsPrefix.trans ?_ hpre⟩
    rw [hlog, ← List.append_assoc]
    exact List.prefix_append _ _

/-- Cutting the logged updates after `j` of them is cutting the history: after
as many calls as possible without logging more than `j`. -/
theorem exists_take_filterMap {α β : Type} (g : α → Option β) (l : List α) (j : ℕ)
    (hj : j ≤ (l.filterMap g).length) :
    ∃ k ≤ l.length, (l.take k).filterMap g = (l.filterMap g).take j ∧
      ∀ f ≤ l.length, ((l.take f).filterMap g).length ≤ j → f ≤ k := by
  induction l generalizing j with
  | nil => exact ⟨0, le_rfl, by simp, by simp⟩
  | cons a l ih =>
    cases ha : g a with
    | none =>
      rw [List.filterMap_cons_none ha] at hj
      obtain ⟨k, hk, htake, hmax⟩ := ih j hj
      refine ⟨k + 1, by simpa using hk, by simpa [ha] using htake, ?_⟩
      intro f hf hlen
      cases f with
      | zero => omega
      | succ f =>
        have := hmax f (by simpa using hf) (by simpa [ha] using hlen)
        omega
    | some b =>
      rw [List.filterMap_cons_some ha, List.length_cons] at hj
      cases j with
      | zero =>
        refine ⟨0, by simp, by simp, ?_⟩
        intro f hf hlen
        cases f with
        | zero => exact le_rfl
        | succ f => simp [ha] at hlen
      | succ j =>
        obtain ⟨k, hk, htake, hmax⟩ := ih j (by omega)
        refine ⟨k + 1, by simpa using hk, by simpa [ha] using htake, ?_⟩
        intro f hf hlen
        cases f with
        | zero => omega
        | succ f =>
          have := hmax f (by simpa using hf) (by simpa [ha] using hlen)
          omega

/-- The map after a run is what its updates make of the map before. -/
theorem Machine.Logged.run_map {m : Machine} {path : Path} {old : Bytes} {base : Map}
    {written pending : List WalRecord} (h : m.Logged path old base written pending)
    (ops : List Op) :
    (m.run ops).store.map = applyAll (ops.filterMap Op.logOp) m.store.map := by
  obtain ⟨w, p, h', hlog, -⟩ := h.run ops
  rw [h'.map, hlog, applyAll_append, ← h.map]

/-! ## One crash -/

/-- The file a crash leaves behind: what it was when the log was opened, the
records written since, some of those in the buffer, and bytes at which replay
stops. -/
theorem Machine.Logged.crash_file {m : Machine} {path : Path} {old : Bytes} {base : Map}
    {written pending : List WalRecord} (h : m.Logged path old base written pending) {op : Op}
    (hfits : ∀ r ∈ pending ++ m.records op, r.Fits) (n : ℕ) :
    ∃ k t, k ≤ (pending ++ m.records op).length ∧ readRecord t = none ∧
      m.crash op n = Function.update m.disk path
        (some (old ++ (encodeAll (written ++ (pending ++ m.records op).take k) ++ t))) ∧
      (Effect.fsync path ∈ (m.outcome op).effects.take n →
        k = (pending ++ m.records op).length) := by
  obtain ⟨n', hcrash, hsync⟩ := h.crash op n
  obtain ⟨k, t, hk, htake, ht, -, hall⟩ := take_encodeAll hfits n'
  refine ⟨k, t, hk, ht, ?_, fun hs => hall (hsync hs)⟩
  rw [hcrash, htake, encodeAll_append]
  simp only [List.append_assoc]

/-- A file that consists of whole records of the format. -/
def WholeRecords (file : Bytes) : Prop :=
  ∃ rs : List WalRecord, (∀ r ∈ rs, r.Fits) ∧ file = encodeAll rs

theorem wholeRecords_nil : WholeRecords [] := ⟨[], by simp, rfl⟩

/-- Replaying records appended to whole records, then bytes at which the loop breaks. -/
theorem WholeRecords.replay_append {file : Bytes} (h : WholeRecords file) {rs : List WalRecord}
    (hfit : ∀ r ∈ rs, r.Fits) {t : Bytes} (ht : readRecord t = none) (m : Map) :
    (replay (file ++ (encodeAll rs ++ t)) m).map = applyAll (logOps rs) (replay file m).map := by
  obtain ⟨rs₀, hfit₀, rfl⟩ := h
  have hboth : ∀ r ∈ rs₀ ++ rs, r.Fits := fun r hr =>
    (List.mem_append.mp hr).elim (hfit₀ r) (hfit r)
  have hold := replay_encode hfit₀ readRecord_nil m
  rw [List.append_nil] at hold
  rw [← List.append_assoc, ← encodeAll_append, replay_encode hboth ht, hold,
    Replay.applyAll_map, Replay.applyAll_map, logOps_append, applyAll_append]

/-- The claim of crash consistency at one crash point: after the calls `ops`, a
crash falls `n` effects into the call `op`. The next `open` succeeds and its map
is the state after the first `k` calls, where `k` covers every call that
completed a flush, `op` included if it had synced. -/
def Machine.RecoversPrefix (m : Machine) (path : Path) (ops : List Op) (op : Op) (n : ℕ) : Prop :=
  (Machine.boot ((m.run ops).crash op n) path).store.opened = true ∧
  ∃ k ≤ (ops ++ [op]).length,
    (∀ pre o post, ops = pre ++ o :: post → (m.run pre).CompletesFlush o → pre.length < k) ∧
    (Effect.fsync path ∈ ((m.run ops).outcome op).effects.take n → k = (ops ++ [op]).length) ∧
    (Machine.boot ((m.run ops).crash op n) path).store.map =
      (m.run ((ops ++ [op]).take k)).store.map

/-- The log file a crash leaves behind: what it was when the log was opened, records of
the updates of the first `k` calls, and bytes at which replay stops. -/
theorem Machine.exists_crash_records {path : Path} (hpath : path ≠ snapshotPath) {disk : Disk}
    {ops : List Op} {op : Op} (hfit : ∀ o ∈ ops ++ [op], o.Fits) (n : ℕ) :
    ∃ rs t k, (∀ r ∈ rs, r.Fits) ∧ readRecord t = none ∧ k ≤ (ops ++ [op]).length ∧
      ((Machine.boot disk path).run ops).crash op n =
        Function.update ((Machine.boot disk path).run ops).disk path
          (some ((disk path).getD [] ++ (encodeAll rs ++ t))) ∧
      logOps rs = ((ops ++ [op]).take k).filterMap Op.logOp ∧
      (∀ pre o post, ops = pre ++ o :: post → ((Machine.boot disk path).run pre).CompletesFlush o →
        pre.length < k) ∧
      (Effect.fsync path ∈ (((Machine.boot disk path).run ops).outcome op).effects.take n →
        k = (ops ++ [op]).length) := by
  have hboot := Machine.boot_logged disk hpath
  set m := Machine.boot disk path
  set old := (disk path).getD []
  obtain ⟨w, p, h, hlog, -, hfits, hflush⟩ := hboot.run ops
  set recs := p ++ (m.run ops).records op with hrecs
  have hfits : ∀ r ∈ w ++ recs, r.Fits := by
    rw [hrecs, ← List.append_assoc]
    intro r hr
    rcases List.mem_append.mp hr with hr | hr
    · exact hfits (fun o ho => hfit o (List.mem_append_left _ ho)) (by simp) r hr
    · exact Machine.fits_records (hfit op (by simp)) r hr
  obtain ⟨i, t, (hi : i ≤ recs.length), ht, hcrash, hsync⟩ :=
    h.crash_file (fun r hr => hfits r (List.mem_append_right _ hr)) n
  -- the file holds the first `w.length + i` of the updates of all calls
  have hall : logOps (w ++ recs) = (ops ++ [op]).filterMap Op.logOp := by
    rw [show w ++ recs = (w ++ p) ++ (m.run ops).records op by simp [recs], logOps_append, hlog,
      Machine.logOps_records, List.filterMap_append]
    cases hl : op.logOp <;> simp [hl, logOps]
  have hlen : ((ops ++ [op]).filterMap Op.logOp).length = w.length + recs.length := by
    rw [← hall, length_logOps, List.length_append]
  have hfits' : ∀ r ∈ w ++ recs.take i, r.Fits := fun r hr =>
    hfits r (List.append_subset.mpr ⟨List.subset_append_left _ _,
      fun _ hx => List.mem_append_right _ (List.mem_of_mem_take hx)⟩ hr)
  have hcut : ((ops ++ [op]).filterMap Op.logOp).take (w.length + i) =
      logOps (w ++ recs.take i) := by
    rw [← hall, logOps, ← List.map_take, List.take_length_add_append]
    rfl
  obtain ⟨k, hk, htake, hmax⟩ :=
    exists_take_filterMap Op.logOp (ops ++ [op]) (w.length + i) (by omega)
  refine ⟨w ++ recs.take i, t, k, hfits', ht, hk, hcrash, ?_, ?_, ?_⟩
  · rw [← hcut, htake]
  · intro pre o post heq hc
    apply hmax (pre.length + 1)
    · rw [heq]; simp
    · have := hflush pre o post heq hc
      rw [heq, show pre ++ o :: post ++ [op] = (pre ++ [o]) ++ (post ++ [op]) by simp,
        List.take_left' (by simp)]
      simp only [List.length_append, List.length_nil] at this ⊢
      omega
  · intro hs
    apply le_antisymm hk
    apply hmax _ le_rfl
    rw [List.take_length, hlen, hsync hs]

/-- What the next `open` makes of such a file: if the file had grown by the crash, it
must have consisted of whole records when it was opened. -/
theorem Machine.boot_crash_map {path : Path} (hpath : path ≠ snapshotPath) {disk : Disk}
    {ops : List Op} {op : Op} {n : ℕ} {rs : List WalRecord} {t : Bytes}
    (hfits : ∀ r ∈ rs, r.Fits) (ht : readRecord t = none)
    (hcrash : ((Machine.boot disk path).run ops).crash op n =
      Function.update ((Machine.boot disk path).run ops).disk path
        (some ((disk path).getD [] ++ (encodeAll rs ++ t))))
    (hwhole : encodeAll rs ++ t ≠ [] → WholeRecords ((disk path).getD [])) :
    (Machine.boot (((Machine.boot disk path).run ops).crash op n) path).store.map =
      applyAll (logOps rs) (Machine.boot disk path).store.map := by
  obtain ⟨w, p, h, -⟩ := (Machine.boot_logged disk hpath).run ops
  set m := Machine.boot disk path
  have hbase : (replay ((disk path).getD []) (baseMap (m.run ops).disk)).map = m.store.map :=
    h.base_eq
  rw [← hbase, Machine.boot_map, hcrash, baseMap_update hpath, Function.update_self,
    Option.getD_some]
  by_cases hgrown : encodeAll rs ++ t = []
  · -- nothing was written: the file is the one that was opened
    obtain ⟨hnil, rfl⟩ := List.append_eq_nil_iff.mp hgrown
    rw [hnil, encodeAll_eq_nil.mp hnil, List.append_nil, List.append_nil]
    rfl
  · exact (hwhole hgrown).replay_append hfits ht _

/-- Recovery after one crash, on any log file. -/
theorem Machine.recoversPrefix_of_wholeRecords {path : Path} (hpath : path ≠ snapshotPath)
    {disk : Disk} {ops : List Op} {op : Op} (hfit : ∀ o ∈ ops ++ [op], o.Fits) (n : ℕ)
    (hwhole : ((Machine.boot disk path).run ops).crash op n path ≠ some ((disk path).getD []) →
      WholeRecords ((disk path).getD [])) :
    (Machine.boot disk path).RecoversPrefix path ops op n := by
  obtain ⟨rs, t, k, hfits, ht, hk, hcrash, hlog, hflush, hsync⟩ :=
    Machine.exists_crash_records hpath hfit n
  refine ⟨Machine.boot_opened _ _, k, hk, hflush, hsync, ?_⟩
  rw [(Machine.boot_logged disk hpath).run_map, ← hlog]
  refine Machine.boot_crash_map hpath hfits ht hcrash fun hgrown => hwhole ?_
  rw [hcrash, Function.update_self]
  simpa using hgrown

/-- **Durability and prefix consistency.** For a store opened on an absent or
empty log with no snapshot file, every run of calls whose keys and values fit
the record format, and every crash point, recovery yields a prefix of the
history that contains every flushed call. -/
theorem Machine.recoversPrefix {path : Path} (hpath : path ≠ snapshotPath) {disk : Disk}
    (hwal : (disk path).getD [] = []) {ops : List Op} {op : Op}
    (hfit : ∀ o ∈ ops ++ [op], o.Fits) (n : ℕ) :
    (Machine.boot disk path).RecoversPrefix path ops op n :=
  Machine.recoversPrefix_of_wholeRecords hpath hfit n fun _ => by
    rw [hwal]
    exact wholeRecords_nil

/-! ## A key that does not fit -/

/-- The record of a put whose key and value have multiples of `2^32` bytes does not parse:
its length fields hold 0, so the first four bytes of the key are read as the checksum,
which they are not. -/
theorem readRecord_wrapped {key value pre tail : Bytes} {seq : ℕ}
    (hkey : key.length % 2 ^ 32 = 0) (hvalue : value.length % 2 ^ 32 = 0)
    (hpre : pre.length = 4) (htail : key = pre ++ tail)
    (hcrc : ¬ (recordCrc (WalHeader.bytes ⟨kMagic, kVersion, 1, 0, 0, seq⟩) [] []).toNat =
      leNat pre) (u : Bytes) :
    readRecord ((WalRecord.mk .put seq key value).encode ++ u) = none := by
  have hheader : (WalRecord.mk .put seq key value).header = ⟨kMagic, kVersion, 1, 0, 0, seq⟩ := by
    simp only [WalRecord.header, hkey, hvalue]
    rfl
  have hempty : ∀ rest : Bytes, readExact rest 0 = some ([], rest) := fun rest => by
    simp [readExact]
  unfold WalRecord.encode
  rw [hheader]
  simp only [WalRecord.payload]
  generalize leBytes 4 _ = crc
  rw [htail]
  simp only [List.append_assoc]
  generalize tail ++ _ = rest
  unfold readRecord
  rw [readExact_append (WalHeader.length_bytes _)]
  simp only [Option.bind_eq_bind, Option.bind_some, WalHeader.ofBytes_bytes]
  rw [show WalType.ofCode (1 % 2 ^ 8) = some .put from rfl]
  simp only [Nat.zero_mod, hempty, Option.bind_some, if_true]
  rw [readExact_append hpre]
  simp [hcrc, guard]

/-- After such a put the next open finds nothing, whatever was logged and flushed. -/
theorem Machine.boot_map_of_wrapped {path : Path} (hpath : path ≠ snapshotPath)
    {key value pre tail : Bytes} (hkey : key.length % 2 ^ 32 = 0)
    (hvalue : value.length % 2 ^ 32 = 0) (hpre : pre.length = 4) (htail : key = pre ++ tail)
    (hcrc : ¬ (recordCrc (WalHeader.bytes ⟨kMagic, kVersion, 1, 0, 0, 1⟩) [] []).toNat = leNat pre)
    (ops : List Op) :
    (Machine.boot ((Machine.boot (fun _ => none) path).run
      (.put key value :: (ops ++ [.flushWal]))).disk path).store.map = ∅ := by
  have hboot := Machine.boot_logged (fun _ => none) hpath
  have hempty : (Machine.boot (fun _ => none) path).store.map = ∅ :=
    Machine.boot_map_of_no_files _
  have hseq : (Machine.boot (fun _ => none) path).store.nextSeq = 1 := by
    rw [Machine.boot_eq]
    rfl
  set m := Machine.boot (fun _ => none) path
  -- the record of the put is the first in the log, and the flush brings it to the file
  obtain ⟨w₁, p₁, h₁, hlog₁, -, -⟩ := hboot.step (.put key value)
  rw [show m.records (.put key value) = [⟨.put, m.store.nextSeq, key, value⟩] from rfl, hseq,
    List.nil_append, List.nil_append] at hlog₁
  obtain ⟨w₂, p₂, h₂, hpre₂⟩ := h₁.run_records ops
  have hc : ((m.step (.put key value)).run ops).CompletesFlush .flushWal := by
    refine Or.inl ⟨rfl, ?_⟩
    simp only [KVStore.flushWal]
    rw [h₂.os]
    exact h₂.flush_ok
  have h₃ := h₂.step_of_completesFlush hc
  rw [show ((m.step (.put key value)).run ops).records .flushWal = [] from rfl,
    List.append_nil] at h₃
  obtain ⟨rest, hrest⟩ := hpre₂
  rw [hlog₁, List.singleton_append] at hrest
  have hnone := readRecord_wrapped hkey hvalue hpre htail hcrc (encodeAll rest)
  rw [Machine.run_cons, Machine.run_append, Machine.run_cons, Machine.run_nil, Machine.boot_map,
    h₃.file, Option.getD_some, Option.getD_none, List.nil_append, ← hempty, ← h₃.base_eq, ← hrest,
    encodeAll_cons]
  generalize baseMap _ = base
  exact (congrArg Replay.map (replay_encode (List.forall_mem_nil _) hnone base)).trans rfl

/-- Such a put, flushed, is not recovered. -/
theorem not_recoversPrefix_of_wrapped {path : Path} (hpath : path ≠ snapshotPath)
    {key tail : Bytes} (hlen : key.length % 2 ^ 32 = 0) (htail : key = [0, 0, 0, 0] ++ tail) :
    ¬ (Machine.boot (fun _ => none) path).RecoversPrefix path [.put key [], .flushWal]
      .flushWal 0 := by
  rintro ⟨-, k, hk, hflush, -, hmap⟩
  have hboot := Machine.boot_logged (fun _ => none) hpath
  have hnil : ([] : Bytes).length % 2 ^ 32 = 0 := rfl
  have hrec := Machine.boot_map_of_wrapped hpath hlen hnil rfl htail (by decide +kernel) []
  rw [Machine.crash_zero] at hmap
  set m := Machine.boot (fun _ => none) path
  obtain ⟨w₁, p₁, h₁, -⟩ := hboot.step (.put key [])
  have hc : (m.step (.put key [])).CompletesFlush .flushWal := by
    refine Or.inl ⟨rfl, ?_⟩
    simp only [KVStore.flushWal]
    rw [h₁.os]
    exact h₁.flush_ok
  -- the flush completed, so the history that counts contains the put
  have hk1 : 1 < k := hflush [.put key []] .flushWal [] rfl hc
  have hlook : ((m.run (([Op.put key [], Op.flushWal] ++ [Op.flushWal]).take
      k)).store.map).lookup key = some [] := by
    rw [hboot.run_map, hboot.map]
    obtain ⟨k, rfl⟩ : ∃ j, k = j + 1 := ⟨k - 1, by omega⟩
    have hrest : ([Op.flushWal, Op.flushWal].take k).filterMap Op.logOp = [] := by
      rw [List.filterMap_eq_nil_iff]
      intro o ho
      obtain rfl : o = Op.flushWal := by simpa using List.mem_of_mem_take ho
      rfl
    simp only [List.cons_append, List.take_succ_cons, List.nil_append] at hrest ⊢
    rw [List.filterMap_cons_some (show (Op.put key []).logOp = some (LogOp.put key []) from rfl),
      hrest]
    simp [LogOp.apply]
  rw [List.nil_append] at hrec
  rw [← hmap, hrec] at hlook
  simp at hlook

/-- The counterexample: a put of a key of `2^32` zero bytes and a completed
`flush_wal` on a fresh store; the next open does not find the key. -/
theorem recoversPrefix_fails_key :
    ¬ (Machine.boot (fun _ => none) "/tmp/kv.wal").RecoversPrefix "/tmp/kv.wal"
      [.put (List.replicate (2 ^ 32) 0) [], .flushWal] .flushWal 0 := by
  have hlen : (List.replicate (2 ^ 32) (0 : UInt8)).length % 2 ^ 32 = 0 := by
    rw [List.length_replicate, Nat.mod_self]
  have htail : List.replicate (2 ^ 32) (0 : UInt8) =
      [0, 0, 0, 0] ++ List.replicate 4294967292 0 := by
    rw [show 2 ^ 32 = 4 + 4294967292 by norm_num, List.replicate_add]
    rfl
  exact not_recoversPrefix_of_wrapped (by decide) hlen htail

/-- The theorem at a fresh store on no files, with a put that is torn. -/
theorem recoversPrefix_put :
    (Machine.boot (fun _ => none) "/tmp/kv.wal").RecoversPrefix "/tmp/kv.wal"
      [.setGroupCommitEvery 1] (.put (str "a") (str "1")) 10 :=
  Machine.recoversPrefix (by decide) rfl (by decide) 10

end KvEngine
