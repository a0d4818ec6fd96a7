import KvEngine.Store.Working

/-!
# Group commit

`put` and `del` flush the log when the number of the call is a multiple of the batch
size, whatever is in the buffer. The buffer is therefore bounded only once the batch size
has been in effect for a whole batch.

Results:
* `InBatch.step`: since the last flush, or since the batch size is in effect, there were
  no more calls than the number is past the last multiple.
* `groupCommit_bounds`: after a batch of calls the buffer has fewer records than a batch,
  and a crash in any later call loses no more acknowledged updates.
-/

namespace KvEngine

/-! ## Numbers -/

/-- A number that is not due is one more past the last multiple. -/
theorem KVStore.nextSeq_mod {s : KVStore} (hseq : s.seq < 2 ^ 64) {n : ℕ} (hn : 0 < n)
    (hdue : ¬ s.nextSeq % n = 0) : s.nextSeq % n = s.seq % n + 1 := by
  unfold KVStore.nextSeq at hdue ⊢
  rcases Nat.lt_or_ge (s.seq + 1) (2 ^ 64) with hlt | hge
  · rw [Nat.mod_eq_of_lt hlt] at hdue ⊢
    have hsplit : (s.seq + 1) % n = (s.seq % n + 1) % n := by rw [Nat.mod_add_mod]
    rw [hsplit] at hdue ⊢
    rcases Nat.lt_or_eq_of_le (Nat.succ_le_of_lt (Nat.mod_lt s.seq hn)) with hin | hend
    · exact Nat.mod_eq_of_lt hin
    · rw [show s.seq % n + 1 = n from hend, Nat.mod_self] at hdue
      exact absurd rfl hdue
  · -- the number that wraps to 0 is due
    rw [show s.seq + 1 = 2 ^ 64 by omega, Nat.mod_self, Nat.zero_mod] at hdue
    exact absurd rfl hdue

theorem replayLoop_maxSeq_lt {fuel : ℕ} {rest : Bytes} {st : Replay} (h : st.maxSeq < 2 ^ 64) :
    (replayLoop fuel rest st).maxSeq < 2 ^ 64 := by
  induction fuel generalizing rest st with
  | zero => exact h
  | succ fuel ih =>
    rw [replayLoop]
    cases hr : readRecord rest with
    | none => exact h
    | some p => exact ih (max_lt h (readRecord_seq_lt hr))

/-- Every number `open` counts on from has 64 bits. -/
theorem Machine.boot_seq_lt (disk : Disk) (path : Path) :
    (Machine.boot disk path).store.seq < 2 ^ 64 := by
  rw [Machine.boot_eq]
  exact replayLoop_maxSeq_lt (show (0 : ℕ) < 2 ^ 64 by norm_num)

theorem Machine.Working.run_seq_lt {m : Machine} (h : m.Working) (hseq : m.store.seq < 2 ^ 64)
    (ops : List Op) : (m.run ops).store.seq < 2 ^ 64 := by
  induction ops generalizing m with
  | nil => exact hseq
  | cons op ops ih =>
    refine ih (h.step op).1 ?_
    cases hop : op.logOp with
    | some lop =>
      rw [h.step_logOp hop]
      split_ifs <;> exact Nat.mod_lt _ (by norm_num)
    | none =>
      cases op with
      | put k v => simp [Op.logOp] at hop
      | del k => simp [Op.logOp] at hop
      | setGroupCommitEvery k => exact hseq
      | flushWal =>
        rw [h.step_flushWal]
        exact hseq

/-! ## The buffer -/

/-- The batch size `n` has been in effect for `c` logging calls: the buffer, or those
calls, are no more than the number is past the last multiple of `n`. -/
structure InBatch (m : Machine) (n c : ℕ) : Prop where
  working : m.Working
  seq_lt : m.store.seq < 2 ^ 64
  batch : m.store.groupCommitEvery = n
  bound : m.store.wal.buffer.length ≤ m.store.seq % n ∨ c ≤ m.store.seq % n

/-- The call leaves a batch size of `n`. -/
def Op.KeepsBatch (n : ℕ) : Op → Prop
  | .setGroupCommitEvery k => (({} : KVStore).setGroupCommitEvery k).groupCommitEvery = n
  | _ => True

theorem InBatch.step {m : Machine} {n c : ℕ} (h : InBatch m n c) (hn : 0 < n) {op : Op}
    (hkeep : op.KeepsBatch n) : InBatch (m.step op) n (c + op.logOp.toList.length) := by
  have hwork := (h.working.step op).1
  cases hop : op.logOp with
  | some lop =>
    have hstore := h.working.step_logOp hop
    have hfd : (m.store.appended lop).wal.fd ≠ none := h.working.fd
    have hlt : m.store.nextSeq < 2 ^ 64 := Nat.mod_lt _ (by norm_num)
    rw [h.batch] at hstore
    by_cases hdue : m.store.nextSeq % n = 0
    · rw [if_pos hdue] at hstore
      refine ⟨hwork, ?_, ?_, Or.inl ?_⟩
      · rw [hstore]; exact hlt
      · rw [hstore]; exact h.batch
      · rw [hstore]
        simp only [Wal.buffer_flush_working hfd, List.length_nil, Nat.zero_le]
    · rw [if_neg hdue] at hstore
      have hnext := KVStore.nextSeq_mod h.seq_lt hn hdue
      refine ⟨hwork, ?_, ?_, ?_⟩
      · rw [hstore]; exact hlt
      · rw [hstore]; exact h.batch
      · rw [hstore]
        simp only [KVStore.appended, List.length_append, List.length_singleton, hnext]
        simpa using h.bound
  | none =>
    cases op with
    | put k v => simp [Op.logOp] at hop
    | del k => simp [Op.logOp] at hop
    | setGroupCommitEvery k => exact ⟨hwork, h.seq_lt, hkeep, h.bound⟩
    | flushWal =>
      have hstore := h.working.step_flushWal
      refine ⟨hwork, ?_, ?_, Or.inl ?_⟩
      · rw [hstore]; exact h.seq_lt
      · rw [hstore]; exact h.batch
      · rw [hstore]
        simp only [Wal.buffer_flush_working h.working.fd, List.length_nil, Nat.zero_le]

theorem InBatch.run {m : Machine} {n c : ℕ} (h : InBatch m n c) (hn : 0 < n) {ops : List Op}
    (hkeep : ∀ op ∈ ops, op.KeepsBatch n) :
    InBatch (m.run ops) n (c + (ops.filterMap Op.logOp).length) := by
  induction ops generalizing m c with
  | nil => exact h
  | cons op ops ih =>
    have hlen : (op :: ops).filterMap Op.logOp = op.logOp.toList ++ ops.filterMap Op.logOp := by
      cases hop : op.logOp <;> simp [hop]
    rw [hlen, List.length_append, ← Nat.add_assoc]
    exact ih (h.step hn (hkeep op (by simp))) fun x hx => hkeep x (by simp [hx])

/-! ## What a crash loses -/

/-- **Group commit bounds the loss window.** On a store opened on any files, after any calls,
let the batch size be `n` and stay so for at least `n` calls of `put` and `del`. Then the
buffer has fewer than `n` records; and whatever a crash leaves of the next call, the log
file has the records of all updates made so far but fewer than `n`. What `open` makes of
it is then the map after a first part of the updates that lacks fewer than `n` of those
made, if names and values fit the format and the file was whole when it was opened. -/
theorem groupCommit_bounds (disk : Disk) (path : Path) {pre ops : List Op} {n : ℕ} (hn : 1 ≤ n)
    (hbatch : ((Machine.boot disk path).run pre).store.groupCommitEvery = n)
    (hkeep : ∀ op ∈ ops, op.KeepsBatch n) (hcount : n ≤ (ops.filterMap Op.logOp).length) :
    ((Machine.boot disk path).run (pre ++ ops)).store.wal.buffer.length < n ∧
    (path ≠ snapshotPath → ∀ (op : Op) (i : ℕ),
      (∃ kept rest, ((Machine.boot disk path).run (pre ++ ops)).crash op i path =
          some ((disk path).getD [] ++ encodeAll kept ++ rest) ∧
        logOps kept <+: (pre ++ ops).filterMap Op.logOp ∧
        ((pre ++ ops).filterMap Op.logOp).length < kept.length + n) ∧
      ((∀ o ∈ pre ++ ops ++ [op], o.Fits) → WholeRecords ((disk path).getD []) →
        ∃ k, ((pre ++ ops).filterMap Op.logOp).length < k + n ∧
          (Machine.boot (((Machine.boot disk path).run (pre ++ ops)).crash op i) path).store.map =
            applyAll (((pre ++ ops ++ [op]).filterMap Op.logOp).take k)
              (Machine.boot disk path).store.map)) := by
  have hwork := Machine.boot_working disk path
  have hstart : InBatch ((Machine.boot disk path).run pre) n 0 :=
    ⟨(hwork.run pre).1, hwork.run_seq_lt (Machine.boot_seq_lt disk path) pre, hbatch,
      Or.inr (Nat.zero_le _)⟩
  have hbuffer : ((Machine.boot disk path).run (pre ++ ops)).store.wal.buffer.length < n := by
    rw [Machine.run_append]
    have hbound := (hstart.run hn hkeep).bound
    have hmod := Nat.mod_lt (((Machine.boot disk path).run pre).run ops).store.seq hn
    omega
  refine ⟨hbuffer, fun hpath op i => ?_⟩
  obtain ⟨w, p, h, hlog, -, hfits, -⟩ := (Machine.boot_logged disk hpath).run (pre ++ ops)
  set m := (Machine.boot disk path).run (pre ++ ops) with hm
  rw [List.append_nil, show logOps [] = [] from rfl, List.nil_append] at hlog
  -- what is not in the file is in the buffer
  have hpending : p.length < n := by
    rw [h.buffer, List.length_map] at hbuffer
    exact hbuffer
  have hlen : ((pre ++ ops).filterMap Op.logOp).length = w.length + p.length := by
    rw [← hlog, length_logOps, List.length_append]
  constructor
  · obtain ⟨j, hcrash, -⟩ := h.crash op i
    refine ⟨w, (encodeAll (p ++ m.records op)).take j, ?_, ?_, by omega⟩
    · rw [hcrash, Function.update_self]
    · rw [← hlog, logOps_append]
      exact List.prefix_append _ _
  · intro hfit hwhole
    have hrecs : ∀ r ∈ w ++ (p ++ m.records op), r.Fits := by
      rw [← List.append_assoc]
      intro r hr
      rcases List.mem_append.mp hr with hr | hr
      · exact hfits (fun o ho => hfit o (List.mem_append_left _ ho)) (by simp) r hr
      · exact Machine.fits_records (hfit op (by simp)) r hr
    obtain ⟨j, t, -, ht, hcrash, -⟩ :=
      h.crash_file (fun r hr => hrecs r (List.mem_append_right _ hr)) i
    have hall : (pre ++ ops ++ [op]).filterMap Op.logOp = logOps (w ++ (p ++ m.records op)) := by
      rw [← List.append_assoc, logOps_append, hlog, Machine.logOps_records, List.filterMap_append]
      cases hl : op.logOp <;> simp [hl]
    have hkept : ∀ r ∈ w ++ (p ++ m.records op).take j, r.Fits := fun r hr =>
      hrecs r (List.append_subset.mpr ⟨List.subset_append_left _ _,
        fun _ hx => List.mem_append_right _ (List.mem_of_mem_take hx)⟩ hr)
    refine ⟨w.length + j, by omega, ?_⟩
    rw [Machine.boot_crash_map hpath hkept ht hcrash fun _ => hwhole, hall, logOps, logOps,
      ← List.map_take, List.take_length_add_append]

/-- The theorem at a store that starts with batches of 5, makes them batches of 2, and stops
in the fourth put. -/
theorem groupCommit_bounds_two :
    ((Machine.boot (fun _ => none) "/tmp/kv.wal").run
      ([.put (str "a") (str "1"), .setGroupCommitEvery 2] ++
        [.put (str "b") (str "2"), .del (str "a")])).store.wal.buffer.length < 2 ∧
    ∃ k, 3 < k + 2 ∧
      (Machine.boot (((Machine.boot (fun _ => none) "/tmp/kv.wal").run
        ([.put (str "a") (str "1"), .setGroupCommitEvery 2] ++
          [.put (str "b") (str "2"), .del (str "a")])).crash
            (.put (str "c") (str "3")) 10) "/tmp/kv.wal").store.map =
        applyAll (([.put (str "a") (str "1"), .put (str "b") (str "2"), .del (str "a"),
          .put (str "c") (str "3")] : List LogOp).take k)
            (Machine.boot (fun _ => none) "/tmp/kv.wal").store.map := by
  have hkeep : ∀ op ∈ [Op.put (str "b") (str "2"), .del (str "a")], op.KeepsBatch 2 := by
    intro op hop
    rcases List.mem_pair.mp hop with rfl | rfl <;> trivial
  have hbatch : ((Machine.boot (fun _ => none) "/tmp/kv.wal").run
      [.put (str "a") (str "1"), .setGroupCommitEvery 2]).store.groupCommitEvery = 2 := rfl
  have h := groupCommit_bounds (fun _ => none) "/tmp/kv.wal" (by norm_num) hbatch hkeep le_rfl
  exact ⟨h.1, (h.2 (by decide) (.put (str "c") (str "3")) 10).2 (by decide) wholeRecords_nil⟩

end KvEngine
