import KvEngine.Store.Recovery

/-!
# A store whose system calls fail

With any schedule of results, a `write` may take part of the bytes and `write` and `fsync`
may fail. `put` updates the map before the group commit it may have to make, `del` after
it; and `flush` keeps its whole buffer on failure, so the next attempt writes all of it
again behind what the file got.

Results:
* `agreesThroughout_iff`: after every call the map is what the accepted records make of it,
  exactly when no `del` of a key in the map has a group commit that fails.
* `not_agreesThroughout`: such a `del` logs the deletion and keeps the key.
* `flush_durable`: when the OS takes records whole or not at all, replaying the file at a
  successful `flush_wal` gives all records accepted so far.
* `not_flush_durable`: a record torn by a failed flush hides what the next one writes.
-/

namespace KvEngine

/-! ## Accepted records -/

namespace Machine

/-- A fresh `KVStore` after `open(walPath)` on the files `disk`. -/
def openOn (disk : Disk) (walPath : Path) (os : Schedule) : Machine :=
  let r := ({} : KVStore).open walPath disk os
  ⟨r.value.2, disk.run r.effects, r.os⟩

/-- The update whose record the call gets accepted by `append_put` or `append_del`. -/
def accepted (m : Machine) (op : Op) : List LogOp :=
  match op with
  | .put k v => if (m.store.wal.appendPut m.store.nextSeq k v).isSome then [.put k v] else []
  | .del k => if (m.store.wal.appendDel m.store.nextSeq k).isSome then [.del k] else []
  | .setGroupCommitEvery _ => []
  | .flushWal => []

/-- The updates accepted in a sequence of calls. -/
def acceptedAll (m : Machine) : List Op → List LogOp
  | [] => []
  | op :: ops => m.accepted op ++ (m.step op).acceptedAll ops

theorem accepted_of_fd {m : Machine} (hfd : m.store.wal.fd ≠ none) (op : Op) :
    m.accepted op = op.logOp.toList := by
  cases op with
  | put k v => simp [accepted, Wal.appendPut, Wal.writeRecord_eq hfd, Op.logOp]
  | del k => simp [accepted, Wal.appendDel, Wal.writeRecord_eq hfd, Op.logOp]
  | setGroupCommitEvery n => rfl
  | flushWal => rfl

/-! ## Memory and log -/

/-- After each of the calls the map is what the records accepted so far make of it. -/
def AgreesThroughout (m : Machine) (ops : List Op) : Prop :=
  ∀ i ≤ ops.length,
    (m.run (ops.take i)).store.map = applyAll (m.acceptedAll (ops.take i)) m.store.map

/-- The call is not a `del` of a key in the map whose group commit is due and fails. -/
def DelCommits (m : Machine) : Op → Prop
  | .del k =>
    m.store.wal.fd ≠ none → m.store.nextSeq % m.store.groupCommitEvery = 0 →
      ((m.store.appended (.del k)).wal.flush m.os).value.1 = false → m.store.map.lookup k = none
  | _ => True

/-- None of the calls is. -/
def DelsCommit (m : Machine) : List Op → Prop
  | [] => True
  | op :: ops => m.DelCommits op ∧ (m.step op).DelsCommit ops

theorem erase_eq_self_iff {map : Map} {k : Bytes} : map.erase k = map ↔ map.lookup k = none := by
  constructor
  · intro h
    rw [← h]
    exact Finmap.lookup_erase k map
  · intro h
    apply Finmap.ext_lookup
    intro k'
    by_cases hk : k' = k
    · subst hk
      rw [Finmap.lookup_erase, h]
    · exact Finmap.lookup_erase_ne hk

/-- One call keeps map and log in agreement exactly under the condition. -/
theorem map_step_iff {m : Machine} (hopen : m.store.opened = true) (op : Op) :
    (m.step op).store.map = applyAll (m.accepted op) m.store.map ↔ m.DelCommits op := by
  by_cases hfd : m.store.wal.fd = none
  · -- without an open log nothing is accepted and nothing changes
    cases op with
    | put k v =>
      simp [step, outcome, KVStore.put, hopen, accepted, Wal.appendPut, Wal.writeRecord, hfd,
        DelCommits]
    | del k =>
      simp [step, outcome, KVStore.del, hopen, accepted, Wal.appendDel, Wal.writeRecord, hfd,
        DelCommits]
    | setGroupCommitEvery n => exact iff_of_true rfl trivial
    | flushWal => exact iff_of_true rfl trivial
  rw [accepted_of_fd hfd]
  cases op with
  | put k v =>
    refine iff_of_true ?_ trivial
    simp only [step, outcome]
    rw [KVStore.put_eq hopen hfd]
    split_ifs <;> rfl
  | del k =>
    simp only [step, outcome, DelCommits]
    rw [KVStore.del_eq hopen hfd]
    by_cases hdue : m.store.nextSeq % m.store.groupCommitEvery = 0
    · simp only [if_pos hdue]
      cases hok : ((m.store.appended (.del k)).wal.flush m.os).value.1 with
      | true => simp [hfd, hdue, Op.logOp, LogOp.apply]
      | false =>
        simp only [hfd, hdue, Op.logOp, ne_eq, not_false_eq_true, forall_const]
        exact eq_comm.trans erase_eq_self_iff
    · simp [hdue, Op.logOp, KVStore.appended]
  | setGroupCommitEvery n => exact iff_of_true rfl trivial
  | flushWal => exact iff_of_true rfl trivial

theorem opened_step {m : Machine} (hopen : m.store.opened = true) (op : Op) :
    (m.step op).store.opened = true := by
  by_cases hfd : m.store.wal.fd = none
  · cases op with
    | put k v => simp [step, outcome, KVStore.put, hopen, Wal.appendPut, Wal.writeRecord, hfd]
    | del k => simp [step, outcome, KVStore.del, hopen, Wal.appendDel, Wal.writeRecord, hfd]
    | setGroupCommitEvery n => exact hopen
    | flushWal => exact hopen
  cases op with
  | put k v =>
    simp only [step, outcome]
    rw [KVStore.put_eq hopen hfd]
    split_ifs <;> exact hopen
  | del k =>
    simp only [step, outcome]
    rw [KVStore.del_eq hopen hfd]
    split_ifs <;> exact hopen
  | setGroupCommitEvery n => exact hopen
  | flushWal => exact hopen

theorem agreesThroughout_cons {m : Machine} (op : Op) (ops : List Op)
    (hmap : (m.step op).store.map = applyAll (m.accepted op) m.store.map) :
    m.AgreesThroughout (op :: ops) ↔ (m.step op).AgreesThroughout ops := by
  constructor
  · intro h i hi
    have hsucc := h (i + 1) (Nat.succ_le_succ hi)
    rwa [List.take_succ_cons, run_cons, acceptedAll, applyAll_append, ← hmap] at hsucc
  · intro h i hi
    cases i with
    | zero => rfl
    | succ i =>
      rw [List.take_succ_cons, run_cons, acceptedAll, applyAll_append, ← hmap]
      exact h i (Nat.le_of_succ_le_succ hi)

end Machine

/-- **Memory and log agree** after every call, whatever the system calls return, exactly
when no `del` of a key in the map has a group commit that fails. -/
theorem agreesThroughout_iff {m : Machine} (hopen : m.store.opened = true) (ops : List Op) :
    m.AgreesThroughout ops ↔ m.DelsCommit ops := by
  induction ops generalizing m with
  | nil =>
    refine iff_of_true (fun i hi => ?_) trivial
    obtain rfl := Nat.le_zero.mp hi
    rfl
  | cons op ops ih =>
    have hstep := Machine.map_step_iff hopen op
    constructor
    · intro h
      have hmap : (m.step op).store.map = applyAll (m.accepted op) m.store.map := by
        have hone := h 1 (by simp)
        simpa [Machine.acceptedAll] using hone
      exact ⟨hstep.mp hmap, (ih (Machine.opened_step hopen op)).mp
        ((Machine.agreesThroughout_cons op ops hmap).mp h)⟩
    · rintro ⟨hcommits, hrest⟩
      exact (Machine.agreesThroughout_cons op ops (hstep.mpr hcommits)).mpr
        ((ih (Machine.opened_step hopen op)).mpr hrest)

/-- A fresh store on no files; the write of its first group commit fails. -/
def failingStore : Machine := .openOn (fun _ => none) "wal.log" [.ok, .error]

/-- The theorem at a failed group commit of a put and a `del` of another key. -/
theorem agreesThroughout_putDel : failingStore.store.opened = true ∧
    failingStore.AgreesThroughout
      [.setGroupCommitEvery 1, .put (str "a") (str "1"), .del (str "b")] := by
  have hopen : failingStore.store.opened = true := rfl
  exact ⟨hopen, (agreesThroughout_iff hopen _).mpr
    ⟨trivial, trivial, fun _ _ _ => by decide +kernel, trivial⟩⟩

/-- Without the condition memory and log can disagree: the group commit of the `del` fails,
so its record is accepted and the key stays in the map. -/
theorem not_agreesThroughout :
    ¬ ∀ (disk : Disk) (walPath : Path) (os : Schedule) (ops : List Op),
      (Machine.openOn disk walPath os).store.opened = true →
        (Machine.openOn disk walPath os).AgreesThroughout ops := by
  intro hall
  have hagrees := hall (fun _ => none) "wal.log" [.ok, .error]
    [.setGroupCommitEvery 2, .put (str "a") (str "1"), .del (str "a")] rfl 3 le_rfl
  have hlookup := congrArg (fun map => map.lookup (str "a")) hagrees
  revert hlookup
  decide +kernel

/-! ## What the OS accepts -/

/-- How many of the `n` bytes of a record the OS takes before an error, whether it takes
all of them, and the results left. -/
def Schedule.accept : Schedule → ℕ → ℕ × Bool × Schedule
  | [], n => (n, true, [])
  | r :: os, n =>
    if n = 0 then (0, true, r :: os)
    else
      match r with
      | .ok => (n, true, os)
      | .error => (0, false, os)
      | .short k =>
        let r := Schedule.accept os (n - k)
        (min k n + r.1, r.2)

/-- An attempt to write these records stops between two of them, if it stops. -/
def Schedule.StopsBetween : Schedule → List Bytes → Prop
  | _, [] => True
  | os, rec :: recs =>
    let r := os.accept rec.length
    (r.2.1 = false → r.1 = 0) ∧ (r.2.1 = true → Schedule.StopsBetween r.2.2 recs)

instance (os : Schedule) (recs : List Bytes) : Decidable (os.StopsBetween recs) := by
  induction recs generalizing os with
  | nil => exact isTrue trivial
  | cons rec recs ih =>
    have := ih (os.accept rec.length).2.2
    exact inferInstanceAs (Decidable (_ ∧ (_ → _)))

theorem Schedule.accept_all {os : Schedule} {n : ℕ} (h : (os.accept n).2.1 = true) :
    (os.accept n).1 = n := by
  induction os generalizing n with
  | nil => rfl
  | cons r os ih =>
    by_cases hn : n = 0
    · simp [Schedule.accept, hn]
    cases r with
    | ok => simp [Schedule.accept, hn]
    | error => simp [Schedule.accept, hn] at h
    | short k =>
      simp only [Schedule.accept, if_neg hn] at h ⊢
      rw [ih h]
      omega

theorem Wal.writeLoop_eq (path : Path) (pos : ℕ) (p : Bytes) (os : Schedule) :
    Wal.writeLoop path pos p os =
      ⟨((os.accept p.length).2.1, pos + (os.accept p.length).1),
        writes path pos (p.take (os.accept p.length).1), (os.accept p.length).2.2⟩ := by
  induction os generalizing pos p with
  | nil => simp [Wal.writeLoop, Schedule.accept]
  | cons r os ih =>
    by_cases hp : p = []
    · simp [Wal.writeLoop, Schedule.accept, hp, writes]
    have hlen : p.length ≠ 0 := fun h => hp (List.length_eq_zero_iff.mp h)
    cases r with
    | ok => simp [Wal.writeLoop, Schedule.accept, hp]
    | error => simp [Wal.writeLoop, Schedule.accept, hp, writes]
    | short k =>
      simp only [Wal.writeLoop, Schedule.accept, if_neg hp, if_neg hlen, ih, List.length_drop,
        List.length_take]
      have htake : ∀ j, p.take (min k p.length + j) = p.take k ++ (p.drop k).take j := by
        intro j
        rcases Nat.le_total k p.length with hk | hk
        · rw [min_eq_left hk, List.take_add]
        · rw [min_eq_right hk, List.drop_of_length_le hk, List.take_of_length_le hk,
            List.take_of_length_le (by omega), List.take_nil, List.append_nil]
      rw [htake, writes_append, List.length_take, Nat.add_assoc]

/-- What such an attempt writes: some of the first records, all if it succeeds. -/
theorem Wal.flushLoop_whole (path : Path) (pos : ℕ) {recs : List Bytes} {os : Schedule}
    (h : os.StopsBetween recs) :
    ∃ k, (Wal.flushLoop path pos recs os).effects = writes path pos (recs.take k).flatten ∧
      (Wal.flushLoop path pos recs os).value.2 = pos + (recs.take k).flatten.length ∧
      ((Wal.flushLoop path pos recs os).value.1 = true → recs.take k = recs) := by
  induction recs generalizing pos os with
  | nil => exact ⟨0, rfl, rfl, fun _ => rfl⟩
  | cons rec recs ih =>
    obtain ⟨hstop, hgo⟩ := h
    simp only [Wal.flushLoop, Wal.writeLoop_eq]
    cases hall : (os.accept rec.length).2.1 with
    | false =>
      simp only [hstop hall]
      exact ⟨0, by simp [writes], by simp, by simp⟩
    | true =>
      obtain ⟨k, heffects, hpos, hwhole⟩ := ih (pos + rec.length) (hgo hall)
      simp only [Schedule.accept_all hall, List.take_length, if_true, heffects, hpos]
      refine ⟨k + 1, ?_, ?_, fun hok => ?_⟩
      · rw [List.take_succ_cons, List.flatten_cons, writes_append]
      · rw [List.take_succ_cons, List.flatten_cons, List.length_append, Nat.add_assoc]
      · rw [List.take_succ_cons, hwhole hok]

/-- `flush` with such results: the records it wrote are at the end of the file, and the
buffer is empty after a success and the old one after a failure. -/
theorem Wal.flush_whole {w : Wal} {pos : ℕ} {os : Schedule} (hfd : w.fd = some pos)
    (h : os.StopsBetween w.buffer) :
    ∃ k fs, (w.flush os).effects = writes w.path pos (w.buffer.take k).flatten ++ fs ∧
      (fs = [] ∨ fs = [.fsync w.path]) ∧
      (w.flush os).value.2 =
        { w with
          fd := some (pos + (w.buffer.take k).flatten.length)
          buffer := if (w.flush os).value.1 then [] else w.buffer } ∧
      ((w.flush os).value.1 = true → w.buffer.take k = w.buffer) := by
  by_cases hbuf : w.buffer = []
  · refine ⟨0, [], by simp [Wal.flush, hfd, hbuf, writes], Or.inl rfl, ?_,
      fun _ => by rw [hbuf]; rfl⟩
    cases w
    simp_all [Wal.flush]
  obtain ⟨k, heffects, hpos, hwhole⟩ := Wal.flushLoop_whole w.path pos h
  simp only [Wal.flush, hfd, if_neg hbuf]
  cases hok : (Wal.flushLoop w.path pos w.buffer os).value.1 with
  | false =>
    simp only [heffects, hpos, Bool.false_eq_true, if_false]
    exact ⟨k, [], by rw [List.append_nil], Or.inl rfl, rfl, by simp⟩
  | true =>
    simp only [if_true]
    cases hsync : (Wal.flushLoop w.path pos w.buffer os).os.next with
    | mk r os' =>
      cases r with
      | error =>
        simp only [heffects, hpos]
        exact ⟨k, [], by rw [List.append_nil], Or.inl rfl, rfl, by simp⟩
      | ok =>
        simp only [heffects, hpos]
        exact ⟨k, _, rfl, Or.inr rfl, rfl, fun _ => hwhole hok⟩
      | short n =>
        simp only [heffects, hpos]
        exact ⟨k, _, rfl, Or.inr rfl, rfl, fun _ => hwhole hok⟩

/-! ## Records written again -/

/-- The log file is the records `written`, the buffer the records `pending`; some may be
there several times, but together they make of every map what `ops` make of it. -/
structure Wal.Rewrites (w : Wal) (path : Path) (disk : Disk) (written pending : List WalRecord)
    (ops : List LogOp) : Prop where
  walPath : w.path = path
  file : disk path = some (encodeAll written)
  fd : w.fd = some (encodeAll written).length
  buffer : w.buffer = pending.map WalRecord.encode
  fits : ∀ r ∈ written ++ pending, r.Fits
  same : ∀ base, applyAll (logOps (written ++ pending)) base = applyAll ops base

namespace Wal.Rewrites

variable {w : Wal} {path : Path} {disk : Disk} {written pending : List WalRecord}
  {ops : List LogOp}

theorem fd_ne (h : w.Rewrites path disk written pending ops) : w.fd ≠ none := by simp [h.fd]

/-- Records written again behind themselves change nothing. -/
theorem flushed (h : w.Rewrites path disk written pending ops) {os : Schedule}
    (hstops : os.StopsBetween w.buffer) :
    ∃ written' pending', (w.flush os).value.2.Rewrites path (disk.run (w.flush os).effects) written'
      pending' ops ∧ ((w.flush os).value.1 = true → pending' = []) := by
  obtain rfl := h.walPath
  obtain ⟨k, fs, heffects, hfs, hvalue, hwhole⟩ := Wal.flush_whole h.fd hstops
  have hflat : (w.buffer.take k).flatten = encodeAll (pending.take k) := by
    rw [h.buffer, ← List.map_take, encodeAll]
  have hdisk : disk.run (w.flush os).effects =
      Function.update disk w.path (some (encodeAll (written ++ pending.take k))) := by
    rw [heffects, hflat, Disk.run_append, Disk.run_writes _ _ _ _ h.file, encodeAll_append]
    rcases hfs with rfl | rfl
    · rfl
    · rfl
  have hfd : some ((encodeAll written).length + (w.buffer.take k).flatten.length) =
      some (encodeAll (written ++ pending.take k)).length := by
    rw [hflat, encodeAll_append, List.length_append]
  cases hok : (w.flush os).value.1 with
  | true =>
    -- the first attempts left nothing that this one does not write again
    have hall : pending.take k = pending := by
      have htake := hwhole hok
      rw [h.buffer, ← List.map_take] at htake
      refine (List.take_prefix k pending).eq_of_length ?_
      simpa using congrArg List.length htake
    refine ⟨written ++ pending, [], ?_, fun _ => rfl⟩
    rw [hvalue, hdisk, hok, hfd, hall]
    exact ⟨rfl, by simp, rfl, rfl, by simpa using h.fits, by simpa using h.same⟩
  | false =>
    refine ⟨written ++ pending.take k, pending, ?_, by simp⟩
    rw [hvalue, hdisk, hok, hfd]
    refine ⟨rfl, by simp, rfl, h.buffer, fun r hr => h.fits r ?_, fun base => ?_⟩
    · simp only [List.mem_append] at hr ⊢
      rcases hr with (hr | hr) | hr
      · exact Or.inl hr
      · exact Or.inr (List.mem_of_mem_take hr)
      · exact Or.inr hr
    · have hsame := h.same base
      simp only [logOps, List.map_append, applyAll_append, List.map_take] at hsame ⊢
      rw [applyAll_take_applyAll, hsame]

/-- A record that joins the buffer. -/
theorem appended {s : KVStore} (h : s.wal.Rewrites path disk written pending ops) {lop : LogOp}
    (hfits : (lop.record s.nextSeq).Fits) :
    (s.appended lop).wal.Rewrites path disk written (pending ++ [lop.record s.nextSeq])
      (ops ++ [lop]) := by
  refine ⟨h.walPath, h.file, h.fd, by simp [KVStore.appended, h.buffer], fun r hr => ?_,
    fun base => ?_⟩
  · rw [← List.append_assoc, List.mem_append] at hr
    rcases hr with hr | hr
    · exact h.fits r hr
    · rwa [List.mem_singleton.mp hr]
  · rw [← List.append_assoc, applyAll_append, ← h.same base]
    simp [logOps]

end Wal.Rewrites

namespace Machine

/-- The buffer the call flushes, if it flushes. -/
def flushes? (m : Machine) : Op → Option (List Bytes)
  | .put k v =>
    if m.store.nextSeq % m.store.groupCommitEvery = 0 then
      some (m.store.appended (.put k v)).wal.buffer
    else none
  | .del k =>
    if m.store.nextSeq % m.store.groupCommitEvery = 0 then
      some (m.store.appended (.del k)).wal.buffer
    else none
  | .setGroupCommitEvery _ => none
  | .flushWal => some m.store.wal.buffer

/-- If a flush of the call stops, it stops between two records. -/
def TakesWhole (m : Machine) (op : Op) : Prop :=
  ∀ buffer ∈ m.flushes? op, m.os.StopsBetween buffer

/-- So do the flushes of all these calls. -/
def TakeWhole (m : Machine) : List Op → Prop
  | [] => True
  | op :: ops => m.TakesWhole op ∧ (m.step op).TakeWhole ops

instance (m : Machine) (op : Op) : Decidable (m.TakesWhole op) :=
  inferInstanceAs (Decidable (∀ buffer ∈ m.flushes? op, m.os.StopsBetween buffer))

instance (m : Machine) (ops : List Op) : Decidable (m.TakeWhole ops) := by
  induction ops generalizing m with
  | nil => exact isTrue trivial
  | cons op ops ih =>
    have := ih (m.step op)
    exact inferInstanceAs (Decidable (_ ∧ _))

/-- What a logging call makes of the log and the files, whether its flush succeeds or not. -/
theorem wal_step {m : Machine} (hopen : m.store.opened = true) (hfd : m.store.wal.fd ≠ none)
    {op : Op} {lop : LogOp} (hop : op.logOp = some lop) :
    if m.store.nextSeq % m.store.groupCommitEvery = 0 then
      m.flushes? op = some (m.store.appended lop).wal.buffer ∧
        (m.step op).store.wal = ((m.store.appended lop).wal.flush m.os).value.2 ∧
        (m.step op).disk = m.disk.run ((m.store.appended lop).wal.flush m.os).effects
    else (m.step op).store.wal = (m.store.appended lop).wal ∧ (m.step op).disk = m.disk := by
  cases op with
  | put k v =>
    obtain rfl := Option.some.inj hop
    simp only [step, outcome, flushes?]
    rw [KVStore.put_eq hopen hfd]
    split_ifs
    · exact ⟨rfl, rfl, rfl⟩
    · exact ⟨rfl, rfl⟩
  | del k =>
    obtain rfl := Option.some.inj hop
    simp only [step, outcome, flushes?]
    rw [KVStore.del_eq hopen hfd]
    split_ifs
    · exact ⟨rfl, rfl, rfl⟩
    · exact ⟨rfl, rfl⟩
  | setGroupCommitEvery n => simp [Op.logOp] at hop
  | flushWal => simp [Op.logOp] at hop

end Machine

namespace Wal.Rewrites

variable {m : Machine} {path : Path} {written pending : List WalRecord} {ops : List LogOp}

/-- Every call keeps the description of log and file. -/
theorem step (h : m.store.wal.Rewrites path m.disk written pending ops)
    (hopen : m.store.opened = true) {op : Op} (hfits : op.Fits) (hwhole : m.TakesWhole op) :
    ∃ written' pending', (m.step op).store.wal.Rewrites path (m.step op).disk written' pending'
      (ops ++ m.accepted op) := by
  rw [Machine.accepted_of_fd h.fd_ne]
  cases hop : op.logOp with
  | some lop =>
    have happ := h.appended (hfits.record hop (Nat.mod_lt _ (by norm_num)))
    have hstep := Machine.wal_step hopen h.fd_ne hop
    rw [Option.toList_some]
    split_ifs at hstep with hdue
    · obtain ⟨hflushes, hwal, hdisk⟩ := hstep
      obtain ⟨written', pending', hflushed, -⟩ := happ.flushed (hwhole _ hflushes)
      rw [hwal, hdisk]
      exact ⟨written', pending', hflushed⟩
    · obtain ⟨hwal, hdisk⟩ := hstep
      rw [hwal, hdisk]
      exact ⟨_, _, happ⟩
  | none =>
    rw [Option.toList_none, List.append_nil]
    cases op with
    | put k v => simp [Op.logOp] at hop
    | del k => simp [Op.logOp] at hop
    | setGroupCommitEvery n => exact ⟨written, pending, h⟩
    | flushWal =>
      obtain ⟨written', pending', hflushed, -⟩ := h.flushed (hwhole _ rfl)
      exact ⟨written', pending', hflushed⟩

theorem run (h : m.store.wal.Rewrites path m.disk written pending ops)
    (hopen : m.store.opened = true)
    {calls : List Op} (hfits : ∀ op ∈ calls, op.Fits) (hwhole : m.TakeWhole calls) :
    ∃ written' pending', (m.run calls).store.wal.Rewrites path (m.run calls).disk written' pending'
      (ops ++ m.acceptedAll calls) := by
  induction calls generalizing m written pending ops with
  | nil => exact ⟨written, pending, by simpa [Machine.acceptedAll] using h⟩
  | cons op calls ih =>
    obtain ⟨written', pending', hstep⟩ := h.step hopen (hfits op (by simp)) hwhole.1
    have hrest := ih hstep (Machine.opened_step hopen op) (fun x hx => hfits x (by simp [hx]))
      hwhole.2
    rwa [List.append_assoc] at hrest

end Wal.Rewrites

theorem Wal.open_of_ok {w : Wal} {path : Path} {disk : Disk} {os : Schedule}
    (h : (w.open path disk os).value.1 = true) :
    (w.open path disk os).value.2 =
        { w with path := path, fd := some ((disk path).getD []).length, lastGoodOffset := 0 } ∧
      (w.open path disk os).effects = [.create path] := by
  unfold Wal.open at h ⊢
  split at h
  · simp at h
  · exact ⟨rfl, rfl⟩

/-- A store opened on an empty log. -/
theorem Machine.openOn_rewrites {disk : Disk} {path : Path} {os : Schedule}
    (hempty : disk path = none ∨ disk path = some [])
    (hopen : (Machine.openOn disk path os).store.opened = true) :
    (Machine.openOn disk path os).store.wal.Rewrites path (Machine.openOn disk path os).disk
      [] [] [] := by
  have hfile : (disk path).getD [] = [] := by rcases hempty with h | h <;> rw [h] <;> rfl
  simp only [Machine.openOn, KVStore.open, Bool.false_eq_true, if_false] at hopen ⊢
  generalize loadFromFileUnlocked _ snapshotPath disk os = loaded at hopen ⊢
  obtain ⟨found, map, os'⟩ := loaded
  simp only at hopen ⊢
  cases hok : (Wal.open {} path disk os').value.1 with
  | false => simp [hok] at hopen
  | true =>
    obtain ⟨hwal, heffects⟩ := Wal.open_of_ok hok
    simp only [if_true, hwal, heffects, Wal.replayInto, Disk.run_cons, Disk.run_nil,
      Effect.apply, hfile, Function.update_self, Option.getD_some]
    exact ⟨rfl, by simp, rfl, rfl, by simp, fun _ => rfl⟩

/-- A flush that succeeds stops nowhere. -/
theorem Wal.stopsBetween_of_ok {path : Path} {pos : ℕ} {recs : List Bytes} {os : Schedule}
    (h : (Wal.flushLoop path pos recs os).value.1 = true) : os.StopsBetween recs := by
  induction recs generalizing pos os with
  | nil => trivial
  | cons rec recs ih =>
    simp only [Wal.flushLoop, Wal.writeLoop_eq] at h
    cases hall : (os.accept rec.length).2.1 with
    | false => simp [hall] at h
    | true =>
      simp only [hall, if_true] at h
      exact ⟨fun hstop => absurd (hall.symm.trans hstop) (by simp), fun _ => ih h⟩

theorem Wal.stopsBetween_of_flush {w : Wal} {pos : ℕ} {os : Schedule} (hfd : w.fd = some pos)
    (h : (w.flush os).value.1 = true) : os.StopsBetween w.buffer := by
  simp only [Wal.flush, hfd] at h
  by_cases hbuf : w.buffer = []
  · rw [hbuf]
    trivial
  · rw [if_neg hbuf] at h
    have hloop : (Wal.flushLoop w.path pos w.buffer os).value.1 = true := by
      by_contra hok
      simp [Bool.eq_false_of_not_eq_true hok] at h
    exact Wal.stopsBetween_of_ok hloop

/-- **A successful flush is durable**, even after failed ones, when the OS takes each record
whole or not at all: replaying the file gives what the records accepted so far make of
the map replay starts from. -/
theorem flush_durable {disk : Disk} {path : Path} {os : Schedule} {calls : List Op}
    (hempty : disk path = none ∨ disk path = some [])
    (hopen : (Machine.openOn disk path os).store.opened = true)
    (hfits : ∀ op ∈ calls, op.Fits) (hwhole : (Machine.openOn disk path os).TakeWhole calls)
    (htrue : (((Machine.openOn disk path os).run calls).store.flushWal
      ((Machine.openOn disk path os).run calls).os).value.1 = true) (base : Map) :
    (replay (((((Machine.openOn disk path os).run calls).step .flushWal).disk path).getD [])
      base).map = applyAll ((Machine.openOn disk path os).acceptedAll calls) base := by
  obtain ⟨written, pending, hrun⟩ :=
    (Machine.openOn_rewrites hempty hopen).run hopen hfits hwhole
  set m := (Machine.openOn disk path os).run calls
  -- the last flush succeeds
  have hstops : m.os.StopsBetween m.store.wal.buffer := Wal.stopsBetween_of_flush hrun.fd htrue
  obtain ⟨written', pending', hflushed, hdone⟩ := hrun.flushed hstops
  obtain rfl := hdone htrue
  have hfits' : ∀ r ∈ written', r.Fits := by simpa using hflushed.fits
  have hfile : (m.step .flushWal).disk path = some (encodeAll written') := hflushed.file
  rw [hfile, Option.getD_some]
  have hreplay := replay_encode hfits' readRecord_nil base
  rw [List.append_nil] at hreplay
  rw [hreplay, Replay.applyAll_map]
  simpa using hflushed.same base

/-- A fresh store on no files; its first flush writes one record, and the next one fails. -/
def halfFlushedStore : Machine := .openOn (fun _ => none) "wal.log" [.ok, .ok, .error]

/-- The theorem at two puts whose first flush fails between their records. -/
theorem flush_durable_halfFlushed :
    let m := halfFlushedStore.run [.put (str "a") (str "1"), .put (str "b") (str "2"), .flushWal]
    (replay (((m.step .flushWal).disk "wal.log").getD []) ∅).map =
      applyAll [.put (str "a") (str "1"), .put (str "b") (str "2")] ∅ := by
  set calls : List Op := [.put (str "a") (str "1"), .put (str "b") (str "2"), .flushWal]
  have hfits : ∀ op ∈ calls, op.Fits := by decide
  have hwhole : halfFlushedStore.TakeWhole calls := by decide +kernel
  exact flush_durable (Or.inl rfl) rfl hfits hwhole (by decide +kernel) ∅

/-- Without the condition a successful flush can be lost: the first attempt leaves one byte
of the record, and replay does not get past it. -/
theorem not_flush_durable :
    ¬ ∀ (disk : Disk) (path : Path) (os : Schedule) (calls : List Op) (base : Map),
      disk path = none ∨ disk path = some [] → (Machine.openOn disk path os).store.opened = true →
      (((Machine.openOn disk path os).run calls).store.flushWal
        ((Machine.openOn disk path os).run calls).os).value.1 = true →
      (replay (((((Machine.openOn disk path os).run calls).step .flushWal).disk path).getD [])
        base).map = applyAll ((Machine.openOn disk path os).acceptedAll calls) base := by
  intro hall
  have hmap := hall (fun _ => none) "wal.log" [.ok, .short 1, .error]
    [.put (str "a") (str "1"), .flushWal] ∅ (Or.inl rfl) rfl (by decide +kernel)
  have hlookup := congrArg (fun map => map.lookup (str "a")) hmap
  revert hlookup
  decide +kernel

end KvEngine
