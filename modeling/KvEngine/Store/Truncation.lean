import KvEngine.Store.Faults
import KvEngine.Wal.Resume

/-!
# Cutting off the bad tail of a log

`truncate_to_last_good` cuts the file behind the last record that replay accepted.
`replay_into` has left the file position at the old end, and `ftruncate` does not move it:
what is written next leaves a gap of zero bytes behind the records, where replay stops.

Results:
* `readRecord_zero`: no record begins in a gap of zero bytes.
* `truncate_appendable_iff`: what is appended after a truncation is replayed exactly if
  there was no bad tail to cut off, the strings fit the format, or nothing is appended.
* `not_truncate_appendable`: a put behind one stray byte is not.
-/

namespace KvEngine

/-! ## What records begin with and hold -/

/-- No record begins with a zero byte. -/
theorem readRecord_zero (u : Bytes) : readRecord (0 :: u) = none := by
  by_contra hne
  obtain ⟨⟨r, rest⟩, h⟩ := Option.ne_none_iff_exists'.mp hne
  obtain ⟨hb, k, v, c, t, hparts, hsplit, -⟩ := readRecord_inv h
  have hmagic := hparts.magic
  cases hb with
  | nil => exact absurd hparts.header (by decide)
  | cons b hb =>
    obtain ⟨rfl, -⟩ := List.cons_eq_cons.mp hsplit
    -- the first byte of the magic number is not 0
    have hlow : leNat ((0 :: hb).take 4) % 256 = 0 := by
      rw [List.take_succ_cons, leNat]
      simp
    rw [show leNat ((0 :: hb).take 4) = kMagic from hmagic] at hlow
    revert hlow
    decide

/-- Strings of a record that is read have lengths of 32 bits. -/
theorem readRecord_lengths {s rest : Bytes} {r : WalRecord} (h : readRecord s = some (r, rest)) :
    r.key.length < 2 ^ 32 ∧ r.value.length < 2 ^ 32 := by
  obtain ⟨hb, k, v, c, t, hparts, -, rfl⟩ := readRecord_inv h
  have hfield : ∀ b : Bytes, leNat (b.take 4) < 2 ^ 32 := by
    intro b
    have hlen : (b.take 4).length ≤ 4 := by rw [List.length_take]; exact min_le_left _ _
    calc leNat (b.take 4) < 256 ^ (b.take 4).length := leNat_lt _
      _ ≤ 256 ^ 4 := Nat.pow_le_pow_right (by norm_num) hlen
      _ = 2 ^ 32 := by norm_num
  refine ⟨hparts.key ▸ hfield _, ?_⟩
  show v.length < _
  rw [hparts.val]
  split_ifs
  · exact hfield _
  · norm_num

theorem lengths_of_mem_foundRecords {file : Bytes} {r : WalRecord} (h : r ∈ foundRecords file) :
    r.key.length < 2 ^ 32 ∧ r.value.length < 2 ^ 32 := by
  obtain ⟨s, t, -, hs, -⟩ := exists_parsesAs file
  generalize foundRecords file = rs at h hs
  induction hs with
  | nil => simp at h
  | cons hp _ ih =>
    rcases List.mem_cons.mp h with rfl | h
    · exact readRecord_lengths hp
    · exact ih h

/-! ## Truncation -/

/-- `ftruncate` of a file to `n` bytes. -/
def ftruncate (file : Bytes) (n : ℕ) : Bytes := file.take n ++ List.replicate (n - file.length) 0

namespace Wal

/-- `Wal::truncate_to_last_good` (lines 228–231). The file shrinks, the position `fd` stays. -/
def truncateToLastGood (w : Wal) (disk : Disk) (os : Schedule) : Bool × Disk × Schedule :=
  match w.fd with
  | none => (false, disk, os)
  | some _ =>
    match os.next with
    | (.error, os) => (false, disk, os)
    | (_, os) =>
      (true, Function.update disk w.path
        ((disk w.path).map fun file => ftruncate file w.lastGoodOffset), os)

/-- `append_put` or `append_del` of an update. -/
def append (w : Wal) (seq : UInt64) : LogOp → Option Wal
  | .put key value => w.appendPut seq.toNat key value
  | .del key => w.appendDel seq.toNat key

/-- Several of them. -/
def appendAll (w : Wal) : List (UInt64 × LogOp) → Option Wal
  | [] => some w
  | c :: cs =>
    match w.append c.1 c.2 with
    | none => none
    | some w => w.appendAll cs

/-- A log that is opened, replayed and truncated, and takes the updates `calls`, which are
then flushed: the files in the end, if every call succeeded. -/
def repairAndAppend (path : Path) (disk : Disk) (os : Schedule) (calls : List (UInt64 × LogOp)) :
    Option Disk := do
  let opened := ({} : Wal).open path disk os
  guard (opened.value.1 = true)
  let disk := disk.run opened.effects
  let (_, w) ← opened.value.2.replayInto ∅ disk
  let truncated := w.truncateToLastGood disk opened.os
  guard (truncated.1 = true)
  let w ← w.appendAll calls
  let flushed := w.flush truncated.2.2
  guard (flushed.value.1 = true)
  some (truncated.2.1.run flushed.effects)

end Wal

/-- The strings of the update have lengths of 32 bits. -/
def LogOp.Fits : LogOp → Prop
  | .put k v => k.length < 2 ^ 32 ∧ v.length < 2 ^ 32
  | .del k => k.length < 2 ^ 32

instance LogOp.decidableFits (op : LogOp) : Decidable op.Fits := by
  cases op <;> unfold LogOp.Fits <;> infer_instance

/-- The records of the updates. -/
def recordsOf (calls : List (UInt64 × LogOp)) : List WalRecord :=
  calls.map fun c => c.2.record c.1.toNat

theorem Wal.appendAll_eq {w : Wal} (hfd : w.fd ≠ none) (calls : List (UInt64 × LogOp)) :
    w.appendAll calls =
      some { w with buffer := w.buffer ++ (recordsOf calls).map WalRecord.encode } := by
  induction calls generalizing w with
  | nil => simp [Wal.appendAll, recordsOf]
  | cons c cs ih =>
    have hone : w.append c.1 c.2 =
        some { w with buffer := w.buffer ++ [(c.2.record c.1.toNat).encode] } := by
      obtain ⟨seq, lop⟩ := c
      cases lop <;> exact Wal.writeRecord_eq hfd _
    have hrest := ih (w := { w with buffer := w.buffer ++ [(c.2.record c.1.toNat).encode] }) hfd
    rw [Wal.appendAll, hone]
    simp only [hrest, recordsOf, List.map_cons, List.append_assoc, List.singleton_append]

/-- Bytes written behind the end of a file leave zero bytes between. -/
theorem Disk.run_writes_gap {disk : Disk} {path : Path} {file : Bytes}
    (hfile : disk path = some file) {pos : ℕ} (hpos : file.length ≤ pos)
    {bs : Bytes} (hne : bs ≠ []) :
    disk.run (writes path pos bs) = Function.update disk path
      (some (file ++ List.replicate (pos - file.length) 0 ++ bs)) := by
  obtain ⟨b, bs, rfl⟩ := List.exists_cons_of_ne_nil hne
  have hfirst : (Effect.write path pos b).apply disk = Function.update disk path
      (some (file ++ List.replicate (pos - file.length) 0 ++ [b])) := by
    rw [Effect.apply, hfile, Option.map_some, writeAt, if_neg (by omega)]
  have hend : pos + 1 = (file ++ List.replicate (pos - file.length) 0 ++ [b]).length := by
    simp only [List.length_append, List.length_replicate, List.length_singleton]
    omega
  rw [writes, Disk.run_cons, hfirst, hend, Disk.run_writes _ _ _ _ (Function.update_self _ _ _),
    Function.update_idem]
  simp only [List.append_assoc, List.singleton_append]

/-- A flush that succeeds has written the whole buffer. -/
theorem Wal.run_flush_of_ok {w : Wal} {pos : ℕ} {os : Schedule} (hfd : w.fd = some pos)
    (h : (w.flush os).value.1 = true) (disk : Disk) :
    disk.run (w.flush os).effects = disk.run (writes w.path pos w.buffer.flatten) := by
  obtain ⟨k, fs, heffects, hfs, -, hwhole⟩ :=
    Wal.flush_whole hfd (Wal.stopsBetween_of_flush hfd h)
  rw [heffects, hwhole h, Disk.run_append]
  rcases hfs with rfl | rfl
  · rfl
  · rfl

theorem Wal.truncateToLastGood_of_ok {w : Wal} {disk : Disk} {os : Schedule}
    (h : (w.truncateToLastGood disk os).1 = true) :
    (w.truncateToLastGood disk os).2.1 = Function.update disk w.path
      ((disk w.path).map fun file => ftruncate file w.lastGoodOffset) := by
  unfold Wal.truncateToLastGood at h ⊢
  split at h
  · simp at h
  · split at h
    · simp at h
    · rfl

/-- The file in the end: the records, a gap as long as the tail that was cut off, and what was
appended. -/
theorem Wal.repairAndAppend_file {path : Path} {disk disk' : Disk} {os : Schedule}
    {calls : List (UInt64 × LogOp)} (h : Wal.repairAndAppend path disk os calls = some disk')
    {s t : Bytes} (hfile : (disk path).getD [] = s ++ t) {rs : List WalRecord}
    (hs : ParsesAs s rs) (ht : readRecord t = none) :
    disk' path = some (if calls = [] then s else
      s ++ List.replicate t.length 0 ++ encodeAll (recordsOf calls)) := by
  unfold Wal.repairAndAppend at h
  simp only [Option.bind_eq_bind, Option.bind_eq_some_iff, Option.guard_eq_some', Prod.exists,
    Option.some.injEq] at h
  obtain ⟨-, hopen, st, w, hreplay, -, htrunc, w', happend, -, hflush, rfl⟩ := h
  obtain ⟨hwal, heffects⟩ := Wal.open_of_ok hopen
  have hdisk : (disk.run [.create path]) path = some (s ++ t) := by
    rw [Disk.run_cons, Disk.run_nil, Effect.apply, hfile, Function.update_self]
  rw [hwal, heffects] at hreplay
  rw [heffects] at htrunc hflush ⊢
  set disk₁ := disk.run [.create path] with hdisk₁
  simp only [Wal.replayInto, hdisk, Option.getD_some, Option.some.injEq, Prod.mk.injEq,
    hs.replay_lastGood ht] at hreplay
  obtain ⟨-, rfl⟩ := hreplay
  have hcut : ftruncate (s ++ t) s.length = s := by
    rw [ftruncate, List.take_left, Nat.sub_eq_zero_of_le (by simp), List.replicate_zero,
      List.append_nil]
  have htruncated := Wal.truncateToLastGood_of_ok htrunc
  simp only [hdisk, Option.map_some, hcut] at htruncated
  rw [Wal.appendAll_eq (by simp)] at happend
  obtain rfl := Option.some.inj happend
  rw [htruncated, Wal.run_flush_of_ok rfl hflush]
  have hbytes : (recordsOf calls).map WalRecord.encode = [] ↔ calls = [] := by simp [recordsOf]
  have hs' : (Function.update disk₁ path (some s)) path = some s := Function.update_self _ _ _
  simp only [List.nil_append]
  by_cases hcalls : calls = []
  · rw [if_pos hcalls, hbytes.mpr hcalls]
    exact hs'
  · rw [if_neg hcalls]
    -- the position is still behind the tail that was cut off
    have hne : encodeAll (recordsOf calls) ≠ [] := by
      rw [Ne, encodeAll_eq_nil]
      simpa [recordsOf] using hcalls
    show (Disk.run _ (writes path (s ++ t).length (encodeAll (recordsOf calls)))) path = _
    rw [Disk.run_writes_gap hs' (by simp) hne, Function.update_self, List.length_append,
      Nat.add_sub_cancel_left]

/-- What replay finds behind whole records. -/
theorem logOps_foundRecords_iff (calls : List (UInt64 × LogOp)) :
    logOps (foundRecords (encodeAll (recordsOf calls))) = calls.map Prod.snd ↔
      ∀ c ∈ calls, c.2.Fits := by
  have hops : logOps (recordsOf calls) = calls.map Prod.snd := by
    simp [logOps, recordsOf, Function.comp_def]
  constructor
  · intro h c hc
    have hmem : c.2 ∈ logOps (foundRecords (encodeAll (recordsOf calls))) := by
      rw [h]
      exact List.mem_map_of_mem hc
    obtain ⟨r, hr, hop⟩ := List.mem_map.mp hmem
    obtain ⟨hkey, hvalue⟩ := lengths_of_mem_foundRecords hr
    rw [← hop]
    unfold WalRecord.op
    cases r.type with
    | put => exact ⟨hkey, hvalue⟩
    | del => exact hkey
  · intro h
    have hfits : ∀ r ∈ recordsOf calls, r.Fits := by
      intro r hr
      obtain ⟨⟨seq, lop⟩, hc, rfl⟩ := List.mem_map.mp hr
      have hfit := h _ hc
      cases lop with
      | put k v => exact ⟨hfit.1, hfit.2, seq.toNat_lt, by simp [LogOp.record]⟩
      | del k => exact ⟨hfit, by simp [LogOp.record], seq.toNat_lt, fun _ => rfl⟩
    have hfound := foundRecords_encode hfits readRecord_nil
    rw [List.append_nil] at hfound
    rw [hfound, hops]

/-- **Truncating makes the log appendable** exactly when nothing was cut off. For every file,
every schedule and all calls succeeding: replaying the file in the end applies the updates
of the first replay and then all appended ones exactly if none was appended, or the file
consisted of well-formed records and no appended string has `2^32` bytes. -/
theorem truncate_appendable_iff {path : Path} {disk disk' : Disk} {os : Schedule}
    {calls : List (UInt64 × LogOp)} (h : Wal.repairAndAppend path disk os calls = some disk') :
    logOps (foundRecords ((disk' path).getD [])) =
        logOps (foundRecords ((disk path).getD [])) ++ calls.map Prod.snd ↔
      calls = [] ∨ ((∃ rs, ParsesAs ((disk path).getD []) rs) ∧ ∀ c ∈ calls, c.2.Fits) := by
  obtain ⟨s, t, hfile, hs, ht⟩ := exists_parsesAs ((disk path).getD [])
  have hwhole : (∃ rs, ParsesAs ((disk path).getD []) rs) ↔ t = [] := by
    rw [← lastGood_eq_length_iff _ ∅, hfile, hs.replay_lastGood ht, List.length_append]
    constructor
    · intro hlen
      exact List.length_eq_zero_iff.mp (by omega)
    · rintro rfl
      rfl
  rw [hwhole, Wal.repairAndAppend_file h hfile hs ht, Option.getD_some]
  by_cases hcalls : calls = []
  · have hfound := hs.foundRecords_append []
    rw [List.append_nil, foundRecords_of_none readRecord_nil, List.append_nil] at hfound
    simp [hcalls, hfound]
  · rw [if_neg hcalls, List.append_assoc, hs.foundRecords_append, logOps_append]
    simp only [hcalls, false_or, List.append_cancel_left_eq]
    by_cases htail : t = []
    · subst htail
      simpa using logOps_foundRecords_iff calls
    · -- replay stops at the gap
      obtain ⟨b, t, rfl⟩ := List.exists_cons_of_ne_nil htail
      rw [List.length_cons, List.replicate_succ, List.cons_append,
        foundRecords_of_none (readRecord_zero _)]
      simpa [logOps] using hcalls

/-- A log file and nothing else. -/
def logFile (file : Bytes) : Disk := Function.update (fun _ => none) "wal.log" (some file)

/-- The theorem at a file of one record, to which a put and a deletion are appended. -/
theorem truncate_appendable_iff_whole : ∃ d,
    Wal.repairAndAppend "wal.log" (logFile (WalRecord.mk .put 1 (str "a") (str "1")).encode)
      [.ok, .ok, .short 3] [(2, .put (str "b") (str "2")), (3, .del (str "a"))] = some d ∧
    logOps (foundRecords ((d "wal.log").getD [])) =
      [.put (str "a") (str "1"), .put (str "b") (str "2"), .del (str "a")] := by
  obtain ⟨d, h⟩ := Option.isSome_iff_exists.mp (show (Wal.repairAndAppend "wal.log"
    (logFile (WalRecord.mk .put 1 (str "a") (str "1")).encode) [.ok, .ok, .short 3]
      [(2, .put (str "b") (str "2")), (3, .del (str "a"))]).isSome = true by decide +kernel)
  refine ⟨d, h, ?_⟩
  have hread : readRecord (WalRecord.mk .put 1 (str "a") (str "1")).encode =
      some (⟨.put, 1, str "a", str "1"⟩, []) := by decide +kernel
  have hparses := ParsesAs.cons hread .nil
  rw [List.append_nil] at hparses
  rw [(truncate_appendable_iff h).mpr (Or.inr ⟨⟨_, hparses⟩, by decide⟩)]
  decide +kernel

/-- One stray byte is cut off; what is put then is behind a zero byte and not found. -/
theorem not_truncate_appendable :
    ¬ ∀ (path : Path) (disk disk' : Disk) (os : Schedule) (calls : List (UInt64 × LogOp)),
      Wal.repairAndAppend path disk os calls = some disk' →
        logOps (foundRecords ((disk' path).getD [])) =
          logOps (foundRecords ((disk path).getD [])) ++ calls.map Prod.snd := by
  intro hall
  obtain ⟨disk', h⟩ := Option.isSome_iff_exists.mp (show (Wal.repairAndAppend "wal.log"
    (logFile [0]) [] [(1, .put (str "a") (str "1"))]).isSome = true by decide +kernel)
  have hfound := hall _ _ _ _ _ h
  have hfile := Wal.repairAndAppend_file h (s := []) (t := [0]) rfl .nil (readRecord_zero [])
  rw [hfile] at hfound
  revert hfound
  decide +kernel

end KvEngine
