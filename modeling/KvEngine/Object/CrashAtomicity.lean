import KvEngine.Object.Refinement

/-!
# Objects across a crash

A run of calls on an object store over a fresh log, a crash somewhere in the next call,
and what the next open makes of the log it leaves. The log then holds the records of a
prefix of all calls on the key-value store that ends in the running call, or behind the
last flush before it (`exists_recovered`); on either, live metadata has all its chunks.

Results:
* `objectStore_crashAtomic`: when every key and value fits the record format, the objects
  recovered are those before the running call or those after it.
* `not_crashAtomic_longBucket`: a bucket name of `2^32 - 7` bytes loses them.
-/

namespace KvEngine

open KvProg

/-! ## The calls on the key-value store -/

/-- The files left by a crash `n` effects into the call after the first `j` of `ops`, or
after all of them. -/
def Machine.crashIn (m : Machine) (ops : List Op) (j n : ℕ) : Disk :=
  match ops[j]? with
  | some op => (m.run (ops.take j)).crash op n
  | none => (m.run ops).crash .flushWal 0

namespace ObjectStore

/-- The calls on the key-value store that a run of calls makes. -/
def opsOf (s : ObjectStore) : List ObjectCall → Map → List Op
  | [], _ => []
  | c :: cs, m => (c.prog s).ops m ++ s.opsOf cs ((c.prog s).after m)

variable {s : ObjectStore}

theorem runCalls_eq {M : Machine} (hwork : M.Working) (cs : List ObjectCall) :
    (s.runCalls cs M).2 = M.run (s.opsOf cs M.store.map) := by
  induction cs generalizing M with
  | nil => rfl
  | cons c cs ih =>
    obtain ⟨hwork', hmap⟩ := after_eq hwork (c.prog s)
    rw [runCalls, opsOf, Machine.run_append]
    show (s.runCalls cs ((c.prog s).exec M).2).2 = _
    rw [ih hwork', hmap, exec_eq hwork]

theorem opsOf_append (cs : List ObjectCall) (c : ObjectCall) (m : Map) :
    s.opsOf (cs ++ [c]) m = s.opsOf cs m ++ (c.prog s).ops (applyOps (s.opsOf cs m) m) := by
  induction cs generalizing m with
  | nil => simp [opsOf]
  | cons c' cs ih =>
    rw [List.cons_append, opsOf, opsOf, ih, List.append_assoc, applyOps_append]
    rfl

end ObjectStore

/-! ## Between the calls -/

/-- `Q` holds on whatever prefix of the calls on the key-value store has every flush. -/
def BehindFlush (Q : Map → Prop) (ops : List Op) : Prop :=
  ∀ k ≤ ops.length, .flushWal ∉ ops.drop k → Q (applyOps (ops.take k) ∅)

/-- A call that ends with a flush makes it so, and one that has `Q` at every point. -/
theorem BehindFlush.step {Q Q' : Map → Prop} {ops : List Op} {α : Type} {p : KvProg α}
    (h : BehindFlush Q ops) (hafter : Q' (p.after (applyOps ops ∅)))
    (hends : (∃ post, p.ops (applyOps ops ∅) = post ++ [.flushWal]) ∨
      ((∀ m, Q m → Q' m) ∧ Always Q' p (applyOps ops ∅))) :
    BehindFlush Q' (ops ++ p.ops (applyOps ops ∅)) := by
  intro k hk hflush
  obtain ⟨post, hpost⟩ | ⟨hQ, halways⟩ := hends
  · -- the call's last flush is in the prefix, so the prefix is everything
    have hlen : k = (ops ++ p.ops (applyOps ops ∅)).length := by
      by_contra hne
      apply hflush
      rw [hpost, ← List.append_assoc] at hk hne ⊢
      rw [List.length_append, List.length_singleton] at hk hne
      rw [List.drop_append_of_le_length (by omega)]
      exact List.mem_append_right _ (List.mem_singleton.mpr rfl)
    rw [hlen, List.take_length, applyOps_append]
    exact hafter
  · rcases Nat.lt_or_ge k ops.length with hlt | hge
    · rw [List.drop_append_of_le_length hlt.le, List.mem_append, not_or] at hflush
      rw [List.take_append_of_le_length hlt.le]
      exact hQ _ (h k hlt.le hflush.1)
    · rw [List.take_append, List.take_of_length_le hge, applyOps_append]
      exact halways _

/-- Whatever prefix of the calls on the key-value store has every flush, it shows the
objects of `A`. -/
def Recoverable (ops : List Op) (T : ℕ) (A : ObjectMap) : Prop :=
  BehindFlush (fun m => Stores m T A.objects ∧ Indexed m A.objects) ops

/-- A call keeps that. -/
theorem Recoverable.step {ops : List Op} {T T' : ℕ} {A A' : ObjectMap} {α : Type} {p : KvProg α}
    (h : Recoverable ops T A) (hperf : Performs p (applyOps ops ∅) T' A A') (hT : T ≤ T') :
    Recoverable (ops ++ p.ops (applyOps ops ∅)) T' A' := by
  refine BehindFlush.step h ⟨hperf.after.objects, hperf.after.index⟩ (hperf.ends.imp_right ?_)
  rintro ⟨hsame, halways⟩
  rw [hsame]
  exact ⟨fun m hm => ⟨hm.1.mono hT, hm.2⟩, halways⟩

theorem ObjectCall.le_nextReading {c : ObjectCall} {A : ObjectMap} {T : ℕ} (h : c.Later A T) :
    T ≤ c.nextReading A T := by
  cases c with
  | putObject req idMs now =>
    rw [nextReading]
    split_ifs with haccepts
    · have := h haccepts
      omega
    · exact le_rfl
  | _ => exact le_rfl

/-- The abstract store after a run of calls. -/
def ObjectMap.applyAll (A : ObjectMap) (cs : List ObjectCall) : ObjectMap := cs.foldl apply A

/-- After a run, and the running call's part in it. -/
theorem ObjectStore.AdmissibleRun.reaches {s : ObjectStore} {M : Machine} {T : ℕ}
    {A : ObjectMap} {ops : List Op} {cs : List ObjectCall} {c : ObjectCall} (hwork : M.Working)
    (hmap : M.store.map = applyOps ops ∅) (h : Represents M.store.map T A)
    (hrec : Recoverable ops T A) (hrun : s.AdmissibleRun M A T (cs ++ [c])) :
    ∃ T', Recoverable (ops ++ s.opsOf cs M.store.map) T' (A.applyAll cs) ∧
      Represents (applyOps (s.opsOf cs M.store.map) M.store.map) T' (A.applyAll cs) ∧
      c.Admissible s (applyOps (s.opsOf cs M.store.map) M.store.map) (A.applyAll cs) T' := by
  induction cs generalizing M T A ops with
  | nil => exact ⟨T, by simpa [opsOf, ObjectMap.applyAll] using hrec, h, hrun.1⟩
  | cons c' cs ih =>
    obtain ⟨hc, hcs⟩ := hrun
    obtain ⟨-, hperf⟩ := h.step hc
    obtain ⟨hwork', hafter⟩ := after_eq hwork (c'.prog s)
    have hrec' := hrec.step (hmap ▸ hperf) (ObjectCall.le_nextReading hc.later)
    rw [← hmap] at hrec'
    have hmap' : ((c'.prog s).exec M).2.store.map =
        applyOps (ops ++ (c'.prog s).ops M.store.map) ∅ := by
      rw [hafter, applyOps_append, ← hmap]
      rfl
    obtain ⟨T', hrecs, hreps, hlast⟩ := ih hwork' hmap' (hafter ▸ hperf.after) hrec' hcs
    refine ⟨T', ?_, ?_, ?_⟩
    · rw [opsOf, ← List.append_assoc, ← hafter]
      exact hrecs
    · rw [opsOf, applyOps_append]
      rw [hafter] at hreps
      exact hreps
    · rw [opsOf, applyOps_append]
      rw [hafter] at hlast
      exact hlast

/-! ## The log a crash leaves -/

theorem Machine.Working.completesFlush {m : Machine} (h : m.Working) : m.CompletesFlush .flushWal :=
  .inl ⟨rfl, h.flushWal_value⟩

/-- A crash inside a program is a crash of the store inside one call. -/
theorem Machine.exists_crash_of_crashIn (m : Machine) (before running : List Op) (j n : ℕ) :
    ∃ part op n', (m.run before).crashIn running j n = (m.run (before ++ part)).crash op n' ∧
      ((∀ o ∈ before ++ running, o.Fits) → ∀ o ∈ (before ++ part) ++ [op], o.Fits) ∧
      ∀ k ≤ ((before ++ part) ++ [op]).length,
        (((before ++ part) ++ [op]).take k).filterMap Op.logOp =
          ((before ++ running).take k).filterMap Op.logOp := by
  unfold crashIn
  cases hj : running[j]? with
  | some op =>
    obtain ⟨hlt, rfl⟩ := List.getElem?_eq_some_iff.mp hj
    have hpart : (before ++ running.take j) ++ [running[j]] = (before ++ running).take
        (before.length + (j + 1)) := by
      rw [List.append_assoc, List.take_append_getElem, List.take_length_add_append]
    refine ⟨running.take j, running[j], n, by rw [Machine.run_append], ?_, ?_⟩
    · rw [hpart]
      exact fun h o ho => h o (List.mem_of_mem_take ho)
    · intro k hk
      rw [hpart] at hk ⊢
      rw [List.take_take]
      rw [List.length_take] at hk
      rw [min_eq_left (le_trans hk (min_le_left _ _))]
  | none =>
    refine ⟨running, .flushWal, 0, by rw [Machine.run_append], ?_, ?_⟩
    · intro h o ho
      rcases List.mem_append.mp ho with ho | ho
      · exact h o ho
      · rw [List.mem_singleton.mp ho]
        trivial
    · intro k hk
      rw [List.take_append, List.filterMap_append, List.append_right_eq_self]
      cases k - (before ++ running).length <;> simp [Op.logOp]

/-- The log a crash leaves during calls `running` after the calls `before`, and the map
the next open makes of it: it ends inside `running`, or behind every flush in `before`. -/
theorem exists_recovered {path : Path} (hpath : path ≠ snapshotPath) {disk : Disk}
    (hwal : (disk path).getD [] = []) (hsnap : disk snapshotPath = none)
    {before running : List Op} (hfit : ∀ o ∈ before ++ running, o.Fits) (j n : ℕ) :
    ∃ rs t k, (∀ r ∈ rs, r.Fits) ∧ readRecord t = none ∧
      ((Machine.boot disk path).run before).crashIn running j n path = some (encodeAll rs ++ t) ∧
      logOps rs = ((before ++ running).take k).filterMap Op.logOp ∧
      (Machine.boot (((Machine.boot disk path).run before).crashIn running j n) path).store.map =
        applyOps ((before ++ running).take k) ∅ ∧
      (before.length ≤ k ∨ .flushWal ∉ before.drop k) := by
  have hempty : (Machine.boot disk path).store.map = ∅ := by
    rw [Machine.boot_map, hwal, baseMap_of_none hsnap]
    rfl
  obtain ⟨part, op, n', hcrash, hfit', hcut⟩ :=
    (Machine.boot disk path).exists_crash_of_crashIn before running j n
  obtain ⟨rs, t, k, hfits, ht, hk, hfile, hlog, hflush, -⟩ :=
    Machine.exists_crash_records hpath (hfit' hfit) n'
  have hmap := Machine.boot_crash_map hpath hfits ht hfile fun _ => by
    rw [hwal]
    exact wholeRecords_nil
  rw [hcut k hk] at hlog
  refine ⟨rs, t, k, hfits, ht, ?_, hlog, ?_, ?_⟩
  · rw [hcrash, hfile, Function.update_self, hwal, List.nil_append]
  · rw [hcrash, hmap, hlog, hempty]
    rfl
  · refine or_iff_not_imp_left.mpr fun hlt hmem => hlt ?_
    obtain ⟨a, b, hab⟩ := List.append_of_mem hmem
    have hbefore : before = (before.take k ++ a) ++ .flushWal :: b := by
      rw [List.append_assoc, ← hab, List.take_append_drop]
    have hcovered := hflush (before.take k ++ a) .flushWal (b ++ part)
      (by rw [← List.cons_append, ← List.append_assoc, ← hbefore])
      ((Machine.boot_working disk path).run _).1.completesFlush
    rw [List.length_append, List.length_take] at hcovered
    omega

theorem recoverable_nil : Recoverable [] 0 ObjectMap.empty := by
  intro k _ _
  rw [List.take_nil]
  exact ⟨fun b k _ => .inl (Finmap.lookup_empty _), fun _ _ _ h => absurd rfl h⟩

/-- The map recovered after a crash in the last call of a run: the map `m` before that
call, which stands for the abstract store, after some of its calls on the key-value store;
or one that shows the objects as they were before it. -/
theorem exists_recovered_run {path : Path} (hpath : path ≠ snapshotPath) {disk : Disk}
    (hwal : (disk path).getD [] = []) (hsnap : disk snapshotPath = none) {s : ObjectStore}
    {cs : List ObjectCall} {c : ObjectCall}
    (hrun : s.AdmissibleRun (Machine.boot disk path) ObjectMap.empty 0 (cs ++ [c]))
    (hfit : ∀ o ∈ s.opsOf (cs ++ [c]) ∅, o.Fits) (j n : ℕ) :
    let M := (s.runCalls cs (Machine.boot disk path)).2
    let left := M.crashIn ((c.prog s).ops M.store.map) j n
    ∃ T rs t, Represents M.store.map T (ObjectMap.empty.applyAll cs) ∧
      c.Admissible s M.store.map (ObjectMap.empty.applyAll cs) T ∧
      (∀ r ∈ rs, r.Fits) ∧ readRecord t = none ∧ left path = some (encodeAll rs ++ t) ∧
      (Machine.boot left path).store.map = applyAll (logOps rs) ∅ ∧
      ((∃ i, logOps rs = (s.opsOf cs ∅ ++ ((c.prog s).ops M.store.map).take i).filterMap Op.logOp ∧
          applyAll (logOps rs) ∅ = applyOps (((c.prog s).ops M.store.map).take i) M.store.map) ∨
        (Stores (applyAll (logOps rs) ∅) T (ObjectMap.empty.applyAll cs).objects ∧
          Indexed (applyAll (logOps rs) ∅) (ObjectMap.empty.applyAll cs).objects)) := by
  have hwork := Machine.boot_working disk path
  have hempty : (Machine.boot disk path).store.map = ∅ := by
    rw [Machine.boot_map, hwal, baseMap_of_none hsnap]
    rfl
  obtain ⟨T, hrec, hrep, hadm⟩ := @ObjectStore.AdmissibleRun.reaches _ _ _ _ [] _ _ hwork hempty
    (hempty ▸ represents_empty (fun _ => Finmap.lookup_empty _) fun _ _ => Finmap.lookup_empty _)
    recoverable_nil hrun
  rw [List.nil_append, hempty] at hrec
  rw [hempty] at hrep hadm
  have hM := ObjectStore.runCalls_eq (s := s) hwork cs
  have hmap : (s.runCalls cs (Machine.boot disk path)).2.store.map = applyOps (s.opsOf cs ∅) ∅ := by
    rw [hM, hempty, (hwork.run _).2, hempty]
  intro M left
  have hbefore : M = (Machine.boot disk path).run (s.opsOf cs ∅) := hM.trans (by rw [hempty])
  rw [← hmap] at hrep hadm
  rw [ObjectStore.opsOf_append, ← hmap] at hfit
  obtain ⟨rs, t, k, hfits, ht, hleft, hlog, hboot, hk⟩ :=
    exists_recovered hpath hwal hsnap hfit j n
  rw [← hbefore] at hleft hboot
  have hrs : applyAll (logOps rs) ∅ =
      applyOps ((s.opsOf cs ∅ ++ (c.prog s).ops M.store.map).take k) ∅ := by
    rw [hlog]
    rfl
  refine ⟨T, rs, t, hrep, hadm, hfits, ht, hleft, hboot.trans hrs.symm, ?_⟩
  rcases Nat.lt_or_ge k (s.opsOf cs ∅).length with hlt | hge
  · right
    rw [hrs, List.take_append_of_le_length hlt.le]
    exact hrec k hlt.le (hk.resolve_left (Nat.not_le.mpr hlt))
  · left
    refine ⟨k - (s.opsOf cs ∅).length, ?_, ?_⟩
    · rw [hlog, List.take_append, List.take_of_length_le hge]
    · rw [hrs, List.take_append, List.take_of_length_le hge, applyOps_append, ← hmap]

/-! ## Crash atomicity -/

/-- The claim of crash atomicity at one crash point: after the calls `cs` on a store
opened on the files `disk`, a crash falls `n` effects into the call on the key-value store
after the first `j` that the call `c` makes. On the next open every `GetObject` says what
the object was before `c`, or every one what it is after it. -/
def ObjectStore.CrashAtomic (s : ObjectStore) (disk : Disk) (path : Path) (cs : List ObjectCall)
    (c : ObjectCall) (j n : ℕ) : Prop :=
  let M := (s.runCalls cs (Machine.boot disk path)).2
  let left := M.crashIn ((c.prog s).ops M.store.map) j n
  let A := ObjectMap.empty.applyAll cs
  ∃ A', (A' = A ∨ A' = A.apply c) ∧ ∀ b k, colon ∉ b →
    ObjectMap.GetsObject (A'.objects (b, k))
      ((ObjectStore.getObject b k).exec (Machine.boot left path)).1

/-- **Crash atomicity and durability of objects.** For an object store over a fresh log
with no snapshot file, every admissible run of calls whose keys and values fit the record
format, and every crash point in its last call. -/
theorem objectStore_crashAtomic {path : Path} (hpath : path ≠ snapshotPath) {disk : Disk}
    (hwal : (disk path).getD [] = []) (hsnap : disk snapshotPath = none) {s : ObjectStore}
    {cs : List ObjectCall} {c : ObjectCall}
    (hrun : s.AdmissibleRun (Machine.boot disk path) ObjectMap.empty 0 (cs ++ [c]))
    (hfit : ∀ o ∈ s.opsOf (cs ++ [c]) ∅, o.Fits) (j n : ℕ) :
    s.CrashAtomic disk path cs c j n := by
  obtain ⟨T, rs, t, hrep, hadm, -, -, -, hboot, hpoint⟩ :=
    exists_recovered_run hpath hwal hsnap hrun hfit j n
  have hstores : ∃ A', (A' = ObjectMap.empty.applyAll cs ∨
      A' = (ObjectMap.empty.applyAll cs).apply c) ∧
        ∃ T', Stores (applyAll (logOps rs) ∅) T' A'.objects := by
    obtain ⟨i, -, hi⟩ | ⟨hold, -⟩ := hpoint
    · rw [hi]
      obtain hold | hnew := (hrep.step hadm).2.always i
      · exact ⟨_, .inl rfl, _, hold⟩
      · exact ⟨_, .inr rfl, _, hnew⟩
    · exact ⟨_, .inl rfl, _, hold⟩
  obtain ⟨A', hA', T', hstores⟩ := hstores
  refine ⟨A', hA', fun b k hb => ?_⟩
  rw [exec_eq (Machine.boot_working _ _), hboot]
  exact getsObject_value (hstores b k hb)

/-! ## A bucket name that does not fit -/

/-- A bucket whose name makes the length fields of its record wrap around, and an empty
object put into it. -/
def longBucketRun (b : Bytes) : List ObjectCall :=
  [.createBucket b 123456, .putObject { bucket := b, key := str "k", data := [] } 1 1]

/-- Nothing of it is recovered. -/
theorem not_crashAtomic_of_wrapped {path : Path} (hpath : path ≠ snapshotPath) {b : Bytes}
    (hcolon : colon ∉ b) (hlen : b.length = 2 ^ 32 - 7) :
    ¬ smallStore.CrashAtomic (fun _ => none) path (longBucketRun b) (.getObject [] []) 0 0 := by
  have hb : b ≠ [] := by
    rintro rfl
    rw [List.length_nil] at hlen
    omega
  have hwork := Machine.boot_working (fun _ => none) path
  have hempty : (Machine.boot (fun _ => none) path).store.map = ∅ :=
    Machine.boot_map_of_no_files _
  set req : PutObjectRequest := { bucket := b, key := str "k", data := [] } with hreq
  -- the put is accepted
  have hobject : (ObjectMap.empty.applyAll (longBucketRun b)).objects (b, str "k") =
      some ([], req.contentType) := by
    have haccepts : (ObjectMap.empty.createBucket b).Accepts req := by
      rw [ObjectMap.createBucket, dif_neg hb]
      exact ⟨Finset.mem_insert_self _ _, (by decide : str "k" ≠ [])⟩
    show ((ObjectMap.empty.createBucket b).put req).objects (b, str "k") = _
    rw [ObjectMap.put, dif_pos haccepts]
    exact Function.update_self _ _ _
  -- the bucket's record comes first, and the put ends with a flush
  obtain ⟨mid, hops⟩ : ∃ mid, smallStore.opsOf (longBucketRun b) ∅ =
      .put (bucketMetaKey b) (serializeBucketMeta ⟨b, 123456⟩) :: (mid ++ [.flushWal]) := by
    have hcreate : ((ObjectCall.createBucket b 123456).prog smallStore).ops ∅ =
        [.put (bucketMetaKey b) (serializeBucketMeta ⟨b, 123456⟩)] := by
      rw [ObjectCall.prog, ops_bind, ops_pure, List.append_nil, ObjectStore.createBucket,
        if_neg hb, ops_bind, value_kvGet, Finmap.lookup_empty]
      rfl
    have hthere : ((((ObjectCall.createBucket b 123456).prog smallStore).after ∅).lookup
        (bucketMetaKey b)).isSome := by
      rw [after, hcreate, applyOps_put, applyOps_nil, Finmap.lookup_insert]
      rfl
    obtain ⟨mid, hput⟩ := @ends_putObject smallStore _ req hb (by decide : str "k" ≠ []) hthere 1 1
    refine ⟨mid, ?_⟩
    have hprog : ∀ m, ((ObjectCall.putObject req 1 1).prog smallStore).ops m =
        (smallStore.putObject req 1 1).ops m := fun m => by simp [ObjectCall.prog]
    rw [longBucketRun, ObjectStore.opsOf, ObjectStore.opsOf, ObjectStore.opsOf, hcreate,
      List.append_nil, hprog, hput]
    rfl
  have hkey : (bucketMetaKey b).length % 2 ^ 32 = 0 := by
    rw [bucketMetaKey, List.length_append, hlen]
    rfl
  have hvalue : (serializeBucketMeta ⟨b, 123456⟩).length % 2 ^ 32 = 0 := by
    have hdigits : decimal (123456 : UInt64).toNat = str "123456" := by decide +kernel
    have htext : serializeBucketMeta ⟨b, 123456⟩ = b ++ tab :: decimal (123456 : UInt64).toNat :=
      rfl
    rw [htext, hdigits, List.length_append, hlen]
    rfl
  have hsplit : bucketMetaKey b = str "buck" ++ (str "et:" ++ b) := rfl
  have hlost := Machine.boot_map_of_wrapped hpath hkey hvalue rfl hsplit (by decide +kernel) mid
  rintro ⟨A', hA', hall⟩
  have hfound := (hall b (str "k") hcolon).found
  obtain rfl : A' = ObjectMap.empty.applyAll (longBucketRun b) := or_self_iff.mp hA'
  have hM : (smallStore.runCalls (longBucketRun b) (Machine.boot (fun _ => none) path)).2 =
      (Machine.boot (fun _ => none) path).run
        (.put (bucketMetaKey b) (serializeBucketMeta ⟨b, 123456⟩) :: (mid ++ [.flushWal])) := by
    rw [ObjectStore.runCalls_eq hwork, hempty, hops]
  have hops' : ∀ m, ((ObjectCall.getObject [] []).prog smallStore).ops m = [] := fun m => by
    simp [ObjectCall.prog, ops_getObject]
  simp only [hops', Machine.crashIn, List.getElem?_nil, Machine.run_nil, Machine.crash_zero, hM,
    exec_eq (Machine.boot_working _ _), hlost, hobject] at hfound
  have hnone : ((ObjectStore.getObject b (str "k")).value ∅).found = false := by
    rw [ObjectStore.getObject, value_bind, value_kvGet, Finmap.lookup_empty]
    rfl
  rw [hnone] at hfound
  exact Bool.false_ne_true hfound

/-- The counterexample: a bucket whose name is `2^32 - 7` zero bytes. -/
theorem not_crashAtomic_longBucket :
    ¬ smallStore.CrashAtomic (fun _ => none) "/tmp/kv.wal"
      (longBucketRun (List.replicate (2 ^ 32 - 7) 0)) (.getObject [] []) 0 0 := by
  apply not_crashAtomic_of_wrapped (by decide)
  · intro h
    exact absurd (List.eq_of_mem_replicate h) (by decide)
  · rw [List.length_replicate]

/-- The theorem at a crash in the second chunk of a put. -/
theorem objectStore_crashAtomic_small :
    smallStore.CrashAtomic (fun _ => none) "/tmp/kv.wal" [.createBucket (str "b") 5]
      (.putObject smallRequest 6 7) 1 4 := by
  apply objectStore_crashAtomic (by decide) rfl rfl
  · exact ⟨admissible_smallBucket _ _, admissible_smallPut _ _, trivial⟩
  · decide +kernel

end KvEngine
