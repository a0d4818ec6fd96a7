import KvEngine.Store.CheckpointCrash

/-!
# Stores that share a file system

Several stores on one machine, each with a log of its own. `checkpoint` writes the snapshot
wherever its caller says; `open` reads the one at `/tmp/kv.snapshot`. A store finds its own
state again as long as it is the one that checkpoints there.

Results:
* `findsOwn`: if a store checkpoints to the fixed path only, and no other store checkpoints
  there or to its log, a fresh open finds the state at its last completed flush or
  checkpoint, in every interleaving of the stores' calls.
* `not_findsOwn`: a checkpoint to another path is not found again.
-/

namespace KvEngine

/-! ## Effects stay on a store's log -/

theorem Wal.flush_frame (w : Wal) :
    (w.flush []).value.2.path = w.path ∧ (w.fd = none → w.flush [] = ⟨(false, w), [], []⟩) ∧
      ∀ e ∈ (w.flush []).effects, e.path = w.path := by
  cases hfd : w.fd with
  | none => simp [Wal.flush, hfd]
  | some pos =>
    by_cases hbuf : w.buffer = []
    · simp [Wal.flush, hfd, hbuf]
    · rw [Wal.flush_nil hfd hbuf]
      refine ⟨rfl, by simp, fun e he => ?_⟩
      rcases List.mem_append.mp he with he | he
      · exact path_of_mem_writes he
      · obtain rfl := List.mem_singleton.mp he
        rfl

/-- A call writes to the file the log was opened on, if it was opened. -/
theorem Machine.outcome_frame {m : Machine} (hos : m.os = []) (op : Op) :
    (m.outcome op).value.wal.path = m.store.wal.path ∧
      (m.store.wal.fd = none → (m.outcome op).value.wal.fd = none ∧ (m.outcome op).effects = []) ∧
      ∀ e ∈ (m.outcome op).effects, e.path = m.store.wal.path := by
  by_cases hopen : m.store.opened = true
  · by_cases hfd : m.store.wal.fd = none
    · cases op with
      | put k v =>
        simp [Machine.outcome, KVStore.put, hopen, Wal.appendPut, Wal.writeRecord, hfd]
      | del k =>
        simp [Machine.outcome, KVStore.del, hopen, Wal.appendDel, Wal.writeRecord, hfd]
      | setGroupCommitEvery n => simp [Machine.outcome, KVStore.setGroupCommitEvery, hfd]
      | flushWal => simp [Machine.outcome, KVStore.flushWal, Wal.flush, hfd]
    · cases op with
      | put k v =>
        have hframe := (m.store.appended (.put k v)).wal.flush_frame
        simp only [Machine.outcome]
        rw [KVStore.put_eq hopen hfd, hos]
        split_ifs
        · exact ⟨hframe.1, fun h => absurd h hfd, hframe.2.2⟩
        · exact ⟨rfl, fun h => absurd h hfd, by simp⟩
      | del k =>
        have hframe := (m.store.appended (.del k)).wal.flush_frame
        simp only [Machine.outcome]
        rw [KVStore.del_eq hopen hfd, hos]
        split_ifs
        · exact ⟨hframe.1, fun h => absurd h hfd, hframe.2.2⟩
        · exact ⟨rfl, fun h => absurd h hfd, by simp⟩
      | setGroupCommitEvery n => exact ⟨rfl, fun h => absurd h hfd, by simp [Machine.outcome]⟩
      | flushWal =>
        have hframe := m.store.wal.flush_frame
        simp only [Machine.outcome, KVStore.flushWal]
        rw [hos]
        exact ⟨hframe.1, fun h => absurd h hfd, hframe.2.2⟩
  · cases op with
    | put k v => simp [Machine.outcome, KVStore.put, hopen]
    | del k => simp [Machine.outcome, KVStore.del, hopen]
    | setGroupCommitEvery n => simp [Machine.outcome, KVStore.setGroupCommitEvery]
    | flushWal =>
      have hframe := m.store.wal.flush_frame
      simp only [Machine.outcome, KVStore.flushWal]
      rw [hos]
      refine ⟨hframe.1, fun hfd => ?_, hframe.2.2⟩
      rw [hframe.2.1 hfd]
      exact ⟨hfd, rfl⟩

/-! ## A machine with several stores -/

variable {ι : Type}

/-- Stores named by `ι` on one file system. -/
structure Host (ι : Type) where
  stores : ι → KVStore
  disk : Disk

/-- A call on one of the stores, every system call succeeding. -/
inductive HostAct (ι : Type) where
  | «open» (i : ι)
  | call (i : ι) (op : Op)
  | checkpoint (i : ι) (snapshot : Path) (order : List Entry)

/-- Whose call it is. -/
def HostAct.owner : HostAct ι → ι
  | .open i => i
  | .call i _ => i
  | .checkpoint i _ _ => i

namespace Host

/-- No store is open yet. -/
def init (disk : Disk) : Host ι := ⟨fun _ => {}, disk⟩

/-- The store `i` with the files it finds. -/
def machine (h : Host ι) (i : ι) : Machine := ⟨h.stores i, h.disk, []⟩

/-- What the call returns, what it does to the files and to its store. -/
def outcome (wal : ι → Path) (h : Host ι) : HostAct ι → Outcome (Bool × KVStore)
  | .open i => (h.stores i).open (wal i) h.disk []
  | .call i op =>
    let r := (h.machine i).outcome op
    ⟨(true, r.value), r.effects, r.os⟩
  | .checkpoint i snapshot order => (h.stores i).checkpoint snapshot (wal i) order h.disk []

variable [DecidableEq ι]

/-- The host after a call. -/
def step (wal : ι → Path) (h : Host ι) (a : HostAct ι) : Host ι :=
  let r := h.outcome wal a
  ⟨Function.update h.stores a.owner r.value.2, h.disk.run r.effects⟩

/-- The host after a sequence of calls. -/
def run (wal : ι → Path) (h : Host ι) (as : List (HostAct ι)) : Host ι := as.foldl (step wal) h

theorem run_append (wal : ι → Path) (h : Host ι) (as as' : List (HostAct ι)) :
    h.run wal (as ++ as') = (h.run wal as).run wal as' := by
  simp [run, List.foldl_append]

omit [DecidableEq ι] in
/-- The call makes the whole state of the store `i` durable: it opens the store, completes
a flush, or is a checkpoint that returns true. -/
def Durable (wal : ι → Path) (h : Host ι) (i : ι) (a : HostAct ι) : Prop :=
  a.owner = i ∧
    match a with
    | .open i => (h.stores i).opened = false
    | .call i op => (h.machine i).CompletesFlush op
    | .checkpoint i snapshot order =>
      ((h.stores i).checkpoint snapshot (wal i) order h.disk []).value.1 = true

/-- A fresh open on the log of `i` finds the state the store had when it was last made
durable. -/
def FindsOwn (wal : ι → Path) (h : Host ι) (as : List (HostAct ι)) (i : ι) : Prop :=
  ∀ pre a post, as = pre ++ a :: post → Durable wal (h.run wal pre) i a →
    (∀ pre' b post', post = pre' ++ b :: post' →
      ¬ Durable wal (h.run wal (pre ++ a :: pre')) i b) →
    (Machine.boot (h.run wal as).disk (wal i)).store.opened = true ∧
      (Machine.boot (h.run wal as).disk (wal i)).store.map =
        ((h.run wal (pre ++ [a])).stores i).map

end Host

namespace HostAct

variable [DecidableEq ι]

/-- The store `i` checkpoints to the fixed snapshot path, the others neither there nor to
the log of `i`. -/
def Apart (wal : ι → Path) (i : ι) : HostAct ι → Prop
  | .checkpoint j snapshot _ =>
    if j = i then snapshot = snapshotPath else snapshot ≠ snapshotPath ∧ snapshot ≠ wal i
  | _ => True

/-- What the store `i` puts and deletes are words that fit the record format. -/
def Writes (i : ι) : HostAct ι → Prop
  | .call j op => j = i → (Act.call op).IsText ∧ op.Fits
  | _ => True

omit [DecidableEq ι] in
/-- A checkpoint visits the entries of the map of its store. -/
def Visits (h : Host ι) : HostAct ι → Prop
  | .checkpoint j _ order => Enumerates order (h.stores j).map
  | _ => True

end HostAct

/-! ## The other stores -/

theorem KVStore.open_frame (s : KVStore) (walPath : Path) (disk : Disk) (os : Schedule) :
    (∀ e ∈ (s.open walPath disk os).effects, e.path = walPath) ∧
      ((s.open walPath disk os).value.2.wal.path = walPath ∨
        (s.open walPath disk os).value.2 = s) := by
  have hwal : ∀ (w : Wal) (os : Schedule),
      (∀ e ∈ (w.open walPath disk os).effects, e.path = walPath) ∧
      (w.open walPath disk os).value.2.path = walPath := by
    intro w os
    unfold Wal.open
    split
    · exact ⟨by simp, rfl⟩
    · refine ⟨fun e he => ?_, rfl⟩
      obtain rfl := List.mem_singleton.mp he
      rfl
  by_cases hopen : s.opened = true
  · simp [KVStore.open, hopen]
  · simp only [KVStore.open, if_neg hopen]
    generalize loadFromFileUnlocked s.map snapshotPath disk os = loaded
    obtain ⟨found, map, os'⟩ := loaded
    obtain ⟨heffects, hpath⟩ := hwal s.wal os'
    simp only
    split
    · unfold Wal.replayInto
      split
      · exact ⟨heffects, Or.inl hpath⟩
      · rename_i hreplay
        split at hreplay
        · simp at hreplay
        · obtain ⟨rfl, rfl⟩ := Prod.mk.inj (Option.some.inj hreplay)
          exact ⟨heffects, Or.inl hpath⟩
    · exact ⟨heffects, Or.inl hpath⟩

theorem KVStore.checkpoint_frame (s : KVStore) (snapshot walPath : Path) (order : List Entry)
    (disk : Disk) :
    (∀ e ∈ (s.checkpoint snapshot walPath order disk []).effects,
      e.path = snapshot ∨ e.path = walPath) ∧
      ((s.checkpoint snapshot walPath order disk []).value.2.wal.path = walPath ∨
        (s.checkpoint snapshot walPath order disk []).value.2 = s) := by
  by_cases hopen : s.opened = true
  · simp only [KVStore.checkpoint, if_pos hopen, saveToFileUnlocked, Schedule.next_nil, if_true,
      Wal.open]
    refine ⟨fun e he => ?_, Or.inl trivial⟩
    simp only [reduceCtorEq, if_false, List.cons_append, List.mem_cons, List.mem_append,
      List.not_mem_nil, or_false] at he
    rcases he with rfl | (he | rfl) | rfl
    · exact Or.inl rfl
    · exact Or.inl (path_of_mem_writes he)
    · exact Or.inr rfl
    · exact Or.inr rfl
  · simp [KVStore.checkpoint, hopen]

namespace Host

variable {wal : ι → Path} {h : Host ι} {i : ι}

/-- Every log that is open is open on its own file. -/
def OnOwnLogs (wal : ι → Path) (h : Host ι) : Prop :=
  ∀ j, (h.stores j).wal.fd = none ∨ (h.stores j).wal.path = wal j

theorem OnOwnLogs.step [DecidableEq ι] (hlogs : h.OnOwnLogs wal) (a : HostAct ι) :
    (h.step wal a).OnOwnLogs wal := by
  intro j
  by_cases hj : j = a.owner
  · subst hj
    simp only [Host.step, Function.update_self]
    cases a with
    | «open» j =>
      rcases ((h.stores j).open_frame (wal j) h.disk []).2 with hpath | hsame
      · exact Or.inr hpath
      · simp only [Host.outcome, HostAct.owner, hsame]
        exact hlogs j
    | call j op =>
      obtain ⟨hpath, hclosed, -⟩ := Machine.outcome_frame (m := h.machine j) rfl op
      rcases hlogs j with hfd | hown
      · exact Or.inl (hclosed hfd).1
      · exact Or.inr (hpath.trans hown)
    | checkpoint j snapshot order =>
      rcases ((h.stores j).checkpoint_frame snapshot (wal j) order h.disk).2 with hpath | hsame
      · exact Or.inr hpath
      · simp only [Host.outcome, HostAct.owner, hsame]
        exact hlogs j
  · simp only [Host.step, Function.update_of_ne hj]
    exact hlogs j

/-- Calls of other stores leave the store, its log and the fixed snapshot alone. -/
theorem step_other [DecidableEq ι] (hlogs : h.OnOwnLogs wal) (hinj : Function.Injective wal)
    (hsnap : ∀ j, wal j ≠ snapshotPath) {a : HostAct ι} (hapart : a.Apart wal i)
    (hne : a.owner ≠ i) :
    (h.step wal a).stores i = h.stores i ∧ (h.step wal a).disk (wal i) = h.disk (wal i) ∧
      (h.step wal a).disk snapshotPath = h.disk snapshotPath := by
  have hpaths : ∀ e ∈ (h.outcome wal a).effects, e.path ≠ wal i ∧ e.path ≠ snapshotPath := by
    have hown : wal a.owner ≠ wal i := fun heq => hne (hinj heq)
    intro e he
    cases a with
    | «open» j =>
      rw [((h.stores j).open_frame (wal j) h.disk []).1 e he]
      exact ⟨hown, hsnap j⟩
    | call j op =>
      obtain ⟨-, hclosed, heffects⟩ := Machine.outcome_frame (m := h.machine j) rfl op
      rcases hlogs j with hfd | hlog
      · have hnone : (h.outcome wal (.call j op)).effects = [] := (hclosed hfd).2
        rw [hnone] at he
        simp at he
      · have hpath : e.path = wal j := (heffects e he).trans hlog
        rw [hpath]
        exact ⟨hown, hsnap j⟩
    | checkpoint j snapshot order =>
      have hdiff : j ≠ i := hne
      simp only [HostAct.Apart, if_neg hdiff] at hapart
      rcases ((h.stores j).checkpoint_frame snapshot (wal j) order h.disk).1 e he with hp | hp
      · rw [hp]
        exact ⟨hapart.2, hapart.1⟩
      · rw [hp]
        exact ⟨hown, hsnap j⟩
  refine ⟨Function.update_of_ne (Ne.symm hne) _ _, ?_, ?_⟩
  · exact Disk.run_of_path_ne (fun e he => (hpaths e he).1) _
  · exact Disk.run_of_path_ne (fun e he => (hpaths e he).2) _

/-! ## What a store finds again -/

/-- The store is not open yet; its log is whole, and what it holds is words. -/
structure Fresh (wal : ι → Path) (h : Host ι) (i : ι) : Prop where
  store : ∃ g, h.stores i = { groupCommitEvery := g }
  whole : WholeRecords ((h.disk (wal i)).getD [])
  words : ∀ k v, (Machine.boot h.disk (wal i)).store.map.lookup k = some v → Token k ∧ Token v

/-- The store is open, and the fixed snapshot and its log make up the map `saved`. -/
structure Keeps (wal : ι → Path) (h : Host ι) (i : ι) (saved : Map) (old : Bytes) (base : Map)
    (written pending : List WalRecord) : Prop where
  logged : (h.machine i).Logged (wal i) old base written pending
  fits : ∀ r ∈ written ++ pending, r.Fits
  whole : WholeRecords old
  words : ∀ k v, (h.stores i).map.lookup k = some v → Token k ∧ Token v
  saved : applyAll (logOps written) base = saved

/-- A fresh open looks at two files only. -/
theorem boot_map_congr {disk disk' : Disk} {path : Path} (hpath : disk' path = disk path)
    (hsnap : disk' snapshotPath = disk snapshotPath) :
    (Machine.boot disk' path).store.map = (Machine.boot disk path).store.map := by
  rw [Machine.boot_map, Machine.boot_map, hpath, baseMap_congr hsnap]

variable {saved base : Map} {old : Bytes} {written pending : List WalRecord} {h' : Host ι}

theorem Fresh.congr (hf : h.Fresh wal i) (hstore : h'.stores i = h.stores i)
    (hlog : h'.disk (wal i) = h.disk (wal i)) (hsnap : h'.disk snapshotPath = h.disk snapshotPath) :
    h'.Fresh wal i :=
  ⟨by rw [hstore]; exact hf.store, by rw [hlog]; exact hf.whole,
    by rw [boot_map_congr hlog hsnap]; exact hf.words⟩

theorem Keeps.congr (hk : h.Keeps wal i saved old base written pending)
    (hstore : h'.stores i = h.stores i) (hlog : h'.disk (wal i) = h.disk (wal i))
    (hsnap : h'.disk snapshotPath = h.disk snapshotPath) :
    h'.Keeps wal i saved old base written pending := by
  have hl := hk.logged
  refine ⟨⟨hl.path_ne, ?_, ?_, rfl, ?_, ?_, ?_, ?_, ?_⟩, hk.fits, hk.whole, ?_, hk.saved⟩
  · show (replay old (baseMap h'.disk)).map = base
    rw [baseMap_congr hsnap]
    exact hl.base_eq
  · simpa only [machine, hstore] using hl.opened
  · simpa only [machine, hstore] using hl.walPath
  · simpa only [machine, hlog] using hl.file
  · simpa only [machine, hstore] using hl.fd
  · simpa only [machine, hstore] using hl.buffer
  · simpa only [machine, hstore] using hl.map
  · rw [hstore]
    exact hk.words

/-- What a fresh open finds. -/
theorem Keeps.boot_map (hk : h.Keeps wal i saved old base written pending) :
    (Machine.boot h.disk (wal i)).store.map = saved := by
  have hfile : h.disk (wal i) = some (old ++ encodeAll written) := hk.logged.file
  have hbase : (replay old (baseMap h.disk)).map = base := hk.logged.base_eq
  have hreplay := hk.whole.replay_append
    (fun r hr => hk.fits r (List.mem_append_left _ hr)) readRecord_nil (baseMap h.disk)
  rw [List.append_nil, hbase] at hreplay
  rw [Machine.boot_map, hfile, Option.getD_some, hreplay, hk.saved]

/-- Opening a store that was only configured. -/
theorem open_eq_boot (g : ℕ) (path : Path) (disk : Disk) :
    (⟨((({ groupCommitEvery := g } : KVStore).open path disk []).value.2),
      disk.run (({ groupCommitEvery := g } : KVStore).open path disk []).effects, []⟩ : Machine) =
      { Machine.boot disk path with
        store := { (Machine.boot disk path).store with groupCommitEvery := g } } := by
  have hos := loadFromFileUnlocked_os ∅ snapshotPath disk
  rw [Machine.boot_eq]
  simp only [KVStore.open, Bool.false_eq_true, if_false, hos, Wal.open, Schedule.next_nil, if_true,
    Wal.replayInto, Disk.run_cons, Disk.run_nil, Effect.apply, Function.update_self,
    Option.getD_some]
  rfl

variable [DecidableEq ι]

/-- A call on a store that is not open: only `open` does anything. -/
theorem Fresh.step_own (hf : h.Fresh wal i) (hsnap : wal i ≠ snapshotPath) {a : HostAct ι}
    (howner : a.owner = i) :
    (Durable wal h i a → ∃ old base written pending,
      (h.step wal a).Keeps wal i ((h.step wal a).stores i).map old base written pending) ∧
    (¬ Durable wal h i a → (h.step wal a).Fresh wal i) := by
  obtain ⟨g, hg⟩ := hf.store
  cases a with
  | «open» j =>
    obtain rfl : j = i := howner
    have hclosed : (h.stores j).opened = false := by rw [hg]
    refine ⟨fun _ => ?_, fun hnot => absurd ⟨rfl, hclosed⟩ hnot⟩
    have hmachine : (h.step wal (.open j)).machine j =
        { Machine.boot h.disk (wal j) with
          store := { (Machine.boot h.disk (wal j)).store with groupCommitEvery := g } } := by
      rw [← open_eq_boot, ← hg]
      simp only [machine, step, outcome, HostAct.owner, Function.update_self]
    have hmap : ((h.step wal (.open j)).stores j).map = (Machine.boot h.disk (wal j)).store.map :=
      congrArg (fun m => m.store.map) hmachine
    have hl := Machine.boot_logged h.disk hsnap
    refine ⟨_, _, [], [], ?_, by simp, hf.whole, by rw [hmap]; exact hf.words, rfl⟩
    rw [hmachine, hmap]
    exact ⟨hl.path_ne, hl.base_eq, hl.opened, hl.os, hl.walPath, hl.file, hl.fd, hl.buffer, hl.map⟩
  | call j op =>
    obtain rfl : j = i := howner
    have hstep : (∃ g', ((h.step wal (.call j op)).stores j) = { groupCommitEvery := g' }) ∧
        (h.step wal (.call j op)).disk = h.disk ∧ ¬ Durable wal h j (.call j op) := by
      simp only [step, outcome, HostAct.owner, Function.update_self, Durable,
        Machine.CompletesFlush, machine, hg]
      cases op with
      | put k v => exact ⟨⟨g, rfl⟩, rfl, by simp [Machine.outcome, KVStore.put]⟩
      | del k => exact ⟨⟨g, rfl⟩, rfl, by simp [Machine.outcome, KVStore.del]⟩
      | setGroupCommitEvery n => exact ⟨⟨_, rfl⟩, rfl, by simp [Machine.outcome]⟩
      | flushWal =>
        exact ⟨⟨g, rfl⟩, rfl, by simp [Machine.outcome, KVStore.flushWal, Wal.flush]⟩
    obtain ⟨hstore, hdisk, hnot⟩ := hstep
    exact ⟨fun hd => absurd hd hnot, fun _ =>
      ⟨hstore, by rw [hdisk]; exact hf.whole, by rw [hdisk]; exact hf.words⟩⟩
  | checkpoint j snapshot order =>
    obtain rfl : j = i := howner
    have hnothing : (h.stores j).checkpoint snapshot (wal j) order h.disk [] =
        ⟨(false, h.stores j), [], []⟩ := by
      rw [hg]
      rfl
    refine ⟨fun hd => absurd hd.2 (by simp [hnothing]), fun _ => ?_⟩
    refine hf.congr ?_ ?_ ?_
    all_goals simp only [step, outcome, hnothing, HostAct.owner, Function.update_self,
      Disk.run_nil]

/-- `open` does nothing to an open store. -/
theorem Keeps.open_own (hk : h.Keeps wal i saved old base written pending) :
    ¬ Durable wal h i (.open i) ∧
      (h.step wal (.open i)).Keeps wal i saved old base written pending := by
  have hopen : (h.stores i).opened = true := hk.logged.opened
  have hnothing : (h.stores i).open (wal i) h.disk [] = ⟨(true, h.stores i), [], []⟩ := by
    simp [KVStore.open, hopen]
  refine ⟨fun hd => absurd hd.2 (by simp [hopen]), hk.congr ?_ ?_ ?_⟩
  all_goals simp only [step, outcome, hnothing, HostAct.owner, Function.update_self, Disk.run_nil]

/-- What a call on an open store does to it when no system call fails. -/
theorem machine_call {op : Op} {w p : List WalRecord}
    (hstep : ((h.machine i).step op).Logged (wal i) old base w p) :
    (h.step wal (.call i op)).machine i = (h.machine i).step op := by
  have hos : ((h.machine i).outcome op).os = [] := hstep.os
  have hstepped : (h.machine i).step op = ⟨((h.machine i).outcome op).value,
      h.disk.run ((h.machine i).outcome op).effects, []⟩ := by
    rw [← hos]
    rfl
  rw [hstepped]
  simp only [machine, step, outcome, HostAct.owner, Function.update_self]

/-- Whether the call flushes or not, the map grows by its update. -/
theorem Keeps.words_call (hk : h.Keeps wal i saved old base written pending) {op : Op}
    (htext : (Act.call op).IsText) {w p : List WalRecord}
    (hstep : ((h.machine i).step op).Logged (wal i) old base w p)
    (hlog : w ++ p = written ++ (pending ++ (h.machine i).records op)) (k v : Bytes)
    (hlook : ((h.step wal (.call i op)).stores i).map.lookup k = some v) : Token k ∧ Token v := by
  have hmap : ((h.step wal (.call i op)).stores i).map =
      applyAll op.logOp.toList (h.stores i).map := by
    have hsame := congrArg (fun m => m.store.map) (machine_call hstep)
    have hold : (h.stores i).map = applyAll (logOps (written ++ pending)) base := hk.logged.map
    rw [hold, ← Machine.logOps_records (h.machine i) op, ← applyAll_append, ← logOps_append,
      List.append_assoc, ← hlog]
    exact hsame.trans hstep.map
  rw [hmap] at hlook
  rcases mem_or_of_lookup_applyAll hlook with hold | hmem
  · exact hk.words k v hold
  · have hcall : ∀ a ∈ [Act.call op], a.IsText := by simpa using htext
    exact Act.isText_of_mem hcall k v (by simpa [Act.logOp] using hmem)

theorem Keeps.call_own (hk : h.Keeps wal i saved old base written pending) {op : Op}
    (htext : (Act.call op).IsText) (hfits : op.Fits) :
    (Durable wal h i (.call i op) → ∃ old base written pending,
      (h.step wal (.call i op)).Keeps wal i ((h.step wal (.call i op)).stores i).map old base
        written pending) ∧
    (¬ Durable wal h i (.call i op) → ∃ old base written pending,
      (h.step wal (.call i op)).Keeps wal i saved old base written pending) := by
  have hl := hk.logged
  have hrecs : ∀ r ∈ written ++ (pending ++ (h.machine i).records op), r.Fits := by
    rw [← List.append_assoc]
    intro r hr
    rcases List.mem_append.mp hr with hr | hr
    · exact hk.fits r hr
    · exact Machine.fits_records hfits r hr
  constructor
  · rintro ⟨-, hc⟩
    have hstep := hl.step_of_completesFlush hc
    refine ⟨old, base, written ++ (pending ++ (h.machine i).records op), [], ?_, ?_, hk.whole,
      hk.words_call htext hstep (List.append_nil _), ?_⟩
    · rw [machine_call hstep]
      exact hstep
    · rw [List.append_nil]
      exact hrecs
    · have hmap := hstep.map
      rw [List.append_nil] at hmap
      have hsame := congrArg (fun m => m.store.map) (machine_call hstep)
      exact (hsame.trans hmap).symm
  · intro hnot
    have hstep := hl.step_of_not_completesFlush fun hc => hnot ⟨rfl, hc⟩
    refine ⟨old, base, written, _, ?_, hrecs, hk.whole, hk.words_call htext hstep rfl, hk.saved⟩
    rw [machine_call hstep]
    exact hstep

/-- A checkpoint of an open store returns true and is durable. -/
theorem Keeps.checkpoint_own (hk : h.Keeps wal i saved old base written pending)
    {order : List Entry} (horder : Enumerates order (h.stores i).map) :
    Durable wal h i (.checkpoint i snapshotPath order) ∧ ∃ old base written pending,
      (h.step wal (.checkpoint i snapshotPath order)).Keeps wal i
        ((h.step wal (.checkpoint i snapshotPath order)).stores i).map old base written
        pending := by
  have hl := hk.logged
  have htext : ∀ e ∈ order, e.IsText := fun e he => hk.words e.1 e.2 (horder.mem_iff.mp he)
  have hcheck := hl.checkpoint horder htext
  have hmachine : (h.step wal (.checkpoint i snapshotPath order)).machine i =
      (h.machine i).checkpoint (wal i) order := by
    have hos : ((h.machine i).checkpoint (wal i) order).os = [] := hcheck.os
    simp only [machine, step, outcome, HostAct.owner, Function.update_self, Machine.checkpoint]
      at hos ⊢
    rw [hos]
  have hmap : ((h.step wal (.checkpoint i snapshotPath order)).stores i).map =
      (h.stores i).map := by
    have hsame := congrArg (fun m => m.store.map) hmachine
    rw [Machine.checkpoint_eq hl.opened rfl] at hsame
    exact hsame
  have hret : ((h.stores i).checkpoint snapshotPath (wal i) order h.disk []).value.1 = true := by
    have hopen : (h.stores i).opened = true := hl.opened
    rw [KVStore.checkpoint_nil hopen]
  refine ⟨⟨rfl, hret⟩, [], (h.stores i).map, [], pending, ?_, ?_, wholeRecords_nil, ?_, ?_⟩
  · rw [hmachine]
    exact hcheck
  · exact fun r hr => hk.fits r (List.mem_append_right _ hr)
  · rw [hmap]
    exact hk.words
  · rw [hmap]
    rfl

/-- A call on an open store. -/
theorem Keeps.step_own (hk : h.Keeps wal i saved old base written pending) {a : HostAct ι}
    (howner : a.owner = i) (hapart : a.Apart wal i) (hwrites : a.Writes i) (hvisits : a.Visits h) :
    (Durable wal h i a → ∃ old base written pending,
      (h.step wal a).Keeps wal i ((h.step wal a).stores i).map old base written pending) ∧
    (¬ Durable wal h i a → ∃ old base written pending,
      (h.step wal a).Keeps wal i saved old base written pending) := by
  cases a with
  | «open» j =>
    obtain rfl : j = i := howner
    obtain ⟨hnot, hkept⟩ := hk.open_own
    exact ⟨fun hd => absurd hd hnot, fun _ => ⟨old, base, written, pending, hkept⟩⟩
  | call j op =>
    obtain rfl : j = i := howner
    obtain ⟨htext, hfits⟩ := hwrites rfl
    exact hk.call_own htext hfits
  | checkpoint j snapshot order =>
    obtain rfl : j = i := howner
    have hpath : snapshot = snapshotPath := by simpa [HostAct.Apart] using hapart
    subst hpath
    obtain ⟨hdurable, hkept⟩ := hk.checkpoint_own hvisits
    exact ⟨fun _ => hkept, fun hnot => absurd hdurable hnot⟩

/-- The map a fresh open finds, once the store was open. -/
def Saved (wal : ι → Path) (h : Host ι) (i : ι) : Option Map → Prop
  | none => h.Fresh wal i
  | some saved => ∃ old base written pending, h.Keeps wal i saved old base written pending

/-- One call, of whichever store: it saves the whole state if it is durable for `i`, and
else leaves what was saved. -/
theorem Saved.step {s : Option Map} (hs : h.Saved wal i s) (hlogs : h.OnOwnLogs wal)
    (hinj : Function.Injective wal) (hsnap : ∀ j, wal j ≠ snapshotPath) {a : HostAct ι}
    (hapart : a.Apart wal i) (hwrites : a.Writes i) (hvisits : a.Visits h) :
    (Durable wal h i a → (h.step wal a).Saved wal i (some ((h.step wal a).stores i).map)) ∧
      (¬ Durable wal h i a → (h.step wal a).Saved wal i s) := by
  by_cases howner : a.owner = i
  · cases s with
    | none => exact Fresh.step_own hs (hsnap i) howner
    | some saved =>
      obtain ⟨old, base, written, pending, hk⟩ := hs
      exact hk.step_own howner hapart hwrites hvisits
  · obtain ⟨hstore, hlog, hfixed⟩ := step_other hlogs hinj hsnap hapart howner
    refine ⟨fun hd => absurd hd.1 howner, fun _ => ?_⟩
    cases s with
    | none => exact Fresh.congr hs hstore hlog hfixed
    | some saved =>
      obtain ⟨old, base, written, pending, hk⟩ := hs
      exact ⟨old, base, written, pending, hk.congr hstore hlog hfixed⟩

omit [DecidableEq ι] in
theorem Saved.init {disk : Disk} (hwhole : WholeRecords ((disk (wal i)).getD []))
    (hwords : ∀ k v, (Machine.boot disk (wal i)).store.map.lookup k = some v →
      Token k ∧ Token v) : (Host.init disk).Saved wal i none :=
  ⟨⟨5, rfl⟩, hwhole, hwords⟩

/-- After a run, what is saved is the state after the last call that was durable. -/
theorem exists_saved {disk : Disk} (hinj : Function.Injective wal)
    (hsnap : ∀ j, wal j ≠ snapshotPath) (hwhole : WholeRecords ((disk (wal i)).getD []))
    (hwords : ∀ k v, (Machine.boot disk (wal i)).store.map.lookup k = some v → Token k ∧ Token v)
    {as : List (HostAct ι)} (hapart : ∀ a ∈ as, a.Apart wal i) (hwrites : ∀ a ∈ as, a.Writes i)
    (hvisits : ∀ pre a post, as = pre ++ a :: post → a.Visits ((Host.init disk).run wal pre)) :
    ((Host.init disk).run wal as).OnOwnLogs wal ∧
      ∃ s, ((Host.init disk).run wal as).Saved wal i s ∧
        ∀ pre a post, as = pre ++ a :: post → Durable wal ((Host.init disk).run wal pre) i a →
          (∀ pre' b post', post = pre' ++ b :: post' →
            ¬ Durable wal ((Host.init disk).run wal (pre ++ a :: pre')) i b) →
          s = some ((((Host.init disk).run wal (pre ++ [a])).stores i).map) := by
  induction as using List.reverseRecOn with
  | nil => exact ⟨fun _ => Or.inl rfl, none, Saved.init hwhole hwords, by simp⟩
  | append_singleton as x ih =>
    obtain ⟨hlogs, s, hs, hlast⟩ := ih (fun y hy => hapart y (by simp [hy]))
      (fun y hy => hwrites y (by simp [hy]))
      (fun pre y post heq => hvisits pre y (post ++ [x]) (by simp [heq]))
    have hrun : (Host.init disk).run wal (as ++ [x]) = ((Host.init disk).run wal as).step wal x :=
      run_append wal _ as [x]
    obtain ⟨hdurable, hnot⟩ := hs.step hlogs hinj hsnap (hapart x (by simp)) (hwrites x (by simp))
      (hvisits as x [] rfl)
    rw [hrun]
    refine ⟨hlogs.step x, ?_⟩
    by_cases hx : Durable wal ((Host.init disk).run wal as) i x
    · refine ⟨_, hdurable hx, fun pre y post heq _ hnone => ?_⟩
      rcases List.eq_nil_or_concat post with rfl | ⟨post, z, rfl⟩
      · rw [← hrun, heq]
      · -- `x` itself came later
        rw [List.concat_eq_append, ← List.cons_append, ← List.append_assoc] at heq
        obtain ⟨rfl, hz⟩ := List.append_inj' heq rfl
        obtain rfl := List.singleton_inj.mp hz
        exact absurd hx (hnone post x [] (List.concat_eq_append ..))
    · refine ⟨s, hnot hx, fun pre y post heq hy hnone => ?_⟩
      rcases List.eq_nil_or_concat post with rfl | ⟨post, z, rfl⟩
      · obtain ⟨rfl, hxy⟩ := List.append_inj' heq rfl
        obtain rfl := List.singleton_inj.mp hxy
        exact absurd hy hx
      · rw [List.concat_eq_append, ← List.cons_append, ← List.append_assoc] at heq
        obtain ⟨rfl, -⟩ := List.append_inj' heq rfl
        refine hlast pre y post rfl hy fun pre' b post' hpost => ?_
        exact hnone pre' b (post' ++ [z]) (by rw [List.concat_eq_append, hpost]; simp)

end Host

/-- **A store finds its own state**, whatever the other stores on the machine do: for every
interleaving of calls on stores with different logs, if the store checkpoints to the fixed
snapshot path and no other store writes there or to its log. -/
theorem findsOwn [DecidableEq ι] {wal : ι → Path} (hinj : Function.Injective wal)
    (hsnap : ∀ j, wal j ≠ snapshotPath) {disk : Disk} {i : ι}
    (hwhole : WholeRecords ((disk (wal i)).getD []))
    (hwords : ∀ k v, (Machine.boot disk (wal i)).store.map.lookup k = some v → Token k ∧ Token v)
    {as : List (HostAct ι)} (hapart : ∀ a ∈ as, a.Apart wal i) (hwrites : ∀ a ∈ as, a.Writes i)
    (hvisits : ∀ pre a post, as = pre ++ a :: post → a.Visits ((Host.init disk).run wal pre)) :
    (Host.init disk).FindsOwn wal as i := by
  obtain ⟨-, s, hs, hlast⟩ := Host.exists_saved hinj hsnap hwhole hwords hapart hwrites hvisits
  intro pre a post heq ha hnone
  obtain rfl := hlast pre a post heq ha hnone
  obtain ⟨old, base, written, pending, hk⟩ := hs
  exact ⟨Machine.boot_opened _ _, hk.boot_map⟩

/-- Two logs. -/
def twoLogs : Bool → Path
  | false => "/tmp/a.wal"
  | true => "/tmp/b.wal"

/-- Two stores are opened and put one entry each. -/
def twoPuts : List (HostAct Bool) :=
  [.open false, .open true, .call false (.put (str "a") (str "1")),
    .call true (.put (str "a") (str "2"))]

/-- A run whose last call alone is a checkpoint. -/
theorem HostAct.visits_last [DecidableEq ι] {wal : ι → Path} {h : Host ι} {as : List (HostAct ι)}
    {x : HostAct ι} (has : ∀ a ∈ as, ∀ h, a.Visits h) (hx : x.Visits (h.run wal as)) :
    ∀ pre a post, as ++ [x] = pre ++ a :: post → a.Visits (h.run wal pre) := by
  intro pre a post heq
  rcases List.eq_nil_or_concat post with rfl | ⟨post, z, rfl⟩
  · obtain ⟨rfl, ha⟩ := List.append_inj' heq rfl
    obtain rfl := List.singleton_inj.mp ha
    exact hx
  · rw [List.concat_eq_append, ← List.cons_append, ← List.append_assoc] at heq
    obtain ⟨rfl, -⟩ := List.append_inj' heq rfl
    exact has a (by simp) _

theorem writes_twoPuts (snapshot : Path) (order : List Entry) :
    ∀ a ∈ twoPuts ++ [.checkpoint false snapshot order], a.Writes false := by
  simp only [twoPuts, List.cons_append, List.nil_append, List.forall_mem_cons, HostAct.Writes,
    Act.IsText, Op.Fits]
  exact ⟨trivial, trivial, fun _ => ⟨by decide +kernel, by decide⟩, by simp, trivial,
    List.forall_mem_nil _⟩

/-- The theorem at a checkpoint of the first store. -/
theorem findsOwn_twoPuts :
    (Host.init fun _ => none).FindsOwn twoLogs
      (twoPuts ++ [.checkpoint false snapshotPath [⟨str "a", str "1"⟩]]) false := by
  have hinj : Function.Injective twoLogs := by decide
  have hsnap : ∀ j, twoLogs j ≠ snapshotPath := by decide
  have hvisits : (HostAct.checkpoint false snapshotPath [⟨str "a", str "1"⟩]).Visits
      ((Host.init fun _ => none).run twoLogs twoPuts) := by
    show Enumerates _ _
    decide +kernel
  refine @findsOwn _ _ _ hinj hsnap (fun _ => none) _ wholeRecords_nil
    (Machine.boot_empty_words _) _ ?_ (writes_twoPuts _ _) (HostAct.visits_last ?_ hvisits)
  · simp [twoPuts, HostAct.Apart]
  · simp [twoPuts, HostAct.Visits]

/-- The checkpoints of each store go to one path of its own. -/
def HostAct.Passes (snap : ι → Path) : HostAct ι → Prop
  | .checkpoint j snapshot _ => snapshot = snap j
  | _ => True

/-- Without the condition a store does not find what it checkpointed: it wrote the snapshot
to the path it was given and removed its log, and the next open looks elsewhere. -/
theorem not_findsOwn :
    ¬ ∀ (wal snap : Bool → Path) (disk : Disk) (as : List (HostAct Bool)) (i : Bool),
      wal false ≠ wal true → snap false ≠ snap true → (∀ a ∈ as, a.Passes snap) →
      WholeRecords ((disk (wal i)).getD []) →
      (∀ k v, (Machine.boot disk (wal i)).store.map.lookup k = some v → Token k ∧ Token v) →
      (∀ a ∈ as, a.Writes i) →
      (∀ pre a post, as = pre ++ a :: post → a.Visits ((Host.init disk).run wal pre)) →
        (Host.init disk).FindsOwn wal as i := by
  intro hall
  have hvisits : (HostAct.checkpoint false "/tmp/a.snap" [⟨str "a", str "1"⟩]).Visits
      ((Host.init fun _ => none).run twoLogs twoPuts) := by
    show Enumerates _ _
    decide +kernel
  have hfinds := hall twoLogs (fun j => if j then "/tmp/b.snap" else "/tmp/a.snap") (fun _ => none)
    (twoPuts ++ [.checkpoint false "/tmp/a.snap" [⟨str "a", str "1"⟩]]) false (by decide)
    (by decide) (by simp [twoPuts, HostAct.Passes]) wholeRecords_nil (Machine.boot_empty_words _)
    (writes_twoPuts _ _)
    (HostAct.visits_last (by simp [twoPuts, HostAct.Visits]) hvisits)
  -- the checkpoint returns true, and it is the last call
  have hret : Host.Durable twoLogs ((Host.init fun _ => none).run twoLogs twoPuts) false
      (.checkpoint false "/tmp/a.snap" [⟨str "a", str "1"⟩]) := by
    refine ⟨rfl, ?_⟩
    show _ = true
    decide +kernel
  obtain ⟨-, hmap⟩ := hfinds twoPuts _ [] rfl hret (by simp)
  have hlookup := congrArg (fun map => map.lookup (str "a")) hmap
  revert hlookup
  decide +kernel

end KvEngine
