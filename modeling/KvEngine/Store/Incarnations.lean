import KvEngine.Store.Recovery

/-!
# Recovery after recovery

A store that crashes, is opened again on the same log, crashes again, and so on.
Each `Incarnation` opens the log the previous one left behind and appends at the
end of the file, behind whatever bytes the crash left there: the call of
`truncate_to_last_good` in `KVStore::open` is commented out (`src/kv_store.cpp`,
line 50).

Results:
* `RetainsFlushed.of_noTornAppend`: every open recovers the flushed calls of all
  earlier incarnations, as long as no incarnation appends to a log that ends in a
  torn record.
* `not_retainsFlushed_tornHeader`: an incarnation that does append to such a log
  loses the calls it flushed.
-/

namespace KvEngine

/-- One life of a store: the calls it completed, the call the crash fell into,
and how many of that call's effects reached the disk. -/
structure Incarnation where
  ops : List Op
  op : Op
  cut : ℕ

namespace Incarnation

/-- Every call of the incarnation, the interrupted one last. -/
def calls (i : Incarnation) : List Op := i.ops ++ [i.op]

/-- The store at the moment of the crash. -/
def last (i : Incarnation) (path : Path) (disk : Disk) : Machine :=
  (Machine.boot disk path).run i.ops

/-- The files the incarnation leaves behind. -/
def after (i : Incarnation) (path : Path) (disk : Disk) : Disk :=
  (i.last path disk).crash i.op i.cut

/-- The first `k` calls contain every call whose flush completed. -/
structure Keeps (i : Incarnation) (path : Path) (disk : Disk) (k : ℕ) : Prop where
  le : k ≤ i.calls.length
  flushed : ∀ pre o post, i.ops = pre ++ o :: post →
    ((Machine.boot disk path).run pre).CompletesFlush o → pre.length < k
  synced : Effect.fsync path ∈ ((i.last path disk).outcome i.op).effects.take i.cut →
    k = i.calls.length

/-- The updates made by the first `k` calls. -/
def updates (i : Incarnation) (k : ℕ) : List LogOp := (i.calls.take k).filterMap Op.logOp

/-- Keys and values fit the record format, and a log that does not consist of
whole records is left as it was found. -/
structure NoTornAppend (i : Incarnation) (path : Path) (disk : Disk) : Prop where
  fits : ∀ o ∈ i.calls, o.Fits
  whole : i.after path disk path ≠ some ((disk path).getD []) → WholeRecords ((disk path).getD [])

end Incarnation

/-! ## Sequences of incarnations -/

/-- The files after a sequence of incarnations. -/
def afterAll (path : Path) (disk : Disk) (is : List Incarnation) : Disk :=
  is.foldl (fun disk i => i.after path disk) disk

/-- `kept` consists of a prefix of the calls of every incarnation, each of which
contains the calls whose flush completed. -/
def Kept (path : Path) : Disk → List Incarnation → List LogOp → Prop
  | _, [], kept => kept = []
  | disk, i :: is, kept =>
    ∃ k rest, i.Keeps path disk k ∧ Kept path (i.after path disk) is rest ∧
      kept = i.updates k ++ rest

/-- No incarnation appends to a log with a torn record at its end. -/
def NoTornAppend (path : Path) : Disk → List Incarnation → Prop
  | _, [] => True
  | disk, i :: is => i.NoTornAppend path disk ∧ NoTornAppend path (i.after path disk) is

/-- What the open after a sequence of incarnations should recover: an empty map
with the kept updates of all of them applied. -/
def RetainsFlushed (path : Path) (disk : Disk) (is : List Incarnation) : Prop :=
  ∃ kept, Kept path disk is kept ∧
    (Machine.boot (afterAll path disk is) path).store.map = applyAll kept ∅

/-- One incarnation: the next open finds the map of this one's with a kept
prefix of its updates applied. -/
theorem Incarnation.NoTornAppend.recovers {i : Incarnation} {path : Path} {disk : Disk}
    (hpath : path ≠ snapshotPath) (h : i.NoTornAppend path disk) :
    ∃ k, i.Keeps path disk k ∧
      (Machine.boot (i.after path disk) path).store.map =
        applyAll (i.updates k) (Machine.boot disk path).store.map := by
  obtain ⟨-, k, hk, hflush, hsync, hmap⟩ :=
    Machine.recoversPrefix_of_wholeRecords hpath h.fits i.cut h.whole
  refine ⟨k, ⟨hk, hflush, hsync⟩, ?_⟩
  rw [Incarnation.after, Incarnation.last, hmap, (Machine.boot_logged disk hpath).run_map]
  rfl

/-- A sequence of incarnations, from any log. -/
theorem NoTornAppend.recovers {path : Path} (hpath : path ≠ snapshotPath) {disk : Disk}
    {is : List Incarnation} (h : NoTornAppend path disk is) :
    ∃ kept, Kept path disk is kept ∧
      (Machine.boot (afterAll path disk is) path).store.map =
        applyAll kept (Machine.boot disk path).store.map := by
  induction is generalizing disk with
  | nil => exact ⟨[], rfl, rfl⟩
  | cons i is ih =>
    obtain ⟨k, hk, hone⟩ := h.1.recovers hpath
    obtain ⟨rest, hrest, hmap⟩ := ih h.2
    refine ⟨i.updates k ++ rest, ⟨k, rest, hk, hrest, rfl⟩, ?_⟩
    rw [applyAll_append, ← hone]
    exact hmap

/-- **Recovery after recovery.** For a store first opened on an absent or empty
log with no snapshot file, every open recovers every call flushed by any earlier
incarnation, if none of them appends to a log that ends in a torn record. -/
theorem RetainsFlushed.of_noTornAppend {path : Path} (hpath : path ≠ snapshotPath) {disk : Disk}
    (hsnap : disk snapshotPath = none) (hwal : (disk path).getD [] = []) {is : List Incarnation}
    (h : NoTornAppend path disk is) : RetainsFlushed path disk is := by
  obtain ⟨kept, hkept, hmap⟩ := h.recovers hpath
  refine ⟨kept, hkept, ?_⟩
  rw [hmap, Machine.boot_map, hwal, baseMap_of_none hsnap]
  rfl

/-! ## A torn header -/

/-- Two lives on one log: the first is torn three bytes into its first flush, the
second flushes a put. -/
def tornHeader : List Incarnation :=
  [⟨[.put (str "a") (str "1")], .flushWal, 3⟩,
   ⟨[.put (str "b") (str "2"), .flushWal], .flushWal, 0⟩]

/-- The flushed put is not recovered: replay stops at the torn bytes it was
appended to. -/
theorem not_retainsFlushed_tornHeader :
    ¬ RetainsFlushed "/tmp/kv.wal" (fun _ => none) tornHeader := by
  rintro ⟨kept, ⟨k₁, rest, -, ⟨k₂, rest', hk₂, rfl, rfl⟩, rfl⟩, hmap⟩
  have hlost : (Machine.boot (afterAll "/tmp/kv.wal" (fun _ => none) tornHeader)
      "/tmp/kv.wal").store.map.lookup (str "b") = none := by decide +kernel
  have hflush : 1 < k₂ := by
    refine hk₂.flushed [.put (str "b") (str "2")] .flushWal [] rfl (Or.inl ⟨rfl, ?_⟩)
    decide +kernel
  have hput : Incarnation.updates ⟨[.put (str "b") (str "2"), .flushWal], .flushWal, 0⟩ k₂ =
      [.put (str "b") (str "2")] := by
    have hle : k₂ ≤ 3 := hk₂.le
    obtain rfl | rfl : k₂ = 2 ∨ k₂ = 3 := by omega
    · rfl
    · rfl
  rw [hmap, hput, List.append_nil, applyAll_append] at hlost
  simp [LogOp.apply] at hlost

/-- The theorem at two lives of which the second finds whole records. -/
theorem retainsFlushed_wholeRecords :
    RetainsFlushed "/tmp/kv.wal" (fun _ => none)
      [⟨[.put (str "a") (str "1"), .flushWal], .flushWal, 0⟩,
       ⟨[.put (str "b") (str "2")], .flushWal, 3⟩] := by
  refine RetainsFlushed.of_noTornAppend (by decide) rfl rfl ?_
  refine ⟨⟨by decide, fun _ => wholeRecords_nil⟩, ⟨⟨by decide, fun _ => ?_⟩, trivial⟩⟩
  refine ⟨[⟨.put, 1, str "a", str "1"⟩], ?_, ?_⟩
  · intro r hr
    obtain rfl := List.mem_singleton.mp hr
    exact ⟨by decide, by decide, by decide, by decide⟩
  · decide +kernel

end KvEngine
