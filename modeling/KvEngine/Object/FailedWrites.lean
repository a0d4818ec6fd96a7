import KvEngine.Object.ListingOrder
import KvEngine.Object.Puts

/-!
# Object writes that fail

Behind its checks an object write reports one failure, that of its last flush. The map has
its updates by then: `KVStore::put` does them when the record is in the buffer, before any
flush. A `del` whose group commit fails keeps its key, but a delete has marked the metadata
before, and a listing passes over the index entry of a deleted object.

Results:
* `failedWrite_reads`: a write that fails at its checks leaves no trace; one that fails at
  its flush shows as if it had worked, whatever system calls failed on the way.
* `not_failsCleanly`: a put that returns an error, and whose object is found.
-/

namespace KvEngine

open KvProg ObjectStore

variable {s : ObjectStore} {M M' : Machine} {b k : Bytes} {nowMs : UInt64}

/-! ## What reads say -/

/-- Lookups and listings say the same of both stores, a listing up to the order of its
entries. -/
structure SameReads (M M' : Machine) : Prop where
  get : ∀ b k, ((getObject b k).exec M').1 = ((getObject b k).exec M).1
  list : ∀ b pfx order order', Enumerates order M.store.map → Enumerates order' M'.store.map →
    ((listObjects b pfx order').exec M').1.ok = ((listObjects b pfx order).exec M).1.ok ∧
      ((listObjects b pfx order').exec M').1.error = ((listObjects b pfx order).exec M).1.error ∧
      ((listObjects b pfx order').exec M').1.objects.Perm
        ((listObjects b pfx order).exec M).1.objects

/-- They do if only index entries of objects that are not live differ. -/
theorem SameReads.of_lookup
    (hbucket : ∀ b, M'.store.map.lookup (bucketMetaKey b) = M.store.map.lookup (bucketMetaKey b))
    (hmeta : ∀ b k,
      M'.store.map.lookup (objectMetaKey b k) = M.store.map.lookup (objectMetaKey b k))
    (hchunk : ∀ id i, M'.store.map.lookup (chunkKey id i) = M.store.map.lookup (chunkKey id i))
    (hindex : ∀ b k, (listedEntry M.store.map b k).isSome →
      M'.store.map.lookup (bucketIndexKey b k) = M.store.map.lookup (bucketIndexKey b k)) :
    SameReads M M' := by
  constructor
  · intro b k
    rw [exec_of_ops_nil ops_getObject, exec_of_ops_nil ops_getObject]
    exact value_getObject_congr (hmeta b k) fun _ md _ _ _ i _ => hchunk md.objectId i
  · intro b pfx order order' horder horder'
    refine SameObjects.listObjects_perm ⟨?_, fun k _ => ?_⟩ horder horder'
    · rw [Bool.eq_iff_iff, bucketExists_exec, bucketExists_exec, hbucket]
    · have hentry := listedEntry_congr (hmeta b k)
      unfold listable
      rw [hentry]
      cases hlisted : listedEntry M.store.map b k with
      | none => rw [ite_self, ite_self]
      | some e => rw [hindex b k (by rw [hlisted]; rfl)]

theorem SameReads.of_map_eq (h : M'.store.map = M.store.map) : SameReads M M' :=
  .of_lookup (fun _ => by rw [h]) (fun _ _ => by rw [h]) (fun _ _ => by rw [h])
    fun _ _ _ => by rw [h]

/-! ## Deletes -/

/-- The metadata a delete leaves of `md`. -/
def markedDeleted (md : ObjectMetadata) (nowMs : UInt64) : Bytes :=
  serializeMetadata { md with state := .deleted, updatedAtEpochMs := nowMs }

/-- The calls of a delete that found the metadata `md`. -/
def deleteWrites (md : ObjectMetadata) (b k : Bytes) (nowMs : UInt64) : List Op :=
  [.put (objectMetaKey b k) (markedDeleted md nowMs), .del (bucketIndexKey b k), .flushWal]

/-- A delete of an object whose metadata cannot be read does nothing. -/
theorem exec_deleteObject_of_none
    (h : (M.store.map.lookup (objectMetaKey b k)).bind deserializeMetadata = none) :
    ((deleteObject b k nowMs).exec M).2 = M := by
  have hops : (deleteObject b k nowMs).ops M.store.map = [] := by
    rw [deleteObject, ops_bind, ops_kvGet, value_kvGet, after_kvGet]
    cases hraw : M.store.map.lookup (objectMetaKey b k) with
    | none => rfl
    | some raw =>
      rw [hraw, Option.bind_some] at h
      dsimp only
      rw [h]
      rfl
  rw [exec_of_ops_nil hops]

/-- Any other makes its calls, and looks at the flush. -/
theorem exec_deleteObject {md : ObjectMetadata}
    (h : (M.store.map.lookup (objectMetaKey b k)).bind deserializeMetadata = some md) :
    (((deleteObject b k nowMs).exec M).1.ok = false →
        ((deleteObject b k nowMs).exec M).1.error = str "failed to flush WAL") ∧
      ((deleteObject b k nowMs).exec M).2 = M.run (deleteWrites md b k nowMs) := by
  obtain ⟨raw, hraw, hmd⟩ := Option.bind_eq_some_iff.mp h
  set M₂ := (M.step (.put (objectMetaKey b k) (markedDeleted md nowMs))).step
    (.del (bucketIndexKey b k)) with hM₂
  obtain ⟨-, hflush⟩ := exec_flushWal ({ ok := true } : DeleteObjectResult)
    { error := str "failed to flush WAL" } M₂
  have hexec : (deleteObject b k nowMs).exec M = (kvFlushWal >>= fun flushed =>
      if flushed then Pure.pure ({ ok := true } : DeleteObjectResult)
      else Pure.pure { error := str "failed to flush WAL" }).exec M₂ := by
    have hget : (kvGet (objectMetaKey b k)).exec M = (some raw, M) :=
      congrArg (Prod.mk · M) hraw
    rw [deleteObject, exec_bind, hget]
    dsimp only
    rw [hmd]
    rfl
  rw [hexec, hflush]
  refine ⟨fun hok => ?_, rfl⟩
  split_ifs at hok ⊢
  rfl

/-- The deleted object is not listed, whatever its metadata was. -/
theorem listedEntry_deleteWrites {m : Map} {md : ObjectMetadata} {raw : Bytes}
    (hmd : deserializeMetadata raw = some md) {b' k' : Bytes}
    (hkey : objectMetaKey b' k' = objectMetaKey b k) :
    listedEntry (m.insert (objectMetaKey b k) (markedDeleted md nowMs)) b' k' = none := by
  have hread : deserializeMetadata (markedDeleted md nowMs) =
      some { md with state := .deleted, updatedAtEpochMs := nowMs } :=
    deserializeMetadata_deleted hmd nowMs
  rw [listedEntry, hkey, Finmap.lookup_insert, Option.bind_some, hread]
  rfl

theorem objectMetaKey_eq_of_bucketIndexKey_eq {b' k' : Bytes}
    (h : bucketIndexKey b' k' = bucketIndexKey b k) : objectMetaKey b' k' = objectMetaKey b k :=
  congrArg (str "objmeta:" ++ ·) (List.append_cancel_left h)

/-- On an open store a delete shows alike whether it erased the index entry or not. -/
theorem sameReads_deleteWrites (h : M.Serving) {md : ObjectMetadata}
    (hmd : (M.store.map.lookup (objectMetaKey b k)).bind deserializeMetadata = some md) :
    SameReads (Machine.run { M with os := [] } (deleteWrites md b k nowMs))
      (M.run (deleteWrites md b k nowMs)) := by
  obtain ⟨raw, -, hraw⟩ := Option.bind_eq_some_iff.mp hmd
  set marked := M.store.map.insert (objectMetaKey b k) (markedDeleted md nowMs)
  have hworks : (Machine.run { M with os := [] } (deleteWrites md b k nowMs)).store.map =
      marked.erase (bucketIndexKey b k) := (h.working.run _).2
  have hput : (M.step (.put (objectMetaKey b k) (markedDeleted md nowMs))).store.map = marked :=
    (h.step _).2 fun _ => Op.noConfusion
  have hmap : (M.run (deleteWrites md b k nowMs)).store.map = marked ∨
      (M.run (deleteWrites md b k nowMs)).store.map = marked.erase (bucketIndexKey b k) := by
    rw [← hput]
    exact Machine.map_step _ (.del (bucketIndexKey b k))
  obtain hkept | herased := hmap
  · have hframe : ∀ key, family key ≠ str "bucketi" →
        marked.lookup key = (marked.erase (bucketIndexKey b k)).lookup key :=
      fun key hkey => (Finmap.lookup_erase_ne (ne_of_family hkey)).symm
    refine .of_lookup (fun b' => ?_) (fun b' k' => ?_) (fun id i => ?_) fun b' k' hlive => ?_
    · rw [hworks, hkept, hframe]
      rw [family_bucketMetaKey]
      decide
    · rw [hworks, hkept, hframe]
      rw [family_objectMetaKey]
      decide
    · rw [hworks, hkept, hframe]
      rw [family_chunkKey]
      decide
    · rw [hworks, hkept]
      refine (Finmap.lookup_erase_ne fun hkey => ?_).symm
      rw [hworks, listedEntry_congr (m := marked)] at hlive
      · rw [listedEntry_deleteWrites hraw (objectMetaKey_eq_of_bucketIndexKey_eq hkey)] at hlive
        simp at hlive
      · rw [hframe]
        rw [family_objectMetaKey]
        decide
  · exact .of_map_eq (herased.trans hworks.symm)

/-! ## Failed writes -/

/-- A write that fails at its flush shows as if all system calls had succeeded, and one that
fails otherwise leaves no trace. -/
structure FailsWhole {α : Type} (M : Machine) (p : KvProg α) (error : Bytes) : Prop where
  flush : error = str "failed to flush WAL" →
    SameReads (p.exec { M with os := [] }).2 (p.exec M).2
  other : error ≠ str "failed to flush WAL" → SameReads M (p.exec M).2

theorem FailsWhole.of_unchanged {α : Type} {p : KvProg α} {error : Bytes}
    (h : ∀ os, (p.exec { M with os := os }).2 = { M with os := os }) : FailsWhole M p error := by
  have hM : (p.exec M).2 = M := h M.os
  refine ⟨fun _ => .of_map_eq ?_, fun _ => .of_map_eq ?_⟩
  · rw [hM, h []]
  · rw [hM]

theorem failsWhole_putObject (hM : M.Serving) (req : PutObjectRequest) (idMs nowMs : UInt64)
    (hok : ((s.putObject req idMs nowMs).exec M).1.ok = false) :
    FailsWhole M (s.putObject req idMs nowMs) ((s.putObject req idMs nowMs).exec M).1.error := by
  by_cases hpasses : req.Passes M.store.map
  · have hserving : Machine.Serving { M with os := [] } := ⟨hM.opened, hM.fd⟩
    refine ⟨fun _ => .of_map_eq ?_, fun herror => absurd ?_ herror⟩
    · rw [map_putObject hM hpasses, map_putObject hserving hpasses]
    · rw [(exec_putObject hpasses).2] at hok ⊢
      dsimp only [putResult] at hok ⊢
      split_ifs at hok ⊢
      rfl
  · refine .of_unchanged fun os => ?_
    have hnot : ¬ req.Passes ({ M with os := os } : Machine).store.map := hpasses
    exact (exec_putObject_of_not_passes hnot).2

theorem failsWhole_deleteObject (hM : M.Serving) (b k : Bytes) (nowMs : UInt64)
    (hok : ((deleteObject b k nowMs).exec M).1.ok = false) :
    FailsWhole M (deleteObject b k nowMs) ((deleteObject b k nowMs).exec M).1.error := by
  cases hmd : (M.store.map.lookup (objectMetaKey b k)).bind deserializeMetadata with
  | none => exact .of_unchanged fun os => exec_deleteObject_of_none hmd
  | some md =>
    obtain ⟨hflush, hexec⟩ := @exec_deleteObject M b k nowMs md hmd
    refine ⟨fun _ => ?_, fun herror => absurd (hflush hok) herror⟩
    have hworks : ((deleteObject b k nowMs).exec { M with os := [] }).2 =
        Machine.run { M with os := [] } (deleteWrites md b k nowMs) :=
      (@exec_deleteObject { M with os := [] } b k nowMs md hmd).2
    rw [hexec, hworks]
    exact sameReads_deleteWrites hM hmd

/-- **Failed writes.** In every state of an open store and for every pattern of failing system
calls, a put or a delete that returns an error from its checks leaves every read as it was, and
one that returns the error of its flush leaves every read as it is when nothing fails. -/
theorem failedWrite_reads (h : M.Serving) (os : Schedule) :
    (∀ req idMs nowMs, ((s.putObject req idMs nowMs).exec { M with os := os }).1.ok = false →
      FailsWhole { M with os := os } (s.putObject req idMs nowMs)
        ((s.putObject req idMs nowMs).exec { M with os := os }).1.error) ∧
    (∀ b k nowMs, ((deleteObject b k nowMs).exec { M with os := os }).1.ok = false →
      FailsWhole { M with os := os } (deleteObject b k nowMs)
        ((deleteObject b k nowMs).exec { M with os := os }).1.error) := by
  have hserving : Machine.Serving { M with os := os } := ⟨h.opened, h.fd⟩
  exact ⟨fun req idMs nowMs hok => failsWhole_putObject hserving req idMs nowMs hok,
    fun b k nowMs hok => failsWhole_deleteObject hserving b k nowMs hok⟩

/-- The theorem at a put whose group commit and last flush both fail. -/
theorem failedWrite_reads_threeChunks : ∃ past, Reachable smallStore past
      (twoBuckets smallStore (str "a") (str "b")) ∧
    FailsWhole { twoBuckets smallStore (str "a") (str "b") with os := [.error, .error] }
      (smallStore.putObject threeChunks 6 7) (str "failed to flush WAL") := by
  obtain ⟨past, hreach⟩ := reachable_twoBuckets smallStore (fun _ _ _ => True) (str "a") (str "b")
  have hfails := (failedWrite_reads (s := smallStore) hreach.serving [.error, .error]).1
    threeChunks 6 7 (by decide +kernel)
  have herror : ((smallStore.putObject threeChunks 6 7).exec
      { twoBuckets smallStore (str "a") (str "b") with os := [.error, .error] }).1.error =
        str "failed to flush WAL" := by
    decide +kernel
  rw [herror] at hfails
  exact ⟨past, hreach, hfails⟩

/-- A write that returns an error leaves every read as it was. -/
def FailsCleanly (s : ObjectStore) : Prop :=
  ∀ past M, Reachable s past M → ∀ os : Schedule,
    (∀ req idMs nowMs, ((s.putObject req idMs nowMs).exec { M with os := os }).1.ok = false →
      SameReads M ((s.putObject req idMs nowMs).exec { M with os := os }).2) ∧
    (∀ b k nowMs, ((deleteObject b k nowMs).exec { M with os := os }).1.ok = false →
      SameReads M ((deleteObject b k nowMs).exec { M with os := os }).2)

/-- The object of a put that returned an error is found. -/
theorem not_failsCleanly : ¬ FailsCleanly smallStore := by
  intro h
  obtain ⟨past, hreach⟩ := reachable_twoBuckets smallStore _ (str "a") (str "b")
  obtain ⟨hget, -⟩ := (h past _ hreach [.error, .error]).1 threeChunks 6 7 (by decide +kernel)
  have hfound := congrArg GetObjectResult.found (hget (str "b") (str "k"))
  revert hfound
  decide +kernel

end KvEngine
