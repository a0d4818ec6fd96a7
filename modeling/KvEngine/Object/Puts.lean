import KvEngine.Object.Listing
import KvEngine.Object.Names

/-!
# What a put writes

Once `PutObject` has passed its checks, the calls it makes do not depend on what the system
calls return, and an open store takes all of them; only the last flush is looked at.

Results:
* `exec_putObject`: the calls of a put on any store, and what it returns.
* `ObjectStore.map_putObject`: the map of an open store after a put.
-/

namespace KvEngine

open KvProg ObjectStore

namespace KvProg

variable {α β : Type}

theorem calls_bind (p : KvProg α) (f : α → KvProg β) (M : Machine) :
    (p >>= f).calls M = p.calls M ++ (f (p.exec M).1).calls (p.exec M).2 := by
  show (p.bind f).calls M = _
  induction p generalizing M with
  | pure a => rfl
  | get key next ih => exact ih _ M
  | listKeysWithPrefix order pfx next ih => exact ih _ M
  | put key v next ih => exact congrArg (Op.put key v :: ·) (ih _)
  | del key next ih => exact congrArg (Op.del key :: ·) (ih _ _)
  | flushWal next ih => exact congrArg (Op.flushWal :: ·) (ih _ _)

/-- A program that only reads makes no such calls. -/
theorem calls_of_ops_nil {p : KvProg α} {M : Machine} (h : p.ops M.store.map = []) :
    p.calls M = [] := by
  induction p with
  | pure a => rfl
  | get key next ih => exact ih _ h
  | listKeysWithPrefix order pfx next ih => exact ih _ h
  | put key v next ih => simp [ops] at h
  | del key next ih => simp [ops] at h
  | flushWal next ih => simp [ops] at h

/-- A flush that what is returned depends on. -/
theorem exec_flushWal (a a' : α) (M : Machine) :
    (kvFlushWal >>= fun flushed => if flushed then Pure.pure a else Pure.pure a').calls M =
        [.flushWal] ∧
      (kvFlushWal >>= fun flushed => if flushed then Pure.pure a else Pure.pure a').exec M =
        (if (M.store.flushWal M.os).value.1 then a else a', M.step .flushWal) := by
  rw [calls_bind, exec_bind]
  show [Op.flushWal] ++ (if (M.store.flushWal M.os).value.1 then _ else _ : KvProg α).calls _ = _ ∧
    (if (M.store.flushWal M.os).value.1 then _ else _ : KvProg α).exec _ = _
  split_ifs <;> exact ⟨rfl, rfl⟩

end KvProg

namespace ObjectStore

variable (s : ObjectStore) (req : PutObjectRequest) (idMs nowMs : UInt64)

/-- The object id of the put. -/
def putId : Bytes := makeObjectId req.bucket req.key idMs

/-- How many chunks the put writes. -/
def putCount : ℕ := (s.chunkCount req.data.length).toNat

/-- The calls that write the chunks of `is`. -/
def chunkPuts (is : List ℕ) : List Op :=
  is.map fun i => .put (chunkKey (putId req idMs) i) (s.chunkValue req.data i)

/-- The calls that write metadata and index entry. -/
def commitPuts : List Op :=
  [.put (objectMetaKey req.bucket req.key) (serializeMetadata (s.putMetadata req idMs nowMs)),
    .put (bucketIndexKey req.bucket req.key) (putId req idMs)]

/-- All that a put writes. -/
def putWrites : List Op :=
  s.chunkPuts req idMs (List.range (s.putCount req)) ++ s.commitPuts req idMs nowMs

/-- What a put returns, by what the flush did. -/
def putResult (flushed : Bool) : PutObjectResult :=
  if flushed then {
    ok := true
    objectId := putId req idMs
    sizeBytes := UInt64.ofNat req.data.length
    chunkCount := s.chunkCount req.data.length
    etag := s.computeEtag req.data }
  else { error := str "failed to flush WAL" }

variable {s req idMs nowMs} {M : Machine}

theorem exec_writeChunks (is : List ℕ) (M : Machine) :
    ((s.writeChunks (putId req idMs) req.data is).exec M).2 = M.run (s.chunkPuts req idMs is) ∧
      (s.writeChunks (putId req idMs) req.data is).calls M = s.chunkPuts req idMs is := by
  induction is generalizing M with
  | nil => exact ⟨rfl, rfl⟩
  | cons i is ih =>
    obtain ⟨hexec, hcalls⟩ := ih (M.step (.put (chunkKey (putId req idMs) i)
      (s.chunkValue req.data i)))
    exact ⟨hexec, congrArg (Op.put _ _ :: ·) hcalls⟩

theorem bucketExists_of_passes (h : req.Passes M.store.map) :
    (bucketExists req.bucket).exec M = (true, M) := by
  obtain ⟨hb, -, hbucket⟩ := h
  obtain ⟨hvalue, hops⟩ := bucketExists_eq (m := M.store.map) hb
  rw [exec_of_ops_nil hops, hvalue, hbucket]

/-- A put that passes its checks makes its calls, and looks at the flush. -/
theorem exec_putObject (h : req.Passes M.store.map) :
    (s.putObject req idMs nowMs).calls M = s.putWrites req idMs nowMs ++ [.flushWal] ∧
      (s.putObject req idMs nowMs).exec M =
        (s.putResult req idMs ((M.run (s.putWrites req idMs nowMs)).store.flushWal
            (M.run (s.putWrites req idMs nowMs)).os).value.1,
          (M.run (s.putWrites req idMs nowMs)).step .flushWal) := by
  obtain ⟨hb, hk, -⟩ := id h
  have hnone : (bucketExists req.bucket).calls M = [] := calls_of_ops_nil (bucketExists_eq hb).2
  obtain ⟨hchunks, hcalls⟩ := @exec_writeChunks s req idMs (List.range (s.putCount req)) M
  obtain ⟨hcommit, hflush⟩ := exec_flushWal (s.putResult req idMs true)
    (s.putResult req idMs false) (M.run (s.putWrites req idMs nowMs))
  rw [putObject, if_neg hb, if_neg hk, calls_bind, exec_bind, hnone, bucketExists_of_passes h]
  show (s.writeChunks (putId req idMs) req.data (List.range (s.putCount req)) >>= _).calls M = _ ∧
    (s.writeChunks (putId req idMs) req.data (List.range (s.putCount req)) >>= _).exec M = _
  rw [calls_bind, exec_bind, hchunks, hcalls]
  rw [putWrites, Machine.run_append] at hcommit hflush ⊢
  rw [List.append_assoc]
  exact ⟨congrArg (_ ++ Op.put _ _ :: Op.put _ _ :: ·) hcommit, hflush⟩

/-- Otherwise it does nothing. -/
theorem exec_putObject_of_not_passes (h : ¬ req.Passes M.store.map) :
    ((s.putObject req idMs nowMs).exec M).1.ok = false ∧
      ((s.putObject req idMs nowMs).exec M).2 = M := by
  rw [exec_of_ops_nil (ops_putObject_of_not_passes h idMs nowMs)]
  refine ⟨?_, rfl⟩
  rw [putObject]
  split_ifs with hb hk
  · rfl
  · rfl
  · obtain ⟨hvalue, -⟩ := bucketExists_eq (m := M.store.map) hb
    have hbucket : (M.store.map.lookup (bucketMetaKey req.bucket)).isSome = false := by
      rw [Bool.eq_false_iff]
      exact fun hbucket => h ⟨hb, hk, hbucket⟩
    rw [value_bind, hvalue, hbucket]
    rfl

theorem ne_del_of_mem_putWrites {op : Op} (h : op ∈ s.putWrites req idMs nowMs ++ [.flushWal])
    (k : Bytes) : op ≠ .del k := by
  rintro rfl
  simp [putWrites, chunkPuts, commitPuts] at h

theorem applyOps_chunkPuts (is : List ℕ) (m : Map) :
    applyOps (s.chunkPuts req idMs is) m =
      (s.writeChunks (putId req idMs) req.data is).after m := by
  induction is generalizing m with
  | nil => rfl
  | cons i is ih => exact ih (m.insert _ _)

/-- The map of an open store after a put. -/
theorem map_putObject (h : M.Serving) (hpasses : req.Passes M.store.map) :
    ((s.putObject req idMs nowMs).exec M).2.store.map =
      applyOps (s.putWrites req idMs nowMs) M.store.map := by
  rw [(exec_putObject hpasses).2]
  obtain ⟨-, hrun⟩ := h.run (s.putWrites req idMs nowMs ++ [.flushWal])
  rw [Machine.run_append] at hrun
  exact (hrun fun op hop => ne_del_of_mem_putWrites hop).trans (applyOps_append _ _ _)

/-- An opened store that returned `ok` has an open log, and the checks were passed. -/
theorem serving_of_ok (hopen : M.store.opened = true)
    (hok : ((s.putObject req idMs nowMs).exec M).1.ok = true) :
    M.Serving ∧ req.Passes M.store.map := by
  have hpasses : req.Passes M.store.map := by
    by_contra hpasses
    rw [(exec_putObject_of_not_passes hpasses).1] at hok
    exact Bool.false_ne_true hok
  refine ⟨⟨hopen, fun hfd => ?_⟩, hpasses⟩
  obtain ⟨hclosed, -⟩ := Machine.run_of_closed hfd (s.putWrites req idMs nowMs)
  rw [(exec_putObject hpasses).2] at hok
  simp [KVStore.flushWal, Wal.flush, hclosed, putResult] at hok

theorem putId_ne (req : PutObjectRequest) (idMs : UInt64) : putId req idMs ≠ [] := by
  simp [putId, makeObjectId]

/-- In the map is what the put wrote: its metadata and its chunks. -/
structure Landed (s : ObjectStore) (req : PutObjectRequest) (idMs nowMs : UInt64) (m : Map) :
    Prop where
  metadata : m.lookup (objectMetaKey req.bucket req.key) =
    some (serializeMetadata (s.putMetadata req idMs nowMs))
  chunks : ∀ i < s.putCount req,
    m.lookup (chunkKey (putId req idMs) i) = some (s.chunkValue req.data i)

theorem Landed.congr {m m' : Map} (h : s.Landed req idMs nowMs m)
    (hmeta : m'.lookup (objectMetaKey req.bucket req.key) =
      m.lookup (objectMetaKey req.bucket req.key))
    (hchunks : ∀ i, m'.lookup (chunkKey (putId req idMs) i) =
      m.lookup (chunkKey (putId req idMs) i)) : s.Landed req idMs nowMs m' :=
  ⟨hmeta.trans h.metadata, fun i hi => (hchunks i).trans (h.chunks i hi)⟩

theorem landed_putWrites (m : Map) :
    s.Landed req idMs nowMs (applyOps (s.putWrites req idMs nowMs) m) := by
  have hne := bucketIndexKey_ne_objectMetaKey req.bucket req.key req.bucket req.key
  rw [putWrites, applyOps_append, commitPuts, applyOps_put, applyOps_put, applyOps_nil,
    applyOps_chunkPuts]
  constructor
  · rw [Finmap.lookup_insert_of_ne _ hne.symm, Finmap.lookup_insert]
  · intro i hi
    rw [Finmap.lookup_insert_of_ne, Finmap.lookup_insert_of_ne]
    · exact lookup_writeChunks _ _ _ (List.mem_range.mpr hi)
    · exact (objectMetaKey_ne_chunkKey _ _ _ _).symm
    · refine ne_of_family ?_
      rw [family_chunkKey, family_bucketIndexKey]
      decide

end ObjectStore

end KvEngine
