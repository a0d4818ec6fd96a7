import KvEngine.Object.Collection
import KvEngine.Object.Puts

/-!
# Reading back what was put

`serialize_metadata` separates the fields by tabs and assumes that the texts it is given
have none, and the number of chunks is an `uint32_t`.

Results:
* `Landed.value_getObject`: what `GetObject` says of an object that was put without tabs.
* `readBack`: a put without tabs and of fewer than 2³² chunks that returns `ok` is read back,
  also after a collection.
* `not_readBack`: a content type with a tab, and 2³² chunks.
-/

namespace KvEngine

open KvProg ObjectStore ObjectMap

variable {s : ObjectStore} {M : Machine} {req : PutObjectRequest} {idMs nowMs : UInt64} {m : Map}

namespace ObjectStore

/-- The object comes back with as many chunks as its metadata says it has. -/
theorem Landed.value_getObject (h : s.Landed req idMs nowMs m) (htab : req.TabFree) :
    (getObject req.bucket req.key).value m = {
      found := true
      metadata := s.putMetadata req idMs nowMs
      data := req.data.take (s.putCount req * s.chunkSize) } := by
  have hlive : (s.putMetadata req idMs nowMs).state ≠ .deleted := by
    rintro ⟨⟩
  have hchunks : (readChunks (s.putMetadata req idMs nowMs).objectId
      (List.range (s.putMetadata req idMs nowMs).chunkCount.toNat) []).value m =
        .ok (req.data.take (s.putCount req * s.chunkSize)) := by
    have hall : ∀ i ∈ List.range (s.putMetadata req idMs nowMs).chunkCount.toNat,
        m.lookup (chunkKey (s.putMetadata req idMs nowMs).objectId i) =
          some (s.chunkValue req.data i) :=
      fun i hi => h.chunks i (List.mem_range.mp hi)
    rw [value_readChunks _ _ _ hall, List.nil_append, flatten_chunkValue]
    rfl
  rw [getObject, value_bind, value_kvGet, after_kvGet, h.metadata]
  dsimp only
  rw [deserializeMetadata_putMetadata htab]
  dsimp only
  rw [if_neg hlive, value_bind, hchunks]
  rfl

/-- A collection keeps it. -/
theorem Landed.collected (h : s.Landed req idMs nowMs M.store.map) (htab : req.TabFree)
    {order : List Entry} (horder : Enumerates order M.store.map) :
    s.Landed req idMs nowMs ((garbageCollectChunks order).exec M).2.store.map := by
  refine h.congr (lookup_meta_garbageCollectChunks horder _ _)
    (lookup_chunk_garbageCollectChunks horder ?_)
  exact ⟨req.bucket, req.key, _, _, h.metadata, deserializeMetadata_putMetadata htab, rfl, rfl⟩

/-- An opened store has what a put wrote that returned `ok`. -/
theorem landed_putObject (hopen : M.store.opened = true)
    (hok : ((s.putObject req idMs nowMs).exec M).1.ok = true) :
    s.Landed req idMs nowMs ((s.putObject req idMs nowMs).exec M).2.store.map := by
  obtain ⟨hserving, hpasses⟩ := serving_of_ok hopen hok
  rw [map_putObject hserving hpasses]
  exact landed_putWrites _

theorem Landed.getsObject (h : s.Landed req idMs nowMs M.store.map) (htab : req.TabFree)
    (hcount : (req.data.length + s.chunkSize - 1) / s.chunkSize < 2 ^ 32) :
    GetsObject (some (req.data, req.contentType)) ((getObject req.bucket req.key).exec M).1 := by
  rw [exec_of_ops_nil ops_getObject, h.value_getObject htab]
  refine ⟨rfl, ?_⟩
  rintro _ _ ⟨⟩
  refine ⟨List.take_of_length_le ?_, size_toNat hcount, rfl⟩
  rw [putCount, chunkCount_toNat hcount]
  exact s.length_le_chunks _

end ObjectStore

/-- **What `PutObject` accepts can be read back**: on every opened store, at any results of
the system calls, an object put without tabs in its names and content type and in fewer than
2³² chunks is found with its data, size and content type if the put returned `ok`, right after
it and after a collection. -/
theorem readBack (hopen : M.store.opened = true) (htab : req.TabFree)
    (hcount : (req.data.length + s.chunkSize - 1) / s.chunkSize < 2 ^ 32)
    (hok : ((s.putObject req idMs nowMs).exec M).1.ok = true) :
    let M' := ((s.putObject req idMs nowMs).exec M).2
    GetsObject (some (req.data, req.contentType)) ((getObject req.bucket req.key).exec M').1 ∧
      ∀ order, Enumerates order M'.store.map → ∀ os : Schedule,
        GetsObject (some (req.data, req.contentType)) ((getObject req.bucket req.key).exec
          ((garbageCollectChunks order).exec { M' with os := os }).2).1 := by
  intro M'
  have hlanded : s.Landed req idMs nowMs M'.store.map := landed_putObject hopen hok
  refine ⟨hlanded.getsObject htab hcount, fun order horder os => ?_⟩
  have hkept : s.Landed req idMs nowMs
      ((garbageCollectChunks order).exec { M' with os := os }).2.store.map :=
    @Landed.collected s { M' with os := os } req idMs nowMs hlanded htab order horder
  exact hkept.getsObject htab hcount

/-- The theorem at three chunks. -/
theorem readBack_threeChunks :
    let M' := ((smallStore.putObject threeChunks 6 7).exec
      (twoBuckets smallStore (str "a") (str "b"))).2
    GetsObject (some ([1, 2, 3, 4, 5], str "application/octet-stream"))
        ((getObject (str "b") (str "k")).exec M').1 ∧
      ∀ order, Enumerates order M'.store.map → ∀ os : Schedule,
        GetsObject (some ([1, 2, 3, 4, 5], str "application/octet-stream"))
          ((getObject (str "b") (str "k")).exec
            ((garbageCollectChunks order).exec { M' with os := os }).2).1 :=
  @readBack smallStore _ threeChunks 6 7 (by decide +kernel) tabFree_threeChunks (by decide)
    (by decide +kernel)

/-! ## Tabs and large objects -/

/-- What a put returned `ok` for is read back. -/
def ReadsAll (s : ObjectStore) : Prop :=
  ∀ past M, Reachable s past M → ∀ req idMs nowMs, ∀ os : Schedule,
    ((s.putObject req idMs nowMs).exec { M with os := os }).1.ok = true →
      GetsObject (some (req.data, req.contentType)) ((getObject req.bucket req.key).exec
        ((s.putObject req idMs nowMs).exec { M with os := os }).2).1

/-- An object of more bytes than its chunks hold is cut off. -/
theorem ObjectStore.Landed.not_getsObject (h : s.Landed req idMs nowMs M.store.map)
    (htab : req.TabFree) (hlong : s.putCount req * s.chunkSize < req.data.length) :
    ¬ GetsObject (some (req.data, req.contentType))
      ((getObject req.bucket req.key).exec M).1 := by
  intro hgets
  obtain ⟨hdata, -⟩ := hgets.contents _ _ rfl
  rw [exec_of_ops_nil ops_getObject, h.value_getObject htab] at hdata
  have hlen := congrArg List.length hdata
  rw [List.length_take] at hlen
  omega

/-- Chunks of one byte. -/
def byteStore : ObjectStore := ⟨1, fun _ => 0, by decide⟩

/-- With 2³² bytes the number of chunks is 0. -/
theorem not_readsAll_byteStore : ¬ ReadsAll byteStore := by
  intro hall
  obtain ⟨past, hreach⟩ := reachable_twoBuckets byteStore _ (str "a") (str "b")
  obtain ⟨hwork, -, hbucket, -⟩ :=
    map_twoBuckets byteStore (by decide : str "a" ≠ []) (by decide : str "b" ≠ [])
  set M := twoBuckets byteStore (str "a") (str "b")
  obtain ⟨data, hdata⟩ : ∃ data : Bytes, data.length = 2 ^ 32 :=
    ⟨List.replicate (2 ^ 32) 0, List.length_replicate⟩
  set req : PutObjectRequest := { bucket := str "b", key := str "k", data := data } with hreq
  have hok : ((byteStore.putObject req 6 7).exec M).1.ok = true := by
    rw [exec_eq hwork]
    exact (putObject_eq (by decide : str "b" ≠ []) (by decide : str "k" ≠ []) hbucket 6 7).1
  have htab : req.TabFree :=
    ⟨(by decide : tab ∉ str "b"), (by decide : tab ∉ str "k"),
      (by decide : tab ∉ str "application/octet-stream")⟩
  have hcount : byteStore.putCount req = 0 := by
    rw [putCount, ObjectStore.chunkCount, hreq, hdata]
    decide
  refine (landed_putObject hwork.opened hok).not_getsObject htab ?_ (hall past M hreach req 6 7
    M.os hok)
  rw [hcount, hreq, hdata]
  decide

/-- A content type with a tab in it. -/
def tabbed : PutObjectRequest :=
  { bucket := str "b", key := str "k", data := [1], contentType := str "a" ++ tab :: str "b" }

/-- Neither a content type with a tab nor 2³² chunks are read back. -/
theorem not_readBack : ¬ ReadsAll smallStore ∧ ¬ ReadsAll byteStore := by
  refine ⟨fun hall => ?_, not_readsAll_byteStore⟩
  obtain ⟨past, hreach⟩ := reachable_twoBuckets smallStore _ (str "a") (str "b")
  have hgets := hall past _ hreach tabbed 6 7 [] (by decide +kernel)
  have htype := (hgets.contents tabbed.data tabbed.contentType rfl).2.2
  revert htype
  decide +kernel

end KvEngine
