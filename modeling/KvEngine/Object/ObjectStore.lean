import KvEngine.Object.Metadata
import KvEngine.Object.Program

/-!
# The object store

Model of `class ObjectStore` (`include/kv/object_store.h`, `src/object_store.cpp`): each
method is a program over a `KVStore`. A clock reading is an argument of the method that
takes it, and so is the iteration order of the store's map of a method that lists keys;
`std::hash` is a field of the store. Sizes are natural numbers: they fit `size_t`.
-/

namespace KvEngine

open KvProg (kvGet kvList kvPut kvDel kvFlushWal)

/-! ## Requests and results -/

/-- `struct PutObjectRequest` (types, lines 50–55). -/
structure PutObjectRequest where
  bucket : Bytes
  key : Bytes
  data : Bytes
  contentType : Bytes := str "application/octet-stream"

/-- `struct PutObjectResult` (types, lines 57–65). -/
structure PutObjectResult where
  ok : Bool := false
  error : Bytes := []
  objectId : Bytes := []
  sizeBytes : UInt64 := 0
  chunkCount : UInt32 := 0
  etag : Bytes := []

/-- `struct GetObjectResult` (types, lines 67–73). -/
structure GetObjectResult where
  found : Bool := false
  error : Bytes := []
  metadata : ObjectMetadata := {}
  data : Bytes := []

/-- `struct ObjectListEntry` (types, lines 75–81). -/
structure ObjectListEntry where
  key : Bytes
  sizeBytes : UInt64
  contentType : Bytes
  etag : Bytes
  updatedAtEpochMs : UInt64

/-- `struct ListObjectsResult` (types, lines 83–87). -/
structure ListObjectsResult where
  ok : Bool := false
  error : Bytes := []
  objects : List ObjectListEntry := []

/-- `struct DeleteObjectResult` (types, lines 89–92). -/
structure DeleteObjectResult where
  ok : Bool := false
  error : Bytes := []

/-- The fields of `class ObjectStore` besides the store it writes to. -/
structure ObjectStore where
  chunkSizeBytes : UInt32
  hash : Bytes → UInt64
  chunkSize_ne : chunkSizeBytes ≠ 0

namespace ObjectStore

/-- The constructor (lines 132–134). -/
def new (chunkSizeBytes : UInt32) (hash : Bytes → UInt64) : ObjectStore :=
  ⟨if chunkSizeBytes = 0 then 4096 else chunkSizeBytes, hash,
    by split_ifs <;> first | decide | assumption⟩

variable (s : ObjectStore)

/-- `compute_etag` (lines 29–36). -/
def computeEtag (data : Bytes) : Bytes := hex (s.hash data).toNat

/-- `chunk_size_bytes_` as a number. -/
def chunkSize : ℕ := s.chunkSizeBytes.toNat

/-- `chunk_count` of an object with `total` bytes (lines 196–198). -/
def chunkCount (total : ℕ) : UInt32 := UInt32.ofNat ((total + s.chunkSize - 1) / s.chunkSize)

/-- The bytes of chunk `i` (lines 202–207). -/
def chunkValue (data : Bytes) (i : ℕ) : Bytes :=
  let start := i * s.chunkSize
  let stop := min (start + s.chunkSize) data.length
  (data.drop start).take (stop - start)

/-! ## Buckets -/

/-- `CreateBucket` (lines 136–148). -/
def createBucket (bucket : Bytes) (nowMs : UInt64) : KvProg Bool :=
  if bucket = [] then pure false
  else do
    let existing ← kvGet (bucketMetaKey bucket)
    if existing.isSome then pure true
    else do
      kvPut (bucketMetaKey bucket) (serializeBucketMeta ⟨bucket, nowMs⟩)
      pure true

/-- `BucketExists` (lines 150–153). -/
def bucketExists (bucket : Bytes) : KvProg Bool :=
  if bucket = [] then pure false
  else do
    let existing ← kvGet (bucketMetaKey bucket)
    pure existing.isSome

/-! ## Objects -/

/-- The loop of `PutObject` over the chunks (lines 201–210). -/
def writeChunks (objectId data : Bytes) : List ℕ → KvProg Unit
  | [] => pure ()
  | i :: is => do
    kvPut (chunkKey objectId i) (s.chunkValue data i)
    writeChunks objectId data is

/-- The metadata `PutObject` stores (lines 213–224). -/
def putMetadata (req : PutObjectRequest) (idMs nowMs : UInt64) : ObjectMetadata where
  objectId := makeObjectId req.bucket req.key idMs
  bucket := req.bucket
  key := req.key
  sizeBytes := UInt64.ofNat req.data.length
  chunkCount := s.chunkCount req.data.length
  chunkSizeBytes := s.chunkSizeBytes
  contentType := req.contentType
  etag := s.computeEtag req.data
  createdAtEpochMs := nowMs
  updatedAtEpochMs := nowMs
  state := .committed

/-- `PutObject` (lines 155–244); `idMs` is the clock reading of `make_object_id`. -/
def putObject (req : PutObjectRequest) (idMs nowMs : UInt64) : KvProg PutObjectResult :=
  if req.bucket = [] then pure { error := str "bucket is empty" }
  else if req.key = [] then pure { error := str "object key is empty" }
  else do
    let exists? ← bucketExists req.bucket
    if exists? then do
      -- read for a log line only
      let _ ← kvGet (objectMetaKey req.bucket req.key)
      let objectId := makeObjectId req.bucket req.key idMs
      let count := s.chunkCount req.data.length
      s.writeChunks objectId req.data (List.range count.toNat)
      kvPut (objectMetaKey req.bucket req.key)
        (serializeMetadata (s.putMetadata req idMs nowMs))
      kvPut (bucketIndexKey req.bucket req.key) objectId
      let flushed ← kvFlushWal
      if flushed then
        pure {
          ok := true
          objectId := objectId
          sizeBytes := UInt64.ofNat req.data.length
          chunkCount := count
          etag := s.computeEtag req.data }
      else pure { error := str "failed to flush WAL" }
    else pure { error := str "bucket does not exist" }

/-- The loop of `GetObject` over the chunks (lines 269–281): the data, or the index of a
missing chunk. -/
def readChunks (objectId : Bytes) : List ℕ → Bytes → KvProg (Except ℕ Bytes)
  | [], data => pure (.ok data)
  | i :: is, data => do
    let chunk ← kvGet (chunkKey objectId i)
    match chunk with
    | none => pure (.error i)
    | some c => readChunks objectId is (data ++ c)

/-- `GetObject` (lines 246–285), without the `reserve` of the size in the metadata (line 267),
which throws when there is no room for so many bytes. -/
def getObject (bucket key : Bytes) : KvProg GetObjectResult := do
  let raw ← kvGet (objectMetaKey bucket key)
  match raw with
  | none => pure { error := str "object metadata not found" }
  | some raw =>
    match deserializeMetadata raw with
    | none => pure { error := str "failed to deserialize object metadata" }
    | some md =>
      if md.state = .deleted then pure { error := str "object is deleted" }
      else do
        let read ← readChunks md.objectId (List.range md.chunkCount.toNat) []
        match read with
        | .error i =>
          pure { error := str "missing object chunk at index " ++ decimal i, metadata := md }
        | .ok data => pure { found := true, metadata := md, data := data }

/-- `DeleteObject` (lines 287–319). -/
def deleteObject (bucket key : Bytes) (nowMs : UInt64) : KvProg DeleteObjectResult := do
  let raw ← kvGet (objectMetaKey bucket key)
  match raw with
  | none => pure { error := str "object metadata not found" }
  | some raw =>
    match deserializeMetadata raw with
    | none => pure { error := str "failed to deserialize object metadata" }
    | some md => do
      kvPut (objectMetaKey bucket key)
        (serializeMetadata { md with state := .deleted, updatedAtEpochMs := nowMs })
      let _ ← kvDel (bucketIndexKey bucket key)
      let flushed ← kvFlushWal
      if flushed then pure { ok := true } else pure { error := str "failed to flush WAL" }

/-! ## Listing -/

/-- The loop of `ListObjects` over the index keys (lines 346–379). -/
def listEntries (bucket basePrefix : Bytes) : List Bytes → KvProg (List ObjectListEntry)
  | [] => pure []
  | indexKey :: rest =>
    if indexKey.length < basePrefix.length then listEntries bucket basePrefix rest
    else do
      let raw ← kvGet (objectMetaKey bucket (indexKey.drop basePrefix.length))
      match raw.bind deserializeMetadata with
      | none => listEntries bucket basePrefix rest
      | some md =>
        if md.state = .deleted then listEntries bucket basePrefix rest
        else do
          let entries ← listEntries bucket basePrefix rest
          pure (⟨md.key, md.sizeBytes, md.contentType, md.etag, md.updatedAtEpochMs⟩ ::
            entries)

/-- `ListObjects` (lines 321–382). -/
def listObjects (bucket pfx : Bytes) (order : List Entry) : KvProg ListObjectsResult :=
  if bucket = [] then pure { error := str "bucket is empty" }
  else do
    let exists? ← bucketExists bucket
    if exists? then do
      let indexKeys ← kvList order (bucketIndexKey bucket pfx)
      let objects ← listEntries bucket (str "bucketidx:" ++ bucket ++ str ":") indexKeys
      pure { ok := true, objects := objects }
    else pure { error := str "bucket does not exist" }

/-! ## Garbage collection -/

/-- The object ids of committed metadata (lines 387–408). -/
def reachableObjectIds : List Bytes → KvProg (List Bytes)
  | [] => pure []
  | metaKey :: rest => do
    let raw ← kvGet metaKey
    match raw.bind deserializeMetadata with
    | none => reachableObjectIds rest
    | some md => do
      let ids ← reachableObjectIds rest
      if md.state = .committed then pure (md.objectId :: ids) else pure ids

/-- `chunk_key.rfind(':')`. -/
def rfindColon (s : Bytes) : Option ℕ :=
  if colon ∈ s then some (s.length - 1 - s.reverse.idxOf colon) else none

/-- The object id in a chunk key (lines 415–424), if there is one. -/
def chunkObjectId (chunkKey : Bytes) : Option Bytes :=
  let pfx := str "objchunk:"
  match rfindColon chunkKey with
  | none => none
  | some lastColon =>
    if lastColon ≤ pfx.length then none
    else some ((chunkKey.drop pfx.length).take (lastColon - pfx.length))

/-- The loop over the chunk keys (lines 414–433); returns how many were deleted. -/
def deleteUnreachable (reachable : List Bytes) : List Bytes → KvProg ℕ
  | [] => pure 0
  | chunkKey :: rest =>
    match chunkObjectId chunkKey with
    | none => deleteUnreachable reachable rest
    | some objectId =>
      if objectId ∈ reachable then deleteUnreachable reachable rest
      else do
        let deleted ← kvDel chunkKey
        let n ← deleteUnreachable reachable rest
        pure (if deleted then n + 1 else n)

/-- `GarbageCollectChunks` (lines 384–438). No call changes the map between the two
listings, so one order serves both. -/
def garbageCollectChunks (order : List Entry) : KvProg ℕ := do
  let metaKeys ← kvList order (str "objmeta:")
  let reachable ← reachableObjectIds metaKeys
  let chunkKeys ← kvList order (str "objchunk:")
  let deletedChunks ← deleteUnreachable reachable chunkKeys
  let _ ← kvFlushWal
  pure deletedChunks

end ObjectStore

end KvEngine
