import KvEngine.Object.ObjectStore
import KvEngine.Store.Snapshot

/-!
# What a store's map stands for

The abstract object store is a set of buckets and a map from bucket and key to data and
content type. `Represents` says that a store's map stands for one: live metadata has all
its chunks, and nothing else is live. Chunks of a new object id never touch those of a
live one, as ids carry growing clock readings.

Results:
* `Stores.of_unrelated`: what is no metadata and no chunk of a known id does not matter.
* `Stores.insert_meta`: new metadata for one object.
-/

namespace KvEngine

open KvProg

/-! ## The abstract store -/

/-- Buckets, and the objects in them: data and content type. -/
structure ObjectMap where
  buckets : Finset Bytes
  objects : Bytes × Bytes → Option (Bytes × Bytes)
  nil_notMem : [] ∉ buckets
  mem_of_object : ∀ b k, objects (b, k) ≠ none → b ∈ buckets

/-- A call on an object store, with its clock readings and iteration orders. -/
inductive ObjectCall where
  | createBucket (bucket : Bytes) (nowMs : UInt64)
  | putObject (req : PutObjectRequest) (idMs nowMs : UInt64)
  | getObject (bucket key : Bytes)
  | deleteObject (bucket key : Bytes) (nowMs : UInt64)
  | listObjects (bucket pfx : Bytes) (order : List Entry)
  | garbageCollectChunks (order : List Entry)

/-- What it returns. -/
inductive ObjectReply where
  | createBucket (ok : Bool)
  | putObject (r : PutObjectResult)
  | getObject (r : GetObjectResult)
  | deleteObject (r : DeleteObjectResult)
  | listObjects (r : ListObjectsResult)
  | garbageCollectChunks (deletedChunks : ℕ)

/-- The call's program. -/
def ObjectCall.prog (s : ObjectStore) : ObjectCall → KvProg ObjectReply
  | .createBucket b now => do return .createBucket (← ObjectStore.createBucket b now)
  | .putObject req idMs now => do return .putObject (← s.putObject req idMs now)
  | .getObject b k => do return .getObject (← ObjectStore.getObject b k)
  | .deleteObject b k now => do return .deleteObject (← ObjectStore.deleteObject b k now)
  | .listObjects b pfx order => do return .listObjects (← ObjectStore.listObjects b pfx order)
  | .garbageCollectChunks order => do
    return .garbageCollectChunks (← ObjectStore.garbageCollectChunks order)

namespace ObjectMap

/-- No buckets and no objects. -/
def empty : ObjectMap := ⟨∅, fun _ => none, Finset.notMem_empty _, fun _ _ h => absurd rfl h⟩

/-- A bucket has a name. -/
def createBucket (A : ObjectMap) (b : Bytes) : ObjectMap :=
  if hb : b = [] then A
  else {
    buckets := insert b A.buckets
    objects := A.objects
    nil_notMem := by
      rw [Finset.mem_insert, not_or]
      exact ⟨Ne.symm hb, A.nil_notMem⟩
    mem_of_object := fun b' k h => Finset.mem_insert_of_mem (A.mem_of_object b' k h) }

/-- A put needs a bucket and a key. -/
def Accepts (A : ObjectMap) (req : PutObjectRequest) : Prop :=
  req.bucket ∈ A.buckets ∧ req.key ≠ []

instance (A : ObjectMap) (req : PutObjectRequest) : Decidable (A.Accepts req) :=
  inferInstanceAs (Decidable (_ ∧ _))

/-- A put replaces. -/
def put (A : ObjectMap) (req : PutObjectRequest) : ObjectMap :=
  if hb : A.Accepts req then {
    buckets := A.buckets
    objects :=
      Function.update A.objects (req.bucket, req.key) (some (req.data, req.contentType))
    nil_notMem := A.nil_notMem
    mem_of_object := by
      intro b k h
      by_cases heq : (b, k) = (req.bucket, req.key)
      · rw [(Prod.mk.inj heq).1]
        exact hb.1
      · rw [Function.update_of_ne heq] at h
        exact A.mem_of_object b k h }
  else A

/-- A delete removes. -/
def delete (A : ObjectMap) (b k : Bytes) : ObjectMap where
  buckets := A.buckets
  objects := Function.update A.objects (b, k) none
  nil_notMem := A.nil_notMem
  mem_of_object := by
    intro b' k' h
    by_cases heq : (b', k') = (b, k)
    · rw [heq, Function.update_self] at h
      exact absurd rfl h
    · rw [Function.update_of_ne heq] at h
      exact A.mem_of_object b' k' h

/-- What a call makes of the abstract store; gets, lists and collections change nothing. -/
def apply (A : ObjectMap) : ObjectCall → ObjectMap
  | .createBucket b _ => A.createBucket b
  | .putObject req _ _ => A.put req
  | .deleteObject b k _ => A.delete b k
  | .getObject _ _ => A
  | .listObjects _ _ _ => A
  | .garbageCollectChunks _ => A

/-- What `GetObject` says of an object: whether it is there, its data, size and type. -/
structure GetsObject (v : Option (Bytes × Bytes)) (r : GetObjectResult) : Prop where
  found : r.found = v.isSome
  contents : ∀ data ct, v = some (data, ct) →
    r.data = data ∧ r.metadata.sizeBytes.toNat = data.length ∧ r.metadata.contentType = ct

/-- What `ListObjects` says of a bucket: each key once, those with the prefix. -/
structure ListsObjects (A : ObjectMap) (b pfx : Bytes) (r : ListObjectsResult) : Prop where
  ok : r.ok = decide (b ∈ A.buckets)
  once : (r.objects.map ObjectListEntry.key).Nodup
  entries : ∀ k size ct,
    (∃ e ∈ r.objects, e.key = k ∧ e.sizeBytes.toNat = size ∧ e.contentType = ct) ↔
      ∃ data, A.objects (b, k) = some (data, ct) ∧ data.length = size ∧ pfx <+: k

/-- The reply the abstract store gives to a call. -/
def Answers (A : ObjectMap) : ObjectCall → ObjectReply → Prop
  | .createBucket b _, .createBucket ok => ok = decide (b ≠ [])
  | .putObject req _ _, .putObject r => r.ok = decide (A.Accepts req)
  | .getObject b k, .getObject r => GetsObject (A.objects (b, k)) r
  | .listObjects b pfx _, .listObjects r => A.ListsObjects b pfx r
  | .deleteObject _ _ _, .deleteObject _ => True
  | .garbageCollectChunks _, .garbageCollectChunks _ => True
  | _, _ => False

end ObjectMap

/-! ## Key families -/

/-- The first seven bytes of a key tell what is stored there. -/
def family (key : Bytes) : Bytes := key.take 7

@[simp] theorem family_bucketMetaKey (b : Bytes) : family (bucketMetaKey b) = str "bucket:" := rfl
@[simp] theorem family_objectMetaKey (b k : Bytes) : family (objectMetaKey b k) = str "objmeta" :=
  rfl
@[simp] theorem family_bucketIndexKey (b k : Bytes) :
    family (bucketIndexKey b k) = str "bucketi" := rfl
@[simp] theorem family_chunkKey (id : Bytes) (i : ℕ) : family (chunkKey id i) = str "objchun" := rfl

theorem ne_of_family {k k' : Bytes} (h : family k ≠ family k') : k ≠ k' :=
  fun heq => h (congrArg family heq)

theorem objectMetaKey_ne_chunkKey (b k id : Bytes) (i : ℕ) : objectMetaKey b k ≠ chunkKey id i :=
  ne_of_family (by rw [family_objectMetaKey, family_chunkKey]; decide)

theorem bucketIndexKey_ne_objectMetaKey (b k b' k' : Bytes) :
    bucketIndexKey b k ≠ objectMetaKey b' k' :=
  ne_of_family (by rw [family_bucketIndexKey, family_objectMetaKey]; decide)

theorem bucketMetaKey_ne_objectMetaKey (b b' k' : Bytes) :
    bucketMetaKey b ≠ objectMetaKey b' k' :=
  ne_of_family (by rw [family_bucketMetaKey, family_objectMetaKey]; decide)

theorem bucketMetaKey_ne_bucketIndexKey (b b' k' : Bytes) :
    bucketMetaKey b ≠ bucketIndexKey b' k' :=
  ne_of_family (by rw [family_bucketMetaKey, family_bucketIndexKey]; decide)

theorem family_of_objchunk {key : Bytes} (h : str "objchunk:" <+: key) :
    family key = str "objchun" := by
  obtain ⟨r, rfl⟩ := h
  rfl

/-! ## What a map stands for -/

/-- The metadata of an object under a key, with an id of a clock reading before `T`. -/
structure Describes (T : ℕ) (b k : Bytes) (md : ObjectMetadata) : Prop where
  tabFree : md.TabFree
  key : md.key = k
  objectId : ∃ t : UInt64, t.toNat < T ∧ md.objectId = makeObjectId b k t

/-- The `n` chunks of an object id are there and make up the data. -/
def HasChunks (m : Map) (objectId : Bytes) (n : ℕ) (data : Bytes) : Prop :=
  ∃ chunks : List Bytes, chunks.length = n ∧ chunks.flatten = data ∧
    ∀ i < n, m.lookup (chunkKey objectId i) = chunks[i]?

/-- What is stored for an object: metadata marked as deleted or none, or metadata with
all its chunks. -/
def Holds (m : Map) (T : ℕ) (b k : Bytes) : Option (Bytes × Bytes) → Prop
  | none =>
    m.lookup (objectMetaKey b k) = none ∨
      ∃ md, m.lookup (objectMetaKey b k) = some (serializeMetadata md) ∧ Describes T b k md ∧
        md.state = .deleted
  | some (data, ct) =>
    ∃ md, m.lookup (objectMetaKey b k) = some (serializeMetadata md) ∧ Describes T b k md ∧
      md.state = .committed ∧ md.sizeBytes.toNat = data.length ∧ md.contentType = ct ∧
      HasChunks m md.objectId md.chunkCount.toNat data

/-- The objects a map stands for. -/
def Stores (m : Map) (T : ℕ) (objects : Bytes × Bytes → Option (Bytes × Bytes)) : Prop :=
  ∀ b k, colon ∉ b → Holds m T b k (objects (b, k))

/-- Every object has its entry in the index of its bucket. -/
def Indexed (m : Map) (objects : Bytes × Bytes → Option (Bytes × Bytes)) : Prop :=
  ∀ b k, colon ∉ b → objects (b, k) ≠ none → (m.lookup (bucketIndexKey b k)).isSome

/-- Everything a map stands for between two calls. -/
structure Represents (m : Map) (T : ℕ) (A : ObjectMap) : Prop where
  buckets : ∀ b, (m.lookup (bucketMetaKey b)).isSome = decide (b ∈ A.buckets)
  objects : Stores m T A.objects
  index : Indexed m A.objects

variable {m m' : Map} {T T' : ℕ} {b k : Bytes}
  {objects : Bytes × Bytes → Option (Bytes × Bytes)}

theorem Describes.mono {md : ObjectMetadata} (h : Describes T b k md) (hT : T ≤ T') :
    Describes T' b k md := by
  obtain ⟨t, ht, hid⟩ := h.objectId
  exact ⟨h.tabFree, h.key, t, lt_of_lt_of_le ht hT, hid⟩

theorem Holds.mono {v : Option (Bytes × Bytes)} (h : Holds m T b k v) (hT : T ≤ T') :
    Holds m T' b k v := by
  cases v with
  | none =>
    refine h.imp_right ?_
    rintro ⟨md, hlook, hd, hstate⟩
    exact ⟨md, hlook, hd.mono hT, hstate⟩
  | some v =>
    obtain ⟨md, hlook, hd, hrest⟩ := h
    exact ⟨md, hlook, hd.mono hT, hrest⟩

theorem Stores.mono (h : Stores m T objects) (hT : T ≤ T') : Stores m T' objects :=
  fun b k hb => (h b k hb).mono hT

/-- An object stays if its metadata does and the chunks of live metadata do. -/
theorem Holds.congr {v : Option (Bytes × Bytes)} (h : Holds m T b k v)
    (hmeta : m'.lookup (objectMetaKey b k) = m.lookup (objectMetaKey b k))
    (hchunks : ∀ md, m.lookup (objectMetaKey b k) = some (serializeMetadata md) →
      Describes T b k md → md.state = .committed →
        ∀ i, m'.lookup (chunkKey md.objectId i) = m.lookup (chunkKey md.objectId i)) :
    Holds m' T b k v := by
  cases v with
  | none =>
    unfold Holds
    rwa [hmeta]
  | some v =>
    obtain ⟨md, hlook, hd, hstate, hsize, hct, chunks, hlen, hdata, hall⟩ := h
    refine ⟨md, hmeta ▸ hlook, hd, hstate, hsize, hct, chunks, hlen, hdata, fun i hi => ?_⟩
    rw [hchunks md hlook hd hstate i, hall i hi]

/-- A key that is neither metadata nor a chunk of an id before `T` does not matter. -/
structure Unrelated (T : ℕ) (key : Bytes) : Prop where
  meta_ne : ∀ b k, colon ∉ b → objectMetaKey b k ≠ key
  chunk_ne : ∀ b k (t : UInt64) i, t.toNat < T → chunkKey (makeObjectId b k t) i ≠ key

theorem Unrelated.of_family {key : Bytes} (hmeta : family key ≠ str "objmeta")
    (hchunk : family key ≠ str "objchun") : Unrelated T key :=
  ⟨fun _ _ _ => ne_of_family (by simpa using hmeta.symm),
    fun _ _ _ _ _ => ne_of_family (by simpa using hchunk.symm)⟩

/-- The chunks of a new id. -/
theorem Unrelated.chunkKey {t : UInt64} (ht : T ≤ t.toNat) (b k : Bytes) (i : ℕ) :
    Unrelated T (chunkKey (makeObjectId b k t) i) := by
  refine ⟨fun _ _ _ => objectMetaKey_ne_chunkKey _ _ _ _, fun b' k' t' i' ht' heq => ?_⟩
  have := makeObjectId_inj (chunkKey_inj heq).1
  subst this
  omega

theorem Stores.of_unrelated {key : Bytes} (h : Stores m T objects) (hkey : Unrelated T key)
    (hm' : ∀ k, k ≠ key → m'.lookup k = m.lookup k) : Stores m' T objects := by
  intro b k hb
  refine (h b k hb).congr (hm' _ (hkey.meta_ne b k hb)) ?_
  rintro md - hd - i
  obtain ⟨t, ht, hid⟩ := hd.objectId
  rw [hid]
  exact hm' _ (hkey.chunk_ne b k t i ht)

theorem Stores.insert_of_unrelated {key : Bytes} (h : Stores m T objects) (hkey : Unrelated T key)
    (v : Bytes) : Stores (m.insert key v) T objects :=
  h.of_unrelated hkey fun _ hk => Finmap.lookup_insert_of_ne m hk

theorem Stores.erase_of_unrelated {key : Bytes} (h : Stores m T objects) (hkey : Unrelated T key) :
    Stores (m.erase key) T objects :=
  h.of_unrelated hkey fun _ hk => Finmap.lookup_erase_ne hk

/-- New metadata for one object. -/
theorem Stores.insert_meta (h : Stores m T objects) (hb : colon ∉ b) {raw : Bytes}
    {v : Option (Bytes × Bytes)} (hv : Holds (m.insert (objectMetaKey b k) raw) T b k v) :
    Stores (m.insert (objectMetaKey b k) raw) T (Function.update objects (b, k) v) := by
  intro b' k' hb'
  by_cases heq : (b', k') = (b, k)
  · obtain ⟨rfl, rfl⟩ := Prod.mk.inj heq
    rwa [Function.update_self]
  · rw [Function.update_of_ne heq]
    refine (h b' k' hb').congr (Finmap.lookup_insert_of_ne m fun hkey => heq ?_) ?_
    · obtain ⟨rfl, rfl⟩ := objectMetaKey_inj hb' hb hkey
      rfl
    · rintro md - - - i
      exact Finmap.lookup_insert_of_ne m (objectMetaKey_ne_chunkKey _ _ _ _).symm

end KvEngine
