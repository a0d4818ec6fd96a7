import KvEngine.Object.Text

/-!
# Object metadata and the keys it is stored under

Model of `object_store_types.h`, of the text form of metadata in
`src/object_store.cpp`, and of `ObjectStoreKeyCodec`.

Results:
* `deserializeMetadata_serializeMetadata`, `metadata_roundTrip`: metadata without tabs reads
  back.
* `objectMetaKey_inj`, `chunkKey_inj`: different objects and chunks have different keys.
-/

namespace KvEngine

/-- `'\t'`. -/
def tab : UInt8 := 9

/-- `':'`. -/
def colon : UInt8 := 58

/-! ## Types -/

/-- `enum class ObjectState : std::uint8_t` (types, lines 25–29); a cast from an integer
can give it a value without a name. -/
inductive ObjectState where
  | pending
  | committed
  | deleted
  | unnamed (code : UInt8)
  deriving DecidableEq

/-- `static_cast<int>(state)`. -/
def ObjectState.code : ObjectState → UInt8
  | pending => 0
  | committed => 1
  | deleted => 2
  | unnamed c => c

/-- `static_cast<ObjectState>(i)`. -/
def ObjectState.ofInt (i : ℤ) : ObjectState :=
  let code := UInt8.ofNat (i % 256).toNat
  if code = 0 then pending
  else if code = 1 then committed
  else if code = 2 then deleted
  else unnamed code

/-- `struct BucketMetadata` (types, lines 13–16). -/
structure BucketMetadata where
  name : Bytes
  createdAtEpochMs : UInt64

/-- `struct ObjectMetadata` (types, lines 31–48) without `chunks`, which nothing uses. -/
structure ObjectMetadata where
  objectId : Bytes := []
  bucket : Bytes := []
  key : Bytes := []
  sizeBytes : UInt64 := 0
  chunkCount : UInt32 := 0
  chunkSizeBytes : UInt32 := 0
  contentType : Bytes := str "application/octet-stream"
  etag : Bytes := []
  createdAtEpochMs : UInt64 := 0
  updatedAtEpochMs : UInt64 := 0
  state : ObjectState := .committed

/-! ## Text form -/

/-- `serialize_metadata` (lines 50–64). -/
def serializeMetadata (m : ObjectMetadata) : Bytes :=
  joinFields tab [m.objectId, m.bucket, m.key, decimal m.sizeBytes.toNat,
    decimal m.chunkCount.toNat, decimal m.chunkSizeBytes.toNat, m.contentType, m.etag,
    decimal m.createdAtEpochMs.toNat, decimal m.updatedAtEpochMs.toNat,
    decimal m.state.code.toNat]

/-- `deserialize_metadata` (lines 66–105): eleven fields, six of them numbers. -/
def deserializeMetadata (s : Bytes) : Option ObjectMetadata :=
  match getlines tab 11 s with
  | some [objectId, bucket, key, sizeBytes, chunkCount, chunkSizeBytes, contentType, etag,
      createdAt, updatedAt, state] => do
    let sizeBytes ← stoull sizeBytes
    let chunkCount ← stoull chunkCount
    let chunkSizeBytes ← stoull chunkSizeBytes
    let createdAt ← stoull createdAt
    let updatedAt ← stoull updatedAt
    let state ← stoi state
    return {
      objectId := objectId
      bucket := bucket
      key := key
      sizeBytes := sizeBytes
      chunkCount := chunkCount.toUInt32
      chunkSizeBytes := chunkSizeBytes.toUInt32
      contentType := contentType
      etag := etag
      createdAtEpochMs := createdAt
      updatedAtEpochMs := updatedAt
      state := .ofInt state }
  | _ => none

/-- `serialize_bucket_meta` (lines 107–111). -/
def serializeBucketMeta (b : BucketMetadata) : Bytes :=
  joinFields tab [b.name, decimal b.createdAtEpochMs.toNat]

/-- What `serialize_metadata` assumes of the texts it is given. -/
structure ObjectMetadata.TabFree (m : ObjectMetadata) : Prop where
  objectId : tab ∉ m.objectId
  bucket : tab ∉ m.bucket
  key : tab ∉ m.key
  contentType : tab ∉ m.contentType
  etag : tab ∉ m.etag

theorem tab_not_mem_decimal (n : ℕ) : tab ∉ decimal n :=
  not_mem_radix (by norm_num) (by decide) n

theorem tab_not_mem_hex (n : ℕ) : tab ∉ hex n :=
  not_mem_radix (by norm_num) (by decide) n

theorem colon_not_mem_decimal (n : ℕ) : colon ∉ decimal n :=
  not_mem_radix (by norm_num) (by decide) n

/-- A named state survives the round trip through its code. -/
theorem ObjectState.ofInt_code (s : ObjectState) (h : ∀ c, s ≠ unnamed c) :
    ObjectState.ofInt (s.code.toNat : ℤ) = s := by
  cases s with
  | pending => decide
  | committed => decide
  | deleted => decide
  | unnamed c => exact absurd rfl (h c)

/-- Metadata without tabs reads back. -/
theorem deserializeMetadata_serializeMetadata {m : ObjectMetadata} (h : m.TabFree)
    (hstate : ∀ c, m.state ≠ .unnamed c) :
    deserializeMetadata (serializeMetadata m) = some m := by
  have hcode : m.state.code.toNat < 2 ^ 31 := by
    have := m.state.code.toNat_lt
    omega
  have h32 : ∀ x : UInt32, stoull (decimal x.toNat) = some x.toUInt64 := fun x => by
    rw [← UInt32.toNat_toUInt64]
    exact stoull_decimal _
  have hfields : getlines tab 11 (serializeMetadata m) = some [m.objectId, m.bucket, m.key,
      decimal m.sizeBytes.toNat, decimal m.chunkCount.toNat, decimal m.chunkSizeBytes.toNat,
      m.contentType, m.etag, decimal m.createdAtEpochMs.toNat, decimal m.updatedAtEpochMs.toNat,
      decimal m.state.code.toNat] := by
    refine getlines_joinFields [_, _, _, _, _, _, _, _, _, _, _] ?_ ?_
    · simp [h.objectId, h.bucket, h.key, h.contentType, h.etag, tab_not_mem_decimal]
    · simp [decimal_ne_nil]
  unfold deserializeMetadata
  rw [hfields]
  simp only [stoull_decimal, h32, stoi_decimal hcode, ObjectState.ofInt_code _ hstate,
    UInt32.toUInt32_toUInt64, Option.bind_eq_bind, Option.bind_some]
  rfl

/-- **Metadata reads back**, and no two metadata have one text. What `serialize_metadata`
assumes is needed only of tabs: texts may be empty and hold newlines and colons. -/
theorem metadata_roundTrip {m : ObjectMetadata} (h : m.TabFree)
    (hstate : ∀ c, m.state ≠ .unnamed c) :
    deserializeMetadata (serializeMetadata m) = some m ∧
      ∀ m' : ObjectMetadata, m'.TabFree → (∀ c, m'.state ≠ .unnamed c) →
        serializeMetadata m' = serializeMetadata m → m' = m := by
  have hread := deserializeMetadata_serializeMetadata h hstate
  refine ⟨hread, fun m' h' hstate' htext => ?_⟩
  have hread' := deserializeMetadata_serializeMetadata h' hstate'
  rw [htext, hread] at hread'
  exact (Option.some.inj hread').symm

/-- Empty texts, a newline, a colon and the largest numbers. -/
theorem metadata_roundTrip_limits :
    let m : ObjectMetadata := {
      objectId := [], bucket := str "a:b", key := str "c\nd", contentType := [], etag := []
      sizeBytes := 2 ^ 64 - 1, chunkCount := 2 ^ 32 - 1, chunkSizeBytes := 2 ^ 32 - 1
      createdAtEpochMs := 2 ^ 64 - 1, updatedAtEpochMs := 0, state := .pending }
    deserializeMetadata (serializeMetadata m) = some m ∧
      ∀ m' : ObjectMetadata, m'.TabFree → (∀ c, m'.state ≠ .unnamed c) →
        serializeMetadata m' = serializeMetadata m → m' = m :=
  metadata_roundTrip ⟨by decide, by decide, by decide, by decide, by decide⟩ (by rintro c ⟨⟩)

/-- Metadata that was read has no tabs. -/
theorem tabFree_of_deserializeMetadata {raw : Bytes} {md : ObjectMetadata}
    (h : deserializeMetadata raw = some md) : md.TabFree := by
  unfold deserializeMetadata at h
  split at h
  · rename_i hfields
    have hfree := not_mem_of_getlines hfields
    simp only [Option.bind_eq_bind, Option.bind_eq_some_iff] at h
    obtain ⟨_, _, _, _, _, _, _, _, _, _, _, _, hmd⟩ := h
    obtain rfl := Option.some.inj hmd
    constructor <;> exact hfree _ (by simp)
  · simp at h

/-- Marking an object as deleted writes no text. -/
theorem ObjectMetadata.TabFree.deleted {m : ObjectMetadata} (h : m.TabFree) (nowMs : UInt64) :
    ObjectMetadata.TabFree { m with state := .deleted, updatedAtEpochMs := nowMs } :=
  ⟨h.objectId, h.bucket, h.key, h.contentType, h.etag⟩

/-- What was read and marked as deleted reads back. -/
theorem deserializeMetadata_deleted {raw : Bytes} {md : ObjectMetadata}
    (h : deserializeMetadata raw = some md) (nowMs : UInt64) :
    deserializeMetadata
        (serializeMetadata { md with state := .deleted, updatedAtEpochMs := nowMs }) =
      some { md with state := .deleted, updatedAtEpochMs := nowMs } := by
  refine deserializeMetadata_serializeMetadata ((tabFree_of_deserializeMetadata h).deleted nowMs) ?_
  rintro c ⟨⟩

/-! ## Keys -/

/-- `BucketMetaKey` (codec, lines 11–13). -/
def bucketMetaKey (bucket : Bytes) : Bytes := str "bucket:" ++ bucket

/-- `ObjectMetaKey` (codec, lines 15–17). -/
def objectMetaKey (bucket key : Bytes) : Bytes := str "objmeta:" ++ (bucket ++ colon :: key)

/-- `BucketIndexKey` (codec, lines 19–21). -/
def bucketIndexKey (bucket key : Bytes) : Bytes := str "bucketidx:" ++ (bucket ++ colon :: key)

/-- `ChunkKey` (codec, lines 23–25). -/
def chunkKey (objectId : Bytes) (index : ℕ) : Bytes :=
  str "objchunk:" ++ (objectId ++ colon :: decimal index)

/-- `make_object_id` (lines 38–42) at the clock reading `nowMs`. -/
def makeObjectId (bucket key : Bytes) (nowMs : UInt64) : Bytes :=
  bucket ++ colon :: (key ++ colon :: decimal nowMs.toNat)

/-- What stands before the first of the given bytes is determined, and what is behind. -/
theorem append_cons_inj {x : UInt8} {a a' b b' : Bytes} (ha : x ∉ a) (ha' : x ∉ a')
    (h : a ++ x :: b = a' ++ x :: b') : a = a' ∧ b = b' := by
  have hget := getline_append ha b
  rw [h, getline_append ha' b'] at hget
  obtain ⟨rfl, rfl⟩ := Prod.mk.inj (Option.some.inj hget)
  exact ⟨rfl, rfl⟩

/-- And so is what stands before and behind the last one. -/
theorem append_cons_inj' {x : UInt8} {a a' b b' : Bytes} (hb : x ∉ b) (hb' : x ∉ b')
    (h : a ++ x :: b = a' ++ x :: b') : a = a' ∧ b = b' := by
  have hrev := congrArg List.reverse h
  simp only [List.reverse_append, List.reverse_cons, List.append_assoc, List.singleton_append]
    at hrev
  obtain ⟨hb, ha⟩ := append_cons_inj (by simpa using hb) (by simpa using hb') hrev
  exact ⟨List.reverse_injective ha, List.reverse_injective hb⟩

theorem decimal_inj {n n' : ℕ} (h : decimal n = decimal n') : n = n' := by
  rw [← digitsValue_decimal n, h, digitsValue_decimal]

theorem objectMetaKey_inj {b b' k k' : Bytes} (hb : colon ∉ b) (hb' : colon ∉ b')
    (h : objectMetaKey b k = objectMetaKey b' k') : b = b' ∧ k = k' :=
  append_cons_inj hb hb' (List.append_cancel_left h)

theorem bucketIndexKey_inj {b b' k k' : Bytes} (hb : colon ∉ b) (hb' : colon ∉ b')
    (h : bucketIndexKey b k = bucketIndexKey b' k') : b = b' ∧ k = k' :=
  append_cons_inj hb hb' (List.append_cancel_left h)

theorem chunkKey_inj {id id' : Bytes} {i i' : ℕ} (h : chunkKey id i = chunkKey id' i') :
    id = id' ∧ i = i' := by
  obtain ⟨hid, hi⟩ := append_cons_inj' (colon_not_mem_decimal _) (colon_not_mem_decimal _)
    (List.append_cancel_left h)
  exact ⟨hid, decimal_inj hi⟩

/-- Object ids of different clock readings differ. -/
theorem makeObjectId_inj {b b' k k' : Bytes} {t t' : UInt64}
    (h : makeObjectId b k t = makeObjectId b' k' t') : t = t' := by
  unfold makeObjectId at h
  rw [← List.cons_append, ← List.append_assoc, ← List.cons_append, ← List.append_assoc] at h
  obtain ⟨-, ht⟩ := append_cons_inj' (colon_not_mem_decimal _) (colon_not_mem_decimal _) h
  exact UInt64.toNat_inj.mp (decimal_inj ht)

end KvEngine
