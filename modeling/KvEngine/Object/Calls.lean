import KvEngine.Object.Representation

/-!
# What the object store's methods do to a map

One lemma for each loop and each method: what it returns, which keys it writes, and that
the objects a map stands for are there after each of its calls on the store.

Results:
* `getsObject_value`, `Represents.listsObjects`: reads give what the map stands for.
* `Represents.putObject`, `Represents.deleteObject`, `Represents.garbageCollectChunks`: writes
  make of it what they should, and keep whole objects at every point.
-/

namespace KvEngine

open KvProg ObjectStore

variable {s : ObjectStore} {m : Map} {T : ℕ} {b k : Bytes}
  {objects : Bytes × Bytes → Option (Bytes × Bytes)}

/-! ## Chunks -/

theorem ObjectStore.chunkSize_pos (s : ObjectStore) : 0 < s.chunkSize := by
  have hne := s.chunkSize_ne
  rw [Ne, ← UInt32.toNat_inj] at hne
  exact Nat.pos_of_ne_zero hne

theorem chunkValue_eq (data : Bytes) (i : ℕ) :
    s.chunkValue data i = (data.drop (i * s.chunkSize)).take s.chunkSize := by
  rw [chunkValue, List.take_eq_take_iff, List.length_drop]
  omega

/-- The first `n` chunks are the first `n * chunkSize` bytes. -/
theorem flatten_chunkValue (data : Bytes) (n : ℕ) :
    ((List.range n).map (s.chunkValue data)).flatten = data.take (n * s.chunkSize) := by
  induction n with
  | zero => simp
  | succ n ih =>
    rw [List.range_succ, List.map_append, List.flatten_append, ih, Nat.succ_mul, List.take_add]
    simp [chunkValue_eq]

/-- Every byte is in one of the chunks. -/
theorem ObjectStore.length_le_chunks (s : ObjectStore) (total : ℕ) :
    total ≤ (total + s.chunkSize - 1) / s.chunkSize * s.chunkSize := by
  have hpos := s.chunkSize_pos
  have hdiv := Nat.div_add_mod (total + s.chunkSize - 1) s.chunkSize
  have hmod := Nat.mod_lt (total + s.chunkSize - 1) hpos
  rw [Nat.mul_comm] at hdiv
  omega

/-- An object with fewer than `2^32` chunks. -/
theorem chunkCount_toNat {total : ℕ} (h : (total + s.chunkSize - 1) / s.chunkSize < 2 ^ 32) :
    (s.chunkCount total).toNat = (total + s.chunkSize - 1) / s.chunkSize :=
  UInt32.toNat_ofNat_of_lt' h

/-- Its size fits 64 bits. -/
theorem size_toNat {total : ℕ} (h : (total + s.chunkSize - 1) / s.chunkSize < 2 ^ 32) :
    (UInt64.ofNat total).toNat = total := by
  apply UInt64.toNat_ofNat_of_lt'
  have hle := s.length_le_chunks total
  have hsize : s.chunkSize < 2 ^ 32 := s.chunkSizeBytes.toNat_lt
  show total < 2 ^ 64
  nlinarith

/-! ## Writing and reading chunks -/

variable (id data : Bytes) (is : List ℕ)

theorem lookup_writeChunks_of_ne {key : Bytes} (h : ∀ i ∈ is, key ≠ chunkKey id i) :
    ((s.writeChunks id data is).after m).lookup key = m.lookup key := by
  induction is generalizing m with
  | nil => rfl
  | cons i is ih =>
    rw [writeChunks, after_bind, after_kvPut, ih fun j hj => h j (List.mem_cons_of_mem i hj),
      Finmap.lookup_insert_of_ne m (h i List.mem_cons_self)]

/-- Chunks are written to keys of their family only. -/
theorem lookup_writeChunks_of_family {key : Bytes} (h : family key ≠ str "objchun") :
    ((s.writeChunks id data is).after m).lookup key = m.lookup key := by
  refine lookup_writeChunks_of_ne id data is fun i _ => ne_of_family ?_
  rwa [family_chunkKey]

theorem lookup_writeChunks {i : ℕ} (h : i ∈ is) :
    ((s.writeChunks id data is).after m).lookup (chunkKey id i) = some (s.chunkValue data i) := by
  induction is generalizing m with
  | nil => simp at h
  | cons j is ih =>
    rw [writeChunks, after_bind, after_kvPut]
    by_cases hi : i ∈ is
    · exact ih hi
    · obtain rfl : i = j := by simpa [hi] using h
      rw [lookup_writeChunks_of_ne, Finmap.lookup_insert]
      intro j hj heq
      exact hi ((chunkKey_inj heq).2 ▸ hj)

theorem always_writeChunks {Q : Map → Prop} (h : Q m)
    (hput : ∀ m i, Q m → Q (m.insert (chunkKey id i) (s.chunkValue data i))) :
    Always Q (s.writeChunks id data is) m := by
  induction is generalizing m with
  | nil => exact .of_ops_nil rfl h
  | cons i is ih => exact .bind (.kvPut h (hput m i h)) (ih (hput m i h))

/-- The chunks of the data make up the data. -/
theorem hasChunks_of_chunkValue (h : (data.length + s.chunkSize - 1) / s.chunkSize < 2 ^ 32)
    (hall : ∀ i < (s.chunkCount data.length).toNat,
      m.lookup (chunkKey id i) = some (s.chunkValue data i)) :
    HasChunks m id (s.chunkCount data.length).toNat data := by
  refine ⟨(List.range (s.chunkCount data.length).toNat).map (s.chunkValue data), by simp, ?_, ?_⟩
  · rw [flatten_chunkValue, chunkCount_toNat h]
    exact List.take_of_length_le (s.length_le_chunks _)
  · intro i hi
    rw [hall i hi]
    simp [hi]

/-- What was written is there. -/
theorem hasChunks_writeChunks (h : (data.length + s.chunkSize - 1) / s.chunkSize < 2 ^ 32) :
    HasChunks ((s.writeChunks id data (List.range (s.chunkCount data.length).toNat)).after m) id
      (s.chunkCount data.length).toNat data :=
  hasChunks_of_chunkValue id data h fun _ hi =>
    lookup_writeChunks id data _ (List.mem_range.mpr hi)

theorem ops_readChunks : (readChunks id is data).ops m = [] := by
  induction is generalizing data with
  | nil => rfl
  | cons i is ih =>
    rw [readChunks, ops_bind, ops_kvGet, value_kvGet, after_kvGet]
    cases m.lookup (chunkKey id i) with
    | none => rfl
    | some c => exact ih (data ++ c)

theorem value_readChunks {f : ℕ → Bytes} (h : ∀ i ∈ is, m.lookup (chunkKey id i) = some (f i)) :
    (readChunks id is data).value m = .ok (data ++ (is.map f).flatten) := by
  induction is generalizing data with
  | nil => simp [readChunks]
  | cons i is ih =>
    rw [readChunks, value_bind, value_kvGet, after_kvGet, h i (by simp)]
    show (readChunks id is (data ++ f i)).value m = _
    rw [ih _ fun j hj => h j (List.mem_cons_of_mem i hj)]
    simp

/-- Chunks that are there are read back. -/
theorem HasChunks.read {n : ℕ} (h : HasChunks m id n data) :
    (readChunks id (List.range n) []).value m = .ok data := by
  obtain ⟨chunks, hlen, hdata, hall⟩ := h
  have hget : ∀ i ∈ List.range n, m.lookup (chunkKey id i) = some (chunks.getD i []) := by
    intro i hi
    have hi := List.mem_range.mp hi
    rw [hall i hi, List.getElem?_eq_getElem (by omega), List.getD_eq_getElem]
  rw [value_readChunks id [] _ hget, List.nil_append]
  congr 1
  rw [← hdata]
  congr 1
  apply List.ext_getElem
  · simp [hlen]
  · intro i hi hi'
    simp [hi']

/-! ## Reading an object -/

/-- Metadata with a named state is read back from the map. -/
theorem Describes.deserialize {md : ObjectMetadata} (h : Describes T b k md)
    (hstate : md.state = .committed ∨ md.state = .deleted) :
    deserializeMetadata (serializeMetadata md) = some md := by
  refine deserializeMetadata_serializeMetadata h.tabFree fun c hc => ?_
  rw [hc] at hstate
  simp at hstate

theorem Describes.objectId_ne {md : ObjectMetadata} (h : Describes T b k md) :
    md.objectId ≠ [] := by
  obtain ⟨t, -, hid⟩ := h.objectId
  rw [hid]
  simp [makeObjectId]

theorem ops_getObject : (getObject b k).ops m = [] := by
  rw [getObject, ops_bind, ops_kvGet, value_kvGet, after_kvGet, List.nil_append]
  cases m.lookup (objectMetaKey b k) with
  | none => rfl
  | some raw =>
    dsimp only
    cases deserializeMetadata raw with
    | none => rfl
    | some md =>
      dsimp only
      split_ifs
      · rfl
      · rw [ops_bind, ops_readChunks, List.nil_append]
        cases (readChunks md.objectId (List.range md.chunkCount.toNat) []).value m <;> rfl

/-- `GetObject` returns the object the map stands for. -/
theorem getsObject_value {v : Option (Bytes × Bytes)} (h : Holds m T b k v) :
    ObjectMap.GetsObject v ((getObject b k).value m) := by
  rw [getObject, value_bind, value_kvGet, after_kvGet]
  cases v with
  | none =>
    obtain hnone | ⟨md, hlook, hd, hstate⟩ := h
    · rw [hnone]
      exact ⟨rfl, by simp⟩
    · rw [hlook]
      dsimp only
      rw [hd.deserialize (.inr hstate)]
      dsimp only
      rw [if_pos hstate]
      exact ⟨rfl, by simp⟩
  | some v =>
    obtain ⟨data, ct⟩ := v
    obtain ⟨md, hlook, hd, hstate, hsize, hct, hchunks⟩ := h
    rw [hlook]
    dsimp only
    rw [hd.deserialize (.inl hstate)]
    dsimp only
    rw [if_neg (by simp [hstate]), value_bind, hchunks.read]
    refine ⟨rfl, ?_⟩
    rintro _ _ ⟨⟩
    exact ⟨rfl, hsize, hct⟩

/-! ## Listing -/

theorem mem_listKeysWithPrefix {order : List Entry} (horder : Enumerates order m)
    {pfx key : Bytes} :
    key ∈ KVStore.listKeysWithPrefix order pfx ↔ pfx <+: key ∧ (m.lookup key).isSome := by
  rw [KVStore.listKeysWithPrefix, List.mem_filter, List.isPrefixOf_iff_prefix, and_comm]
  refine and_congr_right fun _ => ?_
  rw [Option.isSome_iff_exists, List.mem_map]
  constructor
  · rintro ⟨⟨key, v⟩, hmem, rfl⟩
    exact ⟨v, horder.mem_iff.mp hmem⟩
  · rintro ⟨v, hv⟩
    exact ⟨⟨key, v⟩, horder.mem_iff.mpr hv, rfl⟩

theorem nodup_listKeysWithPrefix {order : List Entry} (horder : Enumerates order m)
    (pfx : Bytes) : (KVStore.listKeysWithPrefix order pfx).Nodup :=
  List.Nodup.filter _ horder.nodupKeys

theorem bucketIndexKey_injective (b : Bytes) : Function.Injective (bucketIndexKey b) := by
  intro k k' h
  simpa [bucketIndexKey] using h

/-- The index keys of a listing name each object key of the index with the prefix once. -/
theorem exists_indexKeys {order : List Entry} (horder : Enumerates order m) (b pfx : Bytes) :
    ∃ ks : List Bytes, KVStore.listKeysWithPrefix order (bucketIndexKey b pfx) =
      ks.map (bucketIndexKey b) ∧ ks.Nodup ∧
        ∀ k, k ∈ ks ↔ pfx <+: k ∧ (m.lookup (bucketIndexKey b k)).isSome := by
  have hpre : ∀ k, bucketIndexKey b pfx <+: bucketIndexKey b k ↔ pfx <+: k := by
    intro k
    simp [bucketIndexKey, List.prefix_append_right_inj, List.cons_prefix_cons]
  have hrange : KVStore.listKeysWithPrefix order (bucketIndexKey b pfx) ∈
      Set.range (List.map (bucketIndexKey b)) := by
    rw [Set.range_list_map]
    intro key hkey
    obtain ⟨⟨r, rfl⟩, -⟩ := (mem_listKeysWithPrefix horder).mp hkey
    exact ⟨pfx ++ r, by simp [bucketIndexKey]⟩
  obtain ⟨ks, hks⟩ := hrange
  refine ⟨ks, hks.symm, ?_, fun k => ?_⟩
  · apply List.Nodup.of_map (bucketIndexKey b)
    rw [hks]
    exact nodup_listKeysWithPrefix horder _
  · rw [← List.mem_map_of_injective (bucketIndexKey_injective b), hks,
      mem_listKeysWithPrefix horder, hpre]

/-- The entry `ListObjects` makes of one object key. -/
def listedEntry (m : Map) (b k : Bytes) : Option ObjectListEntry :=
  match (m.lookup (objectMetaKey b k)).bind deserializeMetadata with
  | none => none
  | some md =>
    if md.state = .deleted then none
    else some ⟨md.key, md.sizeBytes, md.contentType, md.etag, md.updatedAtEpochMs⟩

theorem listEntries_eq (b : Bytes) (ks : List Bytes) :
    (listEntries b (str "bucketidx:" ++ b ++ str ":") (ks.map (bucketIndexKey b))).ops m = [] ∧
      (listEntries b (str "bucketidx:" ++ b ++ str ":") (ks.map (bucketIndexKey b))).value m =
        ks.filterMap (listedEntry m b) := by
  induction ks with
  | nil => exact ⟨rfl, rfl⟩
  | cons k ks ih =>
    have hkey : bucketIndexKey b k = (str "bucketidx:" ++ b ++ str ":") ++ k := by
      simp [bucketIndexKey, show str ":" = [colon] from rfl]
    have hlen : ¬ (bucketIndexKey b k).length < (str "bucketidx:" ++ b ++ str ":").length := by
      simp [hkey]
    rw [List.map_cons, listEntries, if_neg hlen, hkey, List.drop_left, List.filterMap_cons,
      listedEntry, ops_bind, value_bind, ops_kvGet, value_kvGet, after_kvGet, List.nil_append]
    cases (m.lookup (objectMetaKey b k)).bind deserializeMetadata with
    | none => exact ih
    | some md =>
      dsimp only
      split_ifs
      · exact ih
      · rw [ops_bind, value_bind, ih.1, ih.2]
        exact ⟨rfl, rfl⟩

theorem Holds.listedEntry_none (h : Holds m T b k none) : listedEntry m b k = none := by
  unfold listedEntry
  obtain hnone | ⟨md, hlook, hd, hstate⟩ := h
  · rw [hnone]
    rfl
  · rw [hlook, Option.bind_some, hd.deserialize (.inr hstate)]
    exact if_pos hstate

/-- An object that is there is listed, with its key, size and type. -/
theorem Holds.listedEntry_some {data ct : Bytes} (h : Holds m T b k (some (data, ct))) :
    ∃ e, listedEntry m b k = some e ∧ e.key = k ∧ e.sizeBytes.toNat = data.length ∧
      e.contentType = ct := by
  unfold listedEntry
  obtain ⟨md, hlook, hd, hstate, hsize, hct, -⟩ := h
  rw [hlook, Option.bind_some, hd.deserialize (.inl hstate)]
  exact ⟨_, if_neg (by simp [hstate]), hd.key, hsize, hct⟩

/-- What is listed is an object. -/
theorem Stores.of_listedEntry (h : Stores m T objects) (hb : colon ∉ b) {e : ObjectListEntry}
    (he : listedEntry m b k = some e) :
    ∃ data ct, objects (b, k) = some (data, ct) ∧ e.key = k ∧ e.sizeBytes.toNat = data.length ∧
      e.contentType = ct := by
  have hk := h b k hb
  cases hv : objects (b, k) with
  | none =>
    rw [hv] at hk
    rw [hk.listedEntry_none] at he
    simp at he
  | some v =>
    obtain ⟨data, ct⟩ := v
    rw [hv] at hk
    obtain ⟨e', he', hrest⟩ := hk.listedEntry_some
    obtain rfl : e = e' := Option.some.inj (he.symm.trans he')
    exact ⟨data, ct, rfl, hrest⟩

/-- The listing of a bucket is the objects of that bucket with the prefix. -/
theorem Represents.listsObjects {A : ObjectMap} (h : Represents m T A) (hb : colon ∉ b)
    {order : List Entry} (horder : Enumerates order m) (pfx : Bytes) :
    (listObjects b pfx order).ops m = [] ∧
      A.ListsObjects b pfx ((listObjects b pfx order).value m) := by
  have hbucket := h.buckets b
  have hmissing : b ∉ A.buckets → ∀ r : ListObjectsResult, r.ok = false → r.objects = [] →
      A.ListsObjects b pfx r := by
    intro hnot r hok hr
    refine ⟨by simp [hok, hnot], by simp [hr], fun k size ct => ?_⟩
    constructor
    · rintro ⟨e, he, -⟩
      simp [hr] at he
    · rintro ⟨data, hsome, -⟩
      exact absurd (A.mem_of_object b k (by simp [hsome])) hnot
  by_cases hnil : b = []
  · rw [listObjects, if_pos hnil]
    exact ⟨rfl, hmissing (hnil ▸ A.nil_notMem) _ rfl rfl⟩
  rw [listObjects, if_neg hnil, bucketExists, if_neg hnil]
  simp only [ops_bind, value_bind, after_bind, ops_kvGet, value_kvGet, after_kvGet, ops_pure,
    value_pure, after_pure, List.nil_append, hbucket]
  by_cases hmem : b ∈ A.buckets
  · obtain ⟨ks, hkeys, hnodup, hks⟩ := exists_indexKeys horder b pfx
    obtain ⟨hops, hvalue⟩ := listEntries_eq (m := m) b ks
    simp only [hmem, decide_true, if_true, ops_bind, value_bind, ops_kvList, value_kvList,
      after_kvList, List.nil_append, hkeys, hops, hvalue, ops_pure, value_pure, true_and]
    refine ⟨by simp [hmem], ?_, fun k size ct => ?_⟩
    · rw [List.map_filterMap]
      refine List.Nodup.filterMap (fun k k' x hx hx' => ?_) hnodup
      obtain ⟨e, he, rfl⟩ := Option.map_eq_some_iff.mp hx
      obtain ⟨e', he', heq⟩ := Option.map_eq_some_iff.mp hx'
      obtain ⟨-, -, -, hk, -⟩ := h.objects.of_listedEntry hb he
      obtain ⟨-, -, -, hk', -⟩ := h.objects.of_listedEntry hb he'
      rw [← hk, ← hk', heq]
    · simp only [List.mem_filterMap]
      constructor
      · rintro ⟨e, ⟨k', hk', he⟩, hkey, hsize, hct⟩
        obtain ⟨data, ct', hobj, hkey', hsize', hct'⟩ := h.objects.of_listedEntry hb he
        obtain rfl : k' = k := hkey'.symm.trans hkey
        obtain rfl : ct' = ct := hct'.symm.trans hct
        exact ⟨data, hobj, hsize'.symm.trans hsize, ((hks k').mp hk').1⟩
      · rintro ⟨data, hobj, hsize, hpfx⟩
        have hk := h.objects b k hb
        rw [hobj] at hk
        obtain ⟨e, he, hkey, hsize', hct⟩ := hk.listedEntry_some
        have hindex := h.index b k hb (by simp [hobj])
        exact ⟨e, ⟨k, (hks k).mpr ⟨hpfx, hindex⟩, he⟩, hkey, hsize'.trans hsize, hct⟩
  · simp only [hmem, decide_false, Bool.false_eq_true, if_false, ops_pure, value_pure, true_and]
    exact hmissing hmem _ rfl rfl

/-! ## Garbage collection -/

theorem ops_reachableObjectIds (keys : List Bytes) : (reachableObjectIds keys).ops m = [] := by
  induction keys with
  | nil => rfl
  | cons key keys ih =>
    rw [reachableObjectIds, ops_bind, ops_kvGet, value_kvGet, after_kvGet, List.nil_append]
    cases (m.lookup key).bind deserializeMetadata with
    | none => exact ih
    | some md =>
      dsimp only
      rw [ops_bind, ih, List.nil_append]
      split_ifs <;> rfl

/-- The ids of committed metadata are reachable. -/
theorem mem_reachableObjectIds {keys : List Bytes} {key : Bytes} {md : ObjectMetadata}
    (hkey : key ∈ keys) (hmd : (m.lookup key).bind deserializeMetadata = some md)
    (hstate : md.state = .committed) : md.objectId ∈ (reachableObjectIds keys).value m := by
  induction keys with
  | nil => simp at hkey
  | cons key' keys ih =>
    rw [reachableObjectIds, value_bind, value_kvGet, after_kvGet]
    rcases List.mem_cons.mp hkey with rfl | hkey
    · rw [hmd]
      dsimp only
      rw [value_bind, if_pos hstate]
      exact List.mem_cons_self
    · have hrest := ih hkey
      cases (m.lookup key').bind deserializeMetadata with
      | none => exact hrest
      | some md' =>
        dsimp only
        rw [value_bind, after, ops_reachableObjectIds, applyOps_nil]
        split_ifs
        · exact List.mem_cons_of_mem _ hrest
        · exact hrest

theorem rfindColon_append {x y : Bytes} (hy : colon ∉ y) :
    rfindColon (x ++ colon :: y) = some x.length := by
  have hidx : (x ++ colon :: y).reverse.idxOf colon = y.length := by
    rw [List.reverse_append, List.reverse_cons, List.append_assoc,
      List.idxOf_append_of_notMem (by simpa using hy), List.length_reverse]
    rfl
  rw [rfindColon, if_pos (by simp), hidx, List.length_append, List.length_cons]
  congr 1
  omega

/-- The collector finds the object id in a chunk's key. -/
theorem chunkObjectId_chunkKey {id : Bytes} (hid : id ≠ []) (i : ℕ) :
    chunkObjectId (chunkKey id i) = some id := by
  have hpos := List.length_pos_iff.mpr hid
  have hfind : rfindColon (chunkKey id i) = some ((str "objchunk:").length + id.length) := by
    rw [chunkKey, ← List.append_assoc, rfindColon_append (colon_not_mem_decimal i),
      List.length_append]
  have hnot : ¬ (str "objchunk:").length + id.length ≤ (str "objchunk:").length := by omega
  rw [chunkObjectId, hfind]
  dsimp only
  rw [if_neg hnot, chunkKey, List.drop_left, Nat.add_sub_cancel_left, List.take_left]

/-- Deletions of chunks of unreachable ids, one after the other. -/
theorem always_deleteUnreachable {Q : Map → Prop} {reachable keys : List Bytes} (h : Q m)
    (hdel : ∀ m, ∀ key ∈ keys, ∀ id ∉ reachable, chunkObjectId key = some id → Q m →
      Q (m.erase key)) :
    Always Q (deleteUnreachable reachable keys) m := by
  induction keys generalizing m with
  | nil => exact .of_ops_nil rfl h
  | cons key keys ih =>
    have hrest : ∀ m, Q m → Always Q (deleteUnreachable reachable keys) m := fun m hm =>
      ih hm fun m key' hkey' => hdel m key' (List.mem_cons_of_mem key hkey')
    rw [deleteUnreachable]
    cases hid : chunkObjectId key with
    | none => exact hrest m h
    | some id =>
      dsimp only
      split_ifs with hmem
      · exact hrest m h
      · have herase := hdel m key List.mem_cons_self id hmem hid h
        exact .bind (.kvDel h herase)
          (.bind (hrest _ herase) (.of_ops_nil rfl (hrest _ herase).after))

/-- A collection only erases chunks of ids that no committed metadata has. -/
theorem always_collect {Q : Map → Prop} (hm : Q m) {order : List Entry}
    (horder : Enumerates order m)
    (hdel : ∀ m' key id, Q m' → str "objchunk:" <+: key → chunkObjectId key = some id →
      (∀ b k md, m.lookup (objectMetaKey b k) = some (serializeMetadata md) →
        deserializeMetadata (serializeMetadata md) = some md → md.state = .committed →
          md.objectId ≠ id) → Q (m'.erase key)) :
    Always Q (garbageCollectChunks order) m := by
  set reachable := (reachableObjectIds (KVStore.listKeysWithPrefix order (str "objmeta:"))).value m
    with hreachable
  have hlive : ∀ id ∉ reachable, ∀ b k md,
      m.lookup (objectMetaKey b k) = some (serializeMetadata md) →
        deserializeMetadata (serializeMetadata md) = some md → md.state = .committed →
          md.objectId ≠ id := by
    -- live metadata was read by the first scan, so its id is reachable
    rintro id hid b k md hmeta hread hstate rfl
    refine hid (@mem_reachableObjectIds _ _ (objectMetaKey b k) _ ?_ ?_ hstate)
    · rw [mem_listKeysWithPrefix horder, hmeta]
      exact ⟨List.prefix_append _ _, rfl⟩
    · rw [hmeta, Option.bind_some, hread]
  have hafter : (reachableObjectIds (KVStore.listKeysWithPrefix order (str "objmeta:"))).after m =
      m := by
    rw [after, ops_reachableObjectIds, applyOps_nil]
  have hdeleted : Always Q (deleteUnreachable reachable
      (KVStore.listKeysWithPrefix order (str "objchunk:"))) m := by
    refine always_deleteUnreachable hm fun m' key hkey id hid hkeyId hm' => ?_
    exact hdel m' key id hm' ((mem_listKeysWithPrefix horder).mp hkey).1 hkeyId (hlive id hid)
  refine .bind (.of_ops_nil rfl hm) (.bind (.of_ops_nil (ops_reachableObjectIds _) hm) ?_)
  rw [after_kvList, value_kvList, hafter, ← hreachable]
  refine .bind (.of_ops_nil rfl hm) (.bind hdeleted (.bind (.kvFlushWal hdeleted.after) ?_))
  exact .of_ops_nil rfl hdeleted.after

/-- A collection keeps every object the map stands for, and all that is no chunk. -/
theorem always_garbageCollectChunks (h : Stores m T objects) {order : List Entry}
    (horder : Enumerates order m) :
    Always (fun m' => Stores m' T objects ∧
      ∀ key, ¬ str "objchunk:" <+: key → m'.lookup key = m.lookup key)
      (garbageCollectChunks order) m := by
  refine always_collect ⟨h, fun _ _ => rfl⟩ horder ?_
  rintro m' key id ⟨hstores, hsame⟩ hchunk hkeyId hlive
  have hne : ∀ key', family key' ≠ str "objchun" → key' ≠ key := by
    rintro key' hkey' rfl
    exact hkey' (family_of_objchunk hchunk)
  refine ⟨fun b k hb => (hstores b k hb).congr ?_ ?_, fun key' hkey' => ?_⟩
  · exact Finmap.lookup_erase_ne (hne _ (by rw [family_objectMetaKey]; decide))
  · rintro md hlook hd hstate i
    refine Finmap.lookup_erase_ne ?_
    rintro rfl
    rw [chunkObjectId_chunkKey hd.objectId_ne] at hkeyId
    have hmeta : m.lookup (objectMetaKey b k) = some (serializeMetadata md) := by
      rw [← hsame _ (fun hpre => ?_), hlook]
      have := family_of_objchunk hpre
      rw [family_objectMetaKey] at this
      exact absurd this (by decide)
    exact hlive b k md hmeta (hd.deserialize (.inl hstate)) hstate (Option.some.inj hkeyId)
  · rw [← hsame key' hkey', Finmap.lookup_erase_ne]
    rintro rfl
    exact hkey' hchunk

/-! ## Buckets -/

theorem bucketExists_eq (hb : b ≠ []) :
    (bucketExists b).value m = (m.lookup (bucketMetaKey b)).isSome ∧
      (bucketExists b).ops m = [] := by
  rw [bucketExists, if_neg hb]
  exact ⟨rfl, rfl⟩

theorem bucketMetaKey_inj {b b' : Bytes} (h : bucketMetaKey b = bucketMetaKey b') : b = b' :=
  List.append_cancel_left h

/-- A new bucket. -/
theorem Represents.insert_bucket {A : ObjectMap} (h : Represents m T A) (hb : b ≠ [])
    (raw : Bytes) : Represents (m.insert (bucketMetaKey b) raw) T (A.createBucket b) := by
  rw [ObjectMap.createBucket, dif_neg hb]
  refine ⟨fun b' => ?_, h.objects.insert_of_unrelated (.of_family ?_ ?_) raw, ?_⟩
  · show _ = decide (b' ∈ insert b A.buckets)
    by_cases heq : b' = b
    · subst heq
      rw [Finmap.lookup_insert]
      simp
    · rw [Finmap.lookup_insert_of_ne m fun hkey => heq (bucketMetaKey_inj hkey), h.buckets]
      simp [heq]
  · rw [family_bucketMetaKey]
    decide
  · rw [family_bucketMetaKey]
    decide
  · intro b' k hb' hobj
    rw [Finmap.lookup_insert_of_ne m]
    · exact h.index b' k hb' hobj
    · exact (bucketMetaKey_ne_bucketIndexKey _ _ _).symm

/-- What a call does that turns `A` into `A'`: afterwards the map stands for `A'`, at
every point before it stands for the objects of one of the two, and a call that does not
end with a flush leaves the objects and their index alone. -/
structure Performs {α : Type} (p : KvProg α) (m : Map) (T' : ℕ) (A A' : ObjectMap) : Prop where
  after : Represents (p.after m) T' A'
  always : Always (fun m' => Stores m' T' A.objects ∨ Stores m' T' A'.objects) p m
  ends : (∃ ops, p.ops m = ops ++ [.flushWal]) ∨
    (A'.objects = A.objects ∧
      Always (fun m' => Stores m' T' A.objects ∧ Indexed m' A.objects) p m)

/-- Only the calls on the store count. -/
theorem Performs.of_ops_eq {α β : Type} {p : KvProg α} {p' : KvProg β} {A A' : ObjectMap}
    (h : Performs p m T A A') (hops : p'.ops m = p.ops m) : Performs p' m T A A' := by
  obtain ⟨hafter, halways, hends⟩ := h
  unfold Always at halways hends
  refine ⟨?_, ?_, ?_⟩
  · rwa [KvProg.after, hops]
  · unfold Always
    rwa [hops]
  · unfold Always
    rwa [hops]

/-- A call that changes nothing. -/
theorem Represents.performs {α : Type} {p : KvProg α} {A : ObjectMap} (h : Represents m T A)
    (hops : p.ops m = []) : Performs p m T A A := by
  refine ⟨?_, .of_ops_nil hops (.inl h.objects), .inr ⟨rfl, .of_ops_nil hops ⟨h.objects, h.index⟩⟩⟩
  rwa [after, hops]

theorem ObjectMap.createBucket_of_mem {A : ObjectMap} (h : b ∈ A.buckets) :
    A.createBucket b = A := by
  unfold createBucket
  split_ifs with hb
  · rfl
  · cases A
    simpa using Finset.insert_eq_of_mem h

/-- `CreateBucket` adds the bucket. -/
theorem Represents.createBucket {A : ObjectMap} (h : Represents m T A) (b : Bytes)
    (nowMs : UInt64) :
    (createBucket b nowMs).value m = decide (b ≠ []) ∧
      Performs (createBucket b nowMs) m T A (A.createBucket b) := by
  by_cases hb : b = []
  · rw [ObjectStore.createBucket, if_pos hb, ObjectMap.createBucket, dif_pos hb]
    exact ⟨by simp [hb], h.performs rfl⟩
  have hops : (ObjectStore.createBucket b nowMs).ops m = if b ∈ A.buckets then [] else
      [.put (bucketMetaKey b) (serializeBucketMeta ⟨b, nowMs⟩)] := by
    rw [ObjectStore.createBucket, if_neg hb, ops_bind, value_kvGet, after_kvGet, h.buckets]
    split_ifs <;> simp_all
  have hvalue : (ObjectStore.createBucket b nowMs).value m = decide (b ≠ []) := by
    rw [ObjectStore.createBucket, if_neg hb, value_bind, value_kvGet, after_kvGet, h.buckets]
    split_ifs <;> simp [hb]
  refine ⟨hvalue, ?_⟩
  split_ifs at hops with hmem
  · rw [ObjectMap.createBucket_of_mem hmem]
    exact h.performs hops
  · have hnew := h.insert_bucket hb (serializeBucketMeta ⟨b, nowMs⟩)
    have hsame : (A.createBucket b).objects = A.objects := by
      rw [ObjectMap.createBucket, dif_neg hb]
    refine Performs.of_ops_eq (p := kvPut _ _)
      ⟨hnew, .kvPut (.inl h.objects) (.inr hnew.objects), .inr ⟨hsame, ?_⟩⟩ hops
    exact .kvPut ⟨h.objects, h.index⟩ ⟨hsame ▸ hnew.objects, hsame ▸ hnew.index⟩

/-! ## Objects -/

theorem HasChunks.insert_of_ne {id data key : Bytes} {n : ℕ} (h : HasChunks m id n data)
    (hkey : ∀ i, chunkKey id i ≠ key) (v : Bytes) : HasChunks (m.insert key v) id n data := by
  obtain ⟨chunks, hlen, hdata, hall⟩ := h
  refine ⟨chunks, hlen, hdata, fun i hi => ?_⟩
  rw [Finmap.lookup_insert_of_ne m (hkey i), hall i hi]

/-- What `PutObject` writes once its checks have passed, in this order: the chunks, the
metadata that commits them, the index entry, and a flush. -/
theorem putObject_eq {req : PutObjectRequest} (hb : req.bucket ≠ []) (hk : req.key ≠ [])
    (hbucket : (m.lookup (bucketMetaKey req.bucket)).isSome) (idMs nowMs : UInt64) :
    ((s.putObject req idMs nowMs).value m).ok = true ∧
      (s.putObject req idMs nowMs).ops m = (do
        s.writeChunks (makeObjectId req.bucket req.key idMs) req.data
          (List.range (s.chunkCount req.data.length).toNat)
        kvPut (objectMetaKey req.bucket req.key) (serializeMetadata (s.putMetadata req idMs nowMs))
        kvPut (bucketIndexKey req.bucket req.key) (makeObjectId req.bucket req.key idMs)
        kvFlushWal).ops m := by
  obtain ⟨hvalue, hops⟩ := bucketExists_eq (m := m) hb
  have hafter : (bucketExists req.bucket).after m = m := by rw [after, hops, applyOps_nil]
  rw [putObject, if_neg hb, if_neg hk, value_bind, ops_bind, hvalue, hops, hafter, hbucket]
  simp

theorem ends_putObject {req : PutObjectRequest} (hb : req.bucket ≠ []) (hk : req.key ≠ [])
    (hbucket : (m.lookup (bucketMetaKey req.bucket)).isSome) (idMs nowMs : UInt64) :
    ∃ ops, (s.putObject req idMs nowMs).ops m = ops ++ [.flushWal] := by
  rw [(putObject_eq (s := s) hb hk hbucket idMs nowMs).2]
  simp only [ops_bind, ops_kvPut, ops_kvFlushWal, ← List.append_assoc]
  exact ⟨_, rfl⟩

/-- Its chunks are written under a new id, so they are no one's. -/
theorem Stores.writeChunks (h : Stores m T objects) {t : UInt64} (ht : T ≤ t.toNat)
    (data : Bytes) (is : List ℕ) :
    Always (Stores · T objects) (s.writeChunks (makeObjectId b k t) data is) m :=
  always_writeChunks _ _ _ h fun _ i hm => hm.insert_of_unrelated (.chunkKey ht b k i) _

/-- The metadata commits the object. -/
theorem Stores.commit {A : ObjectMap} (h : Stores m T A.objects) {req : PutObjectRequest}
    (haccepts : A.Accepts req) (hcolon : colon ∉ req.bucket) {idMs nowMs : UInt64}
    (hT : T ≤ idMs.toNat) (htab : (s.putMetadata req idMs nowMs).TabFree)
    (hcount : (req.data.length + s.chunkSize - 1) / s.chunkSize < 2 ^ 32)
    (hchunks : HasChunks m (makeObjectId req.bucket req.key idMs)
      (s.chunkCount req.data.length).toNat req.data) :
    Stores (m.insert (objectMetaKey req.bucket req.key)
      (serializeMetadata (s.putMetadata req idMs nowMs))) (idMs.toNat + 1) (A.put req).objects := by
  rw [ObjectMap.put, dif_pos haccepts]
  refine (h.mono (by omega)).insert_meta hcolon ?_
  refine ⟨s.putMetadata req idMs nowMs, Finmap.lookup_insert m, ⟨htab, rfl, idMs, by omega, rfl⟩,
    rfl, size_toNat hcount, rfl, hchunks.insert_of_ne (fun i => ?_) _⟩
  exact (objectMetaKey_ne_chunkKey _ _ _ _).symm

/-- What the texts of a put must be for its metadata to read back. -/
structure PutObjectRequest.TabFree (req : PutObjectRequest) : Prop where
  bucket : tab ∉ req.bucket
  key : tab ∉ req.key
  contentType : tab ∉ req.contentType

theorem tabFree_putMetadata {req : PutObjectRequest} (h : req.TabFree) (s : ObjectStore)
    (idMs nowMs : UInt64) : (s.putMetadata req idMs nowMs).TabFree := by
  refine ⟨?_, h.bucket, h.key, h.contentType, tab_not_mem_hex _⟩
  show tab ∉ makeObjectId req.bucket req.key idMs
  simp only [makeObjectId, List.mem_append, List.mem_cons, not_or]
  exact ⟨h.bucket, by decide, h.key, by decide, tab_not_mem_decimal _⟩

theorem deserializeMetadata_putMetadata {req : PutObjectRequest} {idMs nowMs : UInt64}
    (h : req.TabFree) : deserializeMetadata (serializeMetadata (s.putMetadata req idMs nowMs)) =
      some (s.putMetadata req idMs nowMs) := by
  refine deserializeMetadata_serializeMetadata (tabFree_putMetadata h s idMs nowMs) ?_
  rintro c ⟨⟩

/-- The entries of buckets and of the index after a put has written all it writes. -/
theorem Represents.insert_object {A : ObjectMap} (h : Represents m T A) {req : PutObjectRequest}
    (haccepts : A.Accepts req) (hcolon : colon ∉ req.bucket) {m₁ : Map}
    (hkeep : ∀ key, family key ≠ str "objchun" → m₁.lookup key = m.lookup key)
    {raw id : Bytes}
    (hstores : Stores ((m₁.insert (objectMetaKey req.bucket req.key) raw).insert
      (bucketIndexKey req.bucket req.key) id) T' (A.put req).objects) :
    Represents ((m₁.insert (objectMetaKey req.bucket req.key) raw).insert
      (bucketIndexKey req.bucket req.key) id) T' (A.put req) := by
  refine ⟨fun b => ?_, hstores, fun b k hb hobj => ?_⟩
  · have hne : bucketMetaKey b ≠ bucketIndexKey req.bucket req.key :=
    bucketMetaKey_ne_bucketIndexKey _ _ _
    have hne' : bucketMetaKey b ≠ objectMetaKey req.bucket req.key :=
      bucketMetaKey_ne_objectMetaKey _ _ _
    rw [Finmap.lookup_insert_of_ne _ hne, Finmap.lookup_insert_of_ne _ hne', hkeep, h.buckets,
      ObjectMap.put, dif_pos haccepts]
    rw [family_bucketMetaKey]
    decide
  · by_cases heq : (b, k) = (req.bucket, req.key)
    · obtain ⟨rfl, rfl⟩ := Prod.mk.inj heq
      rw [Finmap.lookup_insert]
      rfl
    · rw [ObjectMap.put, dif_pos haccepts] at hobj
      have hold : A.objects (b, k) ≠ none := by
        rwa [← Function.update_of_ne heq (some (req.data, req.contentType)) A.objects]
      rw [Finmap.lookup_insert_of_ne, Finmap.lookup_insert_of_ne, hkeep]
      · exact h.index b k hb hold
      · rw [family_bucketIndexKey]
        decide
      · exact bucketIndexKey_ne_objectMetaKey _ _ _ _
      · intro hkey
        obtain ⟨rfl, rfl⟩ := bucketIndexKey_inj hb hcolon hkey
        exact heq rfl

/-- `PutObject` replaces the object. -/
theorem Represents.putObject {A : ObjectMap} (h : Represents m T A) {req : PutObjectRequest}
    (hcolon : colon ∉ req.bucket) (htab : req.TabFree)
    (hcount : (req.data.length + s.chunkSize - 1) / s.chunkSize < 2 ^ 32) {idMs : UInt64}
    (hT : A.Accepts req → T ≤ idMs.toNat) (nowMs : UInt64) :
    ((s.putObject req idMs nowMs).value m).ok = decide (A.Accepts req) ∧
      Performs (s.putObject req idMs nowMs) m (if A.Accepts req then idMs.toNat + 1 else T) A
        (A.put req) := by
  by_cases haccepts : A.Accepts req
  · have hb : req.bucket ≠ [] := fun hnil => A.nil_notMem (hnil ▸ haccepts.1)
    have hbucket : (m.lookup (bucketMetaKey req.bucket)).isSome := by
      rw [h.buckets]
      exact decide_eq_true haccepts.1
    obtain ⟨hvalue, hops⟩ := putObject_eq (s := s) hb haccepts.2 hbucket idMs nowMs
    refine ⟨by simp [hvalue, haccepts], ?_⟩
    rw [if_pos haccepts]
    have hT := hT haccepts
    set id := makeObjectId req.bucket req.key idMs with hid
    set is := List.range (s.chunkCount req.data.length).toNat with his
    have halways₁ := h.objects.writeChunks (s := s) (b := req.bucket) (k := req.key) hT req.data is
    set m₁ := (s.writeChunks id req.data is).after m with hm₁
    have hkeep : ∀ key, family key ≠ str "objchun" → m₁.lookup key = m.lookup key :=
      fun key hkey => lookup_writeChunks_of_family _ _ _ hkey
    have hcommit := halways₁.after.commit haccepts hcolon hT (tabFree_putMetadata htab s idMs nowMs)
      hcount (hasChunks_writeChunks id req.data hcount)
    have hindex : Unrelated (idMs.toNat + 1) (bucketIndexKey req.bucket req.key) := by
      apply Unrelated.of_family <;> rw [family_bucketIndexKey] <;> decide
    have hafter := h.insert_object haccepts hcolon hkeep (hcommit.insert_of_unrelated hindex id)
    have hends := ends_putObject (s := s) hb haccepts.2 hbucket idMs nowMs
    refine Performs.of_ops_eq ⟨?_, ?_, .inl (hops ▸ hends)⟩ hops
    · simpa using hafter
    · have halways : Always (fun m' => Stores m' (idMs.toNat + 1) A.objects ∨
          Stores m' (idMs.toNat + 1) (A.put req).objects) (s.writeChunks id req.data is) m :=
        halways₁.mono fun _ hm => .inl (hm.mono (by omega))
      refine .bind halways (.bind (.kvPut halways.after (.inr hcommit)) ?_)
      exact .bind (.kvPut (.inr hcommit) (.inr hafter.objects)) (.kvFlushWal (.inr hafter.objects))
  · have hops : (s.putObject req idMs nowMs).ops m = [] ∧
        ((s.putObject req idMs nowMs).value m).ok = false := by
      rw [ObjectStore.putObject]
      split_ifs with hb hk
      · exact ⟨rfl, rfl⟩
      · exact ⟨rfl, rfl⟩
      · have hmem : req.bucket ∉ A.buckets := fun hmem => haccepts ⟨hmem, hk⟩
        obtain ⟨hvalue, hops⟩ := bucketExists_eq (m := m) hb
        rw [value_bind, ops_bind, hvalue, hops, h.buckets]
        simp [hmem]
    rw [if_neg haccepts, ObjectMap.put, dif_neg haccepts]
    exact ⟨by simp [hops.2, haccepts], h.performs hops.1⟩

/-- Nothing is stored for an object, or metadata that reads back. -/
theorem Holds.metadata {v : Option (Bytes × Bytes)} (h : Holds m T b k v) :
    (m.lookup (objectMetaKey b k) = none ∧ v = none) ∨
      ∃ md, m.lookup (objectMetaKey b k) = some (serializeMetadata md) ∧ Describes T b k md ∧
        deserializeMetadata (serializeMetadata md) = some md := by
  cases v with
  | none =>
    obtain hnone | ⟨md, hlook, hd, hstate⟩ := h
    · exact .inl ⟨hnone, rfl⟩
    · exact .inr ⟨md, hlook, hd, hd.deserialize (.inr hstate)⟩
  | some v =>
    obtain ⟨md, hlook, hd, hstate, -⟩ := h
    exact .inr ⟨md, hlook, hd, hd.deserialize (.inl hstate)⟩

theorem ObjectMap.delete_of_none {A : ObjectMap} (h : A.objects (b, k) = none) :
    A.delete b k = A := by
  cases A
  simpa [delete] using h.symm

/-- Metadata marked as deleted, and no index entry. -/
theorem Represents.mark_deleted {A : ObjectMap} (h : Represents m T A) (hb : colon ∉ b)
    {raw : Bytes}
    (hstores : Stores ((m.insert (objectMetaKey b k) raw).erase (bucketIndexKey b k)) T
      (A.delete b k).objects) :
    Represents ((m.insert (objectMetaKey b k) raw).erase (bucketIndexKey b k)) T
      (A.delete b k) := by
  refine ⟨fun b' => ?_, hstores, fun b' k' hb' hobj => ?_⟩
  · rw [Finmap.lookup_erase_ne, Finmap.lookup_insert_of_ne]
    · exact h.buckets b'
    · exact bucketMetaKey_ne_objectMetaKey _ _ _
    · exact bucketMetaKey_ne_bucketIndexKey _ _ _
  · have heq : (b', k') ≠ (b, k) := by
      intro heq
      rw [heq] at hobj
      exact hobj (Function.update_self _ _ _)
    have hold : A.objects (b', k') ≠ none := by
      rwa [← Function.update_of_ne heq none A.objects]
    rw [Finmap.lookup_erase_ne, Finmap.lookup_insert_of_ne]
    · exact h.index b' k' hb' hold
    · exact bucketIndexKey_ne_objectMetaKey _ _ _ _
    · intro hkey
      obtain ⟨rfl, rfl⟩ := bucketIndexKey_inj hb' hb hkey
      exact heq rfl

/-- `DeleteObject` removes the object. -/
theorem Represents.deleteObject {A : ObjectMap} (h : Represents m T A) (hb : colon ∉ b)
    (k : Bytes) (nowMs : UInt64) :
    Performs (deleteObject b k nowMs) m T A (A.delete b k) := by
  obtain ⟨hnone, hv⟩ | ⟨md, hlook, hd, hread⟩ := (h.objects b k hb).metadata
  · rw [ObjectMap.delete_of_none hv]
    apply h.performs
    rw [ObjectStore.deleteObject, ops_bind, value_kvGet, after_kvGet, hnone]
    rfl
  · set md' : ObjectMetadata := { md with state := .deleted, updatedAtEpochMs := nowMs } with hmd'
    have hops : (ObjectStore.deleteObject b k nowMs).ops m =
        [.put (objectMetaKey b k) (serializeMetadata md'), .del (bucketIndexKey b k),
          .flushWal] := by
      rw [ObjectStore.deleteObject, ops_bind, value_kvGet, after_kvGet, hlook]
      dsimp only
      rw [hread]
      simp [hmd']
    have hd' : Describes T b k md' := ⟨hd.tabFree.deleted nowMs, hd.key, hd.objectId⟩
    have hmark : Stores (m.insert (objectMetaKey b k) (serializeMetadata md')) T
        (A.delete b k).objects :=
      h.objects.insert_meta hb (.inr ⟨md', Finmap.lookup_insert m, hd', rfl⟩)
    have hindex : Unrelated T (bucketIndexKey b k) := by
      apply Unrelated.of_family <;> rw [family_bucketIndexKey] <;> decide
    have hafter := h.mark_deleted hb (hmark.erase_of_unrelated hindex)
    refine Performs.of_ops_eq (p := do
      kvPut (objectMetaKey b k) (serializeMetadata md')
      let _ ← kvDel (bucketIndexKey b k)
      kvFlushWal) ⟨?_, ?_, .inl ?_⟩ (by simpa using hops)
    · simpa using hafter
    · refine .bind (.kvPut (.inl h.objects) (.inr hmark)) ?_
      exact .bind (.kvDel (.inr hmark) (.inr hafter.objects)) (.kvFlushWal (.inr hafter.objects))
    · exact ⟨[_, _], rfl⟩

/-- `GarbageCollectChunks` changes no object. -/
theorem Represents.garbageCollectChunks {A : ObjectMap} (h : Represents m T A)
    {order : List Entry} (horder : Enumerates order m) :
    Performs (garbageCollectChunks order) m T A A := by
  have halways := always_garbageCollectChunks h.objects horder
  obtain ⟨hstores, hkeep⟩ := halways.after
  have hkeep' : ∀ key, family key ≠ str "objchun" →
      ((ObjectStore.garbageCollectChunks order).after m).lookup key = m.lookup key :=
    fun key hkey => hkeep key fun hpre => hkey (family_of_objchunk hpre)
  refine ⟨⟨fun b => ?_, hstores, fun b k hb hobj => ?_⟩, halways.mono fun _ hm => .inl hm.1,
    .inl ?_⟩
  · rw [hkeep' _ (by rw [family_bucketMetaKey]; decide)]
    exact h.buckets b
  · rw [hkeep' _ (by rw [family_bucketIndexKey]; decide)]
    exact h.index b k hb hobj
  · simp only [ObjectStore.garbageCollectChunks, ops_bind, ops_kvFlushWal, ops_pure,
      List.append_nil, ← List.append_assoc]
    exact ⟨_, rfl⟩

end KvEngine
