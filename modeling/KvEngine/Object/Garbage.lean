import KvEngine.Object.Collection
import KvEngine.Object.Puts

/-!
# What a collection leaves

`GarbageCollectChunks` looks for object ids of committed metadata and keeps every chunk of
such an id, while `GetObject` reads the chunks below the count in the metadata. The two agree
unless an id has more chunks than its metadata counts.

Results:
* `collected_count`: the number that is returned is the number of keys removed, whatever the
  system calls return.
* `noGarbage_iff`: a collection leaves only chunks that are read exactly if no id of committed
  metadata had others.
* `collectsAll`: so it is if puts that make the same id write the same number of chunks, over
  any number of lives.
* `not_collectsAll`: two puts to a key in one millisecond, of three chunks and of one.
-/

namespace KvEngine

open KvProg ObjectStore

variable {s : ObjectStore} {M : Machine} {order : List Entry} {past : List Op}

/-! ## What a sweep removes -/

theorem card_keys_erase (m : Map) (k : Bytes) :
    (m.erase k).keys ⊆ m.keys ∧
      (m.lookup k).isSome.toNat + (m.erase k).keys.card = m.keys.card := by
  rw [Finmap.keys_erase]
  refine ⟨Finset.erase_subset _ _, ?_⟩
  by_cases hk : k ∈ m
  · have hcard := Finset.card_erase_add_one (Finmap.mem_keys.mpr hk)
    rw [Finmap.lookup_isSome.mpr hk, Bool.toNat_true]
    omega
  · have hnone : (m.lookup k).isSome = false := by
      rw [Bool.eq_false_iff]
      exact fun h => hk (Finmap.lookup_isSome.mp h)
    rw [hnone, Finset.erase_eq_of_notMem fun h => hk (Finmap.mem_keys.mp h)]
    exact Nat.zero_add _

/-- `del` returns whether it removed a key, whatever the system calls return. -/
theorem card_step_del (M : Machine) (k : Bytes) :
    (M.step (.del k)).store.map.keys ⊆ M.store.map.keys ∧
      (M.store.del k M.os).value.1.toNat + (M.step (.del k)).store.map.keys.card =
        M.store.map.keys.card := by
  simp only [Machine.step, Machine.outcome]
  by_cases hopen : M.store.opened = true
  · by_cases hfd : M.store.wal.fd = none
    · simp [KVStore.del, hopen, Wal.appendDel, Wal.writeRecord, hfd]
    · rw [KVStore.del_eq hopen hfd]
      split_ifs
      · cases hok : ((M.store.appended (.del k)).wal.flush M.os).value.1 with
        | true => simpa [hok] using card_keys_erase M.store.map k
        | false => simp [hok]
      · exact card_keys_erase M.store.map k
  · simp [KVStore.del, hopen]

/-- A deletion and the rest of the sweep. -/
theorem exec_deleteUnreachable_del (reachable keys : List Bytes) (key : Bytes) (M : Machine) :
    (kvDel key >>= fun deleted => deleteUnreachable reachable keys >>= fun n =>
        Pure.pure (if deleted = true then n + 1 else n)).exec M =
      ((M.store.del key M.os).value.1.toNat +
          ((deleteUnreachable reachable keys).exec (M.step (.del key))).1,
        ((deleteUnreachable reachable keys).exec (M.step (.del key))).2) := by
  rw [exec_bind, exec_bind]
  refine Prod.ext ?_ rfl
  show (if (M.store.del key M.os).value.1 = true then _ else _) = _
  split_ifs with hdel
  · rw [hdel]
    exact Nat.add_comm _ _
  · rw [Bool.eq_false_of_not_eq_true hdel]
    exact (Nat.zero_add _).symm

/-- A sweep returns how many keys it removed. -/
theorem card_deleteUnreachable (reachable keys : List Bytes) (M : Machine) :
    ((deleteUnreachable reachable keys).exec M).2.store.map.keys ⊆ M.store.map.keys ∧
      ((deleteUnreachable reachable keys).exec M).1 +
          ((deleteUnreachable reachable keys).exec M).2.store.map.keys.card =
        M.store.map.keys.card := by
  induction keys generalizing M with
  | nil => exact ⟨Finset.Subset.refl _, Nat.zero_add _⟩
  | cons key keys ih =>
    unfold deleteUnreachable
    cases chunkObjectId key with
    | none => exact ih M
    | some id =>
      dsimp only
      split_ifs
      · exact ih M
      · obtain ⟨hsub, hcard⟩ := card_step_del M key
        obtain ⟨hsub', hcard'⟩ := ih (M.step (.del key))
        rw [exec_deleteUnreachable_del]
        refine ⟨hsub'.trans hsub, ?_⟩
        rw [Nat.add_assoc, hcard', hcard]

/-- A key that is not there stays away. -/
theorem lookup_deleteUnreachable_none {reachable keys : List Bytes} {key : Bytes}
    (h : M.store.map.lookup key = none) :
    ((deleteUnreachable reachable keys).exec M).2.store.map.lookup key = none := by
  have hkeeps : (deleteUnreachable reachable keys).Keeps (fun key' _ => key' ≠ key) AnyKey :=
    keeps_deleteUnreachable fun _ _ _ _ _ => trivial
  have hm : Entries (fun key' _ => key' ≠ key) M.store.map := by
    rintro key' v hlook rfl
    rw [h] at hlook
    simp at hlook
  by_contra hsome
  obtain ⟨v, hv⟩ := Option.ne_none_iff_exists'.mp hsome
  exact (hkeeps.exec hm).1 key v hv rfl

/-- Without an error among the system calls, listed chunks of other ids are gone. -/
theorem lookup_deleteUnreachable {reachable keys : List Bytes} (hM : M.Serving)
    (hos : .error ∉ M.os) {key id : Bytes} (hkey : key ∈ keys) (hid : chunkObjectId key = some id)
    (hnot : id ∉ reachable) :
    ((deleteUnreachable reachable keys).exec M).2.store.map.lookup key = none := by
  induction keys generalizing M with
  | nil => simp at hkey
  | cons key' keys ih =>
    unfold deleteUnreachable
    rcases List.mem_cons.mp hkey with rfl | hrest
    · rw [hid]
      dsimp only
      rw [if_neg hnot, exec_deleteUnreachable_del]
      refine lookup_deleteUnreachable_none ?_
      rw [(hM.step_del hos key).1, Finmap.lookup_erase]
    · cases chunkObjectId key' with
      | none => exact ih hM hos hrest
      | some id' =>
        dsimp only
        split_ifs
        · exact ih hM hos hrest
        · rw [exec_deleteUnreachable_del]
          exact ih (hM.step _).1 (hM.step_del hos key').2 hrest

/-! ## What a collection removes -/

/-- Only committed metadata makes an id reachable. -/
theorem exists_of_mem_reachableObjectIds {m : Map} {keys : List Bytes} {id : Bytes}
    (h : id ∈ (reachableObjectIds keys).value m) :
    ∃ key ∈ keys, ∃ md, (m.lookup key).bind deserializeMetadata = some md ∧
      md.state = .committed ∧ md.objectId = id := by
  induction keys with
  | nil => simp [reachableObjectIds] at h
  | cons key keys ih =>
    have hrest : id ∈ (reachableObjectIds keys).value m → ∃ key' ∈ key :: keys, ∃ md,
        (m.lookup key').bind deserializeMetadata = some md ∧ md.state = .committed ∧
          md.objectId = id := by
      intro hid
      obtain ⟨key', hkey', hmd⟩ := ih hid
      exact ⟨key', List.mem_cons_of_mem key hkey', hmd⟩
    rw [reachableObjectIds, value_bind, value_kvGet, after_kvGet] at h
    cases hmd : (m.lookup key).bind deserializeMetadata with
    | none =>
      rw [hmd] at h
      exact hrest h
    | some md =>
      rw [hmd] at h
      dsimp only at h
      rw [value_bind, after, ops_reachableObjectIds, applyOps_nil] at h
      split_ifs at h with hstate
      · rcases List.mem_cons.mp h with rfl | hid
        · exact ⟨key, List.mem_cons_self, md, hmd, hstate, rfl⟩
        · exact hrest hid
      · exact hrest h

theorem live_iff_mem_reachableIds (horder : Enumerates order M.store.map)
    (hmeta : ∀ key, str "objmeta:" <+: key → (M.store.map.lookup key).isSome →
      ∃ b k, key = objectMetaKey b k) {id : Bytes} :
    id ∈ reachableIds order M.store.map ↔ Live M.store.map id := by
  refine ⟨fun h => ?_, mem_reachableIds horder⟩
  obtain ⟨key, hkey, md, hmd, hstate, rfl⟩ := exists_of_mem_reachableObjectIds h
  obtain ⟨hpre, hthere⟩ := (mem_listKeysWithPrefix horder).mp hkey
  obtain ⟨b, k, rfl⟩ := hmeta key hpre hthere
  obtain ⟨raw, hraw, hread⟩ := Option.bind_eq_some_iff.mp hmd
  exact ⟨b, k, raw, md, hraw, hread, hstate, rfl⟩

/-- A collection is a sweep: the flush behind it leaves the map. -/
theorem map_garbageCollectChunks (order : List Entry) (M : Machine) :
    ((garbageCollectChunks order).exec M).1 =
        ((deleteUnreachable (reachableIds order M.store.map)
          (KVStore.listKeysWithPrefix order (str "objchunk:"))).exec M).1 ∧
      ((garbageCollectChunks order).exec M).2.store.map =
        ((deleteUnreachable (reachableIds order M.store.map)
          (KVStore.listKeysWithPrefix order (str "objchunk:"))).exec M).2.store.map := by
  rw [exec_garbageCollectChunks, exec_bind]
  exact ⟨rfl, rfl⟩

/-- The keys that a collection removes. -/
def collected (order : List Entry) (M : Machine) : Finset Bytes :=
  M.store.map.keys \ ((garbageCollectChunks order).exec M).2.store.map.keys

/-- They are chunks' keys, and `GarbageCollectChunks` returns how many there are, whatever the
system calls return. -/
theorem collected_count (horder : Enumerates order M.store.map) :
    ((garbageCollectChunks order).exec M).1 = (collected order M).card ∧
      ∀ key ∈ collected order M, str "objchunk:" <+: key := by
  obtain ⟨hvalue, hmap⟩ := map_garbageCollectChunks order M
  constructor
  · obtain ⟨hsub, hcard⟩ := card_deleteUnreachable (reachableIds order M.store.map)
      (KVStore.listKeysWithPrefix order (str "objchunk:")) M
    rw [collected, hvalue, hmap, Finset.card_sdiff_of_subset hsub]
    omega
  · intro key hkey
    obtain ⟨hthere, hgone⟩ := Finset.mem_sdiff.mp hkey
    by_contra hpre
    refine hgone (Finmap.mem_keys.mpr (Finmap.lookup_isSome.mp ?_))
    rw [lookup_garbageCollectChunks horder fun id hpre' _ => absurd hpre' hpre]
    exact Finmap.lookup_isSome.mpr (Finmap.mem_keys.mp hthere)

/-! ## What is left -/

/-- `GetObject` reads this chunk for an object with committed metadata. -/
def ChunkOf (m : Map) (id : Bytes) (i : ℕ) : Prop :=
  ∃ b k md, (m.lookup (objectMetaKey b k)).bind deserializeMetadata = some md ∧
    md.state = .committed ∧ md.objectId = id ∧ i < md.chunkCount.toNat

/-- Every chunk in the map is read for such an object. -/
def NoGarbage (m : Map) : Prop :=
  ∀ key, str "objchunk:" <+: key → (m.lookup key).isSome →
    ∃ id i, key = chunkKey id i ∧ ChunkOf m id i

/-- So is every chunk of an id that committed metadata has. -/
def Referenced (m : Map) : Prop :=
  ∀ id i, Live m id → (m.lookup (chunkKey id i)).isSome → ChunkOf m id i

/-- Keys of metadata and of chunks are those of an object's metadata and chunks. -/
structure Formed (m : Map) : Prop where
  metadata : ∀ key, str "objmeta:" <+: key → (m.lookup key).isSome → ∃ b k, key = objectMetaKey b k
  chunk : ∀ key, str "objchunk:" <+: key → (m.lookup key).isSome →
    ∃ id i, id ≠ [] ∧ key = chunkKey id i

theorem ChunkOf.congr {m m' : Map} {id : Bytes} {i : ℕ} (h : ChunkOf m id i)
    (hmeta : ∀ b k, m'.lookup (objectMetaKey b k) = m.lookup (objectMetaKey b k)) :
    ChunkOf m' id i := by
  obtain ⟨b, k, md, hmd, hrest⟩ := h
  exact ⟨b, k, md, by rw [hmeta, hmd], hrest⟩

/-- **A collection leaves no garbage** exactly if there are no chunks beyond the count of an id
that committed metadata has. -/
theorem noGarbage_iff (hM : M.Serving) (hos : .error ∉ M.os) (hformed : Formed M.store.map)
    (horder : Enumerates order M.store.map) :
    NoGarbage ((garbageCollectChunks order).exec M).2.store.map ↔ Referenced M.store.map := by
  set M' := ((garbageCollectChunks order).exec M).2 with hM'
  have hmeta : ∀ b k, M'.store.map.lookup (objectMetaKey b k) =
      M.store.map.lookup (objectMetaKey b k) := lookup_meta_garbageCollectChunks horder
  constructor
  · intro h id i hlive hthere
    have hkept : M'.store.map.lookup (chunkKey id i) = M.store.map.lookup (chunkKey id i) :=
      lookup_chunk_garbageCollectChunks horder hlive i
    obtain ⟨id', i', hkey, hchunk⟩ := h (chunkKey id i) (List.prefix_append _ _) (hkept ▸ hthere)
    obtain ⟨rfl, rfl⟩ := chunkKey_inj hkey
    exact hchunk.congr fun b k => (hmeta b k).symm
  · intro h key hpre hthere
    have hbefore : (M.store.map.lookup key).isSome := by
      have hsub := (card_deleteUnreachable (reachableIds order M.store.map)
        (KVStore.listKeysWithPrefix order (str "objchunk:")) M).1
      rw [← (map_garbageCollectChunks order M).2] at hsub
      exact Finmap.lookup_isSome.mpr (Finmap.mem_keys.mp (hsub (Finmap.mem_keys.mpr
        (Finmap.lookup_isSome.mp hthere))))
    obtain ⟨id, i, hid, rfl⟩ := hformed.chunk key hpre hbefore
    refine ⟨id, i, rfl, (h id i ?_ hbefore).congr hmeta⟩
    rw [← live_iff_mem_reachableIds horder hformed.metadata]
    by_contra hnot
    have hgone := lookup_deleteUnreachable hM hos
      ((mem_listKeysWithPrefix horder).mpr ⟨hpre, hbefore⟩) (chunkObjectId_chunkKey hid i) hnot
    rw [hM', (map_garbageCollectChunks order M).2, hgone] at hthere
    simp at hthere

/-! ## Keys of reachable states -/

/-- A key of metadata or of a chunk is the one of an object's metadata or chunk. -/
structure FormedKey (key : Bytes) : Prop where
  metadata : str "objmeta:" <+: key → ∃ b k, key = objectMetaKey b k
  chunk : str "objchunk:" <+: key → ∃ id i, id ≠ [] ∧ key = chunkKey id i

theorem family_of_objmeta {key : Bytes} (h : str "objmeta:" <+: key) :
    family key = str "objmeta" := by
  obtain ⟨name, rfl⟩ := h
  exact family_objmeta name

/-- Keys of buckets and of the index are of other families. -/
theorem family_bucketMetaKey_ne (b : Bytes) :
    family (bucketMetaKey b) ≠ str "objmeta" ∧ family (bucketMetaKey b) ≠ str "objchun" := by
  rw [family_bucketMetaKey]
  decide

theorem family_bucketIndexKey_ne (b k : Bytes) :
    family (bucketIndexKey b k) ≠ str "objmeta" ∧ family (bucketIndexKey b k) ≠ str "objchun" := by
  rw [family_bucketIndexKey]
  decide

theorem FormedKey.of_family {key : Bytes}
    (h : family key ≠ str "objmeta" ∧ family key ≠ str "objchun") : FormedKey key :=
  ⟨fun hpre => absurd (family_of_objmeta hpre) h.1,
    fun hpre => absurd (family_of_objchunk hpre) h.2⟩

theorem formedKey_objectMetaKey (b k : Bytes) : FormedKey (objectMetaKey b k) := by
  refine ⟨fun _ => ⟨b, k, rfl⟩, fun hpre => absurd (family_of_objchunk hpre) ?_⟩
  rw [family_objectMetaKey]
  decide

theorem formedKey_chunkKey {id : Bytes} (hid : id ≠ []) (i : ℕ) : FormedKey (chunkKey id i) := by
  refine ⟨fun hpre => absurd (family_of_objmeta hpre) ?_, fun _ => ⟨id, i, hid, rfl⟩⟩
  rw [family_chunkKey]
  decide

/-- Every call writes such keys. -/
theorem ObjectCall.formed (c : ObjectCall) : c.EntriesIn s fun key _ => FormedKey key := by
  cases c with
  | createBucket b now => exact .of_family (family_bucketMetaKey_ne b)
  | putObject req idMs now =>
    exact ⟨formedKey_objectMetaKey _ _, .of_family (family_bucketIndexKey_ne _ _),
      fun i _ => formedKey_chunkKey (putId_ne req idMs) i⟩
  | deleteObject b k now => exact fun _ _ _ _ => formedKey_objectMetaKey b k
  | getObject b k => trivial
  | listObjects b pfx order => trivial
  | garbageCollectChunks order => trivial

theorem ReachableBy.formed {P : ObjectCall → Prop} (h : ReachableBy s P OnlyPut past M) :
    Formed M.store.map := by
  obtain ⟨hentries, -⟩ := h.entries (R := fun key _ => FormedKey key) fun c _ => c.formed
  constructor
  · intro key hpre hthere
    obtain ⟨v, hv⟩ := Option.isSome_iff_exists.mp hthere
    exact (hentries key v hv).metadata hpre
  · intro key hpre hthere
    obtain ⟨v, hv⟩ := Option.isSome_iff_exists.mp hthere
    exact (hentries key v hv).chunk hpre

/-! ## Puts that make the same id -/

/-- The fields before the content type read back if they have no tabs. -/
theorem chunkCount_deserializeMetadata {md md' : ObjectMetadata} (hid : tab ∉ md.objectId)
    (hb : tab ∉ md.bucket) (hk : tab ∉ md.key)
    (h : deserializeMetadata (serializeMetadata md) = some md') :
    md'.objectId = md.objectId ∧ md'.chunkCount = md.chunkCount := by
  obtain ⟨rest, hrest⟩ : ∃ rest, serializeMetadata md =
      md.objectId ++ tab :: (md.bucket ++ tab :: (md.key ++ tab :: (decimal md.sizeBytes.toNat ++
        tab :: (decimal md.chunkCount.toNat ++ tab :: rest)))) := ⟨_, rfl⟩
  have hfields : getlines tab 11 (serializeMetadata md) = (getlines tab 6 rest).map fun fs =>
      md.objectId :: md.bucket :: md.key :: decimal md.sizeBytes.toNat ::
        decimal md.chunkCount.toNat :: fs := by
    rw [hrest, getlines_append hid, getlines_append hb, getlines_append hk,
      getlines_append (tab_not_mem_decimal _), getlines_append (tab_not_mem_decimal _)]
    simp only [Option.map_map]
    rfl
  have hcount : stoull (decimal md.chunkCount.toNat) = some md.chunkCount.toUInt64 := by
    rw [← UInt32.toNat_toUInt64]
    exact stoull_decimal _
  unfold deserializeMetadata at h
  rw [hfields] at h
  cases hfs : getlines tab 6 rest with
  | none => simp [hfs] at h
  | some fs =>
    rw [hfs, Option.map_some] at h
    split at h
    · rename_i heq
      simp only [Option.some.injEq, List.cons.injEq] at heq
      obtain ⟨rfl, -, -, -, rfl, -⟩ := heq
      simp only [Option.bind_eq_bind, Option.bind_eq_some_iff] at h
      obtain ⟨_, _, count, hread, _, _, _, _, _, _, _, _, hmd⟩ := h
      obtain rfl := Option.some.inj hmd
      rw [hcount] at hread
      obtain rfl := Option.some.inj hread
      exact ⟨rfl, UInt32.toUInt32_toUInt64 _⟩
    · simp at h

/-- Every id `id` has `N id` chunks: as many are counted in its metadata, and no chunk has a
higher index. -/
structure Counted (N : Bytes → ℕ) (key raw : Bytes) : Prop where
  metadata : str "objmeta:" <+: key → ∀ md, deserializeMetadata raw = some md →
    md.chunkCount.toNat = N md.objectId
  chunk : ∀ id i, key = chunkKey id i → i < N id

theorem Counted.of_family {N : Bytes → ℕ} {key raw : Bytes}
    (h : family key ≠ str "objmeta" ∧ family key ≠ str "objchun") : Counted N key raw := by
  refine ⟨fun hpre => absurd (family_of_objmeta hpre) h.1, ?_⟩
  rintro id i rfl
  exact absurd (family_chunkKey id i) h.2

theorem Counted.of_metadata {N : Bytes → ℕ} {b k raw : Bytes}
    (h : ∀ md, deserializeMetadata raw = some md → md.chunkCount.toNat = N md.objectId) :
    Counted N (objectMetaKey b k) raw :=
  ⟨fun _ => h, fun _ _ hkey => absurd hkey (objectMetaKey_ne_chunkKey _ _ _ _)⟩

/-- Bucket and key of a put have no tabs, and it writes `N id` chunks for the id it makes. -/
def ObjectCall.SameCount (s : ObjectStore) (N : Bytes → ℕ) : ObjectCall → Prop
  | .putObject req idMs _ =>
    tab ∉ req.bucket ∧ tab ∉ req.key ∧ s.putCount req = N (putId req idMs)
  | _ => True

/-- A delete writes back the count it read. -/
theorem ObjectCall.SameCount.counted {N : Bytes → ℕ} {c : ObjectCall} (h : c.SameCount s N) :
    c.EntriesIn s (Counted N) := by
  cases c with
  | createBucket b now => exact .of_family (family_bucketMetaKey_ne b)
  | putObject req idMs now =>
    obtain ⟨hb, hk, hcount⟩ := h
    have hid : tab ∉ putId req idMs := by
      have hne : tab ≠ colon := by decide
      simp [putId, makeObjectId, hb, hk, hne, tab_not_mem_decimal]
    refine ⟨.of_metadata fun md hmd => ?_, .of_family (family_bucketIndexKey_ne _ _),
      fun i hi => ⟨fun hpre => ?_, ?_⟩⟩
    · obtain ⟨hmdId, hmdCount⟩ := chunkCount_deserializeMetadata hid hb hk hmd
      rw [hmdId, hmdCount]
      exact hcount
    · exact absurd (family_of_objmeta hpre) (by rw [family_chunkKey]; decide)
    · intro id i' hkey
      obtain ⟨rfl, rfl⟩ := chunkKey_inj hkey
      exact hcount ▸ hi
  | deleteObject b k now =>
    intro raw md hraw hmd
    refine .of_metadata fun md' hmd' => ?_
    rw [deserializeMetadata_deleted hmd now] at hmd'
    obtain rfl := Option.some.inj hmd'
    exact hraw.metadata (List.prefix_append _ _) md hmd
  | getObject b k => trivial
  | listObjects b pfx order => trivial
  | garbageCollectChunks order => trivial

/-- In a state with such entries no id has chunks beyond its count. -/
theorem Entries.referenced {N : Bytes → ℕ} {m : Map} (h : Entries (Counted N) m) :
    Referenced m := by
  rintro id i ⟨b, k, raw, md, hraw, hread, hstate, rfl⟩ hthere
  obtain ⟨v, hv⟩ := Option.isSome_iff_exists.mp hthere
  refine ⟨b, k, md, by rw [hraw, Option.bind_some, hread], hstate, rfl, ?_⟩
  rw [(h _ raw hraw).metadata (List.prefix_append _ _) md hread]
  exact (h _ v hv).chunk _ i rfl

/-- A collection leaves no garbage and tells how many chunks it removed. -/
structure CollectsAll (order : List Entry) (M : Machine) : Prop where
  noGarbage : NoGarbage ((garbageCollectChunks order).exec M).2.store.map
  count : ((garbageCollectChunks order).exec M).1 = (collected order M).card
  chunks : ∀ key ∈ collected order M, str "objchunk:" <+: key

/-- **Collections leave no garbage** in any state that calls lead to whose puts write the same
number of chunks whenever they make the same id, over any number of lives whose opens bring
back only entries that were put before, as long as no system call of the collection fails. -/
theorem collectsAll {N : Bytes → ℕ} (h : ReachableBy s (ObjectCall.SameCount s N) OnlyPut past M)
    (horder : Enumerates order M.store.map) {os : Schedule} (hos : .error ∉ os) :
    CollectsAll order { M with os := os } := by
  have hserving : Machine.Serving { M with os := os } := ⟨h.serving.opened, h.serving.fd⟩
  have hreferenced : Referenced M.store.map := (h.entries fun _ hc => hc.counted).1.referenced
  have hcount := collected_count (M := { M with os := os }) horder
  exact ⟨(noGarbage_iff hserving hos h.formed horder).mpr hreferenced, hcount.1, hcount.2⟩

/-- An object of three chunks put twice in one millisecond. -/
def sameTwice : List ObjectCall :=
  [.createBucket (str "b") 5, .putObject threeChunks 6 7, .putObject threeChunks 6 8]

theorem sameCount_sameTwice : ∀ c ∈ sameTwice, c.SameCount smallStore fun _ => 3 := by
  have hput : ∀ now, (ObjectCall.putObject threeChunks 6 now).SameCount smallStore fun _ => 3 :=
    fun _ => ⟨(by decide : tab ∉ str "b"), (by decide : tab ∉ str "k"), by decide⟩
  exact List.forall_mem_cons.mpr ⟨trivial, List.forall_mem_cons.mpr
    ⟨hput 7, List.forall_mem_singleton.mpr (hput 8)⟩⟩

/-- The theorem at a collection after those calls. -/
theorem collectsAll_sameTwice :
    let M := (smallStore.runCalls sameTwice (Machine.boot (fun _ => none) "/tmp/kv.wal")).2
    ∃ order, Enumerates order M.store.map ∧ CollectsAll order { M with os := [.short 1] } := by
  intro M
  obtain ⟨past, hpast⟩ := (ReachableBy.boot smallStore _ _).runCalls sameCount_sameTwice
  obtain ⟨order, horder⟩ := exists_enumerates M.store.map
  exact ⟨order, horder, collectsAll hpast horder (by decide)⟩

/-- Of one chunk the second time. -/
def thenOne : List ObjectCall :=
  [.createBucket (str "b") 5, .putObject threeChunks 6 7,
    .putObject { bucket := str "b", key := str "k", data := [9] } 6 8]

theorem tabFree_thenOne : ∀ c ∈ thenOne, c.TabFree := by
  have hone : PutObjectRequest.TabFree { bucket := str "b", key := str "k", data := [9] } :=
    ⟨(by decide : tab ∉ str "b"), (by decide : tab ∉ str "k"),
      (by decide : tab ∉ str "application/octet-stream")⟩
  exact List.forall_mem_cons.mpr ⟨trivial, List.forall_mem_cons.mpr
    ⟨tabFree_threeChunks, List.forall_mem_singleton.mpr hone⟩⟩

/-- What these calls leave. -/
def leftOver : List Entry :=
  [⟨bucketMetaKey (str "b"), serializeBucketMeta ⟨str "b", 5⟩⟩,
    ⟨chunkKey (makeObjectId (str "b") (str "k") 6) 0, [9]⟩,
    ⟨chunkKey (makeObjectId (str "b") (str "k") 6) 1, [3, 4]⟩,
    ⟨chunkKey (makeObjectId (str "b") (str "k") 6) 2, [5]⟩,
    ⟨objectMetaKey (str "b") (str "k"), serializeMetadata
      (smallStore.putMetadata { bucket := str "b", key := str "k", data := [9] } 6 8)⟩,
    ⟨bucketIndexKey (str "b") (str "k"), makeObjectId (str "b") (str "k") 6⟩]

/-- The second and third chunk of the first put are never collected. -/
theorem not_collectsAll :
    ¬ ∀ past M, ReachableBy smallStore ObjectCall.TabFree OnlyPut past M →
      ∀ order, Enumerates order M.store.map → CollectsAll order { M with os := [] } := by
  intro hall
  obtain ⟨past, hpast⟩ := (ReachableBy.boot smallStore _ OnlyPut).runCalls tabFree_thenOne
  have horder : Enumerates leftOver
      (smallStore.runCalls thenOne (Machine.boot (fun _ => none) "/tmp/kv.wal")).2.store.map := by
    decide +kernel
  have hcounts : ∀ e ∈ leftOver,
      (deserializeMetadata e.2).all fun md => md.chunkCount.toNat ≤ 1 := by
    decide +kernel
  have hread : ((deserializeMetadata (serializeMetadata (smallStore.putMetadata
      { bucket := str "b", key := str "k", data := [9] } 6 8))).map fun md =>
        (md.state, md.objectId)) = some (.committed, makeObjectId (str "b") (str "k") 6) := by
    decide +kernel
  obtain ⟨md, hmd, hstate⟩ := Option.map_eq_some_iff.mp hread
  obtain ⟨hcommitted, hid⟩ := Prod.mk.inj hstate
  set M := (smallStore.runCalls thenOne (Machine.boot (fun _ => none) "/tmp/kv.wal")).2
  have hserving : Machine.Serving { M with os := [] } := ⟨hpast.serving.opened, hpast.serving.fd⟩
  have hreferenced := (noGarbage_iff hserving (by decide) hpast.formed horder).mp
    (hall past M hpast leftOver horder).noGarbage
  obtain ⟨b, k, md', hmd', -, -, hlt⟩ := hreferenced (makeObjectId (str "b") (str "k") 6) 1
    ⟨str "b", str "k", _, md, horder.mem_iff.mp (by decide), hmd, hcommitted, hid⟩
    (Option.isSome_iff_exists.mpr ⟨[3, 4], horder.mem_iff.mp (by decide)⟩)
  obtain ⟨raw, hraw, hread'⟩ := Option.bind_eq_some_iff.mp hmd'
  have hcount := hcounts _ (horder.mem_iff.mpr hraw)
  rw [hread', Option.all_some, decide_eq_true_iff] at hcount
  omega

end KvEngine
