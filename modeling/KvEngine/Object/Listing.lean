import KvEngine.Object.CrashAtomicity

/-!
# Listings after a crash

`ListObjects` goes by the index of a bucket, `GetObject` by metadata, and a put writes the
two in separate records, so a crash may keep the one without the other. Nothing is assumed
here of the size of objects.

Results:
* `listsFound_iff`: listings and lookups agree on a map exactly when every live object in
  an existing bucket has an index entry.
* `listsAfterCrash_iff`: after a crash they agree exactly when the log that is left does not
  end with the committed metadata of an object that has no index entry.
* `not_listsAfterCrash`: a crash after the group commit of a new object's metadata.
-/

namespace KvEngine

open KvProg ObjectStore

variable {s : ObjectStore} {m m' : Map} {T T' : ℕ} {b k : Bytes}

/-! ## Metadata and chunks -/

/-- Under the object's key there is nothing, metadata marked as deleted, or committed
metadata with all its chunks. -/
def Whole (m : Map) (T : ℕ) (b k : Bytes) : Prop :=
  m.lookup (objectMetaKey b k) = none ∨
    ∃ md, m.lookup (objectMetaKey b k) = some (serializeMetadata md) ∧ Describes T b k md ∧
      (md.state = .deleted ∨ md.state = .committed ∧
        ∀ i < md.chunkCount.toNat, (m.lookup (chunkKey md.objectId i)).isSome)

/-- So it is for every object. -/
def AllWhole (m : Map) (T : ℕ) : Prop := ∀ b k, colon ∉ b → Whole m T b k

theorem Whole.mono (h : Whole m T b k) (hT : T ≤ T') : Whole m T' b k := by
  refine h.imp_right ?_
  rintro ⟨md, hlook, hd, hstate⟩
  exact ⟨md, hlook, hd.mono hT, hstate⟩

theorem AllWhole.mono (h : AllWhole m T) (hT : T ≤ T') : AllWhole m T' :=
  fun b k hb => (h b k hb).mono hT

theorem Whole.congr (h : Whole m T b k)
    (hmeta : m'.lookup (objectMetaKey b k) = m.lookup (objectMetaKey b k))
    (hchunks : ∀ md, m.lookup (objectMetaKey b k) = some (serializeMetadata md) →
      Describes T b k md → md.state = .committed →
        ∀ i, m'.lookup (chunkKey md.objectId i) = m.lookup (chunkKey md.objectId i)) :
    Whole m' T b k := by
  unfold Whole
  rw [hmeta]
  refine h.imp_right ?_
  rintro ⟨md, hlook, hd, hstate⟩
  refine ⟨md, hlook, hd, hstate.imp_right ?_⟩
  rintro ⟨hcommitted, hall⟩
  refine ⟨hcommitted, fun i hi => ?_⟩
  rw [hchunks md hlook hd hcommitted]
  exact hall i hi

theorem AllWhole.of_unrelated {key : Bytes} (h : AllWhole m T) (hkey : Unrelated T key)
    (hm' : ∀ k, k ≠ key → m'.lookup k = m.lookup k) : AllWhole m' T := by
  intro b k hb
  refine (h b k hb).congr (hm' _ (hkey.meta_ne b k hb)) ?_
  rintro md - hd - i
  obtain ⟨t, ht, hid⟩ := hd.objectId
  rw [hid]
  exact hm' _ (hkey.chunk_ne b k t i ht)

theorem AllWhole.insert_of_unrelated {key : Bytes} (h : AllWhole m T) (hkey : Unrelated T key)
    (v : Bytes) : AllWhole (m.insert key v) T :=
  h.of_unrelated hkey fun _ hk => Finmap.lookup_insert_of_ne m hk

theorem AllWhole.erase_of_unrelated {key : Bytes} (h : AllWhole m T) (hkey : Unrelated T key) :
    AllWhole (m.erase key) T :=
  h.of_unrelated hkey fun _ hk => Finmap.lookup_erase_ne hk

/-- New metadata for one object. -/
theorem AllWhole.insert_meta (h : AllWhole m T) (hb : colon ∉ b) {raw : Bytes}
    (hv : Whole (m.insert (objectMetaKey b k) raw) T b k) :
    AllWhole (m.insert (objectMetaKey b k) raw) T := by
  intro b' k' hb'
  by_cases heq : (b', k') = (b, k)
  · obtain ⟨rfl, rfl⟩ := Prod.mk.inj heq
    exact hv
  · refine (h b' k' hb').congr (Finmap.lookup_insert_of_ne m fun hkey => heq ?_) ?_
    · obtain ⟨rfl, rfl⟩ := objectMetaKey_inj hb' hb hkey
      rfl
    · rintro md - - - i
      exact Finmap.lookup_insert_of_ne m (objectMetaKey_ne_chunkKey _ _ _ _).symm

/-! ## The index -/

/-- Every live object has an entry in the index of its bucket. -/
def LiveIndexed (m : Map) : Prop :=
  ∀ b k, colon ∉ b → (listedEntry m b k).isSome → (m.lookup (bucketIndexKey b k)).isSome

theorem listedEntry_congr (h : m'.lookup (objectMetaKey b k) = m.lookup (objectMetaKey b k)) :
    listedEntry m' b k = listedEntry m b k := by
  unfold listedEntry
  rw [h]

/-- Neither metadata nor the index matters of keys of other families. -/
theorem LiveIndexed.of_family {key : Bytes} (h : LiveIndexed m)
    (hmeta : family key ≠ str "objmeta") (hindex : family key ≠ str "bucketi")
    (hm' : ∀ k, k ≠ key → m'.lookup k = m.lookup k) : LiveIndexed m' := by
  intro b k hb hlive
  rw [hm' _ (ne_of_family (by simpa using hindex.symm))]
  refine h b k hb ?_
  rwa [← listedEntry_congr (hm' _ (ne_of_family (by simpa using hmeta.symm)))]

/-- New metadata for an object that is indexed or not live. -/
theorem LiveIndexed.insert_meta (h : LiveIndexed m) (hb : colon ∉ b) {raw : Bytes}
    (hv : (listedEntry (m.insert (objectMetaKey b k) raw) b k).isSome →
      (m.lookup (bucketIndexKey b k)).isSome) :
    LiveIndexed (m.insert (objectMetaKey b k) raw) := by
  intro b' k' hb' hlive
  have hne : bucketIndexKey b' k' ≠ objectMetaKey b k := bucketIndexKey_ne_objectMetaKey _ _ _ _
  rw [Finmap.lookup_insert_of_ne m hne]
  by_cases heq : (b', k') = (b, k)
  · obtain ⟨rfl, rfl⟩ := Prod.mk.inj heq
    exact hv hlive
  · refine h b' k' hb' ?_
    rwa [listedEntry_congr (Finmap.lookup_insert_of_ne m fun hkey => heq ?_)] at hlive
    obtain ⟨rfl, rfl⟩ := objectMetaKey_inj hb' hb hkey
    rfl

/-- An object that is not live needs no entry. -/
theorem LiveIndexed.erase_index (h : LiveIndexed m) (hb : colon ∉ b)
    (hdead : listedEntry m b k = none) : LiveIndexed (m.erase (bucketIndexKey b k)) := by
  intro b' k' hb' hlive
  have hne : objectMetaKey b' k' ≠ bucketIndexKey b k :=
    (bucketIndexKey_ne_objectMetaKey _ _ _ _).symm
  rw [listedEntry_congr (Finmap.lookup_erase_ne hne)] at hlive
  rw [Finmap.lookup_erase_ne]
  · exact h b' k' hb' hlive
  · intro hkey
    obtain ⟨rfl, rfl⟩ := bucketIndexKey_inj hb' hb hkey
    rw [hdead] at hlive
    simp at hlive

/-- Metadata and index entry of one object. -/
theorem LiveIndexed.insert_object (h : LiveIndexed m) (hb : colon ∉ b) (raw id : Bytes) :
    LiveIndexed ((m.insert (objectMetaKey b k) raw).insert (bucketIndexKey b k) id) := by
  intro b' k' hb' hlive
  by_cases heq : (b', k') = (b, k)
  · obtain ⟨rfl, rfl⟩ := Prod.mk.inj heq
    rw [Finmap.lookup_insert]
    rfl
  · have hindex : bucketIndexKey b' k' ≠ bucketIndexKey b k := by
      intro hkey
      obtain ⟨rfl, rfl⟩ := bucketIndexKey_inj hb' hb hkey
      exact heq rfl
    have hne := bucketIndexKey_ne_objectMetaKey
    have hmeta : objectMetaKey b' k' ≠ objectMetaKey b k := by
      intro hkey
      obtain ⟨rfl, rfl⟩ := objectMetaKey_inj hb' hb hkey
      exact heq rfl
    rw [listedEntry_congr (m := m)] at hlive
    · rw [Finmap.lookup_insert_of_ne _ hindex, Finmap.lookup_insert_of_ne _ (hne _ _ _ _)]
      exact h b' k' hb' hlive
    · rw [Finmap.lookup_insert_of_ne _ (hne _ _ _ _).symm, Finmap.lookup_insert_of_ne _ hmeta]

/-- What `GetObject` finds is what is live. -/
theorem Whole.found_iff (h : Whole m T b k) :
    ((getObject b k).value m).found = (listedEntry m b k).isSome := by
  rw [getObject, value_bind, value_kvGet, after_kvGet, listedEntry]
  obtain hnone | ⟨md, hlook, hd, hstate⟩ := h
  · rw [hnone]
    rfl
  · have hread : deserializeMetadata (serializeMetadata md) = some md :=
      hd.deserialize (hstate.elim .inr fun hstate => .inl hstate.1)
    rw [hlook, Option.bind_some, hread]
    dsimp only
    rw [hread]
    dsimp only
    split_ifs with hdeleted
    · rfl
    · obtain ⟨-, hall⟩ := hstate.resolve_left hdeleted
      have hget : ∀ i ∈ List.range md.chunkCount.toNat, m.lookup (chunkKey md.objectId i) =
          some ((m.lookup (chunkKey md.objectId i)).getD []) := by
        intro i hi
        obtain ⟨c, hc⟩ := Option.isSome_iff_exists.mp (hall i (List.mem_range.mp hi))
        rw [hc]
        rfl
      rw [value_bind, value_readChunks _ _ _ hget]
      rfl

theorem ops_listObjects {order : List Entry} (horder : Enumerates order m) (b pfx : Bytes) :
    (ObjectStore.listObjects b pfx order).ops m = [] := by
  rw [ObjectStore.listObjects]
  split_ifs with hnil
  · rfl
  · obtain ⟨hvalue, hops⟩ := bucketExists_eq (m := m) hnil
    have hafter : (bucketExists b).after m = m := by rw [after, hops, applyOps_nil]
    rw [ops_bind, hops, List.nil_append, hvalue, hafter]
    split_ifs
    · obtain ⟨ks, hkeys, -, -⟩ := exists_indexKeys horder b pfx
      rw [ops_bind, ops_kvList, value_kvList, after_kvList, hkeys, List.nil_append, ops_bind,
        (listEntries_eq b ks).1]
      rfl
    · rfl

/-- The keys of a listing are those of live objects in the index. -/
theorem keys_listObjects (h : AllWhole m T) (hb : colon ∉ b) (hnil : b ≠ [])
    (hbucket : (m.lookup (bucketMetaKey b)).isSome) {order : List Entry}
    (horder : Enumerates order m) (pfx : Bytes) :
    ((listObjects b pfx order).value m).ok = true ∧
      ∀ k, k ∈ ((listObjects b pfx order).value m).objects.map ObjectListEntry.key ↔
        pfx <+: k ∧ (m.lookup (bucketIndexKey b k)).isSome ∧ (listedEntry m b k).isSome := by
  obtain ⟨ks, hkeys, -, hks⟩ := exists_indexKeys horder b pfx
  obtain ⟨-, hvalue⟩ := listEntries_eq (m := m) b ks
  rw [listObjects, if_neg hnil, bucketExists, if_neg hnil]
  simp only [value_bind, after_bind, value_kvGet, after_kvGet, value_pure, after_pure, hbucket,
    if_true, value_kvList, after_kvList, hkeys, hvalue, true_and]
  have hkey : ∀ k e, listedEntry m b k = some e → e.key = k := by
    intro k e he
    obtain hnone | ⟨md, hlook, hd, hstate⟩ := h b k hb
    · simp [listedEntry, hnone] at he
    · have hread : deserializeMetadata (serializeMetadata md) = some md :=
        hd.deserialize (hstate.elim .inr fun hstate => .inl hstate.1)
      rw [listedEntry, hlook, Option.bind_some, hread] at he
      dsimp only at he
      split_ifs at he
      obtain rfl := Option.some.inj he
      exact hd.key
  intro k
  rw [List.mem_map]
  constructor
  · rintro ⟨e, he, rfl⟩
    obtain ⟨k', hk', he'⟩ := List.mem_filterMap.mp he
    rw [hkey k' e he']
    exact ⟨((hks k').mp hk').1, ((hks k').mp hk').2, Option.isSome_of_eq_some he'⟩
  · rintro ⟨hpfx, hindex, hlive⟩
    obtain ⟨e, he⟩ := Option.isSome_iff_exists.mp hlive
    exact ⟨e, List.mem_filterMap.mpr ⟨k, (hks k).mpr ⟨hpfx, hindex⟩, he⟩, hkey k e he⟩

/-! ## Listings and lookups -/

/-- For every existing bucket and every prefix, the keys that `ListObjects` returns are
those with the prefix for which `GetObject` finds an object. -/
def ListsFound (M : Machine) : Prop :=
  ∀ b, colon ∉ b → ((bucketExists b).exec M).1 = true →
    ∀ pfx order, Enumerates order M.store.map →
      ((listObjects b pfx order).exec M).1.ok = true ∧
        ∀ k, k ∈ ((listObjects b pfx order).exec M).1.objects.map ObjectListEntry.key ↔
          pfx <+: k ∧ ((getObject b k).exec M).1.found = true

theorem exists_enumerates (m : Map) : ∃ order, Enumerates order m :=
  ⟨m.entries.toList, (Multiset.coe_toList m.entries).symm⟩

theorem bucketExists_exec {M : Machine} :
    ((bucketExists b).exec M).1 = true ↔
      b ≠ [] ∧ (M.store.map.lookup (bucketMetaKey b)).isSome := by
  by_cases hb : b = []
  · simp [bucketExists, hb, exec, Pure.pure]
  · rw [exec_of_ops_nil (bucketExists_eq hb).2, (bucketExists_eq hb).1]
    simp [hb]

/-- They agree exactly when every live object in an existing bucket has an index entry. -/
theorem listsFound_iff {M : Machine} (h : AllWhole M.store.map T) :
    ListsFound M ↔ ∀ b k, colon ∉ b → b ≠ [] →
      (M.store.map.lookup (bucketMetaKey b)).isSome → (listedEntry M.store.map b k).isSome →
        (M.store.map.lookup (bucketIndexKey b k)).isSome := by
  have hfound : ∀ b k, colon ∉ b →
      (((getObject b k).exec M).1.found = true ↔ (listedEntry M.store.map b k).isSome) := by
    intro b k hb
    rw [exec_of_ops_nil ops_getObject, (h b k hb).found_iff]
  constructor
  · intro hlists b k hb hnil hbucket hlive
    obtain ⟨order, horder⟩ := exists_enumerates M.store.map
    obtain ⟨-, hkeys⟩ := hlists b hb (bucketExists_exec.mpr ⟨hnil, hbucket⟩) [] order horder
    obtain ⟨-, hks⟩ := keys_listObjects h hb hnil hbucket horder []
    rw [exec_of_ops_nil (ops_listObjects horder b [])] at hkeys
    have hmem := (hkeys k).mpr ⟨List.nil_prefix, (hfound b k hb).mpr hlive⟩
    exact ((hks k).mp hmem).2.1
  · intro hindexed b hb hexists pfx order horder
    obtain ⟨hnil, hbucket⟩ := bucketExists_exec.mp hexists
    obtain ⟨hok, hks⟩ := keys_listObjects h hb hnil hbucket horder pfx
    rw [exec_of_ops_nil (ops_listObjects horder b pfx)]
    refine ⟨hok, fun k => (hks k).trans (and_congr_right fun _ => ?_)⟩
    rw [hfound b k hb]
    exact and_iff_right_of_imp (hindexed b k hb hnil hbucket)

/-! ## Calls -/

/-- `PutObject` passes its checks and makes an object id. -/
def PutObjectRequest.Passes (req : PutObjectRequest) (m : Map) : Prop :=
  req.bucket ≠ [] ∧ req.key ≠ [] ∧ (m.lookup (bucketMetaKey req.bucket)).isSome

instance (req : PutObjectRequest) (m : Map) : Decidable (req.Passes m) :=
  inferInstanceAs (Decidable (_ ∧ _ ∧ _))

/-- A call whose names can be told apart, and whose clock reading for a new object id is
not below `T`. -/
structure ObjectCall.Timed (m : Map) (T : ℕ) (c : ObjectCall) : Prop where
  named : c.Named
  ordered : c.Ordered m
  later : ∀ req idMs nowMs, c = .putObject req idMs nowMs → req.Passes m → T ≤ idMs.toNat

/-- The least reading allowed after it. -/
def ObjectCall.readingAfter (m : Map) (T : ℕ) : ObjectCall → ℕ
  | .putObject req idMs _ => if req.Passes m then idMs.toNat + 1 else T
  | _ => T

theorem ObjectCall.Timed.le_readingAfter {c : ObjectCall} (h : c.Timed m T) :
    T ≤ c.readingAfter m T := by
  cases c with
  | putObject req idMs now =>
    rw [readingAfter]
    split_ifs with hpasses
    · have := h.later req idMs now rfl hpasses
      omega
    · exact le_rfl
  | _ => exact le_rfl

/-- The last of the calls on the key-value store commits an object that has no entry in
the index of its bucket. -/
def CommitsUnindexed (m : Map) (ops : List Op) : Prop :=
  ∃ pre b k md, ops = pre ++ [.put (objectMetaKey b k) (serializeMetadata md)] ∧
    colon ∉ b ∧ b ≠ [] ∧ md.TabFree ∧ md.state = .committed ∧
    (applyOps pre m).lookup (bucketIndexKey b k) = none ∧
    ((applyOps pre m).lookup (bucketMetaKey b)).isSome

/-- What a call does to a map on which objects are whole and live ones indexed: so it is
afterwards, objects are whole at every point, and live ones are indexed there unless the
call has just committed a new one. A call that does not end with a flush keeps the index
complete. -/
structure Lists {α : Type} (p : KvProg α) (m : Map) (T' : ℕ) : Prop where
  after : AllWhole (p.after m) T' ∧ LiveIndexed (p.after m)
  whole : Always (AllWhole · T') p m
  indexed : ∀ i, LiveIndexed (applyOps ((p.ops m).take i) m) ∨
    CommitsUnindexed m ((p.ops m).take i)
  ends : (∃ ops, p.ops m = ops ++ [.flushWal]) ∨
    Always (fun m' => AllWhole m' T' ∧ LiveIndexed m') p m

theorem Lists.of_always {α : Type} {p : KvProg α}
    (h : Always (fun m' => AllWhole m' T' ∧ LiveIndexed m') p m) : Lists p m T' :=
  ⟨h.after, h.mono fun _ hm => hm.1, fun i => .inl (h i).2, .inr h⟩

/-- Only the calls on the store count. -/
theorem Lists.of_ops_eq {α β : Type} {p : KvProg α} {p' : KvProg β} (h : Lists p m T')
    (hops : p'.ops m = p.ops m) : Lists p' m T' := by
  obtain ⟨hafter, hwhole, hindexed, hends⟩ := h
  unfold Always at hwhole hends
  refine ⟨?_, ?_, ?_, ?_⟩
  · rwa [KvProg.after, hops]
  · unfold Always
    rwa [hops]
  · rwa [hops]
  · unfold Always
    rwa [hops]

theorem lists_createBucket (h : AllWhole m T) (hindex : LiveIndexed m) (b : Bytes)
    (nowMs : UInt64) : Lists (createBucket b nowMs) m T := by
  apply Lists.of_always
  unfold createBucket
  split_ifs
  · exact .of_ops_nil rfl ⟨h, hindex⟩
  · refine .bind (.of_ops_nil rfl ⟨h, hindex⟩) ?_
    split_ifs
    · exact .of_ops_nil rfl ⟨h, hindex⟩
    · have hnew : AllWhole (m.insert (bucketMetaKey b) (serializeBucketMeta ⟨b, nowMs⟩)) T ∧
          LiveIndexed (m.insert (bucketMetaKey b) (serializeBucketMeta ⟨b, nowMs⟩)) := by
        refine ⟨h.insert_of_unrelated (.of_family ?_ ?_) _, hindex.of_family ?_ ?_ fun _ hk =>
          Finmap.lookup_insert_of_ne m hk⟩
        all_goals
          rw [family_bucketMetaKey]
          decide
      exact .bind (.kvPut ⟨h, hindex⟩ hnew) (.of_ops_nil rfl hnew)

/-- A delete marks the metadata first: an object that is not live needs no index entry. -/
theorem lists_deleteObject (h : AllWhole m T) (hindex : LiveIndexed m) (hb : colon ∉ b)
    (k : Bytes) (nowMs : UInt64) : Lists (deleteObject b k nowMs) m T := by
  apply Lists.of_always
  refine .bind (.of_ops_nil rfl ⟨h, hindex⟩) ?_
  rw [value_kvGet, after_kvGet]
  obtain hnone | ⟨md, hlook, hd, hstate⟩ := h b k hb
  · rw [hnone]
    exact .of_ops_nil rfl ⟨h, hindex⟩
  · have hread : deserializeMetadata (serializeMetadata md) = some md :=
      hd.deserialize (hstate.elim .inr fun hstate => .inl hstate.1)
    rw [hlook]
    dsimp only
    rw [hread]
    set md' : ObjectMetadata := { md with state := .deleted, updatedAtEpochMs := nowMs } with hmd'
    have hd' : Describes T b k md' := ⟨hd.tabFree.deleted nowMs, hd.key, hd.objectId⟩
    have hmark : AllWhole (m.insert (objectMetaKey b k) (serializeMetadata md')) T :=
      h.insert_meta hb (.inr ⟨md', Finmap.lookup_insert m, hd', .inl rfl⟩)
    have hdead : listedEntry (m.insert (objectMetaKey b k) (serializeMetadata md')) b k = none := by
      rw [listedEntry, Finmap.lookup_insert, Option.bind_some, hd'.deserialize (.inr rfl)]
      exact if_pos rfl
    have hmarked : LiveIndexed (m.insert (objectMetaKey b k) (serializeMetadata md')) := by
      refine hindex.insert_meta hb fun hlive => ?_
      rw [hdead] at hlive
      simp at hlive
    have herased : AllWhole ((m.insert (objectMetaKey b k) (serializeMetadata md')).erase
        (bucketIndexKey b k)) T := hmark.erase_of_unrelated (.of_family ?_ ?_)
    · have hrest := hmarked.erase_index hb hdead
      refine .bind (.kvPut ⟨h, hindex⟩ ⟨hmark, hmarked⟩) ?_
      refine .bind (.kvDel ⟨hmark, hmarked⟩ ⟨herased, hrest⟩) ?_
      refine .bind (.kvFlushWal ⟨herased, hrest⟩) ?_
      rw [value_kvFlushWal]
      exact .of_ops_nil rfl ⟨herased, hrest⟩
    all_goals
      rw [family_bucketIndexKey]
      decide

/-- A collection erases no chunk of a committed object. -/
theorem lists_garbageCollectChunks (h : AllWhole m T) (hindex : LiveIndexed m)
    {order : List Entry} (horder : Enumerates order m) :
    Lists (garbageCollectChunks order) m T := by
  apply Lists.of_always
  have halways : Always (fun m' => (AllWhole m' T ∧ LiveIndexed m') ∧
      ∀ b k, m'.lookup (objectMetaKey b k) = m.lookup (objectMetaKey b k))
      (garbageCollectChunks order) m := by
    refine always_collect ⟨⟨h, hindex⟩, fun _ _ => rfl⟩ horder ?_
    rintro m' key id ⟨⟨hwhole, hindexed⟩, hsame⟩ hchunk hkeyId hlive
    have hfamily := family_of_objchunk hchunk
    have hne : ∀ b k, objectMetaKey b k ≠ key := by
      intro b k
      apply ne_of_family
      rw [family_objectMetaKey, hfamily]
      decide
    refine ⟨⟨fun b k hb => ?_, ?_⟩, fun b k => ?_⟩
    · refine (hwhole b k hb).congr (Finmap.lookup_erase_ne (hne b k)) fun md hlook hd hstate i => ?_
      refine Finmap.lookup_erase_ne ?_
      rintro rfl
      rw [chunkObjectId_chunkKey hd.objectId_ne] at hkeyId
      exact hlive b k md (hsame b k ▸ hlook) (hd.deserialize (.inl hstate)) hstate
        (Option.some.inj hkeyId)
    · refine hindexed.of_family ?_ ?_ fun _ hk => Finmap.lookup_erase_ne hk
      all_goals
        rw [hfamily]
        decide
    · rw [Finmap.lookup_erase_ne (hne b k), hsame b k]
  exact halways.mono fun _ hm => hm.1

theorem take_append_three {α : Type} (l : List α) (x y z : α) (i : ℕ) :
    (∃ j, (l ++ [x, y, z]).take i = l.take j) ∨ (l ++ [x, y, z]).take i = l ++ [x] ∨
      (l ++ [x, y, z]).take i = l ++ [x, y] ∨ (l ++ [x, y, z]).take i = l ++ [x, y, z] := by
  rcases Nat.lt_or_ge i (l.length + 1) with hlt | hge
  · left
    exact ⟨i, List.take_append_of_le_length (by omega)⟩
  · right
    obtain ⟨j, rfl⟩ : ∃ j, i = l.length + 1 + j := ⟨i - (l.length + 1), by omega⟩
    rw [Nat.add_assoc, List.take_length_add_append]
    match j with
    | 0 => simp
    | 1 => simp
    | j + 2 =>
      right
      right
      rw [List.take_of_length_le]
      show 3 ≤ 1 + (j + 2)
      omega

theorem ops_putObject_of_not_passes {req : PutObjectRequest} (h : ¬ req.Passes m)
    (idMs nowMs : UInt64) : (s.putObject req idMs nowMs).ops m = [] := by
  rw [putObject]
  split_ifs with hb hk
  · rfl
  · rfl
  · obtain ⟨hvalue, hops⟩ := bucketExists_eq (m := m) hb
    have hbucket : (m.lookup (bucketMetaKey req.bucket)).isSome = false := by
      rw [Bool.eq_false_iff]
      exact fun hbucket => h ⟨hb, hk, hbucket⟩
    rw [ops_bind, hvalue, hops, hbucket]
    rfl

/-- A put writes its chunks, commits them with the metadata and then makes the index entry. -/
theorem lists_putObject (h : AllWhole m T) (hindex : LiveIndexed m) {req : PutObjectRequest}
    (hcolon : colon ∉ req.bucket) (htab : req.TabFree) {idMs : UInt64}
    (hT : req.Passes m → T ≤ idMs.toNat) (nowMs : UInt64) :
    Lists (s.putObject req idMs nowMs) m (if req.Passes m then idMs.toNat + 1 else T) := by
  by_cases hpasses : req.Passes m
  · obtain ⟨hb, hk, hbucket⟩ := id hpasses
    have hT := hT hpasses
    rw [if_pos hpasses]
    obtain ⟨-, hops⟩ := putObject_eq (s := s) hb hk hbucket idMs nowMs
    set id := makeObjectId req.bucket req.key idMs with hid
    set is := List.range (s.chunkCount req.data.length).toNat with his
    set md := s.putMetadata req idMs nowMs with hmd
    have htabs : md.TabFree := tabFree_putMetadata htab s idMs nowMs
    have hchunks : Always (fun m' => AllWhole m' T ∧ LiveIndexed m')
        (s.writeChunks id req.data is) m := by
      refine always_writeChunks _ _ _ ⟨h, hindex⟩ fun m' i hm' => ?_
      refine ⟨hm'.1.insert_of_unrelated (.chunkKey hT _ _ i) _, hm'.2.of_family ?_ ?_ fun _ hne =>
        Finmap.lookup_insert_of_ne m' hne⟩
      all_goals
        rw [family_chunkKey]
        decide
    set m₁ := (s.writeChunks id req.data is).after m with hm₁
    have hkeep : ∀ key, family key ≠ str "objchun" → m₁.lookup key = m.lookup key :=
      fun key hkey => lookup_writeChunks_of_family _ _ _ hkey
    have hkeepIndex : m₁.lookup (bucketIndexKey req.bucket req.key) =
        m.lookup (bucketIndexKey req.bucket req.key) := by
      apply hkeep
      rw [family_bucketIndexKey]
      decide
    have hcommit : AllWhole (m₁.insert (objectMetaKey req.bucket req.key) (serializeMetadata md))
        (idMs.toNat + 1) := by
      refine (hchunks.after.1.mono (by omega)).insert_meta hcolon
        (.inr ⟨md, ?_, ?_, .inr ⟨rfl, ?_⟩⟩)
      · exact Finmap.lookup_insert m₁
      · exact ⟨htabs, rfl, idMs, by omega, rfl⟩
      · intro i hi
        rw [Finmap.lookup_insert_of_ne _ (objectMetaKey_ne_chunkKey _ _ _ _).symm]
        have hwritten := lookup_writeChunks (s := s) (m := m) id req.data is (List.mem_range.mpr hi)
        exact Option.isSome_of_eq_some hwritten
    have hunrelated : Unrelated (idMs.toNat + 1) (bucketIndexKey req.bucket req.key) := by
      apply Unrelated.of_family <;> rw [family_bucketIndexKey] <;> decide
    have hwhole := hcommit.insert_of_unrelated hunrelated id
    have hindexed : LiveIndexed ((m₁.insert (objectMetaKey req.bucket req.key)
        (serializeMetadata md)).insert (bucketIndexKey req.bucket req.key) id) :=
      hchunks.after.2.insert_object hcolon _ _
    refine Lists.of_ops_eq ⟨?_, ?_, fun i => ?_, .inl ?_⟩ hops
    · simpa using ⟨hwhole, hindexed⟩
    · have halways : Always (AllWhole · (idMs.toNat + 1)) (s.writeChunks id req.data is) m :=
        hchunks.mono fun _ hm' => hm'.1.mono (by omega)
      refine .bind halways (.bind (.kvPut halways.after hcommit) ?_)
      exact .bind (.kvPut hcommit hwhole) (.kvFlushWal hwhole)
    · simp only [ops_bind, ops_kvPut, ops_kvFlushWal, List.singleton_append]
      obtain ⟨j, hj⟩ | hcut | hcut | hcut := take_append_three
        ((s.writeChunks id req.data is).ops m)
        (.put (objectMetaKey req.bucket req.key) (serializeMetadata md))
        (.put (bucketIndexKey req.bucket req.key) id) .flushWal i
      · left
        rw [hj]
        exact (hchunks j).2
      · rw [hcut, applyOps_append]
        by_cases hthere : (m.lookup (bucketIndexKey req.bucket req.key)).isSome
        · left
          refine hchunks.after.2.insert_meta hcolon fun _ => ?_
          rwa [hkeepIndex]
        · right
          refine ⟨_, req.bucket, req.key, md, rfl, hcolon, hb, htabs, rfl, ?_, ?_⟩
          · show m₁.lookup _ = none
            rw [hkeepIndex]
            exact Option.not_isSome_iff_eq_none.mp hthere
          · show (m₁.lookup _).isSome
            rwa [hkeep]
            rw [family_bucketMetaKey]
            decide
      · left
        rw [hcut, applyOps_append]
        exact hindexed
      · left
        rw [hcut, applyOps_append]
        exact hindexed
    · simp only [ops_bind, ops_kvPut, ops_kvFlushWal, ← List.append_assoc]
      exact ⟨_, rfl⟩
  · rw [if_neg hpasses]
    exact .of_always (.of_ops_nil (ops_putObject_of_not_passes hpasses idMs nowMs) ⟨h, hindex⟩)

/-- Every call. -/
theorem ObjectCall.lists {c : ObjectCall} (h : AllWhole m T) (hindex : LiveIndexed m)
    (hc : c.Timed m T) : Lists (c.prog s) m (c.readingAfter m T) := by
  obtain ⟨hnamed, hordered, hlater⟩ := hc
  cases c with
  | createBucket b now =>
    exact (lists_createBucket h hindex b now).of_ops_eq (by simp [prog])
  | putObject req idMs now =>
    have hput := lists_putObject (s := s) h hindex hnamed.1 hnamed.2 (hlater req idMs now rfl) now
    exact hput.of_ops_eq (by simp [prog])
  | getObject b k =>
    exact .of_always (.of_ops_nil (by simp [prog, ops_getObject]) ⟨h, hindex⟩)
  | deleteObject b k now =>
    exact (lists_deleteObject h hindex hnamed k now).of_ops_eq (by simp [prog])
  | listObjects b pfx order =>
    exact .of_always (.of_ops_nil (by simp [prog, ops_listObjects hordered]) ⟨h, hindex⟩)
  | garbageCollectChunks order =>
    exact (lists_garbageCollectChunks h hindex hordered).of_ops_eq (by simp [prog])

/-! ## Runs -/

/-- Every call of the run is timed where it is made. -/
def ObjectStore.TimedRun (s : ObjectStore) : Machine → ℕ → List ObjectCall → Prop
  | _, _, [] => True
  | M, T, c :: cs =>
    c.Timed M.store.map T ∧ s.TimedRun ((c.prog s).exec M).2 (c.readingAfter M.store.map T) cs

/-- Objects are whole, and live ones indexed. -/
def Sound (T : ℕ) (m : Map) : Prop := AllWhole m T ∧ LiveIndexed m

/-- After a run, and the running call's part in it. -/
theorem ObjectStore.TimedRun.reaches {M : Machine} {ops : List Op} {cs : List ObjectCall}
    {c : ObjectCall} (hwork : M.Working) (hmap : M.store.map = applyOps ops ∅)
    (h : Sound T M.store.map) (hrec : BehindFlush (Sound T) ops)
    (hrun : s.TimedRun M T (cs ++ [c])) :
    ∃ T', BehindFlush (Sound T') (ops ++ s.opsOf cs M.store.map) ∧
      Sound T' (applyOps (s.opsOf cs M.store.map) M.store.map) ∧
      c.Timed (applyOps (s.opsOf cs M.store.map) M.store.map) T' := by
  induction cs generalizing M T ops with
  | nil => exact ⟨T, by simpa [opsOf] using hrec, h, hrun.1⟩
  | cons c' cs ih =>
    obtain ⟨hc, hcs⟩ := hrun
    have hlists := ObjectCall.lists (s := s) h.1 h.2 hc
    obtain ⟨hwork', hafter⟩ := after_eq hwork (c'.prog s)
    have hrec' : BehindFlush (Sound (c'.readingAfter M.store.map T))
        (ops ++ (c'.prog s).ops M.store.map) := by
      rw [hmap] at hlists ⊢
      refine hrec.step hlists.after (hlists.ends.imp_right fun halways => ⟨?_, halways⟩)
      rintro m ⟨hwhole, hindexed⟩
      exact ⟨hwhole.mono (hmap ▸ hc.le_readingAfter), hindexed⟩
    have hmap' : ((c'.prog s).exec M).2.store.map =
        applyOps (ops ++ (c'.prog s).ops M.store.map) ∅ := by
      rw [hafter, applyOps_append, ← hmap]
      rfl
    obtain ⟨T', hrecs, hsound, hlast⟩ := ih hwork' hmap' (hafter ▸ hlists.after) hrec' hcs
    refine ⟨T', ?_, ?_, ?_⟩
    · rw [opsOf, ← List.append_assoc, ← hafter]
      exact hrecs
    · rw [opsOf, applyOps_append]
      rw [hafter] at hsound
      exact hsound
    · rw [opsOf, applyOps_append]
      rw [hafter] at hlast
      exact hlast

/-! ## Crashes -/

/-- The files left by a crash `n` effects into the call on the key-value store after the
first `j` that `c` makes, when the calls `cs` were made before it on a store opened on the
files `disk`. -/
def ObjectStore.leftBy (s : ObjectStore) (disk : Disk) (path : Path) (cs : List ObjectCall)
    (c : ObjectCall) (j n : ℕ) : Disk :=
  let M := (s.runCalls cs (Machine.boot disk path)).2
  M.crashIn ((c.prog s).ops M.store.map) j n

/-- The last whole record of the log is the committed metadata of an object that the
records before it leave without an entry in the index of its bucket. -/
def EndsUnindexed (file : Bytes) : Prop :=
  ∃ pre b k md,
    logOps (foundRecords file) = pre ++ [.put (objectMetaKey b k) (serializeMetadata md)] ∧
      colon ∉ b ∧ md.TabFree ∧ md.state = .committed ∧
      (applyAll pre ∅).lookup (bucketIndexKey b k) = none

/-- Such an object is live. -/
theorem isSome_listedEntry_insert {md : ObjectMetadata} (htab : md.TabFree)
    (hstate : md.state = .committed) :
    (listedEntry (m.insert (objectMetaKey b k) (serializeMetadata md)) b k).isSome := by
  have hread : deserializeMetadata (serializeMetadata md) = some md := by
    refine deserializeMetadata_serializeMetadata htab fun c hc => ?_
    rw [hc] at hstate
    simp at hstate
  rw [listedEntry, Finmap.lookup_insert, Option.bind_some, hread]
  dsimp only
  rw [if_neg (by simp [hstate])]
  rfl

theorem lookup_index_insert_meta (raw : Bytes) :
    (m.insert (objectMetaKey b k) raw).lookup (bucketIndexKey b k) =
      m.lookup (bucketIndexKey b k) :=
  Finmap.lookup_insert_of_ne m (bucketIndexKey_ne_objectMetaKey _ _ _ _)

theorem EndsUnindexed.not_liveIndexed {file : Bytes} (h : EndsUnindexed file) :
    ¬ LiveIndexed (applyAll (logOps (foundRecords file)) ∅) := by
  obtain ⟨pre, b, k, md, hops, hb, htab, hstate, hnone⟩ := h
  rw [hops, applyAll_append]
  intro hindexed
  have hthere := hindexed b k hb (isSome_listedEntry_insert htab hstate)
  change ((Finmap.insert _ _ (applyAll pre ∅)).lookup _).isSome at hthere
  rw [lookup_index_insert_meta, hnone] at hthere
  simp at hthere

/-- An object that was just committed without an index entry is found and not listed. -/
theorem CommitsUnindexed.not_listsFound {ops : List Op} (h : CommitsUnindexed m ops)
    {M : Machine} (hM : M.store.map = applyOps ops m) (hwhole : AllWhole M.store.map T) :
    ¬ ListsFound M := by
  rw [listsFound_iff hwhole]
  obtain ⟨pre, b, k, md, rfl, hb, hnil, htab, hstate, hnone, hbucket⟩ := h
  rw [applyOps_append] at hM
  intro hall
  have hthere := hall b k hb hnil ?_ ?_
  · rw [hM] at hthere
    change ((Finmap.insert _ _ (applyOps pre m)).lookup _).isSome at hthere
    rw [lookup_index_insert_meta, hnone] at hthere
    simp at hthere
  · rw [hM]
    change ((Finmap.insert _ _ (applyOps pre m)).lookup _).isSome
    rw [Finmap.lookup_insert_of_ne]
    · exact hbucket
    · exact bucketMetaKey_ne_objectMetaKey _ _ _
  · rw [hM]
    exact isSome_listedEntry_insert htab hstate

theorem sound_empty : Sound 0 ∅ := by
  refine ⟨fun b k _ => .inl (Finmap.lookup_empty _), fun b k _ hlive => ?_⟩
  simp [listedEntry, Finmap.lookup_empty] at hlive

/-- **Listings after a crash.** For an object store over a fresh log with no snapshot file,
every timed run of calls whose keys and values fit the record format and every crash point
in its last call, listings and lookups agree after the next open exactly when the log that
the crash leaves does not end with an unindexed commit. -/
theorem listsAfterCrash_iff {path : Path} (hpath : path ≠ snapshotPath) {disk : Disk}
    (hwal : (disk path).getD [] = []) (hsnap : disk snapshotPath = none)
    {cs : List ObjectCall} {c : ObjectCall}
    (hrun : s.TimedRun (Machine.boot disk path) 0 (cs ++ [c]))
    (hfit : ∀ o ∈ s.opsOf (cs ++ [c]) ∅, o.Fits) (j n : ℕ) :
    ListsFound (Machine.boot (s.leftBy disk path cs c j n) path) ↔
      ¬ EndsUnindexed ((s.leftBy disk path cs c j n path).getD []) := by
  have hwork := Machine.boot_working disk path
  have hempty : (Machine.boot disk path).store.map = ∅ := by
    rw [Machine.boot_map, hwal, baseMap_of_none hsnap]
    rfl
  have hnil : BehindFlush (Sound 0) [] := by
    intro k _ _
    rw [List.take_nil]
    exact sound_empty
  obtain ⟨T, hrec, hsound, htimed⟩ := @ObjectStore.TimedRun.reaches _ _ _ [] _ _ hwork hempty
    (hempty ▸ sound_empty) hnil hrun
  rw [List.nil_append, hempty] at hrec
  rw [hempty] at hsound htimed
  have hM : (s.runCalls cs (Machine.boot disk path)).2 =
      (Machine.boot disk path).run (s.opsOf cs ∅) := by
    rw [ObjectStore.runCalls_eq hwork, hempty]
  have hmap : (s.runCalls cs (Machine.boot disk path)).2.store.map = applyOps (s.opsOf cs ∅) ∅ := by
    rw [hM, (hwork.run _).2, hempty]
  set m := applyOps (s.opsOf cs ∅) ∅ with hm
  rw [ObjectStore.opsOf_append] at hfit
  obtain ⟨rs, t, k, hfits, ht, hleft, hlog, hboot, hk⟩ :=
    exists_recovered hpath hwal hsnap hfit j n
  have hleft' : s.leftBy disk path cs c j n path = some (encodeAll rs ++ t) := by
    rw [ObjectStore.leftBy, hmap, hM]
    exact hleft
  have hrecovered : (Machine.boot (s.leftBy disk path cs c j n) path).store.map =
      applyOps ((s.opsOf cs ∅ ++ (c.prog s).ops m).take k) ∅ := by
    rw [ObjectStore.leftBy, hmap, hM]
    exact hboot
  have hfound : logOps (foundRecords ((s.leftBy disk path cs c j n path).getD [])) =
      ((s.opsOf cs ∅ ++ (c.prog s).ops m).take k).filterMap Op.logOp := by
    rw [hleft', Option.getD_some, foundRecords_encode hfits ht, hlog]
  set left := s.leftBy disk path cs c j n with hleftBy
  have hgood : ∀ T', Sound T' (Machine.boot left path).store.map →
      (ListsFound (Machine.boot left path) ↔ ¬ EndsUnindexed ((left path).getD [])) := by
    rintro T' ⟨hwhole, hindexed⟩
    refine iff_of_true ?_ fun hends => hends.not_liveIndexed ?_
    · rw [listsFound_iff hwhole]
      exact fun b k hb _ _ => hindexed b k hb
    · rw [hfound]
      rwa [hrecovered] at hindexed
  rcases Nat.lt_or_ge k (s.opsOf cs ∅).length with hlt | hge
  · -- the log ends behind every flush before the call
    apply hgood T
    rw [hrecovered, List.take_append_of_le_length hlt.le]
    exact hrec k hlt.le (hk.resolve_left (Nat.not_le.mpr hlt))
  · have htake : (s.opsOf cs ∅ ++ (c.prog s).ops m).take k = s.opsOf cs ∅ ++
        ((c.prog s).ops m).take (k - (s.opsOf cs ∅).length) := by
      rw [List.take_append, List.take_of_length_le hge]
    have hlists := ObjectCall.lists (s := s) hsound.1 hsound.2 htimed
    have hpoint : (Machine.boot left path).store.map =
        applyOps (((c.prog s).ops m).take (k - (s.opsOf cs ∅).length)) m := by
      rw [hrecovered, htake, applyOps_append, ← hm]
    have hwhole := hlists.whole (k - (s.opsOf cs ∅).length)
    rw [← hpoint] at hwhole
    obtain hindexed | hcommits := hlists.indexed (k - (s.opsOf cs ∅).length)
    · rw [← hpoint] at hindexed
      exact hgood _ ⟨hwhole, hindexed⟩
    · refine iff_of_false (hcommits.not_listsFound hpoint hwhole) (not_not_intro ?_)
      obtain ⟨pre, b, k', md, hops, hb, -, htab, hstate, hnone, -⟩ := hcommits
      refine ⟨(s.opsOf cs ∅ ++ pre).filterMap Op.logOp, b, k', md, ?_, hb, htab, hstate, ?_⟩
      · rw [hfound, htake, hops, ← List.append_assoc, List.filterMap_append]
        rfl
      · show (applyOps (s.opsOf cs ∅ ++ pre) ∅).lookup _ = none
        rwa [applyOps_append, ← hm]

/-- Three chunks, so that the metadata is the fifth record of the log. -/
def threeChunks : PutObjectRequest := { bucket := str "b", key := str "k", data := [1, 2, 3, 4, 5] }

theorem tabFree_threeChunks : threeChunks.TabFree := ⟨by decide, by decide, by decide⟩

theorem timed_smallBucket (m : Map) : (ObjectCall.createBucket (str "b") 5).Timed m 0 :=
  ⟨(by decide : colon ∉ str "b"), trivial, by simp⟩

theorem timed_threeChunks (m : Map) : (ObjectCall.putObject threeChunks 6 7).Timed m 0 := by
  refine ⟨⟨(by decide : colon ∉ str "b"), tabFree_threeChunks⟩, trivial, ?_⟩
  intro _ idMs _ _ _
  exact Nat.zero_le idMs.toNat

/-- The theorem at a crash in the second chunk of a put. -/
theorem listsAfterCrash_iff_threeChunks :
    ListsFound (Machine.boot (smallStore.leftBy (fun _ => none) "/tmp/kv.wal"
        [.createBucket (str "b") 5] (.putObject threeChunks 6 7) 1 0) "/tmp/kv.wal") ↔
      ¬ EndsUnindexed ((smallStore.leftBy (fun _ => none) "/tmp/kv.wal"
        [.createBucket (str "b") 5] (.putObject threeChunks 6 7) 1 0 "/tmp/kv.wal").getD []) := by
  apply listsAfterCrash_iff (by decide) rfl rfl
  · exact ⟨timed_smallBucket _, timed_threeChunks _, trivial⟩
  · decide +kernel

/-- What the crash of `not_listsAfterCrash` leaves. -/
def unindexedOrder : List Entry :=
  [⟨objectMetaKey (str "b") (str "k"), serializeMetadata (smallStore.putMetadata threeChunks 6 7)⟩,
    ⟨chunkKey (makeObjectId (str "b") (str "k") 6) 2, [5]⟩,
    ⟨chunkKey (makeObjectId (str "b") (str "k") 6) 1, [3, 4]⟩,
    ⟨chunkKey (makeObjectId (str "b") (str "k") 6) 0, [1, 2]⟩,
    ⟨bucketMetaKey (str "b"), serializeBucketMeta ⟨str "b", 5⟩⟩]

/-- A crash behind the group commit of the metadata: the object is found and not listed. -/
theorem not_listsAfterCrash :
    ¬ ListsFound (Machine.boot (smallStore.leftBy (fun _ => none) "/tmp/kv.wal"
      [.createBucket (str "b") 5] (.putObject threeChunks 6 7) 4 0) "/tmp/kv.wal") := by
  have horder : Enumerates unindexedOrder (Machine.boot (smallStore.leftBy (fun _ => none)
      "/tmp/kv.wal" [.createBucket (str "b") 5] (.putObject threeChunks 6 7) 4 0)
        "/tmp/kv.wal").store.map := by
    decide +kernel
  set M := Machine.boot (smallStore.leftBy (fun _ => none) "/tmp/kv.wal"
    [.createBucket (str "b") 5] (.putObject threeChunks 6 7) 4 0) "/tmp/kv.wal"
  have hmap : M.store.map = unindexedOrder.toFinmap := by
    apply Finmap.ext
    rw [horder]
    decide +kernel
  intro hlists
  obtain ⟨-, hkeys⟩ := hlists (str "b") (by decide)
    (bucketExists_exec.mpr ⟨by decide, by rw [hmap]; decide +kernel⟩) [] unindexedOrder horder
  rw [exec_of_ops_nil (ops_listObjects horder _ _), hmap] at hkeys
  have hfound : ((getObject (str "b") (str "k")).exec M).1.found = true := by
    rw [exec_of_ops_nil ops_getObject, hmap]
    decide +kernel
  have hlisted := (hkeys (str "k")).mpr ⟨List.nil_prefix, hfound⟩
  revert hlisted
  decide +kernel

end KvEngine
