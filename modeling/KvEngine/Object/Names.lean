import KvEngine.Object.CrashAtomicity
import KvEngine.Store.Incarnations

/-!
# Objects of different names

Keys and object ids are made of bucket and key joined by `':'`, without escaping either,
so what an object's entries are kept under depends on the joined name only. Here nothing
is assumed of the clock, of the names in earlier calls or of the system calls.

Results:
* `Keeps.exec`: entries a program keeps, and keys it leaves alone.
* `ReachableBy.serving`: every state of an object store's lives is an open store.
* `ReachableBy.owned`: metadata under a tab-free name has an object id of that name, as long
  as every open brings back only what was put before it.
* `neverInterfere_iff`: in such runs a put or a delete of one object never changes what
  `GetObject` says of another exactly when their joined names differ.
* `not_neverInterfere`: the names `a`, `b:c` and `a:b`, `c`.
-/

namespace KvEngine

open ObjectStore

/-! ## Entries of a map -/

/-- Every entry of the map is one of `R`. -/
def Entries (R : Bytes → Bytes → Prop) (m : Map) : Prop := ∀ k v, m.lookup k = some v → R k v

/-- The call writes only entries of `R`, and only under keys of `W`. -/
def Op.Within (R : Bytes → Bytes → Prop) (W : Bytes → Prop) : Op → Prop
  | .put k v => R k v ∧ W k
  | .del k => W k
  | .setGroupCommitEvery _ => True
  | .flushWal => True

variable {R : Bytes → Bytes → Prop} {W W' : Bytes → Prop} {m : Machine}

/-- Whatever the system calls return, a call does its update of the map or leaves it. -/
theorem Machine.map_step (m : Machine) (op : Op) :
    (m.step op).store.map = m.store.map ∨
      (m.step op).store.map = applyOps [op] m.store.map := by
  cases op with
  | put k v =>
    simp only [step, outcome, KVStore.put]
    split
    · split
      · left; rfl
      · right
        split <;> rfl
    · left; rfl
  | del k =>
    simp only [step, outcome, KVStore.del]
    split
    · split
      · left; rfl
      · split
        · split
          · right; rfl
          · left; rfl
        · right; rfl
    · left; rfl
  | setGroupCommitEvery n => left; rfl
  | flushWal => left; rfl

theorem Entries.insert {map : Map} {k v : Bytes} (h : Entries R map) (hkv : R k v) :
    Entries R (map.insert k v) := by
  intro k' v' hlook
  by_cases hk : k' = k
  · subst hk
    rw [Finmap.lookup_insert] at hlook
    exact Option.some.inj hlook ▸ hkv
  · rw [Finmap.lookup_insert_of_ne map hk] at hlook
    exact h k' v' hlook

theorem Entries.erase {map : Map} (h : Entries R map) (k : Bytes) : Entries R (map.erase k) := by
  intro k' v' hlook
  by_cases hk : k' = k
  · subst hk
    simp [Finmap.lookup_erase] at hlook
  · rw [Finmap.lookup_erase_ne hk] at hlook
    exact h k' v' hlook

/-- One call. -/
theorem Entries.step {op : Op} (h : Entries R m.store.map) (hop : op.Within R W) :
    Entries R (m.step op).store.map ∧
      ∀ k, ¬ W k → (m.step op).store.map.lookup k = m.store.map.lookup k := by
  obtain hsame | hdone := m.map_step op
  · rw [hsame]
    exact ⟨h, fun _ _ => rfl⟩
  · rw [hdone]
    cases op with
    | put k v =>
      refine ⟨h.insert hop.1, fun k' hk' => Finmap.lookup_insert_of_ne _ ?_⟩
      rintro rfl
      exact hk' hop.2
    | del k =>
      refine ⟨h.erase k, fun k' hk' => Finmap.lookup_erase_ne ?_⟩
      rintro rfl
      exact hk' hop
    | setGroupCommitEvery n => exact ⟨h, fun _ _ => rfl⟩
    | flushWal => exact ⟨h, fun _ _ => rfl⟩

/-- And a sequence of them. -/
theorem Entries.run {ops : List Op} (h : Entries R m.store.map)
    (hops : ∀ op ∈ ops, op.Within R W) :
    Entries R (m.run ops).store.map ∧
      ∀ k, ¬ W k → (m.run ops).store.map.lookup k = m.store.map.lookup k := by
  induction ops generalizing m with
  | nil => exact ⟨h, fun _ _ => rfl⟩
  | cons op ops ih =>
    obtain ⟨hstep, hframe⟩ := h.step (hops op List.mem_cons_self)
    obtain ⟨hrun, hframes⟩ := ih hstep fun o ho => hops o (List.mem_cons_of_mem op ho)
    exact ⟨hrun, fun k hk => (hframes k hk).trans (hframe k hk)⟩

/-! ## Entries a program writes -/

namespace KvProg

variable {α β : Type} {p : KvProg α} {f : α → KvProg β}

/-- The calls a program makes on a store with its files that may change it. -/
def calls : KvProg α → Machine → List Op
  | .pure _, _ => []
  | .get key next, m => (next (m.store.get key)).calls m
  | .listKeysWithPrefix order pfx next, m =>
    (next (KVStore.listKeysWithPrefix order pfx)).calls m
  | .put key value next, m => .put key value :: next.calls (m.step (.put key value))
  | .del key next, m =>
    .del key :: (next (m.store.del key m.os).value.1).calls (m.step (.del key))
  | .flushWal next, m =>
    .flushWal :: (next (m.store.flushWal m.os).value.1).calls (m.step .flushWal)

theorem exec_machine (p : KvProg α) (m : Machine) : (p.exec m).2 = m.run (p.calls m) := by
  induction p generalizing m with
  | pure a => rfl
  | get key next ih => exact ih _ m
  | listKeysWithPrefix order pfx next ih => exact ih _ m
  | put key v next ih => exact ih _
  | del key next ih => exact ih _ _
  | flushWal next ih => exact ih _ _

/-- As long as the program reads entries of `R` it writes such entries, and it writes
under keys of `W` only, whatever its other calls return. -/
def Keeps (R : Bytes → Bytes → Prop) (W : Bytes → Prop) : KvProg α → Prop
  | .pure _ => True
  | .get key next => ∀ r, (∀ v, r = some v → R key v) → (next r).Keeps R W
  | .listKeysWithPrefix _ _ next => ∀ ks, (next ks).Keeps R W
  | .put key value next => (R key value ∧ W key) ∧ next.Keeps R W
  | .del key next => W key ∧ ∀ r, (next r).Keeps R W
  | .flushWal next => ∀ r, (next r).Keeps R W

@[simp] theorem keeps_pure (a : α) : (Pure.pure a : KvProg α).Keeps R W := trivial

theorem keeps_kvGet (key : Bytes) : (kvGet key).Keeps R W := fun _ _ => trivial

theorem keeps_kvList (order : List Entry) (pfx : Bytes) : (kvList order pfx).Keeps R W :=
  fun _ => trivial

theorem keeps_kvPut {key v : Bytes} (h : R key v) (hkey : W key) : (kvPut key v).Keeps R W :=
  ⟨⟨h, hkey⟩, trivial⟩

theorem keeps_kvDel {key : Bytes} (hkey : W key) : (kvDel key).Keeps R W :=
  ⟨hkey, fun _ => trivial⟩

theorem keeps_kvFlushWal : kvFlushWal.Keeps R W := fun _ => trivial

theorem Keeps.bind (hp : p.Keeps R W) (hf : ∀ a, (f a).Keeps R W) : (p >>= f).Keeps R W := by
  show (p.bind f).Keeps R W
  induction p with
  | pure a => exact hf a
  | get key next ih => exact fun r hr => ih r (hp r hr)
  | listKeysWithPrefix order pfx next ih => exact fun ks => ih ks (hp ks)
  | put key v next ih => exact ⟨hp.1, ih hp.2⟩
  | del key next ih => exact ⟨hp.1, fun r => ih r (hp.2 r)⟩
  | flushWal next ih => exact fun r => ih r (hp r)

/-- What is read may be used. -/
theorem Keeps.get {key : Bytes} {f : Option Bytes → KvProg β}
    (hf : ∀ r, (∀ v, r = some v → R key v) → (f r).Keeps R W) : (kvGet key >>= f).Keeps R W :=
  hf

theorem Keeps.mono (h : p.Keeps R W) (hW : ∀ k, W k → W' k) : p.Keeps R W' := by
  induction p with
  | pure a => trivial
  | get key next ih => exact fun r hr => ih r (h r hr)
  | listKeysWithPrefix order pfx next ih => exact fun ks => ih ks (h ks)
  | put key v next ih => exact ⟨⟨h.1.1, hW key h.1.2⟩, ih h.2⟩
  | del key next ih => exact ⟨hW key h.1, fun r => ih r (h.2 r)⟩
  | flushWal next ih => exact fun r => ih r (h r)

theorem Keeps.calls (h : p.Keeps R W) (hm : Entries R m.store.map) :
    ∀ op ∈ p.calls m, op.Within R W := by
  induction p generalizing m with
  | pure a => simp [KvProg.calls]
  | get key next ih => exact ih _ (h _ fun v hv => hm key v hv) hm
  | listKeysWithPrefix order pfx next ih => exact ih _ (h _) hm
  | put key v next ih =>
    have hop : (Op.put key v).Within R W := h.1
    refine List.forall_mem_cons.mpr ⟨hop, ih h.2 (hm.step hop).1⟩
  | del key next ih =>
    have hop : (Op.del key).Within R W := h.1
    refine List.forall_mem_cons.mpr ⟨hop, ih _ (h.2 _) (hm.step hop).1⟩
  | flushWal next ih =>
    have hop : Op.flushWal.Within R W := trivial
    refine List.forall_mem_cons.mpr ⟨hop, ih _ (h _) (hm.step hop).1⟩

/-- The entries of the map stay in `R`, and keys outside `W` keep theirs. -/
theorem Keeps.exec (h : p.Keeps R W) (hm : Entries R m.store.map) :
    Entries R (p.exec m).2.store.map ∧
      ∀ k, ¬ W k → (p.exec m).2.store.map.lookup k = m.store.map.lookup k := by
  rw [exec_machine]
  exact hm.run (h.calls hm)

end KvProg

open KvProg

/-! ## Joined names -/

/-- What the keys and ids of an object are made of. -/
def joinedName (bucket key : Bytes) : Bytes := bucket ++ colon :: key

/-- The keys under which entries of a joined name are stored. -/
def KeyOf (name key : Bytes) : Prop :=
  key = str "objmeta:" ++ name ∨ key = str "bucketidx:" ++ name ∨
    ∃ (t : UInt64) (i : ℕ), key = chunkKey (name ++ colon :: decimal t.toNat) i

/-- An entry of a map an object store wrote: metadata under a name without tabs has an
object id of that name. -/
def Owned (key raw : Bytes) : Prop :=
  ∀ name, tab ∉ name → key = str "objmeta:" ++ name → ∀ md, deserializeMetadata raw = some md →
    ∃ t : UInt64, md.objectId = name ++ colon :: decimal t.toNat

variable {s : ObjectStore} {b k name name' : Bytes}

theorem makeObjectId_eq (b k : Bytes) (t : UInt64) :
    makeObjectId b k t = joinedName b k ++ colon :: decimal t.toNat := by
  simp [makeObjectId, joinedName]

theorem tab_not_mem_joinedName : tab ∉ joinedName b k ↔ tab ∉ b ∧ tab ∉ k := by
  have hne : tab ≠ colon := by decide
  simp [joinedName, hne]

theorem family_objmeta (name : Bytes) : family (str "objmeta:" ++ name) = str "objmeta" := rfl

theorem family_bucketidx (name : Bytes) : family (str "bucketidx:" ++ name) = str "bucketi" := rfl

/-- Entries of other families are no metadata. -/
theorem Owned.of_family {key raw : Bytes} (h : family key ≠ str "objmeta") : Owned key raw := by
  rintro name - rfl
  exact absurd (family_objmeta name) h

/-- The metadata of one name is not kept under a key of another. -/
theorem not_keyOf_objmeta (h : name ≠ name') : ¬ KeyOf name (str "objmeta:" ++ name') := by
  rintro (heq | heq | ⟨t, i, heq⟩)
  · exact h (List.append_cancel_left heq).symm
  · refine ne_of_family ?_ heq
    rw [family_objmeta, family_bucketidx]
    decide
  · refine ne_of_family ?_ heq
    rw [family_objmeta, family_chunkKey]
    decide

/-- Nor are the chunks of its ids: an id ends in the clock reading behind the last colon,
and a chunk's key in the index. -/
theorem not_keyOf_chunkKey (h : name ≠ name') (t : UInt64) (i : ℕ) :
    ¬ KeyOf name (chunkKey (name' ++ colon :: decimal t.toNat) i) := by
  rintro (heq | heq | ⟨t', i', heq⟩)
  · refine ne_of_family ?_ heq
    rw [family_chunkKey, family_objmeta]
    decide
  · refine ne_of_family ?_ heq
    rw [family_chunkKey, family_bucketidx]
    decide
  · have hid := (chunkKey_inj heq).1
    exact h (append_cons_inj' (colon_not_mem_decimal _) (colon_not_mem_decimal _) hid).1.symm

/-! ## The first field of metadata -/

/-- Whatever the other fields are, an id without tabs reads back. -/
theorem objectId_deserializeMetadata {id rest : Bytes} (hid : tab ∉ id) {md : ObjectMetadata}
    (h : deserializeMetadata (id ++ tab :: rest) = some md) : md.objectId = id := by
  unfold deserializeMetadata at h
  rw [getlines, getline_append hid] at h
  dsimp only at h
  cases hrest : getlines tab 10 rest with
  | none => simp [hrest] at h
  | some fs =>
    rw [hrest] at h
    dsimp only [Option.map_some] at h
    split at h
    · rename_i heq
      obtain ⟨rfl, -⟩ := List.cons.inj (Option.some.inj heq)
      simp only [Option.bind_eq_bind, Option.bind_eq_some_iff] at h
      obtain ⟨_, _, _, _, _, _, _, _, _, _, _, _, hmd⟩ := h
      obtain rfl := Option.some.inj hmd
      rfl
    · simp at h

theorem exists_serializeMetadata (md : ObjectMetadata) :
    ∃ rest, serializeMetadata md = md.objectId ++ tab :: rest := ⟨_, rfl⟩

/-- Metadata with an id of the name is the name's. -/
theorem Owned.serializeMetadata {md : ObjectMetadata}
    (h : ∀ name', tab ∉ name' → name = name' →
      ∃ t : UInt64, md.objectId = name' ++ colon :: decimal t.toNat) :
    Owned (str "objmeta:" ++ name) (serializeMetadata md) := by
  intro name' htab heq md' hmd'
  obtain ⟨t, ht⟩ := h name' htab (List.append_cancel_left heq)
  obtain ⟨rest, hrest⟩ := exists_serializeMetadata md
  have hid : tab ∉ md.objectId := by
    have hne : tab ≠ colon := by decide
    simp [ht, htab, hne, tab_not_mem_decimal]
  rw [hrest] at hmd'
  exact ⟨t, (objectId_deserializeMetadata hid hmd').trans ht⟩

/-! ## What the methods write -/

/-- Any key. -/
def AnyKey (_ : Bytes) : Prop := True

/-- Any entry is one of `R` that is no metadata. -/
def OffMeta (R : Bytes → Bytes → Prop) : Prop :=
  ∀ key raw, family key ≠ str "objmeta" → R key raw

theorem keeps_createBucket {b : Bytes} {nowMs : UInt64}
    (hmeta : R (bucketMetaKey b) (serializeBucketMeta ⟨b, nowMs⟩)) :
    (createBucket b nowMs).Keeps R AnyKey := by
  unfold createBucket
  split_ifs
  · exact keeps_pure _
  · refine .get fun r _ => ?_
    split_ifs
    · exact keeps_pure _
    · exact .bind (keeps_kvPut hmeta trivial) fun _ => keeps_pure _

theorem keeps_bucketExists (b : Bytes) : (bucketExists b).Keeps R W := by
  unfold bucketExists
  split_ifs
  · exact keeps_pure _
  · exact .get fun _ _ => keeps_pure _

theorem keeps_writeChunks {id data : Bytes} {is : List ℕ}
    (hchunk : ∀ i ∈ is, R (chunkKey id i) (s.chunkValue data i)) (hW : ∀ i, W (chunkKey id i)) :
    (s.writeChunks id data is).Keeps R W := by
  induction is with
  | nil => exact keeps_pure _
  | cons i is ih =>
    obtain ⟨hi, his⟩ := List.forall_mem_cons.mp hchunk
    exact .bind (keeps_kvPut hi (hW i)) fun _ => ih his

/-- The entries a put writes are ones of `R`. -/
structure PutsIn (s : ObjectStore) (R : Bytes → Bytes → Prop) (req : PutObjectRequest)
    (idMs nowMs : UInt64) : Prop where
  metadata : R (objectMetaKey req.bucket req.key)
    (serializeMetadata (s.putMetadata req idMs nowMs))
  index : R (bucketIndexKey req.bucket req.key) (makeObjectId req.bucket req.key idMs)
  chunks : ∀ i < (s.chunkCount req.data.length).toNat,
    R (chunkKey (makeObjectId req.bucket req.key idMs) i) (s.chunkValue req.data i)

theorem OffMeta.putsIn (hR : OffMeta R) {req : PutObjectRequest} {idMs nowMs : UInt64}
    (hmeta : R (objectMetaKey req.bucket req.key)
      (serializeMetadata (s.putMetadata req idMs nowMs))) : PutsIn s R req idMs nowMs := by
  refine ⟨hmeta, hR _ _ ?_, fun i _ => hR _ _ ?_⟩
  · rw [family_bucketIndexKey]
    decide
  · rw [family_chunkKey]
    decide

theorem keeps_putObject {req : PutObjectRequest} {idMs nowMs : UInt64}
    (h : PutsIn s R req idMs nowMs) :
    (s.putObject req idMs nowMs).Keeps R (KeyOf (joinedName req.bucket req.key)) := by
  unfold putObject
  split_ifs
  · exact keeps_pure _
  · exact keeps_pure _
  refine .bind (keeps_bucketExists _) fun exists? => ?_
  split_ifs
  · refine .bind (keeps_kvGet _) fun _ => .bind (keeps_writeChunks (fun i hi => ?_) fun i => ?_)
      fun _ => .bind (keeps_kvPut h.metadata (.inl rfl)) fun _ =>
        .bind (keeps_kvPut h.index (.inr (.inl rfl))) fun _ =>
          .bind keeps_kvFlushWal fun flushed => ?_
    · exact h.chunks i (List.mem_range.mp hi)
    · exact .inr (.inr ⟨idMs, i, by rw [makeObjectId_eq]⟩)
    · split_ifs
      · exact keeps_pure _
      · exact keeps_pure _
  · exact keeps_pure _

/-- A delete writes back what it read with the object marked as deleted. -/
theorem keeps_deleteObject {b k : Bytes} {nowMs : UInt64}
    (hmeta : ∀ raw md, R (objectMetaKey b k) raw → deserializeMetadata raw = some md →
      R (objectMetaKey b k)
        (serializeMetadata { md with state := .deleted, updatedAtEpochMs := nowMs })) :
    (deleteObject b k nowMs).Keeps R (KeyOf (joinedName b k)) := by
  refine .get fun r hr => ?_
  cases r with
  | none => exact keeps_pure _
  | some raw =>
    dsimp only
    cases hmd : deserializeMetadata raw with
    | none => exact keeps_pure _
    | some md =>
      have hput := hmeta raw md (hr raw rfl) hmd
      refine .bind (keeps_kvPut hput (.inl rfl)) fun _ => .bind (keeps_kvDel ?_) fun _ =>
        .bind keeps_kvFlushWal fun flushed => ?_
      · exact .inr (.inl rfl)
      · split_ifs
        · exact keeps_pure _
        · exact keeps_pure _

theorem keeps_readChunks (id : Bytes) (is : List ℕ) (data : Bytes) :
    (readChunks id is data).Keeps R W := by
  induction is generalizing data with
  | nil => exact keeps_pure _
  | cons i is ih =>
    refine .get fun r _ => ?_
    cases r with
    | none => exact keeps_pure _
    | some c => exact ih (data ++ c)

theorem keeps_getObject (b k : Bytes) : (getObject b k).Keeps R W := by
  refine .get fun r _ => ?_
  cases r with
  | none => exact keeps_pure _
  | some raw =>
    dsimp only
    cases deserializeMetadata raw with
    | none => exact keeps_pure _
    | some md =>
      dsimp only
      split_ifs
      · exact keeps_pure _
      · refine .bind (keeps_readChunks _ _ _) fun read => ?_
        cases read with
        | error i => exact keeps_pure _
        | ok data => exact keeps_pure _

theorem keeps_listEntries (b basePrefix : Bytes) (keys : List Bytes) :
    (listEntries b basePrefix keys).Keeps R W := by
  induction keys with
  | nil => exact keeps_pure _
  | cons key keys ih =>
    unfold listEntries
    split_ifs
    · exact ih
    · refine .get fun r _ => ?_
      cases r.bind deserializeMetadata with
      | none => exact ih
      | some md =>
        dsimp only
        split_ifs
        · exact ih
        · exact .bind ih fun _ => keeps_pure _

theorem keeps_listObjects (b pfx : Bytes) (order : List Entry) :
    (listObjects b pfx order).Keeps R W := by
  unfold listObjects
  split_ifs
  · exact keeps_pure _
  · refine .bind (keeps_bucketExists b) fun exists? => ?_
    split_ifs
    · exact .bind (keeps_kvList _ _) fun _ => .bind (keeps_listEntries _ _ _) fun _ =>
        keeps_pure _
    · exact keeps_pure _

theorem keeps_reachableObjectIds (keys : List Bytes) :
    (reachableObjectIds keys).Keeps R W := by
  induction keys with
  | nil => exact keeps_pure _
  | cons key keys ih =>
    refine .get fun r _ => ?_
    cases r.bind deserializeMetadata with
    | none => exact ih
    | some md =>
      refine .bind ih fun ids => ?_
      split_ifs
      · exact keeps_pure _
      · exact keeps_pure _

/-- A sweep deletes what was listed and has an id that is not reachable. -/
theorem keeps_deleteUnreachable {reachable keys : List Bytes}
    (hW : ∀ key ∈ keys, ∀ id ∉ reachable, chunkObjectId key = some id → W key) :
    (deleteUnreachable reachable keys).Keeps R W := by
  induction keys with
  | nil => exact keeps_pure _
  | cons key keys ih =>
    have hrest := ih fun key' hkey' => hW key' (List.mem_cons_of_mem key hkey')
    unfold deleteUnreachable
    cases hid : chunkObjectId key with
    | none => exact hrest
    | some id =>
      dsimp only
      split_ifs with hmem
      · exact hrest
      · have hkey := hW key List.mem_cons_self id hmem hid
        exact .bind (keeps_kvDel hkey) fun _ => .bind hrest fun _ => keeps_pure _

theorem keeps_garbageCollectChunks (order : List Entry) :
    (garbageCollectChunks order).Keeps R AnyKey :=
  .bind (keeps_kvList _ _) fun _ => .bind (keeps_reachableObjectIds _) fun _ =>
    .bind (keeps_kvList _ _) fun _ =>
      .bind (keeps_deleteUnreachable fun _ _ _ _ _ => trivial) fun _ =>
        .bind keeps_kvFlushWal fun _ => keeps_pure _

/-- The metadata the call writes, if any, is an entry of `R`. -/
def ObjectCall.Metadata (s : ObjectStore) (R : Bytes → Bytes → Prop) : ObjectCall → Prop
  | .putObject req idMs now =>
    R (objectMetaKey req.bucket req.key) (serializeMetadata (s.putMetadata req idMs now))
  | .deleteObject b k now => ∀ raw md, R (objectMetaKey b k) raw →
    deserializeMetadata raw = some md →
      R (objectMetaKey b k)
        (serializeMetadata { md with state := .deleted, updatedAtEpochMs := now })
  | _ => True

/-- What the call writes are entries of `R`. -/
def ObjectCall.EntriesIn (s : ObjectStore) (R : Bytes → Bytes → Prop) : ObjectCall → Prop
  | .createBucket b now => R (bucketMetaKey b) (serializeBucketMeta ⟨b, now⟩)
  | .putObject req idMs now => PutsIn s R req idMs now
  | .deleteObject b k now => (ObjectCall.deleteObject b k now).Metadata s R
  | _ => True

theorem ObjectCall.Metadata.entriesIn (hR : OffMeta R) {c : ObjectCall} (hc : c.Metadata s R) :
    c.EntriesIn s R := by
  cases c with
  | createBucket b now =>
    refine hR _ _ ?_
    rw [family_bucketMetaKey]
    decide
  | putObject req idMs now => exact hR.putsIn hc
  | deleteObject b k now => exact hc
  | getObject b k => trivial
  | listObjects b pfx order => trivial
  | garbageCollectChunks order => trivial

/-- Every call on an object store. -/
theorem ObjectCall.keeps {c : ObjectCall} (hc : c.EntriesIn s R) : (c.prog s).Keeps R AnyKey := by
  cases c with
  | createBucket b now => exact .bind (keeps_createBucket hc) fun _ => keeps_pure _
  | putObject req idMs now =>
    exact .bind ((keeps_putObject hc).mono fun _ _ => trivial) fun _ => keeps_pure _
  | getObject b k => exact .bind (keeps_getObject b k) fun _ => keeps_pure _
  | deleteObject b k now =>
    exact .bind ((keeps_deleteObject hc).mono fun _ _ => trivial) fun _ => keeps_pure _
  | listObjects b pfx order => exact .bind (keeps_listObjects b pfx order) fun _ => keeps_pure _
  | garbageCollectChunks order =>
    exact .bind (keeps_garbageCollectChunks order) fun _ => keeps_pure _

theorem offMeta_owned : OffMeta Owned := fun _ _ h => .of_family h

/-- A put makes an id of the object's name, and a delete keeps the id it read. -/
theorem ObjectCall.owned (c : ObjectCall) : c.Metadata s Owned := by
  cases c with
  | putObject req idMs now =>
    refine Owned.serializeMetadata ?_
    rintro _ - rfl
    exact ⟨idMs, makeObjectId_eq _ _ _⟩
  | deleteObject b k now =>
    intro raw md hraw hmd
    refine Owned.serializeMetadata fun name' htab heq => ?_
    exact hraw name' htab (congrArg (str "objmeta:" ++ ·) heq) md hmd
  | createBucket b now => trivial
  | getObject b k => trivial
  | listObjects b pfx order => trivial
  | garbageCollectChunks order => trivial

/-! ## Reachable states -/

/-- The files left by a crash in the call `c`, `n` effects into the `j`-th call it makes on the
key-value store, or by one after all of these. -/
def ObjectStore.filesLeft (s : ObjectStore) (c : ObjectCall) (M : Machine) (j n : ℕ) : Disk :=
  M.crashIn ((c.prog s).calls M) j n

/-- The states of an object store over its lives, with the calls its key-value store got in
them: opened with an empty map; after a call of `P`, whatever its system calls return; and
opened again on the files that a crash in or after such a call left, if `Q` holds of the calls
so far and of these files. -/
inductive ReachableBy (s : ObjectStore) (P : ObjectCall → Prop)
    (Q : List Op → Disk → Path → Prop) : List Op → Machine → Prop
  | opened (disk : Disk) (path : Path) (hmap : (Machine.boot disk path).store.map = ∅) :
      ReachableBy s P Q [] (Machine.boot disk path)
  | call {past : List Op} {M : Machine} (c : ObjectCall) (hc : P c) (os : Schedule)
      (h : ReachableBy s P Q past M) :
      ReachableBy s P Q (past ++ (c.prog s).calls { M with os := os })
        ((c.prog s).exec { M with os := os }).2
  | reopened {past : List Op} {M : Machine} (c : ObjectCall) (hc : P c) (os : Schedule) (j n : ℕ)
      (h : ReachableBy s P Q past M)
      (hfiles : Q (past ++ ((c.prog s).calls { M with os := os }).take (j + 1))
        (s.filesLeft c { M with os := os } j n) M.store.wal.path) :
      ReachableBy s P Q (past ++ ((c.prog s).calls { M with os := os }).take (j + 1))
        (Machine.boot (s.filesLeft c { M with os := os } j n) M.store.wal.path)

/-- Every state of an object store: after any calls, and any crashes. -/
def Reachable (s : ObjectStore) : List Op → Machine → Prop :=
  ReachableBy s (fun _ => True) fun _ _ _ => True

/-- An open on the files brings back only entries that the calls have put. -/
def OnlyPut (past : List Op) (disk : Disk) (path : Path) : Prop :=
  Entries (fun k v => .put k v ∈ past) (Machine.boot disk path).store.map

/-- So it is after a life that did not append to a torn log. -/
theorem Incarnation.NoTornAppend.onlyPut {i : Incarnation} {path : Path} {disk : Disk}
    {past : List Op} (hpath : path ≠ snapshotPath) (h : i.NoTornAppend path disk)
    (hfiles : OnlyPut past disk path) : OnlyPut (past ++ i.calls) (i.after path disk) path := by
  obtain ⟨n, -, hrec⟩ := h.recovers hpath
  rw [OnlyPut, hrec]
  intro k v hlook
  rcases mem_or_of_lookup_applyAll hlook with hold | hnew
  · exact List.mem_append_left _ (hfiles k v hold)
  · obtain ⟨op, hop, hlog⟩ := List.mem_filterMap.mp hnew
    have hput : op = .put k v := by
      cases op with
      | put k' v' => simpa [Op.logOp] using hlog
      | del k' => simp [Op.logOp] at hlog
      | setGroupCommitEvery n => simp [Op.logOp] at hlog
      | flushWal => simp [Op.logOp] at hlog
    exact List.mem_append_right _ (hput ▸ List.mem_of_mem_take hop)

variable {Q : List Op → Disk → Path → Prop}

variable {P : ObjectCall → Prop} {past : List Op}

/-- A store opened on no files. -/
theorem ReachableBy.boot (s : ObjectStore) (P : ObjectCall → Prop)
    (Q : List Op → Disk → Path → Prop) :
    ReachableBy s P Q [] (Machine.boot (fun _ => none) "/tmp/kv.wal") :=
  .opened _ _ (Machine.boot_map_of_no_files _)

/-- Every state of an object store's lives is an open store. -/
theorem ReachableBy.serving (h : ReachableBy s P Q past m) : m.Serving := by
  induction h with
  | opened disk path hmap => exact (Machine.boot_working disk path).serving
  | @call past M c hc os h ih =>
    have hserving : Machine.Serving { M with os := os } := ⟨ih.opened, ih.fd⟩
    rw [exec_machine]
    exact (hserving.run _).1
  | reopened c hc os j n h hfiles ih => exact (Machine.boot_working _ _).serving

/-- A sequence of calls leads to such a state. -/
theorem ReachableBy.runCalls (h : ReachableBy s P Q past m) {cs : List ObjectCall}
    (hcs : ∀ c ∈ cs, P c) : ∃ past', ReachableBy s P Q past' (s.runCalls cs m).2 := by
  induction cs generalizing past m with
  | nil => exact ⟨past, h⟩
  | cons c cs ih =>
    exact ih (h.call c (hcs c List.mem_cons_self) m.os) fun c' hc' =>
      hcs c' (List.mem_cons_of_mem c hc')

/-- If the calls write entries of `R` only, and no open brings back others than were put, all
entries are of `R`, and all that was ever put. -/
theorem ReachableBy.entries (h : ReachableBy s P OnlyPut past m)
    (hP : ∀ c, P c → c.EntriesIn s R) :
    Entries R m.store.map ∧ ∀ k v, .put k v ∈ past → R k v := by
  have hcalls : ∀ {past : List Op} {M : Machine} {c : ObjectCall} (os : Schedule) {k v : Bytes},
      P c → Entries R M.store.map → (∀ k v, .put k v ∈ past → R k v) →
        .put k v ∈ past ++ (c.prog s).calls { M with os := os } → R k v := by
    intro past M c os k v hc hM hpast hmem
    rcases List.mem_append.mp hmem with hold | hnew
    · exact hpast k v hold
    · exact ((ObjectCall.keeps (hP c hc)).calls (m := { M with os := os }) hM _ hnew).1
  induction h with
  | opened disk path hmap =>
    rw [hmap]
    refine ⟨fun k v hlook => ?_, by simp⟩
    simp [Finmap.lookup_empty] at hlook
  | @call past M c hc os h ih =>
    have hm : Entries R ({ M with os := os } : Machine).store.map := ih.1
    exact ⟨((ObjectCall.keeps (hP c hc)).exec hm).1, fun k v => hcalls os hc ih.1 ih.2⟩
  | @reopened past M c hc os j n h hfiles ih =>
    have hput : ∀ k v, .put k v ∈ past ++ ((c.prog s).calls { M with os := os }).take (j + 1) →
        R k v := by
      intro k v hmem
      refine hcalls os hc ih.1 ih.2 (List.mem_append.mpr ?_)
      exact (List.mem_append.mp hmem).imp_right List.mem_of_mem_take
    exact ⟨fun k v hlook => hput k v (hfiles k v hlook), hput⟩

/-- In every state metadata under a name without tabs has an object id of that name, and
so does all that was ever put. -/
theorem ReachableBy.owned (h : ReachableBy s P OnlyPut past m) :
    Entries Owned m.store.map ∧ ∀ k v, .put k v ∈ past → Owned k v :=
  h.entries fun c _ => c.owned.entriesIn offMeta_owned

/-! ## Interference -/

/-- `GetObject` depends on the metadata of the object only and, unless it is deleted, the
chunks it counts. -/
theorem value_getObject_congr {m m' : Map}
    (hmeta : m'.lookup (objectMetaKey b k) = m.lookup (objectMetaKey b k))
    (hchunks : ∀ raw md, m.lookup (objectMetaKey b k) = some raw →
      deserializeMetadata raw = some md → md.state ≠ .deleted →
        ∀ i < md.chunkCount.toNat,
          m'.lookup (chunkKey md.objectId i) = m.lookup (chunkKey md.objectId i)) :
    (getObject b k).value m' = (getObject b k).value m := by
  have hread : ∀ (id : Bytes) (is : List ℕ) (data : Bytes),
      (∀ i ∈ is, m'.lookup (chunkKey id i) = m.lookup (chunkKey id i)) →
        (readChunks id is data).value m' = (readChunks id is data).value m := by
    intro id is data hid
    induction is generalizing data with
    | nil => rfl
    | cons i is ih =>
      obtain ⟨hi, his⟩ := List.forall_mem_cons.mp hid
      simp only [readChunks, value_bind, value_kvGet, after_kvGet, hi]
      cases m.lookup (chunkKey id i) with
      | none => rfl
      | some c => exact ih (data ++ c) his
  simp only [getObject, value_bind, value_kvGet, after_kvGet, hmeta]
  cases hraw : m.lookup (objectMetaKey b k) with
  | none => rfl
  | some raw =>
    dsimp only
    cases hmd : deserializeMetadata raw with
    | none => rfl
    | some md =>
      dsimp only
      split_ifs with hdeleted
      · rfl
      · have hsame := hread md.objectId (List.range md.chunkCount.toNat) [] fun i hi =>
          hchunks raw md hraw hmd hdeleted i (List.mem_range.mp hi)
        rw [value_bind, value_bind, hsame]
        cases (readChunks md.objectId (List.range md.chunkCount.toNat) []).value m <;> rfl

/-- A put or a delete of the object. -/
def ObjectCall.Writes (b k : Bytes) : ObjectCall → Prop
  | .putObject req _ _ => req.bucket = b ∧ req.key = k
  | .deleteObject b' k' _ => b' = b ∧ k' = k
  | _ => False

theorem ObjectCall.Writes.keeps {c : ObjectCall} (h : c.Writes b k) :
    (c.prog s).Keeps Owned (KeyOf (joinedName b k)) := by
  cases c with
  | putObject req idMs now =>
    obtain ⟨rfl, rfl⟩ := h
    have hmeta := ObjectCall.owned (s := s) (.putObject req idMs now)
    exact .bind (keeps_putObject (offMeta_owned.putsIn hmeta)) fun _ => keeps_pure _
  | deleteObject b' k' now =>
    obtain ⟨rfl, rfl⟩ := h
    have hmeta := ObjectCall.owned (s := s) (.deleteObject b' k' now)
    exact .bind (keeps_deleteObject hmeta) fun _ => keeps_pure _
  | createBucket b now => exact h.elim
  | getObject b k => exact h.elim
  | listObjects b pfx order => exact h.elim
  | garbageCollectChunks order => exact h.elim

/-- In no state in which both buckets exist does a put or a delete of the first object change
what `GetObject` says of the second, over all lives whose opens bring back only entries that
were put before. -/
def NeverInterfere (s : ObjectStore) (b₁ k₁ b₂ k₂ : Bytes) : Prop :=
  ∀ past M, ReachableBy s (fun _ => True) OnlyPut past M →
    ((bucketExists b₁).exec M).1 = true →
    ((bucketExists b₂).exec M).1 = true → ∀ c : ObjectCall, c.Writes b₁ k₁ → ∀ os : Schedule,
      ((getObject b₂ k₂).exec ((c.prog s).exec { M with os := os }).2).1 =
        ((getObject b₂ k₂).exec M).1

variable {b₁ k₁ b₂ k₂ : Bytes}

/-- Objects of different joined names do not interfere. -/
theorem NeverInterfere.of_joinedName_ne (hb : tab ∉ b₂) (hk : tab ∉ k₂)
    (h : joinedName b₁ k₁ ≠ joinedName b₂ k₂) : NeverInterfere s b₁ k₁ b₂ k₂ := by
  rintro past M hM - - c hc os
  obtain ⟨howned, -⟩ := hM.owned
  have hm : Entries Owned ({ M with os := os } : Machine).store.map := howned
  obtain ⟨-, hframe⟩ := hc.keeps.exec hm
  rw [exec_of_ops_nil ops_getObject, exec_of_ops_nil ops_getObject]
  refine value_getObject_congr (hframe _ (not_keyOf_objmeta h)) fun raw md hraw hmd _ i _ => ?_
  obtain ⟨t, ht⟩ := howned _ raw hraw _ (tab_not_mem_joinedName.mpr ⟨hb, hk⟩) rfl md hmd
  rw [ht]
  exact hframe _ (not_keyOf_chunkKey h t i)

/-! ## Names that join to the same -/

/-- An object without data. -/
def emptyRequest (b k : Bytes) : PutObjectRequest := { bucket := b, key := k, data := [] }

/-- The metadata a put leaves. -/
theorem lookup_putObject {m : Map} {req : PutObjectRequest} (hb : req.bucket ≠ [])
    (hk : req.key ≠ []) (hbucket : (m.lookup (bucketMetaKey req.bucket)).isSome)
    (idMs nowMs : UInt64) :
    ((s.putObject req idMs nowMs).after m).lookup (objectMetaKey req.bucket req.key) =
      some (serializeMetadata (s.putMetadata req idMs nowMs)) := by
  have hne : objectMetaKey req.bucket req.key ≠ bucketIndexKey req.bucket req.key :=
    (bucketIndexKey_ne_objectMetaKey _ _ _ _).symm
  rw [after, (putObject_eq (s := s) hb hk hbucket idMs nowMs).2]
  show (KvProg.after _ m).lookup _ = _
  simp only [after_bind, after_kvPut, after_kvFlushWal]
  rw [Finmap.lookup_insert_of_ne _ hne, Finmap.lookup_insert]

theorem chunkCount_zero (s : ObjectStore) : s.chunkCount 0 = 0 := by
  have hpos := s.chunkSize_pos
  have hdiv : (0 + s.chunkSize - 1) / s.chunkSize = 0 := Nat.div_eq_of_lt (by omega)
  rw [chunkCount, hdiv]
  rfl

/-- An empty object is found under every name that joins to the same. -/
theorem found_emptyRequest {m : Map} (hb : b₁ ≠ []) (hk : k₁ ≠ [])
    (hbucket : (m.lookup (bucketMetaKey b₁)).isSome) (htabb : tab ∉ b₁) (htabk : tab ∉ k₁)
    (hname : joinedName b₁ k₁ = joinedName b₂ k₂) :
    ((getObject b₂ k₂).value ((s.putObject (emptyRequest b₁ k₁) 0 0).after m)).found = true := by
  have hreq : (emptyRequest b₁ k₁).TabFree :=
    ⟨htabb, htabk, (by decide : tab ∉ str "application/octet-stream")⟩
  have hread : deserializeMetadata (serializeMetadata (s.putMetadata (emptyRequest b₁ k₁) 0 0)) =
      some (s.putMetadata (emptyRequest b₁ k₁) 0 0) := deserializeMetadata_putMetadata hreq
  have hkey : objectMetaKey b₂ k₂ = objectMetaKey b₁ k₁ :=
    congrArg (str "objmeta:" ++ ·) hname.symm
  have hmeta : ((s.putObject (emptyRequest b₁ k₁) 0 0).after m).lookup (objectMetaKey b₁ k₁) = _ :=
    @lookup_putObject s m (emptyRequest b₁ k₁) hb hk hbucket 0 0
  have hcount : (s.putMetadata (emptyRequest b₁ k₁) 0 0).chunkCount = 0 := chunkCount_zero s
  have hlive : (s.putMetadata (emptyRequest b₁ k₁) 0 0).state ≠ .deleted := by
    rintro ⟨⟩
  rw [getObject, value_bind, value_kvGet, after_kvGet, hkey, hmeta]
  dsimp only
  rw [hread]
  dsimp only
  rw [if_neg hlive, hcount]
  rfl

/-- What `CreateBucket` does to a map. -/
theorem lookup_createBucket {b : Bytes} (hb : b ≠ []) (nowMs : UInt64) (m : Map) :
    (((createBucket b nowMs).after m).lookup (bucketMetaKey b)).isSome ∧
      ∀ key, key ≠ bucketMetaKey b →
        ((createBucket b nowMs).after m).lookup key = m.lookup key := by
  rw [createBucket, if_neg hb, after_bind, after_kvGet, value_kvGet]
  split_ifs with hthere
  · exact ⟨hthere, fun _ _ => rfl⟩
  · rw [after_bind, after_kvPut, after_pure]
    exact ⟨by rw [Finmap.lookup_insert]; rfl, fun _ hkey => Finmap.lookup_insert_of_ne _ hkey⟩

/-- Two buckets and no objects. -/
def twoBuckets (s : ObjectStore) (b₁ b₂ : Bytes) : Machine :=
  (s.runCalls [.createBucket b₁ 0, .createBucket b₂ 0]
    (Machine.boot (fun _ => none) "/tmp/kv.wal")).2

theorem reachable_twoBuckets (s : ObjectStore) (Q : List Op → Disk → Path → Prop)
    (b₁ b₂ : Bytes) : ∃ past, ReachableBy s (fun _ => True) Q past (twoBuckets s b₁ b₂) :=
  (ReachableBy.boot s _ Q).runCalls fun _ _ => trivial

theorem map_twoBuckets (s : ObjectStore) (hb₁ : b₁ ≠ []) (hb₂ : b₂ ≠ []) :
    (twoBuckets s b₁ b₂).Working ∧
      ((twoBuckets s b₁ b₂).store.map.lookup (bucketMetaKey b₁)).isSome ∧
      ((twoBuckets s b₁ b₂).store.map.lookup (bucketMetaKey b₂)).isSome ∧
      ∀ b k, (twoBuckets s b₁ b₂).store.map.lookup (objectMetaKey b k) = none := by
  have hempty := Machine.boot_map_of_no_files "/tmp/kv.wal"
  have hprog : ∀ (b : Bytes) (m : Map), ((ObjectCall.createBucket b 0).prog s).after m =
      (createBucket b 0).after m := by
    intro b m
    rw [ObjectCall.prog, after_bind, after_pure]
  obtain ⟨hwork₁, hmap₁⟩ := after_eq (Machine.boot_working (fun _ => none) "/tmp/kv.wal")
    ((ObjectCall.createBucket b₁ 0).prog s)
  obtain ⟨hwork₂, hmap₂⟩ := after_eq hwork₁ ((ObjectCall.createBucket b₂ 0).prog s)
  rw [hempty, hprog] at hmap₁
  rw [hmap₁, hprog] at hmap₂
  obtain ⟨hthere₁, hkeep₁⟩ := lookup_createBucket hb₁ 0 ∅
  obtain ⟨hthere₂, hkeep₂⟩ := lookup_createBucket hb₂ 0 ((createBucket b₁ 0).after ∅)
  have hmap : (twoBuckets s b₁ b₂).store.map =
      (createBucket b₂ 0).after ((createBucket b₁ 0).after ∅) := hmap₂
  have hmeta : ∀ b k b', objectMetaKey b k ≠ bucketMetaKey b' :=
    fun _ _ _ => (bucketMetaKey_ne_objectMetaKey _ _ _).symm
  refine ⟨hwork₂, ?_, hmap ▸ hthere₂, fun b k => ?_⟩
  · rw [hmap]
    by_cases hb : b₁ = b₂
    · subst hb
      exact hthere₂
    · rw [hkeep₂ _ fun hkey => hb (bucketMetaKey_inj hkey)]
      exact hthere₁
  · rw [hmap, hkeep₂ _ (hmeta b k b₂), hkeep₁ _ (hmeta b k b₁), Finmap.lookup_empty]

/-- A put of one changes what `GetObject` says of the other. -/
theorem not_neverInterfere_of_joinedName_eq (hb₁ : b₁ ≠ []) (hk₁ : k₁ ≠ []) (hb₂ : b₂ ≠ [])
    (htabb : tab ∉ b₁) (htabk : tab ∉ k₁) (hname : joinedName b₁ k₁ = joinedName b₂ k₂) :
    ¬ NeverInterfere s b₁ k₁ b₂ k₂ := by
  obtain ⟨past, hreach⟩ := reachable_twoBuckets s OnlyPut b₁ b₂
  obtain ⟨hwork, hthere₁, hthere₂, hnone⟩ := map_twoBuckets s hb₁ hb₂
  set M := twoBuckets s b₁ b₂ with hM
  intro hnever
  have hsame := hnever past M hreach ?_ ?_ (.putObject (emptyRequest b₁ k₁) 0 0) ⟨rfl, rfl⟩ M.os
  · obtain ⟨-, hmap⟩ := after_eq hwork ((ObjectCall.putObject (emptyRequest b₁ k₁) 0 0).prog s)
    have hfound := found_emptyRequest (s := s) hb₁ hk₁ hthere₁ htabb htabk hname
    rw [exec_of_ops_nil ops_getObject, exec_of_ops_nil ops_getObject] at hsame
    have hafter : ((ObjectCall.putObject (emptyRequest b₁ k₁) 0 0).prog s).after M.store.map =
        (s.putObject (emptyRequest b₁ k₁) 0 0).after M.store.map := by
      rw [ObjectCall.prog, after_bind, after_pure]
    have hbefore : ((getObject b₂ k₂).value M.store.map).found = false := by
      rw [getObject, value_bind, value_kvGet, hnone]
      rfl
    rw [hafter] at hmap
    simp only [hmap] at hsame
    rw [hsame, hbefore] at hfound
    exact Bool.false_ne_true hfound
  · rw [exec_of_ops_nil (bucketExists_eq hb₁).2, (bucketExists_eq hb₁).1]
    exact hthere₁
  · rw [exec_of_ops_nil (bucketExists_eq hb₂).2, (bucketExists_eq hb₂).1]
    exact hthere₂

/-- **Objects with different names never interfere, exactly when their joined names differ**,
whatever the names are that `PutObject` accepts, as long as every open brings back only
entries that were put before it. -/
theorem neverInterfere_iff (hb₁ : b₁ ≠ []) (hk₁ : k₁ ≠ []) (hb₂ : b₂ ≠ [])
    (htab₁ : tab ∉ b₁ ∧ tab ∉ k₁) (htab₂ : tab ∉ b₂ ∧ tab ∉ k₂) :
    NeverInterfere s b₁ k₁ b₂ k₂ ↔ joinedName b₁ k₁ ≠ joinedName b₂ k₂ := by
  constructor
  · intro hnever hname
    exact not_neverInterfere_of_joinedName_eq hb₁ hk₁ hb₂ htab₁.1 htab₁.2 hname hnever
  · exact NeverInterfere.of_joinedName_ne htab₂.1 htab₂.2

/-- The theorem at two keys of one bucket. -/
theorem neverInterfere_iff_keys :
    NeverInterfere smallStore (str "b") (str "k") (str "b") (str "k:1") ↔
      joinedName (str "b") (str "k") ≠ joinedName (str "b") (str "k:1") :=
  neverInterfere_iff (by decide) (by decide) (by decide) (by decide) (by decide)

/-- A put of `b:c` into bucket `a` is a put of `c` into bucket `a:b`. -/
theorem not_neverInterfere :
    ¬ NeverInterfere smallStore (str "a") (str "b:c") (str "a:b") (str "c") :=
  not_neverInterfere_of_joinedName_eq (by decide) (by decide) (by decide) (by decide) (by decide)
    (by decide)

end KvEngine
