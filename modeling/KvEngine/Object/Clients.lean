import KvEngine.Object.PutDelete
import KvEngine.Systems.Threads

/-!
# Clients of one object store

Any number of threads call an object store, all of its operations at once, and take turns
after every call on the key-value store. The store they share is a map of objects on which
each put, delete and bucket creation acts at one moment; `GetObject` finds what one moment of
its call had, `ListObjects` what some moments had. The object ids are new and the names can
be told apart.

Results:
* `Runs.bind`, `runs_writeChunks`, `runs_readChunks`: what is left of a program, by its loops.
* `clients`: every call, proved for itself.
* `clients_trace`: what clients see, the clients of a map of objects can see.
-/

namespace KvEngine

open KvProg ObjectStore Systems

/-! ## The shared object -/

/-- The objects, and whether a collection of chunks has begun. -/
structure Objects where
  map : ObjectMap
  collected : Bool

/-- `GetObject` misses a chunk. -/
def MissesChunk (r : GetObjectResult) : Prop :=
  r.found = false ∧ ∃ i, r.error = str "missing object chunk at index " ++ decimal i

/-- What `ListObjects` says when the objects change under it: each entry is an object that was
there at some moment, under its size and type. -/
structure ListsSome (saw : Set Objects) (b pfx : Bytes) (r : ListObjectsResult) : Prop where
  ok : ∃ A ∈ saw, r.ok = decide (b ∈ A.map.buckets)
  once : (r.objects.map ObjectListEntry.key).Nodup
  entries : ∀ e ∈ r.objects, pfx <+: e.key ∧ ∃ A ∈ saw, ∃ data,
    A.map.objects (b, e.key) = some (data, e.contentType) ∧ e.sizeBytes.toNat = data.length

namespace Objects

/-- What a call makes of the objects. -/
def apply : ObjectCall → Objects → Objects
  | .garbageCollectChunks _, A => { A with collected := true }
  | c, A => { A with map := A.map.apply c }

/-- The reply to a call that acts on the objects: a put or a delete that acts succeeds. Once
chunks are collected, a get may miss one. -/
def Answers : ObjectCall → Objects → ObjectReply → Prop
  | .getObject b k, A, .getObject r =>
    ObjectMap.GetsObject (A.map.objects (b, k)) r ∨ A.collected = true ∧ MissesChunk r
  | .putObject req _ _, A, .putObject r => r.ok = true ∧ A.map.Accepts req
  | .deleteObject _ _ _, _, .deleteObject r => r.ok = true
  | c, A, r => A.map.Answers c r

/-- The reply to a call that changes nothing: it is one for a moment of the call, and for a
listing each entry is. A put or a delete that changes nothing fails. -/
def Looks : ObjectCall → Set Objects → ObjectReply → Prop
  | .createBucket b _, saw, .createBucket ok =>
    (∃ A ∈ saw, A.map.createBucket b = A.map) ∧ ok = decide (b ≠ [])
  | .putObject req _ _, saw, .putObject r => r.ok = false ∧ ∃ A ∈ saw, ¬ A.map.Accepts req
  | .getObject b k, saw, .getObject r => ∃ A ∈ saw, Answers (.getObject b k) A (.getObject r)
  | .deleteObject b k _, saw, .deleteObject r =>
    r.ok = false ∧ ∃ A ∈ saw, A.map.objects (b, k) = none
  | .listObjects b pfx _, saw, .listObjects r => ListsSome saw b pfx r
  | _, _, _ => False

/-- Every call that changes an object flushes the log before it returns; a new bucket does
not. -/
def Lasts : ObjectCall → Prop
  | .createBucket _ _ => False
  | _ => True

/-- The object that clients share. -/
def spec : Spec Objects ObjectCall ObjectReply :=
  ⟨⟨.empty, false⟩, apply, Answers, Looks, Lasts⟩

end Objects

/-- The id of the object a call writes. -/
def ObjectCall.newId : ObjectCall → Option Bytes
  | .putObject req idMs _ => some (makeObjectId req.bucket req.key idMs)
  | _ => none

/-- A store with its files, and the calls it got since it was opened. -/
structure InUse where
  machine : Machine
  ops : List Op

/-- The clients' programs on a store that was opened as `M`. A put makes an object id that no
put before it made. -/
def clientCode (s : ObjectStore) (M : Machine) :
    Code InUse ObjectCall ObjectReply (KvProg ObjectReply) where
  start σ := σ = ⟨M, []⟩
  admits made c := c.Named ∧ c.Chunked s ∧
    ∀ id, c.newId = some id → ∀ c' ∈ made, c'.newId ≠ some id
  prog c := c.prog s
  step σ p σ' p' := KvProg.Step σ.machine p σ'.machine p' ∧ σ'.ops = σ.ops ++ p.nextOp.toList
  returns p r := p = .pure r

/-! ## Worlds -/

/-- What no call takes back: the calls made, the chunks written, the buckets, and whether a
collection has begun. -/
structure World where
  calls : List ObjectCall
  kept : Map
  buckets : Finset Bytes
  collected : Bool

namespace World

/-- A world that has at least as much. -/
structure Le (w w' : World) : Prop where
  calls : ∀ c ∈ w.calls, c ∈ w'.calls
  kept : ∀ key v, w.kept.lookup key = some v → w'.kept.lookup key = some v
  buckets : w.buckets ⊆ w'.buckets
  collected : w.collected = true → w'.collected = true

instance : Preorder World where
  le := Le
  le_refl w := ⟨fun _ h => h, fun _ _ h => h, subset_rfl, fun h => h⟩
  le_trans w w' w'' h h' := ⟨fun c hc => h'.calls c (h.calls c hc),
    fun key v hv => h'.kept key v (h.kept key v hv), h.buckets.trans h'.buckets,
    fun hc => h'.collected (h.collected hc)⟩

end World

/-- The chunk is one that a put among the calls writes. -/
def Planned (s : ObjectStore) (calls : List ObjectCall) (key v : Bytes) : Prop :=
  ∃ req idMs now i, .putObject req idMs now ∈ calls ∧
    key = chunkKey (makeObjectId req.bucket req.key idMs) i ∧ v = s.chunkValue req.data i

/-- What is stored for an object: nothing, metadata marked as deleted, or metadata whose
chunks have been written. -/
def Retains (kept m : Map) (b k : Bytes) (v : Option (Bytes × Bytes)) : Prop :=
  (m.lookup (objectMetaKey b k) = none ∧ v = none) ∨
    ∃ md, m.lookup (objectMetaKey b k) = some (serializeMetadata md) ∧
      Describes (2 ^ 64) b k md ∧ ((md.state = .deleted ∧ v = none) ∨
        (md.state = .committed ∧ ∃ data, v = some (data, md.contentType) ∧
          md.sizeBytes.toNat = data.length ∧
          HasChunks kept md.objectId md.chunkCount.toNat data))

/-- What the store's map holds in a world. -/
structure Holding (s : ObjectStore) (w : World) (m : Map) (A : Objects) : Prop where
  distinct : ∀ c ∈ w.calls, ∀ c' ∈ w.calls, ∀ id, c.newId = some id → c'.newId = some id → c = c'
  collected : A.collected = w.collected
  known : A.map.buckets = w.buckets
  buckets : ∀ b, (m.lookup (bucketMetaKey b)).isSome = decide (b ∈ w.buckets)
  objects : ∀ b k, colon ∉ b → Retains w.kept m b k (A.map.objects (b, k))
  planned : ∀ key v, w.kept.lookup key = some v → Planned s w.calls key v
  chunks : ∀ key v, w.kept.lookup key = some v → m.lookup key = some v ∨
    w.collected = true ∧ m.lookup key = none

variable {s : ObjectStore} {w w' : World} {m m' : Map} {A : Objects} {b k : Bytes}

theorem Planned.mono {calls calls' : List ObjectCall} {key v : Bytes} (h : Planned s calls key v)
    (hcalls : ∀ c ∈ calls, c ∈ calls') : Planned s calls' key v := by
  obtain ⟨req, idMs, now, i, hmem, hkey⟩ := h
  exact ⟨req, idMs, now, i, hcalls _ hmem, hkey⟩

theorem Planned.family {calls : List ObjectCall} {key v : Bytes} (h : Planned s calls key v) :
    family key = str "objchun" := by
  obtain ⟨req, idMs, now, i, -, rfl, -⟩ := h
  exact family_chunkKey _ _

/-- What a chunk holds is settled when its put is called. -/
theorem Holding.planned_unique (h : Holding s w m A) {key v v' : Bytes}
    (hv : Planned s w.calls key v) (hv' : Planned s w.calls key v') : v = v' := by
  obtain ⟨req, idMs, now, i, hmem, rfl, rfl⟩ := hv
  obtain ⟨req', idMs', now', i', hmem', hkey, rfl⟩ := hv'
  obtain ⟨hid, rfl⟩ := chunkKey_inj hkey
  have hsame := h.distinct _ hmem _ hmem' _ rfl (congrArg some hid.symm)
  obtain ⟨rfl, -, -⟩ := ObjectCall.putObject.inj hsame
  rfl

theorem HasChunks.mono {kept kept' : Map} {id data : Bytes} {n : ℕ} (h : HasChunks kept id n data)
    (hkept : ∀ key v, kept.lookup key = some v → kept'.lookup key = some v) :
    HasChunks kept' id n data := by
  obtain ⟨chunks, hlen, hdata, hall⟩ := h
  refine ⟨chunks, hlen, hdata, fun i hi => ?_⟩
  rw [← hlen] at hi
  have hget : chunks[i]? = some chunks[i] := List.getElem?_eq_getElem hi
  rw [hget]
  exact hkept _ _ ((hall i (hlen ▸ hi)).trans hget)

/-- The chunks of an id, by their index. -/
theorem HasChunks.values {kept : Map} {id data : Bytes} {n : ℕ} (h : HasChunks kept id n data) :
    ∃ g : ℕ → Bytes, (∀ i ∈ List.range n, kept.lookup (chunkKey id i) = some (g i)) ∧
      [] ++ ((List.range n).map g).flatten = data := by
  obtain ⟨chunks, rfl, rfl, hall⟩ := h
  refine ⟨fun i => chunks.getD i [], fun i hi => ?_, ?_⟩
  · have hi := List.mem_range.mp hi
    rw [hall i hi, List.getElem?_eq_getElem hi]
    exact congrArg some (List.getD_eq_getElem _ _ hi).symm
  · rw [List.nil_append]
    congr 1
    refine List.ext_getElem (by simp) fun i hi hi' => ?_
    simp [hi']

theorem Retains.congr {kept kept' : Map} {v : Option (Bytes × Bytes)} (h : Retains kept m b k v)
    (hmeta : m'.lookup (objectMetaKey b k) = m.lookup (objectMetaKey b k))
    (hkept : ∀ key v, kept.lookup key = some v → kept'.lookup key = some v) :
    Retains kept' m' b k v := by
  unfold Retains
  rw [hmeta]
  refine h.imp_right ?_
  rintro ⟨md, hlook, hd, hv⟩
  refine ⟨md, hlook, hd, hv.imp_right ?_⟩
  rintro ⟨hstate, data, hdata, hsize, hchunks⟩
  exact ⟨hstate, data, hdata, hsize, hchunks.mono hkept⟩

/-- Metadata that is there reads back. -/
theorem Retains.metadata {kept : Map} {v : Option (Bytes × Bytes)} (h : Retains kept m b k v) :
    (m.lookup (objectMetaKey b k) = none ∧ v = none) ∨
      ∃ md, m.lookup (objectMetaKey b k) = some (serializeMetadata md) ∧
        deserializeMetadata (serializeMetadata md) = some md ∧ Describes (2 ^ 64) b k md ∧
          ((md.state = .deleted ∧ v = none) ∨
            (md.state = .committed ∧ ∃ data, v = some (data, md.contentType) ∧
              md.sizeBytes.toNat = data.length ∧
              HasChunks kept md.objectId md.chunkCount.toNat data)) := by
  refine h.imp_right ?_
  rintro ⟨md, hlook, hd, hv⟩
  refine ⟨md, hlook, hd.deserialize ?_, hd, hv⟩
  rcases hv with ⟨hstate, -⟩ | ⟨hstate, -⟩
  · exact .inr hstate
  · exact .inl hstate

namespace Holding

/-- Entries of the index do not matter. -/
theorem of_index (h : Holding s w m A)
    (hm' : ∀ key, family key ≠ str "bucketi" → m'.lookup key = m.lookup key) :
    Holding s w m' A := by
  refine ⟨h.distinct, h.collected, h.known, fun b => ?_, fun b k hb => ?_, h.planned,
    fun key v hv => ?_⟩
  · rw [hm' _ (by rw [family_bucketMetaKey]; decide), h.buckets b]
  · exact (h.objects b k hb).congr (hm' _ (by rw [family_objectMetaKey]; decide)) fun _ _ hv => hv
  · rw [hm' _ (by rw [(h.planned key v hv).family]; decide)]
    exact h.chunks key v hv

/-- A collection takes chunks away. -/
theorem erase_chunk (h : Holding s w m A) (hcollected : w.collected = true) {key : Bytes}
    (hkey : family key = str "objchun") : Holding s w (m.erase key) A := by
  have hne : ∀ key', family key' ≠ str "objchun" → (m.erase key).lookup key' = m.lookup key' :=
    fun key' hkey' => Finmap.lookup_erase_ne fun heq => hkey' (heq ▸ hkey)
  refine ⟨h.distinct, h.collected, h.known, fun b => ?_, fun b k hb => ?_, h.planned,
    fun key' v hv => ?_⟩
  · rw [hne _ (by rw [family_bucketMetaKey]; decide), h.buckets b]
  · exact (h.objects b k hb).congr (hne _ (by rw [family_objectMetaKey]; decide)) fun _ _ hv => hv
  · by_cases heq : key' = key
    · exact .inr ⟨hcollected, heq ▸ Finmap.lookup_erase key m⟩
    · rw [Finmap.lookup_erase_ne heq]
      exact h.chunks key' v hv

/-- A put writes a chunk. -/
theorem insert_chunk (h : Holding s w m A) {key v : Bytes} (hv : Planned s w.calls key v) :
    w ≤ { w with kept := w.kept.insert key v } ∧
      Holding s { w with kept := w.kept.insert key v } (m.insert key v) A := by
  have hkept : ∀ key' v', w.kept.lookup key' = some v' →
      (w.kept.insert key v).lookup key' = some v' := by
    intro key' v' hlook
    by_cases heq : key' = key
    · subst heq
      rw [Finmap.lookup_insert, h.planned_unique hv (h.planned _ _ hlook)]
    · rwa [Finmap.lookup_insert_of_ne _ heq]
  have hne : ∀ key', family key' ≠ str "objchun" →
      (m.insert key v).lookup key' = m.lookup key' :=
    fun key' hkey' => Finmap.lookup_insert_of_ne m fun heq => hkey' (heq ▸ hv.family)
  refine ⟨⟨fun _ hc => hc, hkept, subset_rfl, fun hc => hc⟩, h.distinct, h.collected, h.known,
    fun b => ?_, fun b k hb => ?_, fun key' v' hlook => ?_, fun key' v' hlook => ?_⟩
  · rw [hne _ (by rw [family_bucketMetaKey]; decide), h.buckets b]
  · exact (h.objects b k hb).congr (hne _ (by rw [family_objectMetaKey]; decide)) hkept
  · by_cases heq : key' = key
    · subst heq
      rw [Finmap.lookup_insert] at hlook
      exact Option.some.inj hlook ▸ hv
    · rw [Finmap.lookup_insert_of_ne _ heq] at hlook
      exact h.planned key' v' hlook
  · by_cases heq : key' = key
    · subst heq
      rw [Finmap.lookup_insert] at hlook ⊢
      exact .inl hlook
    · rw [Finmap.lookup_insert_of_ne _ heq] at hlook ⊢
      exact h.chunks key' v' hlook

/-- New metadata of one object. -/
theorem insert_meta (h : Holding s w m A) (hb : colon ∉ b) {raw : Bytes} {A' : Objects}
    (hcollected : A'.collected = A.collected) (hbuckets : A'.map.buckets = A.map.buckets)
    (hobjects : ∀ b' k', (b', k') ≠ (b, k) → A'.map.objects (b', k') = A.map.objects (b', k'))
    (hv : Retains w.kept (m.insert (objectMetaKey b k) raw) b k (A'.map.objects (b, k))) :
    Holding s w (m.insert (objectMetaKey b k) raw) A' := by
  refine ⟨h.distinct, hcollected.trans h.collected, hbuckets.trans h.known, fun b' => ?_,
    fun b' k' hb' => ?_, h.planned, fun key v hlook => ?_⟩
  · rw [Finmap.lookup_insert_of_ne _ (bucketMetaKey_ne_objectMetaKey _ _ _), h.buckets b']
  · by_cases heq : (b', k') = (b, k)
    · obtain ⟨rfl, rfl⟩ := Prod.mk.inj heq
      exact hv
    · rw [hobjects b' k' heq]
      refine (h.objects b' k' hb').congr ?_ fun _ _ hv => hv
      refine Finmap.lookup_insert_of_ne m fun hkey => heq ?_
      obtain ⟨rfl, rfl⟩ := objectMetaKey_inj hb' hb hkey
      rfl
  · rw [Finmap.lookup_insert_of_ne]
    · exact h.chunks key v hlook
    · refine ne_of_family ?_
      rw [(h.planned key v hlook).family, family_objectMetaKey]
      decide

/-- A new bucket. -/
theorem insert_bucket (h : Holding s w m A) (hb : b ≠ []) (raw : Bytes) :
    w ≤ { w with buckets := insert b w.buckets } ∧
      Holding s { w with buckets := insert b w.buckets } (m.insert (bucketMetaKey b) raw)
        { A with map := A.map.createBucket b } := by
  have hmap : (A.map.createBucket b).buckets = insert b A.map.buckets ∧
      (A.map.createBucket b).objects = A.map.objects := by
    rw [ObjectMap.createBucket, dif_neg hb]
    exact ⟨rfl, rfl⟩
  refine ⟨⟨fun _ hc => hc, fun _ _ hv => hv, Finset.subset_insert _ _, fun hc => hc⟩,
    h.distinct, h.collected, ?_, fun b' => ?_, fun b' k' hb' => ?_, h.planned,
    fun key v hlook => ?_⟩
  · rw [hmap.1, h.known]
  · by_cases heq : b' = b
    · subst heq
      simp [Finmap.lookup_insert]
    · rw [Finmap.lookup_insert_of_ne _ fun hkey => heq (bucketMetaKey_inj hkey), h.buckets b']
      simp [heq]
  · rw [hmap.2]
    refine (h.objects b' k' hb').congr ?_ fun _ _ hv => hv
    exact Finmap.lookup_insert_of_ne m (bucketMetaKey_ne_objectMetaKey _ _ _).symm
  · rw [Finmap.lookup_insert_of_ne]
    · exact h.chunks key v hlook
    · refine ne_of_family ?_
      rw [(h.planned key v hlook).family, family_bucketMetaKey]
      decide

/-- A collection begins. -/
theorem collect (h : Holding s w m A) :
    w ≤ { w with collected := true } ∧
      Holding s { w with collected := true } m { A with collected := true } := by
  refine ⟨⟨fun _ hc => hc, fun _ _ hv => hv, subset_rfl, fun _ => rfl⟩, h.distinct, rfl, h.known,
    h.buckets, h.objects, h.planned, fun key v hlook => ?_⟩
  exact (h.chunks key v hlook).imp_right fun hc => ⟨rfl, hc.2⟩

/-- A call is made. -/
theorem make (h : Holding s w m A) {c : ObjectCall}
    (hnew : ∀ id, c.newId = some id → ∀ c' ∈ w.calls, c'.newId ≠ some id) :
    w ≤ { w with calls := c :: w.calls } ∧ Holding s { w with calls := c :: w.calls } m A := by
  have hcalls : ∀ c' ∈ w.calls, c' ∈ c :: w.calls := fun _ hc => List.mem_cons_of_mem c hc
  refine ⟨⟨hcalls, fun _ _ hv => hv, subset_rfl, fun hc => hc⟩, ?_, h.collected, h.known,
    h.buckets, h.objects, fun key v hlook => (h.planned key v hlook).mono hcalls, h.chunks⟩
  intro c₁ hc₁ c₂ hc₂ id hid₁ hid₂
  rcases List.mem_cons.mp hc₁ with heq₁ | hold₁
  · rcases List.mem_cons.mp hc₂ with heq₂ | hold₂
    · exact heq₁.trans heq₂.symm
    · exact absurd hid₂ (hnew id (heq₁ ▸ hid₁) c₂ hold₂)
  · rcases List.mem_cons.mp hc₂ with heq₂ | hold₂
    · exact absurd hid₁ (hnew id (heq₂ ▸ hid₂) c₁ hold₁)
    · exact h.distinct c₁ hold₁ c₂ hold₂ id hid₁ hid₂

end Holding

/-! ## What is left of a program -/

/-- A thread's turn. Whatever the others have done, it changes the map by `f` and may act, and
what comes next may rely on the map it found. -/
def Turn (s : ObjectStore) (w : World) (q : Pending Objects ObjectCall) (f : Map → Map)
    (Next : Map → World → Pending Objects ObjectCall → Prop) : Prop :=
  ∀ w' q' m A, w ≤ w' → q.Grows q' → Holding s w' m A → A ∈ q'.saw →
    ∃ w'', w' ≤ w'' ∧ w''.calls = w'.calls ∧
      ((Holding s w'' (f m) A ∧ Next m w'' q') ∨
        (q'.acted = none ∧ Holding s w'' (f m) (Objects.apply q'.call A) ∧
          Next m w'' ((q'.act A).see (Objects.apply q'.call A))))

variable {α β : Type} {q q' : Pending Objects ObjectCall} {p : KvProg α}
  {post post' : α → World → Pending Objects ObjectCall → Prop} {f : Map → Map}
  {Next Next' : Map → World → Pending Objects ObjectCall → Prop}

theorem Turn.mono (h : Turn s w q f Next) (hw : w ≤ w') (hq : q.Grows q') :
    Turn s w' q' f Next :=
  fun _ _ _ _ hw' hq' hm hA => h _ _ _ _ (hw.trans hw') (hq.trans hq') hm hA

theorem Turn.imp (h : Turn s w q f Next) (hnext : ∀ m w' q', Next m w' q' → Next' m w' q') :
    Turn s w q f Next' := by
  intro w' q' m A hw hq hm hA
  obtain ⟨w'', hw', hcalls, hgoes⟩ := h w' q' m A hw hq hm hA
  refine ⟨w'', hw', hcalls, hgoes.imp ?_ ?_⟩
  · rintro ⟨hm', hn⟩
    exact ⟨hm', hnext _ _ _ hn⟩
  · rintro ⟨hnot, hm', hn⟩
    exact ⟨hnot, hm', hnext _ _ _ hn⟩

/-- A turn at which the objects stay what they are. -/
theorem Turn.of_silent (h : ∀ w' q' m A, w ≤ w' → q.Grows q' → Holding s w' m A → A ∈ q'.saw →
    Holding s w' (f m) A ∧ Next m w' q') : Turn s w q f Next :=
  fun w' q' m A hw hq hm hA => ⟨w', le_rfl, rfl, .inl (h w' q' m A hw hq hm hA)⟩

/-- What is left of a program, and what holds when it returns. Behind a flush of the log what
the call did is kept. -/
def Runs (s : ObjectStore) (post : α → World → Pending Objects ObjectCall → Prop) :
    KvProg α → World → Pending Objects ObjectCall → Prop
  | .pure a, w, q => post a w q
  | .get key next, w, q => Turn s w q id fun m w q => Runs s post (next (m.lookup key)) w q
  | .listKeysWithPrefix _ pfx next, w, q => Turn s w q id fun m w q => ∀ order,
      Enumerates order m → Runs s post (next (KVStore.listKeysWithPrefix order pfx)) w q
  | .put key v next, w, q => Turn s w q (·.insert key v) fun _ w q => Runs s post next w q
  | .del key next, w, q =>
    Turn s w q (·.erase key) fun m w q => Runs s post (next (m.lookup key).isSome) w q
  | .flushWal next, w, q => ∀ w' q', w ≤ w' → q.Grows q' → Runs s post (next true) w' q'.keep

theorem Runs.mono (h : Runs s post p w q) (hw : w ≤ w') (hq : q.Grows q')
    (hpost : ∀ a, post a w q → post a w' q') : Runs s post p w' q' := by
  cases p with
  | pure a => exact hpost a h
  | get key next => exact Turn.mono h hw hq
  | listKeysWithPrefix order pfx next => exact Turn.mono h hw hq
  | put key v next => exact Turn.mono h hw hq
  | del key next => exact Turn.mono h hw hq
  | flushWal next => exact fun w₁ q₁ hw₁ hq₁ => h w₁ q₁ (hw.trans hw₁) (hq.trans hq₁)

theorem Runs.imp (h : Runs s post p w q) (hpost : ∀ a w' q', post a w' q' → post' a w' q') :
    Runs s post' p w q := by
  induction p generalizing w q with
  | pure a => exact hpost a w q h
  | get key next ih => exact Turn.imp h fun m w' q' hnext => ih _ hnext
  | listKeysWithPrefix order pfx next ih =>
    exact Turn.imp h fun m w' q' hnext order' horder => ih _ (hnext order' horder)
  | put key v next ih => exact Turn.imp h fun m w' q' hnext => ih hnext
  | del key next ih => exact Turn.imp h fun m w' q' hnext => ih _ hnext
  | flushWal next ih => exact fun w' q' hw hq => ih _ (h w' q' hw hq)

/-- One program after the other. -/
theorem Runs.bind {p : KvProg β} {g : β → KvProg α}
    (h : Runs s (fun b w q => Runs s post (g b) w q) p w q) : Runs s post (p >>= g) w q := by
  show Runs s post (p.bind g) w q
  induction p generalizing w q with
  | pure a => exact h
  | get key next ih => exact Turn.imp h fun m w' q' hnext => ih _ hnext
  | listKeysWithPrefix order pfx next ih =>
    exact Turn.imp h fun m w' q' hnext order' horder => ih _ (hnext order' horder)
  | put key v next ih => exact Turn.imp h fun m w' q' hnext => ih hnext
  | del key next ih => exact Turn.imp h fun m w' q' hnext => ih _ hnext
  | flushWal next ih => exact fun w' q' hw hq => ih _ (h w' q' hw hq)

/-! ## Single calls -/

theorem runs_kvGet {key : Bytes} {g : Option Bytes → KvProg α}
    (h : ∀ w' q' m A, w ≤ w' → q.Grows q' → Holding s w' m A → A ∈ q'.saw →
      Runs s post (g (m.lookup key)) w' q') : Runs s post (kvGet key >>= g) w q :=
  Turn.of_silent fun w' q' m A hw hq hm hA => ⟨hm, h w' q' m A hw hq hm hA⟩

theorem runs_kvList {order₀ : List Entry} {pfx : Bytes} {g : List Bytes → KvProg α}
    (h : ∀ w' q' m A order, w ≤ w' → q.Grows q' → Holding s w' m A → A ∈ q'.saw →
      Enumerates order m → Runs s post (g (KVStore.listKeysWithPrefix order pfx)) w' q') :
    Runs s post (kvList order₀ pfx >>= g) w q :=
  Turn.of_silent fun w' q' m A hw hq hm hA =>
    ⟨hm, fun order horder => h w' q' m A order hw hq hm hA horder⟩

theorem runs_kvFlushWal {g : Bool → KvProg α}
    (h : ∀ w' q', w ≤ w' → q.Grows q' → Runs s post (g true) w' q'.keep) :
    Runs s post (kvFlushWal >>= g) w q := h

/-- An entry of the index is written. -/
theorem runs_kvPut_index {key v : Bytes} {g : Unit → KvProg α}
    (hkey : family key = str "bucketi")
    (h : ∀ w' q', w ≤ w' → q.Grows q' → Runs s post (g ()) w' q') :
    Runs s post (kvPut key v >>= g) w q := by
  refine Turn.of_silent fun w' q' m A hw hq hm _ =>
    ⟨hm.of_index fun key' hkey' => ?_, h w' q' hw hq⟩
  exact Finmap.lookup_insert_of_ne m fun heq => hkey' (heq ▸ hkey)

/-- Or deleted. -/
theorem runs_kvDel_index {key : Bytes} {g : Bool → KvProg α} (hkey : family key = str "bucketi")
    (h : ∀ w' q' deleted, w ≤ w' → q.Grows q' → Runs s post (g deleted) w' q') :
    Runs s post (kvDel key >>= g) w q := by
  refine Turn.of_silent fun w' q' m A hw hq hm _ =>
    ⟨hm.of_index fun key' hkey' => ?_, h w' q' _ hw hq⟩
  exact Finmap.lookup_erase_ne fun heq => hkey' (heq ▸ hkey)

/-- A chunk is deleted, as they are being collected. -/
theorem runs_kvDel_chunk {key : Bytes} {g : Bool → KvProg α} (hcollected : w.collected = true)
    (hkey : family key = str "objchun")
    (h : ∀ w' q' deleted, w ≤ w' → q.Grows q' → Runs s post (g deleted) w' q') :
    Runs s post (kvDel key >>= g) w q :=
  Turn.of_silent fun w' q' _ _ hw hq hm _ =>
    ⟨hm.erase_chunk (hw.collected hcollected) hkey, h w' q' _ hw hq⟩

/-! ## Loops -/

/-- The chunks are written one by one, and stay written. -/
theorem runs_writeChunks {post : Unit → World → Pending Objects ObjectCall → Prop}
    {id data : Bytes} {j n : ℕ}
    (hplanned : ∀ i, Planned s w.calls (chunkKey id i) (s.chunkValue data i))
    (hkept : ∀ i < n, w.kept.lookup (chunkKey id i) = some (s.chunkValue data i))
    (hpost : ∀ w' q', w ≤ w' → q.Grows q' →
      (∀ i < n + j, w'.kept.lookup (chunkKey id i) = some (s.chunkValue data i)) → post () w' q') :
    Runs s post (s.writeChunks id data (List.range' n j)) w q := by
  induction j generalizing n w q with
  | zero => exact hpost w q le_rfl (.refl q) hkept
  | succ j ih =>
    intro w₁ q₁ m A hw hq hm hA
    obtain ⟨hw', hm'⟩ := hm.insert_chunk ((hplanned n).mono hw.calls)
    refine ⟨_, hw', rfl, .inl ⟨hm', ih (fun i => (hplanned i).mono hw.calls) (fun i hi => ?_)
      fun w₂ q₂ hw₂ hq₂ hall => hpost w₂ q₂ ((hw.trans hw').trans hw₂) (hq.trans hq₂) ?_⟩⟩
    · show (w₁.kept.insert _ _).lookup _ = _
      by_cases hin : i = n
      · rw [hin, Finmap.lookup_insert]
      · rw [Finmap.lookup_insert_of_ne _ fun heq => hin (chunkKey_inj heq).2]
        exact hw.kept _ _ (hkept i (by omega))
    · exact fun i hi => hall i (by omega)

/-- Chunks that were written are read, or one is missing as they are being collected. -/
theorem runs_readChunks {post : Except ℕ Bytes → World → Pending Objects ObjectCall → Prop}
    {id data : Bytes} {is : List ℕ} {g : ℕ → Bytes}
    (hkept : ∀ i ∈ is, w.kept.lookup (chunkKey id i) = some (g i))
    (hok : ∀ w' q', w ≤ w' → q.Grows q' → post (.ok (data ++ (is.map g).flatten)) w' q')
    (hmiss : ∀ w' q' i A, w ≤ w' → q.Grows q' → A ∈ q'.saw → A.collected = true →
      post (.error i) w' q') : Runs s post (readChunks id is data) w q := by
  induction is generalizing data w q with
  | nil =>
    have hend := hok w q le_rfl (.refl q)
    rwa [List.map_nil, List.flatten_nil, List.append_nil] at hend
  | cons i is ih =>
    obtain ⟨hi, his⟩ := List.forall_mem_cons.mp hkept
    refine runs_kvGet fun w₁ q₁ m A hw hq hm hA => ?_
    obtain hlook | ⟨hcollected, hlook⟩ := hm.chunks _ _ (hw.kept _ _ hi)
    · rw [hlook]
      refine ih (fun i' hi' => hw.kept _ _ (his i' hi')) (fun w₂ q₂ hw₂ hq₂ => ?_)
        fun w₂ q₂ i' A' hw₂ hq₂ => hmiss w₂ q₂ i' A' (hw.trans hw₂) (hq.trans hq₂)
      simpa using hok w₂ q₂ (hw.trans hw₂) (hq.trans hq₂)
    · rw [hlook]
      exact hmiss w₁ q₁ i A hw hq hA (hm.collected.trans hcollected)

theorem runs_reachableObjectIds
    {post : List Bytes → World → Pending Objects ObjectCall → Prop} {keys : List Bytes}
    (hpost : ∀ ids w' q', w ≤ w' → q.Grows q' → post ids w' q') :
    Runs s post (reachableObjectIds keys) w q := by
  induction keys generalizing post w q with
  | nil => exact hpost [] w q le_rfl (.refl q)
  | cons key keys ih =>
    refine runs_kvGet fun w₁ q₁ m A hw hq hm hA => ?_
    have hrest : ∀ {post : List Bytes → World → Pending Objects ObjectCall → Prop},
        (∀ ids w' q', w ≤ w' → q.Grows q' → post ids w' q') →
          Runs s post (reachableObjectIds keys) w₁ q₁ := fun hpost =>
      ih fun ids w' q' hw' hq' => hpost ids w' q' (hw.trans hw') (hq.trans hq')
    cases (m.lookup key).bind deserializeMetadata with
    | none => exact hrest hpost
    | some md =>
      refine Runs.bind (hrest fun ids w' q' hw' hq' => ?_)
      split_ifs
      · exact hpost _ w' q' hw' hq'
      · exact hpost _ w' q' hw' hq'

/-- A sweep deletes chunks. -/
theorem runs_deleteUnreachable {post : ℕ → World → Pending Objects ObjectCall → Prop}
    {reachable keys : List Bytes} (hcollected : w.collected = true)
    (hkeys : ∀ key ∈ keys, family key = str "objchun")
    (hpost : ∀ n w' q', w ≤ w' → q.Grows q' → post n w' q') :
    Runs s post (deleteUnreachable reachable keys) w q := by
  induction keys generalizing post w q with
  | nil => exact hpost 0 w q le_rfl (.refl q)
  | cons key keys ih =>
    obtain ⟨hkey, hkeys⟩ := List.forall_mem_cons.mp hkeys
    unfold deleteUnreachable
    cases chunkObjectId key with
    | none => exact ih hcollected hkeys hpost
    | some id =>
      dsimp only
      split_ifs
      · exact ih hcollected hkeys hpost
      · refine runs_kvDel_chunk hcollected hkey fun w₁ q₁ deleted hw hq => ?_
        refine Runs.bind (ih (hw.collected hcollected) hkeys fun n w₂ q₂ hw₂ hq₂ => ?_)
        exact hpost _ w₂ q₂ (hw.trans hw₂) (hq.trans hq₂)

/-- An entry of a listing is an object that was there. -/
def Listed (saw : Set Objects) (b : Bytes) (e : ObjectListEntry) : Prop :=
  ∃ A ∈ saw, ∃ data,
    A.map.objects (b, e.key) = some (data, e.contentType) ∧ e.sizeBytes.toNat = data.length

theorem runs_listEntries {ks : List Bytes} (hb : colon ∉ b) :
    Runs s (fun es _ q' => q.Grows q' ∧ (es.map ObjectListEntry.key).Sublist ks ∧
        ∀ e ∈ es, Listed q'.saw b e)
      (listEntries b (str "bucketidx:" ++ b ++ str ":") (ks.map (bucketIndexKey b))) w q := by
  induction ks generalizing w q with
  | nil => exact ⟨.refl q, List.Sublist.refl _, by simp⟩
  | cons k ks ih =>
    have hkey : bucketIndexKey b k = (str "bucketidx:" ++ b ++ str ":") ++ k := by
      simp [bucketIndexKey, show str ":" = [colon] from rfl]
    have hlen : ¬ (bucketIndexKey b k).length < (str "bucketidx:" ++ b ++ str ":").length := by
      simp [hkey]
    rw [List.map_cons, listEntries, if_neg hlen, hkey, List.drop_left]
    refine runs_kvGet fun w₁ q₁ m A hw hq hm hA => ?_
    have hskip : Runs s (fun es _ q' => q.Grows q' ∧
        (es.map ObjectListEntry.key).Sublist (k :: ks) ∧ ∀ e ∈ es, Listed q'.saw b e)
        (listEntries b (str "bucketidx:" ++ b ++ str ":") (ks.map (bucketIndexKey b))) w₁ q₁ :=
      ih.imp fun es w' q' h => ⟨hq.trans h.1, h.2.1.cons k, h.2.2⟩
    rcases (hm.objects b k hb).metadata with ⟨hnone, -⟩ | ⟨md, hlook, hread, hd, hv⟩
    · rw [hnone]
      exact hskip
    · rw [hlook, Option.bind_some, hread]
      dsimp only
      rcases hv with ⟨hstate, -⟩ | ⟨hstate, data, hv, hsize, -⟩
      · rw [if_pos hstate]
        exact hskip
      · rw [if_neg (by simp [hstate])]
        refine Runs.bind (ih.imp fun es w' q' h => ?_)
        obtain ⟨hq', hsub, hes⟩ := h
        refine ⟨hq.trans hq', hd.key ▸ hsub.cons_cons md.key, ?_⟩
        refine List.forall_mem_cons.mpr ⟨⟨A, hq'.saw hA, data, ?_, hsize⟩, hes⟩
        rw [hd.key]
        exact hv

/-! ## Calls -/

/-- Looking at more does no harm. -/
theorem Objects.Looks.mono {c : ObjectCall} {saw saw' : Set Objects} {r : ObjectReply}
    (h : Objects.Looks c saw r) (hsaw : saw ⊆ saw') : Objects.Looks c saw' r := by
  have hsome : ∀ {Q : Objects → Prop}, (∃ A ∈ saw, Q A) → ∃ A ∈ saw', Q A := by
    rintro Q ⟨A, hA, hQ⟩
    exact ⟨A, hsaw hA, hQ⟩
  unfold Objects.Looks at h ⊢
  split at h
  · exact ⟨hsome h.1, h.2⟩
  · exact ⟨h.1, hsome h.2⟩
  · exact hsome h
  · exact ⟨h.1, hsome h.2⟩
  · exact ⟨hsome h.ok, h.once, fun e he => ⟨(h.entries e he).1, hsome (h.entries e he).2⟩⟩
  · exact h.elim

/-- The call has not acted. -/
structure Waits (c : ObjectCall) (q : Pending Objects ObjectCall) : Prop where
  call : q.call = c
  acted : q.acted = none

theorem Waits.grows {c : ObjectCall} (h : Waits c q) (hq : q.Grows q') : Waits c q' :=
  ⟨hq.call.trans h.call, hq.acted.trans h.acted⟩

theorem Waits.looks {c : ObjectCall} {r : ObjectReply} (h : Waits c q)
    (hr : Objects.Looks c q.saw r) : Objects.spec.Allows q r :=
  .of_looks h.acted (by rwa [h.call])

/-- The call has acted, and flushed the log if it does so. -/
theorem Waits.acts {c : ObjectCall} {r : ObjectReply} (h : Waits c q)
    (hq : ((q.act A).see (Objects.apply q.call A)).Grows q') (hr : Objects.Answers c A r)
    (hkept : Objects.Lasts c → q'.kept = true) : Objects.spec.Allows q' r := by
  have hcall : q'.call = c := hq.call.trans h.call
  refine .of_acted (a := A) (hq.acted.trans rfl) ?_ fun hlasts => hkept ?_
  · rwa [hcall]
  · rwa [hcall] at hlasts

/-- A flush at its end. -/
theorem Waits.acts_keep {c : ObjectCall} {r : ObjectReply} (h : Waits c q)
    (hq : ((q.act A).see (Objects.apply q.call A)).Grows q') (hr : Objects.Answers c A r) :
    Objects.spec.Allows q'.keep r :=
  h.acts (hq.trans q'.grows_keep) hr fun _ => Pending.kept_keep (hq.acted.trans rfl)

theorem runs_createBucket {nowMs : UInt64} (h : Waits (.createBucket b nowMs) q)
    (hA : A ∈ q.saw) :
    Runs s (fun ok _ q => Objects.spec.Allows q (.createBucket ok)) (createBucket b nowMs) w q := by
  unfold createBucket
  split_ifs with hb
  · refine h.looks ⟨⟨A, hA, ?_⟩, ?_⟩
    · rw [ObjectMap.createBucket, dif_pos hb]
    · simp [hb]
  · refine runs_kvGet fun w₁ q₁ m₁ A₁ hw₁ hq₁ hm₁ hA₁ => ?_
    split_ifs with hthere
    · -- the bucket is there
      have hmem : b ∈ A₁.map.buckets := by
        rw [hm₁.buckets b] at hthere
        rw [hm₁.known]
        exact of_decide_eq_true hthere
      refine (h.grows hq₁).looks ⟨⟨A₁, hA₁, ?_⟩, ?_⟩
      · rw [ObjectMap.createBucket_of_mem hmem]
      · simp [hb]
    · intro w₂ q₂ m₂ A₂ hw₂ hq₂ hm₂ hA₂
      have hwaits := (h.grows hq₁).grows hq₂
      obtain ⟨hw', hm'⟩ := hm₂.insert_bucket hb (serializeBucketMeta ⟨b, nowMs⟩)
      refine ⟨_, hw', rfl, .inr ⟨hwaits.acted, ?_, hwaits.acts (.refl _) ?_ fun h => h.elim⟩⟩
      · rw [hwaits.call]
        exact hm'
      · show true = decide (b ≠ [])
        simp [hb]

theorem runs_getObject (hb : colon ∉ b) (h : Waits (.getObject b k) q) :
    Runs s (fun r _ q => Objects.spec.Allows q (.getObject r)) (getObject b k) w q := by
  have hlooks : ∀ {q' : Pending Objects ObjectCall} {A : Objects} {r : GetObjectResult},
      q.Grows q' → A ∈ q'.saw → ObjectMap.GetsObject (A.map.objects (b, k)) r →
        Objects.spec.Allows q' (.getObject r) := fun hq hA hr =>
    (h.grows hq).looks ⟨_, hA, .inl hr⟩
  refine runs_kvGet fun w₁ q₁ m A hw hq hm hA => ?_
  rcases (hm.objects b k hb).metadata with ⟨hnone, hv⟩ | ⟨md, hlook, hread, hd, hv⟩
  · rw [hnone]
    refine hlooks hq hA ⟨?_, ?_⟩
    · rw [hv]
      rfl
    · rw [hv]
      simp
  · rw [hlook]
    dsimp only
    rw [hread]
    dsimp only
    rcases hv with ⟨hstate, hv⟩ | ⟨hstate, data, hv, hsize, hchunks⟩
    · rw [if_pos hstate]
      refine hlooks hq hA ⟨?_, ?_⟩
      · rw [hv]
        rfl
      · rw [hv]
        simp
    · rw [if_neg (by simp [hstate])]
      obtain ⟨g, hkept, hdata⟩ := hchunks.values
      refine Runs.bind (runs_readChunks hkept (fun w₂ q₂ hw₂ hq₂ => ?_)
        fun w₂ q₂ i A' hw₂ hq₂ hA' hcollected => ?_)
      · refine hlooks (hq.trans hq₂) (hq₂.saw hA) ⟨?_, ?_⟩
        · rw [hv]
          rfl
        · rw [hv]
          rintro _ _ ⟨⟩
          exact ⟨hdata, hsize, rfl⟩
      · refine (h.grows (hq.trans hq₂)).looks ⟨A', hA', .inr ⟨hcollected, rfl, i, rfl⟩⟩

theorem runs_putObject {req : PutObjectRequest} {idMs nowMs : UInt64} (hcolon : colon ∉ req.bucket)
    (htab : req.TabFree) (hsize : (req.data.length + s.chunkSize - 1) / s.chunkSize < 2 ^ 32)
    (hmade : .putObject req idMs nowMs ∈ w.calls) (h : Waits (.putObject req idMs nowMs) q)
    (hA : A ∈ q.saw) :
    Runs s (fun r _ q => Objects.spec.Allows q (.putObject r)) (s.putObject req idMs nowMs) w
      q := by
  have hrejects : ∀ {q' : Pending Objects ObjectCall} {A : Objects} (e : Bytes),
      q.Grows q' → A ∈ q'.saw → ¬ A.map.Accepts req →
        Objects.spec.Allows q' (.putObject { error := e }) :=
    fun e hq hA hnot => (h.grows hq).looks ⟨rfl, _, hA, hnot⟩
  unfold putObject
  split_ifs with hb hk
  · exact hrejects _ (.refl q) hA fun haccepts => A.map.nil_notMem (hb ▸ haccepts.1)
  · exact hrejects _ (.refl q) hA fun haccepts => haccepts.2 hk
  rw [bucketExists, if_neg hb, KvProg.bind_assoc]
  refine runs_kvGet fun w₁ q₁ m₁ A₁ hw₁ hq₁ hm₁ hA₁ => ?_
  have hbuckets := hm₁.buckets req.bucket
  show Runs s _ (if (m₁.lookup (bucketMetaKey req.bucket)).isSome then _ else _) w₁ q₁
  split_ifs with hthere
  · have hmem : req.bucket ∈ w₁.buckets := of_decide_eq_true (hbuckets.symm.trans hthere)
    refine runs_kvGet fun w₂ q₂ _ _ hw₂ hq₂ _ _ => ?_
    have hplanned : ∀ i, Planned s w₂.calls
        (chunkKey (makeObjectId req.bucket req.key idMs) i) (s.chunkValue req.data i) :=
      fun i => ⟨req, idMs, nowMs, i, hw₂.calls _ (hw₁.calls _ hmade), rfl, rfl⟩
    refine Runs.bind ?_
    rw [List.range_eq_range']
    refine runs_writeChunks hplanned (by simp) fun w₃ q₃ hw₃ hq₃ hall => ?_
    intro w₄ q₄ m₄ A₄ hw₄ hq₄ hm₄ hA₄
    have hwaits := ((h.grows hq₁).grows hq₂).grows (hq₃.trans hq₄)
    have haccepts : A₄.map.Accepts req := by
      refine ⟨?_, hk⟩
      rw [hm₄.known]
      exact hw₄.buckets (hw₃.buckets (hw₂.buckets hmem))
    refine ⟨w₄, le_rfl, rfl, .inr ⟨hwaits.acted, ?_, ?_⟩⟩
    · -- the metadata commits the object
      have hput : (A₄.map.put req).buckets = A₄.map.buckets ∧ (A₄.map.put req).objects =
          Function.update A₄.map.objects (req.bucket, req.key)
            (some (req.data, req.contentType)) := by
        rw [ObjectMap.put, dif_pos haccepts]
        exact ⟨rfl, rfl⟩
      rw [hwaits.call]
      refine hm₄.insert_meta hcolon rfl hput.1 (fun b' k' hne => ?_) ?_
      · show (A₄.map.put req).objects _ = _
        rw [hput.2, Function.update_of_ne hne]
      · show Retains _ _ _ _ ((A₄.map.put req).objects _)
        rw [hput.2, Function.update_self]
        refine .inr ⟨s.putMetadata req idMs nowMs, Finmap.lookup_insert _, ⟨?_, rfl, idMs,
          UInt64.toNat_lt _, rfl⟩, .inr ⟨rfl, req.data, rfl, size_toNat hsize, ?_⟩⟩
        · exact tabFree_putMetadata htab s idMs nowMs
        · refine hasChunks_of_chunkValue _ _ hsize fun i hi => hw₄.kept _ _ (hall i ?_)
          rwa [Nat.zero_add]
    · refine runs_kvPut_index (family_bucketIndexKey _ _) fun w₅ q₅ _ hq₅ => ?_
      refine runs_kvFlushWal fun w₆ q₆ _ hq₆ => ?_
      exact hwaits.acts_keep (hq₅.trans hq₆) ⟨rfl, haccepts⟩
  · refine hrejects _ hq₁ hA₁ fun haccepts => hthere ?_
    rw [hbuckets, ← hm₁.known]
    exact decide_eq_true haccepts.1

theorem runs_deleteObject {nowMs : UInt64} (hb : colon ∉ b)
    (h : Waits (.deleteObject b k nowMs) q) :
    Runs s (fun r _ q => Objects.spec.Allows q (.deleteObject r)) (deleteObject b k nowMs) w q := by
  refine runs_kvGet fun w₁ q₁ m₁ A₁ hw₁ hq₁ hm₁ hA₁ => ?_
  rcases (hm₁.objects b k hb).metadata with ⟨hnone, hv⟩ | ⟨md, hlook, hread, hd, -⟩
  · rw [hnone]
    exact (h.grows hq₁).looks ⟨rfl, A₁, hA₁, hv⟩
  · rw [hlook]
    dsimp only
    rw [hread]
    intro w₂ q₂ m₂ A₂ hw₂ hq₂ hm₂ hA₂
    have hwaits := h.grows (hq₁.trans hq₂)
    refine ⟨w₂, le_rfl, rfl, .inr ⟨hwaits.acted, ?_, ?_⟩⟩
    · -- the metadata may be of an object that was put over meanwhile: that one is deleted too
      rw [hwaits.call]
      refine hm₂.insert_meta hb rfl rfl (fun b' k' hne => Function.update_of_ne hne _ _) ?_
      refine .inr ⟨_, Finmap.lookup_insert _, ⟨hd.tabFree.deleted nowMs, hd.key, hd.objectId⟩,
        .inl ⟨rfl, Function.update_self _ _ _⟩⟩
    · refine runs_kvDel_index (family_bucketIndexKey _ _) fun w₃ q₃ deleted _ hq₃ => ?_
      refine runs_kvFlushWal fun w₄ q₄ _ hq₄ => ?_
      exact hwaits.acts_keep (hq₃.trans hq₄) rfl

theorem runs_listObjects {pfx : Bytes} {order₀ : List Entry} (hb : colon ∉ b)
    (h : Waits (.listObjects b pfx order₀) q) (hA : A ∈ q.saw) :
    Runs s (fun r _ q => Objects.spec.Allows q (.listObjects r)) (listObjects b pfx order₀) w
      q := by
  have hnothing : ∀ {q' : Pending Objects ObjectCall} {A : Objects} (e : Bytes),
      q.Grows q' → A ∈ q'.saw → b ∉ A.map.buckets →
        Objects.spec.Allows q' (.listObjects { error := e }) := by
    intro q' A e hq hA hnot
    refine (h.grows hq).looks ⟨⟨A, hA, ?_⟩, List.nodup_nil, by simp⟩
    simp [hnot]
  unfold listObjects
  split_ifs with hnil
  · exact hnothing _ (.refl q) hA (hnil ▸ A.map.nil_notMem)
  rw [bucketExists, if_neg hnil, KvProg.bind_assoc]
  refine runs_kvGet fun w₁ q₁ m₁ A₁ hw₁ hq₁ hm₁ hA₁ => ?_
  have hbuckets := hm₁.buckets b
  rw [← hm₁.known] at hbuckets
  show Runs s _ (if (m₁.lookup (bucketMetaKey b)).isSome then _ else _) w₁ q₁
  split_ifs with hthere
  · refine runs_kvList fun w₂ q₂ m₂ A₂ order hw₂ hq₂ hm₂ hA₂ horder => ?_
    obtain ⟨ks, hks, hnodup, hmem⟩ := exists_indexKeys horder b pfx
    rw [hks]
    refine Runs.bind ((runs_listEntries hb).imp fun es w₃ q₃ hes => ?_)
    obtain ⟨hq₃, hsub, hlisted⟩ := hes
    refine (h.grows ((hq₁.trans hq₂).trans hq₃)).looks ⟨⟨A₁, hq₃.saw (hq₂.saw hA₁), ?_⟩,
      hnodup.sublist hsub, fun e he => ⟨?_, hlisted e he⟩⟩
    · exact (hbuckets.symm.trans hthere).symm
    · exact ((hmem e.key).mp (hsub.subset (List.mem_map_of_mem he))).1
  · refine hnothing _ hq₁ hA₁ fun hmem => hthere ?_
    rw [hbuckets]
    exact decide_eq_true hmem

theorem runs_garbageCollectChunks {order₀ : List Entry}
    (h : Waits (.garbageCollectChunks order₀) q) :
    Runs s (fun n _ q => Objects.spec.Allows q (.garbageCollectChunks n))
      (garbageCollectChunks order₀) w q := by
  intro w₁ q₁ m₁ A₁ hw₁ hq₁ hm₁ hA₁
  have hwaits := h.grows hq₁
  obtain ⟨hw', hm'⟩ := hm₁.collect
  refine ⟨_, hw', rfl, .inr ⟨hwaits.acted, ?_, fun order horder => ?_⟩⟩
  · rw [hwaits.call]
    exact hm'
  · show Runs s _ (reachableObjectIds _ >>= _) _ _
    refine Runs.bind (runs_reachableObjectIds fun ids w₂ q₂ hw₂ hq₂ => ?_)
    refine runs_kvList fun w₃ q₃ m₃ A₃ order' hw₃ hq₃ hm₃ hA₃ horder' => ?_
    refine Runs.bind (runs_deleteUnreachable (hw₃.collected (hw₂.collected rfl)) ?_
      fun n w₄ q₄ hw₄ hq₄ => ?_)
    · exact fun key hkey => family_of_objchunk ((mem_listKeysWithPrefix horder').mp hkey).1
    · refine runs_kvFlushWal fun w₅ q₅ _ hq₅ => ?_
      exact hwaits.acts_keep (((hq₂.trans hq₃).trans hq₄).trans hq₅) trivial

/-- Every call. -/
theorem runs_prog {c : ObjectCall} (hnamed : c.Named) (hchunked : c.Chunked s) (hmade : c ∈ w.calls)
    (h : Waits c q) (hA : A ∈ q.saw) :
      Runs s (fun r _ q => Objects.spec.Allows q r) (c.prog s) w q := by
  cases c with
  | createBucket b now => exact Runs.bind (runs_createBucket h hA)
  | putObject req idMs now => exact Runs.bind (runs_putObject hnamed.1 hnamed.2 hchunked hmade h hA)
  | getObject b k => exact Runs.bind (runs_getObject hnamed h)
  | deleteObject b k now => exact Runs.bind (runs_deleteObject hnamed h)
  | listObjects b pfx order => exact Runs.bind (runs_listObjects hnamed h hA)
  | garbageCollectChunks order => exact Runs.bind (runs_garbageCollectChunks h)

/-! ## All of them at once -/

/-- What a store that was opened as `M` holds when these calls have been made. Whatever the log
has of its calls, if every flush is among them, is what one of the states in `F` needs. -/
structure Keeping (s : ObjectStore) (M : Machine) (made : List ObjectCall) (σ : InUse)
    (w : World) (A : Objects) (F : Set Objects) : Prop where
  machine : σ.machine = M.run σ.ops
  calls : w.calls = made
  holding : Holding s w σ.machine.store.map A
  state : A ∈ F
  fallback : ∀ n ≤ σ.ops.length, .flushWal ∉ σ.ops.drop n →
    ∃ A' ∈ F, ∃ w', Holding s w' (applyOps (σ.ops.take n) M.store.map) A'

namespace Keeping

variable {M : Machine} {made : List ObjectCall} {σ σ' : InUse} {A' : Objects}
  {F F' : Set Objects}

theorem working (h : Keeping s M made σ w A F) (hM : M.Working) : σ.machine.Working := by
  rw [h.machine]
  exact (hM.run σ.ops).1

/-- Nothing is written, but a call may act. -/
theorem stay (h : Keeping s M made σ w A F) (hcalls : w'.calls = w.calls)
    (hmap : Holding s w' σ.machine.store.map A') (hF : F ⊆ F') (hA' : A' ∈ F') :
    Keeping s M made σ w' A' F' := by
  refine ⟨h.machine, hcalls.trans h.calls, hmap, hA', fun n hn hflush => ?_⟩
  obtain ⟨A₁, hA₁, hw₁⟩ := h.fallback n hn hflush
  exact ⟨A₁, hF hA₁, hw₁⟩

/-- One call on the key-value store. -/
theorem append (h : Keeping s M made σ w A F) (hM : M.Working) {op : Op}
    (hcalls : w'.calls = w.calls)
    (hmap : Holding s w' (applyOps [op] σ.machine.store.map) A')
    (hF : ∀ n ≤ σ.ops.length, .flushWal ∉ (σ.ops ++ [op]).drop n → F ⊆ F') (hA' : A' ∈ F') :
    Keeping s M made ⟨σ.machine.step op, σ.ops ++ [op]⟩ w' A' F' := by
  have hafter := ((h.working hM).step op).2
  have hrun : σ.machine.step op = M.run (σ.ops ++ [op]) := by
    rw [Machine.run_append, h.machine]
    rfl
  refine ⟨hrun, hcalls.trans h.calls, hafter ▸ hmap, hA', fun n hn hflush => ?_⟩
  rw [List.length_append, List.length_singleton] at hn
  rcases Nat.lt_or_ge σ.ops.length n with hlt | hle
  · -- the call is in the log
    have hall : (σ.ops ++ [op]).take n = σ.ops ++ [op] :=
      List.take_of_length_le (by simpa using hlt)
    have hbefore : applyOps σ.ops M.store.map = σ.machine.store.map := by
      rw [h.machine, (hM.run σ.ops).2]
    refine ⟨A', hA', w', ?_⟩
    rw [hall, applyOps_append, hbefore]
    exact hmap
  · have hsub := hF n hle hflush
    rw [List.drop_append_of_le_length hle, List.mem_append, not_or] at hflush
    rw [List.take_append_of_le_length hle]
    obtain ⟨A₁, hA₁, hw₁⟩ := h.fallback n hle hflush.1
    exact ⟨A₁, hsub hA₁, hw₁⟩

/-- A flush of the log. -/
theorem flush (h : Keeping s M made σ w A F) (hM : M.Working) :
    Keeping s M made ⟨σ.machine.step .flushWal, σ.ops ++ [.flushWal]⟩ w A {A} := by
  refine h.append hM rfl h.holding (fun n hn hflush => ?_) (Set.mem_singleton A)
  rw [List.drop_append_of_le_length hn] at hflush
  exact absurd (List.mem_append_right _ (List.mem_singleton_self _)) hflush

end Keeping

variable {M : Machine} {made : List ObjectCall} {σ σ' : InUse} {F : Set Objects}

theorem Turn.proceeds (h : Turn s w q f Next) (hk : Keeping s M made σ w A F) (hA : A ∈ q.saw)
    (hσ' : ∀ w' A' F', w'.calls = w.calls → Holding s w' (f σ.machine.store.map) A' →
      F ⊆ F' → A' ∈ F' → Keeping s M made σ' w' A' F') :
    Proceeds Objects.spec (Keeping s M made σ') w q A F (Next σ.machine.store.map) := by
  obtain ⟨w', hw, hcalls, hgoes⟩ := h w q _ A le_rfl (.refl q) hk.holding hA
  refine ⟨w', hw, ?_⟩
  rcases hgoes with ⟨hm, hnext⟩ | ⟨hnot, hm, hnext⟩
  · exact .inl ⟨hσ' _ _ _ hcalls hm subset_rfl hk.state, hnext⟩
  · have hmem : Objects.apply q.call A ∈ insert (Objects.apply q.call A) F := Set.mem_insert _ _
    exact .inr (.inl ⟨hnot, hσ' _ _ _ hcalls hm (Set.subset_insert _ _) hmem, hnext⟩)

theorem Runs.step {p' : KvProg α} (h : Runs s post p w q) (hM : M.Working)
    (hk : Keeping s M made σ w A F) (hA : A ∈ q.saw)
    (hstep : KvProg.Step σ.machine p σ'.machine p') (hops : σ'.ops = σ.ops ++ p.nextOp.toList) :
    Proceeds Objects.spec (Keeping s M made σ') w q A F (Runs s post p') := by
  obtain ⟨m', ops'⟩ := σ'
  have hwork := hk.working hM
  dsimp only at hstep hops
  cases hstep with
  | get key next =>
    obtain rfl : ops' = σ.ops := by simpa [nextOp] using hops
    exact Turn.proceeds h hk hA fun w' A' F' hcalls => hk.stay hcalls
  | listKeysWithPrefix order₀ order pfx next horder =>
    obtain rfl : ops' = σ.ops := by simpa [nextOp] using hops
    exact (Turn.proceeds h hk hA fun w' A' F' hcalls => hk.stay hcalls).imp
      fun _ _ hnext => hnext order horder
  | put key v next =>
    obtain rfl : ops' = σ.ops ++ [.put key v] := hops
    exact Turn.proceeds h hk hA fun w' A' F' hcalls hm hF =>
      hk.append hM hcalls hm fun _ _ _ => hF
  | del key next =>
    obtain rfl : ops' = σ.ops ++ [.del key] := hops
    rw [hwork.del_value]
    exact Turn.proceeds h hk hA fun w' A' F' hcalls hm hF =>
      hk.append hM hcalls hm fun _ _ _ => hF
  | flushWal next =>
    obtain rfl : ops' = σ.ops ++ [.flushWal] := hops
    rw [hwork.flushWal_value]
    exact ⟨w, le_rfl, .inr (.inr ⟨hk.flush hM, h w q le_rfl (.refl q)⟩)⟩

/-- A store without buckets and metadata. -/
theorem keeping_start (hbucket : ∀ b, M.store.map.lookup (bucketMetaKey b) = none)
    (hmeta : ∀ b k, M.store.map.lookup (objectMetaKey b k) = none) :
    Keeping s M [] ⟨M, []⟩ ⟨[], ∅, ∅, false⟩ ⟨.empty, false⟩ {⟨.empty, false⟩} := by
  have hholding : Holding s ⟨[], ∅, ∅, false⟩ M.store.map ⟨.empty, false⟩ := by
    refine ⟨by simp, rfl, rfl, fun b => ?_, fun b k _ => .inl ⟨hmeta b k, rfl⟩, ?_, ?_⟩
    · rw [hbucket b]
      rfl
    · intro key v hlook
      simp [Finmap.lookup_empty] at hlook
    · intro key v hlook
      simp [Finmap.lookup_empty] at hlook
  refine ⟨rfl, rfl, hholding, Set.mem_singleton _, fun n _ _ => ?_⟩
  exact ⟨_, Set.mem_singleton _, _, by simpa using hholding⟩

/-- Every call, proved for itself. -/
def clients (s : ObjectStore) (hM : M.Working)
    (hbucket : ∀ b, M.store.map.lookup (bucketMetaKey b) = none)
    (hmeta : ∀ b k, M.store.map.lookup (objectMetaKey b k) = none) :
    Modular (clientCode s M) Objects.spec World where
  Inv := Keeping s M
  Safe p w q := Runs s (fun r _ q => Objects.spec.Allows q r) p w q
  start σ hσ := by
    obtain rfl := hσ
    exact ⟨_, keeping_start hbucket hmeta⟩
  call made σ w A F c hk hc := by
    obtain ⟨hnamed, hchunked, hnew⟩ := hc
    obtain ⟨hw, hmake⟩ := hk.holding.make (hk.calls ▸ hnew)
    refine ⟨_, hw, ⟨hk.machine, congrArg (c :: ·) hk.calls, hmake, hk.state, hk.fallback⟩, ?_⟩
    exact runs_prog hnamed hchunked List.mem_cons_self ⟨rfl, rfl⟩ (Set.mem_singleton A)
  mono p w w' q q' h hw hq :=
    h.mono hw hq fun r hr => hr.grows (fun _ _ _ _ hlooks hsaw => hlooks.mono hsaw) hq
  step made σ w A F p q σ' p' hk hA h hstep := Runs.step h hM hk hA hstep.1 hstep.2
  reply p w q r h hr := by
    obtain rfl := hr
    exact h

section

variable {ι : Type} [DecidableEq ι] {t : Threads ι InUse ObjectCall (KvProg ObjectReply)}
  {shown : List (CallEvent ι ObjectCall ObjectReply)}

end

end KvEngine
