import KvEngine.Object.Listing
import KvEngine.Object.Names

/-!
# Collections and reads

`GarbageCollectChunks` keeps the chunks of committed metadata, and `GetObject` reads those of
all metadata that is not deleted. Between the two are objects whose metadata is in another
state: no call writes such metadata, and a text without tabs reads back in the state it was
written in.

Results:
* `ReachableBy.decided`: metadata is committed or deleted in every state, as long as every
  open brings back only what was put before it.
* `lookup_garbageCollectChunks`: a collection leaves metadata and the chunks of committed
  metadata alone.
* `getObject_garbageCollectChunks`: what `GetObject` says is the same before and after, in the
  same runs.
* `not_getObject_garbageCollectChunks`: a put behind a torn record brings back metadata that no
  call wrote, and a collection takes away the chunk that it counts.
-/

namespace KvEngine

open ObjectStore KvProg

variable {s : ObjectStore} {past : List Op} {M : Machine}

/-! ## The state of metadata -/

/-- Metadata says that its object is committed or deleted. -/
def Decided (key raw : Bytes) : Prop :=
  family key = str "objmeta" → ∀ md, deserializeMetadata raw = some md →
    md.state = .committed ∨ md.state = .deleted

theorem offMeta_decided : OffMeta Decided := fun _ _ hkey hmeta => absurd hmeta hkey

/-- Metadata without tabs reads back in its state. -/
theorem Decided.serializeMetadata {md : ObjectMetadata} (htab : md.TabFree)
    (hstate : md.state = .committed ∨ md.state = .deleted) (key : Bytes) :
    Decided key (serializeMetadata md) := by
  intro _ md' hmd'
  have hnamed : ∀ c, md.state ≠ .unnamed c := by
    rintro c hc
    rw [hc] at hstate
    simp at hstate
  rw [deserializeMetadata_serializeMetadata htab hnamed, Option.some.injEq] at hmd'
  subst hmd'
  exact hstate

/-- The names and the content type that a put is given have no tabs. -/
def ObjectCall.TabFree : ObjectCall → Prop
  | .putObject req _ _ => req.TabFree
  | _ => True

/-- A put writes committed metadata, and a delete writes what it read as deleted. -/
theorem ObjectCall.TabFree.decided {c : ObjectCall} (h : c.TabFree) : c.Metadata s Decided := by
  cases c with
  | putObject req idMs now =>
    exact .serializeMetadata (tabFree_putMetadata h s idMs now) (Or.inl rfl) _
  | deleteObject b k now =>
    intro raw md _ hmd
    have htab := (tabFree_of_deserializeMetadata hmd).deleted now
    exact .serializeMetadata htab (Or.inr rfl) _
  | createBucket b now => trivial
  | getObject b k => trivial
  | listObjects b pfx order => trivial
  | garbageCollectChunks order => trivial

/-- In every state. -/
theorem ReachableBy.decided (h : ReachableBy s ObjectCall.TabFree OnlyPut past M) :
    Entries Decided M.store.map :=
  (h.entries fun _ hc => hc.decided.entriesIn offMeta_decided).1

/-! ## What a collection leaves alone -/

/-- Committed metadata of this object id is in the map. -/
def Live (m : Map) (id : Bytes) : Prop :=
  ∃ b k raw md, m.lookup (objectMetaKey b k) = some raw ∧ deserializeMetadata raw = some md ∧
    md.state = .committed ∧ md.objectId = id

/-- In the key of a chunk of the empty id no id is found. -/
theorem chunkObjectId_chunkKey_nil (i : ℕ) : chunkObjectId (chunkKey [] i) = none := by
  have hfind : rfindColon (chunkKey [] i) = some (str "objchunk:").length := by
    rw [chunkKey, List.nil_append, rfindColon_append (colon_not_mem_decimal i)]
  rw [chunkObjectId, hfind]
  dsimp only
  rw [if_pos le_rfl]

/-- The object ids a collection finds in committed metadata. -/
def reachableIds (order : List Entry) (m : Map) : List Bytes :=
  (reachableObjectIds (KVStore.listKeysWithPrefix order (str "objmeta:"))).value m

/-- What a collection does behind its first scan. -/
theorem exec_garbageCollectChunks (order : List Entry) (M : Machine) :
    (garbageCollectChunks order).exec M =
      (deleteUnreachable (reachableIds order M.store.map)
        (KVStore.listKeysWithPrefix order (str "objchunk:")) >>= fun n => kvFlushWal >>= fun _ =>
          Pure.pure n).exec M := by
  rw [garbageCollectChunks, exec_bind]
  show (reachableObjectIds (KVStore.listKeysWithPrefix order (str "objmeta:")) >>= _).exec M = _
  rw [exec_bind, exec_of_ops_nil (ops_reachableObjectIds _), exec_bind]
  rfl

theorem mem_reachableIds {order : List Entry} (horder : Enumerates order M.store.map) {id : Bytes}
    (h : Live M.store.map id) : id ∈ reachableIds order M.store.map := by
  obtain ⟨b, k, raw, md, hlook, hmd, hstate, rfl⟩ := h
  refine @mem_reachableObjectIds _ _ (objectMetaKey b k) _ ?_ ?_ hstate
  · rw [mem_listKeysWithPrefix horder, hlook]
    exact ⟨List.prefix_append _ _, rfl⟩
  · rw [hlook, Option.bind_some, hmd]

/-- Whatever the system calls return. -/
theorem lookup_garbageCollectChunks {order : List Entry} (horder : Enumerates order M.store.map)
    {key : Bytes} (hkey : ∀ id, str "objchunk:" <+: key → chunkObjectId key = some id →
      Live M.store.map id) :
    ((garbageCollectChunks order).exec M).2.store.map.lookup key = M.store.map.lookup key := by
  rw [exec_garbageCollectChunks]
  have hkeeps : (deleteUnreachable (reachableIds order M.store.map)
      (KVStore.listKeysWithPrefix order (str "objchunk:")) >>= fun n => kvFlushWal >>= fun _ =>
        Pure.pure n).Keeps (fun _ _ => True) fun key' => key' ≠ key := by
    refine .bind (keeps_deleteUnreachable ?_) fun _ => .bind keeps_kvFlushWal fun _ =>
      keeps_pure _
    rintro key' hkey' id hid hkeyId rfl
    have hpre := ((mem_listKeysWithPrefix horder).mp hkey').1
    exact hid (mem_reachableIds horder (hkey id hpre hkeyId))
  exact (hkeeps.exec fun _ _ _ => trivial).2 key fun hne => hne rfl

theorem not_objchunk_objectMetaKey (b k : Bytes) : ¬ str "objchunk:" <+: objectMetaKey b k := by
  intro hpre
  have hfamily := family_of_objchunk hpre
  rw [family_objectMetaKey] at hfamily
  exact absurd hfamily (by decide)

/-- Metadata stays. -/
theorem lookup_meta_garbageCollectChunks {order : List Entry}
    (horder : Enumerates order M.store.map) (b k : Bytes) :
    ((garbageCollectChunks order).exec M).2.store.map.lookup (objectMetaKey b k) =
      M.store.map.lookup (objectMetaKey b k) :=
  lookup_garbageCollectChunks horder fun _ hpre _ => absurd hpre (not_objchunk_objectMetaKey b k)

/-- And so do the chunks of an id that committed metadata has. -/
theorem lookup_chunk_garbageCollectChunks {order : List Entry}
    (horder : Enumerates order M.store.map) {id : Bytes} (hlive : Live M.store.map id) (i : ℕ) :
    ((garbageCollectChunks order).exec M).2.store.map.lookup (chunkKey id i) =
      M.store.map.lookup (chunkKey id i) := by
  refine lookup_garbageCollectChunks horder fun id' _ hid' => ?_
  by_cases hnil : id = []
  · rw [hnil, chunkObjectId_chunkKey_nil] at hid'
    simp at hid'
  · rw [chunkObjectId_chunkKey hnil] at hid'
    exact Option.some.inj hid' ▸ hlive

/-- **A collection never changes what can be read.** In every state that calls without tabs
in names and content types lead to, at any clock readings and with any results of system
calls, over any number of lives whose opens bring back only entries that were put before,
`GetObject` says the same of every bucket and key before and after a collection. -/
theorem getObject_garbageCollectChunks (h : ReachableBy s ObjectCall.TabFree OnlyPut past M)
    {order : List Entry} (horder : Enumerates order M.store.map) (os : Schedule) (b k : Bytes) :
    ((getObject b k).exec ((garbageCollectChunks order).exec { M with os := os }).2).1 =
      ((getObject b k).exec M).1 := by
  have horder' : Enumerates order ({ M with os := os } : Machine).store.map := horder
  rw [exec_of_ops_nil ops_getObject, exec_of_ops_nil ops_getObject]
  refine value_getObject_congr (lookup_meta_garbageCollectChunks horder' b k)
    fun raw md hraw hmd hdeleted i _ => lookup_chunk_garbageCollectChunks horder' ?_ i
  have hstate : md.state = .committed :=
    (h.decided _ raw hraw (family_objectMetaKey b k) md hmd).resolve_right hdeleted
  exact ⟨b, k, raw, md, hraw, hmd, hstate, rfl⟩

/-- A put that is deleted and made again, at clock readings that go back. -/
def putTwice : List ObjectCall :=
  [.createBucket (str "b") 5,
    .putObject { bucket := str "b", key := str "k:1", data := str "old" } 7 7,
    .deleteObject (str "b") (str "k:1") 7,
    .putObject { bucket := str "b", key := str "k:1", data := str "new" } 6 6]

theorem tabFree_putTwice : ∀ c ∈ putTwice, c.TabFree := by
  have htab : ∀ data, PutObjectRequest.TabFree
      { bucket := str "b", key := str "k:1", data := data } :=
    fun _ => ⟨(by decide : tab ∉ str "b"), (by decide : tab ∉ str "k:1"),
      (by decide : tab ∉ str "application/octet-stream")⟩
  exact List.forall_mem_cons.mpr ⟨trivial, List.forall_mem_cons.mpr ⟨htab _,
    List.forall_mem_cons.mpr ⟨trivial, List.forall_mem_singleton.mpr (htab _)⟩⟩⟩

/-- The theorem at a collection after those calls. -/
theorem getObject_garbageCollectChunks_putTwice :
    let M := (smallStore.runCalls putTwice (Machine.boot (fun _ => none) "/tmp/kv.wal")).2
    ∃ order, Enumerates order M.store.map ∧
      ((getObject (str "b") (str "k:1")).exec ((garbageCollectChunks order).exec M).2).1 =
        ((getObject (str "b") (str "k:1")).exec M).1 := by
  intro M
  obtain ⟨past, hpast⟩ := (ReachableBy.boot smallStore _ _).runCalls tabFree_putTwice
  obtain ⟨order, horder⟩ := exists_enumerates M.store.map
  exact ⟨order, horder, getObject_garbageCollectChunks hpast horder M.os _ _⟩

/-! ## Behind a torn record -/

/-- Chunks of up to 128 bytes. -/
def wideStore : ObjectStore := ⟨128, fun _ => 0, by decide⟩

/-- The record of the bucket. -/
def bucketRecord : WalRecord :=
  ⟨.put, 1, bucketMetaKey (str "b"), serializeBucketMeta ⟨str "b", 1⟩⟩

/-- An object of as many bytes as a header has. -/
def tornPut : PutObjectRequest :=
  { bucket := str "b", key := str "q", data := List.replicate headerSize 0,
    contentType := str "t" }

/-- The header of its chunk's record. -/
def tornHeaderBytes : Bytes :=
  (WalRecord.mk .put 2 (chunkKey (makeObjectId (str "b") (str "q") 2) 0) tornPut.data).header.bytes

/-- Records of metadata that says of another object that it is pending, and of its chunk. -/
def forgedRecords : List WalRecord :=
  let req : PutObjectRequest :=
    { bucket := str "b", key := str "k", data := [1], contentType := str "t" }
  [⟨.put, 3, objectMetaKey (str "b") (str "k"),
      serializeMetadata { wideStore.putMetadata req 1 1 with state := .pending }⟩,
    ⟨.put, 4, chunkKey (makeObjectId (str "b") (str "k") 1) 0, [1]⟩]

/-- An object that begins with four bytes and has these records behind them. -/
def forgingPut : PutObjectRequest :=
  { bucket := str "b", key := str "q", data := [234, 199, 204, 204] ++ encodeAll forgedRecords,
    contentType := str "t" }

/-- Header and key of its chunk's record, read as key and value of the torn record, for which
the four bytes are the checksum. -/
def swallowed : WalRecord :=
  let key := chunkKey (makeObjectId (str "b") (str "q") 3) 0
  let bytes := (WalRecord.mk .put 2 key forgingPut.data).header.bytes ++ key
  ⟨.put, 2, bytes.take key.length, bytes.drop key.length⟩

/-- A store with a bucket. -/
def bucketMade : Machine :=
  (wideStore.runCalls [.createBucket (str "b") 1] (Machine.boot (fun _ => none) "/tmp/kv.wal")).2

/-- The first put crashes in its flush, behind the header of its chunk's record. -/
def behindHeader : Machine :=
  Machine.boot (wideStore.filesLeft (.putObject tornPut 2 2) { bucketMade with os := [] } 3
    (bucketRecord.encode.length + headerSize)) bucketMade.store.wal.path

/-- The second crashes in its flush, before the checksum of its chunk's record. -/
def forgedStore : Machine :=
  Machine.boot (wideStore.filesLeft (.putObject forgingPut 3 3) { behindHeader with os := [] } 3
    (swallowed.encode.drop headerSize ++ encodeAll forgedRecords).length)
    behindHeader.store.wal.path

/-- Files of which the log is the only one. -/
def onlyLog (file : Bytes) : Disk := Function.update (fun _ => none) "/tmp/kv.wal" (some file)

theorem disk_boot_onlyLog (file : Bytes) :
    (Machine.boot (onlyLog file) "/tmp/kv.wal").disk = onlyLog file := by
  rw [Machine.boot_eq]
  simp [onlyLog]

/-- A crash in the flush of a put that wrote nothing before it. -/
theorem filesLeft_onlyLog {M : Machine} {c : ObjectCall} {file : Bytes} {ops : List Op} {n : ℕ}
    (hcalls : (c.prog s).calls M = ops ++ [.flushWal]) (hdisk : M.disk = onlyLog file)
    (heffects : ∀ k < ops.length,
      ((M.run (ops.take k)).outcome (ops.getD k .flushWal)).effects = [])
    (hpath : (M.run ops).store.wal.path = "/tmp/kv.wal")
    (hfd : (M.run ops).store.wal.fd = some file.length) (hos : (M.run ops).os = []) (hpos : 0 < n)
    (hn : n ≤ (M.run ops).store.wal.buffer.flatten.length) :
    s.filesLeft c M ops.length n =
      onlyLog (file ++ (M.run ops).store.wal.buffer.flatten.take n) := by
  have hdisk' : (M.run ops).disk = onlyLog file := (Machine.disk_run heffects).trans hdisk
  have hfile : (M.run ops).disk "/tmp/kv.wal" = some file := by
    rw [hdisk', onlyLog, Function.update_self]
  rw [ObjectStore.filesLeft, Machine.crashIn, hcalls, List.getElem?_concat_length,
    List.take_left]
  show (M.run ops).crash .flushWal n = _
  rw [Machine.crash_flushWal hpath hfile hfd hos hpos hn, hdisk']
  simp [onlyLog]

theorem behindHeader_eq : behindHeader =
    Machine.boot (onlyLog (bucketRecord.encode ++ tornHeaderBytes)) "/tmp/kv.wal" := by
  set ops := (((ObjectCall.putObject tornPut 2 2).prog wideStore).calls bucketMade).take 3 with hops
  have hlength : ops.length = 3 := by decide +kernel
  have hbytes : ((Machine.run { bucketMade with os := [] } ops).store.wal.buffer.flatten.take
      (bucketRecord.encode.length + headerSize)) = bucketRecord.encode ++ tornHeaderBytes := by
    decide +kernel
  have hfiles := @filesLeft_onlyLog wideStore { bucketMade with os := [] }
    (.putObject tornPut 2 2) [] ops (bucketRecord.encode.length + headerSize)
    (by decide +kernel) rfl (by decide +kernel) (by decide +kernel) (by decide +kernel)
    (by decide +kernel) (by decide +kernel) (by decide +kernel)
  rw [hbytes, hlength] at hfiles
  rw [behindHeader, hfiles, List.nil_append]
  rfl

/-- The log that the two crashes leave is made of whole records. -/
theorem forgedStore_eq : forgedStore =
    Machine.boot (onlyLog (encodeAll (bucketRecord :: swallowed :: forgedRecords)))
      "/tmp/kv.wal" := by
  have hdisk : behindHeader.disk = onlyLog (bucketRecord.encode ++ tornHeaderBytes) := by
    rw [behindHeader_eq, disk_boot_onlyLog]
  set torn : Machine :=
    Machine.boot (onlyLog (bucketRecord.encode ++ tornHeaderBytes)) "/tmp/kv.wal" with htorn
  set ops := (((ObjectCall.putObject forgingPut 3 3).prog wideStore).calls torn).take 3 with hops
  have hlength : ops.length = 3 := by decide +kernel
  have hbytes : bucketRecord.encode ++ tornHeaderBytes ++
      (Machine.run { torn with os := [] } ops).store.wal.buffer.flatten.take
        (swallowed.encode.drop headerSize ++ encodeAll forgedRecords).length =
          encodeAll (bucketRecord :: swallowed :: forgedRecords) := by
    decide +kernel
  have hfiles := @filesLeft_onlyLog wideStore { torn with os := [] }
    (.putObject forgingPut 3 3) (bucketRecord.encode ++ tornHeaderBytes) ops
    (swallowed.encode.drop headerSize ++ encodeAll forgedRecords).length
    (by decide +kernel) (disk_boot_onlyLog _) (by decide +kernel) (by decide +kernel)
    (by decide +kernel) (by decide +kernel) (by decide +kernel) (by decide +kernel)
  rw [hbytes, hlength] at hfiles
  rw [forgedStore, behindHeader_eq, ← htorn, hfiles]
  rfl

theorem map_forgedStore : forgedStore.store.map =
    applyAll (logOps (bucketRecord :: swallowed :: forgedRecords)) ∅ := by
  have hfits : ∀ r ∈ bucketRecord :: swallowed :: forgedRecords, r.Fits := by
    have hput : ∀ r ∈ bucketRecord :: swallowed :: forgedRecords,
        r.key.length < 2 ^ 32 ∧ r.value.length < 2 ^ 32 ∧ r.seq < 2 ^ 64 ∧ r.type = .put := by
      decide +kernel
    intro r hr
    obtain ⟨hkey, hvalue, hseq, htype⟩ := hput r hr
    exact ⟨hkey, hvalue, hseq, fun hdel => absurd (htype.symm.trans hdel) (by decide)⟩
  have hreplay := replay_encode hfits readRecord_nil ∅
  rw [List.append_nil] at hreplay
  have hsnap : onlyLog (encodeAll (bucketRecord :: swallowed :: forgedRecords)) snapshotPath =
      none :=
    Function.update_of_ne (by decide) _ _
  have hlog : onlyLog (encodeAll (bucketRecord :: swallowed :: forgedRecords)) "/tmp/kv.wal" =
      some (encodeAll (bucketRecord :: swallowed :: forgedRecords)) :=
    Function.update_self _ _ _
  rw [forgedStore_eq, Machine.boot_map, hlog, Option.getD_some, baseMap_of_none hsnap, hreplay,
    Replay.applyAll_map]

theorem reachable_forgedStore :
    ∃ past, ReachableBy wideStore ObjectCall.TabFree (fun _ _ _ => True) past forgedStore := by
  have htab : ∀ data, PutObjectRequest.TabFree
      { bucket := str "b", key := str "q", data := data, contentType := str "t" } :=
    fun _ => ⟨(by decide : tab ∉ str "b"), (by decide : tab ∉ str "q"),
      (by decide : tab ∉ str "t")⟩
  obtain ⟨past, hbucket⟩ : ∃ past, ReachableBy wideStore ObjectCall.TabFree
      (fun _ _ _ => True) past bucketMade :=
    (ReachableBy.boot wideStore _ _).runCalls (List.forall_mem_singleton.mpr trivial)
  obtain ⟨past', htorn⟩ : ∃ past, ReachableBy wideStore ObjectCall.TabFree
      (fun _ _ _ => True) past behindHeader :=
    ⟨_, hbucket.reopened (.putObject tornPut 2 2) (htab _) [] 3 _ trivial⟩
  exact ⟨_, htorn.reopened (.putObject forgingPut 3 3) (htab _) [] 3 _ trivial⟩

/-- The counterexample: the object whose records were in the second put's data is found, and
after a collection its chunk is missing. -/
theorem not_getObject_garbageCollectChunks :
    ¬ ∀ past M, ReachableBy wideStore ObjectCall.TabFree (fun _ _ _ => True) past M →
      ∀ order, Enumerates order M.store.map → ∀ (os : Schedule) (b k : Bytes),
        ((getObject b k).exec ((garbageCollectChunks order).exec { M with os := os }).2).1 =
          ((getObject b k).exec M).1 := by
  intro hall
  set order : List Entry :=
    (bucketRecord :: swallowed :: forgedRecords).map fun r => ⟨r.key, r.value⟩ with horder
  set m : Map := applyAll (logOps (bucketRecord :: swallowed :: forgedRecords)) ∅ with hm
  obtain ⟨M, ⟨past, hpast⟩, hmap⟩ : ∃ M, (∃ past, ReachableBy wideStore ObjectCall.TabFree
      (fun _ _ _ => True) past M) ∧ M.store.map = m :=
    ⟨forgedStore, reachable_forgedStore, map_forgedStore⟩
  have henum : Enumerates order M.store.map := by
    rw [hmap]
    decide +kernel
  have hexec := hall past M hpast order henum [] (str "b") (str "k")
  obtain ⟨-, hafter⟩ := after_eq hpast.serving.working (garbageCollectChunks order)
  rw [exec_of_ops_nil ops_getObject, exec_of_ops_nil ops_getObject, hafter, hmap] at hexec
  have hsame : (getObject (str "b") (str "k")).value ((garbageCollectChunks order).after m) =
      (getObject (str "b") (str "k")).value m := hexec
  have hfound : ((getObject (str "b") (str "k")).value m).found = true := by decide +kernel
  have hmissing : ((getObject (str "b") (str "k")).value
      ((garbageCollectChunks order).after m)).found = false := by
    decide +kernel
  rw [hsame, hfound] at hmissing
  exact absurd hmissing (by decide)

end KvEngine
