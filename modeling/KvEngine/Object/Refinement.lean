import KvEngine.Object.Calls

/-!
# The object store refines a map of objects

Every call on an object store does to the map it stands for what the abstract store does,
and answers as it does, as long as its names are such that metadata reads back and clock
readings grow.

Results:
* `Represents.step`: one call.
* `objectStore_refines`: every run of calls, from a store without objects.
-/

namespace KvEngine

open KvProg

/-! ## Calls and runs -/

/-- What the text form of metadata and of keys assumes of the names in a call. -/
def ObjectCall.Named : ObjectCall → Prop
  | .createBucket b _ => colon ∉ b
  | .putObject req _ _ => colon ∉ req.bucket ∧ req.TabFree
  | .getObject b _ => colon ∉ b
  | .deleteObject b _ _ => colon ∉ b
  | .listObjects b _ _ => colon ∉ b
  | .garbageCollectChunks _ => True

/-- Objects have fewer than `2^32` chunks. -/
def ObjectCall.Chunked (s : ObjectStore) : ObjectCall → Prop
  | .putObject req _ _ => (req.data.length + s.chunkSize - 1) / s.chunkSize < 2 ^ 32
  | _ => True

/-- Listings go through the store's map. -/
def ObjectCall.Ordered (m : Map) : ObjectCall → Prop
  | .listObjects _ _ order => Enumerates order m
  | .garbageCollectChunks order => Enumerates order m
  | _ => True

/-- The clock reading of a new object id is not below `T`. -/
def ObjectCall.Later (A : ObjectMap) (T : ℕ) : ObjectCall → Prop
  | .putObject req idMs _ => A.Accepts req → T ≤ idMs.toNat
  | _ => True

/-- The least reading allowed after the call: a call that made an id used up its own. -/
def ObjectCall.nextReading (A : ObjectMap) (T : ℕ) : ObjectCall → ℕ
  | .putObject req idMs _ => if A.Accepts req then idMs.toNat + 1 else T
  | _ => T

/-- A call on a store that stands for `A`, whose ids have readings below `T`. -/
structure ObjectCall.Admissible (s : ObjectStore) (m : Map) (A : ObjectMap) (T : ℕ)
    (c : ObjectCall) : Prop where
  named : c.Named
  chunked : c.Chunked s
  ordered : c.Ordered m
  later : c.Later A T

variable {s : ObjectStore} {m : Map} {T : ℕ} {A : ObjectMap}

/-- A call does and answers what the abstract store does and answers. -/
theorem Represents.step (h : Represents m T A) {c : ObjectCall} (hc : c.Admissible s m A T) :
    A.Answers c ((c.prog s).value m) ∧ Performs (c.prog s) m (c.nextReading A T) A (A.apply c) := by
  obtain ⟨hnamed, hchunked, hordered, hlater⟩ := hc
  cases c with
  | createBucket b now =>
    obtain ⟨hvalue, hperf⟩ := h.createBucket b now
    refine ⟨?_, hperf.of_ops_eq (by simp [ObjectCall.prog])⟩
    rwa [ObjectCall.prog, value_bind]
  | putObject req idMs now =>
    obtain ⟨hvalue, hperf⟩ := h.putObject (s := s) hnamed.1 hnamed.2 hchunked hlater now
    refine ⟨?_, hperf.of_ops_eq (by simp [ObjectCall.prog])⟩
    rwa [ObjectCall.prog, value_bind]
  | getObject b k =>
    refine ⟨?_, h.performs (by simp [ObjectCall.prog, ops_getObject])⟩
    rw [ObjectCall.prog, value_bind]
    exact getsObject_value (h.objects b k hnamed)
  | deleteObject b k now =>
    refine ⟨?_, (h.deleteObject hnamed k now).of_ops_eq (by simp [ObjectCall.prog])⟩
    rw [ObjectCall.prog, value_bind]
    trivial
  | listObjects b pfx order =>
    obtain ⟨hops, hvalue⟩ := h.listsObjects hnamed hordered pfx
    refine ⟨?_, h.performs (by simp [ObjectCall.prog, hops])⟩
    rwa [ObjectCall.prog, value_bind]
  | garbageCollectChunks order =>
    refine ⟨?_, (h.garbageCollectChunks hordered).of_ops_eq (by simp [ObjectCall.prog])⟩
    rw [ObjectCall.prog, value_bind]
    trivial

namespace ObjectStore

/-- A run of calls on a store with its files, with its replies. -/
def runCalls (s : ObjectStore) : List ObjectCall → Machine → List ObjectReply × Machine
  | [], m => ([], m)
  | c :: cs, m =>
    let (reply, m₁) := (c.prog s).exec m
    let (replies, m₂) := s.runCalls cs m₁
    (reply :: replies, m₂)

/-- Every call of the run is admissible where it is made. -/
def AdmissibleRun (s : ObjectStore) : Machine → ObjectMap → ℕ → List ObjectCall → Prop
  | _, _, _, [] => True
  | m, A, T, c :: cs =>
    c.Admissible s m.store.map A T ∧
      s.AdmissibleRun ((c.prog s).exec m).2 (A.apply c) (c.nextReading A T) cs

end ObjectStore

/-- The replies are those the abstract store gives to the calls. -/
def ObjectMap.AnswersAll : ObjectMap → List ObjectCall → List ObjectReply → Prop
  | _, [], [] => True
  | A, c :: cs, r :: rs => A.Answers c r ∧ (A.apply c).AnswersAll cs rs
  | _, _, _ => False

/-- A run from any store that stands for `A`. -/
theorem Represents.run {M : Machine} (hwork : M.Working) (h : Represents M.store.map T A)
    {cs : List ObjectCall} (hrun : s.AdmissibleRun M A T cs) :
    A.AnswersAll cs (s.runCalls cs M).1 := by
  induction cs generalizing M A T with
  | nil => trivial
  | cons c cs ih =>
    obtain ⟨hc, hcs⟩ := hrun
    obtain ⟨hanswer, hperf⟩ := h.step hc
    obtain ⟨hwork', hmap⟩ := after_eq hwork (c.prog s)
    refine ⟨?_, ih hwork' ?_ hcs⟩
    · rw [exec_eq hwork]
      exact hanswer
    · rw [hmap]
      exact hperf.after

/-- A map without buckets and metadata stands for the empty store. -/
theorem represents_empty (hbucket : ∀ b, m.lookup (bucketMetaKey b) = none)
    (hmeta : ∀ b k, m.lookup (objectMetaKey b k) = none) : Represents m 0 ObjectMap.empty := by
  refine ⟨fun b => ?_, fun b k _ => .inl (hmeta b k), fun b k _ h => absurd rfl h⟩
  rw [hbucket]
  simp [ObjectMap.empty]

/-- **The object store refines a map of objects.** On a working store that holds no
buckets and no metadata, every admissible run of calls is answered as by a map from bucket
and key to data and content type. -/
theorem objectStore_refines {M : Machine} (hwork : M.Working)
    (hbucket : ∀ b, M.store.map.lookup (bucketMetaKey b) = none)
    (hmeta : ∀ b k, M.store.map.lookup (objectMetaKey b k) = none) {s : ObjectStore}
    {cs : List ObjectCall} (hrun : s.AdmissibleRun M ObjectMap.empty 0 cs) :
    ObjectMap.empty.AnswersAll cs (s.runCalls cs M).1 :=
  (represents_empty hbucket hmeta).run hwork hrun

/-- A store with chunks of two bytes. -/
def smallStore : ObjectStore := .new 2 fun _ => 0

/-- An object of two chunks. -/
def smallRequest : PutObjectRequest := { bucket := str "b", key := str "k", data := [1, 2, 3] }

/-- The map after the object was put into a new bucket, in one of its orders. -/
def smallOrder : List Entry :=
  [⟨bucketIndexKey (str "b") (str "k"), makeObjectId (str "b") (str "k") 6⟩,
    ⟨objectMetaKey (str "b") (str "k"),
      serializeMetadata (smallStore.putMetadata smallRequest 6 7)⟩,
    ⟨chunkKey (makeObjectId (str "b") (str "k") 6) 1, [3]⟩,
    ⟨chunkKey (makeObjectId (str "b") (str "k") 6) 0, [1, 2]⟩,
    ⟨bucketMetaKey (str "b"), serializeBucketMeta ⟨str "b", 5⟩⟩]

/-- The object is put and listed. -/
def smallRun : List ObjectCall :=
  [.createBucket (str "b") 5, .putObject smallRequest 6 7, .listObjects (str "b") [] smallOrder]

theorem admissible_smallBucket (m : Map) (A : ObjectMap) :
    (ObjectCall.createBucket (str "b") 5).Admissible smallStore m A 0 :=
  ⟨(by decide : colon ∉ str "b"), trivial, trivial, trivial⟩

theorem admissible_smallPut (m : Map) (A : ObjectMap) :
    (ObjectCall.putObject smallRequest 6 7).Admissible smallStore m A 0 := by
  have hcount : ([1, 2, 3].length + smallStore.chunkSize - 1) / smallStore.chunkSize < 2 ^ 32 := by
    decide
  exact ⟨⟨(by decide : colon ∉ str "b"), by decide, by decide, by decide⟩, hcount, trivial,
    fun _ => Nat.zero_le _⟩

/-- The theorem at a fresh store on no files. -/
theorem objectStore_refines_small :
    ObjectMap.empty.AnswersAll smallRun
      (smallStore.runCalls smallRun (Machine.boot (fun _ => none) "/tmp/kv.wal")).1 := by
  have hempty : (Machine.boot (fun _ => none) "/tmp/kv.wal").store.map = ∅ :=
    Machine.boot_map_of_no_files _
  apply objectStore_refines
  · exact Machine.boot_working _ _
  · exact fun b => by rw [hempty, Finmap.lookup_empty]
  · exact fun b k => by rw [hempty, Finmap.lookup_empty]
  · refine ⟨admissible_smallBucket _ _, admissible_smallPut _ _,
      ⟨(by decide : colon ∉ str "b"), trivial, ?_, trivial⟩, trivial⟩
    show Enumerates smallOrder _
    decide +kernel

end KvEngine
