import KvEngine.Object.Collection
import KvEngine.Object.Puts

/-!
# Overwriting an object

A put writes its chunks under a new object id before the metadata that commits them, so that
the old chunks stay until then. The id is made of bucket, key and a clock reading in
milliseconds, and nothing looks whether it is in use.

Results:
* `ReachableBy.refers_iff`: in the states of tab-free calls the chunks that can be read are
  those of committed metadata.
* `sparesLive_iff`: the chunk writes of a put replace none of these, and every lookup says
  the same in between, exactly if none of them has the new object id.
* `not_sparesLive`: two puts to a key in one millisecond.
-/

namespace KvEngine

open KvProg ObjectStore

variable {s : ObjectStore} {M : Machine} {req : PutObjectRequest} {idMs nowMs : UInt64}
  {past : List Op} {id : Bytes} {n : ℕ}

/-! ## Chunks in use -/

/-- Metadata that can be read and is not marked deleted has the object id `id` and counts `n`
chunks: those `GetObject` reads. -/
def Refers (m : Map) (id : Bytes) (n : ℕ) : Prop :=
  ∃ b k md, (m.lookup (objectMetaKey b k)).bind deserializeMetadata = some md ∧
    md.state ≠ .deleted ∧ md.objectId = id ∧ md.chunkCount.toNat = n

/-- Without tabs in names and content types that is committed metadata. -/
theorem ReachableBy.refers_iff (h : ReachableBy s ObjectCall.TabFree OnlyPut past M) :
    Refers M.store.map id n ↔
      ∃ b k md, (M.store.map.lookup (objectMetaKey b k)).bind deserializeMetadata = some md ∧
        md.state = .committed ∧ md.objectId = id ∧ md.chunkCount.toNat = n := by
  constructor
  · rintro ⟨b, k, md, hmd, hlive, hid⟩
    obtain ⟨raw, hraw, hread⟩ := Option.bind_eq_some_iff.mp hmd
    have hstate := h.decided _ raw hraw (family_objectMetaKey b k) md hread
    exact ⟨b, k, md, hmd, hstate.resolve_right hlive, hid⟩
  · rintro ⟨b, k, md, hmd, hstate, hid⟩
    exact ⟨b, k, md, hmd, by simp [hstate], hid⟩

/-! ## Before the commit -/

/-- The calls of a put that come before its metadata. -/
def beforeCommit (s : ObjectStore) (req : PutObjectRequest) (idMs nowMs : UInt64) (M : Machine) :
    List Op :=
  ((s.putObject req idMs nowMs).calls M).takeWhile fun op =>
    op ≠ .put (objectMetaKey req.bucket req.key) (serializeMetadata (s.putMetadata req idMs nowMs))

/-- They write its chunks. -/
theorem beforeCommit_eq : beforeCommit s req idMs nowMs M =
    if req.Passes M.store.map then s.chunkPuts req idMs (List.range (s.putCount req)) else [] := by
  unfold beforeCommit
  split_ifs with hpasses
  · rw [(exec_putObject hpasses).1, putWrites, List.append_assoc, List.takeWhile_append_of_pos]
    · rw [commitPuts, List.cons_append, List.takeWhile_cons_of_neg (by simp), List.append_nil]
    · intro op hop
      obtain ⟨i, -, rfl⟩ := List.mem_map.mp hop
      have hne := (objectMetaKey_ne_chunkKey req.bucket req.key (putId req idMs) i).symm
      simp [hne]
  · rw [calls_of_ops_nil (ops_putObject_of_not_passes hpasses idMs nowMs)]
    rfl

/-- Until the put commits, no chunk is replaced that can be read, and every lookup says what
it said before. -/
structure SparesLive (s : ObjectStore) (req : PutObjectRequest) (idMs nowMs : UInt64)
    (M : Machine) : Prop where
  chunks : ∀ id n, Refers M.store.map id n → ∀ i < n, ∀ v,
    .put (chunkKey id i) v ∉ beforeCommit s req idMs nowMs M
  reads : ∀ j b k,
    ((getObject b k).exec (M.run ((beforeCommit s req idMs nowMs M).take j))).1 =
      ((getObject b k).exec M).1

/-- If the put writes chunks, its object id has none that can be read. -/
def FreshId (s : ObjectStore) (req : PutObjectRequest) (idMs : UInt64) (m : Map) : Prop :=
  req.Passes m → 0 < s.putCount req → ∀ n, Refers m (putId req idMs) n → n = 0

theorem mem_beforeCommit {op : Op} (h : op ∈ beforeCommit s req idMs nowMs M) :
    req.Passes M.store.map ∧ ∃ i < s.putCount req,
      op = .put (chunkKey (putId req idMs) i) (s.chunkValue req.data i) := by
  rw [beforeCommit_eq] at h
  split_ifs at h with hpasses
  · obtain ⟨i, hi, rfl⟩ := List.mem_map.mp h
    exact ⟨hpasses, i, List.mem_range.mp hi, rfl⟩
  · simp at h

/-- Other entries stay while the chunks are written. -/
theorem lookup_beforeCommit {key : Bytes} (hkey : ∀ v, .put key v ∉ beforeCommit s req idMs nowMs M)
    (j : ℕ) :
    (M.run ((beforeCommit s req idMs nowMs M).take j)).store.map.lookup key =
      M.store.map.lookup key := by
  have hany : Entries (fun _ _ => True) M.store.map := fun _ _ _ => trivial
  refine (hany.run (W := fun key' => key' ≠ key) fun op hop => ?_).2 key (not_not_intro rfl)
  have hmem := List.mem_of_mem_take hop
  obtain ⟨-, i, -, rfl⟩ := mem_beforeCommit hmem
  refine ⟨trivial, ?_⟩
  rintro rfl
  exact hkey _ hmem

/-- **Overwrites spare live chunks** exactly when the new object id is fresh, on every store
and whatever the system calls return. -/
theorem sparesLive_iff (s : ObjectStore) (req : PutObjectRequest) (idMs nowMs : UInt64)
    (M : Machine) : SparesLive s req idMs nowMs M ↔ FreshId s req idMs M.store.map := by
  constructor
  · intro h hpasses hcount n hrefers
    by_contra hn
    refine h.chunks _ n hrefers 0 (Nat.pos_of_ne_zero hn) (s.chunkValue req.data 0) ?_
    rw [beforeCommit_eq, if_pos hpasses]
    exact List.mem_map.mpr ⟨0, List.mem_range.mpr hcount, rfl⟩
  · intro hfresh
    have hchunks : ∀ id n, Refers M.store.map id n → ∀ i < n, ∀ v,
        .put (chunkKey id i) v ∉ beforeCommit s req idMs nowMs M := by
      intro id n hrefers i hi v hmem
      obtain ⟨hpasses, i', hi', hop⟩ := mem_beforeCommit hmem
      obtain ⟨rfl, rfl⟩ := chunkKey_inj (Op.put.inj hop).1
      have hzero := hfresh hpasses (by omega) n hrefers
      omega
    refine ⟨hchunks, fun j b k => ?_⟩
    rw [exec_of_ops_nil ops_getObject, exec_of_ops_nil ops_getObject]
    refine value_getObject_congr (lookup_beforeCommit (fun v hmem => ?_) j)
      fun raw md hraw hmd hlive i hi => lookup_beforeCommit (hchunks md.objectId
        md.chunkCount.toNat ⟨b, k, md, ?_, hlive, rfl, rfl⟩ i hi) j
    · obtain ⟨-, i, -, hop⟩ := mem_beforeCommit hmem
      exact objectMetaKey_ne_chunkKey _ _ _ _ (Op.put.inj hop).1
    · rw [hraw, Option.bind_some, hmd]

/-- A bucket with an object of three chunks. -/
def bucketAndObject : List ObjectCall :=
  [.createBucket (str "b") 5, .putObject threeChunks 6 7]

/-- Three other chunks for the same key. -/
def threeOthers : PutObjectRequest :=
  { bucket := str "b", key := str "k", data := [6, 7, 8, 9, 10] }

/-- A put to the key in the same millisecond mixes the old object with the new one. -/
theorem not_sparesLive :
    ¬ ∀ past M, ReachableBy smallStore ObjectCall.TabFree OnlyPut past M →
      ∀ (req : PutObjectRequest) (idMs nowMs : UInt64) (os : Schedule),
        SparesLive smallStore req idMs nowMs { M with os := os } := by
  intro hall
  have htab : ∀ c ∈ bucketAndObject, c.TabFree :=
    List.forall_mem_cons.mpr ⟨trivial, List.forall_mem_singleton.mpr tabFree_threeChunks⟩
  obtain ⟨past, hpast⟩ := (ReachableBy.boot smallStore _ _).runCalls htab
  have hreads := (hall past _ hpast threeOthers 6 8 []).reads 1 (str "b") (str "k")
  have hdata := congrArg GetObjectResult.data hreads
  revert hdata
  decide +kernel

end KvEngine
