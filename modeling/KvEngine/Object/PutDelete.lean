import KvEngine.Object.Collector

/-!
# A put beside a delete

`PutObject` and `DeleteObject` of one object at once, taking turns after every call on the
key-value store. Each writes the metadata first and updates the index entry in a later call,
so the last word on the one and the last word on the other can be of different threads.

Results:
* `Contention.Tracks.run`: the metadata is what its last writer wrote, and the index entry is
  there unless the delete was the last to update it.
* `inStep_iff`: index entry and committed metadata go together exactly when both have their
  last word from the same thread.
* `not_inStep`: a delete that erases the index entry of a put it did not delete.
-/

namespace KvEngine

open ObjectStore

/-! ## The calls a program makes -/

/-- The key whose entry the call sets or erases: none if the store is not open, the log does
not take the record, or the flush that is due keeps the key of a `del` in the map. -/
def Machine.updates (m : Machine) : Op → Option Bytes
  | .put k v =>
    if m.store.opened = true ∧ (m.store.wal.appendPut m.store.nextSeq k v).isSome then some k
    else none
  | .del k =>
    if m.store.opened = true ∧ (m.store.wal.appendDel m.store.nextSeq k).isSome ∧
      (m.store.nextSeq % m.store.groupCommitEvery = 0 →
        ((m.store.appended (.del k)).wal.flush m.os).value.1 = true) then some k
    else none
  | .setGroupCommitEvery _ => none
  | .flushWal => none

/-- A call does its update or leaves the map as it is. -/
theorem Machine.map_step_updates (m : Machine) (op : Op) :
    (∃ lop, op.logOp = some lop ∧ m.updates op = some lop.key ∧
      (m.step op).store.map = lop.apply m.store.map) ∨
    m.updates op = none ∧ (m.step op).store.map = m.store.map := by
  cases op with
  | put k v =>
    by_cases hopen : m.store.opened = true
    · by_cases hfd : m.store.wal.fd = none
      · right
        simp [updates, step, outcome, KVStore.put, hopen, Wal.appendPut, Wal.writeRecord, hfd]
      · left
        refine ⟨.put k v, rfl, ?_, ?_⟩
        · simp [updates, hopen, Wal.appendPut, Wal.writeRecord_eq hfd, LogOp.key]
        · simp only [step, outcome]
          rw [KVStore.put_eq hopen hfd]
          split_ifs <;> rfl
    · right
      simp [updates, step, outcome, KVStore.put, hopen]
  | del k =>
    by_cases hopen : m.store.opened = true
    · by_cases hfd : m.store.wal.fd = none
      · right
        simp [updates, step, outcome, KVStore.del, hopen, Wal.appendDel, Wal.writeRecord, hfd]
      · have htakes : (m.store.wal.appendDel m.store.nextSeq k).isSome = true := by
          rw [Wal.appendDel, Wal.writeRecord_eq hfd]
          rfl
        simp only [updates, step, outcome, hopen, htakes, true_and]
        rw [KVStore.del_eq hopen hfd]
        by_cases hdue : m.store.nextSeq % m.store.groupCommitEvery = 0
        · cases hok : ((m.store.appended (.del k)).wal.flush m.os).value.1 with
          | true =>
            left
            exact ⟨.del k, rfl, by simp [LogOp.key], by simp [hdue, hok, LogOp.apply]⟩
          | false =>
            right
            simp [hdue, hok]
        · left
          exact ⟨.del k, rfl, by simp [hdue, LogOp.key], by simp [hdue, KVStore.appended]⟩
    · right
      simp [updates, step, outcome, KVStore.del, hopen]
  | setGroupCommitEvery n => exact .inr ⟨rfl, rfl⟩
  | flushWal => exact .inr ⟨rfl, rfl⟩

namespace KvProg

variable {α β : Type} {P : Op → Prop} {p : KvProg α} {m m' : Machine}

/-- The next call, if it is one that may change the store. -/
def nextOp : KvProg α → Option Op
  | .put key value _ => some (.put key value)
  | .del key _ => some (.del key)
  | .flushWal _ => some .flushWal
  | _ => none

/-- Every such call that the program makes is one of `P`, whatever the store returns. -/
def Makes (P : Op → Prop) : KvProg α → Prop
  | .pure _ => True
  | .get _ next => ∀ r, (next r).Makes P
  | .listKeysWithPrefix _ _ next => ∀ ks, (next ks).Makes P
  | .put key value next => P (.put key value) ∧ next.Makes P
  | .del key next => P (.del key) ∧ ∀ r, (next r).Makes P
  | .flushWal next => P .flushWal ∧ ∀ r, (next r).Makes P

theorem Makes.bind {f : α → KvProg β} (hp : p.Makes P) (hf : ∀ a, (f a).Makes P) :
    (p >>= f).Makes P := by
  show (p.bind f).Makes P
  induction p with
  | pure a => exact hf a
  | get key next ih => exact fun r => ih r (hp r)
  | listKeysWithPrefix order pfx next ih => exact fun ks => ih ks (hp ks)
  | put key v next ih => exact ⟨hp.1, ih hp.2⟩
  | del key next ih => exact ⟨hp.1, fun r => ih r (hp.2 r)⟩
  | flushWal next ih => exact ⟨hp.1, fun r => ih r (hp.2 r)⟩

/-- One call of such a program. -/
theorem Makes.step {p' : KvProg α} (h : p.Makes P) (hstep : Step m p m' p') :
    p'.Makes P ∧
      ((p.nextOp = none ∧ m' = m) ∨ ∃ op, p.nextOp = some op ∧ P op ∧ m' = m.step op) := by
  cases hstep with
  | get key next => exact ⟨h _, .inl ⟨rfl, rfl⟩⟩
  | listKeysWithPrefix order₀ order pfx next horder => exact ⟨h _, .inl ⟨rfl, rfl⟩⟩
  | put key v next => exact ⟨h.2, .inr ⟨_, rfl, h.1, rfl⟩⟩
  | del key next => exact ⟨h.2 _, .inr ⟨_, rfl, h.1, rfl⟩⟩
  | flushWal next => exact ⟨h.2 _, .inr ⟨_, rfl, h.1, rfl⟩⟩

end KvProg

open KvProg

/-! ## The two programs -/

/-- The state in the metadata that is stored. -/
def storedState (raw : Option Bytes) : Option ObjectState :=
  (raw.bind deserializeMetadata).map ObjectMetadata.state

namespace PutCall

/-- The key of its index entry. -/
def indexKey (c : PutCall) : Bytes := bucketIndexKey c.req.bucket c.req.key

theorem metaKey_ne_indexKey (c : PutCall) : c.metaKey ≠ c.indexKey :=
  (bucketIndexKey_ne_objectMetaKey _ _ _ _).symm

/-- The metadata it writes is read back as committed. -/
def ReadsBack (s : ObjectStore) (c : PutCall) : Prop :=
  storedState (some (serializeMetadata (c.metadata s))) = some .committed

/-- Names and types without tabs do. -/
theorem readsBack_of_tabFree {c : PutCall} (h : c.req.TabFree) (s : ObjectStore) :
    c.ReadsBack s := by
  have hread : deserializeMetadata (serializeMetadata (c.metadata s)) = some (c.metadata s) :=
    deserializeMetadata_putMetadata h
  unfold ReadsBack storedState
  rw [Option.bind_some, hread]
  rfl

/-- A call the put may make: it erases nothing, and writes its metadata only. -/
def Puts (s : ObjectStore) (c : PutCall) : Op → Prop
  | .put key v => key = c.metaKey → v = serializeMetadata (c.metadata s)
  | .del _ => False
  | .setGroupCommitEvery _ => True
  | .flushWal => True

/-- A call the delete may make: it marks the metadata as deleted and erases the index
entry. -/
def Deletes (c : PutCall) : Op → Prop
  | .put key v => key = c.metaKey ∧ storedState (some v) = some .deleted
  | .del key => key = c.indexKey
  | .setGroupCommitEvery _ => True
  | .flushWal => True

theorem makes_writeChunks (s : ObjectStore) (c : PutCall) (is : List ℕ) :
    (s.writeChunks c.objectId c.req.data is).Makes (c.Puts s) := by
  induction is with
  | nil => trivial
  | cons i is ih =>
    exact ⟨fun hkey => absurd hkey.symm (objectMetaKey_ne_chunkKey _ _ _ _), ih⟩

theorem makes_putObject (s : ObjectStore) (c : PutCall) :
    (s.putObject c.req c.idMs c.nowMs).Makes (c.Puts s) := by
  unfold putObject bucketExists
  split_ifs
  · trivial
  · trivial
  intro existing
  show KvProg.Makes _ (if existing.isSome then _ else _)
  split_ifs
  · intro old
    refine (makes_writeChunks s c _).bind fun _ => ?_
    refine ⟨fun _ => rfl, fun hkey => absurd hkey.symm c.metaKey_ne_indexKey, trivial, ?_⟩
    intro flushed
    cases flushed <;> trivial
  · trivial

theorem makes_deleteObject (c : PutCall) (nowMs : UInt64) :
    (deleteObject c.req.bucket c.req.key nowMs).Makes c.Deletes := by
  unfold deleteObject
  intro raw
  cases raw with
  | none => trivial
  | some raw =>
    simp only [KvProg.bind]
    cases hmd : deserializeMetadata raw with
    | none => trivial
    | some md =>
      -- what was read has no tabs, and neither has what is written
      have hread := deserializeMetadata_deleted hmd nowMs
      refine ⟨⟨rfl, ?_⟩, rfl, fun erased => ⟨trivial, fun flushed => ?_⟩⟩
      · rw [storedState, Option.bind_some, hread]
        rfl
      · cases flushed <;> trivial

end PutCall

/-! ## Interleavings -/

/-- The two threads. -/
inductive Contender where
  | put
  | delete
  deriving DecidableEq

/-- A put and a delete of one object on one store: what is left of each, and which of them
wrote the metadata last and updated the index entry last. -/
structure Contention where
  machine : Machine
  put : KvProg PutObjectResult
  delete : KvProg DeleteObjectResult
  metaBy : Option Contender
  indexBy : Option Contender

namespace Contention

/-- Before the first call; `deleteMs` is the delete's clock reading. -/
def start (s : ObjectStore) (c : PutCall) (deleteMs : UInt64) (M : Machine) : Contention where
  machine := M
  put := s.putObject c.req c.idMs c.nowMs
  delete := deleteObject c.req.bucket c.req.key deleteMs
  metaBy := none
  indexBy := none

/-- Who updated the key last, when `who` makes the call `op` next. -/
def lastBy (ct : Contention) (who : Contender) (op : Option Op) (key : Bytes)
    (before : Option Contender) : Option Contender :=
  if op.bind ct.machine.updates = some key then some who else before

end Contention

/-- One call of one of the threads. -/
inductive Contends (c : PutCall) : Contention → Contention → Prop
  | put {ct : Contention} {M : Machine} {p : KvProg PutObjectResult}
      (h : Step ct.machine ct.put M p) :
      Contends c ct { ct with
        machine := M
        put := p
        metaBy := ct.lastBy .put ct.put.nextOp c.metaKey ct.metaBy
        indexBy := ct.lastBy .put ct.put.nextOp c.indexKey ct.indexBy }
  | delete {ct : Contention} {M : Machine} {p : KvProg DeleteObjectResult}
      (h : Step ct.machine ct.delete M p) :
      Contends c ct { ct with
        machine := M
        delete := p
        metaBy := ct.lastBy .delete ct.delete.nextOp c.metaKey ct.metaBy
        indexBy := ct.lastBy .delete ct.delete.nextOp c.indexKey ct.indexBy }

/-- The index entry exists exactly when the metadata is committed. -/
def InStep (c : PutCall) (m : Map) : Prop :=
  (m.lookup c.indexKey).isSome ↔ storedState (m.lookup c.metaKey) = some .committed

/-- The object is committed and indexed. -/
def Present (c : PutCall) (m : Map) : Prop :=
  storedState (m.lookup c.metaKey) = some .committed ∧ (m.lookup c.indexKey).isSome

/-- The state of the metadata whose last writer is given. -/
def PutCall.stateBy (s : ObjectStore) (c : PutCall) : Option Contender → Option ObjectState
  | none => some .committed
  | some .put => storedState (some (serializeMetadata (c.metadata s)))
  | some .delete => some .deleted

/-- What every state of an interleaving satisfies: the threads keep to their calls, and both
entries are as the last writer left them. -/
structure Contention.Tracks (s : ObjectStore) (c : PutCall) (ct : Contention) : Prop where
  put : ct.put.Makes (c.Puts s)
  delete : ct.delete.Makes c.Deletes
  state : storedState (ct.machine.store.map.lookup c.metaKey) = c.stateBy s ct.metaBy
  index : (ct.machine.store.map.lookup c.indexKey).isSome ↔ ct.indexBy ≠ some .delete

variable {s : ObjectStore} {c : PutCall} {ct ct' : Contention}

/-- A call leaves an entry as it is, or it has the last word on it. -/
theorem Contention.lastBy_step {α : Type} {P : Op → Prop} {p p' : KvProg α} {M : Machine}
    (hp : p.Makes P) (hstep : Step ct.machine p M p') (who : Contender) (key : Bytes)
    (before : Option Contender) :
    (ct.lastBy who p.nextOp key before = before ∧
      M.store.map.lookup key = ct.machine.store.map.lookup key) ∨
    (ct.lastBy who p.nextOp key before = some who ∧
      ∃ op lop, P op ∧ op.logOp = some lop ∧ lop.key = key ∧
        M.store.map.lookup key = lop.result) := by
  unfold lastBy
  obtain ⟨-, ⟨hop, rfl⟩ | ⟨op, hop, hP, rfl⟩⟩ := hp.step hstep
  · left
    rw [hop]
    exact ⟨rfl, rfl⟩
  · rw [hop, Option.bind_some]
    obtain ⟨lop, hlop, hkey, hmap⟩ | ⟨hnone, hmap⟩ := ct.machine.map_step_updates op
    · rw [hkey, hmap]
      by_cases heq : lop.key = key
      · right
        subst heq
        exact ⟨if_pos rfl, op, lop, hP, hlop, rfl, LogOp.lookup_apply_key _ lop⟩
      · left
        exact ⟨if_neg fun h => heq (Option.some.inj h),
          LogOp.lookup_apply_of_ne _ fun h => heq h.symm⟩
    · left
      rw [hnone, hmap]
      exact ⟨if_neg (by simp), rfl⟩

namespace Contention.Tracks

/-- A call of the put. -/
theorem of_put (h : ct.Tracks s c) {M : Machine} {p : KvProg PutObjectResult}
    (hstep : Step ct.machine ct.put M p) :
    Contention.Tracks s c { ct with
      machine := M
      put := p
      metaBy := ct.lastBy .put ct.put.nextOp c.metaKey ct.metaBy
      indexBy := ct.lastBy .put ct.put.nextOp c.indexKey ct.indexBy } where
  put := (h.put.step hstep).1
  delete := h.delete
  state := by
    obtain ⟨hby, hlook⟩ | ⟨hby, op, lop, hop, hlop, hkey, hlook⟩ :=
      lastBy_step h.put hstep .put c.metaKey ct.metaBy
    · rw [hby, hlook]
      exact h.state
    · rw [hby, hlook]
      cases op with
      | put k v =>
        obtain rfl := Option.some.inj hlop
        rw [hop hkey]
        rfl
      | del k => exact hop.elim
      | setGroupCommitEvery n => simp [Op.logOp] at hlop
      | flushWal => simp [Op.logOp] at hlop
  index := by
    obtain ⟨hby, hlook⟩ | ⟨hby, op, lop, hop, hlop, hkey, hlook⟩ :=
      lastBy_step h.put hstep .put c.indexKey ct.indexBy
    · rw [hby, hlook]
      exact h.index
    · rw [hby, hlook]
      cases op with
      | put k v =>
        obtain rfl := Option.some.inj hlop
        exact iff_of_true rfl (by simp)
      | del k => exact hop.elim
      | setGroupCommitEvery n => simp [Op.logOp] at hlop
      | flushWal => simp [Op.logOp] at hlop

/-- A call of the delete. -/
theorem of_delete (h : ct.Tracks s c) {M : Machine} {p : KvProg DeleteObjectResult}
    (hstep : Step ct.machine ct.delete M p) :
    Contention.Tracks s c { ct with
      machine := M
      delete := p
      metaBy := ct.lastBy .delete ct.delete.nextOp c.metaKey ct.metaBy
      indexBy := ct.lastBy .delete ct.delete.nextOp c.indexKey ct.indexBy } where
  put := h.put
  delete := (h.delete.step hstep).1
  state := by
    obtain ⟨hby, hlook⟩ | ⟨hby, op, lop, hop, hlop, hkey, hlook⟩ :=
      lastBy_step h.delete hstep .delete c.metaKey ct.metaBy
    · rw [hby, hlook]
      exact h.state
    · rw [hby, hlook]
      cases op with
      | put k v =>
        obtain rfl := Option.some.inj hlop
        exact hop.2
      | del k =>
        obtain rfl := Option.some.inj hlop
        exact absurd (hkey.symm.trans hop) c.metaKey_ne_indexKey
      | setGroupCommitEvery n => simp [Op.logOp] at hlop
      | flushWal => simp [Op.logOp] at hlop
  index := by
    obtain ⟨hby, hlook⟩ | ⟨hby, op, lop, hop, hlop, hkey, hlook⟩ :=
      lastBy_step h.delete hstep .delete c.indexKey ct.indexBy
    · rw [hby, hlook]
      exact h.index
    · rw [hby, hlook]
      cases op with
      | put k v =>
        obtain rfl := Option.some.inj hlop
        exact absurd (hop.1.symm.trans hkey) c.metaKey_ne_indexKey
      | del k =>
        obtain rfl := Option.some.inj hlop
        exact iff_of_false (by simp [LogOp.result]) (by simp)
      | setGroupCommitEvery n => simp [Op.logOp] at hlop
      | flushWal => simp [Op.logOp] at hlop

/-- Every interleaving keeps both entries as their last writers left them. -/
theorem run (h : ct.Tracks s c) (hrun : Relation.ReflTransGen (Contends c) ct ct') :
    ct'.Tracks s c := by
  induction hrun with
  | refl => exact h
  | tail _ hstep ih =>
    cases hstep with
    | put hstep => exact ih.of_put hstep
    | delete hstep => exact ih.of_delete hstep

end Contention.Tracks

theorem Contention.tracks_start (s : ObjectStore) (c : PutCall) (deleteMs : UInt64) {M : Machine}
    (h : Present c M.store.map) : (Contention.start s c deleteMs M).Tracks s c :=
  ⟨c.makes_putObject s, c.makes_deleteObject deleteMs, h.1, iff_of_true h.2 (by simp [start])⟩

/-- **A put beside a delete.** In every state of every interleaving of a put and a delete of
an object that was committed and indexed, and so when both have returned, the index entry
exists exactly when the metadata is committed, if and only if the delete is the last to have
updated the index entry exactly when the metadata has its last word from the delete, or from
a put whose metadata is not read back as committed. -/
theorem inStep_iff {M : Machine} (hM : Present c M.store.map) {deleteMs : UInt64}
    (hrun : Relation.ReflTransGen (Contends c) (Contention.start s c deleteMs M) ct) :
    InStep c ct.machine.store.map ↔ (ct.indexBy = some .delete ↔
      ct.metaBy = some .delete ∨ ct.metaBy = some .put ∧ ¬ c.ReadsBack s) := by
  have h := (Contention.tracks_start s c deleteMs hM).run hrun
  have hstate : ¬ c.stateBy s ct.metaBy = some .committed ↔
      ct.metaBy = some .delete ∨ ct.metaBy = some .put ∧ ¬ c.ReadsBack s := by
    cases ct.metaBy with
    | none => simp [PutCall.stateBy]
    | some who =>
      cases who with
      | put => simp [PutCall.stateBy, PutCall.ReadsBack]
      | delete => simp [PutCall.stateBy]
  unfold InStep
  rw [h.state, h.index, ← hstate]
  exact not_iff_comm.trans iff_comm

/-- A store with the object of `onePut`. -/
def withObject : Machine :=
  (smallStore.runCalls [.createBucket (str "b") 5, .putObject (onePut ()).req 3 4]
    (Machine.boot (fun _ => none) "/tmp/kv.wal")).2

theorem present_withObject : Present (onePut ()) withObject.store.map :=
  ⟨by decide +kernel, by decide +kernel⟩

/-- The delete goes first, the put behind it. -/
theorem inStep_iff_deletePut : ∃ ct,
    Relation.ReflTransGen (Contends (onePut ()))
      (Contention.start smallStore (onePut ()) 8 withObject) ct ∧
    (∃ r, ct.put = .pure r ∧ r.ok = true) ∧ (∃ r, ct.delete = .pure r ∧ r.ok = true) ∧
    InStep (onePut ()) ct.machine.store.map := by
  have h₀ : Relation.ReflTransGen (Contends (onePut ()))
    (Contention.start smallStore (onePut ()) 8 withObject) _ := .refl
  have h₁ := h₀.tail (.delete (.get _ _ _))
  have h₂ := h₁.tail (.delete (.put _ _ _ _))
  have h₃ := h₂.tail (.delete (.del _ _ _))
  have h₄ := h₃.tail (.delete (.flushWal _ _))
  have h₅ := h₄.tail (.put (.get _ _ _))
  have h₆ := h₅.tail (.put (.get _ _ _))
  have h₇ := h₆.tail (.put (.put _ _ _ _))
  have h₈ := h₇.tail (.put (.put _ _ _ _))
  have h₉ := h₈.tail (.put (.put _ _ _ _))
  have h₁₀ := h₉.tail (.put (.flushWal _ _))
  refine ⟨_, h₁₀, ⟨_, rfl, by decide +kernel⟩, ⟨_, rfl, by decide +kernel⟩, ?_⟩
  refine (inStep_iff present_withObject h₁₀).mpr ?_
  have hreads : (onePut ()).ReadsBack smallStore :=
    PutCall.readsBack_of_tabFree (separate_onePut.tabFree ()) smallStore
  refine iff_of_false (by decide +kernel) ?_
  rintro (hdelete | ⟨-, hlost⟩)
  · revert hdelete
    decide +kernel
  · exact hlost hreads

/-- What is claimed: a put and a delete that have both returned ok leave index entry and
metadata in step. -/
def EndInStep (s : ObjectStore) (c : PutCall) (deleteMs : UInt64) (M : Machine) : Prop :=
  Present c M.store.map → ∀ ct,
    Relation.ReflTransGen (Contends c) (Contention.start s c deleteMs M) ct →
    (∃ r, ct.put = .pure r ∧ r.ok = true) → (∃ r, ct.delete = .pure r ∧ r.ok = true) →
    InStep c ct.machine.store.map

/-- The put goes between the delete's write of the metadata and its erase of the index
entry: the object is committed, and no listing has it. -/
theorem not_inStep : ¬ EndInStep smallStore (onePut ()) 8 withObject := by
  intro hall
  have h₀ : Relation.ReflTransGen (Contends (onePut ()))
    (Contention.start smallStore (onePut ()) 8 withObject) _ := .refl
  have h₁ := h₀.tail (.delete (.get _ _ _))
  have h₂ := h₁.tail (.delete (.put _ _ _ _))
  have h₃ := h₂.tail (.put (.get _ _ _))
  have h₄ := h₃.tail (.put (.get _ _ _))
  have h₅ := h₄.tail (.put (.put _ _ _ _))
  have h₆ := h₅.tail (.put (.put _ _ _ _))
  have h₇ := h₆.tail (.put (.put _ _ _ _))
  have h₈ := h₇.tail (.put (.flushWal _ _))
  have h₉ := h₈.tail (.delete (.del _ _ _))
  have h₁₀ := h₉.tail (.delete (.flushWal _ _))
  have hstep := hall present_withObject _ h₁₀ ⟨_, rfl, by decide +kernel⟩
    ⟨_, rfl, by decide +kernel⟩
  have hcommitted := hstep.mpr (by decide +kernel)
  revert hcommitted
  decide +kernel

end KvEngine
