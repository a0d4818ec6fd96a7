import KvEngine.Object.Refinement

/-!
# A collector beside writers

`GarbageCollectChunks` and several `PutObject` calls at once: the threads take turns after
every call on the key-value store, which the store's mutex makes atomic. The collector takes
the ids of committed metadata first and lists the chunks later, and a put writes its chunks
before its metadata.

Results:
* `KvProg.steps_exec`: a program that runs alone does what `exec` says.
* `readable_of_spares`: every put that returned can be read back, in every interleaving in
  which the collector has seen the metadata of each put with a chunk in its listing.
* `not_readable`: a put whose chunk is listed before its metadata is written.
-/

namespace KvEngine

open ObjectStore

/-! ## One call of a program -/

namespace KvProg

variable {α β γ : Type} {p : KvProg α}

/-- One call of a program on a store with its files. A listing goes through the map in some
order, whatever order the program names. -/
inductive Step : Machine → KvProg α → Machine → KvProg α → Prop
  | get (m : Machine) (key : Bytes) (next : Option Bytes → KvProg α) :
      Step m (.get key next) m (next (m.store.get key))
  | listKeysWithPrefix (m : Machine) (order₀ order : List Entry) (pfx : Bytes)
      (next : List Bytes → KvProg α) (h : Enumerates order m.store.map) :
      Step m (.listKeysWithPrefix order₀ pfx next) m
        (next (KVStore.listKeysWithPrefix order pfx))
  | put (m : Machine) (key value : Bytes) (next : KvProg α) :
      Step m (.put key value next) (m.step (.put key value)) next
  | del (m : Machine) (key : Bytes) (next : Bool → KvProg α) :
      Step m (.del key next) (m.step (.del key)) (next (m.store.del key m.os).value.1)
  | flushWal (m : Machine) (next : Bool → KvProg α) :
      Step m (.flushWal next) (m.step .flushWal) (next (m.store.flushWal m.os).value.1)

/-- The orders the program names are orders of the map it lists. -/
def InOrder : KvProg α → Machine → Prop
  | .pure _, _ => True
  | .get key next, m => (next (m.store.get key)).InOrder m
  | .listKeysWithPrefix order pfx next, m =>
    Enumerates order m.store.map ∧ (next (KVStore.listKeysWithPrefix order pfx)).InOrder m
  | .put key value next, m => next.InOrder (m.step (.put key value))
  | .del key next, m => (next (m.store.del key m.os).value.1).InOrder (m.step (.del key))
  | .flushWal next, m => (next (m.store.flushWal m.os).value.1).InOrder (m.step .flushWal)

/-- A program that runs alone does what `exec` says. -/
theorem steps_exec {m : Machine} (h : p.InOrder m) :
    Relation.ReflTransGen (fun a b : Machine × KvProg α => Step a.1 a.2 b.1 b.2) (m, p)
      ((p.exec m).2, .pure (p.exec m).1) := by
  induction p generalizing m with
  | pure a => exact .refl
  | get key next ih => exact .head (.get m key next) (ih _ h)
  | listKeysWithPrefix order pfx next ih =>
    exact .head (.listKeysWithPrefix m order order pfx next h.1) (ih _ h.2)
  | put key v next ih => exact .head (.put m key v next) (ih h)
  | del key next ih => exact .head (.del m key next) (ih _ h)
  | flushWal next ih => exact .head (.flushWal m next) (ih _ h)

theorem bind_assoc (p : KvProg α) (f : α → KvProg β) (g : β → KvProg γ) :
    (p >>= f) >>= g = p >>= fun a => f a >>= g := by
  show (p.bind f).bind g = p.bind fun a => (f a).bind g
  induction p with
  | pure a => rfl
  | get key next ih => exact congrArg (KvProg.get key) (funext ih)
  | listKeysWithPrefix order pfx next ih =>
    exact congrArg (KvProg.listKeysWithPrefix order pfx) (funext ih)
  | put key v next ih => exact congrArg (KvProg.put key v) ih
  | del key next ih => exact congrArg (KvProg.del key) (funext ih)
  | flushWal next ih => exact congrArg KvProg.flushWal (funext ih)

theorem Step.working {m m' : Machine} {p' : KvProg α} (h : Step m p m' p') (hm : m.Working) :
    m'.Working := by
  cases h with
  | get key next => exact hm
  | listKeysWithPrefix order₀ order pfx next h => exact hm
  | put key v next => exact (hm.step _).1
  | del key next => exact (hm.step _).1
  | flushWal next => exact (hm.step _).1

/-- The key of a read that comes next. -/
def getsFrom : KvProg α → Option Bytes
  | .get key _ => some key
  | _ => none

/-- The key of a put that comes next. -/
def putsTo : KvProg α → Option Bytes
  | .put key _ _ => some key
  | _ => none

/-- The prefix of a listing that comes next. -/
def lists : KvProg α → Option Bytes
  | .listKeysWithPrefix _ pfx _ => some pfx
  | _ => none

end KvProg

open KvProg

/-! ## The protocol of a put -/

/-- A call of `PutObject` with its clock readings. -/
structure PutCall where
  req : PutObjectRequest
  idMs : UInt64
  nowMs : UInt64

namespace PutCall

/-- The object id it makes. -/
def objectId (c : PutCall) : Bytes := makeObjectId c.req.bucket c.req.key c.idMs

/-- The key of its metadata. -/
def metaKey (c : PutCall) : Bytes := objectMetaKey c.req.bucket c.req.key

/-- The metadata it writes. -/
def metadata (s : ObjectStore) (c : PutCall) : ObjectMetadata := s.putMetadata c.req c.idMs c.nowMs

/-- How many chunks it writes. -/
def count (s : ObjectStore) (c : PutCall) : ℕ := (s.chunkCount c.req.data.length).toNat

/-- What may be left of a put that has written its metadata: the index entry, the flush. -/
def Finishes : KvProg PutObjectResult → Prop
  | .pure _ => True
  | .put key _ next => family key = str "bucketi" ∧ Finishes next
  | .flushWal next => ∀ r, Finishes (next r)
  | _ => False

/-- What may be left of a put that has written its first `n` chunks: the others in order, and
the metadata once all are there. It does not return ok before that. -/
def Writes (s : ObjectStore) (c : PutCall) : KvProg PutObjectResult → ℕ → Prop
  | .pure r, _ => r.ok = false
  | .get _ next, n => ∀ r, Writes s c (next r) n
  | .put key v next, n =>
    (n < c.count s ∧ key = chunkKey c.objectId n ∧ v = s.chunkValue c.req.data n ∧
        Writes s c next (n + 1)) ∨
      (n = c.count s ∧ key = c.metaKey ∧ v = serializeMetadata (c.metadata s) ∧ Finishes next)
  | _, _ => False

variable {s : ObjectStore} {c : PutCall} {m m' : Machine} {p p' : KvProg PutObjectResult} {n : ℕ}

theorem writes_writeChunks {f : Unit → KvProg PutObjectResult} (hf : Writes s c (f ()) (c.count s))
    (j : ℕ) : ∀ n, n + j = c.count s →
      Writes s c (s.writeChunks c.objectId c.req.data (List.range' n j) >>= f) n := by
  induction j with
  | zero =>
    rintro n rfl
    exact hf
  | succ j ih =>
    intro n hn
    have hrest := ih (n + 1) (by omega)
    exact .inl ⟨by omega, rfl, rfl, hrest⟩

/-- A put follows the protocol. -/
theorem writes_putObject (s : ObjectStore) (c : PutCall) :
    Writes s c (s.putObject c.req c.idMs c.nowMs) 0 := by
  have herror : ∀ e : Bytes, Writes s c (Pure.pure { error := e }) 0 := fun _ => rfl
  unfold putObject
  split_ifs with hb hk
  · exact herror _
  · exact herror _
  rw [bucketExists, if_neg hb]
  intro r
  cases r with
  | none => exact herror _
  | some r =>
    intro old
    show Writes s c (s.writeChunks c.objectId c.req.data (List.range (c.count s)) >>= _) 0
    rw [List.range_eq_range']
    refine writes_writeChunks ?_ _ 0 (by omega)
    refine Or.inr ⟨rfl, rfl, rfl, rfl, fun flushed => ?_⟩
    cases flushed with
    | true => trivial
    | false => trivial

/-- One call of a put that has not committed. -/
theorem Writes.step (h : Writes s c p n) (hstep : Step m p m' p') (hm : m.Working) :
    (m'.store.map = m.store.map ∧ Writes s c p' n ∧ p.putsTo ≠ some c.metaKey) ∨
      (m'.store.map = m.store.map.insert (chunkKey c.objectId n) (s.chunkValue c.req.data n) ∧
        Writes s c p' (n + 1) ∧ p.putsTo ≠ some c.metaKey) ∨
      (n = c.count s ∧ m'.store.map = m.store.map.insert c.metaKey
        (serializeMetadata (c.metadata s)) ∧ Finishes p' ∧ p.putsTo = some c.metaKey) := by
  cases hstep with
  | get key next => exact .inl ⟨rfl, h _, by simp [putsTo]⟩
  | listKeysWithPrefix order₀ order pfx next horder => exact h.elim
  | put key v next =>
    have hmap := (hm.step (.put key v)).2
    obtain ⟨hn, rfl, rfl, hnext⟩ | ⟨hn, rfl, rfl, hnext⟩ := h
    · refine .inr (.inl ⟨hmap, hnext, fun heq => ?_⟩)
      exact objectMetaKey_ne_chunkKey _ _ _ _ (Option.some.inj heq).symm
    · exact .inr (.inr ⟨hn, hmap, hnext, rfl⟩)
  | del key next => exact h.elim
  | flushWal next => exact h.elim

/-- One call of a put that has. -/
theorem Finishes.step (h : Finishes p) (hstep : Step m p m' p') (hm : m.Working) :
    Finishes p' ∧ p.putsTo ≠ some c.metaKey ∧
      ∀ key, family key ≠ str "bucketi" → m'.store.map.lookup key = m.store.map.lookup key := by
  cases hstep with
  | get key next => exact h.elim
  | listKeysWithPrefix order₀ order pfx next horder => exact h.elim
  | put key v next =>
    obtain ⟨hkey, hnext⟩ := h
    refine ⟨hnext, fun heq => ?_, fun key' hkey' => ?_⟩
    · have hfamily : family key = str "objmeta" := by
        rw [Option.some.inj heq, metaKey, family_objectMetaKey]
      rw [hkey] at hfamily
      exact absurd hfamily (by decide)
    · rw [(hm.step (.put key v)).2]
      refine Finmap.lookup_insert_of_ne _ ?_
      rintro rfl
      exact hkey' hkey
  | del key next => exact h.elim
  | flushWal next =>
    refine ⟨h _, by simp [putsTo], fun key _ => ?_⟩
    rw [(hm.step .flushWal).2]
    rfl

end PutCall

/-! ## The protocol of the collector -/

/-- What the collector may still do behind its listing of chunks: delete keys of `D`. -/
def Sweeps (D : Bytes → Prop) : KvProg ℕ → Prop
  | .pure _ => True
  | .del key next => D key ∧ ∀ r, Sweeps D (next r)
  | .flushWal next => ∀ r, Sweeps D (next r)
  | _ => False

/-- The id of committed metadata that was read. -/
def CommittedId (raw : Option Bytes) (id : Bytes) : Prop :=
  ∃ md, raw.bind deserializeMetadata = some md ∧ md.state = .committed ∧ md.objectId = id

/-- What the collector may do up to its listing of chunks when it has found the ids of `S`:
it reads and lists metadata, keeps the ids it finds, and behind the listing deletes only
listed chunks of other ids. -/
def Scans : KvProg ℕ → (Bytes → Prop) → Prop
  | .get _ next, S => ∀ raw, Scans (next raw) fun id => S id ∨ CommittedId raw id
  | .listKeysWithPrefix _ pfx next, S =>
    (pfx = str "objmeta:" ∧ ∀ ks, Scans (next ks) S) ∨
      (pfx = str "objchunk:" ∧ ∀ ks, Sweeps
        (fun key => key ∈ ks ∧ ∃ id, chunkObjectId key = some id ∧ ¬ S id) (next ks))
  | _, _ => False

theorem Sweeps.mono {D D' : Bytes → Prop} {p : KvProg ℕ} (h : Sweeps D p)
    (hD : ∀ key, D key → D' key) : Sweeps D' p := by
  induction p with
  | pure a => trivial
  | get key next ih => exact h.elim
  | listKeysWithPrefix order pfx next ih => exact h.elim
  | put key v next ih => exact h.elim
  | del key next ih => exact ⟨hD key h.1, fun r => ih r (h.2 r)⟩
  | flushWal next ih => exact fun r => ih r (h r)

/-- It may be taken to have found fewer. -/
theorem Scans.anti {S S' : Bytes → Prop} {p : KvProg ℕ} (h : Scans p S)
    (hS : ∀ id, S' id → S id) : Scans p S' := by
  induction p generalizing S S' with
  | pure a => exact h.elim
  | get key next ih => exact fun raw => ih raw (h raw) fun id hid => hid.imp_left (hS id)
  | listKeysWithPrefix order pfx next ih =>
    refine h.imp (fun h => ⟨h.1, fun ks => ih ks (h.2 ks) hS⟩) fun h => ⟨h.1, fun ks => ?_⟩
    refine (h.2 ks).mono ?_
    rintro key ⟨hkey, id, hid, hnot⟩
    exact ⟨hkey, id, hid, fun hold => hnot (hS id hold)⟩
  | put key v next ih => exact h.elim
  | del key next ih => exact h.elim
  | flushWal next ih => exact h.elim

theorem scans_reachableObjectIds {f : List Bytes → KvProg ℕ} (keys : List Bytes)
    {S : Bytes → Prop} (hf : ∀ ids, Scans (f ids) fun id => S id ∨ id ∈ ids) :
    Scans (reachableObjectIds keys >>= f) S := by
  induction keys generalizing S f with
  | nil =>
    have hnil : Scans (f []) _ := hf []
    exact hnil.anti fun id hid => .inl hid
  | cons key keys ih =>
    rw [reachableObjectIds]
    intro raw
    dsimp only [Bind.bind, KvProg.bind, kvGet]
    cases hmd : raw.bind deserializeMetadata with
    | none =>
      refine ih fun ids => (hf ids).anti ?_
      rintro id ((hS | ⟨md, hmd', -⟩) | hmem)
      · exact .inl hS
      · rw [hmd] at hmd'
        simp at hmd'
      · exact .inr hmem
    | some md =>
      show Scans ((reachableObjectIds keys >>= _) >>= f) _
      rw [KvProg.bind_assoc]
      refine ih fun ids => ?_
      by_cases hstate : md.state = .committed
      · rw [if_pos hstate]
        refine (hf (md.objectId :: ids)).anti ?_
        rintro id ((hS | ⟨md', hmd', -, rfl⟩) | hmem)
        · exact .inl hS
        · obtain rfl := Option.some.inj (hmd.symm.trans hmd')
          exact .inr List.mem_cons_self
        · exact .inr (List.mem_cons_of_mem _ hmem)
      · rw [if_neg hstate]
        refine (hf ids).anti ?_
        rintro id ((hS | ⟨md', hmd', hcommitted, -⟩) | hmem)
        · exact .inl hS
        · obtain rfl := Option.some.inj (hmd.symm.trans hmd')
          exact absurd hcommitted hstate
        · exact .inr hmem

theorem sweeps_deleteUnreachable {f : ℕ → KvProg ℕ} {D : Bytes → Prop} {reachable : List Bytes}
    (keys : List Bytes) (hf : ∀ n, Sweeps D (f n))
    (hD : ∀ key ∈ keys, ∀ id, chunkObjectId key = some id → id ∉ reachable → D key) :
    Sweeps D (deleteUnreachable reachable keys >>= f) := by
  induction keys generalizing f with
  | nil => exact hf 0
  | cons key keys ih =>
    have hrest : ∀ g : ℕ → KvProg ℕ, (∀ n, Sweeps D (g n)) →
        Sweeps D (deleteUnreachable reachable keys >>= g) :=
      fun g hg => ih hg fun key' hkey' => hD key' (List.mem_cons_of_mem key hkey')
    unfold deleteUnreachable
    cases hid : chunkObjectId key with
    | none => exact hrest f hf
    | some id =>
      dsimp only
      split_ifs with hmem
      · exact hrest f hf
      · refine ⟨hD key List.mem_cons_self id hid hmem, fun deleted => ?_⟩
        show Sweeps D ((deleteUnreachable reachable keys >>= _) >>= f)
        rw [KvProg.bind_assoc]
        exact hrest _ fun n => hf _

/-- The collector follows the protocol. -/
theorem scans_garbageCollectChunks (order : List Entry) :
    Scans (garbageCollectChunks order) fun _ => False := by
  refine .inl ⟨rfl, fun metaKeys => ?_⟩
  refine scans_reachableObjectIds metaKeys fun reachable => ?_
  refine .inr ⟨rfl, fun chunkKeys => ?_⟩
  refine sweeps_deleteUnreachable chunkKeys (fun n _ => trivial) fun key hkey id hid hnot => ?_
  refine ⟨hkey, id, hid, ?_⟩
  rintro (hfalse | hmem)
  · exact hfalse
  · exact hnot hmem

section

variable {m m' : Machine} {p p' : KvProg ℕ}

/-- One call of the collector behind its listing of chunks. -/
theorem Sweeps.step {D : Bytes → Prop} (h : Sweeps D p) (hstep : Step m p m' p')
    (hm : m.Working) : Sweeps D p' ∧ p.lists = none ∧ p.getsFrom = none ∧
      ∀ key, ¬ D key → m'.store.map.lookup key = m.store.map.lookup key := by
  cases hstep with
  | get key next => exact h.elim
  | listKeysWithPrefix order₀ order pfx next horder => exact h.elim
  | put key v next => exact h.elim
  | del key next =>
    refine ⟨h.2 _, rfl, rfl, fun key' hkey' => ?_⟩
    rw [(hm.step (.del key)).2]
    refine Finmap.lookup_erase_ne ?_
    rintro rfl
    exact hkey' h.1
  | flushWal next =>
    refine ⟨h _, rfl, rfl, fun key _ => ?_⟩
    rw [(hm.step .flushWal).2]
    rfl

/-- One call of the collector up to its listing of chunks. -/
theorem Scans.step {S : Bytes → Prop} (h : Scans p S) (hstep : Step m p m' p') : m' = m ∧
    ((∃ key, p.getsFrom = some key ∧
        Scans p' fun id => S id ∨ CommittedId (m.store.map.lookup key) id) ∨
      (p.getsFrom = none ∧ Scans p' S) ∨
      (p.getsFrom = none ∧ p.lists = some (str "objchunk:") ∧
        Sweeps (fun key => (str "objchunk:" <+: key ∧ (m.store.map.lookup key).isSome) ∧
          ∃ id, chunkObjectId key = some id ∧ ¬ S id) p')) := by
  cases hstep with
  | get key next => exact ⟨rfl, .inl ⟨key, rfl, h _⟩⟩
  | listKeysWithPrefix order₀ order pfx next horder =>
    refine ⟨rfl, .inr ?_⟩
    obtain ⟨rfl, hnext⟩ | ⟨rfl, hnext⟩ := h
    · exact .inl ⟨rfl, hnext _⟩
    · refine .inr ⟨rfl, rfl, (hnext _).mono ?_⟩
      rintro key ⟨hkey, hid⟩
      exact ⟨(mem_listKeysWithPrefix horder).mp hkey, hid⟩
  | put key v next => exact h.elim
  | del key next => exact h.elim
  | flushWal next => exact h.elim

end

/-! ## Interleavings -/

/-- A collector and a family of puts on one store: what is left of each, the puts that have
written their metadata, the last one first, and those whose metadata the collector found
when it read their key. -/
structure Concurrent (ι : Type) where
  machine : Machine
  collector : KvProg ℕ
  writers : ι → KvProg PutObjectResult
  history : List ι
  seen : ι → Prop

variable {ι : Type} {s : ObjectStore} {puts : ι → PutCall}

/-- Before the first call; the order in the collector's program is one no listing uses. -/
def Concurrent.start (s : ObjectStore) (puts : ι → PutCall) (M : Machine) : Concurrent ι where
  machine := M
  collector := garbageCollectChunks []
  writers := fun i => s.putObject (puts i).req (puts i).idMs (puts i).nowMs
  history := []
  seen := fun _ => False

/-- One call of one of the threads. -/
inductive Interleaves [DecidableEq ι] (s : ObjectStore) (puts : ι → PutCall) :
    Concurrent ι → Concurrent ι → Prop
  | collect {c : Concurrent ι} {M : Machine} {p : KvProg ℕ}
      (h : Step c.machine c.collector M p) :
      Interleaves s puts c { c with
        machine := M
        collector := p
        seen := fun i => c.seen i ∨ c.collector.getsFrom = some (puts i).metaKey ∧
          c.machine.store.map.lookup (puts i).metaKey =
            some (serializeMetadata ((puts i).metadata s)) }
  | write {c : Concurrent ι} {M : Machine} {p : KvProg PutObjectResult} (i : ι)
      (h : Step c.machine (c.writers i) M p) :
      Interleaves s puts c { c with
        machine := M
        writers := Function.update c.writers i p
        history :=
          if (c.writers i).putsTo = some (puts i).metaKey then i :: c.history else c.history }

/-- The last put to the key. -/
def lastPut (puts : ι → PutCall) (history : List ι) (b k : Bytes) : Option ι :=
  history.find? fun i => (puts i).req.bucket = b ∧ (puts i).req.key = k

/-- The put has written its metadata, and another put to its key has done so after it. -/
def Replaced (puts : ι → PutCall) (history : List ι) (i : ι) : Prop :=
  i ∈ history ∧ lastPut puts history (puts i).req.bucket (puts i).req.key ≠ some i

namespace Concurrent

/-- Every put that has returned ok can be read back: `GetObject` finds the bytes of the last
put to its key. -/
def Readable (puts : ι → PutCall) (c : Concurrent ι) : Prop :=
  ∀ i r, c.writers i = .pure r → r.ok = true →
    ∃ j, lastPut puts c.history (puts i).req.bucket (puts i).req.key = some j ∧
      ((getObject (puts i).req.bucket (puts i).req.key).exec c.machine).1.found = true ∧
      ((getObject (puts i).req.bucket (puts i).req.key).exec c.machine).1.data =
        (puts j).req.data

/-- When the collector is about to list the chunks, it has seen every put with a chunk in
the store that was not replaced. -/
def Spares (puts : ι → PutCall) (c : Concurrent ι) : Prop :=
  c.collector.lists = some (str "objchunk:") → ∀ i, ¬ Replaced puts c.history i →
    (∃ n, (c.machine.store.map.lookup (chunkKey (puts i).objectId n)).isSome) → c.seen i

end Concurrent

/-- An interleaving whose steps all start from states that spare. -/
def SparingRun [DecidableEq ι] (s : ObjectStore) (puts : ι → PutCall) :
    Concurrent ι → Concurrent ι → Prop :=
  Relation.ReflTransGen fun c c' => c.Spares puts ∧ Interleaves s puts c c'

/-! ## The invariant -/

/-- The first `n` chunks of the put are there. -/
def PutCall.Intact (s : ObjectStore) (c : PutCall) (m : Map) (n : ℕ) : Prop :=
  ∀ k < n, m.lookup (chunkKey c.objectId k) = some (s.chunkValue c.req.data k)

/-- A put has written some of its chunks, which are there; or it has committed, and is there
if it was not replaced. -/
def Concurrent.Written (s : ObjectStore) (puts : ι → PutCall) (c : Concurrent ι) (i : ι) : Prop :=
  (i ∉ c.history ∧ ∃ n, PutCall.Writes s (puts i) (c.writers i) n ∧
    (puts i).Intact s c.machine.store.map n) ∨
  (i ∈ c.history ∧ PutCall.Finishes (c.writers i) ∧ (¬ Replaced puts c.history i →
    c.machine.store.map.lookup (puts i).metaKey =
        some (serializeMetadata ((puts i).metadata s)) ∧
      (puts i).Intact s c.machine.store.map ((puts i).count s)))

/-- The collector has recorded the ids of the puts it has seen, or deletes nothing of a put
that was not replaced. -/
def Concurrent.Collects (puts : ι → PutCall) (c : Concurrent ι) : Prop :=
  (∃ S, Scans c.collector S ∧ ∀ i, c.seen i → S (puts i).objectId) ∨
  ∃ D, Sweeps D c.collector ∧ ∀ key, D key → family key = str "objchun" ∧
    ∀ i, ¬ Replaced puts c.history i → ∀ n, key ≠ chunkKey (puts i).objectId n

/-- What every state of a sparing run satisfies. -/
structure Concurrent.Keeps (s : ObjectStore) (puts : ι → PutCall) (c : Concurrent ι) : Prop where
  working : c.machine.Working
  written : ∀ i, c.Written s puts i
  collects : c.Collects puts

/-- What is assumed of the puts: different object ids, names without tabs, different joined
names for different keys, and fewer than `2^32` chunks. -/
structure Separate (s : ObjectStore) (puts : ι → PutCall) : Prop where
  objectId : Function.Injective fun i => (puts i).objectId
  tabFree : ∀ i, (puts i).req.TabFree
  names : ∀ i j, (puts i).metaKey = (puts j).metaKey →
    (puts i).req.bucket = (puts j).req.bucket ∧ (puts i).req.key = (puts j).req.key
  size : ∀ i, ((puts i).req.data.length + s.chunkSize - 1) / s.chunkSize < 2 ^ 32

theorem Replaced.cons {history : List ι} {i j : ι} (h : Replaced puts history i)
    (hj : j ∉ history) : Replaced puts (j :: history) i := by
  have hne : j ≠ i := by
    rintro rfl
    exact hj h.1
  refine ⟨List.mem_cons_of_mem j h.1, ?_⟩
  unfold lastPut
  rw [List.find?_cons]
  split
  · exact fun heq => hne (Option.some.inj heq)
  · exact h.2

theorem replaced_of_metaKey_eq (hsep : Separate s puts) {history : List ι} {i j : ι}
    (hi : i ∈ history) (hj : j ∉ history) (hkey : (puts i).metaKey = (puts j).metaKey) :
    Replaced puts (j :: history) i := by
  obtain ⟨hb, hk⟩ := hsep.names i j hkey
  have hne : j ≠ i := by
    rintro rfl
    exact hj hi
  refine ⟨List.mem_cons_of_mem j hi, ?_⟩
  unfold lastPut
  rw [List.find?_cons_of_pos (by simp [hb, hk])]
  exact fun heq => hne (Option.some.inj heq)

theorem PutCall.Intact.congr {c : PutCall} {m m' : Map} {n : ℕ} (h : c.Intact s m n)
    (hm' : ∀ k, m'.lookup (chunkKey c.objectId k) = m.lookup (chunkKey c.objectId k)) :
    c.Intact s m' n := by
  intro k hk
  rw [hm', h k hk]

/-- A step of another thread that leaves a put's entries alone unless it was replaced. -/
theorem Concurrent.Written.frame {c c' : Concurrent ι} {i : ι} (h : c.Written s puts i)
    (hwriter : c'.writers i = c.writers i) (hmem : i ∈ c'.history ↔ i ∈ c.history)
    (hreplaced : Replaced puts c.history i → Replaced puts c'.history i)
    (hchunks : ¬ Replaced puts c'.history i → ∀ n,
      c'.machine.store.map.lookup (chunkKey (puts i).objectId n) =
        c.machine.store.map.lookup (chunkKey (puts i).objectId n))
    (hmeta : ¬ Replaced puts c'.history i → i ∈ c.history →
      c'.machine.store.map.lookup (puts i).metaKey =
        c.machine.store.map.lookup (puts i).metaKey) :
    c'.Written s puts i := by
  unfold Concurrent.Written
  rw [hmem, hwriter]
  refine h.imp ?_ ?_
  · rintro ⟨hnot, n, hwrites, hintact⟩
    refine ⟨hnot, n, hwrites, hintact.congr (hchunks fun hrep => hnot (hmem.mp hrep.1))⟩
  · rintro ⟨hi, hfinishes, hcurrent⟩
    refine ⟨hi, hfinishes, fun hrep => ?_⟩
    obtain ⟨hlook, hintact⟩ := hcurrent fun hold => hrep (hreplaced hold)
    exact ⟨(hmeta hrep hi).trans hlook, hintact.congr (hchunks hrep)⟩

theorem PutCall.deserialize_metadata (hsep : Separate s puts) (i : ι) :
    deserializeMetadata (serializeMetadata ((puts i).metadata s)) = some ((puts i).metadata s) :=
  deserializeMetadata_putMetadata (hsep.tabFree i)

theorem PutCall.objectId_ne (c : PutCall) : c.objectId ≠ [] := by
  simp [PutCall.objectId, makeObjectId]

/-- A call of the collector. -/
theorem Concurrent.Keeps.collect {c : Concurrent ι} (h : c.Keeps s puts) (hsep : Separate s puts)
    (hspares : c.Spares puts) {M : Machine} {p : KvProg ℕ}
    (hstep : Step c.machine c.collector M p) {seen : ι → Prop}
    (hseen : ∀ i, seen i → c.seen i ∨ c.collector.getsFrom = some (puts i).metaKey ∧
      c.machine.store.map.lookup (puts i).metaKey =
        some (serializeMetadata ((puts i).metadata s))) :
    Concurrent.Keeps s puts { c with machine := M, collector := p, seen := seen } := by
  have hworking := hstep.working h.working
  obtain ⟨S, hscans, hS⟩ | ⟨D, hsweeps, hD⟩ := h.collects
  · obtain ⟨rfl, hnext⟩ := hscans.step hstep
    refine ⟨hworking, h.written, ?_⟩
    obtain ⟨key, hkey, hscans'⟩ | ⟨hnone, hscans'⟩ | ⟨hnone, hlists, hsweeps⟩ := hnext
    · refine .inl ⟨_, hscans', fun i hi => ?_⟩
      obtain hold | ⟨hread, hlook⟩ := hseen i hi
      · exact .inl (hS i hold)
      · -- the metadata of the put is what was read
        obtain rfl := Option.some.inj (hkey.symm.trans hread)
        refine .inr ⟨(puts i).metadata s, ?_, rfl, rfl⟩
        rw [hlook, Option.bind_some, PutCall.deserialize_metadata hsep i]
    · refine .inl ⟨S, hscans', fun i hi => ?_⟩
      obtain hold | ⟨hread, -⟩ := hseen i hi
      · exact hS i hold
      · rw [hnone] at hread
        simp at hread
    · refine .inr ⟨_, hsweeps, ?_⟩
      rintro key ⟨⟨hpre, hthere⟩, id, hid, hnot⟩
      refine ⟨family_of_objchunk hpre, ?_⟩
      rintro i hrep n rfl
      rw [chunkObjectId_chunkKey (puts i).objectId_ne] at hid
      obtain rfl := Option.some.inj hid
      exact hnot (hS i (hspares hlists i hrep ⟨n, hthere⟩))
  · obtain ⟨hsweeps', -, hnone, hframe⟩ := hsweeps.step hstep h.working
    refine ⟨hworking, fun i => ?_, .inr ⟨D, hsweeps', hD⟩⟩
    refine (h.written i).frame rfl Iff.rfl (fun hrep => hrep) (fun hrep n => ?_) fun _ _ => ?_
    · exact hframe _ fun hdel => (hD _ hdel).2 i hrep n rfl
    · refine hframe _ fun hdel => ?_
      have hfamily := (hD _ hdel).1
      rw [PutCall.metaKey, family_objectMetaKey] at hfamily
      exact absurd hfamily (by decide)

section

variable [DecidableEq ι] {c : Concurrent ι} {M : Machine} {p : KvProg PutObjectResult} {i : ι}

/-- A call of a put, given what it does to the put itself and to the others. -/
theorem Concurrent.Keeps.of_write (h : c.Keeps s puts) (hM : M.Working) {history : List ι}
    (hreplaced : ∀ j, Replaced puts c.history j → Replaced puts history j)
    (hself : Concurrent.Written s puts { c with
      machine := M, writers := Function.update c.writers i p, history := history } i)
    (hother : ∀ j, j ≠ i → (j ∈ history ↔ j ∈ c.history) ∧ (¬ Replaced puts history j →
      (∀ n, M.store.map.lookup (chunkKey (puts j).objectId n) =
        c.machine.store.map.lookup (chunkKey (puts j).objectId n)) ∧
      (j ∈ c.history → M.store.map.lookup (puts j).metaKey =
        c.machine.store.map.lookup (puts j).metaKey))) :
    Concurrent.Keeps s puts { c with
      machine := M, writers := Function.update c.writers i p, history := history } := by
  refine ⟨hM, fun j => ?_, ?_⟩
  · by_cases hj : j = i
    · subst hj
      exact hself
    · obtain ⟨hmem, hkeep⟩ := hother j hj
      exact (h.written j).frame (Function.update_of_ne hj p c.writers) hmem (hreplaced j)
        (fun hrep => (hkeep hrep).1) fun hrep => (hkeep hrep).2
  · refine h.collects.imp_right ?_
    rintro ⟨D, hsweeps, hD⟩
    exact ⟨D, hsweeps, fun key hkey => ⟨(hD key hkey).1, fun j hrep =>
      (hD key hkey).2 j fun hold => hrep (hreplaced j hold)⟩⟩

theorem metaKey_ne_chunkKey (c : PutCall) (id : Bytes) (n : ℕ) : c.metaKey ≠ chunkKey id n :=
  objectMetaKey_ne_chunkKey _ _ _ _

/-- A call of a put. -/
theorem Concurrent.Keeps.write (h : c.Keeps s puts) (hsep : Separate s puts)
    (hstep : Step c.machine (c.writers i) M p) :
    Concurrent.Keeps s puts { c with
      machine := M
      writers := Function.update c.writers i p
      history :=
        if (c.writers i).putsTo = some (puts i).metaKey then i :: c.history else c.history } := by
  have hM := hstep.working h.working
  obtain ⟨hnot, n, hwrites, hintact⟩ | ⟨hi, hfinishes, hcurrent⟩ := h.written i
  · obtain ⟨hmap, hwrites', hputs⟩ | ⟨hmap, hwrites', hputs⟩ | ⟨rfl, hmap, hfinishes, hputs⟩ :=
      hwrites.step hstep h.working
    · -- a read
      rw [if_neg hputs]
      refine h.of_write hM (fun j hj => hj) (.inl ⟨hnot, n, ?_, ?_⟩) fun j _ =>
        ⟨Iff.rfl, fun _ => ?_⟩
      · simpa using hwrites'
      · exact hintact.congr fun k => by rw [hmap]
      · rw [hmap]
        exact ⟨fun _ => rfl, fun _ => rfl⟩
    · -- a chunk
      rw [if_neg hputs]
      refine h.of_write hM (fun j hj => hj) (.inl ⟨hnot, n + 1, ?_, ?_⟩) fun j hj =>
        ⟨Iff.rfl, fun _ => ⟨fun k => ?_, fun _ => ?_⟩⟩
      · simpa using hwrites'
      · intro k hk
        show M.store.map.lookup _ = _
        rw [hmap]
        by_cases hkn : k = n
        · rw [hkn, Finmap.lookup_insert]
        · rw [Finmap.lookup_insert_of_ne _ fun heq => hkn (chunkKey_inj heq).2]
          exact hintact k (by omega)
      · rw [hmap, Finmap.lookup_insert_of_ne]
        exact fun heq => hj (hsep.objectId (chunkKey_inj heq).1)
      · rw [hmap, Finmap.lookup_insert_of_ne _ (metaKey_ne_chunkKey _ _ _)]
    · -- the metadata
      rw [if_pos hputs]
      refine h.of_write hM (fun j hj => hj.cons hnot) (.inr ⟨List.mem_cons_self, ?_, fun _ =>
        ⟨?_, ?_⟩⟩) fun j hj => ⟨?_, fun hrep => ⟨fun k => ?_, fun hmem => ?_⟩⟩
      · simpa using hfinishes
      · show M.store.map.lookup _ = _
        rw [hmap, Finmap.lookup_insert]
      · refine hintact.congr fun k => ?_
        show M.store.map.lookup _ = _
        rw [hmap, Finmap.lookup_insert_of_ne _ (metaKey_ne_chunkKey _ _ _).symm]
      · simp [hj]
      · rw [hmap, Finmap.lookup_insert_of_ne _ (metaKey_ne_chunkKey _ _ _).symm]
      · rw [hmap, Finmap.lookup_insert_of_ne]
        exact fun heq => hrep (replaced_of_metaKey_eq hsep hmem hnot heq)
  · -- the index entry or the flush
    obtain ⟨hfinishes', hputs, hframe⟩ := hfinishes.step (c := puts i) hstep h.working
    have hchunk : ∀ j k, M.store.map.lookup (chunkKey (puts j).objectId k) =
        c.machine.store.map.lookup (chunkKey (puts j).objectId k) := by
      intro j k
      apply hframe
      rw [family_chunkKey]
      decide
    have hmeta : ∀ j, M.store.map.lookup (puts j).metaKey =
        c.machine.store.map.lookup (puts j).metaKey := by
      intro j
      apply hframe
      rw [PutCall.metaKey, family_objectMetaKey]
      decide
    rw [if_neg hputs]
    refine h.of_write hM (fun j hj => hj) (.inr ⟨hi, ?_, fun hrep => ⟨?_, ?_⟩⟩) fun j _ =>
      ⟨Iff.rfl, fun _ => ⟨hchunk j, fun _ => hmeta j⟩⟩
    · simpa using hfinishes'
    · exact (hmeta i).trans (hcurrent hrep).1
    · exact (hcurrent hrep).2.congr (hchunk i)

/-- A sparing run keeps the invariant. -/
theorem Concurrent.Keeps.run {c c' : Concurrent ι} (h : c.Keeps s puts)
    (hsep : Separate s puts) (hrun : SparingRun s puts c c') : c'.Keeps s puts := by
  induction hrun with
  | refl => exact h
  | tail _ hstep ih =>
    obtain ⟨hspares, hstep⟩ := hstep
    cases hstep with
    | collect hstep => exact ih.collect hsep hspares hstep fun i hi => hi
    | write i hstep => exact ih.write hsep hstep

end

theorem Concurrent.keeps_start (s : ObjectStore) (puts : ι → PutCall) {M : Machine}
    (hM : M.Working) : (Concurrent.start s puts M).Keeps s puts := by
  refine ⟨hM, fun i => .inl ⟨List.not_mem_nil, 0, ?_, ?_⟩, .inl ⟨fun _ => False, ?_,
    fun i hi => hi.elim⟩⟩
  · exact PutCall.writes_putObject s (puts i)
  · intro k hk
    omega
  · exact scans_garbageCollectChunks []

/-- In every state of the invariant the puts that returned can be read back. -/
theorem Concurrent.Keeps.readable {c : Concurrent ι} (h : c.Keeps s puts)
    (hsep : Separate s puts) : c.Readable puts := by
  intro i r hr hok
  obtain ⟨-, n, hwrites, -⟩ | ⟨hi, -, -⟩ := h.written i
  · -- a put does not return ok before it has committed
    rw [hr] at hwrites
    exact absurd (hok.symm.trans hwrites) (by decide)
  · have hsome : (lastPut puts c.history (puts i).req.bucket (puts i).req.key).isSome :=
      List.find?_isSome.mpr ⟨i, hi, by simp⟩
    obtain ⟨j, hj⟩ := Option.isSome_iff_exists.mp hsome
    have hmem : j ∈ c.history := List.mem_of_find?_eq_some hj
    obtain ⟨hb, hk⟩ : (puts j).req.bucket = (puts i).req.bucket ∧
        (puts j).req.key = (puts i).req.key := by
      simpa using List.find?_some hj
    have hlast : ¬ Replaced puts c.history j := by
      rintro ⟨-, hne⟩
      rw [hb, hk] at hne
      exact hne hj
    obtain ⟨hnot, -⟩ | ⟨-, -, hcurrent⟩ := h.written j
    · exact absurd hmem hnot
    obtain ⟨hlook, hintact⟩ := hcurrent hlast
    have hholds : Holds c.machine.store.map (2 ^ 64) (puts j).req.bucket (puts j).req.key
        (some ((puts j).req.data, (puts j).req.contentType)) :=
      ⟨(puts j).metadata s, hlook,
        ⟨tabFree_putMetadata (hsep.tabFree j) s _ _, rfl, (puts j).idMs, UInt64.toNat_lt _, rfl⟩,
        rfl, size_toNat (hsep.size j), rfl, hasChunks_of_chunkValue _ _ (hsep.size j) hintact⟩
    have hgets := getsObject_value hholds
    rw [hb, hk] at hgets
    refine ⟨j, hj, ?_, ?_⟩
    · rw [exec_of_ops_nil ops_getObject]
      exact hgets.found
    · rw [exec_of_ops_nil ops_getObject]
      exact (hgets.contents _ _ rfl).1

/-- **Garbage collection beside writers.** In every interleaving of one collection with any
puts on a working store, with different object ids, names that can be told apart and fewer
than `2^32` chunks each, every put that has returned ok can be read back, if before its
listing of chunks the collector has seen each put that has a chunk in the store and was not
replaced. -/
theorem readable_of_spares [DecidableEq ι] {M : Machine} (hM : M.Working)
    (hsep : Separate s puts) {c : Concurrent ι}
    (hrun : SparingRun s puts (Concurrent.start s puts M) c) : c.Readable puts :=
  ((Concurrent.keeps_start s puts hM).run hsep hrun).readable hsep

/-- One put of one chunk. -/
def onePut (_ : Unit) : PutCall := ⟨{ bucket := str "b", key := str "k", data := [1] }, 6, 7⟩

/-- A store with its bucket. -/
def withBucket : Machine :=
  (smallStore.runCalls [.createBucket (str "b") 5] (Machine.boot (fun _ => none) "/tmp/kv.wal")).2

theorem separate_onePut : Separate smallStore onePut := by
  have hsize : ([1].length + smallStore.chunkSize - 1) / smallStore.chunkSize < 2 ^ 32 := by decide
  have htab : (onePut ()).req.TabFree :=
    ⟨(by decide : tab ∉ str "b"), (by decide : tab ∉ str "k"),
      (by decide : tab ∉ str "application/octet-stream")⟩
  exact ⟨fun _ _ _ => rfl, fun _ => htab, fun _ _ _ => ⟨rfl, rfl⟩, fun _ => hsize⟩

/-- The map when the put has written everything. -/
def putOrder : List Entry :=
  [⟨bucketIndexKey (str "b") (str "k"), (onePut ()).objectId⟩,
    ⟨(onePut ()).metaKey, serializeMetadata ((onePut ()).metadata smallStore)⟩,
    ⟨chunkKey (onePut ()).objectId 0, [1]⟩,
    ⟨bucketMetaKey (str "b"), serializeBucketMeta ⟨str "b", 5⟩⟩]

/-- The theorem at a put that returns before the collector starts. -/
theorem readable_of_spares_onePut : ∃ c : Concurrent Unit,
    SparingRun smallStore onePut (Concurrent.start smallStore onePut withBucket) c ∧
      c.collector.lists = none ∧ c.Readable onePut := by
  have hscan : ∀ c : Concurrent Unit, c.collector.lists ≠ some (str "objchunk:") →
      c.Spares onePut := fun c h hlists => absurd hlists h
  have h₀ : SparingRun smallStore onePut (Concurrent.start smallStore onePut withBucket) _ := .refl
  have h₁ := h₀.tail ⟨hscan _ (by decide), .write () (.get _ _ _)⟩
  have h₂ := h₁.tail ⟨hscan _ (by decide), .write () (.get _ _ _)⟩
  have h₃ := h₂.tail ⟨hscan _ (by decide), .write () (.put _ _ _ _)⟩
  have h₄ := h₃.tail ⟨hscan _ (by decide), .write () (.put _ _ _ _)⟩
  have h₅ := h₄.tail ⟨hscan _ (by decide), .write () (.put _ _ _ _)⟩
  have h₆ := h₅.tail ⟨hscan _ (by decide), .write () (.flushWal _ _)⟩
  have h₇ := h₆.tail ⟨hscan _ (by decide),
    .collect (.listKeysWithPrefix _ _ putOrder _ _ (by decide +kernel))⟩
  have h₈ := h₇.tail ⟨hscan _ (by decide), .collect (.get _ _ _)⟩
  have h₉ := h₈.tail ⟨fun _ i _ _ => .inr ⟨rfl, by cases i; decide +kernel⟩,
    .collect (.listKeysWithPrefix _ _ putOrder _ _ (by decide +kernel))⟩
  refine ⟨_, h₉, by decide +kernel, ?_⟩
  refine readable_of_spares ?_ separate_onePut h₉
  exact (after_eq (Machine.boot_working (fun _ => none) "/tmp/kv.wal")
    ((ObjectCall.createBucket (str "b") 5).prog smallStore)).1

/-- The map when it has written its chunk. -/
def chunkOrder : List Entry :=
  [⟨chunkKey (onePut ()).objectId 0, [1]⟩,
    ⟨bucketMetaKey (str "b"), serializeBucketMeta ⟨str "b", 5⟩⟩]

/-- The collector lists metadata and chunks between the put's chunk and its metadata: it
deletes the chunk, the put returns ok, and `GetObject` finds nothing. -/
theorem not_readable : ¬ ∀ c : Concurrent Unit,
    Relation.ReflTransGen (Interleaves smallStore onePut)
      (Concurrent.start smallStore onePut withBucket) c → c.Readable onePut := by
  intro hall
  have h₀ : Relation.ReflTransGen (Interleaves smallStore onePut)
    (Concurrent.start smallStore onePut withBucket) _ := .refl
  have h₁ := h₀.tail (.write () (.get _ _ _))
  have h₂ := h₁.tail (.write () (.get _ _ _))
  have h₃ := h₂.tail (.write () (.put _ _ _ _))
  have h₄ := h₃.tail (.collect (.listKeysWithPrefix _ _ chunkOrder _ _ (by decide +kernel)))
  have h₅ := h₄.tail (.collect (.listKeysWithPrefix _ _ chunkOrder _ _ (by decide +kernel)))
  have h₆ := h₅.tail (.collect (.del _ _ _))
  have h₇ := h₆.tail (.write () (.put _ _ _ _))
  have h₈ := h₇.tail (.write () (.put _ _ _ _))
  have h₉ := h₈.tail (.write () (.flushWal _ _))
  obtain ⟨-, -, hfound, -⟩ := hall _ h₉ () _ rfl (by decide +kernel)
  revert hfound
  decide +kernel

end KvEngine
