import KvEngine.Wal.Log

/-!
# The key-value store

Model of `class KVStore` (`include/kv/kv_store.h`, `src/kv_store.cpp`). Each
method runs under the store's mutex, so it is one function on the whole state.
The iteration order of the `unordered_map` is not determined by its content:
whoever iterates takes the order as an argument, any list of the map's entries
(`Enumerates`).
-/

namespace KvEngine

/-- An entry of the map, as iteration yields it. -/
abbrev Entry := Σ _ : Bytes, Bytes

/-- `order` lists the entries of `m`, each once: a possible iteration order. -/
def Enumerates (order : List Entry) (m : Map) : Prop := m.entries = (order : Multiset Entry)

instance (order : List Entry) (m : Map) : Decidable (Enumerates order m) :=
  inferInstanceAs (Decidable (_ = _))

/-- The fixed path `KVStore::open` loads a snapshot from (line 39). -/
def snapshotPath : Path := "/tmp/kv.snapshot"

/-- `class KVStore` without its mutex. `seq` is a `uint64_t` and
`groupCommitEvery` a positive `int`. -/
structure KVStore where
  map : Map := ∅
  wal : Wal := {}
  seq : ℕ := 0
  opened : Bool := false
  groupCommitEvery : ℕ := 5

/-! ## The snapshot text format -/

/-- `isspace` in the C locale. -/
def isSpace (b : UInt8) : Bool := b = 32 || (9 ≤ b && b ≤ 13)

/-- `in >> s` for a `std::string s`: skip whitespace, then take characters up to
the next whitespace or the end; failure when there is no character to take. -/
def extract (text : Bytes) : Option (Bytes × Bytes) :=
  let rest := text.dropWhile isSpace
  if rest = [] then none
  else some (rest.takeWhile (!isSpace ·), rest.dropWhile (!isSpace ·))

/-- The loop `while (in >> k >> v) map_[k] = v;` (lines 193–195), for at most
`fuel` rounds. -/
def loadLoop : ℕ → Bytes → Map → Map
  | 0, _, m => m
  | fuel + 1, text, m =>
    match extract text with
    | none => m
    | some (k, text) =>
      match extract text with
      | none => m
      | some (v, text) => loadLoop fuel text (m.insert k v)

/-- The whole loop on a text: every round takes at least two characters. -/
def loadText (text : Bytes) (m : Map) : Map := loadLoop text.length text m

/-- The text `save_to_file_unlocked` writes: `out << k << '\t' << v << '\n'` for
each entry in iteration order (lines 202–204). -/
def saveText (order : List Entry) : Bytes :=
  order.flatMap fun e => e.1 ++ [9] ++ e.2 ++ [10]

/-- `KVStore::load_from_file_unlocked` (lines 189–197) on the map. The
`ifstream` is one system call of the schedule: it may fail to open, or stop
early. -/
def loadFromFileUnlocked (m : Map) (path : Path) (disk : Disk) (os : Schedule) :
    Bool × Map × Schedule :=
  match disk path with
  | none => (false, m, os)
  | some text =>
    match os.next with
    | (.error, os) => (false, m, os)
    | (.short n, os) => (true, loadText (text.take n) m, os)
    | (.ok, os) => (true, loadText text m, os)

/-- `KVStore::save_to_file_unlocked` (lines 199–206). Only a failure to open the
file is noticed; the stream is not checked after the writes, so a write that
stops early is reported as success. -/
def saveToFileUnlocked (order : List Entry) (path : Path) (os : Schedule) : Outcome Bool :=
  match os.next with
  | (.error, os) => ⟨false, [], os⟩
  | (_, os) =>
    match os.next with
    | (.error, os) => ⟨true, [.truncate path], os⟩
    | (.short n, os) => ⟨true, .truncate path :: writes path 0 ((saveText order).take n), os⟩
    | (.ok, os) => ⟨true, .truncate path :: writes path 0 (saveText order), os⟩

namespace KVStore

/-! ## The methods -/

/-- `KVStore::open` (lines 32–53). -/
def «open» (s : KVStore) (walPath : Path) (disk : Disk) (os : Schedule) :
    Outcome (Bool × KVStore) :=
  if s.opened then ⟨(true, s), [], os⟩
  else
    let (_, map, os) := loadFromFileUnlocked s.map snapshotPath disk os
    let s := { s with map := map }
    let r := s.wal.open walPath disk os
    let s := { s with wal := r.value.2 }
    if r.value.1 then
      match s.wal.replayInto s.map (disk.run r.effects) with
      | none => ⟨(false, s), r.effects, r.os⟩
      | some (st, wal) =>
        ⟨(true, { s with map := st.map, wal := wal, seq := st.maxSeq, opened := true }),
          r.effects, r.os⟩
    else ⟨(false, s), r.effects, r.os⟩

/-- `KVStore::set_group_commit_every` (lines 55–58). -/
def setGroupCommitEvery (s : KVStore) (n : ℤ) : KVStore :=
  { s with groupCommitEvery := if n ≤ 0 then 1 else n.toNat }

/-- The value of `++seq_`. -/
def nextSeq (s : KVStore) : ℕ := (s.seq + 1) % 2 ^ 64

/-- `KVStore::flush_wal` (lines 216–219). -/
def flushWal (s : KVStore) (os : Schedule) : Outcome (Bool × KVStore) :=
  let r := s.wal.flush os
  ⟨(r.value.1, { s with wal := r.value.2 }), r.effects, r.os⟩

/-- `KVStore::put` (lines 73–93): append to the log, update the map, and flush
when the sequence number is a multiple of the batch size. -/
def put (s : KVStore) (key value : Bytes) (os : Schedule) : Outcome KVStore :=
  if s.opened then
    let n := s.nextSeq
    let s := { s with seq := n }
    match s.wal.appendPut n key value with
    | none => ⟨s, [], os⟩
    | some wal =>
      let s := { s with wal := wal, map := s.map.insert key value }
      if n % s.groupCommitEvery = 0 then
        let r := s.flushWal os
        ⟨r.value.2, r.effects, r.os⟩
      else ⟨s, [], os⟩
  else ⟨s, [], os⟩

/-- `KVStore::get` (lines 95–100). -/
def get (s : KVStore) (key : Bytes) : Option Bytes := s.map.lookup key

/-- `KVStore::del` (lines 102–113): append to the log, flush when due, and only
then erase from the map. Returns whether a key was erased. -/
def del (s : KVStore) (key : Bytes) (os : Schedule) : Outcome (Bool × KVStore) :=
  if s.opened then
    let n := s.nextSeq
    let s := { s with seq := n }
    match s.wal.appendDel n key with
    | none => ⟨(false, s), [], os⟩
    | some wal =>
      let s := { s with wal := wal }
      if n % s.groupCommitEvery = 0 then
        let r := s.flushWal os
        let s := r.value.2
        if r.value.1 then
          ⟨((s.map.lookup key).isSome, { s with map := s.map.erase key }), r.effects, r.os⟩
        else ⟨(false, s), r.effects, r.os⟩
      else ⟨((s.map.lookup key).isSome, { s with map := s.map.erase key }), [], os⟩
  else ⟨(false, s), [], os⟩

/-- `KVStore::size` (lines 115–118). -/
def size (s : KVStore) : ℕ := s.map.keys.card

/-- `KVStore::load_from_file` (lines 160–163). -/
def loadFromFile (s : KVStore) (path : Path) (disk : Disk) (os : Schedule) :
    Bool × KVStore × Schedule :=
  let (ok, map, os) := loadFromFileUnlocked s.map path disk os
  (ok, { s with map := map }, os)

/-- `KVStore::save_to_file` (lines 165–168), which iterates the map in the order `order`. -/
def saveToFile (order : List Entry) (path : Path) (os : Schedule) : Outcome Bool :=
  saveToFileUnlocked order path os

/-- `KVStore::checkpoint` (lines 172–187): write the snapshot, close and remove
the log, open a new one. The log's buffer is not touched. -/
def checkpoint (s : KVStore) (snapshot walPath : Path) (order : List Entry) (disk : Disk)
    (os : Schedule) : Outcome (Bool × KVStore) :=
  if s.opened then
    let saved := saveToFileUnlocked order snapshot os
    if saved.value then
      let s := { s with wal := s.wal.close }
      let (removed, os) := saved.os.next
      let effects := saved.effects ++ if removed = .error then [] else [.remove walPath]
      let r := s.wal.open walPath (disk.run effects) os
      ⟨(r.value.1, { s with wal := r.value.2 }), effects ++ r.effects, r.os⟩
    else ⟨(false, s), saved.effects, saved.os⟩
  else ⟨(false, s), [], os⟩

/-- `KVStore::list_keys_with_prefix` (lines 231–244), for a given iteration
order of the map. -/
def listKeysWithPrefix (order : List Entry) (pfx : Bytes) : List Bytes :=
  (order.map Sigma.fst).filter fun k => pfx.isPrefixOf k

/-- `KVStore::ApplyPut` and `KVStore::ApplyDel` (lines 221–229): the Raft state
machine interface, which does not log. -/
def applyPut (s : KVStore) (key value : Bytes) : KVStore := { s with map := s.map.insert key value }

def applyDel (s : KVStore) (key : Bytes) : KVStore := { s with map := s.map.erase key }

end KVStore

end KvEngine
