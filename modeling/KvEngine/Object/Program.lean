import KvEngine.Store.Working

/-!
# Programs over a key-value store

The object store's methods are sequences of calls on a `KVStore`, each of which depends
on what the earlier ones returned. `KvProg` is the type of such programs. A program runs
on a store with its files (`exec`); while system calls succeed, what it returns and which
calls it makes depend on the store's map only (`value`, `ops`).

Results:
* `KvProg.exec_eq`: running on a store is running on its map.
* `KvProg.Always.bind`: what holds of the map after every call, a crash point.
-/

namespace KvEngine

/-! ## Programs -/

/-- A program that calls a store. `order` is the iteration order of the store's map when
it is listed. -/
inductive KvProg (α : Type) where
  | pure (a : α)
  | get (key : Bytes) (next : Option Bytes → KvProg α)
  | listKeysWithPrefix (order : List Entry) (pfx : Bytes) (next : List Bytes → KvProg α)
  | put (key value : Bytes) (next : KvProg α)
  | del (key : Bytes) (next : Bool → KvProg α)
  | flushWal (next : Bool → KvProg α)

namespace KvProg

variable {α β : Type}

/-- One program after the other. -/
def bind (p : KvProg α) (f : α → KvProg β) : KvProg β :=
  match p with
  | .pure a => f a
  | .get key next => .get key fun r => (next r).bind f
  | .listKeysWithPrefix order pfx next => .listKeysWithPrefix order pfx fun r => (next r).bind f
  | .put key value next => .put key value (next.bind f)
  | .del key next => .del key fun r => (next r).bind f
  | .flushWal next => .flushWal fun r => (next r).bind f

instance : Monad KvProg where
  pure := .pure
  bind := .bind

/-! ## Running on a store -/

/-- The program on a store with its files. -/
def exec : KvProg α → Machine → α × Machine
  | .pure a, m => (a, m)
  | .get key next, m => (next (m.store.get key)).exec m
  | .listKeysWithPrefix order pfx next, m => (next (KVStore.listKeysWithPrefix order pfx)).exec m
  | .put key value next, m => next.exec (m.step (.put key value))
  | .del key next, m => (next (m.store.del key m.os).value.1).exec (m.step (.del key))
  | .flushWal next, m => (next (m.store.flushWal m.os).value.1).exec (m.step .flushWal)

/-- One program runs on the store the other left. -/
theorem exec_bind (p : KvProg α) (f : α → KvProg β) (m : Machine) :
    (p >>= f).exec m = (f (p.exec m).1).exec (p.exec m).2 := by
  show (p.bind f).exec m = _
  induction p generalizing m with
  | pure a => rfl
  | get key next ih => exact ih _ m
  | listKeysWithPrefix order pfx next ih => exact ih _ m
  | put key v next ih => exact ih _
  | del key next ih => exact ih _ _
  | flushWal next ih => exact ih _ _

/-! ## Running on a map -/

@[simp] theorem applyOps_nil (m : Map) : applyOps [] m = m := rfl

@[simp] theorem applyOps_append (ops ops' : List Op) (m : Map) :
    applyOps (ops ++ ops') m = applyOps ops' (applyOps ops m) := by
  simp [applyOps]

@[simp] theorem applyOps_put (k v : Bytes) (ops : List Op) (m : Map) :
    applyOps (.put k v :: ops) m = applyOps ops (m.insert k v) := rfl

@[simp] theorem applyOps_del (k : Bytes) (ops : List Op) (m : Map) :
    applyOps (.del k :: ops) m = applyOps ops (m.erase k) := rfl

@[simp] theorem applyOps_flushWal (ops : List Op) (m : Map) :
    applyOps (.flushWal :: ops) m = applyOps ops m := rfl

/-- What the program returns. -/
def value : KvProg α → Map → α
  | .pure a, _ => a
  | .get key next, m => (next (m.lookup key)).value m
  | .listKeysWithPrefix order pfx next, m => (next (KVStore.listKeysWithPrefix order pfx)).value m
  | .put key value next, m => next.value (m.insert key value)
  | .del key next, m => (next (m.lookup key).isSome).value (m.erase key)
  | .flushWal next, m => (next true).value m

/-- The calls it makes that change the store. -/
def ops : KvProg α → Map → List Op
  | .pure _, _ => []
  | .get key next, m => (next (m.lookup key)).ops m
  | .listKeysWithPrefix order pfx next, m => (next (KVStore.listKeysWithPrefix order pfx)).ops m
  | .put key value next, m => .put key value :: next.ops (m.insert key value)
  | .del key next, m => .del key :: (next (m.lookup key).isSome).ops (m.erase key)
  | .flushWal next, m => .flushWal :: (next true).ops m

/-- The map after it. -/
def after (p : KvProg α) (m : Map) : Map := applyOps (p.ops m) m

variable (p : KvProg α) (f : α → KvProg β) (m : Map)

theorem value_ops_bind : (p >>= f).value m = (f (p.value m)).value (p.after m) ∧
    (p >>= f).ops m = p.ops m ++ (f (p.value m)).ops (p.after m) := by
  show (p.bind f).value m = _ ∧ (p.bind f).ops m = _
  unfold after
  induction p generalizing m with
  | pure a => exact ⟨rfl, rfl⟩
  | get key next ih => exact ih _ m
  | listKeysWithPrefix order pfx next ih => exact ih _ m
  | put key v next ih =>
    obtain ⟨hvalue, hops⟩ := ih (m.insert key v)
    exact ⟨hvalue, congrArg (Op.put key v :: ·) hops⟩
  | del key next ih =>
    obtain ⟨hvalue, hops⟩ := ih (m.lookup key).isSome (m.erase key)
    exact ⟨hvalue, congrArg (Op.del key :: ·) hops⟩
  | flushWal next ih =>
    obtain ⟨hvalue, hops⟩ := ih true m
    exact ⟨hvalue, congrArg (Op.flushWal :: ·) hops⟩

@[simp] theorem value_bind : (p >>= f).value m = (f (p.value m)).value (p.after m) :=
  (value_ops_bind p f m).1

@[simp] theorem ops_bind : (p >>= f).ops m = p.ops m ++ (f (p.value m)).ops (p.after m) :=
  (value_ops_bind p f m).2

@[simp] theorem after_bind : (p >>= f).after m = (f (p.value m)).after (p.after m) := by
  rw [after, ops_bind, applyOps_append]
  rfl

@[simp] theorem value_pure (a : α) : (Pure.pure a : KvProg α).value m = a := rfl

@[simp] theorem ops_pure (a : α) : (Pure.pure a : KvProg α).ops m = [] := rfl

@[simp] theorem after_pure (a : α) : (Pure.pure a : KvProg α).after m = m := rfl

/-! ## Single calls -/

/-- `kv_.get(key)`. -/
def kvGet (key : Bytes) : KvProg (Option Bytes) := .get key .pure

/-- `kv_.list_keys_with_prefix(prefix)`. -/
def kvList (order : List Entry) (pfx : Bytes) : KvProg (List Bytes) :=
  .listKeysWithPrefix order pfx .pure

/-- `kv_.put(key, value)`. -/
def kvPut (key value : Bytes) : KvProg Unit := .put key value (.pure ())

/-- `kv_.del(key)`. -/
def kvDel (key : Bytes) : KvProg Bool := .del key .pure

/-- `kv_.flush_wal()`. -/
def kvFlushWal : KvProg Bool := .flushWal .pure

variable (key v pfx : Bytes) (order : List Entry)

@[simp] theorem value_kvGet : (kvGet key).value m = m.lookup key := rfl
@[simp] theorem ops_kvGet : (kvGet key).ops m = [] := rfl
@[simp] theorem after_kvGet : (kvGet key).after m = m := rfl

@[simp] theorem value_kvList :
    (kvList order pfx).value m = KVStore.listKeysWithPrefix order pfx := rfl
@[simp] theorem ops_kvList : (kvList order pfx).ops m = [] := rfl
@[simp] theorem after_kvList : (kvList order pfx).after m = m := rfl

@[simp] theorem ops_kvPut : (kvPut key v).ops m = [.put key v] := rfl
@[simp] theorem after_kvPut : (kvPut key v).after m = m.insert key v := rfl

@[simp] theorem value_kvDel : (kvDel key).value m = (m.lookup key).isSome := rfl
@[simp] theorem ops_kvDel : (kvDel key).ops m = [.del key] := rfl
@[simp] theorem after_kvDel : (kvDel key).after m = m.erase key := rfl

@[simp] theorem value_kvFlushWal : kvFlushWal.value m = true := rfl
@[simp] theorem ops_kvFlushWal : kvFlushWal.ops m = [.flushWal] := rfl
@[simp] theorem after_kvFlushWal : kvFlushWal.after m = m := rfl

/-! ## Every intermediate map -/

/-- `Q` holds of the map before the program and after each of its calls. -/
def Always (Q : Map → Prop) (p : KvProg α) (m : Map) : Prop :=
  ∀ n, Q (applyOps ((p.ops m).take n) m)

variable {p f m key v}
variable {Q Q' : Map → Prop}

theorem Always.after (h : Always Q p m) : Q (p.after m) := by
  have hall := h (p.ops m).length
  rwa [List.take_length] at hall

theorem Always.mono (h : Always Q p m) (hQ : ∀ m, Q m → Q' m) : Always Q' p m :=
  fun n => hQ _ (h n)

/-- A program that changes nothing. -/
theorem Always.of_ops_nil (hops : p.ops m = []) (h : Q m) : Always Q p m := by
  intro n
  rw [hops, List.take_nil]
  exact h

theorem Always.bind (hp : Always Q p m) (hf : Always Q (f (p.value m)) (p.after m)) :
    Always Q (p >>= f) m := by
  intro n
  rw [ops_bind, List.take_append, applyOps_append]
  rcases Nat.lt_or_ge n (p.ops m).length with hlt | hge
  · rw [Nat.sub_eq_zero_of_le (Nat.le_of_lt hlt), List.take_zero]
    exact hp n
  · rw [List.take_of_length_le hge]
    exact hf _

theorem Always.kvPut (h : Q m) (h' : Q (m.insert key v)) : Always Q (kvPut key v) m := by
  intro n
  cases n with
  | zero => exact h
  | succ n => simpa using h'

theorem Always.kvDel (h : Q m) (h' : Q (m.erase key)) : Always Q (kvDel key) m := by
  intro n
  cases n with
  | zero => exact h
  | succ n => simpa using h'

theorem Always.kvFlushWal (h : Q m) : Always Q kvFlushWal m := by
  intro n
  cases n with
  | zero => exact h
  | succ n => simpa using h

/-! ## Stores and their maps -/

/-- Running a program on a working store is running it on the store's map. -/
theorem exec_eq {s : Machine} (h : s.Working) (p : KvProg α) :
    p.exec s = (p.value s.store.map, s.run (p.ops s.store.map)) := by
  induction p generalizing s with
  | pure a => rfl
  | get key next ih => exact ih _ h
  | listKeysWithPrefix order pfx next ih => exact ih _ h
  | put key v next ih =>
    obtain ⟨h', hmap⟩ := h.step (.put key v)
    rw [exec, ih h', hmap]
    rfl
  | del key next ih =>
    obtain ⟨h', hmap⟩ := h.step (.del key)
    rw [exec, ih _ h', hmap, h.del_value]
    rfl
  | flushWal next ih =>
    obtain ⟨h', hmap⟩ := h.step .flushWal
    rw [exec, ih _ h', hmap, h.flushWal_value]
    rfl

/-- A program that only reads needs no working store. -/
theorem exec_of_ops_nil {p : KvProg α} {m : Machine} (h : p.ops m.store.map = []) :
    p.exec m = (p.value m.store.map, m) := by
  induction p with
  | pure a => rfl
  | get key next ih => exact ih _ h
  | listKeysWithPrefix order pfx next ih => exact ih _ h
  | put key v next ih => simp [ops] at h
  | del key next ih => simp [ops] at h
  | flushWal next ih => simp [ops] at h

/-- The store after the program. -/
theorem after_eq {s : Machine} (h : s.Working) (p : KvProg α) :
    (p.exec s).2.Working ∧ (p.exec s).2.store.map = p.after s.store.map := by
  rw [exec_eq h]
  obtain ⟨h', hmap⟩ := h.run (p.ops s.store.map)
  exact ⟨h', hmap⟩

end KvProg

end KvEngine
