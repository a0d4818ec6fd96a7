import KvEngine.Common.Bytes

/-!
# Maps and logs of map updates

The store's `unordered_map` is a finite map, and a log is a list of updates
applied in order. A key is decided by the last update that names it, so a log
applied to two maps that agree away from its keys gives one map, and re-applying
a log to a map that already has a first part of it gives what applying it once
gives (`applyAll_take_applyAll`). Re-applying a first part of a log to a map that has all
of it changes nothing exactly when no key is updated in two ways (`settled_iff`).
-/

namespace KvEngine

/-- `std::unordered_map<std::string, std::string>`. -/
abbrev Map := Finmap fun _ : Bytes => Bytes

/-- An update of a map, as a log records it. -/
inductive LogOp where
  | put (key value : Bytes)
  | del (key : Bytes)
  deriving DecidableEq

namespace LogOp

/-- The key an update names. -/
def key : LogOp → Bytes
  | put k _ => k
  | del k => k

/-- What the update leaves at its key. -/
def result : LogOp → Option Bytes
  | put _ v => some v
  | del _ => none

/-- `map_[key] = value` or `map_.erase(key)`. -/
def apply (m : Map) : LogOp → Map
  | put k v => m.insert k v
  | del k => m.erase k

@[simp] theorem lookup_apply_key (m : Map) (op : LogOp) :
    (op.apply m).lookup op.key = op.result := by
  cases op <;> simp [apply, key, result]

theorem lookup_apply_of_ne (m : Map) {op : LogOp} {k : Bytes} (h : k ≠ op.key) :
    (op.apply m).lookup k = m.lookup k := by
  cases op with
  | put k' v => exact Finmap.lookup_insert_of_ne _ h
  | del k' => exact Finmap.lookup_erase_ne h

end LogOp

/-- A log applied in order. -/
def applyAll (ops : List LogOp) (m : Map) : Map := ops.foldl LogOp.apply m

@[simp] theorem applyAll_nil (m : Map) : applyAll [] m = m := rfl

@[simp] theorem applyAll_cons (op : LogOp) (ops : List LogOp) (m : Map) :
    applyAll (op :: ops) m = applyAll ops (op.apply m) := rfl

@[simp] theorem applyAll_append (ops ops' : List LogOp) (m : Map) :
    applyAll (ops ++ ops') m = applyAll ops' (applyAll ops m) := by
  simp [applyAll, List.foldl_append]

/-- A key no update names keeps its value. -/
theorem lookup_applyAll_of_not_mem {ops : List LogOp} {k : Bytes}
    (h : k ∉ ops.map LogOp.key) (m : Map) : (applyAll ops m).lookup k = m.lookup k := by
  induction ops generalizing m with
  | nil => rfl
  | cons op ops ih =>
    rw [List.map_cons, List.mem_cons, not_or] at h
    rw [applyAll_cons, ih h.2, LogOp.lookup_apply_of_ne m h.1]

/-- A key the log names has a value that does not depend on the map before. -/
theorem lookup_applyAll_of_mem {ops : List LogOp} {k : Bytes}
    (h : k ∈ ops.map LogOp.key) (m m' : Map) :
    (applyAll ops m).lookup k = (applyAll ops m').lookup k := by
  induction ops generalizing m m' with
  | nil => simp at h
  | cons op ops ih =>
    rw [applyAll_cons, applyAll_cons]
    by_cases hk : k ∈ ops.map LogOp.key
    · exact ih hk _ _
    · have hop : k = op.key := by simpa [hk] using h
      rw [lookup_applyAll_of_not_mem hk, lookup_applyAll_of_not_mem hk, hop,
        LogOp.lookup_apply_key, LogOp.lookup_apply_key]

/-- Two maps that agree on every key the log does not name end up equal. -/
theorem applyAll_congr {ops : List LogOp} {m m' : Map}
    (h : ∀ k, k ∉ ops.map LogOp.key → m.lookup k = m'.lookup k) :
    applyAll ops m = applyAll ops m' := by
  apply Finmap.ext_lookup
  intro k
  by_cases hk : k ∈ ops.map LogOp.key
  · exact lookup_applyAll_of_mem hk m m'
  · rw [lookup_applyAll_of_not_mem hk, lookup_applyAll_of_not_mem hk, h k hk]

/-- Re-applying a log to a map that already has its first `n` updates. -/
theorem applyAll_take_applyAll (ops : List LogOp) (n : ℕ) (m : Map) :
    applyAll ops (applyAll (ops.take n) m) = applyAll ops m := by
  apply applyAll_congr
  intro k hk
  apply lookup_applyAll_of_not_mem
  intro hmem
  rw [List.map_take] at hmem
  exact hk (List.mem_of_mem_take hmem)

/-- Re-applying a log from `a` on to a map that has the updates up to a later `c`. -/
theorem applyAll_drop_applyAll_take {a c : ℕ} (hac : a ≤ c) (ops : List LogOp) (m : Map) :
    applyAll (ops.drop a) (applyAll (ops.take c) m) = applyAll ops m := by
  have htake : ops.take c = ops.take a ++ (ops.drop a).take (c - a) := by
    rw [← List.take_add, Nat.add_sub_cancel' hac]
  calc applyAll (ops.drop a) (applyAll (ops.take c) m)
      = applyAll (ops.drop a) (applyAll (ops.take a) m) := by
        rw [htake, applyAll_append, applyAll_take_applyAll]
    _ = applyAll ops m := by rw [← applyAll_append, List.take_append_drop]

/-- What a log makes of a key depends on what the map before has there only. -/
theorem lookup_applyAll_congr {m m' : Map} {k : Bytes} (h : m.lookup k = m'.lookup k)
    (ops : List LogOp) : (applyAll ops m).lookup k = (applyAll ops m').lookup k := by
  by_cases hk : k ∈ ops.map LogOp.key
  · exact lookup_applyAll_of_mem hk m m'
  · rw [lookup_applyAll_of_not_mem hk, lookup_applyAll_of_not_mem hk, h]

/-- Whatever a log leaves in a map was there before or was put by it. -/
theorem mem_or_of_lookup_applyAll {ops : List LogOp} {m : Map} {k v : Bytes}
    (h : (applyAll ops m).lookup k = some v) : m.lookup k = some v ∨ .put k v ∈ ops := by
  induction ops generalizing m with
  | nil => exact Or.inl h
  | cons op ops ih =>
    rcases ih h with hlook | hmem
    · by_cases hk : k = op.key
      · subst hk
        rw [LogOp.lookup_apply_key] at hlook
        cases op with
        | put k' v' =>
          obtain rfl := Option.some.inj hlook
          exact Or.inr (by simp [LogOp.key])
        | del k' => simp [LogOp.result] at hlook
      · rw [LogOp.lookup_apply_of_ne m hk] at hlook
        exact Or.inl hlook
    · exact Or.inr (List.mem_cons_of_mem _ hmem)

/-- Once a log names a key, its last update of the key decides it. -/
theorem exists_lookup_applyAll {ops : List LogOp} {i : ℕ} {op : LogOp} (h : ops[i]? = some op)
    (m : Map) : ∃ j op', i ≤ j ∧ ops[j]? = some op' ∧ op'.key = op.key ∧
      (applyAll ops m).lookup op.key = op'.result := by
  induction ops using List.reverseRecOn with
  | nil => simp at h
  | append_singleton ops last ih =>
    obtain ⟨hi, -⟩ := List.getElem?_eq_some_iff.mp h
    rw [List.length_append, List.length_singleton] at hi
    rw [applyAll_append, applyAll_cons, applyAll_nil]
    by_cases hkey : last.key = op.key
    · refine ⟨ops.length, last, by omega, List.getElem?_concat_length, hkey, ?_⟩
      rw [← hkey, LogOp.lookup_apply_key]
    · have hlt : i < ops.length := by
        refine (Nat.lt_succ_iff_lt_or_eq.mp hi).resolve_right ?_
        rintro rfl
        rw [List.getElem?_concat_length] at h
        exact hkey (congrArg LogOp.key (Option.some.inj h))
      rw [List.getElem?_append_left hlt] at h
      obtain ⟨j, op', hij, hj, hkey', hlook⟩ := ih h
      have hjlt := (List.getElem?_eq_some_iff.mp hj).1
      refine ⟨j, op', hij, by rw [List.getElem?_append_left hjlt, hj], hkey', ?_⟩
      rw [LogOp.lookup_apply_of_ne _ fun heq => hkey heq.symm, hlook]

/-! ## Logs that update a key in one way only -/

/-- Updates of one key are the same. -/
def Settled (ops : List LogOp) : Prop := ∀ x ∈ ops, ∀ y ∈ ops, x.key = y.key → x = y

instance (ops : List LogOp) : Decidable (Settled ops) :=
  inferInstanceAs (Decidable (∀ x ∈ ops, ∀ y ∈ ops, x.key = y.key → x = y))

theorem LogOp.eq_of_result {x y : LogOp} (hkey : x.key = y.key) (hresult : x.result = y.result) :
    x = y := by
  cases x <;> cases y <;> simp_all [LogOp.key, LogOp.result]

/-- In such a log every update is the last word on its key. -/
theorem Settled.lookup_applyAll {ops : List LogOp} (h : Settled ops) {x : LogOp} (hx : x ∈ ops)
    (m : Map) : (applyAll ops m).lookup x.key = x.result := by
  induction ops using List.reverseRecOn with
  | nil => simp at hx
  | append_singleton ops y ih =>
    rw [applyAll_append, applyAll_cons, applyAll_nil]
    by_cases hkey : x.key = y.key
    · obtain rfl := h x hx y (by simp) hkey
      exact LogOp.lookup_apply_key _ _
    · rw [LogOp.lookup_apply_of_ne _ hkey]
      refine ih (fun a ha b hb => h a (by simp [ha]) b (by simp [hb])) ?_
      rcases List.mem_append.mp hx with hx | hx
      · exact hx
      · exact absurd (congrArg LogOp.key (List.mem_singleton.mp hx)) hkey

/-- Re-applying first parts of a log to a map that has all of it changes nothing exactly
when the log updates each key in one way. -/
theorem settled_iff {ops : List LogOp} {m : Map} (hm : applyAll ops m = m) :
    (∀ n, applyAll (ops.take n) m = m) ↔ Settled ops := by
  constructor
  · intro h x hx y hy hkey
    have hlast : ∀ z ∈ ops, m.lookup z.key = z.result := by
      intro z hz
      obtain ⟨i, hi, rfl⟩ := List.mem_iff_getElem.mp hz
      have hsucc := h (i + 1)
      rw [List.take_succ_eq_append_getElem hi, applyAll_append, applyAll_cons,
        applyAll_nil] at hsucc
      rw [← hsucc, LogOp.lookup_apply_key]
    exact LogOp.eq_of_result hkey (by rw [← hlast x hx, ← hlast y hy, hkey])
  · intro h n
    apply Finmap.ext_lookup
    intro k
    by_cases hk : k ∈ (ops.take n).map LogOp.key
    · obtain ⟨x, hx, rfl⟩ := List.mem_map.mp hk
      have hpart : Settled (ops.take n) := fun a ha b hb =>
        h a (List.mem_of_mem_take ha) b (List.mem_of_mem_take hb)
      have hwhole := h.lookup_applyAll (List.mem_of_mem_take hx) m
      rw [hm] at hwhole
      rw [hpart.lookup_applyAll hx, hwhole]
    · exact lookup_applyAll_of_not_mem hk m

end KvEngine
