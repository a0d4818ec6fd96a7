import KvEngine.Store.Recovery

/-!
# The snapshot text format and `checkpoint`

`save_to_file_unlocked` writes one line `key TAB value NEWLINE` for each entry;
`load_from_file_unlocked` reads whitespace-separated words back in pairs. What is
written survives exactly when keys and values are words.

Results:
* `loadText_saveText`: the text of a map of words is read back, in whatever order
  the entries were written.
* `lookup_loadText_take_iff`: an entry is read from a text cut short exactly when its line
  is in it, but for the newline at most.
* `loadFromFile_saveToFile_iff`: saving and loading gives a map back exactly when all keys and
  values are words.
* `Machine.preservedByCheckpoint_iff`: a checkpoint preserves the map exactly when
  every key and value is nonempty and free of whitespace.
* `not_preservedByCheckpoint_space`: a value with a space in it is lost.
-/

namespace KvEngine

/-! ## Words -/

/-- A string that `in >> s` reads back as a whole. -/
def Token (t : Bytes) : Prop := t ≠ [] ∧ ∀ b ∈ t, isSpace b = false

instance (t : Bytes) : Decidable (Token t) := inferInstanceAs (Decidable (_ ∧ _))

theorem Token.take {t : Bytes} (h : Token t) {n : ℕ} (hn : 0 < n) : Token (t.take n) := by
  refine ⟨?_, fun b hb => h.2 b (List.mem_of_mem_take hb)⟩
  rw [Ne, List.take_eq_nil_iff]
  rintro (rfl | hnil)
  · omega
  · exact h.1 hnil

/-- Whitespace alone yields no word. -/
theorem extract_space {ws : Bytes} (hws : ∀ b ∈ ws, isSpace b = true) : extract ws = none := by
  unfold extract
  rw [List.dropWhile_eq_nil_iff.mpr hws]
  rfl

/-- A word after whitespace, up to the next whitespace or the end. -/
theorem extract_token {ws t rest : Bytes} (hws : ∀ b ∈ ws, isSpace b = true) (ht : Token t)
    (hrest : ∀ b ∈ rest.head?, isSpace b = true) :
    extract (ws ++ (t ++ rest)) = some (t, rest) := by
  have hword : ∀ b ∈ t, (!isSpace b) = true := fun b hb => by rw [ht.2 b hb]; rfl
  have hdrop : (ws ++ (t ++ rest)).dropWhile isSpace = t ++ rest := by
    rw [List.dropWhile_append_of_pos hws]
    obtain ⟨b, t', rfl⟩ := List.exists_cons_of_ne_nil ht.1
    rw [List.cons_append, List.dropWhile_cons_of_neg]
    simp [ht.2 b (by simp)]
  have hstop : rest.takeWhile (!isSpace ·) = [] ∧ rest.dropWhile (!isSpace ·) = rest := by
    cases rest with
    | nil => exact ⟨rfl, rfl⟩
    | cons b rest =>
      have hb : isSpace b = true := hrest b rfl
      simp [hb]
  unfold extract
  rw [hdrop, if_neg (by simp [ht.1]), List.takeWhile_append_of_pos hword,
    List.dropWhile_append_of_pos hword, hstop.1, hstop.2, List.append_nil]

/-- Whatever is read is a word. -/
theorem Token.of_extract {text t rest : Bytes} (h : extract text = some (t, rest)) : Token t := by
  simp only [extract] at h
  split_ifs at h with hnil
  obtain ⟨rfl, -⟩ := Prod.mk.inj (Option.some.inj h)
  constructor
  · obtain ⟨b, l, hl⟩ := List.exists_cons_of_ne_nil hnil
    have hb : isSpace b = false := by
      have := List.head_dropWhile_not isSpace hnil
      simpa [hl] using this
    rw [hl, List.takeWhile_cons, hb]
    simp
  · intro b hb
    have := List.mem_takeWhile_imp hb
    simpa using this

/-! ## Writing and reading back -/

/-- The assignment `map_[k] = v` of an entry. -/
def Entry.op (e : Entry) : LogOp := .put e.1 e.2

/-- The line of an entry. -/
def Entry.line (e : Entry) : Bytes := e.1 ++ [9] ++ e.2 ++ [10]

theorem Entry.length_line (e : Entry) : e.line.length = e.1.length + 1 + e.2.length + 1 := by
  simp only [Entry.line, List.length_append, List.length_singleton]

theorem saveText_cons (e : Entry) (order : List Entry) :
    saveText (e :: order) = e.line ++ saveText order := rfl

theorem saveText_append (order order' : List Entry) :
    saveText (order ++ order') = saveText order ++ saveText order' := by
  simp [saveText]

theorem length_le_length_saveText (order : List Entry) :
    order.length ≤ (saveText order).length := by
  induction order with
  | nil => simp
  | cons e order ih =>
    have hline := e.length_line
    rw [saveText_cons, List.length_append, List.length_cons]
    omega

/-- Both strings of the entry are words. -/
def Entry.IsText (e : Entry) : Prop := Token e.1 ∧ Token e.2

instance (e : Entry) : Decidable e.IsText := inferInstanceAs (Decidable (_ ∧ _))

/-- One round of the loop reads one line. -/
theorem loadLoop_line {e : Entry} (he : e.IsText) {ws : Bytes} (hws : ∀ b ∈ ws, isSpace b = true)
    (fuel : ℕ) (rest : Bytes) (m : Map) :
    loadLoop (fuel + 1) (ws ++ (e.line ++ rest)) m = loadLoop fuel (10 :: rest) (e.op.apply m) := by
  have hk : extract (ws ++ (e.1 ++ 9 :: (e.2 ++ 10 :: rest))) =
      some (e.1, 9 :: (e.2 ++ 10 :: rest)) := extract_token hws he.1 (by simp [isSpace])
  have hv : extract ([9] ++ (e.2 ++ 10 :: rest)) = some (e.2, 10 :: rest) :=
    extract_token (by simp [isSpace]) he.2 (by simp [isSpace])
  have hline : e.line ++ rest = e.1 ++ 9 :: (e.2 ++ 10 :: rest) := by simp [Entry.line]
  simp only [List.singleton_append] at hv
  simp only [loadLoop, hline, hk, hv]
  rfl

/-- No line, no round. -/
theorem loadLoop_space {ws : Bytes} (hws : ∀ b ∈ ws, isSpace b = true) (fuel : ℕ) (m : Map) :
    loadLoop fuel ws m = m := by
  cases fuel with
  | zero => rfl
  | succ fuel => rw [loadLoop, extract_space hws]

/-- A line cut short sets its key to as much of the value as there is, if any. -/
theorem loadLoop_take_line {e : Entry} (he : e.IsText) {ws : Bytes}
    (hws : ∀ b ∈ ws, isSpace b = true) (fuel : ℕ) {n : ℕ} (hn : n < e.line.length) (m : Map) :
    loadLoop (fuel + 1) (ws ++ e.line.take n) m =
      if n ≤ e.1.length + 1 then m else m.insert e.1 (e.2.take (n - (e.1.length + 1))) := by
  rw [Entry.length_line] at hn
  have hnil : extract [] = none := rfl
  by_cases hkey : n ≤ e.1.length
  · have htake : e.line.take n = e.1.take n := by
      simp only [Entry.line, List.append_assoc]
      exact List.take_append_of_le_length hkey
    rw [if_pos (by omega), htake]
    obtain rfl | hpos := Nat.eq_zero_or_pos n
    · rw [List.take_zero, List.append_nil, loadLoop_space hws]
    · -- part of the key is read, then no value
      have hext : extract (ws ++ (e.1.take n ++ [])) = some (e.1.take n, []) :=
        extract_token hws (he.1.take hpos) (by simp)
      rw [List.append_nil] at hext
      simp only [loadLoop, hext, hnil]
  · obtain ⟨j, rfl⟩ : ∃ j, n = (e.1 ++ [9]).length + j :=
      ⟨n - (e.1.length + 1), by simp only [List.length_append, List.length_singleton]; omega⟩
    have htake : e.line.take ((e.1 ++ [9]).length + j) = e.1 ++ 9 :: e.2.take j := by
      have hline : e.line = (e.1 ++ [9]) ++ (e.2 ++ [10]) := by simp [Entry.line]
      rw [List.length_append, List.length_singleton] at hn
      rw [hline, List.take_length_add_append, List.take_append_of_le_length (by omega),
        List.append_assoc, List.singleton_append]
    have hext : extract (ws ++ (e.1 ++ 9 :: e.2.take j)) = some (e.1, 9 :: e.2.take j) :=
      extract_token hws he.1 (by simp [isSpace])
    rw [htake, List.length_append, List.length_singleton]
    obtain rfl | hpos := Nat.eq_zero_or_pos j
    · have hval : extract [9] = none := rfl
      rw [List.take_zero] at hext
      rw [if_pos (by omega)]
      simp only [loadLoop, List.take_zero, hext, hval]
    · -- the key is read with part of its value
      have hval : extract ([9] ++ (e.2.take j ++ [])) = some (e.2.take j, []) :=
        extract_token (by simp [isSpace]) (he.2.take hpos) (by simp)
      simp only [List.append_nil, List.singleton_append] at hval
      rw [if_neg (by omega), Nat.add_sub_cancel_left]
      simp only [loadLoop, hext, hval]
      exact loadLoop_space (List.forall_mem_nil _) _ _

/-- In particular at most its own key. -/
theorem lookup_loadLoop_take_line {e : Entry} (he : e.IsText) {ws : Bytes}
    (hws : ∀ b ∈ ws, isSpace b = true) (fuel : ℕ) {n : ℕ} (hn : n < e.line.length) {k : Bytes}
    (hk : k ≠ e.1) (m : Map) :
    (loadLoop fuel (ws ++ e.line.take n) m).lookup k = m.lookup k := by
  cases fuel with
  | zero => rfl
  | succ fuel =>
    rw [loadLoop_take_line he hws fuel hn]
    split_ifs
    · rfl
    · exact Finmap.lookup_insert_of_ne _ hk

/-- A text cut short leaves every key alone that has no line in it. -/
theorem lookup_loadLoop_take {order : List Entry} (htext : ∀ e ∈ order, e.IsText) {ws : Bytes}
    (hws : ∀ b ∈ ws, isSpace b = true) (fuel n : ℕ) {k : Bytes}
    (hk : k ∉ order.map Sigma.fst) (m : Map) :
    (loadLoop fuel (ws ++ (saveText order).take n) m).lookup k = m.lookup k := by
  induction order generalizing ws fuel n m with
  | nil => simp [saveText, loadLoop_space hws]
  | cons e order ih =>
    rw [List.map_cons, List.mem_cons, not_or] at hk
    have he := htext e (by simp)
    rw [saveText_cons]
    by_cases hn : n < e.line.length
    · rw [List.take_append_of_le_length (by omega)]
      exact lookup_loadLoop_take_line he hws fuel hn hk.1 m
    · cases fuel with
      | zero => rfl
      | succ fuel =>
        rw [List.take_append, List.take_of_length_le (by omega), loadLoop_line he hws]
        have hrest : ∀ x ∈ order, x.IsText := fun x hx => htext x (by simp [hx])
        have hnl : ∀ b ∈ ([10] : Bytes), isSpace b = true := by simp [isSpace]
        have := ih hrest hnl fuel (n - e.line.length) hk.2 (e.op.apply m)
        rw [List.singleton_append] at this
        rw [this]
        exact LogOp.lookup_apply_of_ne m hk.1

/-- The lines that are in a text cut short, but for the newline of the last one at most, are
read in order; the rest of the text only touches keys of the other lines. -/
theorem lookup_loadLoop_take_append {done rest : List Entry}
    (htext : ∀ e ∈ done ++ rest, e.IsText) {ws : Bytes} (hws : ∀ b ∈ ws, isSpace b = true)
    {fuel n : ℕ} (hn : (saveText done).length ≤ n + 1) (hfuel : done.length ≤ fuel) {k : Bytes}
    (hk : k ∉ rest.map Sigma.fst) (m : Map) :
    (loadLoop fuel (ws ++ (saveText (done ++ rest)).take n) m).lookup k =
      (applyAll (done.map Entry.op) m).lookup k := by
  induction done generalizing ws fuel n m with
  | nil => exact lookup_loadLoop_take htext hws fuel n hk m
  | cons e done ih =>
    have he := htext e (by simp)
    rw [saveText_cons, List.length_append] at hn
    rw [List.length_cons] at hfuel
    obtain ⟨fuel, rfl⟩ : ∃ f, fuel = f + 1 := ⟨fuel - 1, by omega⟩
    rw [List.cons_append, saveText_cons]
    by_cases hcut : n < e.line.length
    · -- the newline of the last line is missing
      have hpos := List.length_pos_iff.mpr he.2.1
      have hdone := length_le_length_saveText done
      obtain rfl : done = [] := List.length_eq_zero_iff.mp (by omega)
      rw [Entry.length_line] at hn hcut
      rw [List.take_append_of_le_length (by rw [Entry.length_line]; omega),
        loadLoop_take_line he hws fuel (by rw [Entry.length_line]; omega), if_neg (by omega),
        List.take_of_length_le (by omega)]
      rfl
    · rw [List.take_append, List.take_of_length_le (by omega), loadLoop_line he hws]
      have hrest : ∀ x ∈ done ++ rest, x.IsText := fun x hx => htext x (List.mem_cons_of_mem _ hx)
      have hnl : ∀ b ∈ ([10] : Bytes), isSpace b = true := by simp [isSpace]
      have hshort : (saveText done).length ≤ n - e.line.length + 1 := by omega
      have := ih hrest hnl hshort (by omega : done.length ≤ fuel) (e.op.apply m)
      rw [List.singleton_append] at this
      rw [this]
      rfl

/-- An entry that lacks more of its line than the newline is not read. -/
theorem lookup_loadLoop_take_ne {pre post : List Entry} {e : Entry}
    (htext : ∀ x ∈ pre ++ e :: post, x.IsText) {ws : Bytes} (hws : ∀ b ∈ ws, isSpace b = true)
    (fuel : ℕ) {n : ℕ} (hn : n + 1 < (saveText (pre ++ [e])).length)
    (hpre : e.1 ∉ pre.map Sigma.fst) {m : Map} (hm : m.lookup e.1 ≠ some e.2) :
    (loadLoop fuel (ws ++ (saveText (pre ++ e :: post)).take n) m).lookup e.1 ≠ some e.2 := by
  induction pre generalizing ws fuel n m with
  | nil =>
    cases fuel with
    | zero => exact hm
    | succ fuel =>
      rw [List.nil_append, saveText_cons, List.length_append] at hn
      simp only [saveText, List.flatMap_nil, List.length_nil, Nat.add_zero] at hn
      rw [List.nil_append, saveText_cons, List.take_append_of_le_length (by omega),
        loadLoop_take_line (htext e (by simp)) hws fuel (by omega)]
      rw [Entry.length_line] at hn
      split_ifs with hval
      · exact hm
      · rw [Finmap.lookup_insert]
        intro heq
        have hlen := congrArg List.length (Option.some.inj heq)
        rw [List.length_take] at hlen
        omega
  | cons x pre ih =>
    rw [List.map_cons, List.mem_cons, not_or] at hpre
    have hx := htext x (by simp)
    rw [List.cons_append, saveText_cons, List.length_append] at hn
    rw [List.cons_append, saveText_cons]
    by_cases hcut : n < x.line.length
    · rwa [List.take_append_of_le_length (by omega),
        lookup_loadLoop_take_line hx hws _ hcut hpre.1]
    · cases fuel with
      | zero => exact hm
      | succ fuel =>
        rw [List.take_append, List.take_of_length_le (by omega), loadLoop_line hx hws]
        have hrest : ∀ y ∈ pre ++ e :: post, y.IsText := fun y hy =>
          htext y (List.mem_cons_of_mem _ hy)
        have hnl : ∀ b ∈ ([10] : Bytes), isSpace b = true := by simp [isSpace]
        refine ih hrest hnl fuel (by omega) hpre.2 ?_
        rwa [LogOp.lookup_apply_of_ne m hpre.1]

/-- Loading a text cut short: entries whose lines are in it are read, and only the keys of
the others can differ. -/
theorem lookup_loadText_take {done rest : List Entry} (htext : ∀ e ∈ done ++ rest, e.IsText)
    {n : ℕ} (hn : (saveText done).length ≤ n + 1) {k : Bytes} (hk : k ∉ rest.map Sigma.fst)
    (m : Map) :
    (loadText ((saveText (done ++ rest)).take n) m).lookup k =
      (applyAll (done.map Entry.op) m).lookup k := by
  have hfuel : done.length ≤ ((saveText (done ++ rest)).take n).length := by
    rw [List.length_take, saveText_append, List.length_append]
    cases done with
    | nil => simp
    | cons e done =>
      have hle := length_le_length_saveText done
      have hline := e.length_line
      rw [saveText_cons, List.length_append] at hn ⊢
      rw [List.length_cons]
      omega
  exact lookup_loadLoop_take_append htext (List.forall_mem_nil _) hn hfuel hk m

/-- An entry is read from a text cut short exactly when its line is in it, but for the newline
at most. -/
theorem lookup_loadText_take_iff {pre post : List Entry} {e : Entry}
    (htext : ∀ x ∈ pre ++ e :: post, x.IsText) (hnodup : (pre ++ e :: post).NodupKeys) (n : ℕ) :
    (loadText ((saveText (pre ++ e :: post)).take n) ∅).lookup e.1 = some e.2 ↔
      (saveText (pre ++ [e])).length ≤ n + 1 := by
  have hkeys : ((pre ++ e :: post).map Sigma.fst).Nodup := hnodup
  rw [List.map_append, List.map_cons, List.nodup_middle, List.nodup_cons, List.mem_append,
    not_or] at hkeys
  constructor
  · intro hlook
    by_contra hcut
    exact lookup_loadLoop_take_ne htext (List.forall_mem_nil _) _ (by omega) hkeys.1.1
      (by simp) hlook
  · intro hline
    rw [List.append_cons] at htext ⊢
    rw [lookup_loadText_take htext hline hkeys.1.2, List.map_append, applyAll_append]
    exact LogOp.lookup_apply_key _ e.op

/-- A whole text is read back. -/
theorem loadText_saveText {order : List Entry} (htext : ∀ e ∈ order, e.IsText) (m : Map) :
    loadText (saveText order) m = applyAll (order.map Entry.op) m := by
  apply Finmap.ext_lookup
  intro k
  rw [← List.append_nil order] at htext
  have := lookup_loadText_take htext (Nat.le_succ _) (List.not_mem_nil : k ∉ [].map Sigma.fst) m
  rwa [List.append_nil, List.take_length] at this

/-- Only words are loaded. -/
theorem isText_of_loadLoop {fuel : ℕ} {text : Bytes} {m : Map}
    (hm : ∀ k v, m.lookup k = some v → Token k ∧ Token v) {k v : Bytes}
    (h : (loadLoop fuel text m).lookup k = some v) : Token k ∧ Token v := by
  induction fuel generalizing text m with
  | zero => exact hm k v h
  | succ fuel ih =>
    rw [loadLoop] at h
    cases hkey : extract text with
    | none =>
      rw [hkey] at h
      exact hm k v h
    | some p =>
      obtain ⟨k', text'⟩ := p
      simp only [hkey] at h
      cases hval : extract text' with
      | none =>
        rw [hval] at h
        exact hm k v h
      | some p =>
        obtain ⟨v', text''⟩ := p
        simp only [hval] at h
        refine ih ?_ h
        intro k₀ v₀ h₀
        by_cases heq : k₀ = k'
        · subst heq
          rw [Finmap.lookup_insert] at h₀
          obtain rfl := Option.some.inj h₀
          exact ⟨Token.of_extract hkey, Token.of_extract hval⟩
        · rw [Finmap.lookup_insert_of_ne _ heq] at h₀
          exact hm k₀ v₀ h₀

/-! ## Iterating a map -/

theorem Enumerates.nodupKeys {order : List Entry} {m : Map} (h : Enumerates order m) :
    order.NodupKeys := by
  have := m.nodupKeys
  rwa [h, Multiset.coe_nodupKeys] at this

theorem Enumerates.mem_iff {order : List Entry} {m : Map} (h : Enumerates order m) {k v : Bytes} :
    ⟨k, v⟩ ∈ order ↔ m.lookup k = some v := by
  rw [Finmap.lookup_eq_some_iff, h, Multiset.mem_coe]

/-- The last word on a key is its entry. -/
theorem lookup_applyAll_entries {order : List Entry} (hnodup : order.NodupKeys) {k v : Bytes}
    (h : ⟨k, v⟩ ∈ order) (m : Map) : (applyAll (order.map Entry.op) m).lookup k = some v := by
  induction order generalizing m with
  | nil => simp at h
  | cons e order ih =>
    rw [List.nodupKeys_cons] at hnodup
    rw [List.map_cons, applyAll_cons]
    rcases List.mem_cons.mp h with rfl | h
    · rw [lookup_applyAll_of_not_mem]
      · exact LogOp.lookup_apply_key m _
      · intro hmem
        apply hnodup.1
        simpa [Entry.op, LogOp.key, Function.comp_def, List.mem_keys] using hmem
    · exact ih hnodup.2 h _

/-- Assigning every entry of a map to an empty map rebuilds it. -/
theorem Enumerates.applyAll_entries {order : List Entry} {m : Map} (h : Enumerates order m) :
    applyAll (order.map Entry.op) ∅ = m := by
  apply Finmap.ext_lookup
  intro k
  cases hk : m.lookup k with
  | some v => exact lookup_applyAll_entries h.nodupKeys (h.mem_iff.mpr hk) ∅
  | none =>
    rw [lookup_applyAll_of_not_mem]
    · exact Finmap.lookup_empty k
    · intro hmem
      simp only [List.map_map, List.mem_map] at hmem
      obtain ⟨⟨k', v⟩, he, rfl⟩ := hmem
      have := h.mem_iff.mp he
      simp only [Function.comp_apply, Entry.op, LogOp.key] at hk
      rw [hk] at this
      simp at this

/-! ## The domain of the format -/

/-- What truncating a file and writing a text leaves. -/
theorem Disk.run_rewrite (disk : Disk) (path : Path) (text : Bytes) :
    disk.run (.truncate path :: writes path 0 text) =
      Function.update disk path (some text) := by
  have htrunc : (Effect.truncate path).apply disk path = some [] := by
    simp [Effect.apply]
  have := Disk.run_writes _ path [] text htrunc
  rw [List.length_nil] at this
  rw [Disk.run_cons, this]
  simp [Effect.apply]

/-- **Exact domain of the snapshot format.** A map that is saved, in any iteration order,
and loaded into an empty store comes back exactly when all keys and values are nonempty
and free of whitespace. -/
theorem loadFromFile_saveToFile_iff {m : Map} {order : List Entry} (horder : Enumerates order m)
    {s : KVStore} (hempty : s.map = ∅) (path : Path) (disk : Disk) :
    (KVStore.saveToFile order path []).value = true ∧
      (s.loadFromFile path (disk.run (KVStore.saveToFile order path []).effects) []).1 = true ∧
      ((s.loadFromFile path (disk.run (KVStore.saveToFile order path []).effects) []).2.1.map = m ↔
        ∀ k v, m.lookup k = some v → Token k ∧ Token v) := by
  have hfile : disk.run (KVStore.saveToFile order path []).effects path =
      some (saveText order) := by
    show (disk.run (.truncate path :: writes path 0 (saveText order))) path = _
    rw [Disk.run_rewrite, Function.update_self]
  have hload : s.loadFromFile path (disk.run (KVStore.saveToFile order path []).effects) [] =
      (true, { s with map := loadText (saveText order) ∅ }, []) := by
    simp only [KVStore.loadFromFile, loadFromFileUnlocked, hfile, Schedule.next_nil, hempty]
  rw [hload]
  refine ⟨rfl, rfl, ?_⟩
  constructor
  · intro h k v hlook
    rw [← h] at hlook
    exact isText_of_loadLoop (fun k v hnone => by simp at hnone) hlook
  · intro hall
    have htext : ∀ e ∈ order, e.IsText := fun e he => hall e.1 e.2 (horder.mem_iff.mp he)
    exact (loadText_saveText htext ∅).trans horder.applyAll_entries

/-- A map of two entries. -/
def twoWords : Map := ((∅ : Map).insert (str "a") (str "1")).insert (str "b") (str "2")

/-- The theorem at this map in one of its orders: it comes back. -/
theorem loadFromFile_saveToFile_words :
    (({} : KVStore).loadFromFile "/tmp/s" (Disk.run (fun _ => none)
      (KVStore.saveToFile [⟨str "b", str "2"⟩, ⟨str "a", str "1"⟩] "/tmp/s" []).effects)
        []).2.1.map = twoWords := by
  have horder : Enumerates [⟨str "b", str "2"⟩, ⟨str "a", str "1"⟩] twoWords := by decide +kernel
  refine (loadFromFile_saveToFile_iff horder rfl "/tmp/s" _).2.2.mpr fun k v hlook => ?_
  unfold twoWords at hlook
  by_cases hb : k = str "b"
  · subst hb
    rw [Finmap.lookup_insert] at hlook
    obtain rfl := Option.some.inj hlook
    decide +kernel
  by_cases ha : k = str "a"
  · subst ha
    rw [Finmap.lookup_insert_of_ne _ hb, Finmap.lookup_insert] at hlook
    obtain rfl := Option.some.inj hlook
    decide +kernel
  · rw [Finmap.lookup_insert_of_ne _ hb, Finmap.lookup_insert_of_ne _ ha] at hlook
    simp at hlook

/-! ## Checkpoint -/

/-- The machine after `checkpoint("/tmp/kv.snapshot", walPath)` that iterates the
map in the order `order`. -/
def Machine.checkpoint (m : Machine) (walPath : Path) (order : List Entry) : Machine :=
  let r := m.store.checkpoint snapshotPath walPath order m.disk m.os
  ⟨r.value.2, m.disk.run r.effects, r.os⟩

/-- If the checkpoint returns true and the process then stops, a fresh open finds
the same map. -/
def Machine.PreservedByCheckpoint (m : Machine) (walPath : Path) (order : List Entry) : Prop :=
  (m.store.checkpoint snapshotPath walPath order m.disk m.os).value.1 = true →
    (Machine.boot (m.checkpoint walPath order).disk walPath).store.opened = true ∧
    (Machine.boot (m.checkpoint walPath order).disk walPath).store.map = m.store.map

/-- The file effects of a checkpoint in which every system call succeeds. -/
def checkpointEffects (walPath : Path) (order : List Entry) : List Effect :=
  .truncate snapshotPath :: writes snapshotPath 0 (saveText order) ++
    [.remove walPath, .create walPath]

/-- A checkpoint in which every system call succeeds. -/
theorem KVStore.checkpoint_nil {s : KVStore} (hopen : s.opened = true) (walPath : Path)
    (order : List Entry) (disk : Disk) :
    s.checkpoint snapshotPath walPath order disk [] =
      ⟨(true, { s with wal := { s.wal with path := walPath, fd := some 0, lastGoodOffset := 0 } }),
        checkpointEffects walPath order, []⟩ := by
  simp [KVStore.checkpoint, hopen, saveToFileUnlocked, Wal.open, Wal.close, checkpointEffects,
    Effect.apply]

/-- What truncating and rewriting the snapshot up to byte `n` leaves. -/
theorem Disk.run_take_snapshot (disk : Disk) (order : List Entry) (n : ℕ) :
    disk.run (.truncate snapshotPath :: (writes snapshotPath 0 (saveText order)).take n) =
      Function.update disk snapshotPath (some ((saveText order).take n)) := by
  have htrunc : (Effect.truncate snapshotPath).apply disk snapshotPath = some [] := by
    simp [Effect.apply]
  have := Disk.run_take_writes _ snapshotPath [] (saveText order) htrunc n
  rw [List.length_nil] at this
  rw [Disk.run_cons, this]
  simp [Effect.apply]

/-- The files after a whole checkpoint: the snapshot and an empty log. -/
theorem Disk.run_checkpointEffects (disk : Disk) (walPath : Path) (order : List Entry) :
    disk.run (checkpointEffects walPath order) =
      Function.update (Function.update disk snapshotPath (some (saveText order))) walPath
        (some []) := by
  rw [checkpointEffects, Disk.run_append, Disk.run_rewrite]
  simp [Effect.apply]

/-- The machine after a checkpoint in which every system call succeeds. -/
theorem Machine.checkpoint_eq {m : Machine} (hopen : m.store.opened = true) (hos : m.os = [])
    (walPath : Path) (order : List Entry) :
    m.checkpoint walPath order =
      ⟨{ m.store with
          wal := { m.store.wal with path := walPath, fd := some 0, lastGoodOffset := 0 } },
        Function.update (Function.update m.disk snapshotPath (some (saveText order))) walPath
          (some []), []⟩ := by
  simp only [Machine.checkpoint, hos, KVStore.checkpoint_nil hopen, Disk.run_checkpointEffects]

/-- An open reads the map of a whole snapshot. -/
theorem Enumerates.baseMap_snapshot {order : List Entry} {m : Map} (horder : Enumerates order m)
    (htext : ∀ e ∈ order, e.IsText) (disk : Disk) :
    baseMap (Function.update disk snapshotPath (some (saveText order))) = m := by
  rw [baseMap_of_some (Function.update_self _ _ _), loadText_saveText htext,
    horder.applyAll_entries]

/-- After a checkpoint the snapshot has the map and the log file nothing; the buffer is as
before, and the map has its updates already. -/
theorem Machine.Logged.checkpoint {m : Machine} {path : Path} {old : Bytes} {base : Map}
    {written pending : List WalRecord} (h : m.Logged path old base written pending)
    {order : List Entry} (horder : Enumerates order m.store.map) (htext : ∀ e ∈ order, e.IsText) :
    (m.checkpoint path order).Logged path [] m.store.map [] pending := by
  rw [Machine.checkpoint_eq h.opened h.os]
  refine ⟨h.path_ne, ?_, h.opened, rfl, rfl, by simp, rfl, h.buffer, ?_⟩
  · have hbase : baseMap (Function.update (Function.update m.disk snapshotPath
        (some (saveText order))) path (some [])) = m.store.map := by
      rw [baseMap_update h.path_ne, horder.baseMap_snapshot htext]
    exact hbase
  · have hagain := applyAll_take_applyAll (logOps pending) (logOps pending).length
      (applyAll (logOps written) base)
    rw [List.take_length] at hagain
    have hmap := h.map
    rw [logOps, List.map_append, applyAll_append] at hmap
    rw [List.nil_append, hmap]
    exact hagain.symm

/-- A store opened on no files has no entries. -/
theorem Machine.boot_empty_words (path : Path) (k v : Bytes)
    (h : (Machine.boot (fun _ => none) path).store.map.lookup k = some v) : Token k ∧ Token v := by
  rw [Machine.boot_map, baseMap_of_none rfl] at h
  simp [replay, replayLoop] at h

/-- **Checkpoint preserves the data.** For every opened store, every iteration
order of its map and every log path, a checkpoint in which every file operation
succeeds preserves the map exactly when every key and value is nonempty and free
of whitespace and the log is not the snapshot file itself, unless the map is
empty. -/
theorem Machine.preservedByCheckpoint_iff {m : Machine} (hopen : m.store.opened = true)
    (hos : m.os = []) {order : List Entry} (horder : Enumerates order m.store.map)
    (walPath : Path) :
    m.PreservedByCheckpoint walPath order ↔
      (walPath = snapshotPath → m.store.map = ∅) ∧
        ∀ k v, m.store.map.lookup k = some v → Token k ∧ Token v := by
  have hcheck := KVStore.checkpoint_nil hopen walPath order m.disk
  have hdisk : (m.checkpoint walPath order).disk = Function.update
      (Function.update m.disk snapshotPath (some (saveText order))) walPath (some []) := by
    rw [Machine.checkpoint_eq hopen hos]
  have hmap : (Machine.boot (m.checkpoint walPath order).disk walPath).store.map =
      baseMap (m.checkpoint walPath order).disk := by
    rw [Machine.boot_map, hdisk, Function.update_self]
    rfl
  have hpreserved : m.PreservedByCheckpoint walPath order ↔
      baseMap (m.checkpoint walPath order).disk = m.store.map := by
    simp [Machine.PreservedByCheckpoint, hos, hcheck, hmap]
  rw [hpreserved, hdisk]
  by_cases hpath : walPath = snapshotPath
  · -- the new log replaces the snapshot
    have hbase : baseMap (Function.update (Function.update m.disk snapshotPath
        (some (saveText order))) walPath (some [])) = ∅ := by
      rw [hpath]
      exact baseMap_of_some (Function.update_self _ _ _)
    rw [hbase]
    constructor
    · intro h
      rw [← h]
      exact ⟨fun _ => rfl, fun k v hlook => by simp at hlook⟩
    · rintro ⟨h, -⟩
      exact (h hpath).symm
  · rw [baseMap_update hpath, baseMap_of_some (Function.update_self _ _ _)]
    constructor
    · intro h
      refine ⟨fun hp => absurd hp hpath, fun k v hlook => ?_⟩
      rw [← h] at hlook
      exact isText_of_loadLoop (fun k v hempty => by simp at hempty) hlook
    · rintro ⟨-, htext⟩
      have : ∀ e ∈ order, e.IsText := fun e he => htext e.1 e.2 (horder.mem_iff.mp he)
      rw [loadText_saveText this, horder.applyAll_entries]

/-- The counterexample: a value with a space. -/
theorem not_preservedByCheckpoint_space :
    ¬ ((Machine.boot (fun _ => none) "/tmp/kv.wal").step
      (.put (str "k") (str "a b"))).PreservedByCheckpoint "/tmp/kv.wal"
        [⟨str "k", str "a b"⟩] := by
  intro h
  have hret := h (by decide +kernel)
  have hlost : (Machine.boot ((((Machine.boot (fun _ => none) "/tmp/kv.wal").step
      (.put (str "k") (str "a b"))).checkpoint "/tmp/kv.wal" [⟨str "k", str "a b"⟩]).disk)
      "/tmp/kv.wal").store.map.lookup (str "k") = some (str "a") := by decide +kernel
  rw [hret.2] at hlost
  revert hlost
  decide +kernel

/-- The theorem at a fresh store with one word stored under another. -/
theorem preservedByCheckpoint_word :
    ((Machine.boot (fun _ => none) "/tmp/kv.wal").step
      (.put (str "k") (str "ab"))).PreservedByCheckpoint "/tmp/kv.wal" [⟨str "k", str "ab"⟩] := by
  refine (Machine.preservedByCheckpoint_iff (by decide +kernel) (by decide +kernel)
    (by decide +kernel) _).mpr ⟨fun h => absurd h (by decide), ?_⟩
  have hmap : ((Machine.boot (fun _ => none) "/tmp/kv.wal").step
      (.put (str "k") (str "ab"))).store.map = (∅ : Map).insert (str "k") (str "ab") := by
    decide +kernel
  intro k v hlook
  rw [hmap] at hlook
  by_cases hk : k = str "k"
  · subst hk
    rw [Finmap.lookup_insert] at hlook
    obtain rfl := Option.some.inj hlook
    decide +kernel
  · rw [Finmap.lookup_insert_of_ne _ hk] at hlook
    simp at hlook

end KvEngine
