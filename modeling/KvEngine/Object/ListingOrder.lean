import KvEngine.Object.Listing

/-!
# The order of a listing

`ListObjects` returns its entries in the order in which the prefix scan finds the index
keys, and that is the iteration order of an `unordered_map`; nothing sorts them.

Results:
* `listObjects_objects`: what a listing returns, in the order of the scan.
* `listingOrder_iff`: the keys increase exactly if the iteration has the index entries in
  that order; they do for every iteration order, and stores with the same objects list
  them alike, exactly if there is at most one object to list.
* `not_listsInOrder`: two objects that the iteration has the other way round.
-/

namespace KvEngine

open KvProg ObjectStore

variable {m : Map} {b pfx : Bytes} {order : List Entry}

/-! ## What is listed -/

/-- What `ListObjects` says of an object key: its metadata, if it is in the index. -/
def listable (m : Map) (b k : Bytes) : Option ObjectListEntry :=
  if (m.lookup (bucketIndexKey b k)).isSome then listedEntry m b k else none

/-- A listing of an existing bucket goes through the index keys in the order of the scan. -/
theorem listObjects_objects {M : Machine} (horder : Enumerates order M.store.map)
    (hexists : ((bucketExists b).exec M).1 = true) (pfx : Bytes) :
    ∃ ks : List Bytes, ks.Nodup ∧
      KVStore.listKeysWithPrefix order (bucketIndexKey b pfx) = ks.map (bucketIndexKey b) ∧
      (∀ k, k ∈ ks ↔ pfx <+: k ∧ (M.store.map.lookup (bucketIndexKey b k)).isSome) ∧
      ((listObjects b pfx order).exec M).1 =
        { ok := true, objects := ks.filterMap (listable M.store.map b) } := by
  obtain ⟨ks, hkeys, hnodup, hks⟩ := exists_indexKeys horder b pfx
  obtain ⟨hnil, hbucket⟩ := bucketExists_exec.mp hexists
  refine ⟨ks, hnodup, hkeys, hks, ?_⟩
  obtain ⟨-, hvalue⟩ := listEntries_eq (m := M.store.map) b ks
  have hlistable : ks.filterMap (listedEntry M.store.map b) =
      ks.filterMap (listable M.store.map b) := by
    apply List.filterMap_congr
    intro k hk
    rw [listable, if_pos ((hks k).mp hk).2]
  rw [exec_of_ops_nil (ops_listObjects horder b pfx), listObjects, if_neg hnil, bucketExists,
    if_neg hnil]
  simp only [value_bind, after_bind, value_kvGet, after_kvGet, value_pure, after_pure, hbucket,
    if_true, value_kvList, after_kvList, hkeys, hvalue, hlistable]

/-- Without the bucket nothing is listed. -/
theorem listObjects_of_not_exists {M : Machine} (horder : Enumerates order M.store.map)
    (hexists : ¬ ((bucketExists b).exec M).1 = true) (pfx : Bytes) :
    ((listObjects b pfx order).exec M).1 =
      { error := if b = [] then str "bucket is empty" else str "bucket does not exist" } := by
  rw [exec_of_ops_nil (ops_listObjects horder b pfx), listObjects]
  split_ifs with hnil
  · rfl
  · rw [bucketExists_exec] at hexists
    have hnone : ¬ (M.store.map.lookup (bucketMetaKey b)).isSome = true :=
      fun h => hexists ⟨hnil, h⟩
    rw [bucketExists, if_neg hnil]
    simp only [value_bind, after_bind, value_kvGet, after_kvGet, value_pure, after_pure, hnone,
      Bool.false_eq_true, if_false]

/-! ## Order -/

/-- The keys of the listing increase. -/
def Increasing (objects : List ObjectListEntry) : Prop :=
  (objects.map ObjectListEntry.key).Pairwise (· < ·)

/-- Where the iteration has the index entries of two objects to list, the one it has first
is the smaller one. -/
def ScansInOrder (m : Map) (b pfx : Bytes) (order : List Entry) : Prop :=
  order.Pairwise fun x y => ∀ k k' e e', x.1 = bucketIndexKey b k → y.1 = bucketIndexKey b k' →
    pfx <+: k → pfx <+: k' → listable m b k = some e → listable m b k' = some e' → e.key < e'.key

/-- There is at most one object to list. -/
def AtMostOne (m : Map) (b pfx : Bytes) : Prop :=
  ∀ k k', pfx <+: k → pfx <+: k' → (listable m b k).isSome → (listable m b k').isSome → k = k'

theorem increasing_iff {ks : List Bytes}
    (hkeys : KVStore.listKeysWithPrefix order (bucketIndexKey b pfx) = ks.map (bucketIndexKey b)) :
    Increasing (ks.filterMap (listable m b)) ↔ ScansInOrder m b pfx order := by
  have hpre : ∀ k, (bucketIndexKey b pfx).isPrefixOf (bucketIndexKey b k) = true ↔ pfx <+: k := by
    intro k
    simp [bucketIndexKey, List.isPrefixOf_iff_prefix, List.prefix_append_right_inj,
      List.cons_prefix_cons]
  have hscan : (ks.map (bucketIndexKey b)).Pairwise (fun x y => ∀ k k' e e',
        x = bucketIndexKey b k → y = bucketIndexKey b k' → listable m b k = some e →
          listable m b k' = some e' → e.key < e'.key) ↔
      Increasing (ks.filterMap (listable m b)) := by
    rw [Increasing, List.pairwise_map, List.pairwise_map, List.pairwise_filterMap]
    apply List.Pairwise.iff
    intro k k'
    constructor
    · intro h e he e' he'
      exact h k k' e e' rfl rfl he he'
    · rintro h k₁ k₁' e e' hk hk' he he'
      obtain rfl := bucketIndexKey_injective b hk
      obtain rfl := bucketIndexKey_injective b hk'
      exact h e he e' he'
  rw [← hscan, ← hkeys, KVStore.listKeysWithPrefix, List.pairwise_filter, List.pairwise_map]
  apply List.Pairwise.iff
  intro x y
  constructor
  · intro h k k' e e' hx hy hk hk' he he'
    exact h (hx ▸ (hpre k).mpr hk) (hy ▸ (hpre k').mpr hk') k k' e e' hx hy he he'
  · intro h hx hy k k' e e' hk hk' he he'
    exact h k k' e e' hk hk' ((hpre k).mp (hk ▸ hx)) ((hpre k').mp (hk' ▸ hy)) he he'

/-- Entries in increasing order are determined by which they are. -/
theorem Increasing.eq_of_perm {l l' : List ObjectListEntry} (h : Increasing l) (h' : Increasing l')
    (hperm : l.Perm l') : l = l' := by
  rw [Increasing, List.pairwise_map] at h h'
  refine List.Perm.eq_of_pairwise (fun e e' _ _ hlt hgt => ?_) h h' hperm
  exact absurd hgt (List.lt_asymm hlt)

/-- Stores with the same objects to list have the same entries for them. -/
theorem perm_of_listable {m' : Map} {ks ks' : List Bytes} (hnodup : ks.Nodup) (hnodup' : ks'.Nodup)
    (hks : ∀ k, k ∈ ks ↔ pfx <+: k ∧ (m.lookup (bucketIndexKey b k)).isSome)
    (hks' : ∀ k, k ∈ ks' ↔ pfx <+: k ∧ (m'.lookup (bucketIndexKey b k)).isSome)
    (hsame : ∀ k, pfx <+: k → listable m' b k = listable m b k) :
    (ks.filterMap (listable m b)).Perm (ks'.filterMap (listable m' b)) := by
  have hlive : ∀ {m : Map} {k : Bytes}, (listable m b k).isSome →
      (m.lookup (bucketIndexKey b k)).isSome := by
    intro m k h
    unfold listable at h
    split_ifs at h with hindex
    · exact hindex
    · simp at h
  have hdrop : ∀ (m : Map) (ks : List Bytes), ks.filterMap (listable m b) =
      (ks.filter fun k => (listable m b k).isSome).filterMap (listable m b) := by
    intro m ks
    rw [List.filterMap_filter]
    apply List.filterMap_congr
    intro k _
    cases listable m b k <;> simp
  have hfilter : (ks.filter fun k => (listable m b k).isSome).Perm
      (ks'.filter fun k => (listable m' b k).isSome) := by
    rw [List.perm_ext_iff_of_nodup (hnodup.filter _) (hnodup'.filter _)]
    intro k
    rw [List.mem_filter, List.mem_filter, hks, hks']
    constructor
    · rintro ⟨⟨hpre, -⟩, hlisted⟩
      rw [← hsame k hpre] at hlisted
      exact ⟨⟨hpre, hlive hlisted⟩, hlisted⟩
    · rintro ⟨⟨hpre, -⟩, hlisted⟩
      rw [hsame k hpre] at hlisted
      exact ⟨⟨hpre, hlive hlisted⟩, hlisted⟩
  have hcongr : (ks'.filter fun k => (listable m' b k).isSome).filterMap (listable m' b) =
      (ks'.filter fun k => (listable m' b k).isSome).filterMap (listable m b) := by
    apply List.filterMap_congr
    intro k hk
    exact hsame k ((hks' k).mp (List.mem_filter.mp hk).1).1
  rw [hdrop m ks, hdrop m' ks', hcongr]
  exact hfilter.filterMap _

/-! ## Listings -/

/-- The stores have the same objects to list. -/
def SameObjects (M M' : Machine) (b pfx : Bytes) : Prop :=
  ((bucketExists b).exec M').1 = ((bucketExists b).exec M).1 ∧
    ∀ k, pfx <+: k → listable M'.store.map b k = listable M.store.map b k

/-- Whatever the iteration order, the keys of the listing increase, and every store with the
same objects lists them alike. -/
def ListsInOrder (M : Machine) (b pfx : Bytes) : Prop :=
  ∀ order, Enumerates order M.store.map →
    Increasing ((listObjects b pfx order).exec M).1.objects ∧
      ∀ M' order', Enumerates order' M'.store.map → SameObjects M M' b pfx →
        ((listObjects b pfx order').exec M').1.objects =
          ((listObjects b pfx order).exec M).1.objects

variable {M : Machine}

theorem increasing_listObjects_iff (horder : Enumerates order M.store.map) (b pfx : Bytes) :
    Increasing ((listObjects b pfx order).exec M).1.objects ↔
      (((bucketExists b).exec M).1 = true → ScansInOrder M.store.map b pfx order) := by
  by_cases hexists : ((bucketExists b).exec M).1 = true
  · obtain ⟨ks, -, hkeys, -, hlist⟩ := listObjects_objects horder hexists pfx
    rw [hlist, forall_prop_of_true hexists]
    exact increasing_iff hkeys
  · rw [listObjects_of_not_exists horder hexists pfx]
    exact iff_of_true List.Pairwise.nil fun h => absurd h hexists

/-- The iteration may have two entries either way round. -/
theorem exists_enumerates_swap {x y : Entry} (hx : x ∈ m.entries) (hy : y ∈ m.entries)
    (hne : x ≠ y) : ∃ rest, Enumerates (x :: y :: rest) m ∧ Enumerates (y :: x :: rest) m := by
  obtain ⟨t, ht⟩ := Multiset.exists_cons_of_mem hx
  rw [ht, Multiset.mem_cons] at hy
  obtain ⟨u, hu⟩ := Multiset.exists_cons_of_mem (hy.resolve_left hne.symm)
  have hrest : (u.toList : Multiset Entry) = u := u.coe_toList
  refine ⟨u.toList, ?_, ?_⟩
  · rw [Enumerates, ht, hu, ← Multiset.cons_coe, ← Multiset.cons_coe, hrest]
  · rw [Enumerates, ht, hu, ← Multiset.cons_coe, ← Multiset.cons_coe, hrest, Multiset.cons_swap]

/-- Two objects to list have entries in the index. -/
theorem exists_indexEntry {k : Bytes} (h : (listable m b k).isSome) :
    ∃ e, listable m b k = some e ∧ ∃ id, (⟨bucketIndexKey b k, id⟩ : Entry) ∈ m.entries := by
  obtain ⟨e, he⟩ := Option.isSome_iff_exists.mp h
  refine ⟨e, he, ?_⟩
  unfold listable at he
  split_ifs at he with hindex
  obtain ⟨id, hid⟩ := Option.isSome_iff_exists.mp hindex
  exact ⟨id, Finmap.mem_lookup_iff.mp hid⟩

theorem ListsInOrder.atMostOne (h : ListsInOrder M b pfx)
    (hexists : ((bucketExists b).exec M).1 = true) : AtMostOne M.store.map b pfx := by
  intro k k' hk hk' hlive hlive'
  by_contra hne
  obtain ⟨e, he, id, hx⟩ := exists_indexEntry hlive
  obtain ⟨e', he', id', hy⟩ := exists_indexEntry hlive'
  have hxy : (⟨bucketIndexKey b k, id⟩ : Entry) ≠ ⟨bucketIndexKey b k', id'⟩ := by
    intro heq
    exact hne (bucketIndexKey_injective b (congrArg Sigma.fst heq))
  obtain ⟨rest, horder, hswapped⟩ := exists_enumerates_swap hx hy hxy
  have hscan := (increasing_listObjects_iff horder b pfx).mp (h _ horder).1 hexists
  have hscan' := (increasing_listObjects_iff hswapped b pfx).mp (h _ hswapped).1 hexists
  have hlt : e.key < e'.key :=
    List.rel_of_pairwise_cons hscan List.mem_cons_self k k' e e' rfl rfl hk hk' he he'
  have hgt : e'.key < e.key :=
    List.rel_of_pairwise_cons hscan' List.mem_cons_self k' k e' e rfl rfl hk' hk he' he
  exact List.lt_asymm hlt hgt

/-- At most one object is listed alike in any order. -/
theorem AtMostOne.scansInOrder (h : AtMostOne m b pfx) (horder : Enumerates order m) :
    ScansInOrder m b pfx order := by
  have hnodup : (order.map Sigma.fst).Nodup := horder.nodupKeys
  rw [List.Nodup, List.pairwise_map] at hnodup
  refine hnodup.imp ?_
  intro x y hne k k' e e' hx hy hk hk' he he'
  obtain rfl := h k k' hk hk' (by rw [he]; rfl) (by rw [he']; rfl)
  exact absurd (hx.trans hy.symm) hne

theorem SameObjects.atMostOne {M' : Machine} (hsame : SameObjects M M' b pfx)
    (h : AtMostOne M.store.map b pfx) : AtMostOne M'.store.map b pfx := by
  intro k k' hk hk' hlive hlive'
  rw [hsame.2 k hk] at hlive
  rw [hsame.2 k' hk'] at hlive'
  exact h k k' hk hk' hlive hlive'

/-- Stores with the same objects answer alike up to the order of the entries. -/
theorem SameObjects.listObjects_perm {M' : Machine} {order' : List Entry}
    (hsame : SameObjects M M' b pfx) (horder : Enumerates order M.store.map)
    (horder' : Enumerates order' M'.store.map) :
    ((listObjects b pfx order').exec M').1.ok = ((listObjects b pfx order).exec M).1.ok ∧
      ((listObjects b pfx order').exec M').1.error = ((listObjects b pfx order).exec M).1.error ∧
      ((listObjects b pfx order').exec M').1.objects.Perm
        ((listObjects b pfx order).exec M).1.objects := by
  by_cases hexists : ((bucketExists b).exec M).1 = true
  · have hexists' : ((bucketExists b).exec M').1 = true := hsame.1.trans hexists
    obtain ⟨ks, hnodup, -, hks, hlist⟩ := listObjects_objects horder hexists pfx
    obtain ⟨ks', hnodup', -, hks', hlist'⟩ := listObjects_objects horder' hexists' pfx
    rw [hlist, hlist']
    exact ⟨rfl, rfl, (perm_of_listable hnodup hnodup' hks hks' hsame.2).symm⟩
  · rw [listObjects_of_not_exists horder hexists pfx,
      listObjects_of_not_exists horder' (hsame.1 ▸ hexists) pfx]
    exact ⟨rfl, rfl, List.Perm.refl _⟩

/-- **Listings in order.** On every store the listing of a bucket increases exactly if the
iteration has the index entries of its objects in that order; it does for every iteration
order, with every store with the same objects listing them alike, exactly if there is at
most one object to list. -/
theorem listingOrder_iff (M : Machine) (b pfx : Bytes) :
    (∀ order, Enumerates order M.store.map →
      (Increasing ((listObjects b pfx order).exec M).1.objects ↔
        (((bucketExists b).exec M).1 = true → ScansInOrder M.store.map b pfx order))) ∧
    (ListsInOrder M b pfx ↔
      (((bucketExists b).exec M).1 = true → AtMostOne M.store.map b pfx)) := by
  refine ⟨fun order horder => increasing_listObjects_iff horder b pfx,
    fun h => h.atMostOne, fun hone order horder => ?_⟩
  have hinc := (increasing_listObjects_iff horder b pfx).mpr fun h => (hone h).scansInOrder horder
  refine ⟨hinc, fun M' order' horder' hsame => ?_⟩
  obtain ⟨-, -, hperm⟩ := hsame.listObjects_perm horder horder'
  refine Increasing.eq_of_perm ?_ hinc hperm
  rw [increasing_listObjects_iff horder']
  intro hexists'
  exact (hsame.atMostOne (hone (hsame.1 ▸ hexists'))).scansInOrder horder'

/-- A bucket with the objects `j` and `k`. -/
def twoObjects : Machine :=
  (smallStore.runCalls [.createBucket (str "b") 5,
    .putObject { bucket := str "b", key := str "j", data := [1] } 6 7,
    .putObject { bucket := str "b", key := str "k", data := [2] } 8 9]
    (Machine.boot (fun _ => none) "/tmp/kv.wal")).2

/-- An iteration that has `k` before `j`. -/
def laterFirst : List Entry :=
  [⟨bucketIndexKey (str "b") (str "k"), makeObjectId (str "b") (str "k") 8⟩,
    ⟨bucketIndexKey (str "b") (str "j"), makeObjectId (str "b") (str "j") 6⟩,
    ⟨objectMetaKey (str "b") (str "k"), serializeMetadata
      (smallStore.putMetadata { bucket := str "b", key := str "k", data := [2] } 8 9)⟩,
    ⟨objectMetaKey (str "b") (str "j"), serializeMetadata
      (smallStore.putMetadata { bucket := str "b", key := str "j", data := [1] } 6 7)⟩,
    ⟨chunkKey (makeObjectId (str "b") (str "k") 8) 0, [2]⟩,
    ⟨chunkKey (makeObjectId (str "b") (str "j") 6) 0, [1]⟩,
    ⟨bucketMetaKey (str "b"), serializeBucketMeta ⟨str "b", 5⟩⟩]

/-- The listing has `k` before `j` too. -/
theorem not_listsInOrder : ¬ ListsInOrder twoObjects (str "b") [] := by
  have horder : Enumerates laterFirst twoObjects.store.map := by decide +kernel
  intro h
  obtain ⟨hinc, -⟩ := h laterFirst horder
  rw [Increasing] at hinc
  revert hinc
  decide +kernel

end KvEngine
