import KvEngine.Raft.Reads
import KvEngine.Store.Snapshot

/-!
# Applying a log again

A restarted `RaftNode` begins with `last_applied_ = 0` and hands all entries to the same
`KVStore` again; `open` replays a log of which the snapshot may have the first records.
On the way the store goes back to earlier values. In the end every key is decided by the
last entry that names it.

Results:
* `RaftNode.applyTurns_eq`: what any number of turns of `ApplyLoop` hand over.
* `reapply_converges`: entries 1 to `n` on a store that has the first `m` of them, and
  the records of a log on a snapshot that has the first `m`, leave the map that the
  whole makes of the map at the start.
-/

namespace KvEngine

variable {ι : Type}

/-! ## The apply loop alone -/

theorem KVStore.map_applyEntry (s : KVStore) (e : LogEntry) :
    (s.applyEntry e).map = e.logOp.apply s.map := by
  unfold KVStore.applyEntry LogEntry.logOp
  cases e.op <;> rfl

/-- Entries handed over in order. -/
def KVStore.applyEntries (s : KVStore) (es : List LogEntry) : KVStore :=
  es.foldl KVStore.applyEntry s

theorem KVStore.applyEntries_concat (s : KVStore) (es : List LogEntry) (e : LogEntry) :
    s.applyEntries (es ++ [e]) = (s.applyEntries es).applyEntry e :=
  List.foldl_concat _ _ _ _

theorem KVStore.map_applyEntries (s : KVStore) (es : List LogEntry) :
    (s.applyEntries es).map = applyAll (es.map LogEntry.logOp) s.map := by
  induction es generalizing s with
  | nil => rfl
  | cons e es ih =>
    show ((s.applyEntry e).applyEntries es).map = _
    rw [ih, s.map_applyEntry]
    rfl

namespace RaftNode

/-- One turn of `ApplyLoop` (lines 494–517) on a node and its state machine, nothing else
running. Past the end of the log the code reads out of bounds. -/
def applyTurn (x : RaftNode ι × KVStore) : RaftNode ι × KVStore :=
  if x.1.lastApplied < x.1.commitIndex then
    match x.1.log[x.1.lastApplied]? with
    | some e => ({ x.1 with lastApplied := x.1.lastApplied + 1 }, x.2.applyEntry e)
    | none => x
  else x

/-- The node and the state machine after `j` turns. -/
def applyTurns (n : RaftNode ι) (s : KVStore) (j : ℕ) : RaftNode ι × KVStore :=
  applyTurn^[j] (n, s)

/-- The turns hand over the entries behind the last one applied, up to the commit index. -/
theorem applyTurns_eq {n : RaftNode ι} (hle : n.lastApplied ≤ n.commitIndex)
    (hlog : n.commitIndex ≤ n.log.length) (s : KVStore) (j : ℕ) :
    n.applyTurns s j =
      ({ n with lastApplied := min (n.lastApplied + j) n.commitIndex },
        s.applyEntries
          ((n.log.take (min (n.lastApplied + j) n.commitIndex)).drop n.lastApplied)) := by
  induction j with
  | zero =>
    rw [Nat.add_zero, min_eq_left hle, List.drop_take, Nat.sub_self]
    rfl
  | succ j ih =>
    rw [applyTurns, Function.iterate_succ_apply', ← applyTurns, ih]
    by_cases hlt : n.lastApplied + j < n.commitIndex
    · rw [min_eq_left hlt.le, min_eq_left (show n.lastApplied + (j + 1) ≤ n.commitIndex by omega)]
      have hget : n.log[n.lastApplied + j]? = some n.log[n.lastApplied + j] :=
        List.getElem?_eq_getElem (by omega)
      have hnext : (n.log.take (n.lastApplied + (j + 1))).drop n.lastApplied =
          (n.log.take (n.lastApplied + j)).drop n.lastApplied ++ [n.log[n.lastApplied + j]] := by
        rw [← Nat.add_assoc, List.take_succ_eq_append_getElem (by omega),
          List.drop_append_of_le_length (by rw [List.length_take]; omega)]
      rw [applyTurn, if_pos hlt, hnext, KVStore.applyEntries_concat]
      simp only [hget, Nat.add_assoc]
    · have hdone : ∀ i, j ≤ i → min (n.lastApplied + i) n.commitIndex = n.commitIndex := by
        intro i hi
        omega
      rw [hdone j le_rfl, hdone (j + 1) (by omega), applyTurn, if_neg (lt_irrefl _)]

end RaftNode

/-- A node that begins with the first entry has handed over all when its commit index has
come to their end. -/
theorem RaftNode.applyTurns_of_prefix {n : RaftNode ι} {es : List LogEntry}
    (hstart : n.lastApplied = 0) (hcommit : n.commitIndex = es.length) (hlog : es <+: n.log)
    (s : KVStore) {j : ℕ} (hj : es.length ≤ j) :
    (n.applyTurns s j).2 = s.applyEntries es := by
  have hlen : n.commitIndex ≤ n.log.length := by rw [hcommit]; exact hlog.length_le
  rw [applyTurns_eq (by omega) hlen, hstart, hcommit, Nat.zero_add, min_eq_right hj,
    List.drop_zero, ← List.prefix_iff_eq_take.mp hlog]

variable [DecidableEq ι] in
/-- A turn is two steps of the apply thread in the cluster. -/
theorem run_applyTurn {cfg : Config ι} {c : Cluster ι} {v : ι} {e : LogEntry} (s : KVStore)
    (hth : c.apply v = .sleeping) (hlt : (c.nodes v).lastApplied < (c.nodes v).commitIndex)
    (hget : (c.nodes v).log[(c.nodes v).lastApplied]? = some e) :
    ∃ c', c.run cfg (fun _ _ => True) [.applyTake v, .applyRun v] = some c' ∧
      (c'.nodes v, c'.storeOf s v) = RaftNode.applyTurn (c.nodes v, c.storeOf s v) ∧
      c'.apply v = .sleeping := by
  have htake : c.step cfg (.applyTake v) = some ((c.setNode v
      { c.nodes v with lastApplied := (c.nodes v).lastApplied + 1 }).setApply v
        (.holding ((c.nodes v).lastApplied + 1) e)) := by
    simp only [Cluster.step, hth, if_pos hlt, hget]
  simp only [Cluster.run, htake, if_true]
  simp only [Cluster.step, Cluster.setApply, Cluster.setNode, Function.update_self]
  refine ⟨_, rfl, ?_, Function.update_self _ _ _⟩
  rw [RaftNode.applyTurn, if_pos hlt]
  simp only [hget, Cluster.storeOf, Function.update_self, List.foldl_concat]

/-! ## Twice -/

/-- In every run of the cluster and every later one of the restarted node: what was handed
over first is handed over again on top of it. -/
theorem reapply_storeOf (c c' : Cluster ι) (v : ι) (s : KVStore)
    (hpre : (c.applied v).map Prod.snd <+: (c'.applied v).map Prod.snd) :
    (c'.storeOf (c.storeOf s v) v).map = (c'.storeOf s v).map := by
  have hops : ∀ d : Cluster ι, (d.applied v).map (fun x => x.2.logOp) =
      ((d.applied v).map Prod.snd).map LogEntry.logOp := fun d => by rw [List.map_map]; rfl
  rw [Cluster.map_storeOf, Cluster.map_storeOf, Cluster.map_storeOf, hops, hops,
    List.prefix_iff_eq_take.mp hpre, List.map_take]
  exact applyAll_take_applyAll _ _ _

/-- **Re-applying a committed log converges.** A node hands its first `m` entries to a store;
a restarted one hands all to the same store: the map is what one application of all makes
of the map at the start. So it is when a store is opened on a snapshot that loads as what
the first `m` updates of the log's records make of a map. -/
theorem reapply_converges (es : List LogEntry) {m : ℕ} (hm : m ≤ es.length) :
    (∀ (s : KVStore) (n n' : RaftNode ι) (i j : ℕ), n.lastApplied = 0 → n.commitIndex = m →
      es.take m <+: n.log → m ≤ i → n'.lastApplied = 0 → n'.commitIndex = es.length →
      es <+: n'.log → es.length ≤ j →
        (n.applyTurns s i).2 = s.applyEntries (es.take m) ∧
        (n'.applyTurns (n.applyTurns s i).2 j).2.map = (s.applyEntries es).map) ∧
    ∀ (disk : Disk) (path : Path) (start : Map),
      logOps (foundRecords ((disk path).getD [])) = es.map LogEntry.logOp →
      baseMap disk = applyAll ((es.take m).map LogEntry.logOp) start →
        (Machine.boot disk path).store.map = applyAll (es.map LogEntry.logOp) start := by
  constructor
  · intro s n n' i j hstart hcommit hlog hi hstart' hcommit' hlog' hj
    have htake : (es.take m).length = m := by rw [List.length_take, min_eq_left hm]
    have hfirst : (n.applyTurns s i).2 = s.applyEntries (es.take m) := by
      apply RaftNode.applyTurns_of_prefix hstart (hcommit.trans htake.symm) hlog
      rwa [htake]
    refine ⟨hfirst, ?_⟩
    rw [RaftNode.applyTurns_of_prefix hstart' hcommit' hlog' _ hj, hfirst,
      KVStore.map_applyEntries, KVStore.map_applyEntries, KVStore.map_applyEntries, List.map_take,
      applyAll_take_applyAll]
  · intro disk path start hfound hbase
    rw [Machine.boot_map, replay_map, hfound, hbase, List.map_take, applyAll_take_applyAll]

/-- A put, a deletion and another put of one key. -/
def flipped : List LogEntry :=
  [⟨1, .put, str "a", str "1"⟩, ⟨1, .del, str "a", []⟩, ⟨2, .put, str "a", str "2"⟩]

/-- Its updates as the records of a log, the first one in the snapshot. -/
def flippedDisk : Disk :=
  Function.update (Function.update (fun _ => none) snapshotPath (some (str "a\t1\n"))) "/tmp/kv.wal"
    (some (encodeAll [⟨.put, 1, str "a", str "1"⟩, ⟨.del, 2, str "a", []⟩,
      ⟨.put, 3, str "a", str "2"⟩]))

/-- The theorem at the store that had the put and the deletion, and at that log. -/
theorem reapply_converges_flipped :
    (RaftNode.applyTurns { commitIndex := 3, log := flipped : RaftNode (Fin 3) }
      (RaftNode.applyTurns { commitIndex := 2, log := flipped : RaftNode (Fin 3) } {} 2).2
        3).2.map = (KVStore.applyEntries {} flipped).map ∧
    (Machine.boot flippedDisk "/tmp/kv.wal").store.map =
      applyAll (flipped.map LogEntry.logOp) ∅ := by
  have hfound : logOps (foundRecords ((flippedDisk "/tmp/kv.wal").getD [])) =
      flipped.map LogEntry.logOp := by decide +kernel
  have hbase : baseMap flippedDisk = applyAll ((flipped.take 1).map LogEntry.logOp) ∅ := by
    decide +kernel
  exact ⟨((reapply_converges flipped (by decide)).1 {} _ _ 2 3 rfl rfl (List.take_prefix _ _)
    le_rfl rfl rfl List.prefix_rfl le_rfl).2,
    (reapply_converges (ι := Fin 3) flipped (by decide)).2 _ _ _ hfound hbase⟩

end KvEngine
