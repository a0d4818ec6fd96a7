import KvEngine.Raft.Agreement

/-!
# Catching up a follower

A leader that keeps exchanging heartbeats with one follower: each time it builds a
request (`BuildAppendEntriesLocked`), the follower handles it (`OnAppendEntries`) and
`HeartbeatLoop` handles the reply. A rejection moves `next_index_` back by one, until
the entry before it is one that the follower has.

Results:
* `Pair.CatchingUp.exchange`: what one exchange does, accepted or not.
* `catchUp`: from logs that match and any `next_index_` of `n`, one of the first `n`
  exchanges is accepted, and from then on the follower's log begins with the leader's.
* `run_exchange`: an exchange is three steps of the cluster.
-/

namespace KvEngine

open Consensus

variable {ι : Type}

/-- A request of the node's or a later term is answered with the term of the request. -/
theorem RaftNode.onAppendEntries_term {n : RaftNode ι} {req : AppendEntriesReq ι}
    (h : n.currentTerm ≤ req.term) : (n.onAppendEntries req).1.term = req.term := by
  unfold RaftNode.onAppendEntries
  rw [if_neg (Nat.not_lt.mpr h)]
  generalize hn₁ : (if n.currentTerm < req.term then
      n.becomeFollowerLocked req.term (some req.leaderId)
    else { n with role := .follower, leaderId := some req.leaderId }) = n₁
  have hterm : n₁.currentTerm = req.term := by
    subst hn₁
    split_ifs with hlt
    · rfl
    · exact le_antisymm h (Nat.not_lt.mp hlt)
  simp only
  split_ifs <;> exact hterm

/-- A leader and a follower of it. -/
structure Pair (ι : Type) where
  ldr : RaftNode ι
  fol : RaftNode ι

namespace Pair

/-- The request the leader builds. -/
def request (v p : ι) (s : Pair ι) : AppendEntriesReq ι := s.ldr.buildAppendEntriesLocked v p

/-- The follower's reply. -/
def reply (v p : ι) (s : Pair ι) : AppendEntriesResp := (s.fol.onAppendEntries (s.request v p)).1

variable [DecidableEq ι]

/-- One round of the loop over the peers in `HeartbeatLoop` (lines 452–488). -/
def exchange (v p : ι) (peers : List ι) (s : Pair ι) : Pair ι where
  ldr := (s.ldr.heartbeatReply peers (s.request v p) p [] (s.reply v p)).1
  fol := (s.fol.onAppendEntries (s.request v p)).2

/-- After `j` exchanges. -/
def after (v p : ι) (peers : List ι) (s : Pair ι) (j : ℕ) : Pair ι := (exchange v p peers)^[j] s

theorem after_succ (v p : ι) (peers : List ι) (s : Pair ι) (j : ℕ) :
    s.after v p peers (j + 1) = (s.after v p peers j).exchange v p peers :=
  Function.iterate_succ_apply' _ _ _

theorem after_exchange (v p : ι) (peers : List ι) (s : Pair ι) (j : ℕ) :
    (s.exchange v p peers).after v p peers j = s.after v p peers (j + 1) :=
  (Function.iterate_succ_apply _ _ _).symm

/-- The leader leads with the log `L`, the follower is not ahead in terms and its log
matches; the next index to send is one of the log or the one behind it. -/
structure CatchingUp (L : List LogEntry) (p : ι) (s : Pair ι) : Prop where
  role : s.ldr.role = .leader
  log : s.ldr.log = L
  term_le : s.fol.currentTerm ≤ s.ldr.currentTerm
  logMatch : LogMatch L s.fol.log
  next : ∃ m, s.ldr.nextIndex p = some m ∧ 1 ≤ m ∧ m ≤ L.length + 1

variable {v p : ι} {peers : List ι} {L : List LogEntry} {s : Pair ι} {m : ℕ}

/-! ## One exchange -/

omit [DecidableEq ι] in
/-- The request carries the log from `next_index_` on. -/
theorem CatchingUp.request_eq (h : s.CatchingUp L p) (hnext : s.ldr.nextIndex p = some m)
    (hpos : 1 ≤ m) (hle : m ≤ L.length + 1) :
    (s.request v p).msg = ⟨s.ldr.currentTerm, m - 1, termAt L (m - 1), L.drop (m - 1)⟩ := by
  have hprev : (if m = 0 ∨ m = 1 then 0 else m - 1) = m - 1 := by split_ifs <;> omega
  have hentries : (if 1 ≤ m ∧ m ≤ L.length then L.drop (m - 1) else []) = L.drop (m - 1) := by
    split_ifs with hin
    · rfl
    · rw [List.drop_eq_nil_of_le (by omega)]
  simp only [request, AppendEntriesReq.msg, RaftNode.buildAppendEntriesLocked, hnext,
    Option.getD_some, RaftNode.termAtLocked_eq, h.log, hprev, hentries]

omit [DecidableEq ι] in
theorem CatchingUp.appended (h : s.CatchingUp L p) :
    s.fol.Appended (s.request v p) (s.reply v p) (s.fol.onAppendEntries (s.request v p)).2 :=
  RaftNode.onAppendEntries_appended h.term_le

omit [DecidableEq ι] in
/-- The follower accepts when its log is the leader's up to the entry before `next_index_`. -/
theorem CatchingUp.accepted_iff (h : s.CatchingUp L p) (hnext : s.ldr.nextIndex p = some m)
    (hpos : 1 ≤ m) (hle : m ≤ L.length + 1) :
    (s.reply v p).success = true ↔
      m - 1 ≤ s.fol.log.length ∧ s.fol.log.take (m - 1) = L.take (m - 1) := by
  have hreq := h.request_eq (v := v) hnext hpos hle
  have hprev : (s.request v p).prevLogIndex = m - 1 := congrArg Msg.prev hreq
  have hprevTerm : (s.request v p).prevLogTerm = termAt L (m - 1) := congrArg Msg.prevTerm hreq
  rw [h.appended.success, hprev, hprevTerm]
  refine and_congr_right fun hlen => ⟨fun hterm => ?_, termAt_congr⟩
  exact (h.logMatch.take_eq_of_termAt (by omega) hlen hterm.symm).symm

omit [DecidableEq ι] in
/-- An accepted request leaves the leader's log, and behind it at most what was there. -/
theorem CatchingUp.log_accepted (h : s.CatchingUp L p) (hacc : (s.reply v p).success = true) :
    ((s.request v p).entries ≠ [] →
      (s.fol.onAppendEntries (s.request v p)).2.log = L) ∧
    ((s.request v p).entries = [] →
      (s.fol.onAppendEntries (s.request v p)).2.log = s.fol.log ∧ L <+: s.fol.log) := by
  obtain ⟨m, hnext, hpos, hle⟩ := h.next
  obtain ⟨hlen, htake⟩ := (h.accepted_iff hnext hpos hle).mp hacc
  have hreq := h.request_eq (v := v) hnext hpos hle
  have hentries : (s.request v p).entries = L.drop (m - 1) := congrArg Msg.entries hreq
  have hterm : termAt s.fol.log (m - 1) = termAt L (m - 1) := termAt_congr htake
  rw [h.appended.log, hreq, hentries]
  constructor
  · intro hne
    rw [Msg.store, if_pos ⟨hne, hlen, hterm⟩]
    show s.fol.log.take (m - 1) ++ L.drop (m - 1) = L
    rw [htake, List.take_append_drop]
  · intro hnil
    refine ⟨if_neg fun hstores => hstores.1 hnil, ?_⟩
    -- nothing to send: `next_index_` is behind the end
    have hall : L.take (m - 1) = L := List.take_of_length_le (List.drop_eq_nil_iff.mp hnil)
    rw [← hall, ← htake]
    exact List.take_prefix _ _

omit [DecidableEq ι] in
/-- The reply has the leader's term. -/
theorem CatchingUp.reply_term (h : s.CatchingUp L p) :
    (s.reply v p).term = s.ldr.currentTerm :=
  RaftNode.onAppendEntries_term h.term_le

/-- An accepted request leaves the leader all but its indices. -/
theorem CatchingUp.accepted (peers : List ι) (h : s.CatchingUp L p)
    (hnext : s.ldr.nextIndex p = some m) (hpos : 1 ≤ m) (hle : m ≤ L.length + 1)
    (hacc : (s.reply v p).success = true) :
    ∃ (i : ℕ) (match' next' : ι → Option ℕ),
      (s.exchange v p peers).ldr =
        { s.ldr with commitIndex := i, matchIndex := match', nextIndex := next' } ∧
      (next' p = some m ∨ next' p = some (L.length + 1)) := by
  have hreq := h.request_eq (v := v) hnext hpos hle
  have hprev : (s.request v p).prevLogIndex = m - 1 := congrArg Msg.prev hreq
  have hentries : (s.request v p).entries = L.drop (m - 1) := congrArg Msg.entries hreq
  have hnew : ¬ s.ldr.currentTerm < (s.reply v p).term := by rw [h.reply_term]; omega
  obtain ⟨i, hi⟩ := RaftNode.advanceCommitIndexLocked_eq
    (if (s.request v p).entries = [] then s.ldr else
      { s.ldr with
        matchIndex := Function.update s.ldr.matchIndex p
          (some ((s.request v p).prevLogIndex + (s.request v p).entries.length))
        nextIndex := Function.update s.ldr.nextIndex p
          (some ((s.request v p).prevLogIndex + (s.request v p).entries.length + 1)) }) peers
  simp only [Pair.exchange, heartbeatReply_eq hnew hacc, hi]
  by_cases hnil : (s.request v p).entries = []
  · rw [if_pos hnil]
    exact ⟨i, _, _, rfl, Or.inl hnext⟩
  · rw [if_neg hnil]
    refine ⟨i, _, _, rfl, Or.inr ?_⟩
    have hlen : m - 1 < L.length := by
      by_contra hlong
      exact hnil (by rw [hentries, List.drop_eq_nil_of_le (by omega)])
    simp only [Function.update_self, hprev, hentries, List.length_drop]
    congr 1
    omega

/-- A rejected request leaves the follower's log and moves `next_index_` back. -/
theorem CatchingUp.rejected (peers : List ι) (h : s.CatchingUp L p)
    (hnext : s.ldr.nextIndex p = some m) (hpos : 1 ≤ m) (hle : m ≤ L.length + 1)
    (hrej : (s.reply v p).success = false) :
    1 < m ∧ (s.exchange v p peers).fol.log = s.fol.log ∧
      (s.exchange v p peers).ldr = { s.ldr with
        nextIndex := Function.update s.ldr.nextIndex p (some (m - 1)) } := by
  have hno : ¬ (s.reply v p).success = true := by simp [hrej]
  have hback : 1 < m := by
    rw [h.accepted_iff hnext hpos hle] at hno
    by_contra hm
    obtain rfl : m = 1 := by omega
    exact hno ⟨Nat.zero_le _, rfl⟩
  refine ⟨hback, ?_, ?_⟩
  · show (s.fol.onAppendEntries (s.request v p)).2.log = s.fol.log
    rw [h.appended.log]
    refine if_neg fun hstores => hno (h.appended.success.mpr hstores.2)
  · have hnew : ¬ s.ldr.currentTerm < (s.reply v p).term := by rw [h.reply_term]; omega
    have hmax : max 1 (m - 1) = m - 1 := by omega
    simp only [exchange, RaftNode.heartbeatReply, if_neg hnew, if_neg hno, hnext, if_pos hback,
      hmax]

/-- An exchange leaves the leader's log, role and term. -/
theorem CatchingUp.exchange (peers : List ι) (h : s.CatchingUp L p) :
    (s.exchange v p peers).CatchingUp L p ∧
      (s.exchange v p peers).ldr.currentTerm = s.ldr.currentTerm := by
  obtain ⟨m, hnext, hpos, hle⟩ := h.next
  have hfol : (s.exchange v p peers).fol.currentTerm = s.ldr.currentTerm := h.appended.currentTerm
  cases hacc : (s.reply v p).success with
  | false =>
    obtain ⟨hback, hlog, hldr⟩ := h.rejected peers hnext hpos hle hacc
    rw [hldr]
    refine ⟨⟨?_, ?_, ?_, hlog ▸ h.logMatch, m - 1, ?_, by omega, by omega⟩, rfl⟩
    · rw [hldr]; exact h.role
    · rw [hldr]; exact h.log
    · rw [hldr, hfol]
    · rw [hldr]; exact Function.update_self _ _ _
  | true =>
    obtain ⟨i, match', next', hldr, hnext'⟩ := h.accepted peers hnext hpos hle hacc
    obtain ⟨hsent, hidle⟩ := h.log_accepted hacc
    rw [hldr]
    refine ⟨⟨?_, ?_, ?_, ?_, ?_⟩, rfl⟩
    · rw [hldr]; exact h.role
    · rw [hldr]; exact h.log
    · rw [hldr, hfol]
    · apply logMatch_of_isPrefix
      show L <+: (s.fol.onAppendEntries (s.request v p)).2.log
      by_cases hnil : (s.request v p).entries = []
      · rw [(hidle hnil).1]; exact (hidle hnil).2
      · rw [hsent hnil]
    · rw [hldr]
      rcases hnext' with hnext' | hnext'
      · exact ⟨m, hnext', hpos, hle⟩
      · exact ⟨_, hnext', by omega, le_rfl⟩

/-! ## Many exchanges -/

/-- A follower that has the leader's log accepts, and has it still. -/
theorem CatchingUp.caughtUp (peers : List ι) (h : s.CatchingUp L p) (hhas : L <+: s.fol.log) :
    (s.reply v p).success = true ∧ L <+: (s.exchange v p peers).fol.log ∧
      (s.fol.log = L → (s.exchange v p peers).fol.log = L) := by
  obtain ⟨m, hnext, hpos, hle⟩ := h.next
  have hacc : (s.reply v p).success = true := by
    rw [h.accepted_iff hnext hpos hle]
    obtain ⟨r, hr⟩ := hhas
    rw [← hr, List.length_append, List.take_append_of_le_length (by omega)]
    exact ⟨by omega, rfl⟩
  obtain ⟨hsent, hidle⟩ := h.log_accepted hacc
  refine ⟨hacc, ?_⟩
  show L <+: (s.fol.onAppendEntries (s.request v p)).2.log ∧
    (s.fol.log = L → (s.fol.onAppendEntries (s.request v p)).2.log = L)
  by_cases hnil : (s.request v p).entries = []
  · rw [(hidle hnil).1]
    exact ⟨hhas, fun hlog => hlog⟩
  · rw [hsent hnil]
    exact ⟨List.prefix_rfl, fun _ => rfl⟩

theorem CatchingUp.after (peers : List ι) (h : s.CatchingUp L p) (j : ℕ) :
    (s.after v p peers j).CatchingUp L p ∧
      (s.after v p peers j).ldr.currentTerm = s.ldr.currentTerm := by
  induction j with
  | zero => exact ⟨h, rfl⟩
  | succ j ih =>
    rw [after_succ]
    obtain ⟨hnext, hterm⟩ := ih.1.exchange peers (v := v)
    exact ⟨hnext, hterm.trans ih.2⟩

/-- Every later exchange is accepted. -/
theorem CatchingUp.after_caughtUp (peers : List ι) (h : s.CatchingUp L p)
    (hhas : L <+: s.fol.log) (j : ℕ) :
    L <+: (s.after v p peers j).fol.log ∧
      (s.fol.log = L → (s.after v p peers j).fol.log = L) := by
  induction j with
  | zero => exact ⟨hhas, fun hlog => hlog⟩
  | succ j ih =>
    rw [after_succ]
    obtain ⟨-, hstill, heq⟩ := (h.after (v := v) peers j).1.caughtUp (v := v) peers ih.1
    exact ⟨hstill, fun hlog => heq (ih.2 hlog)⟩

/-- What `k` rejections and then acceptances make of the pair. -/
structure Repaired (v p : ι) (peers : List ι) (s : Pair ι) (k : ℕ) : Prop where
  rejected : ∀ j < k, ((s.after v p peers j).reply v p).success = false
  accepted : ∀ j, k ≤ j → ((s.after v p peers j).reply v p).success = true
  unchanged : ∀ j ≤ k, (s.after v p peers j).fol.log = s.fol.log
  has : ∀ j, k < j → s.ldr.log <+: (s.after v p peers j).fol.log
  eq : ((s.after v p peers k).request v p).entries ≠ [] →
    ∀ j, k < j → (s.after v p peers j).fol.log = s.ldr.log

/-- The first exchange is accepted. -/
theorem CatchingUp.repaired_zero (peers : List ι) (h : s.CatchingUp L p)
    (hacc : (s.reply v p).success = true) : s.Repaired v p peers 0 := by
  obtain ⟨hsent, hidle⟩ := h.log_accepted hacc
  have hfirst : (s.exchange v p peers).fol.log =
      (s.fol.onAppendEntries (s.request v p)).2.log := rfl
  have hhas : L <+: (s.exchange v p peers).fol.log := by
    rw [hfirst]
    by_cases hnil : (s.request v p).entries = []
    · rw [(hidle hnil).1]
      exact (hidle hnil).2
    · rw [hsent hnil]
  have hnew := (h.exchange (v := v) peers).1
  have hlater := fun j => hnew.after_caughtUp (v := v) peers hhas j
  refine ⟨fun j hj => absurd hj (Nat.not_lt_zero j), ?_, ?_, ?_, ?_⟩
  · intro j _
    cases j with
    | zero => exact hacc
    | succ j =>
      rw [← after_exchange]
      exact ((hnew.after (v := v) peers j).1.caughtUp (v := v) peers (hlater j).1).1
  · intro j hj
    obtain rfl : j = 0 := by omega
    rfl
  · intro j hj
    obtain ⟨i, rfl⟩ : ∃ i, j = i + 1 := ⟨j - 1, by omega⟩
    rw [← after_exchange, h.log]
    exact (hlater i).1
  · intro hne j hj
    obtain ⟨i, rfl⟩ : ∃ i, j = i + 1 := ⟨j - 1, by omega⟩
    rw [← after_exchange, h.log]
    exact (hlater i).2 (hfirst.trans (hsent hne))

/-- One rejection more before. -/
theorem Repaired.succ {k : ℕ} (hrep : (s.exchange v p peers).Repaired v p peers k)
    (hrej : (s.reply v p).success = false) (hfol : (s.exchange v p peers).fol.log = s.fol.log)
    (hldr : (s.exchange v p peers).ldr.log = s.ldr.log) : s.Repaired v p peers (k + 1) := by
  refine ⟨?_, ?_, ?_, ?_, ?_⟩
  · intro j hj
    cases j with
    | zero => exact hrej
    | succ j =>
      rw [← after_exchange]
      exact hrep.rejected j (by omega)
  · intro j hj
    obtain ⟨i, rfl⟩ : ∃ i, j = i + 1 := ⟨j - 1, by omega⟩
    rw [← after_exchange]
    exact hrep.accepted i (by omega)
  · intro j hj
    cases j with
    | zero => rfl
    | succ j =>
      rw [← after_exchange, hrep.unchanged j (by omega), hfol]
  · intro j hj
    obtain ⟨i, rfl⟩ : ∃ i, j = i + 1 := ⟨j - 1, by omega⟩
    rw [← after_exchange, ← hldr]
    exact hrep.has i (by omega)
  · intro hne j hj
    obtain ⟨i, rfl⟩ : ∃ i, j = i + 1 := ⟨j - 1, by omega⟩
    rw [← after_exchange] at hne ⊢
    rw [← hldr]
    exact hrep.eq hne i (by omega)

/-- The next index to send bounds the number of exchanges. -/
theorem CatchingUp.exists_repaired (peers : List ι) (h : s.CatchingUp L p)
    (hnext : s.ldr.nextIndex p = some m) (hpos : 1 ≤ m) (hle : m ≤ L.length + 1) :
    ∃ k < m, s.Repaired v p peers k := by
  induction m generalizing s with
  | zero => omega
  | succ m ih =>
    cases hacc : (s.reply v p).success with
    | true => exact ⟨0, Nat.succ_pos m, h.repaired_zero peers hacc⟩
    | false =>
      obtain ⟨hback, hlog, hldr⟩ := h.rejected peers hnext hpos hle hacc
      have hnew := (h.exchange (v := v) peers).1
      obtain ⟨k, hk, hrep⟩ := ih hnew (by rw [hldr]; exact Function.update_self _ _ _)
        (by omega) (by omega)
      exact ⟨k + 1, by omega, hrep.succ hacc hlog (hnew.log.trans h.log.symm)⟩

end Pair

/-- Logs of a cluster that match, match in pairs. -/
theorem Cluster.LogsMatch.logMatch {c : Cluster ι} (h : c.LogsMatch) (v p : ι) :
    LogMatch (c.nodes v).log (c.nodes p).log :=
  h v p

section

variable [DecidableEq ι]

/-- The peers still to be asked have no part in what a reply does to the node. -/
theorem RaftNode.heartbeatReply_rest (n : RaftNode ι) (peers rest : List ι)
    (req : AppendEntriesReq ι) (p : ι) (resp : AppendEntriesResp) :
    (n.heartbeatReply peers req p rest resp).1 = (n.heartbeatReply peers req p [] resp).1 := by
  unfold RaftNode.heartbeatReply
  split_ifs <;> rfl

/-- The heartbeat thread that is at the peer `p` makes an exchange with it: building the
request, its delivery and the handling of the reply. -/
theorem run_exchange {cfg : Config ι} {c : Cluster ι} {v p : ι} {rest : List ι} (hne : p ≠ v)
    (hth : c.heartbeat v = .building p rest) (hrole : (c.nodes v).role = .leader) :
    ∃ c', c.run cfg (fun _ _ => True) [.heartbeatBuild v, .deliverHeartbeat v, .heartbeatReply v] =
        some c' ∧
      ⟨c'.nodes v, c'.nodes p⟩ = Pair.exchange v p (cfg.peers v) ⟨c.nodes v, c.nodes p⟩ ∧
      ∀ u, u ≠ v → u ≠ p → c'.nodes u = c.nodes u := by
  have hbuild : c.step cfg (.heartbeatBuild v) = some (c.setHeartbeat v
      (.calling ((c.nodes v).buildAppendEntriesLocked v p) p rest none)) := by
    simp only [Cluster.step, hth, RaftNode.heartbeatBuild, hrole, ne_eq, not_true_eq_false,
      if_false]
  simp only [Cluster.run, hbuild, if_true]
  simp only [Cluster.step, Cluster.setHeartbeat, Cluster.setNode, Function.update_self,
    Function.update_of_ne hne.symm]
  refine ⟨_, rfl, ?_, ?_⟩
  · simp only [Function.update_of_ne hne, Function.update_self]
    rw [RaftNode.heartbeatReply_rest]
    rfl
  · intro u huv hup
    simp only [Function.update_of_ne huv, Function.update_of_ne hup]

/-- **Follower catch-up.** A leader and a follower whose logs match, the follower's term not
ahead, exchange heartbeats from any `next_index_` of `n` inside the leader's log or just
behind it. After fewer than `n` rejections, each of which leaves the follower's log, every
exchange is accepted; then the follower's log begins with the leader's, and is the leader's
if the first accepted request carried entries. All along `next_index_` stays in range and
the leader keeps its role, term and log. -/
theorem catchUp {v p : ι} {peers : List ι} {s : Pair ι} {n : ℕ} (hrole : s.ldr.role = .leader)
    (hterm : s.fol.currentTerm ≤ s.ldr.currentTerm) (hmatch : LogMatch s.ldr.log s.fol.log)
    (hnext : s.ldr.nextIndex p = some n) (hpos : 1 ≤ n) (hle : n ≤ s.ldr.log.length + 1) :
    (∃ k < n, s.Repaired v p peers k) ∧
      ∀ j, (s.after v p peers j).ldr.role = .leader ∧
        (s.after v p peers j).ldr.currentTerm = s.ldr.currentTerm ∧
        (s.after v p peers j).ldr.log = s.ldr.log ∧
        ∃ m, (s.after v p peers j).ldr.nextIndex p = some m ∧ 1 ≤ m ∧ m ≤ s.ldr.log.length + 1 := by
  have h : s.CatchingUp s.ldr.log p := ⟨hrole, rfl, hterm, hmatch, n, hnext, hpos, hle⟩
  refine ⟨h.exists_repaired peers hnext hpos hle, fun j => ?_⟩
  obtain ⟨hj, hterm'⟩ := h.after (v := v) peers j
  exact ⟨hj.role, hterm', hj.log, hj.next⟩

end

/-- The entry of a term. -/
def entryAt (t : ℕ) : LogEntry := ⟨t, .put, str "k", str "v"⟩

/-- A leader of term 3 and a follower that has entries of term 2 after the first one. -/
def diverged : Pair (Fin 3) where
  ldr := { currentTerm := 3, role := .leader, log := [entryAt 1, entryAt 3, entryAt 3],
           nextIndex := fun _ => some 4 }
  fol := { currentTerm := 2, log := [entryAt 1, entryAt 2] }

/-- The theorem at logs that part after the first entry. -/
theorem catchUp_diverged :
    (∃ k < 4, diverged.Repaired 0 1 [1, 2] k) ∧
      ∀ j, (diverged.after 0 1 [1, 2] j).ldr.role = .leader ∧
        (diverged.after 0 1 [1, 2] j).ldr.currentTerm = 3 ∧
        (diverged.after 0 1 [1, 2] j).ldr.log = diverged.ldr.log ∧
        ∃ m, (diverged.after 0 1 [1, 2] j).ldr.nextIndex 1 = some m ∧ 1 ≤ m ∧ m ≤ 4 := by
  have hmatch : LogMatch diverged.ldr.log diverged.fol.log := by
    intro k e e' hk hk' hterm
    rcases k with _ | _ | k
    · rfl
    · obtain rfl : entryAt 3 = e := Option.some.inj hk
      obtain rfl : entryAt 2 = e' := Option.some.inj hk'
      exact absurd hterm (by decide)
    · simp [diverged] at hk'
  exact catchUp rfl (by decide) hmatch rfl (by decide) (by decide)

end KvEngine
