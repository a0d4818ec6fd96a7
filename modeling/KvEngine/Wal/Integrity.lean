import KvEngine.Wal.Log

/-!
# Cut and damaged logs

What `replay_into` makes of a log file of whole records that was cut short or whose bytes
were changed. Every record that is read is a codeword of the shift register behind its
checksum, and a codeword changed within four bytes is none.

Results:
* `replayInto_take`: a file cut anywhere yields the records that lie wholly in it.
* `checks_of_readRecord`: what one round of the loop reads is a codeword.
* `replayInto_damaged`: a record changed within four bytes behind its length fields ends
  the replay, with what was before it.
-/

namespace KvEngine

open ShiftRegister

/-! ## Files of whole records -/

theorem Replay.applyAll_maxSeq (st : Replay) (rs : List WalRecord) :
    (st.applyAll rs).maxSeq = max st.maxSeq ((rs.map WalRecord.seq).foldr max 0) := by
  induction rs generalizing st with
  | nil => exact (Nat.max_zero _).symm
  | cons r rs ih =>
    rw [Replay.applyAll, List.foldl_cons, ← Replay.applyAll, ih, List.map_cons, List.foldr_cons,
      ← Nat.max_assoc]
    rfl

/-- The records `rs` were replayed into the map `m`, and replay stopped behind them. -/
structure Wal.Replays (w : Wal) (disk : Disk) (m : Map) (rs : List WalRecord) (st : Replay)
    (w' : Wal) : Prop where
  returns : w.replayInto m disk = some (st, w')
  map : st.map = applyAll (logOps rs) m
  maxSeq : st.maxSeq = (rs.map WalRecord.seq).foldr max 0
  lastGoodOffset : w'.lastGoodOffset = (encodeAll rs).length

/-- Whole records followed by bytes at which the loop breaks. -/
theorem Wal.exists_replays {w : Wal} (hfd : w.fd ≠ none) {disk : Disk} {rs : List WalRecord}
    (hfits : ∀ r ∈ rs, r.Fits) {t : Bytes} (ht : readRecord t = none)
    (hfile : disk w.path = some (encodeAll rs ++ t)) (m : Map) :
    ∃ st w', w.Replays disk m rs st w' := by
  obtain ⟨pos, hpos⟩ := Option.ne_none_iff_exists'.mp hfd
  set st := ({ map := m } : Replay).applyAll rs with hst
  have hreturns : w.replayInto m disk = some (st,
      { w with lastGoodOffset := st.lastGood, fd := some (encodeAll rs ++ t).length }) := by
    rw [Wal.replayInto, hpos]
    simp only [hfile, Option.getD_some, replay_encode hfits ht m, hst]
  refine ⟨st, _, hreturns, Replay.applyAll_map _ rs, ?_, ?_⟩
  · rw [hst, Replay.applyAll_maxSeq]
    exact Nat.zero_max _
  · show st.lastGood = _
    rw [hst, Replay.applyAll_lastGood]
    exact Nat.zero_add _

theorem encodeAll_take_succ {rs : List WalRecord} {i : ℕ} (hi : i < rs.length) :
    encodeAll (rs.take (i + 1)) = encodeAll (rs.take i) ++ rs[i].encode := by
  rw [List.take_succ_eq_append_getElem hi, encodeAll_append, encodeAll_cons, encodeAll_nil,
    List.append_nil]

theorem length_encodeAll_take_le {rs : List WalRecord} {i j : ℕ} (h : i ≤ j) :
    (encodeAll (rs.take i)).length ≤ (encodeAll (rs.take j)).length := by
  have hsplit : rs.take j = rs.take i ++ (rs.drop i).take (j - i) := by
    rw [← List.take_add, Nat.add_sub_cancel' h]
  rw [hsplit, encodeAll_append, List.length_append]
  exact Nat.le_add_right _ _

/-- The records that a byte prefix has wholly are those that end inside it. -/
theorem lt_iff_of_take_encodeAll {rs : List WalRecord} (hfits : ∀ r ∈ rs, r.Fits) {n k : ℕ}
    {t : Bytes} (hk : k ≤ rs.length) (htake : (encodeAll rs).take n = encodeAll (rs.take k) ++ t)
    (ht : readRecord t = none) {i : ℕ} (hi : i < rs.length) :
    i < k ↔ (encodeAll (rs.take (i + 1))).length ≤ n := by
  have hpart : ∀ j, encodeAll (rs.take j) <+: encodeAll rs := by
    intro j
    have hall := encodeAll_append (rs.take j) (rs.drop j)
    rw [List.take_append_drop] at hall
    exact ⟨_, hall.symm⟩
  constructor
  · intro hik
    have hlen := congrArg List.length htake
    rw [List.length_take, List.length_append] at hlen
    have hle : (encodeAll (rs.take (i + 1))).length ≤ (encodeAll (rs.take k)).length :=
      length_encodeAll_take_le hik
    omega
  · intro hle
    by_contra hki
    -- else the rest begins with the whole record `k`
    have hkr : k < rs.length := by omega
    have hend : (encodeAll (rs.take (k + 1))).length ≤ n :=
      (length_encodeAll_take_le (by omega)).trans hle
    obtain ⟨u, hu⟩ := List.prefix_take_iff.mpr ⟨hpart (k + 1), hend⟩
    rw [htake, encodeAll_take_succ hkr, List.append_assoc, List.append_cancel_left_eq] at hu
    rw [← hu, readRecord_encode (hfits _ (List.getElem_mem hkr))] at ht
    simp at ht

/-- **Replay agrees with the writer on every cut.** The first `n` bytes of records that fit
the format are replayed as the records that lie wholly inside them. -/
theorem replayInto_take {rs : List WalRecord} (hfits : ∀ r ∈ rs, r.Fits) {n : ℕ} {w : Wal}
    (hfd : w.fd ≠ none) {disk : Disk} (hfile : disk w.path = some ((encodeAll rs).take n))
    (m : Map) :
    ∃ k ≤ rs.length, (∀ i < rs.length, i < k ↔ (encodeAll (rs.take (i + 1))).length ≤ n) ∧
      ∃ st w', w.Replays disk m (rs.take k) st w' := by
  obtain ⟨k, t, hk, htake, ht, -, -⟩ := take_encodeAll hfits n
  refine ⟨k, hk, fun i hi => lt_iff_of_take_encodeAll hfits hk htake ht hi, ?_⟩
  rw [htake] at hfile
  exact Wal.exists_replays hfd (fun r hr => hfits r (List.mem_of_mem_take hr)) ht hfile m

/-- Thirty bytes hold a put of 29 bytes and the first byte of what follows it. -/
theorem replayInto_take_put :
    ∃ st w', Wal.Replays { fd := some 0, path := "kv.log" }
      (fun _ => some ((encodeAll [⟨.put, 1, [97], [98]⟩, ⟨.del, 2, [97], []⟩]).take 30)) ∅
      [⟨.put, 1, [97], [98]⟩] st w' := by
  have hfits : ∀ r ∈ ([⟨.put, 1, [97], [98]⟩, ⟨.del, 2, [97], []⟩] : List WalRecord), r.Fits := by
    intro r hr
    simp only [List.mem_cons, List.not_mem_nil, or_false] at hr
    rcases hr with rfl | rfl <;> constructor <;> simp
  obtain ⟨k, hk, hwhole, st, w', h⟩ := @replayInto_take _ hfits 30
    { fd := some 0, path := "kv.log" } (by simp)
    (fun _ => some ((encodeAll [⟨.put, 1, [97], [98]⟩, ⟨.del, 2, [97], []⟩]).take 30)) rfl ∅
  have h0 := hwhole 0 (by simp)
  have h1 := hwhole 1 (by simp)
  simp [WalRecord.size, WalRecord.payload, headerSize] at h0 h1
  obtain rfl : k = 1 := by omega
  exact ⟨st, w', h⟩

/-! ## Codewords -/

/-- A record's bytes, checksum included, leave the shift register in its fixed state. -/
def Checks (d : Bytes) : Prop := absorb crcPoly (~~~ 0) (symbols d) = clock crcPoly 32 (~~~ 0)

/-- `offsetof(WalHeader, seq)`: the lengths of the other fields. -/
def seqOffset : ℕ := 15

/-- The size of the record that the header at the front announces. -/
def announcedSize (file : Bytes) : ℕ :=
  let h := WalHeader.ofBytes (file.take headerSize)
  headerSize + h.keyLen + (if WalType.ofCode h.type = some .put then h.valLen else 0) + 4

/-- It is said before the sequence number. -/
theorem announcedSize_congr {s s' : Bytes} (h : s.take seqOffset = s'.take seqOffset) :
    announcedSize s = announcedSize s' := by
  have hfield : ∀ i n, i + n ≤ seqOffset →
      ((s.take headerSize).drop i).take n = ((s'.take headerSize).drop i).take n := by
    intro i n hin
    have hpart : ∀ x : Bytes,
        ((x.take headerSize).drop i).take n = ((x.take seqOffset).drop i).take n := by
      intro x
      have hle : i + n ≤ headerSize := hin.trans (by decide)
      rw [List.drop_take, List.drop_take, List.take_take, List.take_take,
        Nat.min_eq_left (by omega), Nat.min_eq_left (by omega)]
    rw [hpart, hpart, h]
  have hkey : (WalHeader.ofBytes (s.take headerSize)).keyLen =
      (WalHeader.ofBytes (s'.take headerSize)).keyLen :=
    congrArg leNat (hfield 7 4 (by decide))
  have hval : (WalHeader.ofBytes (s.take headerSize)).valLen =
      (WalHeader.ofBytes (s'.take headerSize)).valLen :=
    congrArg leNat (hfield 11 4 (by decide))
  have htype : (WalHeader.ofBytes (s.take headerSize)).type =
      (WalHeader.ofBytes (s'.take headerSize)).type :=
    congrArg leNat (hfield 6 1 (by decide))
  simp only [announcedSize, hkey, hval, htype]

/-- One round of the loop takes a codeword of the size its header announces. -/
theorem checks_of_readRecord {s rest : Bytes} {r : WalRecord}
    (h : readRecord s = some (r, rest)) :
    ∃ d, s = d ++ rest ∧ Checks d ∧ d.length = announcedSize s := by
  obtain ⟨hb, k, v, c, t, hparts, rfl, -⟩ := readRecord_inv h
  refine ⟨hb ++ k ++ v ++ c, by simp, ?_, ?_⟩
  · have hcrc := hparts.check
    rw [recordCrc, ← crc32Update_append, ← crc32Update_append, ← List.append_assoc] at hcrc
    exact (crc32Update_eq_iff hparts.crc).mp hcrc
  · have hheader : (hb ++ (k ++ (v ++ (c ++ rest)))).take headerSize = hb :=
      List.take_left' hparts.header
    have hput : WalType.ofCode (WalHeader.ofBytes hb).type = some .put ↔ t = .put := by
      rw [hparts.type, Option.some.injEq]
    simp only [announcedSize, List.length_append, hheader, hput, hparts.header, hparts.key,
      hparts.val, hparts.crc]

/-- A codeword changed within four bytes is no codeword. -/
theorem not_checks_of_window {d d' : Bytes} (hlen : d.length = d'.length) (hne : d ≠ d') {i : ℕ}
    (hwindow : ∀ j, d'[j]? ≠ d[j]? → i ≤ j ∧ j < i + 4) (hd : Checks d) : ¬ Checks d' := by
  intro hd'
  have hbefore : d.take i = d'.take i := by
    apply List.ext_getElem?
    intro j
    rw [List.getElem?_take, List.getElem?_take]
    split_ifs with hj
    · by_contra hdiff
      have := hwindow j fun heq => hdiff heq.symm
      omega
    · rfl
  have hbehind : d.drop (i + 4) = d'.drop (i + 4) := by
    apply List.ext_getElem?
    intro j
    rw [List.getElem?_drop, List.getElem?_drop]
    by_contra hdiff
    have := hwindow (i + 4 + j) fun heq => hdiff heq.symm
    omega
  have hsplit : ∀ x : Bytes, x = x.take i ++ (x.drop i).take 4 ++ x.drop (i + 4) := by
    intro x
    rw [← List.take_add, List.take_append_drop]
  set m := (d.drop i).take 4 with hm
  set m' := (d'.drop i).take 4 with hm'
  have hmlen : m.length = m'.length := by
    rw [hm, hm', List.length_take, List.length_take, List.length_drop, List.length_drop, hlen]
  have hmne : m ≠ m' := by
    intro heq
    apply hne
    rw [hsplit d, hsplit d', ← hm, ← hm', heq, hbefore, hbehind]
  have hfit : (symbols m).length * 8 ≤ 32 := by
    have hle : m.length ≤ 4 := List.length_take_le _ _
    rw [symbols, List.length_map]
    omega
  have habsorb := absorb_window_ne (g := crcPoly) (by decide)
    (by rw [symbols, symbols, List.length_map, List.length_map, hmlen]) hfit
    (fun heq => hmne (symbols_inj heq)) (~~~ 0) (symbols (d.take i)) (symbols (d.drop (i + 4)))
  apply habsorb
  unfold Checks at hd hd'
  rw [← symbols_append, ← symbols_append, ← symbols_append, ← symbols_append, ← hsplit d, hd,
    hbefore, hbehind, ← hsplit d', hd']

/-- **Corruption is detected.** A file of records that fit the format, changed within four
bytes that lie behind the length fields of one of them, is replayed up to that record. -/
theorem replayInto_damaged {pre post : List WalRecord} {r : WalRecord}
    (hfits : ∀ x ∈ pre ++ r :: post, x.Fits) {file : Bytes}
    (hne : file ≠ encodeAll (pre ++ r :: post)) {i : ℕ}
    (hdamage : ∀ j, file[j]? ≠ (encodeAll (pre ++ r :: post))[j]? → (i ≤ j ∧ j < i + 4) ∧
      (encodeAll pre).length + seqOffset ≤ j ∧ j < (encodeAll pre).length + r.size)
    {w : Wal} (hfd : w.fd ≠ none) {disk : Disk} (hfile : disk w.path = some file) (m : Map) :
    ∃ st w', w.Replays disk m pre st w' := by
  rw [encodeAll_append, encodeAll_cons] at hne hdamage
  set start := (encodeAll pre).length with hstart
  set whole := r.encode ++ encodeAll post with hwhole
  -- the records before are untouched
  have hbefore : file.take start = encodeAll pre := by
    apply List.ext_getElem?
    intro j
    rw [List.getElem?_take]
    split_ifs with hj
    · by_contra hdiff
      have := hdamage j fun heq => hdiff (heq.trans (List.getElem?_append_left hj))
      omega
    · exact (List.getElem?_eq_none (by omega)).symm
  have hbytes : ∀ j, (file.drop start)[j]? ≠ whole[j]? →
      (i ≤ start + j ∧ start + j < i + 4) ∧ seqOffset ≤ j ∧ j < r.size := by
    intro j hj
    rw [List.getElem?_drop] at hj
    have hj' := hdamage (start + j) (by
      rwa [List.getElem?_append_right (by omega), Nat.add_sub_cancel_left])
    omega
  have hsplit : file = encodeAll pre ++ file.drop start := by
    rw [← hbefore, List.take_append_drop]
  have hr : r.Fits := hfits r (by simp)
  -- the damaged record is no codeword
  have hbreak : readRecord (file.drop start) = none := by
    by_contra hread
    obtain ⟨⟨r', rest'⟩, hread⟩ := Option.ne_none_iff_exists'.mp hread
    obtain ⟨d', hd', hchecks', hsize'⟩ := checks_of_readRecord hread
    obtain ⟨d, hd, hchecks, hsize⟩ := checks_of_readRecord (readRecord_encode hr (encodeAll post))
    obtain rfl : r.encode = d := List.append_cancel_right hd
    have hsame : (file.drop start).take seqOffset = whole.take seqOffset := by
      apply List.ext_getElem?
      intro j
      rw [List.getElem?_take, List.getElem?_take]
      split_ifs with hj
      · by_contra hdiff
        have := hbytes j hdiff
        omega
      · rfl
    rw [announcedSize_congr hsame] at hsize'
    have hdlen : r.encode.length = d'.length := by rw [hsize, hsize', hwhole]
    have hat : ∀ j < r.size, (file.drop start)[j]? = d'[j]? ∧ whole[j]? = r.encode[j]? := by
      intro j hj
      rw [← WalRecord.length_encode] at hj
      rw [hd', hwhole]
      exact ⟨List.getElem?_append_left (by omega), List.getElem?_append_left hj⟩
    refine not_checks_of_window hdlen ?_ (i := i - start) ?_ hchecks hchecks'
    · rintro rfl
      apply hne
      apply List.ext_getElem?
      intro j
      by_contra hdiff
      have hin := hdamage j hdiff
      obtain ⟨l, rfl⟩ : ∃ l, j = start + l := ⟨j - start, by omega⟩
      obtain ⟨hl, hl'⟩ := hat l (by omega)
      rw [List.getElem?_append_right (by omega), Nat.add_sub_cancel_left, ← List.getElem?_drop,
        hl, hl'] at hdiff
      exact hdiff rfl
    · intro j hj
      have hjlt : j < r.size := by
        by_contra hout
        rw [← WalRecord.length_encode] at hout
        rw [List.getElem?_eq_none (by omega), List.getElem?_eq_none (by omega)] at hj
        exact hj rfl
      obtain ⟨hl, hl'⟩ := hat j hjlt
      rw [← hl, ← hl'] at hj
      have := hbytes j hj
      omega
  rw [hsplit] at hfile
  exact Wal.exists_replays hfd (fun x hx => hfits x (by simp [hx])) hbreak hfile m

/-- The key of the first of two records is changed from `a` to `b`. -/
theorem replayInto_damaged_key :
    ∃ st w', Wal.Replays { fd := some 0, path := "kv.log" }
      (fun _ => some ((encodeAll [⟨.put, 1, [97], [98]⟩, ⟨.del, 2, [97], []⟩]).set 23 98)) ∅
      [] st w' := by
  have hfits : ∀ r ∈ ([] ++ ⟨.put, 1, [97], [98]⟩ :: [⟨.del, 2, [97], []⟩] : List WalRecord),
      r.Fits := by
    intro r hr
    simp only [List.nil_append, List.mem_cons, List.not_mem_nil, or_false] at hr
    rcases hr with rfl | rfl <;> constructor <;> simp
  have hkey :
      (encodeAll ([] ++ ⟨.put, 1, [97], [98]⟩ :: [⟨.del, 2, [97], []⟩]))[23]? = some 97 := by
    rw [List.nil_append, encodeAll_cons, WalRecord.encode, List.append_assoc, List.append_assoc,
      List.append_assoc, List.getElem?_append_right (by simp [headerSize])]
    simp [headerSize]
  refine replayInto_damaged hfits (fun heq => ?_) (i := 23) (fun j hj => ?_) (by simp) rfl ∅
  · have h := congrArg (fun file => file[23]?) heq
    simp only [hkey, List.getElem?_set, if_true] at h
    split_ifs at h
    exact absurd h (by decide)
  · by_cases h : 23 = j
    · subst h
      simp [seqOffset, WalRecord.size, headerSize, WalRecord.payload]
    · rw [List.getElem?_set_ne h] at hj
      exact absurd rfl hj

end KvEngine
