import KvEngine.Wal.Integrity
import KvEngine.Wal.Resume

/-!
# Damaged framing

The checksum of a record covers its header, but where the checksum stands is read from the
header: a byte changed in the type or the length fields moves the place. There the log may
hold anything, a client's key or value for one, and four bytes of it that are the checksum of
what is before them make a record that nobody wrote.

Results:
* `readRecord_ne_none_iff`: what one round of the loop demands of the bytes it is at.
* `replayInto_framing_iff`: a record damaged in its framing is detected exactly when what its
  header announces now does not pass for another record.
-/

namespace KvEngine

/-- `offsetof(WalHeader, type)`. -/
def typeOffset : ℕ := 6

/-- The checksum at the end of what the header at the front announces is that of the bytes before
it. -/
def AnnouncedCrc (s : Bytes) : Prop :=
  (crc32Update 0 (s.take (announcedSize s - 4))).toNat =
    leNat ((s.drop (announcedSize s - 4)).take 4)

/-- What one round of the loop demands of the bytes it is at. -/
structure Passes (s : Bytes) : Prop where
  magic : (WalHeader.ofBytes (s.take headerSize)).magic = kMagic
  version : (WalHeader.ofBytes (s.take headerSize)).version = kVersion
  type : WalType.ofCode (WalHeader.ofBytes (s.take headerSize)).type ≠ none
  size : announcedSize s ≤ s.length
  crc : AnnouncedCrc s

theorem exists_append {s : Bytes} {n : ℕ} (h : n ≤ s.length) :
    ∃ a b, s = a ++ b ∧ a.length = n :=
  ⟨s.take n, s.drop n, (List.take_append_drop n s).symm, List.length_take_of_le h⟩

/-- What the header of a record announces, by the parts of the record. -/
theorem announced_parts {hb k v c : Bytes} (hhb : hb.length = headerSize)
    (hk : k.length = (WalHeader.ofBytes hb).keyLen)
    (hv : v.length = if WalType.ofCode (WalHeader.ofBytes hb).type = some .put then
      (WalHeader.ofBytes hb).valLen else 0) (hc : c.length = 4) (rest : Bytes) :
    let s := hb ++ (k ++ (v ++ (c ++ rest)))
    s.take headerSize = hb ∧ announcedSize s = hb.length + k.length + v.length + 4 ∧
      (AnnouncedCrc s ↔ (recordCrc hb k v).toNat = leNat c) := by
  intro s
  have hheader : s.take headerSize = hb := List.take_left' hhb
  have hsize : announcedSize s = hb.length + k.length + v.length + 4 := by
    simp only [announcedSize, hheader, ← hk, ← hv, hhb]
  have hbody : s = hb ++ k ++ v ++ (c ++ rest) := by simp only [s, List.append_assoc]
  have hlen : announcedSize s - 4 = (hb ++ k ++ v).length := by
    rw [hsize, List.length_append, List.length_append, Nat.add_sub_cancel]
  refine ⟨hheader, hsize, ?_⟩
  rw [AnnouncedCrc, hlen, hbody, List.take_left, List.drop_left, List.take_left' hc, recordCrc,
    ← crc32Update_append, ← crc32Update_append, ← List.append_assoc]

/-- A round of the loop reads a record exactly when the bytes pass. -/
theorem readRecord_ne_none_iff {s : Bytes} : readRecord s ≠ none ↔ Passes s := by
  constructor
  · intro h
    obtain ⟨⟨r, rest⟩, hread⟩ := Option.ne_none_iff_exists'.mp h
    obtain ⟨hb, k, v, c, t, hparts, rfl, -⟩ := readRecord_inv hread
    have hval : v.length = if WalType.ofCode (WalHeader.ofBytes hb).type = some .put then
        (WalHeader.ofBytes hb).valLen else 0 := by
      simp only [hparts.val, hparts.type, Option.some.injEq]
    obtain ⟨hheader, hsize, hannounced⟩ :=
      announced_parts hparts.header hparts.key hval hparts.crc rest
    refine ⟨?_, ?_, ?_, ?_, hannounced.mpr hparts.check⟩
    · rw [hheader, hparts.magic]
    · rw [hheader, hparts.version]
    · rw [hheader, hparts.type]
      exact Option.some_ne_none t
    · have hcrc := hparts.crc
      rw [hsize]
      simp only [List.length_append]
      omega
  · intro h
    have hsize := h.size
    simp only [announcedSize] at hsize
    obtain ⟨hb, s₁, rfl, hhb⟩ := exists_append (show headerSize ≤ s.length by omega)
    have hheader : (hb ++ s₁).take headerSize = hb := List.take_left' hhb
    simp only [hheader, List.length_append] at hsize
    obtain ⟨k, s₂, rfl, hk⟩ :=
      exists_append (show (WalHeader.ofBytes hb).keyLen ≤ s₁.length by omega)
    rw [List.length_append] at hsize
    obtain ⟨v, s₃, rfl, hv⟩ := exists_append (show (if WalType.ofCode (WalHeader.ofBytes hb).type =
      some .put then (WalHeader.ofBytes hb).valLen else 0) ≤ s₂.length by omega)
    rw [List.length_append] at hsize
    obtain ⟨c, rest, rfl, hc⟩ := exists_append (show 4 ≤ s₃.length by omega)
    obtain ⟨-, -, hannounced⟩ := announced_parts hhb hk hv hc rest
    obtain ⟨hmagic, hversion, htype, -, hcrc⟩ := h
    rw [hheader] at hmagic hversion htype
    obtain ⟨t, ht⟩ := Option.ne_none_iff_exists'.mp htype
    have hval : v.length = if t = .put then (WalHeader.ofBytes hb).valLen else 0 := by
      simp only [hv, ht, Option.some.injEq]
    have hparts : RecordParts hb k v c t :=
      ⟨hhb, hmagic, hversion, ht, hk, hval, hc, hannounced.mp hcrc⟩
    rw [hparts.readRecord_eq rest]
    exact Option.some_ne_none _

/-! ## One byte of the framing -/

/-- The bytes `d`, where a record of `n` bytes was, pass for another one: the header announces
another size that the file still has, and at its end the checksum of what is before. -/
structure PassesForAnother (n : ℕ) (d : Bytes) : Prop where
  type : WalType.ofCode (WalHeader.ofBytes (d.take headerSize)).type ≠ none
  moved : announcedSize d ≠ n
  size : announcedSize d ≤ d.length
  crc : AnnouncedCrc d

section Damage

variable {r : WalRecord} {j : ℕ} {b : UInt8}

theorem typeOffset_lt_size (hj : j < seqOffset) : j < r.size := by
  have hoffset : seqOffset < headerSize := by decide
  unfold WalRecord.size
  omega

/-- Magic number and version stand before the type. -/
theorem header_congr {x y : Bytes} (h : x.take typeOffset = y.take typeOffset) :
    (WalHeader.ofBytes x).magic = (WalHeader.ofBytes y).magic ∧
      (WalHeader.ofBytes x).version = (WalHeader.ofBytes y).version := by
  have hmagic : ∀ z : Bytes, z.take 4 = (z.take typeOffset).take 4 := fun z => by
    rw [List.take_take]
    rfl
  have hversion : ∀ z : Bytes, (z.drop 4).take 2 = (z.take typeOffset).drop 4 := fun z => by
    rw [List.drop_take]
    rfl
  constructor
  · show leNat (x.take 4) = leNat (y.take 4)
    rw [hmagic x, hmagic y, h]
  · show leNat ((x.drop 4).take 2) = leNat ((y.drop 4).take 2)
    rw [hversion x, hversion y, h]

/-- So a change from the type on leaves them. -/
theorem take_damaged (hj : typeOffset ≤ j) (u : Bytes) :
    ((r.encode.set j b ++ u).take headerSize).take typeOffset =
      r.header.bytes.take typeOffset := by
  have hsize : typeOffset ≤ r.encode.length := by
    have hoffset : typeOffset ≤ headerSize := by decide
    rw [WalRecord.length_encode, WalRecord.size]
    omega
  have hheader : typeOffset ≤ r.header.bytes.length := by
    rw [WalHeader.length_bytes]
    decide
  have hmin : min typeOffset headerSize = typeOffset := rfl
  rw [List.take_take, hmin, List.take_append_of_le_length (by rwa [List.length_set]),
    List.take_set_of_le hj, WalRecord.encode, List.append_assoc, List.append_assoc,
    List.take_append_of_le_length hheader]

/-- A record changed in one byte is none of its size. -/
theorem announcedSize_damaged (hr : r.Fits) (hj : j < seqOffset) (hb : r.encode[j]? ≠ some b)
    {u : Bytes} (hread : readRecord (r.encode.set j b ++ u) ≠ none) :
    announcedSize (r.encode.set j b ++ u) ≠ r.size := by
  intro hsize
  obtain ⟨⟨r', rest'⟩, hread⟩ := Option.ne_none_iff_exists'.mp hread
  obtain ⟨d', hd', hchecks', hlen'⟩ := checks_of_readRecord hread
  obtain ⟨d, hd, hchecks, -⟩ := checks_of_readRecord (readRecord_encode hr u)
  obtain rfl : r.encode = d := List.append_cancel_right hd
  have hsame : (r.encode.set j b).length = d'.length := by
    rw [List.length_set, WalRecord.length_encode, hlen', hsize]
  obtain ⟨rfl, -⟩ := List.append_inj hd' hsame
  refine not_checks_of_window (d := r.encode) (i := j) List.length_set.symm ?_ ?_ hchecks hchecks'
  · intro heq
    apply hb
    rw [heq, List.getElem?_set_self]
    rw [WalRecord.length_encode]
    exact typeOffset_lt_size hj
  · intro i hi
    by_cases hij : j = i
    · omega
    · rw [List.getElem?_set_ne hij] at hi
      exact absurd rfl hi

/-- A round of the loop at a record with one byte of its framing changed. -/
theorem readRecord_damaged_iff (hr : r.Fits) (hj : typeOffset ≤ j ∧ j < seqOffset)
    (hb : r.encode[j]? ≠ some b) (u : Bytes) :
    readRecord (r.encode.set j b ++ u) ≠ none ↔
      PassesForAnother r.size (r.encode.set j b ++ u) := by
  constructor
  · intro hread
    have hpasses := readRecord_ne_none_iff.mp hread
    exact ⟨hpasses.type, announcedSize_damaged hr hj.2 hb hread, hpasses.size, hpasses.crc⟩
  · intro h
    obtain ⟨hmagic, hversion⟩ := header_congr (take_damaged (r := r) (b := b) hj.1 u)
    refine readRecord_ne_none_iff.mpr ⟨?_, ?_, h.type, h.size, h.crc⟩
    · rw [hmagic, hr.parts.magic]
    · rw [hversion, hr.parts.version]

/-- Where a record is read behind whole records, the last good offset is beyond them. -/
theorem lt_lastGood_of_readRecord {rs : List WalRecord} (hfits : ∀ x ∈ rs, x.Fits) {t : Bytes}
    (ht : readRecord t ≠ none) (m : Map) :
    (encodeAll rs).length < (replay (encodeAll rs ++ t) m).lastGood := by
  obtain ⟨⟨r, u⟩, hread⟩ := Option.ne_none_iff_exists'.mp ht
  obtain ⟨p, rfl, hp⟩ := exists_piece hread
  have hlen := readRecord_length hp
  have hle := le_lastGood_replayLoop u.length u
    ((({ map := m } : Replay).applyAll rs).apply r p.length)
  have hstart : ((({ map := m } : Replay).applyAll rs).apply r p.length).lastGood =
      0 + (encodeAll rs).length + p.length :=
    congrArg (· + p.length) (Replay.applyAll_lastGood _ rs)
  rw [replay, replayLoop_append hfits (p ++ u) le_rfl, replayLoop_piece hp u le_rfl]
  unfold headerSize at hlen
  omega

/-- Where a replay that stopped behind `rs` has its last good offset. -/
theorem Wal.Replays.lastGood_eq {w w' : Wal} {disk : Disk} {m : Map} {rs : List WalRecord}
    {st : Replay} (h : w.Replays disk m rs st w') {file : Bytes} (hfile : disk w.path = some file) :
    (replay file m).lastGood = (encodeAll rs).length := by
  have hreturns := h.returns
  unfold Wal.replayInto at hreturns
  split at hreturns
  · simp at hreturns
  · simp only [hfile, Option.getD_some, Option.some.injEq, Prod.mk.injEq] at hreturns
    rw [← h.lastGoodOffset, ← hreturns.2]

/-- **Damaged framing.** In a file of records that fit the format one byte of a record's type,
key length or value length is changed. Replay applies the records before it and nothing else
exactly when what is left does not pass for another record. -/
theorem replayInto_framing_iff {pre post : List WalRecord}
    (hfits : ∀ x ∈ pre ++ r :: post, x.Fits) (hj : typeOffset ≤ j ∧ j < seqOffset)
    (hb : r.encode[j]? ≠ some b) {w : Wal} (hfd : w.fd ≠ none) {disk : Disk}
    (hfile : disk w.path =
      some ((encodeAll (pre ++ r :: post)).set ((encodeAll pre).length + j) b)) (m : Map) :
    (∃ st w', w.Replays disk m pre st w') ↔
      ¬ PassesForAnother r.size (r.encode.set j b ++ encodeAll post) := by
  have hr : r.Fits := hfits r (by simp)
  have hpre : ∀ x ∈ pre, x.Fits := fun x hx => hfits x (by simp [hx])
  have hsplit : (encodeAll (pre ++ r :: post)).set ((encodeAll pre).length + j) b =
      encodeAll pre ++ (r.encode.set j b ++ encodeAll post) := by
    have hlt : j < r.encode.length := by
      rw [WalRecord.length_encode]
      exact typeOffset_lt_size hj.2
    rw [encodeAll_append, encodeAll_cons, List.set_append_right _ _ (Nat.le_add_right _ _),
      Nat.add_sub_cancel_left, List.set_append_left _ _ hlt]
  rw [hsplit] at hfile
  rw [← readRecord_damaged_iff hr hj hb, not_not]
  constructor
  · rintro ⟨st, w', h⟩
    by_contra hread
    exact absurd (h.lastGood_eq hfile) (lt_lastGood_of_readRecord hpre hread m).ne'
  · exact fun hbreak => Wal.exists_replays hfd hpre hbreak hfile m

end Damage

/-- The type of the first of two records is changed to 9, which is none. -/
theorem replayInto_framing_type :
    ∃ st w', Wal.Replays { fd := some 0, path := "kv.log" }
      (fun _ => some ((encodeAll [⟨.put, 1, [97], [98]⟩, ⟨.del, 2, [97], []⟩]).set 6 9)) ∅
      [] st w' := by
  have hfits : ∀ x ∈ ([] ++ ⟨.put, 1, [97], [98]⟩ :: [⟨.del, 2, [97], []⟩] : List WalRecord),
      x.Fits := by
    intro x hx
    simp only [List.nil_append, List.mem_cons, List.not_mem_nil, or_false] at hx
    rcases hx with rfl | rfl <;> constructor <;> simp
  refine (replayInto_framing_iff hfits (j := 6) (b := 9) ⟨by decide, by decide⟩ (by decide +kernel)
    (by simp) rfl ∅).mpr fun h => h.type (by decide +kernel)

/-- A put whose key holds, from its third byte on, the checksum of a put of `k` and `w`. -/
def forged : WalRecord := ⟨.put, 1, [107, 119, 212, 232, 249, 149], [118]⟩

theorem fits_forged : forged.Fits := by
  constructor <;> simp [forged]

/-- What its bytes are once the length of its key is changed to 1. -/
def forgery : WalRecord := ⟨.put, 1, [107], [119]⟩

theorem fits_forgery : ∀ x ∈ [forgery], x.Fits := by
  intro x hx
  obtain rfl := List.mem_singleton.mp hx
  constructor <;> simp [forgery]

theorem forged_set :
    ∃ rest, forged.encode.set 7 1 = encodeAll [forgery] ++ rest ∧ rest.length = 5 := by
  have hbody : (forged.header.bytes ++ forged.key ++ forged.payload).set 7 1 =
      forgery.encode ++ [118] := by
    decide +kernel
  refine ⟨[118] ++ leBytes 4 (recordCrc forged.header.bytes forged.key forged.payload).toNat, ?_,
    ?_⟩
  · rw [WalRecord.encode, List.set_append_left _ _ (by decide +kernel), hbody, List.append_assoc,
      encodeAll_cons, encodeAll_nil, List.append_nil]
  · rw [List.length_append, length_leBytes]
    rfl

/-- Replay applies the put of `k` and `w`, which nobody made. -/
theorem not_replayInto_framing :
    ¬ (∀ (pre post : List WalRecord) (r : WalRecord) (j : ℕ) (b : UInt8),
      (∀ x ∈ pre ++ r :: post, x.Fits) → typeOffset ≤ j ∧ j < seqOffset → r.encode[j]? ≠ some b →
      ∀ (w : Wal) (disk : Disk) (m : Map), w.fd ≠ none →
        disk w.path = some ((encodeAll (pre ++ r :: post)).set ((encodeAll pre).length + j) b) →
        ∃ st w', w.Replays disk m pre st w') ∧
    (replay (forged.encode.set 7 1) ∅).map.lookup [107] = some [119] := by
  obtain ⟨rest, hrest, hlen⟩ := forged_set
  constructor
  · intro hclaim
    have hfits : ∀ x ∈ [] ++ forged :: [], x.Fits := by
      intro x hx
      obtain rfl := List.mem_singleton.mp hx
      exact fits_forged
    have hfile : (encodeAll ([] ++ forged :: [])).set (([] : Bytes).length + 7) 1 =
        encodeAll [] ++ forged.encode.set 7 1 := by
      simp
    have hread : readRecord (forged.encode.set 7 1) ≠ none := by
      rw [hrest, encodeAll_cons, List.append_assoc,
        readRecord_encode (fits_forgery _ (List.mem_singleton_self _))]
      exact Option.some_ne_none _
    obtain ⟨st, w', h⟩ := hclaim [] [] forged 7 1 hfits ⟨by decide, by decide⟩ (by decide +kernel)
      { fd := some 0, path := "kv.log" } (fun _ => some (encodeAll [] ++ forged.encode.set 7 1)) ∅
      (by simp) (congrArg some hfile.symm)
    have hlt := lt_lastGood_of_readRecord (List.forall_mem_nil WalRecord.Fits) hread ∅
    exact absurd (h.lastGood_eq rfl) hlt.ne'
  · -- five bytes are left behind the forgery
    have hend : readRecord rest = none := by
      by_contra hread
      obtain ⟨⟨r, u⟩, hread⟩ := Option.ne_none_iff_exists'.mp hread
      have hle := readRecord_length hread
      unfold headerSize at hle
      omega
    rw [hrest, replay_encode fits_forgery hend, Replay.applyAll_map]
    exact Finmap.lookup_insert _

end KvEngine
