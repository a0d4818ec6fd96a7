import KvEngine.Wal.Crc

/-!
# The records of the write-ahead log

The on-disk format of `src/wal.cpp`: a packed 23-byte header, the key, the value
(of a `PUT` only) and the CRC-32 of all that. `WalRecord.encode` is what
`write_record` builds, `readRecord` one round of the loop of `replay_into`.

Results:
* `RecordParts.readRecord_eq`, `readRecord_inv`: what a round reads, by the parts of the record.
* `readRecord_encode`: a record whose lengths fit the 32-bit fields is read back.
* `readRecord_extend`: what a successful round returns does not depend on the
  bytes after the record.
* `readRecord_take_encode`: a record cut anywhere before its end is not read.
-/

namespace KvEngine

/-- `Wal::Type` (`include/kv/wal.h`, line 14). -/
inductive WalType where
  | put
  | del
  deriving DecidableEq

/-- The value of the enumerator: `Put = 1, Del = 2`. -/
def WalType.code : WalType → ℕ
  | .put => 1
  | .del => 2

/-- `struct WalHeader` (lines 69–76); each field as the number it holds. -/
structure WalHeader where
  magic : ℕ
  version : ℕ
  type : ℕ
  keyLen : ℕ
  valLen : ℕ
  seq : ℕ
  deriving DecidableEq

/-- `kMagic` (line 79), the bytes `KVLG`. -/
def kMagic : ℕ := 0x474C564B

/-- `kVersion` (line 80). -/
def kVersion : ℕ := 1

/-- The packed bytes of a header. -/
def WalHeader.bytes (h : WalHeader) : Bytes :=
  leBytes 4 h.magic ++ leBytes 2 h.version ++ leBytes 1 h.type ++ leBytes 4 h.keyLen ++
    leBytes 4 h.valLen ++ leBytes 8 h.seq

/-- The header whose packed bytes are `b`. -/
def WalHeader.ofBytes (b : Bytes) : WalHeader where
  magic := leNat (b.take 4)
  version := leNat ((b.drop 4).take 2)
  type := leNat ((b.drop 6).take 1)
  keyLen := leNat ((b.drop 7).take 4)
  valLen := leNat ((b.drop 11).take 4)
  seq := leNat ((b.drop 15).take 8)

/-- `sizeof(WalHeader)`. -/
def headerSize : ℕ := 23

@[simp] theorem WalHeader.length_bytes (h : WalHeader) : h.bytes.length = headerSize := by
  simp [WalHeader.bytes, headerSize]

/-- Every field survives the header's bytes up to its width. -/
theorem WalHeader.ofBytes_bytes (h : WalHeader) :
    WalHeader.ofBytes h.bytes =
      ⟨h.magic % 2 ^ 32, h.version % 2 ^ 16, h.type % 2 ^ 8, h.keyLen % 2 ^ 32,
        h.valLen % 2 ^ 32, h.seq % 2 ^ 64⟩ := by
  simp only [WalHeader.ofBytes, WalHeader.bytes, WalHeader.mk.injEq]
  refine ⟨?_, ?_, ?_, ?_, ?_, ?_⟩ <;> simp [List.drop_append, List.take_of_length_le,
    List.drop_eq_nil_of_le, leNat_leBytes]

/-- The arguments of `write_record`, and what `replay_into` reads back. -/
structure WalRecord where
  type : WalType
  seq : ℕ
  key : Bytes
  value : Bytes
  deriving DecidableEq

/-- The bytes of a value that are written and checked: none for a `DEL`. -/
def WalRecord.payload (r : WalRecord) : Bytes :=
  match r.type with
  | .put => r.value
  | .del => []

/-- The header `write_record` fills in (lines 106–112). The lengths go through
`static_cast<uint32_t>`. -/
def WalRecord.header (r : WalRecord) : WalHeader where
  magic := kMagic
  version := kVersion
  type := r.type.code
  keyLen := r.key.length % 2 ^ 32
  valLen := r.value.length % 2 ^ 32
  seq := r.seq

/-- The checksum `write_record` and `replay_into` compute over header, key and,
for a `PUT`, value (lines 114–119 and 184–189). -/
def recordCrc (header key payload : Bytes) : BitVec 32 :=
  crc32Update (crc32Update (crc32Update 0 header) key) payload

/-- The bytes `Wal::write_record` (lines 103–149) pushes on the buffer. -/
def WalRecord.encode (r : WalRecord) : Bytes :=
  r.header.bytes ++ r.key ++ r.payload ++
    leBytes 4 (recordCrc r.header.bytes r.key r.payload).toNat

/-- The lengths fit the header's 32-bit fields, and a `DEL` has no value, as
`append_del` passes it. -/
structure WalRecord.Fits (r : WalRecord) : Prop where
  key_lt : r.key.length < 2 ^ 32
  value_lt : r.value.length < 2 ^ 32
  seq_lt : r.seq < 2 ^ 64
  value_del : r.type = .del → r.value = []

/-- The size of a record on disk. -/
def WalRecord.size (r : WalRecord) : ℕ := headerSize + r.key.length + r.payload.length + 4

@[simp] theorem WalRecord.length_encode (r : WalRecord) : r.encode.length = r.size := by
  simp [WalRecord.encode, WalRecord.size, Nat.add_assoc]

theorem WalRecord.size_pos (r : WalRecord) : 0 < r.size := by
  simp [WalRecord.size]

/-- The type a header's `type` byte stands for. -/
def WalType.ofCode (c : ℕ) : Option WalType :=
  if c = WalType.put.code then some .put else if c = WalType.del.code then some .del else none

@[simp] theorem WalType.ofCode_code (t : WalType) : WalType.ofCode t.code = some t := by
  cases t <;> rfl

/-- One round of the loop of `Wal::replay_into` (lines 162–194) up to the
checksum: the record at the front of `rest` and the bytes after it, or `none`
where the loop breaks (end of file, truncated header, bad magic, version or
type, truncated key, value or checksum, checksum mismatch). The value of a
`DEL` is never read, whatever its `val_len`; it is `val_len` zero bytes that
nothing uses. -/
def readRecord (rest : Bytes) : Option (WalRecord × Bytes) := do
  let (hb, rest) ← readExact rest headerSize
  let h := WalHeader.ofBytes hb
  guard (h.magic = kMagic ∧ h.version = kVersion)
  let type ← WalType.ofCode h.type
  let (key, rest) ← readExact rest h.keyLen
  let (val, rest) ← readExact rest (if type = .put then h.valLen else 0)
  let (storedCrc, rest) ← readExact rest 4
  guard ((recordCrc hb key val).toNat = leNat storedCrc)
  some (⟨type, h.seq, key, val⟩, rest)

/-! ## The parts of a record -/

/-- Header, key, value and checksum that pass the checks of the loop, for a record of type `t`. -/
structure RecordParts (hb k v c : Bytes) (t : WalType) : Prop where
  header : hb.length = headerSize
  magic : (WalHeader.ofBytes hb).magic = kMagic
  version : (WalHeader.ofBytes hb).version = kVersion
  type : WalType.ofCode (WalHeader.ofBytes hb).type = some t
  key : k.length = (WalHeader.ofBytes hb).keyLen
  val : v.length = if t = .put then (WalHeader.ofBytes hb).valLen else 0
  crc : c.length = 4
  check : (recordCrc hb k v).toNat = leNat c

/-- Parts that pass are read, whatever is behind them. -/
theorem RecordParts.readRecord_eq {hb k v c : Bytes} {t : WalType} (h : RecordParts hb k v c t)
    (rest : Bytes) :
    readRecord (hb ++ (k ++ (v ++ (c ++ rest)))) =
      some (⟨t, (WalHeader.ofBytes hb).seq, k, v⟩, rest) := by
  unfold readRecord
  simp only [readExact_append h.header, Option.bind_eq_bind, Option.bind_some, h.magic, h.version,
    h.type, and_self, guard_true, Option.pure_def, readExact_append h.key, readExact_append h.val,
    readExact_append h.crc, h.check]

/-- The inversion of `readRecord`: every proof about what it reads starts from it. -/
theorem readRecord_inv {s rest : Bytes} {r : WalRecord} (h : readRecord s = some (r, rest)) :
    ∃ hb k v c t, RecordParts hb k v c t ∧ s = hb ++ (k ++ (v ++ (c ++ rest))) ∧
      r = ⟨t, (WalHeader.ofBytes hb).seq, k, v⟩ := by
  unfold readRecord at h
  simp only [Option.bind_eq_bind, Option.bind_eq_some_iff, Option.guard_eq_some', Prod.exists,
    Option.some.injEq, Prod.mk.injEq] at h
  obtain ⟨hb, s₁, h₁, -, ⟨hmagic, hversion⟩, t, ht, k, s₂, h₂, v, s₃, h₃, c, s₄, h₄, -, hcrc, rfl,
    rfl⟩ := h
  obtain ⟨rfl, hlen₁⟩ := readExact_length h₁
  obtain ⟨rfl, hlen₂⟩ := readExact_length h₂
  obtain ⟨rfl, hlen₃⟩ := readExact_length h₃
  obtain ⟨rfl, hlen₄⟩ := readExact_length h₄
  exact ⟨hb, k, v, c, t, ⟨hlen₁, hmagic, hversion, ht, hlen₂, hlen₃, hlen₄, hcrc⟩, rfl, rfl⟩

/-- The bytes of a record that was read are read alike in front of anything. -/
theorem readRecord_split {s rest : Bytes} {r : WalRecord} (h : readRecord s = some (r, rest)) :
    ∃ d, s = d ++ rest ∧ ∀ u, readRecord (d ++ u) = some (r, u) := by
  obtain ⟨hb, k, v, c, t, hparts, rfl, rfl⟩ := readRecord_inv h
  refine ⟨hb ++ (k ++ (v ++ c)), by simp only [List.append_assoc], fun u => ?_⟩
  simp only [List.append_assoc, hparts.readRecord_eq]

/-- A round of the loop never looks past the record it returns. -/
theorem readRecord_extend {s rest : Bytes} {r : WalRecord} (h : readRecord s = some (r, rest))
    (u : Bytes) : readRecord (s ++ u) = some (r, rest ++ u) := by
  obtain ⟨d, rfl, hd⟩ := readRecord_split h
  rw [List.append_assoc, hd]

/-- A round of the loop consumes at least a header and a checksum. -/
theorem readRecord_length {s rest : Bytes} {r : WalRecord} (h : readRecord s = some (r, rest)) :
    rest.length + headerSize + 4 ≤ s.length := by
  obtain ⟨hb, k, v, c, t, hparts, rfl, -⟩ := readRecord_inv h
  have hheader := hparts.header
  have hcrc := hparts.crc
  simp only [List.length_append]
  omega

/-- The number of a record that is read is one of 64 bits. -/
theorem readRecord_seq_lt {s rest : Bytes} {r : WalRecord} (h : readRecord s = some (r, rest)) :
    r.seq < 2 ^ 64 := by
  obtain ⟨hb, k, v, c, t, -, -, rfl⟩ := readRecord_inv h
  have hlen : ((hb.drop 15).take 8).length ≤ 8 := by rw [List.length_take]; exact min_le_left _ _
  calc leNat ((hb.drop 15).take 8) < 256 ^ ((hb.drop 15).take 8).length := leNat_lt _
    _ ≤ 256 ^ 8 := Nat.pow_le_pow_right (by norm_num) hlen
    _ = 2 ^ 64 := by norm_num

/-! ## Round trip -/

theorem WalRecord.ofBytes_header {r : WalRecord} (h : r.Fits) :
    WalHeader.ofBytes r.header.bytes = r.header := by
  rw [WalHeader.ofBytes_bytes]
  have ht : r.type.code < 2 ^ 8 := by cases r.type <;> decide
  have hmagic : kMagic % 2 ^ 32 = kMagic := rfl
  have hversion : kVersion % 2 ^ 16 = kVersion := rfl
  simp only [WalRecord.header, Nat.mod_mod, Nat.mod_eq_of_lt ht, Nat.mod_eq_of_lt h.seq_lt, hmagic,
    hversion]

theorem WalRecord.Fits.payload_eq {r : WalRecord} (h : r.Fits) : r.payload = r.value := by
  unfold WalRecord.payload
  cases hr : r.type with
  | put => rfl
  | del => exact (h.value_del hr).symm

/-- What `write_record` writes passes the checks. -/
theorem WalRecord.Fits.parts {r : WalRecord} (h : r.Fits) :
    RecordParts r.header.bytes r.key r.payload
      (leBytes 4 (recordCrc r.header.bytes r.key r.payload).toNat) r.type := by
  have hheader := WalRecord.ofBytes_header h
  refine ⟨WalHeader.length_bytes _, ?_, ?_, ?_, ?_, ?_, length_leBytes _ _, ?_⟩
  · rw [hheader]
    rfl
  · rw [hheader]
    rfl
  · rw [hheader]
    exact WalType.ofCode_code r.type
  · rw [hheader]
    exact (Nat.mod_eq_of_lt h.key_lt).symm
  · rw [hheader]
    unfold WalRecord.payload
    cases r.type with
    | put => exact (Nat.mod_eq_of_lt h.value_lt).symm
    | del => rfl
  · have hcrc : (recordCrc r.header.bytes r.key r.payload).toNat < 256 ^ 4 := BitVec.isLt _
    exact (leNat_leBytes_of_lt hcrc).symm

/-- Reading in front of `u` a record that fits gives the record back and leaves `u`. -/
theorem readRecord_encode {r : WalRecord} (h : r.Fits) (u : Bytes) :
    readRecord (r.encode ++ u) = some (r, u) := by
  have hread := h.parts.readRecord_eq u
  rw [WalRecord.ofBytes_header h, h.payload_eq] at hread
  simp only [WalRecord.encode, List.append_assoc, h.payload_eq, hread]
  rfl

/-- A torn record is not read: no proper prefix of a record parses. -/
theorem readRecord_take_encode {r : WalRecord} (h : r.Fits) {n : ℕ} (hn : n < r.size) :
    readRecord (r.encode.take n) = none := by
  by_contra hne
  obtain ⟨⟨r', rest⟩, hr'⟩ := Option.ne_none_iff_exists'.mp hne
  have hext := readRecord_extend hr' (r.encode.drop n)
  rw [List.take_append_drop] at hext
  have henc := readRecord_encode h []
  rw [List.append_nil, hext] at henc
  have hnil : rest ++ r.encode.drop n = [] := (Prod.mk.inj (Option.some.inj henc)).2
  have hdrop : r.encode.drop n = [] := (List.append_eq_nil_iff.mp hnil).2
  rw [List.drop_eq_nil_iff, WalRecord.length_encode] at hdrop
  omega

end KvEngine
