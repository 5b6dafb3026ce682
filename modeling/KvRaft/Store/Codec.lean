import KvRaft.Lib.Frames
import KvRaft.Lib.LittleEndian
import KvRaft.Raft.Rpc

/-! The record formats of `kvstore/codec.go`. A reader is what is left of a file. -/

namespace KvRaft.Store

open LittleEndian Frames

/-- The errors of the package, and those of the files under it. -/
inductive Err
  | keyNotFound
  | readOnly
  | writerLocked
  | corruptData
  /-- `os.ErrClosed` -/
  | closed
  /-- the value of `Put` is the tombstone -/
  | reservedValue
  | noActiveFile
  /-- a file name that `validateLayout` refuses -/
  | layout (name : String)
  | eof
  | unexpectedEOF
  | notExist
  /-- any other failure of a file-system call -/
  | fault
deriving DecidableEq

/-- `decodedRecord` -/
structure Record where
  timestamp : Int64
  key : Bytes
  value : Bytes
deriving DecidableEq

structure HintRecord where
  timestamp : Int64
  key : Bytes
  recordOff : Int64
  recordSize : UInt32
  tombstone : Bool
deriving DecidableEq

/-- `__bitcask_tombstone__` -/
def tombstoneValue : Bytes :=
  [95, 95, 98, 105, 116, 99, 97, 115, 107, 95, 116, 111, 109, 98, 115, 116, 111, 110, 101, 95, 95]

/-- The CRC-32 register after one more byte. -/
def crcByte (c : UInt32) (b : UInt8) : UInt32 :=
  (List.range 8).foldl
    (fun c _ => if c &&& 1 = 1 then (c >>> 1) ^^^ 0xEDB88320 else c >>> 1) (c ^^^ b.toUInt32)

/-- `crc32.ChecksumIEEE` -/
def crc32 (bs : Bytes) : UInt32 := ~~~ bs.foldl crcByte 0xFFFFFFFF

/-- `io.ReadFull`: the bytes and the rest of the reader, `io.EOF` if it read nothing of what was
asked for, and `io.ErrUnexpectedEOF` if it read only a part. -/
def readFull (n : Nat) (r : Bytes) : Except Err (Bytes × Bytes) :=
  if n ≤ r.length then .ok (r.take n, r.drop n)
  else if r = [] then .error .eof
  else .error .unexpectedEOF

/-- The bytes that the checksum of a record covers. -/
def payload (timestamp : Int64) (key value : Bytes) : Bytes :=
  bytesLE 8 timestamp.toUInt64.toNat ++ bytesLE 4 key.length ++ bytesLE 4 value.length ++
    key ++ value

def encodeDataRecord (timestamp : Int64) (key value : Bytes) : Bytes :=
  bytesLE 4 (crc32 (payload timestamp key value)).toNat ++ payload timestamp key value

def decodeDataRecord (r : Bytes) : Except Err (Record × Nat) := do
  let (crcBuf, r) ← readFull 4 r
  let (metaBuf, r) ← readFull 16 r
  let timestamp := (UInt64.ofNat (natLE (metaBuf.take 8))).toInt64
  let keySize := natLE ((metaBuf.drop 8).take 4)
  let valueSize := natLE (metaBuf.drop 12)
  let (key, r) ← readFull keySize r
  let (value, _) ← readFull valueSize r
  if (crc32 (metaBuf ++ key ++ value)).toNat ≠ natLE crcBuf then throw .corruptData
  return ({ timestamp, key, value }, 4 + 16 + keySize + valueSize)

def encodeHintRecord (hr : HintRecord) : Bytes :=
  bytesLE 8 hr.timestamp.toUInt64.toNat ++ bytesLE 8 hr.recordOff.toUInt64.toNat ++
    bytesLE 4 hr.recordSize.toNat ++ bytesLE 1 (if hr.tombstone then 1 else 0) ++
    bytesLE 4 hr.key.length ++ hr.key

def decodeHintRecord (r : Bytes) : Except Err (HintRecord × Nat) := do
  let (ts, r) ← readFull 8 r
  let (off, r) ← readFull 8 r
  let (recSize, r) ← readFull 4 r
  let (tombstone, r) ← readFull 1 r
  let (keySize, r) ← readFull 4 r
  let (key, _) ← readFull (natLE keySize) r
  return ({ timestamp := (UInt64.ofNat (natLE ts)).toInt64
            key := key
            recordOff := (UInt64.ofNat (natLE off)).toInt64
            recordSize := UInt32.ofNat (natLE recSize)
            tombstone := natLE tombstone = 1 }, 8 + 8 + 4 + 1 + 4 + natLE keySize)

/-- The loop that decodes a file from its start: the records with their sizes, and the error that
ends it. Every record takes at least one byte. -/
def records (bs : Bytes) : List (Record × Nat) × Err :=
  readAll decodeDataRecord .eof (bs.length + 1) bs

def hints (bs : Bytes) : List (HintRecord × Nat) × Err :=
  readAll decodeHintRecord .eof (bs.length + 1) bs

namespace Record

def encode (r : Record) : Bytes := encodeDataRecord r.timestamp r.key r.value

/-- The length of the record in a data file. -/
def size (r : Record) : Nat := 20 + r.key.length + r.value.length

/-- The size fields hold the lengths. -/
def Fits (r : Record) : Prop := r.key.length < 2 ^ 32 ∧ r.value.length < 2 ^ 32

instance (r : Record) : Decidable r.Fits := inferInstanceAs (Decidable (_ ∧ _))

def tombstone (r : Record) : Bool := r.value = tombstoneValue

@[simp] theorem length_encode (r : Record) : r.encode.length = r.size := by
  simp [encode, encodeDataRecord, payload, size]
  omega

end Record

theorem readFull_append {n : Nat} {a b : Bytes} (h : a.length = n) :
    readFull n (a ++ b) = .ok (a, b) := by
  subst h
  simp [readFull]

theorem readFull_short {n : Nat} {r : Bytes} (h : r.length < n) :
    readFull n r = .error (if r = [] then .eof else .unexpectedEOF) := by
  rw [readFull, if_neg (by omega)]
  split <;> rfl

theorem natLE_length {n : Nat} (h : n < 2 ^ 32) : natLE (bytesLE 4 n) = n :=
  natLE_bytesLE_of_lt (by omega)

theorem int64_bytes (x : Int64) :
    (UInt64.ofNat (natLE (bytesLE 8 x.toUInt64.toNat))).toInt64 = x := by
  rw [natLE_bytesLE_of_lt (by have := x.toUInt64.toNat_lt; omega), UInt64.ofNat_toNat,
    Int64.toInt64_toUInt64]

section Short

variable {t : Bytes}

/-- The sizes in the header of a record. -/
def keySizeAt (t : Bytes) : Nat := natLE ((t.drop 12).take 4)

def valueSizeAt (t : Bytes) : Nat := natLE ((t.drop 16).take 4)

/-- A record that ends before its last byte. -/
def Short (t : Bytes) : Prop := t.length < 20 + keySizeAt t + valueSizeAt t

/-- The places between the reads of `decodeDataRecord`. -/
def Boundary (t : Bytes) : Prop :=
  t.length = 0 ∨ t.length = 4 ∨ t.length = 20 ∨ t.length = 20 + keySizeAt t

instance (t : Bytes) : Decidable (Short t) := inferInstanceAs (Decidable (_ < _))

instance (t : Bytes) : Decidable (Boundary t) := inferInstanceAs (Decidable (_ ∨ _))

theorem readFull_take {n : Nat} (h : n ≤ t.length) : readFull n t = .ok (t.take n, t.drop n) :=
  if_pos h

/-- The reads of `decodeDataRecord` after the header. -/
theorem decode_body (h : 20 ≤ t.length) : decodeDataRecord t = (do
    let (key, rest) ← readFull (keySizeAt t) (t.drop 20)
    let (value, _) ← readFull (valueSizeAt t) rest
    if (crc32 ((t.drop 4).take 16 ++ key ++ value)).toNat ≠ natLE (t.take 4) then
      throw .corruptData
    return ({ timestamp := (UInt64.ofNat (natLE ((t.drop 4).take 8))).toInt64, key, value },
      4 + 16 + keySizeAt t + valueSizeAt t)) := by
  have hts : ((t.drop 4).take 16).take 8 = (t.drop 4).take 8 := by simp [List.take_take]
  have hkey : (((t.drop 4).take 16).drop 8).take 4 = (t.drop 12).take 4 := by
    simp [List.drop_take, List.take_take]
  have hvalue : ((t.drop 4).take 16).drop 12 = (t.drop 16).take 4 := by
    simp [List.drop_take]
  have hrest : (t.drop 4).drop 16 = t.drop 20 := by simp
  rw [decodeDataRecord, readFull_take (show 4 ≤ t.length by omega)]
  simp only [bind, Except.bind]
  rw [readFull_take (show 16 ≤ (t.drop 4).length by rw [List.length_drop]; omega)]
  simp only [hts, hkey, hvalue, hrest, keySizeAt, valueSizeAt]

/-- An incomplete record is reported by the read that it ends in. -/
theorem decode_short (h : Short t) :
    decodeDataRecord t = .error (if Boundary t then .eof else .unexpectedEOF) := by
  have hend : ∀ l : Bytes, (l.length = 0 ↔ Boundary t) →
      (Except.error (if l = [] then .eof else .unexpectedEOF) : Except Err (Record × Nat)) =
        .error (if Boundary t then .eof else .unexpectedEOF) := fun l hl =>
    congrArg Except.error (if_congr (List.length_eq_zero_iff.symm.trans hl) rfl rfl)
  rw [Short] at h
  by_cases h20 : 20 ≤ t.length
  · rw [decode_body h20]
    by_cases hkey : t.length < 20 + keySizeAt t
    · rw [readFull_short (by rw [List.length_drop]; omega)]
      refine hend _ ?_
      rw [List.length_drop, Boundary]
      omega
    · rw [readFull_take (by rw [List.length_drop]; omega)]
      simp only [bind, Except.bind]
      rw [readFull_short (by rw [List.length_drop, List.length_drop]; omega)]
      refine hend _ ?_
      rw [List.length_drop, List.length_drop, Boundary]
      omega
  · rw [decodeDataRecord]
    by_cases h4 : 4 ≤ t.length
    · rw [readFull_take h4]
      simp only [bind, Except.bind]
      rw [readFull_short (by rw [List.length_drop]; omega)]
      refine hend _ ?_
      rw [List.length_drop, Boundary]
      omega
    · rw [readFull_short (by omega)]
      refine hend _ ?_
      rw [Boundary]
      omega

end Short

namespace Record

/-- The timestamp and the size fields. -/
def header (r : Record) : Bytes :=
  bytesLE 8 r.timestamp.toUInt64.toNat ++ (bytesLE 4 r.key.length ++ bytesLE 4 r.value.length)

def crc (r : Record) : Bytes := bytesLE 4 (crc32 (payload r.timestamp r.key r.value)).toNat

variable {r : Record}

theorem length_header : r.header.length = 16 := by simp [header]

theorem length_crc : r.crc.length = 4 := by simp [crc]

theorem encode_eq : r.encode = r.crc ++ (r.header ++ (r.key ++ r.value)) := by
  simp [encode, encodeDataRecord, payload, crc, header]

theorem header_timestamp : (UInt64.ofNat (natLE (r.header.take 8))).toInt64 = r.timestamp := by
  rw [header, List.take_left' (by simp), int64_bytes]

theorem header_keySize (h : r.Fits) : natLE ((r.header.drop 8).take 4) = r.key.length := by
  rw [header, List.drop_left' (by simp), List.take_left' (by simp), natLE_length h.1]

theorem header_valueSize (h : r.Fits) : natLE (r.header.drop 12) = r.value.length := by
  rw [header, ← List.append_assoc, List.drop_left' (by simp), natLE_length h.2]

theorem keySizeAt_header (h : r.Fits) (rest : Bytes) :
    keySizeAt (r.crc ++ (r.header ++ rest)) = r.key.length := by
  have hfield : ((r.crc ++ (r.header ++ rest)).drop 12).take 4 = (r.header.drop 8).take 4 := by
    simp [length_crc, length_header, List.drop_append, List.take_append]
  rw [keySizeAt, hfield, header_keySize h]

theorem valueSizeAt_header (h : r.Fits) (rest : Bytes) :
    valueSizeAt (r.crc ++ (r.header ++ rest)) = r.value.length := by
  have hfield : ((r.crc ++ (r.header ++ rest)).drop 16).take 4 = r.header.drop 12 := by
    simp [length_crc, length_header, List.drop_append, List.take_append]
  rw [valueSizeAt, hfield, header_valueSize h]

/-- What is left to decode once the checksum and the header have been read. -/
theorem decode_header (h : r.Fits) (rest : Bytes) :
    decodeDataRecord (r.crc ++ (r.header ++ rest)) = (do
      let (key, rest) ← readFull r.key.length rest
      let (value, _) ← readFull r.value.length rest
      if (crc32 (r.header ++ key ++ value)).toNat ≠ natLE r.crc then throw .corruptData
      return ({ timestamp := r.timestamp, key, value },
        4 + 16 + r.key.length + r.value.length)) := by
  simp only [decodeDataRecord, readFull_append length_crc, readFull_append length_header, bind,
    Except.bind, header_timestamp, header_keySize h, header_valueSize h]

theorem decode_encode (h : r.Fits) (rest : Bytes) :
    decodeDataRecord (r.encode ++ rest) = .ok (r, r.encode.length) := by
  have hcrc : (crc32 (r.header ++ r.key ++ r.value)).toNat = natLE r.crc := by
    rw [crc, natLE_bytesLE_of_lt
      (by have := (crc32 (payload r.timestamp r.key r.value)).toNat_lt; omega)]
    simp [payload, header]
  rw [length_encode, encode_eq, List.append_assoc, List.append_assoc, decode_header h,
    List.append_assoc, readFull_append rfl]
  simp only [bind, Except.bind, readFull_append rfl, hcrc, ne_eq, not_true_eq_false, if_false]
  rfl

/-- The lengths at which a record cut short ends with one of the reads of `decodeDataRecord`. -/
def CleanCut (r : Record) (c : Nat) : Prop := c = 0 ∨ c = 4 ∨ c = 20 ∨ c = 20 + r.key.length

instance (r : Record) (c : Nat) : Decidable (r.CleanCut c) :=
  inferInstanceAs (Decidable (_ ∨ _))

/-- A record cut short is reported as a clean end of file if the cut is at the end of a read, and
else as an unexpected one. -/
theorem decode_take (h : r.Fits) {c : Nat} (hc : c < r.size) :
    decodeDataRecord (r.encode.take c) =
      .error (if r.CleanCut c then .eof else .unexpectedEOF) := by
  have hsize : r.size = 20 + r.key.length + r.value.length := rfl
  have hlen : (r.encode.take c).length = c := by
    rw [List.length_take, length_encode]
    omega
  have hfields : 20 ≤ c → keySizeAt (r.encode.take c) = r.key.length ∧
      valueSizeAt (r.encode.take c) = r.value.length := by
    intro h20
    rw [encode_eq, List.take_append, List.take_append, length_crc, length_header,
      List.take_of_length_le (by rw [length_crc]; omega),
      List.take_of_length_le (by rw [length_header]; omega)]
    exact ⟨keySizeAt_header h _, valueSizeAt_header h _⟩
  have hshort : Short (r.encode.take c) := by
    rw [Short, hlen]
    omega
  have hclean : Boundary (r.encode.take c) ↔ r.CleanCut c := by
    rw [Boundary, CleanCut, hlen]
    omega
  rw [decode_short hshort, if_congr hclean rfl rfl]

theorem codec : Codec Fits encode decodeDataRecord where
  pos r := by
    rw [length_encode, size]
    omega
  read _ rest h := decode_encode h rest

end Record

/-- Reading back a data file: the records in order, and the reason why what follows them is not
one. -/
theorem records_append {rs : List Record} (h : ∀ r ∈ rs, r.Fits) {tail : Bytes} {e : Err}
    (ht : decodeDataRecord tail = .error e) :
    records (rs.flatMap Record.encode ++ tail) = (rs.map fun r => (r, r.size), e) := by
  rw [records, Record.codec.readAll Err.eof h ht (Nat.lt_succ_self _)]
  simp

/-- The records of a data file are read whatever follows them. -/
theorem mem_records {rs : List Record} {r : Record} (h : ∀ r ∈ rs, r.Fits) (hr : r ∈ rs)
    (tail : Bytes) : (r, r.size) ∈ (records (rs.flatMap Record.encode ++ tail)).1 := by
  have hlen := Record.codec.length_le rs
  rw [records, Record.codec.readAll_append Err.eof h (by rw [List.length_append]; omega)]
  exact List.mem_append_left _ (List.mem_map.mpr ⟨r, hr, by rw [r.length_encode]⟩)

theorem decode_nil : decodeDataRecord [] = .error .eof := rfl

theorem records_flatMap {rs : List Record} (h : ∀ r ∈ rs, r.Fits) :
    records (rs.flatMap Record.encode) = (rs.map fun r => (r, r.size), .eof) := by
  have hread := records_append h decode_nil
  rwa [List.append_nil] at hread

namespace HintRecord

def Fits (h : HintRecord) : Prop := h.key.length < 2 ^ 32

theorem decode_encode {h : HintRecord} (hf : h.Fits) (rest : Bytes) :
    decodeHintRecord (encodeHintRecord h ++ rest) = .ok (h, (encodeHintRecord h).length) := by
  have hsize : natLE (bytesLE 4 h.recordSize.toNat) = h.recordSize.toNat :=
    natLE_length h.recordSize.toNat_lt
  have htomb : decide (natLE (bytesLE 1 (if h.tombstone then 1 else 0)) = 1) = h.tombstone := by
    cases h.tombstone <;> rfl
  simp only [encodeHintRecord, List.append_assoc, decodeHintRecord, bind, Except.bind, pure,
    Except.pure]
  simp only [readFull_append, length_bytesLE, natLE_length hf, int64_bytes, hsize, htomb,
    UInt32.ofNat_toNat, List.length_append]
  congr 2
  omega

theorem codec : Codec Fits encodeHintRecord decodeHintRecord where
  pos _ := by
    simp only [encodeHintRecord, List.length_append, length_bytesLE]
    omega
  read _ rest h := decode_encode h rest

end HintRecord

theorem hints_flatMap {hs : List HintRecord} (h : ∀ x ∈ hs, x.Fits) :
    hints (hs.flatMap encodeHintRecord) =
      (hs.map fun x => (x, (encodeHintRecord x).length), .eof) := by
  have hlen : (hs.flatMap encodeHintRecord ++ []).length <
      (hs.flatMap encodeHintRecord).length + 1 := by
    simp
  simpa [hints] using HintRecord.codec.readAll Err.eof h rfl hlen

end KvRaft.Store
