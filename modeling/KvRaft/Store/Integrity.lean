import KvRaft.Lib.Checksum
import KvRaft.Store.Read

/-! What the format of a data file guarantees: records are read back exactly, nothing else is read
as a record, and a record of which one byte has changed is not served. -/

namespace KvRaft.Store

open Std LittleEndian Checksum

theorem readFull_eq_ok {n : Nat} {r a b : Bytes} (h : readFull n r = .ok (a, b)) :
    r = a ++ b ∧ a.length = n := by
  unfold readFull at h
  split at h
  · next hle =>
    simp only [Except.ok.injEq, Prod.mk.injEq] at h
    obtain ⟨rfl, rfl⟩ := h
    exact ⟨(List.take_append_drop n r).symm, by rw [List.length_take]; omega⟩
  · split at h <;> cases h

theorem of_bind_ok {ε α β : Type} {x : Except ε α} {f : α → Except ε β} {b : β}
    (h : (x >>= f) = .ok b) : ∃ a, x = .ok a ∧ f a = .ok b := by
  cases x with
  | error e => cases h
  | ok a => exact ⟨a, rfl, h⟩

/-- The header is made of the fields that are read from it. -/
theorem header_eq {buf : Bytes} (h : buf.length = 16) :
    buf = bytesLE 8 (natLE (buf.take 8)) ++ bytesLE 4 (natLE ((buf.drop 8).take 4)) ++
      bytesLE 4 (natLE (buf.drop 12)) := by
  have h8 : bytesLE 8 (natLE (buf.take 8)) = buf.take 8 := by
    have := bytesLE_natLE (buf.take 8)
    rwa [List.length_take, h] at this
  have h4 : bytesLE 4 (natLE ((buf.drop 8).take 4)) = (buf.drop 8).take 4 := by
    have := bytesLE_natLE ((buf.drop 8).take 4)
    rwa [List.length_take, List.length_drop, h] at this
  have h12 : bytesLE 4 (natLE (buf.drop 12)) = buf.drop 12 := by
    have := bytesLE_natLE (buf.drop 12)
    rwa [List.length_drop, h] at this
  rw [h8, h4, h12, List.append_assoc, show buf.drop 12 = (buf.drop 8).drop 4 by simp,
    List.take_append_drop, List.take_append_drop]

/-- What is read as a record is the encoding of that record. -/
theorem decodeDataRecord_eq_ok {bs : Bytes} {r : Record} {size : Nat}
    (h : decodeDataRecord bs = .ok (r, size)) :
    r.Fits ∧ size = r.size ∧ ∃ rest, bs = r.encode ++ rest := by
  obtain ⟨⟨crcBuf, r₁⟩, h₁, k₁⟩ := of_bind_ok h
  obtain ⟨⟨metaBuf, r₂⟩, h₂, k₂⟩ := of_bind_ok k₁
  obtain ⟨⟨key, r₃⟩, h₃, k₃⟩ := of_bind_ok k₂
  obtain ⟨⟨value, rest⟩, h₄, k₄⟩ := of_bind_ok k₃
  clear h k₁ k₂ k₃
  obtain ⟨rfl, hcrc⟩ := readFull_eq_ok h₁
  obtain ⟨rfl, hmeta⟩ := readFull_eq_ok h₂
  obtain ⟨rfl, hkey⟩ := readFull_eq_ok h₃
  obtain ⟨rfl, hvalue⟩ := readFull_eq_ok h₄
  simp only at k₄
  split at k₄
  · cases k₄
  · next hsum =>
    simp only [pure, Except.pure, Except.ok.injEq, Prod.mk.injEq] at k₄
    obtain ⟨rfl, rfl⟩ := k₄
    have hbound : ∀ l : Bytes, l.length = 4 → natLE l < 2 ^ 32 := by
      intro l hl
      have := natLE_lt l
      rw [hl] at this
      omega
    have hfits : key.length < 2 ^ 32 ∧ value.length < 2 ^ 32 := by
      rw [hkey, hvalue]
      refine ⟨hbound _ ?_, hbound _ ?_⟩
      · rw [List.length_take, List.length_drop, hmeta]
        rfl
      · rw [List.length_drop, hmeta]
    have hts : ((UInt64.ofNat (natLE (metaBuf.take 8))).toInt64).toUInt64.toNat =
        natLE (metaBuf.take 8) := by
      have hlt : natLE (metaBuf.take 8) < UInt64.size := by
        have := natLE_lt (metaBuf.take 8)
        rwa [List.length_take, hmeta] at this
      rw [UInt64.toUInt64_toInt64, UInt64.toNat_ofNat_of_lt' hlt]
    have hpayload : payload (UInt64.ofNat (natLE (metaBuf.take 8))).toInt64 key value =
        metaBuf ++ key ++ value := by
      rw [payload, hts, hkey, hvalue, ← header_eq hmeta]
    refine ⟨hfits, ?_, rest, ?_⟩
    · rw [Record.size, ← hkey, ← hvalue]
    · rw [Record.encode, encodeDataRecord, hpayload, not_not.mp hsum,
        show bytesLE 4 (natLE crcBuf) = crcBuf by rw [← hcrc]; exact bytesLE_natLE crcBuf]
      simp

/-- Data files are read back exactly: the records that were written, each with its size, and then
the end of the file; and every record that is read stands in the file as it would be written. -/
theorem decodeDataRecord_exact :
    (∀ rs : List Record, (∀ r ∈ rs, r.key.length < 2 ^ 32 ∧ r.value.length < 2 ^ 32) →
      records (rs.flatMap fun r => encodeDataRecord r.timestamp r.key r.value) =
        (rs.map fun r => (r, 20 + r.key.length + r.value.length), .eof)) ∧
    ∀ (bs : Bytes) (r : Record) (size : Nat), decodeDataRecord bs = .ok (r, size) →
      size ≤ bs.length ∧ bs.take size = encodeDataRecord r.timestamp r.key r.value := by
  constructor
  · intro rs hfits
    exact records_flatMap hfits
  · intro bs r size h
    obtain ⟨-, rfl, rest, rfl⟩ := decodeDataRecord_eq_ok h
    refine ⟨?_, ?_⟩
    · rw [List.length_append, Record.length_encode]
      omega
    · exact List.take_left' r.length_encode

/-- Two records, the first with an empty value. -/
theorem decodeDataRecord_exact_two :
    records (encodeDataRecord 5 [1, 2] [] ++ encodeDataRecord (-3) [1] [7]) =
        ([(⟨5, [1, 2], []⟩, 22), (⟨-3, [1], [7]⟩, 22)], .eof) ∧
      (encodeDataRecord 5 [1, 2] [] ++ [9]).take 22 = encodeDataRecord 5 [1, 2] [] := by
  constructor
  · have h := decodeDataRecord_exact.1 [⟨5, [1, 2], []⟩, ⟨-3, [1], [7]⟩] (by decide)
    simpa using h
  · exact (decodeDataRecord_exact.2 _ ⟨5, [1, 2], []⟩ 22 (by decide +kernel)).2

section Changed

theorem low_bit (c : UInt32) : c &&& 1 = 1 ↔ c.toBitVec.getLsbD 0 = true := by
  rw [← UInt32.toBitVec_inj, UInt32.toBitVec_and]
  change c.toBitVec &&& 1#32 = 1#32 ↔ _
  rw [BitVec.and_one_eq_setWidth_ofBool_getLsbD]
  cases c.toBitVec.getLsbD 0 <;> decide

/-- The loop over the bits of a byte is eight shifts of the register. -/
theorem crcByte_eq (c : UInt32) (b : UInt8) :
    (crcByte c b).toBitVec = shifts 0xEDB88320#32 8 (c ^^^ b.toUInt32).toBitVec := by
  have hstep : ∀ c : UInt32, (if c &&& 1 = 1 then (c >>> 1) ^^^ 0xEDB88320 else c >>> 1).toBitVec =
      shift 0xEDB88320#32 c.toBitVec := by
    intro c
    unfold shift
    simp only [low_bit]
    split <;> rfl
  have hrun : ∀ (l : List Nat) (c : UInt32), (l.foldl (fun (c : UInt32) _ =>
      if c &&& 1 = 1 then (c >>> 1) ^^^ 0xEDB88320 else c >>> 1) c).toBitVec =
        shifts 0xEDB88320#32 l.length c.toBitVec := by
    intro l
    induction l with
    | nil => exact fun c => rfl
    | cons x l ih => exact fun c => (ih _).trans (congrArg _ (hstep c))
  exact hrun (List.range 8) _

theorem crcByte_inj {c c' : UInt32} {b b' : UInt8} (h : crcByte c b = crcByte c' b') :
    c ^^^ b.toUInt32 = c' ^^^ b'.toUInt32 := by
  have hbits := congrArg UInt32.toBitVec h
  rw [crcByte_eq, crcByte_eq] at hbits
  exact UInt32.toBitVec_inj.mp (shifts_injective rfl 8 hbits)

/-- One changed byte changes the checksum. -/
theorem crc32_set_ne {bs : Bytes} {i : Nat} {b : UInt8} (hi : i < bs.length) (hb : b ≠ bs[i]) :
    crc32 (bs.set i b) ≠ crc32 bs := by
  have hregister : ∀ b, Function.Injective (crcByte · b) :=
    fun b _ _ h => (UInt32.xor_left_inj b.toUInt32).mp (crcByte_inj h)
  have hbyte : ∀ c, Function.Injective (crcByte c) :=
    fun c _ _ h => UInt8.toUInt32_inj.mp ((UInt32.xor_right_inj c).mp (crcByte_inj h))
  exact fun h => foldl_set_ne hregister hbyte 0xFFFFFFFF hi hb (UInt32.not_inj.mp h)

/-- Two records of the same lengths do not differ in a single byte. -/
theorem Record.encode_ne_set {r r' : Record} (hkey : r'.key.length = r.key.length)
    (hvalue : r'.value.length = r.value.length) {i : Nat} {b : UInt8} (hi : i < r.encode.length)
    (hb : b ≠ r.encode[i]) : r'.encode ≠ r.encode.set i b := by
  intro h
  have hcrc : ∀ r : Record, r.encode = r.crc ++ payload r.timestamp r.key r.value := fun _ => rfl
  have hpayload : (payload r'.timestamp r'.key r'.value).length =
      (payload r.timestamp r.key r.value).length := by
    simp [payload, hkey, hvalue]
  simp only [hcrc] at h hi hb
  rw [List.set_append] at h
  split at h
  · -- the payload, and with it the checksum, is unchanged
    next hlt =>
    obtain ⟨h₁, h₂⟩ := List.append_inj' h hpayload
    have hsame : r'.crc = r.crc := by rw [Record.crc, h₂, Record.crc]
    rw [hsame] at h₁
    rw [List.getElem_append_left hlt] at hb
    have := congrArg (fun l => l[i]?) h₁
    simp only [List.getElem?_set_self hlt, List.getElem?_eq_getElem hlt, Option.some.injEq] at this
    exact hb this.symm
  · next hge =>
    have hlen : r'.crc.length = r.crc.length := by rw [Record.length_crc, Record.length_crc]
    obtain ⟨h₁, h₂⟩ := List.append_inj h hlen
    rw [List.length_append] at hi
    rw [List.getElem_append_right (by omega)] at hb
    refine crc32_set_ne (by omega) hb ?_
    rw [← h₂]
    have := congrArg natLE h₁
    simp only [Record.crc] at this
    rw [natLE_length (UInt32.toNat_lt _), natLE_length (UInt32.toNat_lt _)] at this
    exact UInt32.toNat_inj.mp this

/-- The bytes that an entry describes. -/
def KeyDirEntry.extent (e : KeyDirEntry) (bs : Bytes) : Bytes :=
  (bs.drop e.fileOffset.toNatClampNeg).take e.recordSize.toNat

theorem of_bind_apply_ok {α β : Type} {op : Op α} {f : α → Op β} {w w' : World} {b : β}
    (h : (op >>= f) w = .ok b w') : ∃ a w₁, op w = .ok a w₁ ∧ f a w₁ = .ok b w' := by
  rw [bind_apply] at h
  cases ho : op w with
  | error e w₁ => rw [ho] at h; cases h
  | ok a w₁ => rw [ho] at h; exact ⟨a, w₁, rfl, h⟩

theorem call_ok {w w' : World} (h : call w = .ok () w') : w'.disk = w.disk ∧ w'.db = w.db := by
  obtain ⟨d, db, os⟩ := w
  cases os with
  | nil => cases h; exact ⟨rfl, rfl⟩
  | cons o os =>
    cases o with
    | ok => cases h; exact ⟨rfl, rfl⟩
    | fail written => cases h

theorem readData_ok {fileID : Nat} {bs : Bytes} {w w' : World}
    (h : readData fileID w = .ok bs w') : w'.disk = w.disk := by
  obtain ⟨_, w₁, hcall, h⟩ := of_bind_apply_ok h
  simp only [bind_apply, getDisk_apply] at h
  cases hd : w₁.disk.data[fileID]? with
  | none => rw [hd] at h; cases h
  | some bs =>
    rw [hd] at h
    injection h with _ hw
    rw [← hw, (call_ok hcall).1]

theorem readData_found {fileID : Nat} {bs : Bytes} {w w' : World}
    (h : readData fileID w = .ok bs w') : w'.disk.data[fileID]? = some bs := by
  obtain ⟨_, v, -, h⟩ := of_bind_apply_ok h
  simp only [bind_apply, getDisk_apply] at h
  cases hd : v.disk.data[fileID]? with
  | none =>
    rw [hd] at h
    cases h
  | some bs =>
    rw [hd] at h
    obtain ⟨rfl, rfl⟩ := EStateM.Result.ok.inj h
    exact hd

theorem openReader_ok {fileID : Nat} {w w' : World} (h : openReader fileID w = .ok () w') :
    w'.disk = w.disk := by
  simp only [openReader, bind_apply, getDB_apply] at h
  split at h
  · cases h
  · split at h
    · cases h; rfl
    · obtain ⟨bs, w₁, hread, h⟩ := of_bind_apply_ok h
      have hdisk := readData_ok hread
      injection h with _ hw
      rw [← hw]
      exact hdisk

theorem readSection_ok {e : KeyDirEntry} {found : Bytes} {w w' : World}
    (h : readSection e w = .ok found w') (hfound : found ≠ []) :
    ∃ bs, w.disk.data[e.fileID]? = some bs ∧ found = e.extent bs ∧ ¬ e.fileOffset < 0 := by
  unfold readSection at h
  split at h
  · cases h
    exact absurd rfl hfound
  obtain ⟨_, w₁, hcall, h⟩ := of_bind_apply_ok h
  simp only [bind_apply, getDisk_apply, (call_ok hcall).1] at h
  cases hd : w.disk.data[e.fileID]? with
  | none => rw [hd] at h; cases h
  | some bs =>
    simp only [hd] at h
    split at h
    · cases h
    · next hoffset =>
      cases h
      exact ⟨bs, rfl, rfl, hoffset⟩

theorem findEntry_ok {key : Bytes} {e : KeyDirEntry} {w w' : World}
    (h : findEntry key w = .ok e w') : w' = w ∧ w.db.keydir[key]? = some e := by
  simp only [findEntry, bind_apply, getDB_apply] at h
  split at h
  · cases h
  · cases he : w.db.keydir[key]? with
    | none => rw [he] at h; cases h
    | some entry =>
      rw [he] at h
      cases h
      exact ⟨rfl, rfl⟩

/-- The extent of the entry is the encoding of the record, and the key is right. -/
structure KeyDirEntry.Describes (e : KeyDirEntry) (bs : Bytes) (key : Bytes) (r : Record) :
    Prop where
  extent : e.extent bs = r.encode
  key : r.key = key
  size : e.recordSize.toNat = r.size
  fits : r.Fits
  offset : ¬ e.fileOffset < 0

theorem KeyDirEntry.Describes.recordSize_ne_zero {e : KeyDirEntry} {bs key : Bytes} {r : Record}
    (h : e.Describes bs key r) : e.recordSize ≠ 0 := by
  intro hzero
  have hsize := h.size
  rw [hzero, Record.size] at hsize
  simp only [UInt32.toNat_zero] at hsize
  omega

/-- A record that is read fills the extent of its entry. -/
theorem readRecordAtEntry_ok {key : Bytes} {e : KeyDirEntry} {r : Record} {w w' : World}
    (h : readRecordAtEntry key e w = .ok r w') :
    ∃ bs, w.disk.data[e.fileID]? = some bs ∧ e.Describes bs key r := by
  obtain ⟨_, w₁, hopen, h⟩ := of_bind_apply_ok h
  obtain ⟨found, w₂, hsection, h⟩ := of_bind_apply_ok h
  have hfound : found ≠ [] := by
    rintro rfl
    cases h
  obtain ⟨bs, hbs, rfl, hoffset⟩ := readSection_ok hsection hfound
  rw [openReader_ok hopen] at hbs
  cases hdec : decodeDataRecord (e.extent bs) with
  | error err => rw [hdec] at h; cases h
  | ok out =>
    obtain ⟨r₁, size⟩ := out
    simp only [hdec] at h
    split at h
    · cases h
    · next hsame =>
      obtain rfl : r₁ = r := by injection h
      simp only [not_or, not_not] at hsame
      obtain ⟨hfits, rfl, rest, hrest⟩ := decodeDataRecord_eq_ok hdec
      have hle : r₁.size + rest.length ≤ e.recordSize.toNat := by
        have := congrArg List.length hrest
        rw [KeyDirEntry.extent, List.length_take, List.length_append, Record.length_encode] at this
        omega
      have hsize : e.recordSize.toNat = r₁.size := by
        rw [← hsame.2, UInt32.toNat_ofNat_of_lt']
        exact Nat.lt_of_le_of_lt (Nat.le_of_add_right_le hle) e.recordSize.toNat_lt
      have hnil : rest = [] := List.eq_nil_of_length_eq_zero (by omega)
      refine ⟨bs, hbs, ?_, hsame.1, hsize, hfits, hoffset⟩
      rw [hrest, hnil, List.append_nil]

/-- A value that `Get` returns stands in the extent of the key's entry, in the record of the key
that fills it. -/
theorem lookup_eq_ok {w : World} {key value : Bytes} (h : w.lookup key = .ok value) :
    ∃ e bs, ∃ r : Record, w.db.keydir[key]? = some e ∧ w.disk.data[e.fileID]? = some bs ∧
      e.Describes bs key r ∧ r.value = value ∧ value ≠ tombstoneValue := by
  unfold World.lookup at h
  split at h
  · next v w' hget =>
    obtain rfl := Except.ok.inj h
    obtain ⟨e, w₁, hfind, hread⟩ := of_bind_apply_ok hget
    obtain ⟨rfl, he⟩ := findEntry_ok hfind
    obtain ⟨r, w₂, hrec, hvalue⟩ := of_bind_apply_ok hread
    obtain ⟨bs, hbs, hr⟩ := readRecordAtEntry_ok hrec
    split at hvalue
    · cases hvalue
    · next hne =>
      obtain ⟨rfl, -⟩ := EStateM.Result.ok.inj hvalue
      exact ⟨e, bs, r, he, hbs, hr, rfl, hne⟩
  · cases h

/-- A record with one changed byte is not served, wherever in its extent the byte stands and
whatever else has changed. -/
theorem lookup_changedByte {w w' : World} {key value bs bs' : Bytes} {e : KeyDirEntry} {i : Nat}
    {b : UInt8} (hlive : w.lookup key = .ok value) (he : w.db.keydir[key]? = some e)
    (hbs : w.disk.data[e.fileID]? = some bs) (he' : w'.db.keydir[key]? = some e)
    (hbs' : w'.disk.data[e.fileID]? = some bs') (hi : i < (e.extent bs).length)
    (hb : b ≠ (e.extent bs)[i]) (hchanged : e.extent bs' = (e.extent bs).set i b) :
    ∃ err, w'.lookup key = .error err := by
  obtain ⟨e₁, bs₁, r, h₁, h₂, ⟨hr, hkey, hsize, -⟩, -⟩ := lookup_eq_ok hlive
  obtain rfl : e = e₁ := Option.some.inj (he.symm.trans h₁)
  obtain rfl : bs = bs₁ := Option.some.inj (hbs.symm.trans h₂)
  cases hlook : w'.lookup key with
  | error err => exact ⟨err, rfl⟩
  | ok value' =>
    obtain ⟨e₂, bs₂, r', h₃, h₄, ⟨hr', hkey', hsize', -⟩, -⟩ := lookup_eq_ok hlook
    obtain rfl : e = e₂ := Option.some.inj (he'.symm.trans h₃)
    obtain rfl : bs' = bs₂ := Option.some.inj (hbs'.symm.trans h₄)
    -- the key and the size of the entry fix both size fields
    have hsame : r'.key = r.key := hkey'.trans hkey.symm
    have hvalue : r'.value.length = r.value.length := by
      rw [hsize, Record.size, Record.size, hsame] at hsize'
      omega
    rw [hr', hr] at hchanged
    simp only [hr] at hi hb
    exact absurd hchanged (Record.encode_ne_set (congrArg List.length hsame) hvalue hi hb)

/-- A directory with one record of key 1. -/
def oneRecord (bs : Bytes) : World where
  disk := { data := (∅ : ExtTreeMap Nat Bytes).insert 1 bs }
  db := { newDB { readWrite := true } with
    keydir := (∅ : KeyDir).insert [1] ⟨1, 0, 22, 5⟩ }

/-- The first byte of the key's size field changes, and two bytes follow the record. -/
theorem lookup_changedByte_keySize :
    (oneRecord (encodeDataRecord 5 [1] [7] ++ [3, 4])).lookup [1] = .ok [7] ∧
    ∃ err, (oneRecord ((encodeDataRecord 5 [1] [7]).set 12 2 ++ [3, 4])).lookup [1] =
      .error err := by
  have hlive : (oneRecord (encodeDataRecord 5 [1] [7] ++ [3, 4])).lookup [1] = .ok [7] := by
    decide +kernel
  refine ⟨hlive, ?_⟩
  have hfile : ∀ bs, (oneRecord bs).disk.data[1]? = some bs := by simp [oneRecord]
  have hentry : ∀ bs, (oneRecord bs).db.keydir[([1] : Bytes)]? = some ⟨1, 0, 22, 5⟩ := by
    simp [oneRecord]
  exact lookup_changedByte (i := 12) (b := 2) hlive (hentry _) (hfile _) (hentry _) (hfile _)
    (by decide +kernel) (by decide +kernel) (by decide +kernel)

end Changed

end KvRaft.Store
