import KvRaft.Lib.Effects
import KvRaft.Lib.Maps
import KvRaft.Store.History
import KvRaft.Store.Integrity
import KvRaft.Store.Segments

/-! The ends of data files. The scan of the active file takes what follows the last complete record
for a torn one only if it ends in the middle of a read of `decodeDataRecord`: a record that was cut
off between two fields stays in the file, and a size field that was damaged turns the rest of the
file into a torn record. -/

namespace KvRaft.Store

open Std Replay LittleEndian Effects

variable {t bs p : Bytes} {r : Record} {rs recs : List Record} {d : Disk} {db : DB} {id c : Nat}

/-- A record that ends in the middle of a read. -/
def TornRecord (t : Bytes) : Prop := Short t ∧ ¬ Boundary t

/-- A complete record is refused only for its checksum. -/
theorem decode_long (h : ¬ Short t) : decodeDataRecord t = .error .corruptData ∨
    ∃ (r : Record) (rest : Bytes), r.Fits ∧ t = r.encode ++ rest := by
  rw [Short] at h
  cases hd : decodeDataRecord t with
  | ok out =>
    obtain ⟨r, size⟩ := out
    obtain ⟨hfits, -, rest, rfl⟩ := decodeDataRecord_eq_ok hd
    exact Or.inr ⟨r, rest, hfits, rfl⟩
  | error e =>
    rw [decode_body (by omega), readFull_take (by rw [List.length_drop]; omega)] at hd
    simp only [bind, Except.bind] at hd
    rw [readFull_take (by rw [List.length_drop, List.length_drop]; omega)] at hd
    simp only at hd
    split at hd
    · exact Or.inl hd.symm
    · cases hd

theorem decode_eq_torn : decodeDataRecord t = .error .unexpectedEOF ↔ TornRecord t := by
  constructor
  · intro h
    by_cases hs : Short t
    · rw [decode_short hs] at h
      refine ⟨hs, fun hb => ?_⟩
      rw [if_pos hb] at h
      cases h
    · rcases decode_long hs with hc | ⟨r, rest, hfits, rfl⟩
      · rw [hc] at h
        cases h
      · rw [Record.decode_encode hfits] at h
        cases h
  · rintro ⟨hs, hb⟩
    rw [decode_short hs, if_neg hb]

theorem decode_error {e : Err} (h : decodeDataRecord t = .error e) :
    e = .eof ∨ e = .unexpectedEOF ∨ e = .corruptData := by
  by_cases hs : Short t
  · rw [decode_short hs] at h
    split at h
    · exact Or.inl (Except.error.inj h).symm
    · exact Or.inr (Or.inl (Except.error.inj h).symm)
  · rcases decode_long hs with hc | ⟨r, rest, hfits, rfl⟩
    · exact Or.inr (Or.inr (Except.error.inj (hc.symm.trans h)).symm)
    · rw [Record.decode_encode hfits] at h
      cases h

/-- Every file is made of complete records and something that is not one. -/
theorem exists_records (bs : Bytes) : ∃ recs tail e, bs = bytesOf recs ++ tail ∧
    (∀ r ∈ recs, r.Fits) ∧ decodeDataRecord tail = .error e := by
  induction hn : bs.length using Nat.strong_induction_on generalizing bs with
  | _ n ih =>
    cases hd : decodeDataRecord bs with
    | error e => exact ⟨[], bs, e, rfl, by simp, hd⟩
    | ok out =>
      obtain ⟨r, size⟩ := out
      obtain ⟨hfits, -, rest, rfl⟩ := decodeDataRecord_eq_ok hd
      have hlt : rest.length < n := by
        rw [← hn, List.length_append, Record.length_encode, Record.size]
        omega
      obtain ⟨recs, tail, e, rfl, hrecs, htail⟩ := ih rest.length hlt rest rfl
      refine ⟨r :: recs, tail, e, ?_, List.forall_mem_cons.mpr ⟨hfits, hrecs⟩, htail⟩
      rw [bytesOf_cons, List.append_assoc]

section Scan

variable {tail : Bytes} {e : Err} (hdata : d.data[id]? = some (bytesOf recs ++ tail))
  (hfits : ∀ r ∈ recs, r.Fits)

include hdata hfits

/-- Where nothing is cut off, whatever is not the end of the file is corrupt. -/
theorem scanDataFile_refused (he : decodeDataRecord tail = .error e) (hne : e ≠ .eof)
    {allow : Bool} (hallow : allow = false ∨ e = .corruptData) :
    scanDataFile id allow ⟨d, db, []⟩ = .error .corruptData ⟨d, { db with
      keydir := scan db.keydir (updates id 0 recs) }, []⟩ := by
  have hkeep : ¬ (allow = true ∧ isTailTruncationError e = true) := by
    rintro ⟨rfl, htail⟩
    rcases hallow with h | rfl
    · cases h
    · cases htail
  have hcorrupt : e = .corruptData ∨ ¬ allow = true := by
    rcases hallow with rfl | h
    · exact Or.inr (by simp)
    · exact Or.inl h
  rw [scanDataFile_eq db hdata hfits he, if_neg hne, if_neg hkeep, if_pos hcorrupt]
  rfl

end Scan

/-! ### Torn tails -/

/-- The file of `rs` and `p` is scanned as one that ends in a torn record: the scan of the active
file leaves the bytes of `rs` and updates the keydir as `rs` does, any other scan fails. -/
def Recognised (d : Disk) (db : DB) (id : Nat) (rs : List Record) (p : Bytes) : Prop :=
  (∃ w, scanDataFile id true ⟨d, db, []⟩ = .ok () w ∧ w.disk.data[id]? = some (bytesOf rs) ∧
    w.db.keydir = scan db.keydir (updates id 0 rs)) ∧
  (p ≠ [] → ∃ w, scanDataFile id false ⟨d, db, []⟩ = .error .corruptData w)

/-- The bytes of `rs` are those of complete records, up to `tail`, that do to the keydir what `rs`
does. -/
def Intact (keydir : KeyDir) (id : Nat) (rs : List Record) (tail : Bytes) : Prop :=
  ∃ recs, (∀ r ∈ recs, r.Fits) ∧ bytesOf rs = bytesOf recs ++ tail ∧
    scan keydir (updates id 0 recs) = scan keydir (updates id 0 rs)

theorem Intact.of_fits (h : ∀ r ∈ rs, r.Fits) (keydir : KeyDir) (id : Nat) :
    Intact keydir id rs [] :=
  ⟨rs, h, (List.append_nil _).symm, rfl⟩

theorem modify_take (hdata : d.data[id]? = some (bytesOf recs ++ t)) :
    (d.data.modify id (·.take (bytesOf recs).length))[id]? = some (bytesOf recs) := by
  rw [Maps.modify_eq_insert hdata, ExtTreeMap.getElem?_insert_self, List.take_left]

theorem recognised_iff (hdata : d.data[id]? = some (bytesOf rs ++ p))
    (hlen : (bytesOf rs ++ p).length ≤ maxFileSize) : Recognised d db id rs p ↔
      (p = [] ∧ ∃ tail, Intact db.keydir id rs tail ∧ decodeDataRecord tail = .error .eof) ∨
      Intact db.keydir id rs [] ∧ TornRecord p := by
  constructor
  · rintro ⟨⟨w, hrun, hfile, hkeydir⟩, -⟩
    obtain ⟨recs, tail, e, heq, hfits, he⟩ := exists_records (bytesOf rs ++ p)
    rw [heq] at hdata hlen
    rw [List.length_append, maxFileSize] at hlen
    rcases decode_error he with rfl | rfl | rfl
    · rw [scanDataFile_clean db hdata hfits he] at hrun
      obtain ⟨-, rfl⟩ := EStateM.Result.ok.inj hrun
      rw [hdata, ← heq] at hfile
      obtain rfl : p = [] := by simpa using hfile
      rw [List.append_nil] at heq
      exact Or.inl ⟨rfl, tail, ⟨recs, hfits, heq, hkeydir⟩, he⟩
    · rw [scanDataFile_torn db hdata hfits he (by omega)] at hrun
      obtain ⟨-, rfl⟩ := EStateM.Result.ok.inj hrun
      rw [modify_take hdata] at hfile
      have hbytes := Option.some.inj hfile
      rw [hbytes] at heq
      obtain rfl := List.append_cancel_left heq
      refine Or.inr ⟨⟨recs, hfits, ?_, hkeydir⟩, decode_eq_torn.mp he⟩
      rw [hbytes, List.append_nil]
    · rw [scanDataFile_refused hdata hfits he (by simp) (Or.inr rfl)] at hrun
      cases hrun
  · rintro (⟨rfl, tail, ⟨recs, hfits, heq, hkeydir⟩, he⟩ | ⟨⟨recs, hfits, heq, hkeydir⟩, htorn⟩)
    · rw [List.append_nil, heq] at hdata
      refine ⟨⟨_, scanDataFile_clean db hdata hfits he true, ?_, hkeydir⟩,
        fun hne => absurd rfl hne⟩
      rw [hdata, heq]
    · have he := decode_eq_torn.mpr htorn
      rw [heq, List.append_nil] at hdata hlen
      rw [List.length_append, maxFileSize] at hlen
      refine ⟨⟨_, scanDataFile_torn db hdata hfits he (by omega), ?_, hkeydir⟩, fun _ =>
        ⟨_, scanDataFile_refused hdata hfits he (by simp) (Or.inl rfl)⟩⟩
      rw [modify_take hdata, heq, List.append_nil]

theorem torn_take (h : r.Fits) (hc : c < r.size) :
    TornRecord (r.encode.take c) ↔ ¬ r.CleanCut c := by
  rw [← decode_eq_torn, Record.decode_take h hc]
  split
  · next hclean => simp [hclean]
  · next hclean => simp [hclean]

/-- A record that was cut short at the end of the active file is recognised exactly if the cut is in
the middle of a read of `decodeDataRecord`; for records whose sizes fit their fields, that is not
after the checksum, the header or the key. -/
theorem torn_tail (hc : c < r.size)
    (hdata : d.data[id]? = some (bytesOf rs ++ r.encode.take c))
    (hlen : (bytesOf rs ++ r.encode.take c).length ≤ maxFileSize) :
    (Recognised d db id rs (r.encode.take c) ↔
      (c = 0 ∧ ∃ tail, Intact db.keydir id rs tail ∧ decodeDataRecord tail = .error .eof) ∨
      Intact db.keydir id rs [] ∧ TornRecord (r.encode.take c)) ∧
    ((∀ x ∈ rs, x.Fits) → r.Fits →
      (Recognised d db id rs (r.encode.take c) ↔
        c = 0 ∨ (c ≠ 4 ∧ c ≠ 20 ∧ c ≠ 20 + r.key.length))) := by
  have hnil : r.encode.take c = [] ↔ c = 0 := by
    rw [← List.length_eq_zero_iff, List.length_take, Record.length_encode]
    omega
  have hiff : Recognised d db id rs (r.encode.take c) ↔ _ := recognised_iff hdata hlen
  rw [hnil] at hiff
  refine ⟨hiff, fun hfits hr => ?_⟩
  have hintact := Intact.of_fits hfits db.keydir id
  rw [hiff, torn_take hr hc, Record.CleanCut]
  constructor
  · rintro (⟨h0, -⟩ | ⟨-, hcut⟩)
    · exact Or.inl h0
    · simp only [not_or] at hcut
      exact Or.inr hcut.2
  · rintro (h0 | hcut)
    · exact Or.inl ⟨h0, [], hintact, decode_nil⟩
    · by_cases h0 : c = 0
      · exact Or.inl ⟨h0, [], hintact, decode_nil⟩
      · exact Or.inr ⟨hintact, by simp [h0, hcut]⟩

def firstRecord : Record := ⟨1, [107], [118]⟩

def secondRecord : Record := ⟨2, [108], [119]⟩

/-- A record, and the first bytes of another behind it. -/
def cutAfter (c : Nat) : Disk :=
  { data := (∅ : ExtTreeMap Nat Bytes).insert 1
      (bytesOf [firstRecord] ++ secondRecord.encode.take c) }

/-- Behind the record stand the checksum of another and half of its header. -/
theorem torn_tail_halfHeader :
    Recognised (cutAfter 12) (newDB { readWrite := true }) 1 [firstRecord]
      (secondRecord.encode.take 12) := by
  have hdata : (cutAfter 12).data[1]? =
      some (bytesOf [firstRecord] ++ secondRecord.encode.take 12) := by simp [cutAfter]
  exact ((torn_tail (by decide) hdata (by decide +kernel)).2 (by decide) (by decide)).mpr
    (Or.inr (by decide))

/-- Behind the record stand the checksum and the header of another. -/
theorem not_recognised_headerOnly : ¬ Recognised (cutAfter 20) (newDB { readWrite := true }) 1
    [firstRecord] (secondRecord.encode.take 20) := by
  rintro ⟨-, hrefused⟩
  have hreturns : (World.returned (scanDataFile 1 false)
      ⟨cutAfter 20, newDB { readWrite := true }, []⟩).isSome = true := by decide +kernel
  obtain ⟨w, hw⟩ := hrefused (by decide +kernel)
  rw [World.returned, hw] at hreturns
  cases hreturns

/-! ### Damaged records -/

/-- The scan of the active file leaves all `n` bytes of it. -/
def KeepsLength (d : Disk) (db : DB) (id n : Nat) : Prop :=
  n ≤ (((left (scanDataFile id true) ⟨d, db, []⟩).disk.data[id]?).getD []).length

/-- Complete records, and a torn one behind them. -/
def TornFile (bs : Bytes) : Prop :=
  ∃ recs t, (∀ r ∈ recs, r.Fits) ∧ bs = bytesOf recs ++ t ∧ TornRecord t

/-- The records of a file, and why what follows them is not one, are determined by its bytes. -/
theorem tornFile_iff {tail : Bytes} {e : Err} (hfits : ∀ r ∈ recs, r.Fits)
    (he : decodeDataRecord tail = .error e) :
    TornFile (bytesOf recs ++ tail) ↔ e = .unexpectedEOF := by
  constructor
  · rintro ⟨recs', t, hfits', heq, htorn⟩
    have h := records_append hfits he
    have h' := records_append hfits' (decode_eq_torn.mpr htorn)
    rw [show recs.flatMap Record.encode ++ tail = recs'.flatMap Record.encode ++ t from heq,
      h'] at h
    exact (congrArg Prod.snd h).symm
  · rintro rfl
    exact ⟨recs, tail, hfits, rfl, decode_eq_torn.mp he⟩

/-- The scan shortens the active file exactly if it ends in what looks like a torn record. -/
theorem keepsLength_iff (hdata : d.data[id]? = some bs) (hlen : bs.length ≤ maxFileSize) :
    KeepsLength d db id bs.length ↔ ¬ TornFile bs := by
  obtain ⟨recs, tail, e, rfl, hfits, he⟩ := exists_records bs
  rw [tornFile_iff hfits he, KeepsLength]
  have hsize : (bytesOf recs).length < 2 ^ 63 := by
    rw [List.length_append, maxFileSize] at hlen
    omega
  rcases decode_error he with rfl | rfl | rfl
  · rw [left_ok (scanDataFile_clean db hdata hfits he true), hdata]
    simp
  · have htail : tail ≠ [] := by
      rintro rfl
      cases he
    have hpos := List.length_pos_iff.mpr htail
    rw [left_ok (scanDataFile_torn db hdata hfits he hsize), modify_take hdata]
    simp only [Option.getD_some, List.length_append, not_true_eq_false, iff_false]
    omega
  · rw [left_error (scanDataFile_refused hdata hfits he (by simp) (Or.inr rfl)), hdata]
    simp

theorem tornFile_append (hfits : ∀ r ∈ rs, r.Fits) (t : Bytes) :
    TornFile (bytesOf rs ++ t) ↔ TornFile t := by
  obtain ⟨recs, tail, e, rfl, hrecs, he⟩ := exists_records t
  have hall : ∀ r ∈ rs ++ recs, r.Fits := List.forall_mem_append.mpr ⟨hfits, hrecs⟩
  rw [tornFile_iff hrecs he, ← List.append_assoc, ← bytesOf_append, tornFile_iff hall he]

theorem tornFile_of_error {e : Err} (he : decodeDataRecord t = .error e) :
    TornFile t ↔ e = .unexpectedEOF := by
  have h : TornFile (bytesOf [] ++ t) ↔ _ := tornFile_iff (by simp) he
  rwa [bytesOf_nil, List.nil_append] at h

theorem tornFile_encode (h : r.Fits) (rest : Bytes) :
    TornFile (r.encode ++ rest) ↔ TornFile rest := by
  have happend : TornFile (bytesOf [r] ++ rest) ↔ _ := tornFile_append (by simpa using h) rest
  rwa [bytesOf_cons, bytesOf_nil, List.append_nil] at happend

/-- The bytes behind a header end in the key or in the value that its sizes announce. -/
def EndsInside (rest keySize valueSize : Nat) : Prop :=
  (0 < rest ∧ rest < keySize) ∨ (keySize < rest ∧ rest < keySize + valueSize)

theorem tornRecord_iff {n : Nat} (h : t.length = 20 + n) :
    TornRecord t ↔ EndsInside n (keySizeAt t) (valueSizeAt t) := by
  rw [TornRecord, Short, Boundary, EndsInside]
  omega

/-- A header and what follows it: the sizes of the header point behind the end of the file, or its
record is complete, the checksum is right and a torn record comes later. -/
theorem tornFile_sizes {n : Nat} (h : t.length = 20 + n) :
    TornFile t ↔ EndsInside n (keySizeAt t) (valueSizeAt t) ∨
      ∃ (r : Record) (rest : Bytes), r.Fits ∧ t = r.encode ++ rest ∧ TornFile rest := by
  rw [← tornRecord_iff h, ← decode_eq_torn]
  constructor
  · intro ht
    cases hd : decodeDataRecord t with
    | ok out =>
      obtain ⟨r, size⟩ := out
      obtain ⟨hfits, -, rest, rfl⟩ := decodeDataRecord_eq_ok hd
      exact Or.inr ⟨r, rest, hfits, rfl, (tornFile_encode hfits rest).mp ht⟩
    | error e => exact Or.inl (congrArg Except.error ((tornFile_of_error hd).mp ht))
  · rintro (htorn | ⟨r, rest, hfits, rfl, hrest⟩)
    · exact (tornFile_of_error htorn).mpr rfl
    · exact (tornFile_encode hfits rest).mpr hrest

section Fields

variable {i j : Nat} {b : UInt8}

theorem keySizeAt_encode (h : r.Fits) (rest : Bytes) :
    keySizeAt (r.encode ++ rest) = r.key.length := by
  rw [Record.encode_eq, List.append_assoc, List.append_assoc, Record.keySizeAt_header h]

theorem valueSizeAt_encode (h : r.Fits) (rest : Bytes) :
    valueSizeAt (r.encode ++ rest) = r.value.length := by
  rw [Record.encode_eq, List.append_assoc, List.append_assoc, Record.valueSizeAt_header h]

/-- A byte outside of a field of four bytes at `n` does not change it. -/
theorem field_set {n : Nat} (h : j < n ∨ n + 4 ≤ j) :
    ((t.set j b).drop n).take 4 = (t.drop n).take 4 := by
  rw [List.drop_set]
  split
  · rfl
  · rw [List.take_set, List.set_eq_of_length_le]
    rw [List.length_take]
    omega

/-- A field is read the same with more bytes behind it. -/
theorem field_append {n : Nat} (h : n + 4 ≤ t.length) (rest : Bytes) :
    ((t ++ rest).drop n).take 4 = (t.drop n).take 4 := by
  rw [List.drop_append_of_le_length (by omega),
    List.take_append_of_le_length (by rw [List.length_drop]; omega)]

/-- Only the size fields of a record can be changed without the checksum telling. -/
theorem decode_changed (h : r.Fits) (hj : j < r.encode.length) (hb : b ≠ r.encode[j])
    (hout : j < 12 ∨ 20 ≤ j) (rest : Bytes) :
    decodeDataRecord (r.encode.set j b ++ rest) = .error .corruptData := by
  have hset : r.encode.set j b ++ rest = (r.encode ++ rest).set j b := by
    rw [List.set_append, if_pos hj]
  have hkey : keySizeAt (r.encode.set j b ++ rest) = r.key.length := by
    rw [hset, keySizeAt, field_set (by omega)]
    exact keySizeAt_encode h rest
  have hvalue : valueSizeAt (r.encode.set j b ++ rest) = r.value.length := by
    rw [hset, valueSizeAt, field_set (by omega)]
    exact valueSizeAt_encode h rest
  have hlong : ¬ Short (r.encode.set j b ++ rest) := by
    rw [Short, hkey, hvalue, List.length_append, List.length_set, Record.length_encode, Record.size]
    omega
  rcases decode_long hlong with hd | ⟨r', rest', hfits', heq⟩
  · exact hd
  · rw [heq, keySizeAt_encode hfits'] at hkey
    rw [heq, valueSizeAt_encode hfits'] at hvalue
    have hlen : (r.encode.set j b).length = r'.encode.length := by
      rw [List.length_set, Record.length_encode, Record.length_encode, Record.size, Record.size,
        hkey, hvalue]
    exact absurd (List.append_inj heq hlen).1.symm (Record.encode_ne_set hkey hvalue hj hb)

theorem bytesOf_getElem {pre post : List Record} (hj : j < r.encode.length) :
    (bytesOf (pre ++ r :: post))[(bytesOf pre).length + j]? = some r.encode[j] := by
  rw [bytesOf_append, bytesOf_cons, List.getElem?_append_right (by omega), Nat.add_sub_cancel_left,
    List.getElem?_append_left hj, List.getElem?_eq_getElem hj]

theorem bytesOf_set {pre post : List Record} (hj : j < r.encode.length) :
    (bytesOf (pre ++ r :: post)).set ((bytesOf pre).length + j) b =
      bytesOf pre ++ (r.encode.set j b ++ bytesOf post) := by
  rw [bytesOf_append, bytesOf_cons, List.set_append_right _ _ (by omega), Nat.add_sub_cancel_left,
    List.set_append, if_pos hj]

/-- A changed record, by the sizes that stand in it now. -/
theorem tornFile_set (rest : Bytes) : TornFile (r.encode.set j b ++ rest) ↔
    EndsInside (r.key.length + r.value.length + rest.length)
      (keySizeAt (r.encode.set j b)) (valueSizeAt (r.encode.set j b)) ∨
    ∃ (r' : Record) (rest' : Bytes), r'.Fits ∧ r.encode.set j b ++ rest = r'.encode ++ rest' ∧
      TornFile rest' := by
  have hlength : (r.encode.set j b).length = 20 + (r.key.length + r.value.length) := by
    rw [List.length_set, Record.length_encode, Record.size, Nat.add_assoc]
  have hall : (r.encode.set j b ++ rest).length =
      20 + (r.key.length + r.value.length + rest.length) := by
    rw [List.length_append, hlength, Nat.add_assoc]
  have hsizes := tornFile_sizes hall
  rwa [keySizeAt, field_append (by omega), valueSizeAt, field_append (by omega)] at hsizes

/-- After a change of one byte the scan shortens the active file exactly if the file then looks like
complete records with a torn one behind them. When the sizes of the records fit their fields, only a
byte of a size field can do that: if the file now ends inside the key or the value of the record, or
if its checksum is right by accident and what comes after it looks torn. -/
theorem changed_byte (hb : (bytesOf rs)[i]? ≠ some b)
    (hdata : d.data[id]? = some ((bytesOf rs).set i b))
    (hlen : (bytesOf rs).length ≤ maxFileSize) :
    (KeepsLength d db id (bytesOf rs).length ↔ ¬ TornFile ((bytesOf rs).set i b)) ∧
    ((∀ x ∈ rs, x.Fits) → ∀ pre r post j, rs = pre ++ r :: post → i = (bytesOf pre).length + j →
      j < r.size → (KeepsLength d db id (bytesOf rs).length ↔
        j < 12 ∨ 20 ≤ j ∨ ¬ TornFile (r.encode.set j b ++ bytesOf post)) ∧
      (TornFile (r.encode.set j b ++ bytesOf post) ↔
        EndsInside (r.key.length + r.value.length + (bytesOf post).length)
          (keySizeAt (r.encode.set j b)) (valueSizeAt (r.encode.set j b)) ∨
        ∃ (r' : Record) (rest : Bytes), r'.Fits ∧ r.encode.set j b ++ bytesOf post =
          r'.encode ++ rest ∧ TornFile rest)) := by
  have hiff : KeepsLength d db id (bytesOf rs).length ↔ ¬ TornFile ((bytesOf rs).set i b) := by
    have hkeeps : KeepsLength d db id ((bytesOf rs).set i b).length ↔ _ :=
      keepsLength_iff hdata (by rwa [List.length_set])
    rwa [List.length_set] at hkeeps
  refine ⟨hiff, fun hfits pre r post j hrs hi hj => ?_⟩
  subst hrs hi
  obtain ⟨hpre, hrest⟩ := List.forall_mem_append.mp hfits
  obtain ⟨hr, hpost⟩ := List.forall_mem_cons.mp hrest
  have hj' : j < r.encode.length := by rwa [Record.length_encode]
  have hne : b ≠ r.encode[j] := by
    rintro rfl
    exact hb (bytesOf_getElem hj')
  refine ⟨?_, tornFile_set (bytesOf post)⟩
  rw [hiff, bytesOf_set hj', tornFile_append hpre]
  constructor
  · exact fun h => Or.inr (Or.inr h)
  · intro h
    by_cases hout : j < 12 ∨ 20 ≤ j
    · rw [tornFile_of_error (decode_changed hr hj' hne hout (bytesOf post))]
      simp
    · exact (or_assoc.mpr h).resolve_left hout

end Fields

/-- Two records of which one byte is another. -/
def damagedAt (i : Nat) (b : UInt8) : Disk :=
  { data := (∅ : ExtTreeMap Nat Bytes).insert 1 ((bytesOf [firstRecord, secondRecord]).set i b) }

/-- The first record claims a key of two bytes: it is complete, and its checksum is wrong. -/
theorem changed_byte_longerKey :
    KeepsLength (damagedAt 12 2) (newDB { readWrite := true }) 1
      (bytesOf [firstRecord, secondRecord]).length := by
  have hdata : (damagedAt 12 2).data[1]? =
      some ((bytesOf [firstRecord, secondRecord]).set 12 2) := by simp [damagedAt]
  have hcorrupt : decodeDataRecord (firstRecord.encode.set 12 2 ++ bytesOf [secondRecord]) =
      .error .corruptData := by decide +kernel
  refine ((changed_byte (by decide +kernel) hdata (by decide +kernel)).2 (by decide) [] firstRecord
    [secondRecord] 12 rfl rfl (by decide)).1.mpr (Or.inr (Or.inr ?_))
  rw [tornFile_of_error hcorrupt]
  simp

/-- The key size of the first record is far too large. -/
theorem not_keepsLength_damagedSize :
    15 < (bytesOf [firstRecord, secondRecord].dropLast).length ∧
      (bytesOf [firstRecord, secondRecord])[15]? ≠ some 255 ∧
      ¬ KeepsLength (damagedAt 15 255) (newDB { readWrite := true }) 1
        (bytesOf [firstRecord, secondRecord]).length := by
  refine ⟨by decide +kernel, by decide +kernel, ?_⟩
  unfold KeepsLength
  decide +kernel

end KvRaft.Store
