import KvRaft.Store.Merge

/-! Data files as lists of records. Scanning a file applies one update per record, whether the
records are read from the data file or from the hint file that was written for them. -/

namespace KvRaft.Store

open Std Replay

/-- The records for which every size field of the formats holds the size: of a tombstone nothing
reads back the size of the record. -/
def Record.Legal (r : Record) : Prop :=
  r.key.length < 2 ^ 32 ∧ (r.tombstone = false → r.size < 2 ^ 32)

instance (r : Record) : Decidable r.Legal := inferInstanceAs (Decidable (_ ∧ _))

theorem Record.Legal.fits {r : Record} (h : r.Legal) : r.Fits := by
  refine ⟨h.1, ?_⟩
  cases ht : r.tombstone with
  | true =>
    have hv : r.value = tombstoneValue := by simpa [Record.tombstone] using ht
    rw [hv]
    decide
  | false =>
    have := h.2 ht
    rw [Record.size] at this
    omega

/-- The bytes of complete records. -/
def bytesOf (rs : List Record) : Bytes := rs.flatMap Record.encode

@[simp] theorem bytesOf_nil : bytesOf [] = [] := rfl

@[simp] theorem bytesOf_cons (r : Record) (rs : List Record) :
    bytesOf (r :: rs) = r.encode ++ bytesOf rs := rfl

@[simp] theorem bytesOf_append (rs ss : List Record) :
    bytesOf (rs ++ ss) = bytesOf rs ++ bytesOf ss := List.flatMap_append

/-- What the keydir holds for a record at `off` of a file. -/
def entryOf (fileID off : Nat) (r : Record) : KeyDirEntry where
  fileID := fileID
  fileOffset := Int64.ofNat off
  recordSize := UInt32.ofNat r.size
  timeStamp := r.timestamp

def updateOf (fileID off : Nat) (r : Record) : Update Bytes KeyDirEntry where
  key := r.key
  entry := entryOf fileID off r
  tombstone := r.tombstone

/-- The updates of the records of a file from `off` on. -/
def updates (fileID : Nat) : Nat → List Record → List (Update Bytes KeyDirEntry)
  | _, [] => []
  | off, r :: rs => updateOf fileID off r :: updates fileID (off + r.size) rs

/-- The hint records of the records of a file from `off` on. -/
def hintsFrom : Nat → List Record → List HintRecord
  | _, [] => []
  | off, r :: rs => hintOf r (Int64.ofNat off) r.size :: hintsFrom (off + r.size) rs

/-- The hint file that belongs to a data file of these records. -/
def hintBytes (rs : List Record) : Bytes := (hintsFrom 0 rs).flatMap encodeHintRecord

/-- The update of a hint record of a file. -/
def hintUpdate (fileID : Nat) (hr : HintRecord) : Update Bytes KeyDirEntry where
  key := hr.key
  entry := { fileID := fileID, fileOffset := hr.recordOff, recordSize := hr.recordSize
             timeStamp := hr.timestamp }
  tombstone := hr.tombstone

/-- The keydir after the updates, by the rules of `applyKeydirUpdate`. -/
abbrev scan (keydir : KeyDir) (us : List (Update Bytes KeyDirEntry)) : KeyDir :=
  replay shouldReplace keydir us

theorem hintsFrom_append (off : Nat) (rs ss : List Record) :
    hintsFrom off (rs ++ ss) = hintsFrom off rs ++ hintsFrom (off + (bytesOf rs).length) ss := by
  induction rs generalizing off with
  | nil => rfl
  | cons r rs ih =>
    simp only [List.cons_append, hintsFrom, ih, bytesOf_cons, List.length_append,
      Record.length_encode, Nat.add_assoc]

theorem hintsFrom_updates (fileID off : Nat) (rs : List Record) :
    (hintsFrom off rs).map (hintUpdate fileID) = updates fileID off rs := by
  induction rs generalizing off with
  | nil => rfl
  | cons r rs ih =>
    rw [hintsFrom, updates, List.map_cons, ih]
    rfl

/-- Every update of a file is that of the record at its place. -/
theorem mem_updates {fileID off : Nat} {rs : List Record} {u : Update Bytes KeyDirEntry} :
    u ∈ updates fileID off rs ↔ ∃ pre r post, rs = pre ++ r :: post ∧
      u = updateOf fileID (off + (bytesOf pre).length) r := by
  induction rs generalizing off with
  | nil => simp [updates]
  | cons r rs ih =>
    rw [updates, List.mem_cons, ih]
    constructor
    · rintro (rfl | ⟨pre, s, post, rfl, rfl⟩)
      · exact ⟨[], r, rs, rfl, rfl⟩
      · exact ⟨r :: pre, s, post, rfl, by simp [Nat.add_assoc]⟩
    · rintro ⟨pre, s, post, heq, rfl⟩
      cases pre with
      | nil =>
        obtain ⟨rfl, rfl⟩ := List.cons.inj heq
        exact Or.inl rfl
      | cons p pre =>
        obtain ⟨rfl, rfl⟩ := List.cons.inj heq
        exact Or.inr ⟨pre, s, post, rfl, by simp [Nat.add_assoc]⟩

theorem fileID_of_mem_updates {fileID off : Nat} {rs : List Record}
    {u : Update Bytes KeyDirEntry} (h : u ∈ updates fileID off rs) : u.entry.fileID = fileID := by
  obtain ⟨_, _, _, _, rfl⟩ := mem_updates.mp h
  rfl

theorem ofNat_lt_ofNat {a b : Nat} (ha : a < 2 ^ 63) (hb : b < 2 ^ 63) :
    Int64.ofNat a < Int64.ofNat b ↔ a < b := by
  rw [Int64.lt_iff_toInt_lt, Int64.toInt_ofNat_of_lt ha, Int64.toInt_ofNat_of_lt hb]
  omega

/-- The offsets of a file that the file system can hold increase along it. -/
theorem updates_pairwise (fileID : Nat) {off : Nat} {rs : List Record}
    (h : off + (bytesOf rs).length < 2 ^ 63) : (updates fileID off rs).Pairwise
      fun u v => u.entry.fileOffset < v.entry.fileOffset := by
  induction rs generalizing off with
  | nil => exact List.Pairwise.nil
  | cons r rs ih =>
    simp only [bytesOf_cons, List.length_append, Record.length_encode] at h
    have hpos : 0 < r.size := by rw [Record.size]; omega
    refine List.Pairwise.cons ?_ (ih (by omega))
    intro v hv
    obtain ⟨pre, s, post, rfl, rfl⟩ := mem_updates.mp hv
    simp only [bytesOf_append, List.length_append, bytesOf_cons, Record.length_encode] at h
    exact (ofNat_lt_ofNat (by omega) (by omega)).mpr (by omega)

/-! What the loops of `open.go` do when no file-system call fails. -/

section Scan

variable (d : Disk) (db : DB)

theorem scanHints_run (fileID : Nat) (hs : List (HintRecord × Nat)) :
    scanHints fileID hs ⟨d, db, []⟩ = .ok () ⟨d, { db with
      keydir := scan db.keydir (hs.map fun h => hintUpdate fileID h.1) }, []⟩ := by
  induction hs generalizing db with
  | nil => rfl
  | cons h hs ih =>
    obtain ⟨hr, size⟩ := h
    simp only [scanHints, bind_apply, modifyDB_apply, ih]
    rfl

theorem scanRecords_run (fileID off : Nat) (rs : List Record) :
    scanRecords fileID (Int64.ofNat off) (rs.map fun r => (r, r.size)) ⟨d, db, []⟩ =
      .ok (Int64.ofNat (off + (bytesOf rs).length)) ⟨d, { db with
        keydir := scan db.keydir (updates fileID off rs) }, []⟩ := by
  induction rs generalizing db off with
  | nil => rfl
  | cons r rs ih =>
    simp only [List.map_cons, scanRecords, bind_apply, modifyDB_apply, ← Int64.ofNat_add, ih,
      bytesOf_cons, List.length_append, Record.length_encode, Nat.add_assoc]
    rfl

variable {d} {fileID : Nat} {rs : List Record}

theorem hintsFrom_fits (h : ∀ r ∈ rs, r.Fits) (off : Nat) : ∀ x ∈ hintsFrom off rs, x.Fits := by
  induction rs generalizing off with
  | nil => simp [hintsFrom]
  | cons r rs ih =>
    intro x hx
    rcases List.mem_cons.mp hx with rfl | hx
    · exact (h r List.mem_cons_self).1
    · exact ih (fun s hs => h s (List.mem_cons_of_mem r hs)) _ x hx

/-- Any sequence of hint records is read to its end. -/
theorem scanHintFile_run {hs : List HintRecord} (hh : d.hint[fileID]? =
      some (hs.flatMap encodeHintRecord)) (hfits : ∀ x ∈ hs, x.Fits) :
    scanHintFile fileID ⟨d, db, []⟩ = .ok () ⟨d, { db with
      keydir := scan db.keydir (hs.map (hintUpdate fileID)) }, []⟩ := by
  simp only [scanHintFile, readHint, bind_apply, call_apply, getDisk_apply, hh, pure_apply,
    hints_flatMap hfits, scanHints_run, List.map_map]
  rfl

/-- A hint file that was written for the data file does what the data file does. -/
theorem scanHintFile_exact (hh : d.hint[fileID]? = some (hintBytes rs))
    (hfits : ∀ r ∈ rs, r.Fits) :
    scanHintFile fileID ⟨d, db, []⟩ = .ok () ⟨d, { db with
      keydir := scan db.keydir (updates fileID 0 rs) }, []⟩ := by
  rw [scanHintFile_run db hh (hintsFrom_fits hfits 0), hintsFrom_updates]

theorem scanHintFile_missing (hh : d.hint[fileID]? = none) :
    scanHintFile fileID ⟨d, db, []⟩ = .error .notExist ⟨d, db, []⟩ := by
  simp only [scanHintFile, readHint, bind_apply, call_apply, getDisk_apply, hh, throw_apply]

variable {tail : Bytes}

/-- What is left of `scanDataFile` after the records. -/
theorem scanDataFile_eq (hd : d.data[fileID]? = some (bytesOf rs ++ tail))
    (hfits : ∀ r ∈ rs, r.Fits) {e : Err} (ht : decodeDataRecord tail = .error e) (allow : Bool) :
    scanDataFile fileID allow ⟨d, db, []⟩ =
      (if e = .eof then return
        else if allow ∧ isTailTruncationError e then do
          call
          modifyDisk fun d => { d with
            data := d.data.modify fileID
              (·.take (Int64.ofNat (bytesOf rs).length).toNatClampNeg) }
          call
          call
        else if e = .corruptData ∨ ¬ allow then throw .corruptData
        else throw e : Op Unit)
        ⟨d, { db with keydir := scan db.keydir (updates fileID 0 rs) }, []⟩ := by
  have hscan := scanRecords_run d db fileID 0 rs
  have hrecs : records (bytesOf rs ++ tail) = _ := records_append hfits ht
  simp only [scanDataFile, readData, bind_apply, call_apply, getDisk_apply, hd, pure_apply, hrecs]
  rw [show (0 : Int64) = Int64.ofNat 0 from rfl, hscan, Nat.zero_add]

/-- A data file whose end looks clean. -/
theorem scanDataFile_clean (hd : d.data[fileID]? = some (bytesOf rs ++ tail))
    (hfits : ∀ r ∈ rs, r.Fits) (ht : decodeDataRecord tail = .error .eof) (allow : Bool) :
    scanDataFile fileID allow ⟨d, db, []⟩ = .ok () ⟨d, { db with
      keydir := scan db.keydir (updates fileID 0 rs) }, []⟩ := by
  rw [scanDataFile_eq db hd hfits ht, if_pos rfl]
  rfl

/-- A torn record at the end of the active file is cut off. -/
theorem scanDataFile_torn (hd : d.data[fileID]? = some (bytesOf rs ++ tail))
    (hfits : ∀ r ∈ rs, r.Fits) (ht : decodeDataRecord tail = .error .unexpectedEOF)
    (hsize : (bytesOf rs).length < 2 ^ 63) :
    scanDataFile fileID true ⟨d, db, []⟩ = .ok () ⟨{ d with
      data := d.data.modify fileID (·.take (bytesOf rs).length) }, { db with
      keydir := scan db.keydir (updates fileID 0 rs) }, []⟩ := by
  rw [scanDataFile_eq db hd hfits ht, if_neg (by simp), if_pos ⟨rfl, rfl⟩,
    Int64.toNatClampNeg_ofNat_of_lt hsize]
  rfl

end Scan

end KvRaft.Store
