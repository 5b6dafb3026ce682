import KvRaft.Store.Exact
import KvRaft.Store.Integrity

/-! A record whose size fields do not hold its sizes. Its value can be such that the record reads as
a tombstone of its key with further records behind it, and the checksums are right: a rotation then
lists these records, and `Merge` copies the tombstone. -/

namespace KvRaft.Store

open Std LittleEndian Checksum

variable {segs : Nat → Option Segment} {d : Disk} {db : DB} {r : Record} {rs : List Record}
  {e : KeyDirEntry} {bs : Bytes} {id : Nat}

section Forged

/-- Four bytes take the CRC-32 register from any value to any other. -/
theorem exists_crcBytes (c c' : UInt32) :
    ∃ bs : Bytes, bs.length = 4 ∧ bs.foldl crcByte c = c' := by
  have hpoly : (0xEDB88320#32).getLsbD (32 - 1) = true := rfl
  obtain ⟨z, hz⟩ := exists_foldl_groups hpoly (k := 8) (n := 4) (by decide) c.toBitVec c'.toBitVec
  refine ⟨(groups 8 4 z).map UInt8.ofBitVec, by simp, ?_⟩
  have hfold : ∀ (gs : List (BitVec 8)) (c : UInt32),
      ((gs.map UInt8.ofBitVec).foldl crcByte c).toBitVec =
        gs.foldl (fun c g => shifts 0xEDB88320#32 8 (c ^^^ g.setWidth 32)) c.toBitVec := by
    intro gs
    induction gs with
    | nil => exact fun _ => rfl
    | cons g gs ih =>
      intro c
      rw [List.map_cons, List.foldl_cons, ih, crcByte_eq]
      rfl
  exact UInt32.toBitVec_inj.mp ((hfold _ c).trans hz)

/-- A value that is longer by 2^32 bytes leaves the size fields as they are, and with the right last
bytes the checksum too. -/
theorem exists_oversized (r : Record) {bs : Bytes} (hbs : bs.length = 2 ^ 32 - 4) :
    ∃ last : Bytes, last.length = 4 ∧
      encodeDataRecord r.timestamp r.key (r.value ++ (bs ++ last)) = r.encode ++ (bs ++ last) := by
  obtain ⟨last, hlast, hcrc⟩ := exists_crcBytes
    (bs.foldl crcByte ((payload r.timestamp r.key r.value).foldl crcByte 0xFFFFFFFF))
    ((payload r.timestamp r.key r.value).foldl crcByte 0xFFFFFFFF)
  refine ⟨last, hlast, ?_⟩
  have hlen : (r.value ++ (bs ++ last)).length = r.value.length + 256 ^ 4 := by
    rw [List.length_append, List.length_append, hbs, hlast]
    rfl
  have hpayload : payload r.timestamp r.key (r.value ++ (bs ++ last)) =
      payload r.timestamp r.key r.value ++ (bs ++ last) := by
    rw [payload, hlen, bytesLE_add, payload]
    simp only [List.append_assoc]
  have hsum : crc32 (payload r.timestamp r.key r.value ++ (bs ++ last)) =
      crc32 (payload r.timestamp r.key r.value) := by
    rw [crc32, List.foldl_append, List.foldl_append, hcrc, crc32]
  rw [encodeDataRecord, hpayload, hsum, Record.encode, encodeDataRecord, List.append_assoc]

end Forged

section Runs

/-- The records that the rotation finds may be followed by bytes that look like a clean end. -/
theorem rotateActiveFileLocked_ok (hfile : db.activeFile = .opened) (hnumber : db.number = id)
    (hmax : id ≠ maxFileID) (hfresh : d.data[id]? = none)
    (htmp : d.tmpHint[db.activeFileID]? = none) (hd : d.data[db.activeFileID]? = some bs)
    (hrecs : records bs = (rs.map fun r => (r, r.size), .eof))
    (hsize : (hintBytes rs).length ≤ maxFileSize) :
    rotateActiveFileLocked ⟨d, db, []⟩ = .ok () ⟨rotatedDisk d db.activeFileID id rs,
      { db with
        activeFile := .opened, activeFileID := id, activeOffset := 0, nextFileID := id + 1 },
      []⟩ := by
  have hactive : onActive call ⟨d, db, []⟩ = .ok () ⟨d, db, []⟩ :=
    onActive_opened (hfile.trans_ne (by decide))
  have hclose : onActive (onError call (modifyDB fun db => { db with activeFile := .closed }))
      ⟨d, db, []⟩ = .ok () ⟨d, db, []⟩ := onActive_opened (hfile.trans_ne (by decide))
  have hhint : writeHintForDataFile db.activeFileID ⟨d, { db with activeFile := .none }, []⟩ =
      .ok () ⟨{ d with hint := d.hint.insert db.activeFileID (hintBytes rs) },
        { db with activeFile := .none }, []⟩ := by
    rcases writeHintForDataFile_cases { db with activeFile := .none } hd hrecs [] with
      ⟨-, -, hok⟩ | ⟨hnot, -⟩
    · rw [hok, Maps.erase_absent htmp, List.drop_nil]
    · exact absurd ⟨Succeed.nil _, hsize⟩ hnot
  have hcreate : createNewActiveFile id ⟨{ d with
      hint := d.hint.insert db.activeFileID (hintBytes rs) }, { db with activeFile := .none }, []⟩ =
        .ok () ⟨rotatedDisk d db.activeFileID id rs, { db with
          activeFile := .opened, activeFileID := id, activeOffset := 0 }, []⟩ := by
    rcases createNewActiveFile_cases { db with activeFile := .none }
      (d := { d with hint := d.hint.insert db.activeFileID (hintBytes rs) }) hfresh [] with
      ⟨-, hok⟩ | ⟨hnot, -⟩
    · exact hok
    · exact absurd (Succeed.nil _) hnot
  have hne : db.activeFile ≠ .none := hfile.trans_ne (by decide)
  simp only [rotateActiveFileLocked, bind_apply, getDB_apply, if_pos hne, hactive, hclose,
    modifyDB_apply, hhint, hnumber, if_neg hmax, hcreate]

/-- A `Put` after the append has found room. -/
theorem put_ok {ts : Int64} {key value : Bytes} {d' : Disk} {db' : DB} (hopen : db.closed = false)
    (hrw : db.opts.readWrite = true) (hv : value ≠ tombstoneValue)
    (hroom : makeRoom (Int64.ofNat (encodeDataRecord ts key value).length) ⟨d, db, []⟩ =
      .ok () ⟨d', db', []⟩) (hfile : db'.activeFile = .opened)
    (hsync : db'.opts.syncOnPut = false) (hd : d'.data[db'.activeFileID]? = some bs)
    (hsize : bs.length + (encodeDataRecord ts key value).length ≤ maxFileSize) :
    put ts key value ⟨d, db, []⟩ = .ok ()
      ⟨{ d' with data := d'.data.insert db'.activeFileID (bs ++ encodeDataRecord ts key value) },
        { db' with
          activeOffset :=
            db'.activeOffset + Int64.ofNat (encodeDataRecord ts key value).length
          keydir := db'.keydir.insert key
            ⟨db'.activeFileID, db'.activeOffset,
              UInt32.ofNat (encodeDataRecord ts key value).length, ts⟩ }, []⟩ := by
  have hwrite : writeActive (encodeDataRecord ts key value) ⟨d', db', []⟩ = .ok ()
      ⟨{ d' with data := d'.data.insert db'.activeFileID (bs ++ encodeDataRecord ts key value) },
        db', []⟩ := by
    rw [writeActive, onActive_opened (hfile.trans_ne (by decide))]
    simp only [bind_apply, getDB_apply, getDisk_apply, hd, Option.getD_some, write_ok _ _ hsize,
      Maps.modify_eq_insert hd]
  simp [put, appendRecordLocked, ensureOpen, mustReadWrite, bind_apply, hopen, hrw, hv, hroom,
    hwrite, hsync]

/-- The copy of any record, a tombstone too, into an empty file. -/
theorem mergeStore_first (run : MergeRun) (db : DB) {f : MergeFile}
    (hdata : d.tmpData[f.fileID]? = some []) (hhint : d.tmpHint[f.fileID]? = some [])
    (hsize : r.size < 2 ^ 32) :
    ∃ run' d', mergeStore run f r.key r ⟨d, db, []⟩ = .ok run' ⟨d', db, []⟩ ∧
      run'.immutableIDs = run.immutableIDs ∧ run'.mergedFiles = run.mergedFiles ∧
      d'.tmpData[f.fileID]? = some r.encode ∧ d'.tmpHint[f.fileID]? ≠ none := by
  have henc : encodeDataRecord r.timestamp r.key r.value = r.encode := rfl
  have hkey : r.key.length ≤ r.size := by
    rw [Record.size]
    omega
  have hfirst : ([] : Bytes).length + r.encode.length ≤ maxFileSize := by
    rw [Record.length_encode, maxFileSize, List.length_nil]
    omega
  have hsecond : ∀ off n, ([] : Bytes).length +
      (encodeHintRecord ⟨r.timestamp, r.key, off, n, false⟩).length ≤ maxFileSize := by
    intro off n
    simp only [encodeHintRecord, List.length_append, length_bytesLE, List.length_nil, maxFileSize]
    omega
  have happend : ∃ run' d', mergeAppend run f r.key r ⟨d, db, []⟩ = .ok run' ⟨d', db, []⟩ ∧
      run'.immutableIDs = run.immutableIDs ∧ run'.mergedFiles = run.mergedFiles ∧
      d'.tmpData[f.fileID]? = some r.encode ∧ d'.tmpHint[f.fileID]? ≠ none := by
    simp only [mergeAppend, bind_apply, getDisk_apply, henc, hdata, Option.getD_some,
      write_ok _ _ hfirst, hhint, write_ok _ _ (hsecond _ _), pure_apply]
    exact ⟨_, _, rfl, rfl, rfl, by simp [Maps.modify_eq_insert hdata],
      by simp [Maps.modify_eq_insert hhint]⟩
  obtain ⟨run', d', hok, hrest⟩ := happend
  exact ⟨run', d', onError_ok hok, hrest⟩

/-- A call of `Merge` with one key to copy copies the record of its entry, whatever it is. -/
theorem merge_single (h : Holds segs d) (ha : Active segs db rs) (hat : At segs e r)
    (hsize : r.size < 2 ^ 32) (hmax : db.nextFileID ≠ maxFileID)
    (he : (startRun d db).snapshot[r.key]? = some e)
    (hkeys : (startRun d db).snapshot.keys = [r.key]) :
    ∃ d' db', merge ⟨d, db, []⟩ = .ok () ⟨d', db', []⟩ ∧
      db'.activeFileID = db.activeFileID ∧ d'.data[db.nextFileID]? = some r.encode := by
  have hids : (startRun d db).immutableIDs ≠ [] :=
    List.ne_nil_of_mem (startRun_snapshot.mp he).2
  have hnew : db.nextFileID ∉ (startRun d db).immutableIDs := fun hmem =>
    ((mem_startRun h).mp hmem).1 ha.fresh
  have hread : mergeRead (startRun d db) r.key ⟨d, db, []⟩ =
      .ok r ⟨d, db.reading e.fileID, []⟩ := by
    refine onError_ok ?_
    rw [he]
    exact readRecordAtEntry_sized h ha.opened hat hsize
  rw [DB.reading_eq] at hread
  generalize (db.reading e.fileID).readers = readers at hread
  have hnext : db.nextFileID ≠ 0 := Nat.ne_of_gt (Nat.zero_lt_of_lt ha.active_lt)
  have hopen : ({ db with readers := readers } : DB).closed = false := ha.opened
  obtain ⟨run₁, f, d₁, db₁, ht, halloc⟩ :=
    (mergeAllocate_run (d := d) hopen hnext (startRun d db) r.key r).resolve_right
      fun hfault => hmax hfault.1
  cases ht with
  | stay hcurrent => cases hcurrent
  | fresh =>
    obtain ⟨run₂, d₂, hstore, hold, hfiles, hcopy, hhint⟩ :=
      mergeStore_first (d := { d with tmpData := d.tmpData.insert db.nextFileID []
                                      tmpHint := d.tmpHint.insert db.nextFileID [] })
        { startRun d db with mergedFiles := (startRun d db).mergedFiles ++ [db.nextFileID]
                             current := some ⟨db.nextFileID, 0⟩ }
        { db with readers := readers, nextFileID := db.nextFileID + 1 } (r := r)
        (f := ⟨db.nextFileID, 0⟩) (by simp) (by simp) hsize
    have hopen₂ : ({ db with readers := readers, nextFileID := db.nextFileID + 1 } : DB).closed =
      false := ha.opened
    have hstaged : d₂.Staged run₂.mergedFiles := by
      have hthere : d₂.Prepared db.nextFileID := ⟨by rw [hcopy]; exact Option.some_ne_none _, hhint⟩
      rw [hfiles]
      simpa [startRun, Disk.Staged] using hthere
    obtain ⟨readers', -, hpublish⟩ := mergePublish_ok hstaged hopen₂ ha.readWrite
    have hmerge : merge ⟨d, db, []⟩ = mergePublish run₂
        ⟨d₂, { db with readers := readers, nextFileID := db.nextFileID + 1 }, []⟩ := by
      simp only [merge, bind_apply, mergeSnapshot_run h ha, if_neg hids, hkeys, mergeCopy, hread,
        halloc]
      simp only at hstore
      rw [hstore]
      rfl
    refine ⟨_, _, hmerge.trans hpublish, rfl, ?_⟩
    rw [(drop_getElem? _ _).1, hold, if_neg hnew, hfiles]
    simp [Disk.publish, hcopy, startRun]

end Runs

section History

/-- What the oversized record reads as. -/
def tomb : Record := ⟨1, [1], tombstoneValue⟩

/-- A `Put` of the value, and one that finds the file full. -/
def oversized (value : Bytes) : List Period :=
  [.alone ⟨.open ⟨true, false, 25⟩, []⟩, .alone ⟨.put 1 [1] value, []⟩,
    .alone ⟨.put 2 [2] [8], []⟩]

/-- The store after `Open`. -/
def started : World where
  disk := { data := (∅ : ExtTreeMap Nat Bytes).insert 1 [], locked := true }
  db := { opts := ⟨true, false, 25⟩, keydir := ∅, activeFile := .opened, activeFileID := 1
          activeOffset := 0, nextFileID := 2, readers := [], lockFile := true, closed := false }

/-- The store after the first `Put`, which has written `bs`. -/
def holding (bs : Bytes) : World where
  disk := { data := (∅ : ExtTreeMap Nat Bytes).insert 1 bs, locked := true }
  db := { started.db with
    activeOffset := Int64.ofNat bs.length
    keydir := (∅ : KeyDir).insert [1] ⟨1, 0, UInt32.ofNat bs.length, 1⟩ }

/-- The store after the second `Put`. -/
def rotated (bs hint : Bytes) : World where
  disk := { data := ((∅ : ExtTreeMap Nat Bytes).insert 1 bs).insert 2 (encodeDataRecord 2 [2] [8])
            hint := (∅ : ExtTreeMap Nat Bytes).insert 1 hint, locked := true }
  db := { started.db with
    activeFileID := 2, activeOffset := 22, nextFileID := 3
    keydir := ((∅ : KeyDir).insert [1] ⟨1, 0, UInt32.ofNat bs.length, 1⟩).insert [2] ⟨2, 0, 22, 2⟩ }

theorem trial_open : World.empty.trial ⟨.open ⟨true, false, 25⟩, []⟩ = some started := rfl

theorem trial_put {ts : Int64} {key value : Bytes} {d' : Disk} {db' : DB}
    (h : put ts key value ⟨d, db, []⟩ = .ok () ⟨d', db', []⟩) :
    World.trial ⟨d, db, []⟩ ⟨.put ts key value, []⟩ = some ⟨d', db', []⟩ := by
  have htried : World.tried ⟨d, db, []⟩ (put ts key value) [] = ⟨d', db', []⟩ := by
    rw [World.tried, h]
  exact congrArg some htried

theorem put_started {value : Bytes} (hv : value ≠ tombstoneValue)
    (hsize : (encodeDataRecord 1 [1] value).length ≤ maxFileSize) :
    put 1 [1] value started = .ok () (holding (encodeDataRecord 1 [1] value)) := by
  have hroom : makeRoom (Int64.ofNat (encodeDataRecord 1 [1] value).length) started =
      .ok () started := by
    simp [makeRoom, bind_apply, started, DB.full]
  have hdata : started.disk.data[started.db.activeFileID]? = some [] := by simp [started]
  refine (put_ok rfl rfl hv hroom rfl rfl hdata (by simpa using hsize)).trans ?_
  simp [started, holding, Maps.insert_insert]

theorem put_holding (hlen : bs.length = 2 ^ 32 + 42)
    (hrecs : records bs = ([tomb, r].map fun r => (r, r.size), .eof))
    (hsize : (hintBytes [tomb, r]).length ≤ maxFileSize) :
    put 2 [2] [8] (holding bs) = .ok () (rotated bs (hintBytes [tomb, r])) := by
  have hfull : (holding bs).db.full (Int64.ofNat (encodeDataRecord 2 [2] [8]).length) := by
    change _ ∧ _
    simp only [holding, hlen]
    decide
  have hroom : makeRoom (Int64.ofNat (encodeDataRecord 2 [2] [8]).length) (holding bs) =
      .ok () ⟨rotatedDisk (holding bs).disk 1 2 [tomb, r], rotatedDB (holding bs).db, []⟩ := by
    simp only [makeRoom, bind_apply, getDB_apply, if_pos hfull]
    have hfile : (holding bs).db.activeFile ≠ .none := fun h => by cases h
    rw [if_neg hfile]
    have hfresh : (holding bs).disk.data[2]? = none := by
      simp [holding, started]
    have hold : (holding bs).disk.data[(holding bs).db.activeFileID]? = some bs := by
      simp [holding, started]
    exact rotateActiveFileLocked_ok rfl rfl (by decide) hfresh (by simp) hold hrecs hsize
  have hdata : (rotatedDisk (holding bs).disk 1 2 [tomb, r]).data[
      (rotatedDB (holding bs).db).activeFileID]? = some [] := by
    simp [rotatedDisk, rotatedDB, holding, started]
  refine (put_ok rfl rfl (by decide) hroom rfl rfl hdata (by decide)).trans ?_
  have hsmall : (encodeDataRecord 2 [2] [8]).length = 22 := by decide
  rw [hsmall]
  simp only [rotated, rotatedDisk, rotatedDB, holding, started, Maps.insert_insert]
  rfl

/-- The files after the second `Put`, as the scan of the first one finds them. -/
def scannedSegs (r : Record) (last : Bytes) : Nat → Option Segment
  | 1 => some { records := [tomb, r], tail := last }
  | 2 => some { records := [⟨2, [2], [8]⟩] }
  | _ => none

theorem scannedSegs_cases {last : Bytes} {s : Segment} (hs : scannedSegs r last id = some s) :
    id = 1 ∧ s = { records := [tomb, r], tail := last } ∨
      id = 2 ∧ s = { records := [⟨2, [2], [8]⟩] } := by
  unfold scannedSegs at hs
  split at hs
  · exact Or.inl ⟨rfl, (Option.some.inj hs).symm⟩
  · exact Or.inr ⟨rfl, (Option.some.inj hs).symm⟩
  · cases hs

theorem rotated_holds {last hint : Bytes} (hr : r.Legal)
    (hlen : (bytesOf [tomb, r] ++ last).length ≤ maxFileSize) :
    Holds (scannedSegs r last) (rotated (bytesOf [tomb, r] ++ last) hint).disk where
  data id := by
    by_cases h₂ : id = 2
    · subst h₂
      simp [rotated, scannedSegs, Segment.bytes, bytesOf, Record.encode]
    · by_cases h₁ : id = 1
      · subst h₁
        simp only [rotated, Maps.getElem?_insert_of_ne h₂, ExtTreeMap.getElem?_insert_self]
        rfl
      · have hnone : scannedSegs r last id = none := by
          by_contra hne
          obtain ⟨s, hs⟩ := Option.ne_none_iff_exists'.mp hne
          rcases scannedSegs_cases hs with ⟨heq, -⟩ | ⟨heq, -⟩
          · exact h₁ heq
          · exact h₂ heq
        simp [rotated, hnone, Maps.getElem?_insert_of_ne h₂, Maps.getElem?_insert_of_ne h₁]
  legal id s hs r' hr' := by
    rcases scannedSegs_cases hs with ⟨-, rfl⟩ | ⟨-, rfl⟩
    · rcases List.mem_pair.mp hr' with rfl | rfl
      · decide
      · exact hr
    · obtain rfl := List.mem_singleton.mp hr'
      decide
  size id s hs := by
    rcases scannedSegs_cases hs with ⟨-, rfl⟩ | ⟨-, rfl⟩
    · exact hlen
    · decide
  other := rfl

theorem rotated_active {last hint : Bytes} :
    Active (scannedSegs r last) (rotated bs hint).db [⟨2, [2], [8]⟩] where
  opened := rfl
  readWrite := rfl
  activeFile := nofun
  file := rfl
  offset := by
    change (22 : Int64) = _
    decide
  next := by
    change 3 ≤ maxFileID
    decide
  below id hid := by
    obtain ⟨s, hs⟩ := Option.ne_none_iff_exists'.mp hid
    change id < 3
    rcases scannedSegs_cases hs with ⟨rfl, -⟩ | ⟨rfl, -⟩ <;> decide

/-- The entry of the oversized record is that of the tombstone. -/
theorem rotated_keydir (hint : Bytes) (hlen : bs.length = 2 ^ 32 + 42) :
    (rotated bs hint).db.keydir =
      ((∅ : KeyDir).insert tomb.key (entryOf 1 0 tomb)).insert [2] ⟨2, 0, 22, 2⟩ := by
  simp only [rotated, hlen]
  rfl

/-- The tombstone is all that `Merge` has to copy. -/
theorem rotated_snapshot {last hint : Bytes} (hlen : bs.length = 2 ^ 32 + 42)
    (hholds : Holds (scannedSegs r last) (rotated bs hint).disk) :
    (startRun (rotated bs hint).disk (rotated bs hint).db).snapshot[tomb.key]? =
        some (entryOf 1 0 tomb) ∧
      (startRun (rotated bs hint).disk (rotated bs hint).db).snapshot.keys = [tomb.key] := by
  have hkeydir := rotated_keydir hint hlen
  have hfile : (rotated bs hint).db.activeFileID = 2 := rfl
  generalize rotated bs hint = w at hholds hkeydir hfile ⊢
  have he : (startRun w.disk w.db).snapshot[tomb.key]? = some (entryOf 1 0 tomb) := by
    refine startRun_snapshot.mpr ⟨?_, (mem_startRun hholds).mpr ⟨Option.some_ne_none _, ?_⟩⟩
    · rw [hkeydir, Maps.getElem?_insert_of_ne (by decide)]
      exact ExtTreeMap.getElem?_insert_self
    · rw [hfile]
      decide
  refine ⟨he, Maps.keys_eq (List.pairwise_singleton _ _) fun k => ?_⟩
  rw [List.mem_singleton, ExtTreeMap.mem_iff_isSome_getElem?, Option.isSome_iff_exists]
  refine ⟨fun hk => ⟨_, hk ▸ he⟩, ?_⟩
  rintro ⟨e, hk⟩
  obtain ⟨hk, hold⟩ := startRun_snapshot.mp hk
  by_contra hne
  rw [hkeydir] at hk
  by_cases hsecond : k = [2]
  · rw [hsecond, ExtTreeMap.getElem?_insert_self, Option.some.injEq] at hk
    refine ((mem_startRun hholds).mp hold).2 ?_
    rw [← hk, hfile]
  · rw [Maps.getElem?_insert_of_ne hsecond, Maps.getElem?_insert_of_ne hne] at hk
    simp at hk

/-- `Merge` copies the tombstone. -/
theorem merge_rotated {last : Bytes} (hint : Bytes) (hr : r.Legal)
    (hlen : (bytesOf [tomb, r] ++ last).length = 2 ^ 32 + 42) :
    ∃ w', merge (rotated (bytesOf [tomb, r] ++ last) hint) = .ok () w' ∧
      tomb ∈ w'.immutableRecords := by
  have hholds : Holds (scannedSegs r last) (rotated (bytesOf [tomb, r] ++ last) hint).disk :=
    rotated_holds hr (by rw [hlen]; decide)
  obtain ⟨he, hkeys⟩ := rotated_snapshot hlen hholds
  have hat : At (scannedSegs r last) (entryOf 1 0 tomb) tomb := ⟨_, [], [r], rfl, rfl, rfl⟩
  have hmax : (rotated (bytesOf [tomb, r] ++ last) hint).db.nextFileID ≠ maxFileID := by
    change 3 ≠ maxFileID
    decide
  obtain ⟨d', db', hmerge, hsame, hcopy⟩ :=
    merge_single hholds rotated_active hat (by decide) hmax he hkeys
  have hfile : db'.activeFileID = 2 := hsame
  have hnew : d'.data[3]? = some tomb.encode := hcopy
  refine ⟨_, hmerge, List.mem_flatMap.mpr ⟨3, List.mem_filter.mpr ⟨?_, ?_⟩, ?_⟩⟩
  · rw [ExtTreeMap.mem_keys, ExtTreeMap.mem_iff_isSome_getElem?, hnew]
    rfl
  · simp [hfile]
  · have hrecords : recordsIn (bytesOf [tomb]) = [tomb] := recordsIn_bytesOf (by decide)
    rw [bytesOf, List.flatMap_singleton] at hrecords
    rw [World.dataOf, hnew, Option.getD_some, hrecords]
    exact List.mem_singleton_self _

/-- Four bytes are taken for a clean end. -/
theorem decode_four {last : Bytes} (h : last.length = 4) :
    decodeDataRecord last = .error .eof := by
  have hread := readFull_append (b := []) h
  rw [List.append_nil] at hread
  rw [decodeDataRecord, hread]
  rfl

/-- There is such a value of 2^32 + 21 bytes. -/
theorem oversized_run : ∃ (value : Bytes) (w w' : World), value.length = 2 ^ 32 + 21 ∧
    periods.exec World.empty (oversized value) = some w ∧ merge w = .ok () w' ∧
    tomb ∈ w'.immutableRecords := by
  obtain ⟨filler, hfiller⟩ : ∃ bs : Bytes, bs.length = 2 ^ 32 - 24 :=
    ⟨List.replicate _ 0, List.length_replicate⟩
  obtain ⟨r, hsize, hr⟩ : ∃ r : Record, r.size = 2 ^ 32 - 4 ∧ r.Legal := by
    have hsize : Record.size ⟨0, [], filler⟩ = 2 ^ 32 - 4 := by
      rw [Record.size, hfiller, List.length_nil]
      omega
    refine ⟨⟨0, [], filler⟩, hsize, Nat.two_pow_pos 32, fun _ => ?_⟩
    rw [hsize]
    omega
  have hbody : r.encode.length = 2 ^ 32 - 4 := by rw [Record.length_encode, hsize]
  obtain ⟨last, hlast, hforged⟩ := exists_oversized tomb hbody
  have hbytes : tomb.encode ++ (r.encode ++ last) = bytesOf [tomb, r] ++ last := by
    simp [bytesOf]
  have hencode : encodeDataRecord 1 [1] (tombstoneValue ++ (r.encode ++ last)) =
      bytesOf [tomb, r] ++ last := hforged.trans hbytes
  have hlen : (bytesOf [tomb, r] ++ last).length = 2 ^ 32 + 42 := by
    have hfirst : tomb.encode.length = 42 := by decide
    rw [← hbytes, List.length_append, List.length_append, hfirst, hbody, hlast]
    omega
  have hvalue : (tombstoneValue ++ (r.encode ++ last)).length = 2 ^ 32 + 21 := by
    have htombstone : tombstoneValue.length = 21 := rfl
    rw [List.length_append, List.length_append, htombstone, hbody, hlast]
    omega
  have hfits : ∀ r' ∈ [tomb, r], r'.Fits := by
    rintro r' hr'
    rcases List.mem_pair.mp hr' with rfl | rfl
    · decide
    · exact hr.fits
  have hhint : (hintBytes [tomb, r]).length ≤ maxFileSize := by
    have hkey : r.key.length < 2 ^ 32 := hr.1
    have htomb : tomb.key.length = 1 := rfl
    simp only [hintBytes, hintsFrom, List.flatMap_cons, List.flatMap_nil, List.append_nil,
      encodeHintRecord, List.length_append, length_bytesLE, hintOf, maxFileSize]
    omega
  have hv : tombstoneValue ++ (r.encode ++ last) ≠ tombstoneValue := by
    intro heq
    rw [heq] at hvalue
    exact absurd hvalue (by decide)
  have hfirst : put 1 [1] (tombstoneValue ++ (r.encode ++ last)) started =
      .ok () (holding (bytesOf [tomb, r] ++ last)) := by
    rw [← hencode]
    refine put_started hv ?_
    rw [hencode, hlen]
    decide
  have hsecond := put_holding hlen (records_append hfits (decode_four hlast)) hhint
  obtain ⟨w', hmerge, hcopied⟩ := merge_rotated (hintBytes [tomb, r]) hr hlen
  refine ⟨_, _, w', hvalue, ?_, hmerge, hcopied⟩
  rw [oversized, Machine.exec_cons_eq_some]
  refine ⟨started, trial_open, Machine.exec_cons_eq_some.mpr ⟨_, trial_put hfirst, ?_⟩⟩
  rw [Machine.exec_singleton]
  exact trial_put hsecond

/-- A record that does not fit its size fields, or a write that failed after some of its bytes, can
make `Merge` copy a tombstone. -/
theorem not_merge_compacts :
    (∃ (value : Bytes) (w w' : World), value.length = 2 ^ 32 + 21 ∧
      periods.exec World.empty (oversized value) = some w ∧ merge w = .ok () w' ∧
      ¬ Compacts w w') ∧
    ∃ w w', periods.exec World.empty staleOffset = some w ∧ merge w = .ok () w' ∧
      ¬ Compacts w w' := by
  refine ⟨?_, ?_⟩
  · obtain ⟨value, w, w', hvalue, hrun, hmerge, hcopied⟩ := oversized_run
    exact ⟨value, w, w', hvalue, hrun, hmerge, Compacts.not_of_tombstone hcopied rfl⟩
  · obtain ⟨w, w', r, hrun, hmerge, hcopied, htombstone⟩ := staleOffset_run
    exact ⟨w, w', hrun, hmerge, Compacts.not_of_tombstone hcopied htombstone⟩

end History

end KvRaft.Store
