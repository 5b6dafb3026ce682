import KvRaft.Store.Effects
import KvRaft.Store.Failures
import KvRaft.Store.Names

/-! The numbers of the data files. They come from one counter, which a rotation and the files of a
`Merge` advance; a `Merge` gives its files their names much later, or never. The results hold
whatever the files contain. A directory with a file of the largest ID makes the counter start anew;
what holds then too, and what only holds without such a file, are two invariants. -/

namespace KvRaft.Store

open Std Effects

variable {α : Type} {w w' v : World} {T : Nat → Prop} {files : List Nat} {drawn : Option Nat}
  {id : Nat}

/-- Some file of the directory is the data file of the ID. -/
def Disk.HasID (d : Disk) (id : Nat) : Prop :=
  d.data[id]? ≠ none ∨ ∃ name ∈ d.other, parseFileID name dataFileExtension = some id

theorem Disk.HasID.mem_keys {d : Disk} (h : d.HasID id) (hother : d.other = []) :
    id ∈ d.data.keys := by
  rcases h with hdata | ⟨name, hname, -⟩
  · rwa [ExtTreeMap.mem_keys, ExtTreeMap.mem_iff_isSome_getElem?, Option.isSome_iff_ne_none]
  · rw [hother] at hname
    cases hname

/-- The number `drawn` was taken, or none; no data file but those of `files` is new, and no
temporary file is lost but those of the IDs in `T`. -/
structure Draws (T : Nat → Prop) (files : List Nat) (drawn : Option Nat) (w w' : World) :
    Prop where
  number : ∀ id ∈ drawn, id = w.db.number ∧ id ≠ maxFileID
  next : w'.db.nextFileID = drawn.elim w.db.nextFileID (· + 1)
  active : w'.db.activeFileID = w.db.activeFileID ∨
    w'.db.activeFileID ∈ drawn ∧ w'.db.activeFileID ∈ files
  data : ∀ id, w'.disk.data[id]? ≠ none → w.disk.data[id]? ≠ none ∨ id ∈ files
  other : ∀ name ∈ w'.disk.other, name ∈ w.disk.other
  tmp : w.disk.Saves T w'.disk
  calm : w.outcomes = [] → w'.outcomes = []

theorem Draws.hasID (h : Draws T files drawn w w') (hid : w'.disk.HasID id) :
    w.disk.HasID id ∨ id ∈ files := by
  rcases hid with hdata | ⟨name, hname, hparse⟩
  · exact (h.data id hdata).imp_left Or.inl
  · exact Or.inl (Or.inr ⟨name, h.other name hname, hparse⟩)

theorem Draws.sameActive (h : Draws T files none w w') :
    w'.db.activeFileID = w.db.activeFileID :=
  h.active.resolve_right fun hdrawn => Option.not_mem_none _ hdrawn.1

theorem Draws.mono {T' : Nat → Prop} (h : Draws T files drawn w w') (hT : ∀ id, T id → T' id) :
    Draws T' files drawn w w' :=
  { h with tmp := h.tmp.mono hT }

/-- One part takes the number, and the others take none and make no data file. -/
theorem Draws.followed (h : Draws T files drawn w v) (h' : Draws T [] none v w') :
    Draws T files drawn w w' where
  number := h.number
  next := h'.next.trans h.next
  active := h'.sameActive ▸ h.active
  data id hid := h.data id ((h'.data id hid).resolve_right List.not_mem_nil)
  other name hname := h.other name (h'.other name hname)
  tmp := h.tmp.trans h'.tmp
  calm hcalm := h'.calm (h.calm hcalm)

theorem Draws.preceded (h : Draws T [] none w v) (h' : Draws T files drawn v w') :
    Draws T files drawn w w' where
  number id hid := by
    have hnext : v.db.nextFileID = w.db.nextFileID := h.next
    rw [DB.number, ← hnext]
    exact h'.number id hid
  next := by
    rw [h'.next, show v.db.nextFileID = w.db.nextFileID from h.next]
  active := h.sameActive ▸ h'.active
  data id hid := (h'.data id hid).imp_left fun hv => (h.data id hv).resolve_right List.not_mem_nil
  other name hname := h.other name (h'.other name hname)
  tmp := h.tmp.trans h'.tmp
  calm hcalm := h'.calm (h.calm hcalm)

/-! ### Computations that take no number -/

/-- The data files, the counter and the active ID are the same. -/
theorem Draws.of_same (hdb : w'.db.nextFileID = w.db.nextFileID)
    (hactive : w'.db.activeFileID = w.db.activeFileID) (hdata : w'.disk.data = w.disk.data)
    (hother : w'.disk.other = w.disk.other) (htmp : w.disk.Saves T w'.disk)
    (hcalm : w.outcomes = [] → w'.outcomes = []) : Draws T files none w w' where
  number _ hid := absurd hid (Option.not_mem_none _)
  next := hdb
  active := Or.inl hactive
  data _ hid := Or.inl (hdata ▸ hid)
  other _ hname := hother ▸ hname
  tmp := htmp
  calm := hcalm

/-- Only the directory has changed. -/
theorem Draws.of_disk {d : Disk}
    (hdata : ∀ id, d.data[id]? ≠ none → w.disk.data[id]? ≠ none ∨ id ∈ files)
    (hother : ∀ name ∈ d.other, name ∈ w.disk.other) (htmp : w.disk.Saves T d) :
    Draws T files none w { w with disk := d } where
  number _ hid := absurd hid (Option.not_mem_none _)
  next := rfl
  active := Or.inl rfl
  data := hdata
  other := hother
  tmp := htmp
  calm h := h

instance : Std.Refl (Draws T files none) :=
  ⟨fun w => .of_same rfl rfl rfl rfl (.refl w.disk) fun h => h⟩

instance : IsTrans World (Draws T files none) where
  trans _ _ _ h h' := {
    number := h.number
    next := h'.next.trans h.next
    active := Or.inl (h'.sameActive.trans h.sameActive)
    data := fun id hid => (h'.data id hid).elim (h.data id) Or.inr
    other := fun name hname => h.other name (h'.other name hname)
    tmp := h.tmp.trans h'.tmp
    calm := fun hcalm => h'.calm (h.calm hcalm) }

theorem draws_call (w : World) : Draws T files none w { w with outcomes := w.outcomes.drop 1 } :=
  .of_same rfl rfl rfl rfl (.refl w.disk) fun h => by
    change w.outcomes.drop 1 = []
    rw [h]
    rfl

theorem permits_draws : Permits T (Draws T files none) where
  calls := draws_call
  db w _ h := .of_same h.next h.active rfl rfl (.refl w.disk) fun h => h
  disk _ _ hdata hother htmp := .of_same rfl rfl hdata hother htmp fun h => h
  append _ _ _ := .of_disk (fun _ hid => Or.inl fun hnone =>
    hid (Maps.getElem?_modify_eq_none.mpr hnone)) (fun _ h => h) (.of_same rfl rfl)

theorem opensReaders_draws : OpensReaders (Draws T files none) := fun w _ _ =>
  .of_same rfl rfl rfl rfl (.refl w.disk) fun h => h

theorem draws_removeFile (f : FileName) (htmp : ∀ d : Disk, d.Saves T (d.remove f)) :
    Within (Draws T files none) (removeFile f) := by
  refine within_removeFile draws_call fun w =>
    .of_disk (fun id hid => Or.inl ?_) (fun name hname => ?_) (htmp w.disk)
  · cases f with
    | data i => exact Maps.getElem?_erase_ne_none hid
    | _ => exact hid
  · cases f with
    | other n => exact List.mem_of_mem_erase hname
    | _ => exact hname

/-! ### Rotations -/

/-- `rotateActiveFileLocked` up to the new file. -/
def endFile : Op Unit := do
  let db ← getDB
  if db.activeFile ≠ .none then
    onActive call
    onActive (onError call (modifyDB fun db => { db with activeFile := .closed }))
    modifyDB fun db => { db with activeFile := .none }
    writeHintForDataFile db.activeFileID

/-- The new file of a rotation. -/
def startFile (newID : Nat) : Op Unit := do
  if newID = maxFileID then throw .fault
  createNewActiveFile newID
  modifyDB fun db => { db with nextFileID := newID + 1 }

theorem rotateActiveFileLocked_eq (w : World) :
    rotateActiveFileLocked w = (endFile >>= fun _ => startFile w.db.number) w := by
  simp only [rotateActiveFileLocked, endFile]
  rw [bind_apply, getDB_apply, bind_apply, bind_apply, getDB_apply]
  by_cases hfile : w.db.activeFile ≠ .none
  · simp only [if_pos hfile]
    rw [← bind_apply]
    simp only [bind_assoc]
    rfl
  · simp only [if_neg hfile]
    rfl

/-- The old file loses its temporary hint file at most. -/
theorem Permits.endFile {R : World → World → Prop} [Std.Refl R] [IsTrans World R]
    (h : Permits T R) (hT : T w.db.activeFileID) : R w (left endFile w) := by
  have hcall : Within R call := within_call h.calls
  rw [Store.endFile, left_bind_ok (getDB_apply w)]
  have hfile : Within R (do
      onActive call
      onActive (onError call (Store.modifyDB fun db => { db with activeFile := .closed }))
      Store.modifyDB fun db => { db with activeFile := .none }
      Store.writeHintForDataFile w.db.activeFileID) :=
    .bind (within_onActive hcall) fun _ =>
      .bind (within_onActive (within_onError hcall
        (h.modifyDB fun _ => ⟨rfl, rfl, rfl, rfl, rfl⟩))) fun _ =>
      .bind (h.modifyDB fun _ => ⟨rfl, rfl, rfl, rfl, rfl⟩) fun _ => h.writeHintForDataFile hT
  split
  · exact hfile w
  · exact refl_of R w

theorem startFile_run (d : Disk) (db : DB) {id : Nat} (hid : id ≠ maxFileID) :
    startFile id ⟨d, db, []⟩ = .ok ()
      ⟨{ d with data := d.data.insert id ((d.data[id]?).getD []) },
        { db with
          activeFile := .opened
          activeFileID := id
          activeOffset := Int64.ofNat ((d.data[id]?).getD []).length
          nextFileID := id + 1 }, []⟩ := by
  have halter : d.data.alter id (fun bs => some (bs.getD [])) =
      d.data.insert id ((d.data[id]?).getD []) := Maps.alter_eq_insert rfl
  simp only [startFile, if_neg hid, createNewActiveFile, bind_apply, call_apply, modifyDisk_apply,
    getDisk_apply, modifyDB_apply, halter, ExtTreeMap.getElem?_insert_self, Option.getD_some]

theorem startFile_max (w : World) : startFile maxFileID w = .error .fault w := rfl

/-- A new file takes the number given to it. -/
theorem startFile_draws (hcalm : v.outcomes = []) (hnumber : id = v.db.number)
    (hid : id ≠ maxFileID) : ∃ w', startFile id v = .ok () w' ∧ w'.db.activeFileID = id ∧
      Draws T [id] (some id) v w' ∧ (v.disk.data[id]? = none →
        w'.disk.data[id]? = some [] ∧ w'.db.activeOffset = 0) := by
  obtain ⟨d, db, os⟩ := v
  obtain rfl : os = [] := hcalm
  refine ⟨_, startFile_run d db hid, rfl, ⟨?_, rfl, Or.inr ⟨rfl, List.mem_singleton.mpr rfl⟩,
    fun i hi => ?_, fun _ h => h, .of_same rfl rfl, fun h => h⟩, fun hnone => ?_⟩
  · rintro _ ⟨rfl⟩
    exact ⟨hnumber, hid⟩
  · by_cases heq : i = id
    · exact Or.inr (List.mem_singleton.mpr heq)
    · rw [Maps.getElem?_insert_of_ne heq] at hi
      exact Or.inl hi
  · have hnone' : d.data[id]? = none := hnone
    rw [hnone']
    exact ⟨ExtTreeMap.getElem?_insert_self, rfl⟩

/-- A rotation fails before it has taken a number, or starts the file of its number. -/
theorem rotateActiveFileLocked_draws (hcalm : w.outcomes = []) :
    (∃ e w', rotateActiveFileLocked w = .error e w' ∧
        Draws (· = w.db.activeFileID) [] none w w') ∨
      ∃ w', rotateActiveFileLocked w = .ok () w' ∧ w'.db.activeFileID = w.db.number ∧
        Draws (· = w.db.activeFileID) [w.db.number] (some w.db.number) w w' ∧
        (w.disk.data[w.db.number]? = none →
          w'.disk.data[w.db.number]? = some [] ∧ w'.db.activeOffset = 0) := by
  have hends : Draws (· = w.db.activeFileID) [] none w (left endFile w) :=
    permits_draws.endFile rfl
  rw [rotateActiveFileLocked_eq, bind_apply]
  cases hend : endFile w with
  | error e v =>
    rw [left_error hend] at hends
    exact Or.inl ⟨e, v, rfl, hends⟩
  | ok _ v =>
    rw [left_ok hend] at hends
    have hnumber : w.db.number = v.db.number := by
      rw [DB.number, DB.number, show v.db.nextFileID = w.db.nextFileID from hends.next]
    by_cases hmax : w.db.number = maxFileID
    · refine Or.inl ⟨.fault, v, ?_, hends⟩
      simp only [hmax]
      exact startFile_max v
    · obtain ⟨w', hstart, hactive, hdraws, hfirst⟩ :=
        startFile_draws (hends.calm hcalm) hnumber hmax
      refine Or.inr ⟨w', hstart, hactive, hends.preceded hdraws, fun hnone => hfirst ?_⟩
      by_contra hne
      exact (hends.data _ hne).elim (fun h => h hnone) List.not_mem_nil

/-- The number that the rotation of a write of `record` takes, if the write comes to a rotation and
the rotation succeeds. -/
def World.rotates (w : World) (record : Bytes) : Option Nat :=
  if w.db.closed = false ∧ w.db.opts.readWrite = true ∧ w.db.activeFile ≠ .none ∧
      w.db.full (Int64.ofNat record.length) then
    match rotateActiveFileLocked w with
    | .ok _ w' => some w'.db.activeFileID
    | .error _ _ => none
  else none

theorem left_checked (f : Op α) (w : World) :
    left (ensureOpen >>= fun _ => mustReadWrite >>= fun _ => f) w =
      if w.db.closed = false ∧ w.db.opts.readWrite = true then left f w else w := by
  by_cases hopen : w.db.closed = true
  · have hfails : ensureOpen w = .error .closed w := by simp [ensureOpen, bind_apply, hopen]
    rw [left_bind_error hfails, if_neg (by simp [hopen])]
  have hpasses : ensureOpen w = .ok () w := by simp [ensureOpen, bind_apply, hopen]
  rw [left_bind_ok hpasses]
  by_cases hrw : w.db.opts.readWrite = true
  · have hpasses : mustReadWrite w = .ok () w := by simp [mustReadWrite, bind_apply, hrw]
    rw [left_bind_ok hpasses, if_pos ⟨Bool.eq_false_iff.mpr hopen, hrw⟩]
  · have hfails : mustReadWrite w = .error .readOnly w := by
      simp [mustReadWrite, bind_apply, hrw]
    rw [left_bind_error hfails, if_neg fun h => hrw h.2]

theorem appendRecordLocked_draws (record : Bytes) (ts : Int64) (hcalm : w.outcomes = [])
    (hopen : w.db.closed = false) (hrw : w.db.opts.readWrite = true) :
    Draws (· = w.db.activeFileID) (w.rotates record).toList (w.rotates record) w
      (left (appendRecordLocked record ts) w) := by
  have hrest : Within (Draws (· = w.db.activeFileID) [] none) _ :=
    permits_draws.appendRest record ts
  have hquiet : ∀ {v}, w.rotates record = none → Draws (· = w.db.activeFileID) [] none w v →
      Draws (· = w.db.activeFileID) (w.rotates record).toList (w.rotates record) w v := by
    intro v hnone hdraws
    rw [hnone]
    exact hdraws
  by_cases hfile : w.db.activeFile = .none
  · have hroom : makeRoom (Int64.ofNat record.length) w = .error .noActiveFile w := by
      simp [makeRoom, bind_apply, hfile]
    rw [appendRecordLocked, left_bind_error hroom]
    exact hquiet (if_neg fun h => h.2.2.1 hfile) (refl_of _ w)
  by_cases hfull : w.db.full (Int64.ofNat record.length)
  swap
  · have hroom : makeRoom (Int64.ofNat record.length) w = .ok () w := by
      simp [makeRoom, bind_apply, hfile, hfull]
    rw [appendRecordLocked, left_bind_ok hroom]
    exact hquiet (if_neg fun h => hfull h.2.2.2) (hrest w)
  have hroom : makeRoom (Int64.ofNat record.length) w = rotateActiveFileLocked w := by
    simp [makeRoom, bind_apply, hfile, hfull]
  have hrotates : w.rotates record = match rotateActiveFileLocked w with
      | .ok _ w' => some w'.db.activeFileID
      | .error _ _ => none := if_pos ⟨hopen, hrw, hfile, hfull⟩
  rcases rotateActiveFileLocked_draws hcalm with
    ⟨e, v, herror, hdraws⟩ | ⟨v, hok, hactive, hdraws, -⟩
  · rw [appendRecordLocked, left_bind_error (hroom.trans herror)]
    exact hquiet (by rw [hrotates, herror]) hdraws
  · rw [appendRecordLocked, left_bind_ok (hroom.trans hok), hrotates, hok]
    simp only [hactive]
    exact hdraws.followed (hrest v)

/-- The record is appended and the keydir changed, if the checks let the call pass. -/
theorem write_draws (record : Bytes) (ts : Int64) (f : KeyDirEntry → KeyDir → KeyDir)
    (hcalm : w.outcomes = []) :
    Draws (· = w.db.activeFileID) (w.rotates record).toList (w.rotates record) w
      (if w.db.closed = false ∧ w.db.opts.readWrite = true then
        left (do
          let entry ← appendRecordLocked record ts
          modifyDB fun db => { db with keydir := f entry db.keydir }) w
      else w) := by
  split
  · next hopen =>
    have happend := appendRecordLocked_draws record ts hcalm hopen.1 hopen.2
    cases hop : appendRecordLocked record ts w with
    | error e v =>
      rw [left_error hop] at happend
      rw [left_bind_error hop]
      exact happend
    | ok entry v =>
      rw [left_ok hop] at happend
      rw [left_bind_ok hop]
      exact happend.followed (permits_draws.modifyDB (f := fun db => { db with
        keydir := f entry db.keydir }) (fun _ => ⟨rfl, rfl, rfl, rfl, rfl⟩) v)
  · next hclosed =>
    rw [show w.rotates record = none from if_neg fun h => hclosed ⟨h.1, h.2.1⟩]
    exact refl_of (Draws _ [] none) w

/-- The number that a `Put` takes. -/
def World.rotatesForPut (w : World) (ts : Int64) (key value : Bytes) : Option Nat :=
  if value = tombstoneValue then none else w.rotates (encodeDataRecord ts key value)

theorem put_draws (ts : Int64) (key value : Bytes) (hcalm : w.outcomes = []) :
    Draws (· = w.db.activeFileID) (w.rotatesForPut ts key value).toList
      (w.rotatesForPut ts key value) w (left (put ts key value) w) := by
  rw [put, left_checked, World.rotatesForPut]
  by_cases hreserved : value = tombstoneValue
  · rw [if_pos hreserved, if_pos hreserved]
    have hsame : Draws (· = w.db.activeFileID) [] none w w := refl_of _ w
    split
    · exact hsame
    · exact hsame
  · rw [if_neg hreserved, if_neg hreserved]
    exact write_draws _ ts (fun entry keydir => keydir.insert key entry) hcalm

theorem delete_draws (ts : Int64) (key : Bytes) (hcalm : w.outcomes = []) :
    Draws (· = w.db.activeFileID) (w.rotates (encodeDataRecord ts key tombstoneValue)).toList
      (w.rotates (encodeDataRecord ts key tombstoneValue)) w (left (delete ts key) w) := by
  rw [delete, left_checked]
  exact write_draws _ ts (fun _ keydir => keydir.erase key) hcalm

/-! ### Merging -/

variable {run : MergeRun}

theorem allocateDataFileID_draws (w : World) : (∃ e, allocateDataFileID w = .error e w) ∨
    ∃ w', allocateDataFileID w = .ok w.db.number w' ∧ Draws T [] (some w.db.number) w w' := by
  rcases allocateDataFileID_cases w with herror | ⟨hmax, hok⟩
  · exact Or.inl herror
  · refine Or.inr ⟨_, hok, ?_, rfl, Or.inl rfl, fun _ h => Or.inl h, fun _ h => h, .refl _,
      fun h => h⟩
    rintro _ ⟨rfl⟩
    exact ⟨rfl, hmax⟩

theorem newMergeFile_draws (hcalm : w.outcomes = []) : (∃ e, newMergeFile w = .error e w) ∨
    ∃ file w', newMergeFile w = .ok file w' ∧ Draws T [] (some file.fileID) w w' ∧
      w'.disk.Prepared file.fileID := by
  rcases allocateDataFileID_draws (T := T) w with ⟨e, herror⟩ | ⟨v, hok, hdraws⟩
  · exact Or.inl ⟨e, by rw [newMergeFile, bind_apply, herror]⟩
  · obtain ⟨d, db, os⟩ := v
    obtain rfl : os = [] := hdraws.calm hcalm
    have honError : ∀ d', onError call (removeFile (.tmpData w.db.number)) ⟨d', db, []⟩ =
        .ok () ⟨d', db, []⟩ := fun d' => onError_ok rfl
    refine Or.inr ⟨{ fileID := w.db.number, offset := 0 },
      ⟨{ d with
          tmpData := d.tmpData.insert w.db.number []
          tmpHint := d.tmpHint.insert w.db.number [] }, db, []⟩, ?_,
      hdraws.followed (.of_same rfl rfl rfl rfl ((Disk.Saves.insertData d _ _).trans
        (Disk.Saves.insertHint _ _ _)) fun _ => rfl), by simp [Disk.Prepared]⟩
    rw [newMergeFile, bind_apply, hok]
    simp only [bind_apply, call_apply, modifyDisk_apply, honError, pure_apply]

/-- A step of a call of `Merge` adds the number that it takes to its files. -/
structure GoesOn (run run' : MergeRun) (drawn : Option Nat) (w w' : World) : Prop where
  files : run'.mergedFiles = run.mergedFiles ++ drawn.toList
  old : run'.immutableIDs = run.immutableIDs
  draws : Draws (fun _ => False) [] drawn w w'
  prepared : ∀ id ∈ drawn, w'.disk.Prepared id

theorem openTarget_draws (run : MergeRun) (hcalm : w.outcomes = []) :
    (∃ e, openTarget run w = .error e w) ∨ ∃ p w' id, openTarget run w = .ok p w' ∧
      GoesOn run p.1 (some id) w w' := by
  rcases newMergeFile_draws hcalm with ⟨e, herror⟩ | ⟨file, w', hok, hdraws, hprepared⟩
  · exact Or.inl ⟨e, by rw [openTarget, bind_apply, herror]⟩
  · refine Or.inr ⟨_, w', file.fileID, by rw [openTarget, bind_apply, hok]; rfl, rfl, rfl,
      hdraws, ?_⟩
    rintro _ ⟨rfl⟩
    exact hprepared

theorem mergeTarget_draws (run : MergeRun) (n : Int64) (hcalm : w.outcomes = []) :
    (∃ e w', mergeTarget run n w = .error e w' ∧ Draws (fun _ => False) [] none w w') ∨
      ∃ p w' drawn, mergeTarget run n w = .ok p w' ∧ GoesOn run p.1 drawn w w' := by
  have hopen : ∀ {v}, Draws (fun _ => False) [] none w v → v.outcomes = [] →
      mergeTarget run n w = openTarget run v →
      (∃ e w', mergeTarget run n w = .error e w' ∧ Draws (fun _ => False) [] none w w') ∨
      ∃ p w' drawn, mergeTarget run n w = .ok p w' ∧ GoesOn run p.1 drawn w w' := by
    intro v hdraws hv heq
    rcases openTarget_draws run hv with ⟨e, herror⟩ | ⟨p, w', id, hok, hgoes⟩
    · exact Or.inl ⟨e, v, heq.trans herror, hdraws⟩
    · exact Or.inr ⟨p, w', some id, heq.trans hok,
        { hgoes with draws := hdraws.preceded hgoes.draws }⟩
  rcases mergeTarget_cases run n w with heq | heq | ⟨file, heq⟩
  · have hsync : Within (Draws (fun _ => False) [] none) closeAndSync :=
      within_closeAndSync draws_call
    cases hop : closeAndSync w with
    | error e v => exact Or.inl ⟨e, v, heq.trans (by rw [bind_apply, hop]), hsync.error hop⟩
    | ok _ v =>
      have hdraws := hsync.ok hop
      exact hopen hdraws (hdraws.calm hcalm) (heq.trans (by rw [bind_apply, hop]))
  · exact hopen (refl_of _ w) hcalm heq
  · exact Or.inr ⟨_, w, none, heq, (List.append_nil _).symm, rfl, refl_of _ w,
      fun _ hid => absurd hid (Option.not_mem_none _)⟩

/-- The step of `x` that comes back with an error loses the temporary files of its call. -/
theorem mergeAllocate_draws (run : MergeRun) (key : Bytes) (r : Record) (hcalm : w.outcomes = []) :
    (∃ e w', mergeAllocate run key r w = .error e w' ∧
        Draws (· ∈ run.mergedFiles) [] none w w') ∨
      ∃ p w' drawn, mergeAllocate run key r w = .ok p w' ∧ GoesOn run p.1 drawn w w' := by
  rcases mergeTarget_draws run
    (Int64.ofNat (encodeDataRecord r.timestamp key r.value).length) hcalm with
    ⟨e, v, herror, hdraws⟩ | ⟨p, w', drawn, hok, hgoes⟩
  · obtain ⟨w', hclean⟩ := cleanupMergeFiles_ok run.mergedFiles v
    exact Or.inl ⟨e, w', onError_error herror hclean,
      trans_of _ (hdraws.mono fun _ => False.elim)
        ((permits_draws.cleanupMergeFiles fun _ hid => hid).ok hclean)⟩
  · exact Or.inr ⟨p, w', drawn, onError_ok hok, hgoes⟩

theorem mergeStore_goesOn {run' : MergeRun} {file : MergeFile} {key : Bytes} {r : Record}
    (h : mergeStore run file key r w = .ok run' w') : GoesOn run run' none w w' := by
  have happend : mergeAppend run file key r w = .ok run' w' := of_onError_ok h
  obtain ⟨hfiles, hold⟩ := mergeAppend_ok happend
  exact ⟨hfiles.trans (List.append_nil _).symm, hold,
    (permits_draws.mergeAppend run file key r).ok happend,
    fun _ hid => absurd hid (Option.not_mem_none _)⟩

theorem draws_publishFile (hid : id ∈ files) :
    Within (Draws (· ∈ files) files none) (publishFile id) := by
  refine .bind (within_renameData draws_call fun w bs => .of_disk (fun i hi => ?_) (fun _ h => h)
    (.removeData w.disk hid)) fun _ => permits_draws.renameHint hid
  by_cases heq : i = id
  · exact Or.inr (heq ▸ hid)
  · exact Or.inl (Maps.getElem?_insert_of_ne heq ▸ hi)

/-- The last step of a `Merge`, with what its renames and removals do. -/
theorem Permits.mergePublish {R : World → World → Prop} [Std.Refl R] [IsTrans World R]
    (h : Permits T R) (hT : ∀ id ∈ run.mergedFiles, T id)
    (hrename : ∀ id ∈ run.mergedFiles, Within R (publishFile id))
    (hremove : ∀ id ∈ run.immutableIDs, Within R (removeSegment id)) :
    Within R (mergePublish run) := by
  have hlocked : Within R (publishLocked run) :=
    .bind within_ensureOpen fun _ => .bind within_mustReadWrite fun _ => .bind (.forM hrename)
      fun _ => .bind (h.modifyDB fun _ => ⟨rfl, rfl, rfl, rfl, rfl⟩) fun _ => .forM hremove
  rw [mergePublish_eq]
  exact within_onError (.ite (.bind (within_closeAndSync h.calls) fun _ => hlocked) hlocked)
    (h.cleanupMergeFiles hT)

theorem draws_mergePublish (run : MergeRun) :
    Within (Draws (· ∈ run.mergedFiles) run.mergedFiles none) (mergePublish run) :=
  permits_draws.mergePublish (fun _ hid => hid) (fun _ hid => draws_publishFile hid) fun _ _ =>
    .bind (within_modifyDB fun w => .of_same rfl rfl rfl rfl (.refl w.disk) fun h => h) fun _ =>
      .bind (draws_removeFile _ fun _ => .of_same rfl rfl) fun _ =>
        draws_removeFile _ fun _ => .of_same rfl rfl

/-! ### The open store -/

/-- The number that a step takes. -/
def Shared.handedOut (s : Shared) : Call → Option Nat
  | .put ts key value => s.world.rotatesForPut ts key value
  | .delete ts key => s.world.rotates (encodeDataRecord ts key tombstoneValue)
  | .get _ | .listKeys | .merge _ => none
  | .resume i =>
    match s.merges i with
    | some (.found run key rec _) =>
      match mergeAllocate run key rec s.world with
      | .ok p _ => p.1.mergedFiles[run.mergedFiles.length]?
      | .error _ _ => none
    | _ => none

/-- The files of the call of `Merge` named `i`. -/
def Shared.filesOf (s : Shared) (i : Nat) : List Nat :=
  ((s.merges i).map (·.run.mergedFiles)).getD []

/-- The numbers `seen` were handed out. They and the files of the calls of `Merge` are below the
counter, and the temporary files of the calls are there. A data file above the counter has the
largest ID or was there from the start, and so was one that has the ID of a file of a call: the call
has it on its list of old files. -/
structure Numbered (seen : List Nat) (s : Shared) : Prop where
  calm : s.world.outcomes = []
  next : s.world.db.nextFileID ≤ maxFileID
  active : s.world.db.activeFileID < s.world.db.nextFileID ∨ maxFileID ≤ s.world.db.activeFileID
  inactive : ∀ i, s.world.db.activeFileID ∉ s.filesOf i
  seen : seen.Nodup ∧ ∀ id ∈ seen, id < s.world.db.nextFileID
  staged : ∀ i, s.world.disk.Staged (s.filesOf i)
  drawn : ∀ i, ∀ id ∈ s.filesOf i, id < s.world.db.nextFileID
  apart : ∀ i j, i ≠ j → ∀ id ∈ s.filesOf i, id ∉ s.filesOf j
  listed : ∀ i, ∀ x ∈ s.merges i, ∀ id, s.world.disk.HasID id → s.world.db.nextFileID ≤ id →
    id < maxFileID → id ∈ x.run.immutableIDs
  taken : ∀ i, ∀ x ∈ s.merges i, ∀ id ∈ x.run.mergedFiles, s.world.disk.HasID id →
    id ∈ x.run.immutableIDs

/-- The counter is above the IDs of all data files, and no file of a call of `Merge` has its name
yet. -/
structure Unwrapped (s : Shared) : Prop where
  pos : 0 < s.world.db.nextFileID
  below : ∀ id, s.world.disk.HasID id → id < s.world.db.nextFileID
  unnamed : ∀ i, ∀ id ∈ s.filesOf i, ¬ s.world.disk.HasID id

variable {seen : List Nat} {s s' : Shared} {i : Nat}

theorem DB.le_number (db : DB) : db.nextFileID ≤ db.number := by
  unfold DB.number
  split
  · omega
  · exact Nat.le_refl _

/-- What a number is that was taken. -/
theorem Numbered.number (h : Numbered seen s) (hd : Draws T files drawn s.world w')
    (hid : id ∈ drawn) : s.world.db.nextFileID ≤ id ∧ id < w'.db.nextFileID ∧ id < maxFileID ∧
      w'.db.nextFileID ≤ maxFileID := by
  obtain ⟨hnumber, hmax⟩ := hd.number id hid
  have hle := s.world.db.le_number
  have hbound : s.world.db.number ≤ maxFileID := by
    have hnext := h.next
    unfold DB.number
    split
    · exact Nat.le_of_ble_eq_true rfl
    · exact hnext
  obtain rfl : drawn = some id := hid
  have hnext : w'.db.nextFileID = id + 1 := hd.next
  omega

theorem Numbered.next_le (h : Numbered seen s) (hd : Draws T files drawn s.world w') :
    s.world.db.nextFileID ≤ w'.db.nextFileID ∧ w'.db.nextFileID ≤ maxFileID := by
  cases drawn with
  | none => exact ⟨hd.next.ge, hd.next.trans_le h.next⟩
  | some id =>
    obtain ⟨hle, hlt, -, hmax⟩ := h.number hd (Option.mem_some_self id)
    exact ⟨hle.trans hlt.le, hmax⟩

/-- What a step does about numbers: it takes `drawn`, which goes to the call of `Merge` named `i` or
to a new data file; other data files that are new were files of that call, and temporary files are
lost only if they are none of a call that goes on. A call that begins lists the data files. -/
structure Takes (s : Shared) (i : Nat) (files : List Nat) (drawn : Option Nat) (s' : Shared) :
    Prop where
  draws : Draws (fun id => ∀ j, id ∉ s'.filesOf j) files drawn s.world s'.world
  others : ∀ j, j ≠ i → s'.merges j = s.merges j
  self : s'.filesOf i <+: s.filesOf i ++ drawn.toList
  named : ∀ id ∈ files, (id ∈ drawn ∨ id ∈ s.filesOf i) ∧ ∀ j, id ∉ s'.filesOf j
  prepared : ∀ id ∈ drawn, id ∈ s'.filesOf i → s'.world.disk.Prepared id
  lists : ∀ x' ∈ s'.merges i,
    (∃ x ∈ s.merges i, x'.run.immutableIDs = x.run.immutableIDs) ∨ x'.run.mergedFiles = [] ∧
      ∀ id, s'.world.disk.HasID id → id ≠ s'.world.db.activeFileID → id ∈ x'.run.immutableIDs

theorem filesOf_congr {j : Nat} (h : s'.merges j = s.merges j) : s'.filesOf j = s.filesOf j := by
  rw [Shared.filesOf, h]
  rfl

theorem filesOf_of_merges {x : Merging} (h : s.merges i = some x) :
    s.filesOf i = x.run.mergedFiles := by
  rw [Shared.filesOf, h]
  rfl

namespace Takes

/-- The files of the calls are old ones, or the new one. -/
theorem oldOrNew (h : Takes s i files drawn s') {j : Nat} (hid : id ∈ s'.filesOf j) :
    id ∈ s.filesOf j ∨ j = i ∧ id ∈ drawn := by
  by_cases hj : j = i
  · subst hj
    exact (List.mem_append.mp (h.self.subset hid)).imp_right fun h =>
      ⟨rfl, Option.mem_toList.mp h⟩
  · exact Or.inl (filesOf_congr (h.others j hj) ▸ hid)

/-- A name that a file of a call has after the step, it had before. -/
theorem hasID_of_filesOf (h : Takes s i files drawn s') {j : Nat} (hid : id ∈ s'.filesOf j)
    (hname : s'.world.disk.HasID id) : s.world.disk.HasID id :=
  (h.draws.hasID hname).resolve_right fun hin => (h.named id hin).2 j hid

/-- What a call has on its list of old files. -/
theorem lists_of (h : Takes s i files drawn s') {j : Nat} {x' : Merging} (hx : x' ∈ s'.merges j) :
    (∃ x ∈ s.merges j, x'.run.immutableIDs = x.run.immutableIDs) ∨ x'.run.mergedFiles = [] ∧
      ∀ id, s'.world.disk.HasID id → id ≠ s'.world.db.activeFileID →
        id ∈ x'.run.immutableIDs := by
  by_cases hj : j = i
  · subst hj
    exact h.lists x' hx
  · exact Or.inl ⟨x', h.others j hj ▸ hx, rfl⟩

end Takes

namespace Numbered

variable (h : Numbered seen s) (ht : Takes s i files drawn s')

include h ht

/-- The new number is none of a list that is below the counter. -/
theorem nodup_append {l : List Nat} (hnodup : l.Nodup) (hl : ∀ id ∈ l, id < s.world.db.nextFileID) :
    (l ++ drawn.toList).Nodup := by
  refine List.nodup_append.mpr ⟨hnodup, ?_, fun a ha b hb hab => ?_⟩
  · cases drawn with
    | none => exact List.nodup_nil
    | some id => exact List.nodup_singleton id
  · have := hl a ha
    have := (h.number ht.draws (Option.mem_toList.mp hb)).1
    omega

theorem file_lt : ∀ id ∈ files, id < s'.world.db.nextFileID := by
  intro id hid
  rcases (ht.named id hid).1 with hnew | hold
  · exact (h.number ht.draws hnew).2.1
  · exact (h.drawn i id hold).trans_le (h.next_le ht.draws).1

theorem active_takes : (s'.world.db.activeFileID < s'.world.db.nextFileID ∨
    maxFileID ≤ s'.world.db.activeFileID) ∧ ∀ j, s'.world.db.activeFileID ∉ s'.filesOf j := by
  rcases ht.draws.active with hsame | ⟨hdrawn, hfile⟩
  · rw [hsame]
    have hle := (h.next_le ht.draws).1
    refine ⟨h.active.imp_left fun hlt => hlt.trans_le hle, fun j hj => ?_⟩
    rcases ht.oldOrNew hj with hold | ⟨-, hnew⟩
    · exact h.inactive j hold
    · obtain ⟨hlow, -, hmax, -⟩ := h.number ht.draws hnew
      have := h.active
      omega
  · exact ⟨Or.inl (h.number ht.draws hdrawn).2.1, (ht.named _ hfile).2⟩

theorem staged_takes (j : Nat) : s'.world.disk.Staged (s'.filesOf j) := by
  refine ⟨?_, fun id hid => ?_⟩
  · by_cases hj : j = i
    · subst hj
      exact (h.nodup_append ht (h.staged j).1 (h.drawn j)).sublist ht.self.sublist
    · rw [filesOf_congr (ht.others j hj)]
      exact (h.staged j).1
  · rcases ht.oldOrNew hid with hold | ⟨rfl, hnew⟩
    · exact (ht.draws.tmp id fun hlost => hlost j hid).imp (fun hd => hd ((h.staged j).2 id hold).1)
        fun hh => hh ((h.staged j).2 id hold).2
    · exact ht.prepared id hnew hid

theorem apart_takes (j k : Nat) (hjk : j ≠ k) : ∀ id ∈ s'.filesOf j, id ∉ s'.filesOf k := by
  intro id hid hid'
  rcases ht.oldOrNew hid with hold | ⟨rfl, hnew⟩
  · rcases ht.oldOrNew hid' with hold' | ⟨rfl, hnew'⟩
    · exact h.apart j k hjk id hold hold'
    · have := h.drawn j id hold
      have := (h.number ht.draws hnew').1
      omega
  · rcases ht.oldOrNew hid' with hold' | ⟨rfl, -⟩
    · have := h.drawn k id hold'
      have := (h.number ht.draws hnew).1
      omega
    · exact hjk rfl

theorem listed_takes {j : Nat} {x' : Merging} (hx : x' ∈ s'.merges j)
    (hid : s'.world.disk.HasID id) (hle : s'.world.db.nextFileID ≤ id) (hmax : id < maxFileID) :
    id ∈ x'.run.immutableIDs := by
  rcases ht.lists_of hx with ⟨x, hold, heq⟩ | ⟨-, hlists⟩
  · rw [heq]
    rcases ht.draws.hasID hid with hbefore | hfile
    · exact h.listed j x hold id hbefore ((h.next_le ht.draws).1.trans hle) hmax
    · have := h.file_lt ht id hfile
      omega
  · refine hlists id hid fun heq => ?_
    have := (h.active_takes ht).1
    omega

theorem taken_takes {j : Nat} {x' : Merging} (hx : x' ∈ s'.merges j)
    (hid : id ∈ x'.run.mergedFiles) (hname : s'.world.disk.HasID id) :
    id ∈ x'.run.immutableIDs := by
  have hfile : id ∈ s'.filesOf j := filesOf_of_merges hx ▸ hid
  have hbefore := ht.hasID_of_filesOf hfile hname
  rcases ht.lists_of hx with ⟨x, hx₀, heq⟩ | ⟨hnil, -⟩
  · rw [heq]
    rcases ht.oldOrNew hfile with hold | ⟨-, hnew⟩
    · exact h.taken j x hx₀ id (filesOf_of_merges hx₀ ▸ hold) hbefore
    · obtain ⟨hle, -, hmax, -⟩ := h.number ht.draws hnew
      exact h.listed j x hx₀ id hbefore hle hmax
  · rw [hnil] at hid
    cases hid

theorem takes : Numbered (seen ++ drawn.toList) s' where
  calm := ht.draws.calm h.calm
  next := (h.next_le ht.draws).2
  active := (h.active_takes ht).1
  inactive := (h.active_takes ht).2
  seen := by
    refine ⟨h.nodup_append ht h.seen.1 h.seen.2, fun id hid => ?_⟩
    rcases List.mem_append.mp hid with hold | hnew
    · exact (h.seen.2 id hold).trans_le (h.next_le ht.draws).1
    · exact (h.number ht.draws (Option.mem_toList.mp hnew)).2.1
  staged := h.staged_takes ht
  drawn j id hid := by
    rcases ht.oldOrNew hid with hold | ⟨-, hnew⟩
    · exact (h.drawn j id hold).trans_le (h.next_le ht.draws).1
    · exact (h.number ht.draws hnew).2.1
  apart := h.apart_takes ht
  listed _ _ hx _ hid hle hmax := h.listed_takes ht hx hid hle hmax
  taken _ _ hx _ hid hname := h.taken_takes ht hx hid hname

end Numbered

theorem Unwrapped.takes (h : Unwrapped s) (hn : Numbered seen s) (ht : Takes s i files drawn s') :
    Unwrapped s' := by
  have hle := (hn.next_le ht.draws).1
  refine ⟨h.pos.trans_le hle, fun id hid => ?_, fun j id hid hname => ?_⟩
  · rcases ht.draws.hasID hid with hold | hnew
    · exact (h.below id hold).trans_le hle
    · exact hn.file_lt ht id hnew
  · have hbefore := ht.hasID_of_filesOf hid hname
    rcases ht.oldOrNew hid with hold | ⟨-, hnew⟩
    · exact h.unnamed j id hold hbefore
    · have := (hn.number ht.draws hnew).1
      have := h.below id hbefore
      omega

/-! ### The steps -/

theorem World.after_eq_left {op : Op α} (h : w.after op = some w') : w' = left op w := by
  unfold World.after at h
  split at h
  · next a v hop => rw [left_ok hop, ← Option.some.inj h]
  · cases h
  · next e v hne hop => rw [left_error hop, ← Option.some.inj h]

/-- Only the store changes, and the calls of `Merge` stay where they are. -/
theorem Numbered.alone (h : Numbered seen s) (drawn : Option Nat)
    (hd : Draws (· = s.world.db.activeFileID) drawn.toList drawn s.world w') :
    Takes s 0 drawn.toList drawn { s with world := w' } := by
  have hfresh : ∀ id ∈ drawn, ∀ j, id ∉ s.filesOf j := by
    intro id hid j hj
    have := (h.number hd hid).1
    have := h.drawn j id hj
    omega
  refine ⟨hd.mono ?_, fun _ _ => rfl, List.prefix_append _ _, fun id hid => ?_,
    fun id hid hj => absurd hj (hfresh id hid 0), fun x hx => Or.inl ⟨x, hx, rfl⟩⟩
  · rintro _ rfl
    exact h.inactive
  · have hdrawn := Option.mem_toList.mp hid
    exact ⟨Or.inl hdrawn, hfresh id hdrawn⟩

/-- A call that runs alone. -/
theorem Numbered.call {op : Op α} (h : Numbered seen s) (drawn : Option Nat)
    (hd : Draws (· = s.world.db.activeFileID) drawn.toList drawn s.world (left op s.world))
    (hs : (s.world.after op).map ({ s with world := · }) = some s') :
    Takes s 0 drawn.toList drawn s' := by
  obtain ⟨w', hafter, rfl⟩ := Option.map_eq_some_iff.mp hs
  rw [← World.after_eq_left hafter] at hd
  exact h.alone drawn hd

theorem filesOf_goOn_self {p : Option Merging × World} :
    (s.goOn i p).filesOf i = (p.1.map (·.run.mergedFiles)).getD [] := by
  change ((Function.update s.merges i p.1 i).map _).getD [] = _
  rw [Function.update_self]

theorem merges_goOn_other {p : Option Merging × World} {j : Nat} (h : j ≠ i) :
    (s.goOn i p).merges j = s.merges j := Function.update_of_ne h ..

theorem merges_goOn_self {p : Option Merging × World} : (s.goOn i p).merges i = p.1 :=
  Function.update_self ..

theorem World.part_cases {op : Op α} {next : α → Option Merging} {p : Option Merging × World}
    (h : w.part op next = some p) : (∃ a, op w = .ok a p.2 ∧ p.1 = next a) ∨
      ∃ e, op w = .error e p.2 ∧ p.1 = none := by
  unfold World.part at h
  split at h
  · next a v hop =>
    obtain rfl := Option.some.inj h
    exact Or.inl ⟨a, hop, rfl⟩
  · cases h
  · next e v hne hop =>
    obtain rfl := Option.some.inj h
    exact Or.inr ⟨e, hop, rfl⟩

/-- A step of a call of `Merge` that goes on. -/
theorem Takes.goOn {x y : Merging} (hx : s.merges i = some x)
    (ho : GoesOn x.run y.run drawn s.world w') :
    Takes s i [] drawn (s.goOn i (some y, w')) where
  draws := ho.draws.mono fun _ => False.elim
  others _ hj := merges_goOn_other hj
  self := by
    rw [filesOf_goOn_self, filesOf_of_merges hx]
    exact ho.files ▸ List.prefix_rfl
  named _ hid := absurd hid List.not_mem_nil
  prepared id hid _ := ho.prepared id hid
  lists y' hy := by
    rw [merges_goOn_self] at hy
    obtain rfl := Option.some.inj hy
    exact Or.inl ⟨x, hx, ho.old⟩

/-- The step that ends a call, by an error or by giving its files their names. -/
theorem Numbered.ends {x : Merging} (h : Numbered seen s) (hx : s.merges i = some x)
    (hfiles : files = [] ∨ files = x.run.mergedFiles)
    (hd : Draws (· ∈ x.run.mergedFiles) files none s.world w') :
    Takes s i files none (s.goOn i (none, w')) := by
  have hgone : ∀ id ∈ x.run.mergedFiles, ∀ j, id ∉ (s.goOn i (none, w')).filesOf j := by
    intro id hid j hj
    by_cases hij : j = i
    · subst hij
      rw [filesOf_goOn_self] at hj
      cases hj
    · rw [filesOf_congr (merges_goOn_other hij)] at hj
      exact h.apart i j (Ne.symm hij) id (filesOf_of_merges hx ▸ hid) hj
  refine ⟨hd.mono hgone, fun j hj => merges_goOn_other hj, ?_, fun id hid => ?_,
    fun id hid => absurd hid (Option.not_mem_none _), fun y hy => ?_⟩
  · rw [filesOf_goOn_self]
    exact List.nil_prefix
  · rcases hfiles with rfl | rfl
    · cases hid
    · exact ⟨Or.inr (filesOf_of_merges hx ▸ hid), hgone id hid⟩
  · rw [merges_goOn_self] at hy
    cases hy

theorem mem_listDataFileIDs {ids : List Nat} (h : listDataFileIDs w = .ok ids w') :
    id ∈ ids ↔ w.disk.HasID id := by
  rw [listDataFileIDs_ok h, (foldr_orderedInsert_perm _ _).mem_iff, List.mem_append, or_comm,
    Disk.HasID, List.mem_filterMap, ExtTreeMap.mem_keys, ExtTreeMap.mem_iff_isSome_getElem?,
    Option.isSome_iff_ne_none]

/-- A call of `Merge` begins with no file of its own, and with all data files but the active one. -/
theorem mergeSnapshot_lists (h : mergeSnapshot w = .ok (some run) w') : run.mergedFiles = [] ∧
    ∀ id, w'.disk.HasID id → id ≠ w'.db.activeFileID → id ∈ run.immutableIDs := by
  have hdraws : Within (Draws (fun _ => True) [] none) listDataFileIDs :=
    within_listDataFileIDs draws_call
  obtain ⟨_, v₁, h₁, h⟩ := of_bind_apply_ok h
  obtain ⟨_, v₂, h₂, h⟩ := of_bind_apply_ok h
  obtain ⟨ids, v₃, h₃, h⟩ := of_bind_apply_ok h
  obtain ⟨db, v₄, h₄, h⟩ := of_bind_apply_ok h
  obtain ⟨rfl, rfl⟩ := EStateM.Result.ok.inj h₄
  simp only at h
  split at h
  · cases h
  · obtain ⟨hrun, rfl⟩ := EStateM.Result.ok.inj h
    rw [← Option.some.inj hrun]
    refine ⟨rfl, fun id hid hne => List.mem_filter.mpr ⟨?_, by simpa using hne⟩⟩
    have hthere := (hdraws.ok h₃).hasID hid
    exact (mem_listDataFileIDs h₃).mpr (hthere.resolve_right List.not_mem_nil)

theorem Takes.start {p : Option Merging × World} (hs : Merging.start s.world = some p) :
    Takes s i [] none (s.goOn i p) := by
  have hdraws : ∀ {T}, Within (Draws T [] none) mergeSnapshot := within_mergeSnapshot draws_call
  have hd : Draws (fun _ => False) [] none s.world p.2 ∧ ∀ x ∈ p.1, x.run.mergedFiles = [] ∧
      ∀ id, p.2.disk.HasID id → id ≠ p.2.db.activeFileID → id ∈ x.run.immutableIDs := by
    rcases World.part_cases hs with ⟨run, hop, hp⟩ | ⟨e, hop, hp⟩
    · refine ⟨hdraws.ok hop, fun x hx => ?_⟩
      rw [hp] at hx
      obtain ⟨run', rfl, rfl⟩ := Option.map_eq_some_iff.mp hx
      exact mergeSnapshot_lists hop
    · refine ⟨hdraws.error hop, fun x hx => ?_⟩
      rw [hp] at hx
      cases hx
  refine ⟨hd.1.mono fun _ => False.elim, fun j hj => merges_goOn_other hj, ?_,
    fun id hid => absurd hid List.not_mem_nil, fun id hid => absurd hid (Option.not_mem_none _),
    fun x hx => Or.inr (hd.2 x (merges_goOn_self ▸ hx))⟩
  rw [filesOf_goOn_self]
  cases hp : p.1 with
  | none => exact List.nil_prefix
  | some x =>
    rw [Option.map_some, Option.getD_some, (hd.2 x hp).1]
    exact List.nil_prefix

theorem Numbered.resume {p : Option Merging × World} {x : Merging} (h : Numbered seen s)
    (hx : s.merges i = some x) (hs : x.resume s.world = some p) :
    ∃ files, Takes s i files (s.handedOut (.resume i)) (s.goOn i p) := by
  obtain ⟨y, w'⟩ := p
  have hno : ∀ id ∈ (none : Option Nat), w'.disk.Prepared id := fun _ hid =>
    absurd hid (Option.not_mem_none _)
  cases x with
  | next run keys =>
    rw [show s.handedOut (.resume i) = none by simp only [Shared.handedOut, hx]]
    cases keys with
    | nil =>
      refine ⟨run.mergedFiles, ?_⟩
      rcases World.part_cases hs with ⟨_, hop, hp⟩ | ⟨e, hop, hp⟩
      · obtain rfl : y = none := hp
        exact h.ends hx (Or.inr rfl) ((draws_mergePublish run).ok hop)
      · obtain rfl : y = none := hp
        exact h.ends hx (Or.inr rfl) ((draws_mergePublish run).error hop)
    | cons key keys =>
      refine ⟨[], ?_⟩
      rcases World.part_cases hs with ⟨r, hop, hp⟩ | ⟨e, hop, hp⟩
      · obtain rfl : y = some _ := hp
        have hread : Within (Draws (fun _ => False) [] none) (snapshotRecord run key) :=
          within_snapshotRecord draws_call opensReaders_draws run key
        exact .goOn hx ⟨(List.append_nil _).symm, rfl, hread.ok (of_onError_ok hop), hno⟩
      · obtain rfl : y = none := hp
        exact h.ends hx (Or.inl rfl)
          ((permits_draws.mergeRead (fun _ hid => hid) opensReaders_draws key).error hop)
  | found run key r keys =>
    refine ⟨[], ?_⟩
    rcases mergeAllocate_draws run key r h.calm with
      ⟨e, v, hop, hdraws⟩ | ⟨q, v, drawn, hop, hgoes⟩
    · rw [show s.handedOut (.resume i) = none by simp only [Shared.handedOut, hx, hop]]
      rcases World.part_cases hs with ⟨_, hop', -⟩ | ⟨e', hop', hp⟩
      · cases hop.symm.trans hop'
      · obtain ⟨-, rfl⟩ := EStateM.Result.error.inj (hop.symm.trans hop')
        obtain rfl : y = none := hp
        exact h.ends hx (Or.inl rfl) hdraws
    · have hdrawn : s.handedOut (.resume i) = drawn := by
        simp only [Shared.handedOut, hx, hop, hgoes.files]
        rw [List.getElem?_append_right (Nat.le_refl _), Nat.sub_self]
        cases drawn with
        | none => rfl
        | some id => rfl
      rw [hdrawn]
      rcases World.part_cases hs with ⟨q', hop', hp⟩ | ⟨e', hop', -⟩
      · obtain ⟨rfl, rfl⟩ := EStateM.Result.ok.inj (hop.symm.trans hop')
        obtain rfl : y = some _ := hp
        exact .goOn hx hgoes
      · cases hop.symm.trans hop'
  | placed run file key r keys =>
    rw [show s.handedOut (.resume i) = none by simp only [Shared.handedOut, hx]]
    refine ⟨[], ?_⟩
    rcases World.part_cases hs with ⟨run', hop, hp⟩ | ⟨e, hop, hp⟩
    · obtain rfl : y = some _ := hp
      exact .goOn hx (mergeStore_goesOn hop)
    · obtain rfl : y = none := hp
      exact h.ends hx (Or.inl rfl)
        ((permits_draws.mergeStore (fun _ hid => hid) file key r).error hop)

theorem Numbered.step_takes {c : Call} (h : Numbered seen s) (hs : s.step c = some s') :
    ∃ i files, Takes s i files (s.handedOut c) s' := by
  cases c with
  | put ts key value => exact ⟨_, _, h.call _ (put_draws ts key value h.calm) hs⟩
  | delete ts key => exact ⟨_, _, h.call _ (delete_draws ts key h.calm) hs⟩
  | get key =>
    have hget : ∀ {T}, Within (Draws T [] none) (getValue key) :=
      within_getValue draws_call opensReaders_draws key
    exact ⟨_, _, h.call none (hget s.world) hs⟩
  | listKeys =>
    have hlist : ∀ {T}, Within (Draws T [] none) listKeys := .bind within_getDB fun _ => .pure _
    exact ⟨_, _, h.call none (hlist s.world) hs⟩
  | merge i =>
    simp only [Shared.step] at hs
    split at hs
    · obtain ⟨p, hp, rfl⟩ := Option.map_eq_some_iff.mp hs
      exact ⟨i, _, .start hp⟩
    · cases hs
  | resume i =>
    simp only [Shared.step] at hs
    split at hs
    · cases hs
    · next x hx =>
      obtain ⟨p, hp, rfl⟩ := Option.map_eq_some_iff.mp hs
      exact ⟨i, h.resume hx hp⟩

/-- What one step keeps. -/
theorem Numbered.step {c : Call} (h : Numbered seen s) (hs : s.step c = some s') :
    Numbered (seen ++ (s.handedOut c).toList) s' := by
  obtain ⟨i, files, ht⟩ := h.step_takes hs
  exact h.takes ht

theorem Unwrapped.step {c : Call} (h : Unwrapped s) (hn : Numbered seen s)
    (hs : s.step c = some s') : Unwrapped s' := by
  obtain ⟨i, files, ht⟩ := hn.step_takes hs
  exact h.takes hn ht

/-! ### Opening -/

/-- The last ID of the listing is the largest. -/
theorem le_of_listDataFileIDs {ids : List Nat} {active : Nat}
    (h : listDataFileIDs w = .ok ids w') (hlast : ids.getLast? = some active) :
    ∀ id ∈ ids, id ≤ active := by
  have hsorted : ids.Pairwise (· ≤ ·) := by
    have hkeys : w.disk.data.keys.Pairwise (· ≤ ·) :=
      ExtTreeMap.ordered_keys.imp fun hlt => Nat.le_of_lt (Nat.compare_eq_lt.mp hlt)
    rw [listDataFileIDs_ok h]
    induction w.disk.other.filterMap (parseFileID · dataFileExtension) with
    | nil => exact hkeys
    | cons a as ih => exact List.Pairwise.orderedInsert a _ ih
  intro id hid
  have hne : ids ≠ [] := List.ne_nil_of_mem hid
  rw [List.getLast?_eq_some_getLast hne] at hlast
  exact Option.some.inj hlast ▸ hsorted.rel_getLast hid

theorem draws_trim (w : World) (i n : Nat) : Draws T files none w
    { w with disk := { w.disk with data := w.disk.data.modify i (·.take n) } } :=
  .of_disk (fun _ hid => Or.inl fun hnone => hid (Maps.getElem?_modify_eq_none.mpr hnone))
    (fun _ h => h) (.of_same rfl rfl)

/-- The end of `loadSegments`: the active file is there. -/
theorem loadFound_there {ids : List Nat} {active : Nat} (h : (do
      ids.forM (scanSegment active true)
      if true then
        call
        if ((← getDisk).data[active]?).isNone then throw .notExist
        call
        let size := (((← getDisk).data[active]?).getD []).length
        modifyDB fun db =>
          { db with activeFile := .opened, activeOffset := Int64.ofNat size } : Op Unit) w =
      .ok () w') : w'.disk.HasID active := by
  obtain ⟨_, v₁, -, h⟩ := of_bind_apply_ok h
  rw [if_pos rfl] at h
  obtain ⟨_, v₂, -, h⟩ := of_bind_apply_ok h
  rw [bind_apply, getDisk_apply] at h
  by_cases hnone : v₂.disk.data[active]? = none
  · simp only [hnone, Option.isNone_none, if_true, bind_apply, throw_apply] at h
    cases h
  · simp only [Option.isNone_iff_eq_none, if_neg hnone] at h
    obtain ⟨_, v₃, h₃, h⟩ := of_bind_apply_ok h
    obtain ⟨os, rfl, -⟩ := call_returns h₃
    obtain ⟨-, rfl⟩ := EStateM.Result.ok.inj h
    exact Or.inl hnone

/-- What `Open` makes of the numbers. -/
structure Counted (w : World) : Prop where
  calm : w.outcomes = []
  next : w.db.nextFileID = (w.db.activeFileID + 1) % 2 ^ 64
  active : w.disk.HasID w.db.activeFileID
  largest : ∀ id, w.disk.HasID id → id ≤ w.db.activeFileID

/-- The active file of an opened `DB` is the one with the largest ID; the first file of an empty
directory is empty. -/
theorem loadSegments_numbers (hcalm : w.outcomes = []) (h : loadSegments true w = .ok () w') :
    Counted w' ∧ ((∀ id, ¬ w.disk.HasID id) → w'.db.activeFileID = 1 ∧
      w'.disk.data[w'.db.activeFileID]? = some [] ∧ w'.db.activeOffset = 0) := by
  obtain ⟨ids, v, hlist, h⟩ := of_bind_apply_ok h
  have hdraws : Draws (fun _ => True) [] none w v := (within_listDataFileIDs draws_call).ok hlist
  have hids : ∀ {id}, v.disk.HasID id → id ∈ ids := fun hid =>
    (mem_listDataFileIDs hlist).mpr ((hdraws.hasID hid).resolve_right List.not_mem_nil)
  cases hlast : ids.getLast? with
  | none =>
    obtain rfl : ids = [] := List.getLast?_eq_none_iff.mp hlast
    obtain ⟨d, db, os⟩ := v
    obtain rfl : os = [] := hdraws.calm hcalm
    have hnone : d.data[1]? = none := by
      by_contra hne
      exact List.not_mem_nil (hids (Or.inl hne))
    have hcreate := startFile_run d db (show 1 ≠ maxFileID by decide)
    rw [hnone] at hcreate
    obtain ⟨-, rfl⟩ := EStateM.Result.ok.inj (hcreate.symm.trans h)
    have hfirst : (d.data.insert 1 ([] : Bytes))[1]? = some [] := ExtTreeMap.getElem?_insert_self
    refine ⟨⟨rfl, rfl, Or.inl ?_, fun id hid => ?_⟩, fun _ => ⟨rfl, hfirst, rfl⟩⟩
    · exact hfirst.trans_ne (Option.some_ne_none _)
    · by_contra hlt
      refine List.not_mem_nil (@hids id (hid.imp_left fun hdata => ?_))
      have hne : id ≠ 1 := fun heq => hlt heq.le
      rwa [Maps.getElem?_insert_of_ne hne] at hdata
  | some active =>
    rw [hlast] at h
    obtain ⟨_, v₁, h₁, h⟩ := of_bind_apply_ok h
    obtain ⟨-, rfl⟩ := EStateM.Result.ok.inj h₁
    have hrun : Draws (fun _ => True) [] none _ w' :=
      (permits_draws.loadFound draws_trim ids active true).ok h
    have hactive : w'.db.activeFileID = active := hrun.sameActive
    refine ⟨⟨hrun.calm (hdraws.calm hcalm), ?_, ?_, fun id hid => ?_⟩, fun hempty => ?_⟩
    · rw [hactive]
      exact hrun.next
    · rw [hactive]
      exact loadFound_there h
    · rw [hactive]
      exact le_of_listDataFileIDs hlist hlast id
        (hids ((hrun.hasID hid).resolve_right List.not_mem_nil))
    · exact absurd ((mem_listDataFileIDs hlist).mp (List.mem_of_getLast? hlast)) (hempty active)

/-- The parts of an open for writing that succeeded. -/
theorem of_openWithOptions_ok {opts : OpenOptions}
    (h : openWithOptions { opts with readWrite := true } w = .ok () w') :
    ∃ opts' : OpenOptions, opts'.readWrite = true ∧ ∃ v v₁ v₂, call w = .ok () v ∧
      validateLayout { v with disk := { v.disk with present := true }, db := newDB opts' } =
        .ok () v₁ ∧
      acquireWriterLock v₁ = .ok () v₂ ∧ loadSegments true v₂ = .ok () w' := by
  have hrw : (OpenOptions.withDefaults { opts with readWrite := true }).readWrite = true :=
    withDefaults_readWrite
  obtain ⟨_, v, hcall, h⟩ := of_bind_apply_ok h
  rw [hrw] at h
  obtain ⟨_, _, hpresent, h⟩ := of_bind_apply_ok h
  obtain ⟨-, rfl⟩ := EStateM.Result.ok.inj hpresent
  obtain ⟨_, _, hnew, h⟩ := of_bind_apply_ok h
  obtain ⟨-, rfl⟩ := EStateM.Result.ok.inj hnew
  obtain ⟨_, v₁, hlayout, h⟩ := of_bind_apply_ok h
  obtain ⟨_, v₂, hlock, h⟩ := of_bind_apply_ok h
  exact ⟨_, hrw, v, v₁, v₂, hcall, hlayout, hlock, of_onError_ok h⟩

theorem openWithOptions_numbers {opts : OpenOptions} (hcalm : w.outcomes = [])
    (h : openWithOptions { opts with readWrite := true } w = .ok () w') :
    Counted w' ∧ ((∀ id, ¬ w.disk.HasID id) → w'.db.activeFileID = 1 ∧
      w'.disk.data[w'.db.activeFileID]? = some [] ∧ w'.db.activeOffset = 0) := by
  obtain ⟨_, -, v, v₁, v₂, hcall, hlayout, hlock, hload⟩ := of_openWithOptions_ok h
  have hcalled : Draws (fun _ => True) [] none w v := (within_call draws_call).ok hcall
  have hchecked := trans_of (Draws (fun _ => True) [] none)
    ((within_validateLayout draws_call fun f => draws_removeFile f fun _ => .all).ok hlayout)
    (permits_draws.acquireWriterLock.ok hlock)
  obtain ⟨hcounted, hempty⟩ := loadSegments_numbers (hchecked.calm (hcalled.calm hcalm)) hload
  refine ⟨hcounted, fun hnone => hempty fun id hid => hnone id ?_⟩
  have hbefore := (hchecked.hasID hid).resolve_right List.not_mem_nil
  exact (hcalled.hasID hbefore).resolve_right List.not_mem_nil

/-- An empty directory gets a data file of ID 1. -/
theorem hasID_of_empty (opts : OpenOptions) (hcalm : w.outcomes = [])
    (h : openWithOptions { opts with readWrite := true } w = .ok () w')
    (hempty : ∀ id, ¬ w.disk.HasID id) (hid : w'.disk.HasID id) : id < maxFileID := by
  obtain ⟨hcounted, hfirst⟩ := openWithOptions_numbers hcalm h
  have hle := hcounted.largest id hid
  rw [(hfirst hempty).1] at hle
  exact hle.trans_lt (by decide)

/-- A store that has just been opened for writing, whatever its directory holds. -/
def opened : Machine Shared Call where
  initial s := s.merges = (fun _ => none) ∧ ∃ d db, ∃ opts : OpenOptions,
    openWithOptions { opts with readWrite := true } ⟨d, db, []⟩ = .ok () s.world
  step := Shared.step

theorem Numbered.initial (h : opened.initial s) : Numbered [] s := by
  obtain ⟨hmerges, d, db, opts, hopen⟩ := h
  obtain ⟨⟨hcalm, hnext, -, -⟩, -⟩ := openWithOptions_numbers rfl hopen
  have hnone : ∀ i, s.filesOf i = [] := by
    intro i
    rw [Shared.filesOf, hmerges]
    rfl
  have hlt : s.world.db.nextFileID < 2 ^ 64 := hnext ▸ Nat.mod_lt _ (by decide)
  exact {
    calm := hcalm
    next := Nat.le_pred_of_lt hlt
    active := by
      unfold maxFileID
      omega
    inactive := fun i => by simp [hnone]
    seen := ⟨List.nodup_nil, by simp⟩
    staged := fun i => by simp [hnone, Disk.Staged]
    drawn := fun i => by simp [hnone]
    apart := fun i => by simp [hnone]
    listed := fun i x hx => by simp [hmerges] at hx
    taken := fun i x hx => by simp [hmerges] at hx }

/-- No data file has the largest ID. -/
theorem Unwrapped.initial (h : opened.initial s) (hmax : ∀ id, s.world.disk.HasID id →
    id < maxFileID) : Unwrapped s := by
  obtain ⟨hmerges, d, db, opts, hopen⟩ := h
  obtain ⟨⟨-, hnext, hactive, hlargest⟩, -⟩ := openWithOptions_numbers rfl hopen
  have hnext' : s.world.db.nextFileID = s.world.db.activeFileID + 1 := by
    have hlt := hmax _ hactive
    unfold maxFileID at hlt
    omega
  refine ⟨by omega, fun id hid => ?_, fun i id hid => ?_⟩
  · have := hlargest id hid
    omega
  · rw [Shared.filesOf, hmerges] at hid
    cases hid

/-- No data file has the number, and it is none of the numbers `seen`. -/
def Shared.Unused (s : Shared) (seen : List Nat) (id : Nat) : Prop :=
  ¬ s.world.disk.HasID id ∧ id ∉ seen ∧ id < maxFileID

theorem Unwrapped.unused (h : Unwrapped s) (hn : Numbered seen s)
    (hd : Draws T files drawn s.world w') (hid : id ∈ drawn) : s.Unused seen id := by
  obtain ⟨hle, -, hmax, -⟩ := hn.number hd hid
  refine ⟨fun hname => ?_, fun hseen => ?_, hmax⟩
  · have := h.below _ hname
    omega
  · have := hn.seen.2 _ hseen
    omega

/-- The files of a call of `Merge` get names that no file has. -/
theorem Unwrapped.rename {pre post : List Nat} (h : Unwrapped s) (hn : Numbered seen s)
    (hfiles : s.filesOf i = pre ++ id :: post) (hpre : pre.forM publishFile s.world = .ok () w') :
    ¬ w'.disk.HasID id := by
  have hdraws : Within (Draws (· ∈ pre) pre none) (pre.forM publishFile) :=
    .forM fun _ hid => draws_publishFile hid
  intro hid
  rcases (hdraws.ok hpre).hasID hid with hbefore | hin
  · exact h.unnamed i id (by rw [hfiles]; simp) hbefore
  · have hnodup := (hn.staged i).1
    rw [hfiles, List.nodup_append] at hnodup
    exact hnodup.2.2 id hin id List.mem_cons_self rfl

/-- If no data file of the directory has the largest ID, then whatever else it holds and however
rotations and calls of `Merge` overlap: a number that a rotation or a `Merge` takes is that of no
data file and was not taken before in the session; so a new active file starts empty, and no rename
of a `Merge` meets a file of its name. -/
theorem segment_numbers_unused {s₀ s : Shared} {calls : List Call} (h₀ : opened.initial s₀)
    (hmax : ∀ id, s₀.world.disk.HasID id → id < maxFileID)
    (hrun : opened.exec s₀ calls = some s) :
    (opened.reads Shared.handedOut s₀ calls).Nodup ∧
    (∀ c id, s.handedOut c = some id →
      s.Unused (opened.reads Shared.handedOut s₀ calls) id) ∧
    (∀ w', rotateActiveFileLocked s.world = .ok () w' →
      s.Unused (opened.reads Shared.handedOut s₀ calls) w'.db.activeFileID ∧
      w'.disk.data[w'.db.activeFileID]? = some [] ∧ w'.db.activeOffset = 0) ∧
    (∀ id w', allocateDataFileID s.world = .ok id w' →
      s.Unused (opened.reads Shared.handedOut s₀ calls) id) ∧
    (∀ i run pre id post w', s.merges i = some (.next run []) →
      run.mergedFiles = pre ++ id :: post → pre.forM publishFile s.world = .ok () w' →
      ¬ w'.disk.HasID id) ∧
    ∀ d db, ∀ opts : OpenOptions,
      openWithOptions { opts with readWrite := true } ⟨d, db, []⟩ = .ok () s₀.world →
      (∀ id, ¬ d.HasID id) → s₀.world.disk.data[s₀.world.db.activeFileID]? = some [] ∧
        s₀.world.db.activeOffset = 0 := by
  obtain ⟨h, hfresh⟩ : Numbered (opened.reads Shared.handedOut s₀ calls) s ∧ Unwrapped s :=
    Machine.reads_invariant (I := fun seen s => Numbered seen s ∧ Unwrapped s)
      (fun _ _ _ _ h hs => ⟨h.1.step hs, h.2.step h.1 hs⟩) hrun ⟨.initial h₀, .initial h₀ hmax⟩
  refine ⟨h.seen.1, fun c id hc => ?_, fun w' hw => ?_, fun id w' hw => ?_,
    fun i run pre id post w' hi hfiles hpre => ?_, fun d db opts hopen hempty => ?_⟩
  · cases c with
    | put ts key value => exact hfresh.unused h (put_draws ts key value h.calm) hc
    | delete ts key => exact hfresh.unused h (delete_draws ts key h.calm) hc
    | get | listKeys | merge => cases hc
    | resume i =>
      simp only [Shared.handedOut] at hc
      split at hc
      · next run key r keys hx =>
        rcases mergeAllocate_draws run key r h.calm with
          ⟨e, w', hop, -⟩ | ⟨q, w', drawn, hop, hgoes⟩
        · rw [hop] at hc
          cases hc
        · simp only [hop, hgoes.files] at hc
          rw [List.getElem?_append_right (Nat.le_refl _), Nat.sub_self] at hc
          cases drawn with
          | none => cases hc
          | some id' => exact hfresh.unused h hgoes.draws hc
      · cases hc
  · rcases rotateActiveFileLocked_draws h.calm with
      ⟨e, v, herror, -⟩ | ⟨v, hok, hactive, hdraws, hfirst⟩
    · cases herror.symm.trans hw
    · obtain ⟨-, rfl⟩ := EStateM.Result.ok.inj (hok.symm.trans hw)
      have hunused := hfresh.unused h hdraws rfl
      rw [hactive]
      refine ⟨hunused, hfirst ?_⟩
      by_contra hne
      exact hunused.1 (Or.inl hne)
  · rcases allocateDataFileID_draws (T := fun _ => False) s.world with
      ⟨e, herror⟩ | ⟨v, hok, hdraws⟩
    · cases herror.symm.trans hw
    · obtain ⟨rfl, -⟩ := EStateM.Result.ok.inj (hok.symm.trans hw)
      exact hfresh.unused h hdraws rfl
  · exact hfresh.rename h ((filesOf_of_merges hi).trans hfiles) hpre
  · exact ((openWithOptions_numbers rfl hopen).2 hempty).2

/-- A directory with two files, of which the first holds a record. -/
def twoIDs (first second : Nat) : World :=
  ⟨{ data := {(first, encodeDataRecord 1 [1] [7]), (second, [])} }, newDB { readWrite := true }, []⟩

/-- The store opened on these files. -/
def openedOn (first second : Nat) : Option Shared :=
  (World.returned (openWithOptions ⟨true, false, 25⟩) (twoIDs first second)).map
    ({ world := · })

theorem initial_of_openedOn {first second : Nat} {s : Shared}
    (h : openedOn first second = some s) : opened.initial s := by
  obtain ⟨w, hw, rfl⟩ := Option.map_eq_some_iff.mp h
  obtain ⟨_, hopen⟩ := World.of_returned hw
  exact ⟨rfl, _, _, ⟨true, false, 25⟩, hopen⟩

/-- The second `Put` rotates, and a `Merge` takes the number of its file. -/
def rotateAndMerge : List Call :=
  [.put 2 [2] [8], .put 3 [3] [9], .merge 0, .resume 0, .resume 0]

theorem segment_numbers_unused_gap : ∃ s₀ s, openedOn 1 7 = some s₀ ∧
    opened.exec s₀ rotateAndMerge = some s ∧
    opened.reads Shared.handedOut s₀ rotateAndMerge = [8, 9] ∧
    ∀ id w', allocateDataFileID s.world = .ok id w' → s.Unused [8, 9] id := by
  obtain ⟨s₀, hs₀⟩ : ∃ s₀, openedOn 1 7 = some s₀ :=
    Option.isSome_iff_exists.mp (by decide +kernel)
  have hruns : ∀ s₀ ∈ openedOn 1 7, s₀.world.disk.data.keys = [1, 7] ∧
      s₀.world.disk.other = [] ∧ (opened.exec s₀ rotateAndMerge).isSome ∧
      opened.reads Shared.handedOut s₀ rotateAndMerge = [8, 9] := by
    decide +kernel
  obtain ⟨hkeys, hother, hsome, hreads⟩ := hruns s₀ hs₀
  obtain ⟨s, hs⟩ := Option.isSome_iff_exists.mp hsome
  have hmax : ∀ id, s₀.world.disk.HasID id → id < maxFileID := by
    intro id hid
    have hmem := hkeys ▸ hid.mem_keys hother
    simp only [List.mem_cons, List.not_mem_nil, or_false] at hmem
    unfold maxFileID
    omega
  refine ⟨s₀, s, hs₀, hs, hreads, ?_⟩
  rw [← hreads]
  exact (segment_numbers_unused (initial_of_openedOn hs₀) hmax hs).2.2.2.1

/-- The file of the largest ID is active, so the counter starts anew: a `Merge` renames its file
over the first one and then removes it, and a rotation appends to the first file. -/
theorem not_segment_numbers_unused : ∃ s₀, openedOn 1 maxFileID = some s₀ ∧
    s₀.world.disk.HasID 1 ∧ s₀.world.lookup [1] = .ok [7] ∧ s₀.world.db.nextFileID = 0 ∧
    (∃ s, opened.exec s₀ (.merge 0 :: List.replicate 4 (.resume 0)) = some s ∧
      opened.reads Shared.handedOut s₀ (.merge 0 :: List.replicate 4 (.resume 0)) = [1] ∧
      s.world.disk.data[1]? = none ∧ s.world.lookup [1] = .error .notExist) ∧
    ∃ s, opened.exec s₀ [.put 2 [2] [8], .put 3 [3] [9]] = some s ∧
      opened.reads Shared.handedOut s₀ [.put 2 [2] [8], .put 3 [3] [9]] = [1] ∧
      s.world.disk.data[1]? = some (encodeDataRecord 1 [1] [7] ++ encodeDataRecord 3 [3] [9]) := by
  obtain ⟨s₀, hs₀⟩ : ∃ s₀, openedOn 1 maxFileID = some s₀ :=
    Option.isSome_iff_exists.mp (by decide +kernel)
  have hruns : ∀ s₀ ∈ openedOn 1 maxFileID, s₀.world.disk.data[1]? ≠ none ∧
      s₀.world.lookup [1] = .ok [7] ∧ s₀.world.db.nextFileID = 0 ∧
      (opened.exec s₀ (.merge 0 :: List.replicate 4 (.resume 0))).isSome ∧
      (∀ s ∈ opened.exec s₀ (.merge 0 :: List.replicate 4 (.resume 0)),
        opened.reads Shared.handedOut s₀ (.merge 0 :: List.replicate 4 (.resume 0)) = [1] ∧
        s.world.disk.data[1]? = none ∧ s.world.lookup [1] = .error .notExist) ∧
      (opened.exec s₀ [.put 2 [2] [8], .put 3 [3] [9]]).isSome ∧
      ∀ s ∈ opened.exec s₀ [.put 2 [2] [8], .put 3 [3] [9]],
        opened.reads Shared.handedOut s₀ [.put 2 [2] [8], .put 3 [3] [9]] = [1] ∧
        s.world.disk.data[1]? =
          some (encodeDataRecord 1 [1] [7] ++ encodeDataRecord 3 [3] [9]) := by
    decide +kernel
  obtain ⟨hthere, hlive, hnext, hsome, hends, hsome', hends'⟩ := hruns s₀ hs₀
  obtain ⟨s, hs⟩ := Option.isSome_iff_exists.mp hsome
  obtain ⟨s', hs'⟩ := Option.isSome_iff_exists.mp hsome'
  exact ⟨s₀, hs₀, Or.inl hthere, hlive, hnext, ⟨s, hs, hends s hs⟩, s', hs', hends' s' hs'⟩

end KvRaft.Store
