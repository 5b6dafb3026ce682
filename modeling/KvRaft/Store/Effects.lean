import KvRaft.Lib.Effects
import KvRaft.Lib.Maps
import KvRaft.Store.Integrity
import KvRaft.Store.Merge

/-! What the computations of the store may do to its state, for any relation that allows what their
file-system calls do. -/

namespace KvRaft.Store

open Effects

variable {α : Type} {R : World → World → Prop}

theorem within_getDB [Std.Refl R] : Within R getDB := fun w => refl_of R w

theorem within_getDisk [Std.Refl R] : Within R getDisk := fun w => refl_of R w

theorem within_modifyDB {f : DB → DB} (h : ∀ w : World, R w { w with db := f w.db }) :
    Within R (modifyDB f) := h

theorem within_modifyDisk {f : Disk → Disk} (h : ∀ w : World, R w { w with disk := f w.disk }) :
    Within R (modifyDisk f) := h

theorem within_ensureOpen [Std.Refl R] [IsTrans World R] : Within R ensureOpen :=
  .bind within_getDB fun _ => .ite (.throw _) (.pure _)

theorem within_mustReadWrite [Std.Refl R] [IsTrans World R] : Within R mustReadWrite :=
  .bind within_getDB fun _ => .ite (.throw _) (.pure _)

theorem within_onActive [Std.Refl R] [IsTrans World R] {op : Op α} (h : Within R op) :
    Within R (onActive op) :=
  .bind within_getDB fun _ => .ite (.bind (.throw _) fun _ => h) h

theorem within_findEntry [Std.Refl R] [IsTrans World R] (key : Bytes) :
    Within R (findEntry key) := by
  refine .bind within_getDB fun db => .ite (.throw _) ?_
  split
  · exact .throw _
  · exact .pure _

theorem within_attempt {op : Op Unit} (h : Within R op) : Within R (attempt op) := by
  intro w
  have hw := h w
  rw [left] at hw ⊢
  simp only [attempt, tryCatch, tryCatchThe, MonadExceptOf.tryCatch, EStateM.tryCatch, bind_apply]
  cases hop : op w with
  | ok a v =>
    rw [hop] at hw
    exact hw
  | error e v =>
    rw [hop] at hw
    exact hw

theorem within_ignore [Std.Refl R] [IsTrans World R] {op : Op Unit} (h : Within R op) :
    Within R (ignore op) :=
  .bind (within_attempt h) fun _ => .pure _

theorem within_onError [Std.Refl R] [IsTrans World R] {op : Op α} {cleanup : Op Unit}
    (h : Within R op) (hc : Within R cleanup) : Within R (onError op cleanup) :=
  .tryCatch h fun _ => .bind hc fun _ => .throw _

/-- A write appends some part of its bytes. -/
theorem within_write {a : Bytes → Disk → Disk} {size : Nat} {bs : Bytes}
    (h : ∀ (w : World) bs, R w { w with disk := a bs w.disk, outcomes := w.outcomes.drop 1 }) :
    Within R (write a size bs) := by
  refine .of_forall (fun w _ w' hop => ?_) fun w e w' hop => ?_
  · rcases write_cases w.disk w.db a size bs w.outcomes with ⟨-, hw⟩ | ⟨k, -, hw⟩
    · obtain ⟨-, rfl⟩ := EStateM.Result.ok.inj (hw.symm.trans hop)
      exact h w bs
    · cases hw.symm.trans hop
  · rcases write_cases w.disk w.db a size bs w.outcomes with ⟨-, hw⟩ | ⟨k, -, hw⟩
    · cases hw.symm.trans hop
    · obtain ⟨-, rfl⟩ := EStateM.Result.error.inj (hw.symm.trans hop)
      exact h w _

section Call

variable (hcall : ∀ w : World, R w { w with outcomes := w.outcomes.drop 1 })

include hcall

theorem within_call : Within R call := by
  refine .of_forall (fun w _ w' hop => ?_) fun w e w' hop => ?_
  · rcases call_cases w.disk w.db w.outcomes with ⟨-, hw⟩ | ⟨-, hw⟩
    · obtain ⟨-, rfl⟩ := EStateM.Result.ok.inj (hw.symm.trans hop)
      exact hcall w
    · cases hw.symm.trans hop
  · rcases call_cases w.disk w.db w.outcomes with ⟨-, hw⟩ | ⟨-, hw⟩
    · cases hw.symm.trans hop
    · obtain ⟨-, rfl⟩ := EStateM.Result.error.inj (hw.symm.trans hop)
      exact hcall w

variable [IsTrans World R]

theorem within_closeAndSync : Within R closeAndSync :=
  have hc := within_call hcall
  .bind hc fun _ => .bind hc fun _ => .bind hc fun _ => hc

variable [Std.Refl R]

theorem within_removeFile {f : FileName} (h : ∀ w : World, R w { w with disk := w.disk.remove f }) :
    Within R (removeFile f) :=
  within_ignore (.bind (within_call hcall) fun _ => within_modifyDisk h)

theorem within_validateLayout (hremove : ∀ f, Within R (removeFile f)) :
    Within R validateLayout := by
  refine .bind (within_call hcall) fun _ => .bind within_getDB fun db =>
    .bind within_getDisk fun d => .forM fun f _ => ?_
  cases f with
  | data | hint => exact .pure _
  | tmpData | tmpHint => exact .ite (hremove _) (.throw _)
  | other name =>
    exact .ite (.ite (hremove _) (.throw _)) (.ite (.ite (.pure _) (.throw _))
      (.ite (.ite (.pure _) (.throw _)) (.throw _)))

theorem within_readData (fileID : Nat) : Within R (readData fileID) := by
  refine .bind (within_call hcall) fun _ => .bind within_getDisk fun d => ?_
  split
  · exact .pure _
  · exact .throw _

theorem within_readSection (entry : KeyDirEntry) : Within R (readSection entry) := by
  refine .ite (.pure _) (.bind (within_call hcall) fun _ => .bind within_getDisk fun d => ?_)
  split
  · exact .throw _
  · exact .ite (.throw _) (.pure _)

theorem within_renameHint {fileID : Nat} (h : ∀ (w : World) bs, R w { w with disk := { w.disk with
      hint := w.disk.hint.insert fileID bs, tmpHint := w.disk.tmpHint.erase fileID } }) :
    Within R (renameHint fileID) := by
  refine .bind (within_call hcall) fun _ => .bind within_getDisk fun d => ?_
  split
  · exact within_modifyDisk fun w => h w _
  · exact .throw _

theorem within_renameData {fileID : Nat} (h : ∀ (w : World) bs, R w { w with disk := { w.disk with
      data := w.disk.data.insert fileID bs, tmpData := w.disk.tmpData.erase fileID } }) :
    Within R (renameData fileID) := by
  refine .bind (within_call hcall) fun _ => .bind within_getDisk fun d => ?_
  split
  · exact within_modifyDisk fun w => h w _
  · exact .throw _

theorem within_listDataFileIDs : Within R listDataFileIDs :=
  .bind (within_call hcall) fun _ => .bind within_getDisk fun _ => .pure _

theorem within_mergeSnapshot : Within R mergeSnapshot :=
  .bind within_ensureOpen fun _ => .bind within_mustReadWrite fun _ =>
    .bind (within_listDataFileIDs hcall) fun _ => .bind within_getDB fun _ =>
      .ite (.pure _) (.pure _)

/-- A descriptor is opened only for a data file that is there. -/
def OpensReaders (R : World → World → Prop) : Prop := ∀ (w : World) (fileID : Nat),
  w.disk.data[fileID]? ≠ none → R w { w with db := { w.db with readers := fileID :: w.db.readers } }

variable (hreaders : OpensReaders R)

include hreaders

theorem within_openReader (fileID : Nat) : Within R (openReader fileID) := by
  refine .bind within_getDB fun db => .ite (.throw _) (.ite (.pure _) fun w => ?_)
  cases hread : readData fileID w with
  | error e v =>
    rw [left_bind_error hread]
    exact (within_readData hcall fileID).error hread
  | ok bs v =>
    rw [left_bind_ok hread]
    refine trans_of R ((within_readData hcall fileID).ok hread) (hreaders v fileID ?_)
    rw [readData_found hread]
    exact Option.some_ne_none bs

theorem within_readRecordAtEntry (key : Bytes) (entry : KeyDirEntry) :
    Within R (readRecordAtEntry key entry) := by
  refine .bind (within_openReader hcall hreaders _) fun _ =>
    .bind (within_readSection hcall entry) fun bs => ?_
  split
  · exact .throw _
  · exact .ite (.throw _) (.pure _)

theorem within_getValue (key : Bytes) : Within R (getValue key) :=
  .bind (within_findEntry key) fun entry =>
    .bind (within_readRecordAtEntry hcall hreaders key entry) fun _ => .ite (.throw _) (.pure _)

end Call

/-- The counter of file IDs, the active ID, the descriptors and the mode are the same. -/
structure DB.Like (db db' : DB) : Prop where
  next : db'.nextFileID = db.nextFileID
  active : db'.activeFileID = db.activeFileID
  readers : db'.readers = db.readers
  closed : db'.closed = db.closed
  opts : db'.opts = db.opts

/-- No temporary file is lost but those of the IDs in `T`. -/
def Disk.Saves (T : Nat → Prop) (d d' : Disk) : Prop := ∀ id, ¬ T id →
  (d.tmpData[id]? ≠ none → d'.tmpData[id]? ≠ none) ∧
    (d.tmpHint[id]? ≠ none → d'.tmpHint[id]? ≠ none)

namespace Disk.Saves

variable {T : Nat → Prop} {d d' d'' : Disk}

theorem of_same (hdata : d'.tmpData = d.tmpData) (hhint : d'.tmpHint = d.tmpHint) :
    d.Saves T d' :=
  fun _ _ => ⟨fun h => hdata ▸ h, fun h => hhint ▸ h⟩

theorem refl (d : Disk) : d.Saves T d := .of_same rfl rfl

theorem all : d.Saves (fun _ => True) d' := fun _ hid => absurd trivial hid

theorem trans (h : d.Saves T d') (h' : d'.Saves T d'') : d.Saves T d'' :=
  fun id hid => ⟨fun hne => (h' id hid).1 ((h id hid).1 hne),
    fun hne => (h' id hid).2 ((h id hid).2 hne)⟩

theorem mono {T' : Nat → Prop} (h : d.Saves T d') (hT : ∀ id, T id → T' id) : d.Saves T' d' :=
  fun id hid => h id fun hT' => hid (hT id hT')

theorem modifyData (d : Disk) (i : Nat) (f : Bytes → Bytes) :
    d.Saves T { d with tmpData := d.tmpData.modify i f } :=
  fun _ _ => ⟨fun hne hnone => hne (Maps.getElem?_modify_eq_none.mp hnone), id⟩

theorem modifyHint (d : Disk) (i : Nat) (f : Bytes → Bytes) :
    d.Saves T { d with tmpHint := d.tmpHint.modify i f } :=
  fun _ _ => ⟨id, fun hne hnone => hne (Maps.getElem?_modify_eq_none.mp hnone)⟩

theorem insertData (d : Disk) (i : Nat) (bs : Bytes) :
    d.Saves T { d with tmpData := d.tmpData.insert i bs } :=
  fun _ _ => ⟨Maps.getElem?_insert_ne_none, id⟩

theorem insertHint (d : Disk) (i : Nat) (bs : Bytes) :
    d.Saves T { d with tmpHint := d.tmpHint.insert i bs } :=
  fun _ _ => ⟨id, Maps.getElem?_insert_ne_none⟩

theorem removeData (d : Disk) {i : Nat} (h : T i) : d.Saves T (d.remove (.tmpData i)) := by
  intro id hid
  have hne : id ≠ i := fun heq => hid (heq ▸ h)
  exact ⟨fun hthere => (Maps.getElem?_erase_of_ne hne).trans_ne hthere, fun hthere => hthere⟩

theorem removeHint (d : Disk) {i : Nat} (h : T i) : d.Saves T (d.remove (.tmpHint i)) := by
  intro id hid
  have hne : id ≠ i := fun heq => hid (heq ▸ h)
  exact ⟨fun hthere => hthere, fun hthere => (Maps.getElem?_erase_of_ne hne).trans_ne hthere⟩

end Disk.Saves

/-- The relation allows what most computations of the store do: bookkeeping in the `DB`, changes of
hint and temporary files, appends to data files. Temporary files may go if their ID is in `T`. -/
structure Permits (T : Nat → Prop) (R : World → World → Prop) : Prop where
  calls : ∀ w : World, R w { w with outcomes := w.outcomes.drop 1 }
  db : ∀ (w : World) (db : DB), w.db.Like db → R w { w with db := db }
  disk : ∀ (w : World) (d : Disk), d.data = w.disk.data → d.other = w.disk.other →
    w.disk.Saves T d → R w { w with disk := d }
  append : ∀ (w : World) (id : Nat) (bs : Bytes),
    R w { w with disk := { w.disk with data := w.disk.data.modify id (· ++ bs) } }

namespace Permits

variable {T : Nat → Prop} [Std.Refl R] [IsTrans World R] (h : Permits T R)

include h

omit [Std.Refl R] [IsTrans World R] in
theorem modifyDB {f : DB → DB} (hf : ∀ db : DB, db.Like (f db)) : Within R (modifyDB f) :=
  within_modifyDB fun w => h.db w _ (hf w.db)

omit [Std.Refl R] [IsTrans World R] in
theorem modifyDisk {f : Disk → Disk} (hdata : ∀ d, (f d).data = d.data)
    (hother : ∀ d, (f d).other = d.other) (htmp : ∀ d : Disk, d.Saves T (f d)) :
    Within R (modifyDisk f) :=
  within_modifyDisk fun w => h.disk w _ (hdata w.disk) (hother w.disk) (htmp w.disk)

omit [Std.Refl R] in
theorem write {a : Bytes → Disk → Disk} {size : Nat} {bs : Bytes}
    (hdata : ∀ bs d, (a bs d).data = d.data) (hother : ∀ bs d, (a bs d).other = d.other)
    (htmp : ∀ bs (d : Disk), d.Saves T (a bs d)) : Within R (write a size bs) :=
  within_write fun w bs => trans_of R
    (h.disk w _ (hdata bs w.disk) (hother bs w.disk) (htmp bs w.disk)) (h.calls _)

theorem writeActive (record : Bytes) : Within R (writeActive record) :=
  within_onActive (.bind within_getDB fun db => .bind within_getDisk fun _ =>
    within_write fun w bs => trans_of R (h.append w db.activeFileID bs) (h.calls _))

theorem removeFile {f : FileName} (hdata : ∀ d : Disk, (d.remove f).data = d.data)
    (hother : ∀ d : Disk, (d.remove f).other = d.other)
    (htmp : ∀ d : Disk, d.Saves T (d.remove f)) : Within R (removeFile f) :=
  within_removeFile h.calls fun w => h.disk w _ (hdata w.disk) (hother w.disk) (htmp w.disk)

theorem cleanupMergeFiles {ids : List Nat} (hids : ∀ id ∈ ids, T id) :
    Within R (cleanupMergeFiles ids) :=
  .forM fun id hid =>
    .bind (h.removeFile (fun _ => rfl) (fun _ => rfl) fun d => .removeData d (hids id hid)) fun _ =>
      h.removeFile (fun _ => rfl) (fun _ => rfl) fun d => .removeHint d (hids id hid)

theorem writeHints (fileID : Nat) (offset : Int64) (recs : List (Record × Nat)) :
    Within R (writeHints fileID offset recs) := by
  induction recs generalizing offset with
  | nil => exact .pure _
  | cons p rest ih =>
    exact .bind within_getDisk fun _ =>
      .bind (h.write (fun _ _ => rfl) (fun _ _ => rfl) fun _ d => .modifyHint d _ _) fun _ => ih _

theorem renameHint {fileID : Nat} (hid : T fileID) : Within R (renameHint fileID) :=
  within_renameHint h.calls fun w _ => h.disk w _ rfl rfl (.removeHint w.disk hid)

theorem writeHintForDataFile {fileID : Nat} (hid : T fileID) :
    Within R (writeHintForDataFile fileID) := by
  have hcall : Within R call := within_call h.calls
  have hrename : Within R (do call; call; call; Store.renameHint fileID) :=
    .bind hcall fun _ => .bind hcall fun _ => .bind hcall fun _ => h.renameHint hid
  refine .bind hcall fun _ => .bind (h.modifyDisk (fun _ => rfl) (fun _ => rfl) fun d =>
    .insertHint d _ _) fun _ => within_onError (.bind (within_readData h.calls _) fun bs => ?_)
      (h.removeFile (fun _ => rfl) (fun _ => rfl) fun d => .removeHint d hid)
  exact .bind (h.writeHints _ _ _) fun _ => .ite (.bind (.throw _) fun _ => hrename) hrename

/-- `appendRecordLocked` once there is room. -/
theorem appendRest (record : Bytes) (ts : Int64) : Within R (do
    let db ← getDB
    Store.writeActive record
    Store.modifyDB fun db =>
      { db with activeOffset := db.activeOffset + Int64.ofNat record.length }
    if db.opts.syncOnPut then onActive call
    return ({ fileID := db.activeFileID, fileOffset := db.activeOffset
              recordSize := UInt32.ofNat record.length, timeStamp := ts } : KeyDirEntry)) :=
  .bind within_getDB fun _ => .bind (h.writeActive record) fun _ =>
    .bind (h.modifyDB fun _ => ⟨rfl, rfl, rfl, rfl, rfl⟩) fun _ =>
      .ite (.bind (within_onActive (within_call h.calls)) fun _ => .pure _) (.pure _)

theorem appendRecordLocked (hrotate : Within R rotateActiveFileLocked) (record : Bytes)
    (ts : Int64) : Within R (appendRecordLocked record ts) := by
  have hroom : Within R (makeRoom (Int64.ofNat record.length)) :=
    .bind within_getDB fun db => .ite (.bind (.throw _) fun _ => .ite hrotate (.pure _))
      (.ite hrotate (.pure _))
  exact .bind hroom fun _ => h.appendRest record ts

theorem put (hrotate : Within R rotateActiveFileLocked) (ts : Int64) (key value : Bytes) :
    Within R (put ts key value) := by
  have happend : Within R (do
      let entry ← Store.appendRecordLocked (encodeDataRecord ts key value) ts
      Store.modifyDB fun db => { db with keydir := db.keydir.insert key entry }) :=
    .bind (h.appendRecordLocked hrotate _ ts) fun _ => h.modifyDB fun _ => ⟨rfl, rfl, rfl, rfl, rfl⟩
  exact .bind within_ensureOpen fun _ => .bind within_mustReadWrite fun _ =>
    .ite (.bind (.throw _) fun _ => happend) happend

theorem delete (hrotate : Within R rotateActiveFileLocked) (ts : Int64) (key : Bytes) :
    Within R (delete ts key) :=
  .bind within_ensureOpen fun _ => .bind within_mustReadWrite fun _ =>
    .bind (h.appendRecordLocked hrotate _ ts) fun _ => h.modifyDB fun _ => ⟨rfl, rfl, rfl, rfl, rfl⟩

/-- The temporary file of a new number may be lost again. -/
theorem mergeAllocate (hT : ∀ id, T id) (hallocate : Within R allocateDataFileID) (run : MergeRun)
    (key : Bytes) (r : Record) : Within R (mergeAllocate run key r) := by
  have hcall : Within R call := within_call h.calls
  have hnew : Within R newMergeFile := by
    refine .bind hallocate fun id => .bind hcall fun _ => .bind ?_ fun _ => .bind
      (within_onError hcall ?_) fun _ => .bind ?_ fun _ => .pure _
    · exact h.modifyDisk (fun _ => rfl) (fun _ => rfl) fun d => .insertData d _ _
    · exact h.removeFile (fun _ => rfl) (fun _ => rfl) fun d => .removeData d (hT id)
    · exact h.modifyDisk (fun _ => rfl) (fun _ => rfl) fun d => .insertHint d _ _
  refine within_onError (.bind within_getDB fun db => ?_) (h.cleanupMergeFiles fun id _ => hT id)
  split
  · exact .ite (.bind (within_closeAndSync h.calls) fun _ => .bind hnew fun _ => .pure _) (.pure _)
  · exact .bind hnew fun _ => .pure _

theorem mergeAppend (run : MergeRun) (file : MergeFile) (key : Bytes) (r : Record) :
    Within R (mergeAppend run file key r) :=
  .bind within_getDisk fun _ => .bind (h.write (fun _ _ => rfl) (fun _ _ => rfl) fun _ d =>
    .modifyData d _ _) fun _ => .bind within_getDisk fun _ => .bind (h.write (fun _ _ => rfl)
      (fun _ _ => rfl) fun _ d => .modifyHint d _ _) fun _ => .pure _

section Run

variable {run : MergeRun} (hT : ∀ id ∈ run.mergedFiles, T id)

include hT

theorem mergeStore (file : MergeFile) (key : Bytes) (r : Record) :
    Within R (mergeStore run file key r) :=
  within_onError (h.mergeAppend run file key r) (h.cleanupMergeFiles hT)

theorem mergeRead (hreaders : OpensReaders R) (key : Bytes) : Within R (mergeRead run key) := by
  refine within_onError ?_ (h.cleanupMergeFiles hT)
  split
  · exact within_readRecordAtEntry h.calls hreaders _ _
  · exact .throw _

end Run

theorem acquireWriterLock : Within R acquireWriterLock := by
  have hcall : Within R call := within_call h.calls
  have htake : Within R (do
      Store.modifyDisk fun d => { d with locked := true }
      Store.modifyDB fun db => { db with lockFile := true }) :=
    .bind (h.modifyDisk (fun _ => rfl) (fun _ => rfl) fun _ => .of_same rfl rfl) fun _ =>
      h.modifyDB fun _ => ⟨rfl, rfl, rfl, rfl, rfl⟩
  exact .bind hcall fun _ => .bind hcall fun _ => .bind within_getDisk fun _ =>
    .ite (.bind (.throw _) fun _ => htake) htake

theorem scanHints (fileID : Nat) (recs : List (HintRecord × Nat)) :
    Within R (scanHints fileID recs) := by
  induction recs with
  | nil => exact .pure _
  | cons p rest ih => exact .bind (h.modifyDB fun _ => ⟨rfl, rfl, rfl, rfl, rfl⟩) fun _ => ih

theorem scanRecords (fileID : Nat) (offset : Int64) (recs : List (Record × Nat)) :
    Within R (scanRecords fileID offset recs) := by
  induction recs generalizing offset with
  | nil => exact .pure _
  | cons p rest ih => exact .bind (h.modifyDB fun _ => ⟨rfl, rfl, rfl, rfl, rfl⟩) fun _ => ih _

section Trim

variable (htrim : ∀ (w : World) (id : Nat) (n : Nat),
  R w { w with disk := { w.disk with data := w.disk.data.modify id (·.take n) } })

include htrim

theorem scanDataFile (fileID : Nat) (allowTailTruncate : Bool) :
    Within R (scanDataFile fileID allowTailTruncate) := by
  have hcall : Within R call := within_call h.calls
  exact .bind (within_readData h.calls _) fun bs => .bind (h.scanRecords _ _ _) fun last =>
    .ite (.pure _) (.ite (.bind hcall fun _ => .bind (within_modifyDisk fun w => htrim w _ _)
      fun _ => .bind hcall fun _ => hcall) (.ite (.throw _) (.throw _)))

theorem scanSegment (active : Nat) (readWrite : Bool) (fileID : Nat) :
    Within R (scanSegment active readWrite fileID) := by
  refine .ite (h.scanDataFile htrim _ _) (.tryCatch ?_ fun _ => h.scanDataFile htrim _ _)
  refine .bind (.bind (within_call h.calls) fun _ => .bind within_getDisk fun d => ?_) fun bs =>
    .bind (h.scanHints _ _) fun _ => .ite (.throw _) (.pure _)
  split
  · exact .pure _
  · exact .throw _

/-- `loadSegments` once it has found data files. -/
theorem loadFound (ids : List Nat) (active : Nat) (readWrite : Bool) : Within R (do
    ids.forM (Store.scanSegment active readWrite)
    if readWrite then
      call
      if ((← getDisk).data[active]?).isNone then throw .notExist
      call
      let size := (((← getDisk).data[active]?).getD []).length
      Store.modifyDB fun db =>
        { db with activeFile := .opened, activeOffset := Int64.ofNat size }) := by
  have hcall : Within R call := within_call h.calls
  have hstat : Within R (do
      call
      let size := (((← getDisk).data[active]?).getD []).length
      Store.modifyDB fun db =>
        { db with activeFile := .opened, activeOffset := Int64.ofNat size }) :=
    .bind hcall fun _ => .bind within_getDisk fun _ => h.modifyDB fun _ => ⟨rfl, rfl, rfl, rfl, rfl⟩
  exact .bind (.forM fun id _ => h.scanSegment htrim active readWrite id) fun _ =>
    .ite (.bind hcall fun _ => .bind within_getDisk fun _ =>
      .ite (.bind (.throw _) fun _ => hstat) hstat) (.pure _)

end Trim

end Permits

end KvRaft.Store
