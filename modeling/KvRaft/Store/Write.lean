import KvRaft.Store.Disk

/-! `kvstore/write.go`. -/

namespace KvRaft.Store

open Std

def ensureOpen : Op Unit := do
  if (← getDB).closed then throw .closed

def mustReadWrite : Op Unit := do
  if ¬ (← getDB).opts.readWrite then throw .readOnly

/-- A method of the active file. Once the file is closed it makes no call of the system. -/
def onActive {α : Type} (op : Op α) : Op α := do
  if (← getDB).activeFile = .closed then throw .closed
  op

/-- Opens the data file for appending, and creates it if it is not there. -/
def createNewActiveFile (fileID : Nat) : Op Unit := do
  call
  modifyDisk fun d => { d with data := d.data.alter fileID fun bs => some (bs.getD []) }
  call
  let size := (((← getDisk).data[fileID]?).getD []).length
  modifyDB fun db =>
    { db with activeFile := .opened, activeFileID := fileID, activeOffset := Int64.ofNat size }

/-- The hint record that a record of a data file has at `offset`. -/
def hintOf (rec : Record) (offset : Int64) (size : Nat) : HintRecord :=
  { timestamp := rec.timestamp, key := rec.key, recordOff := offset
    recordSize := UInt32.ofNat size, tombstone := rec.tombstone }

/-- The loop of `writeHintForDataFile` over the records of the file. -/
def writeHints (fileID : Nat) : Int64 → List (Record × Nat) → Op Unit
  | _, [] => return
  | offset, (rec, size) :: rest => do
    let bs := encodeHintRecord (hintOf rec offset size)
    let written := (((← getDisk).tmpHint[fileID]?).getD []).length
    write (fun bs d => { d with tmpHint := d.tmpHint.modify fileID (· ++ bs) }) written bs
    writeHints fileID (offset + Int64.ofNat size) rest

/-- The temporary hint file gets its name. -/
def renameHint (fileID : Nat) : Op Unit := do
  call
  match (← getDisk).tmpHint[fileID]? with
  | some bs => modifyDisk fun d => { d with hint := d.hint.insert fileID bs
                                            tmpHint := d.tmpHint.erase fileID }
  | none => throw .notExist

/-- The new hint file is built beside the old one and renamed over it. -/
def writeHintForDataFile (fileID : Nat) : Op Unit := do
  call
  modifyDisk fun d => { d with tmpHint := d.tmpHint.insert fileID [] }
  onError (do
    let bs ← readData fileID
    let (recs, err) := records bs
    writeHints fileID 0 recs
    if err ≠ .eof then throw err
    call
    call
    call
    renameHint fileID)
    (removeFile (.tmpHint fileID))

/-- The number that the counter gives next. -/
def DB.number (db : DB) : Nat := if db.nextFileID = 0 then 1 else db.nextFileID

def rotateActiveFileLocked : Op Unit := do
  let db ← getDB
  if db.activeFile ≠ .none then
    onActive call
    onActive (onError call (modifyDB fun db => { db with activeFile := .closed }))
    modifyDB fun db => { db with activeFile := .none }
    writeHintForDataFile db.activeFileID
  let newID := db.number
  if newID = maxFileID then throw .fault
  createNewActiveFile newID
  modifyDB fun db => { db with nextFileID := newID + 1 }

/-- A record of `recordLen` bytes goes into a new file. -/
def DB.full (db : DB) (recordLen : Int64) : Prop :=
  db.activeOffset + recordLen > db.opts.maxDataFileSizeBytes ∧ db.activeOffset > 0

instance (db : DB) (recordLen : Int64) : Decidable (db.full recordLen) :=
  inferInstanceAs (Decidable (_ ∧ _))

/-- `appendRecordLocked` up to the write. -/
def makeRoom (recordLen : Int64) : Op Unit := do
  let db ← getDB
  if db.activeFile = .none then throw .noActiveFile
  if db.full recordLen then rotateActiveFileLocked

/-- The write to the active file. -/
def writeActive (bs : Bytes) : Op Unit := onActive do
  let id := (← getDB).activeFileID
  let size := (((← getDisk).data[id]?).getD []).length
  write (fun bs d => { d with data := d.data.modify id (· ++ bs) }) size bs

def appendRecordLocked (record : Bytes) (ts : Int64) : Op KeyDirEntry := do
  let recordLen := Int64.ofNat record.length
  makeRoom recordLen
  let db ← getDB
  writeActive record
  modifyDB fun db => { db with activeOffset := db.activeOffset + recordLen }
  if db.opts.syncOnPut then onActive call
  return { fileID := db.activeFileID, fileOffset := db.activeOffset
           recordSize := UInt32.ofNat record.length, timeStamp := ts }

/-- `ts` is what `time.Now().UnixNano()` returns. -/
def put (ts : Int64) (key value : Bytes) : Op Unit := do
  ensureOpen
  mustReadWrite
  if value = tombstoneValue then throw .reservedValue
  let entry ← appendRecordLocked (encodeDataRecord ts key value) ts
  modifyDB fun db => { db with keydir := db.keydir.insert key entry }

def delete (ts : Int64) (key : Bytes) : Op Unit := do
  ensureOpen
  mustReadWrite
  let _ ← appendRecordLocked (encodeDataRecord ts key tombstoneValue) ts
  modifyDB fun db => { db with keydir := db.keydir.erase key }

def allocateDataFileID : Op Nat := do
  let db ← getDB
  if db.closed then throw .closed
  let id := db.number
  if id = maxFileID then throw .fault
  modifyDB fun db => { db with nextFileID := id + 1 }
  return id

def sync : Op Unit := do
  ensureOpen
  mustReadWrite
  if (← getDB).activeFile ≠ .none then onActive call

def releaseWriterLock : Op Unit := do
  if (← getDB).lockFile then
    ignore call
    ignore call
    modifyDisk fun d => { d with locked := false }
    modifyDB fun db => { db with lockFile := false }

def close : Op Unit := do
  let db ← getDB
  if db.closed then return
  let closeErr ← if db.activeFile ≠ .none then do
      let synced ← attempt (onActive call)
      let closed ← attempt (onActive call)
      modifyDB fun db => { db with activeFile := .none }
      pure (synced <|> closed)
    else pure none
  modifyDB fun db => { db with readers := [] }
  releaseWriterLock
  modifyDB fun db => { db with closed := true }
  match closeErr with
  | some e => throw e
  | none => return

theorem onActive_opened {α : Type} {op : Op α} {w : World} (h : w.db.activeFile ≠ .closed) :
    onActive op w = op w := by
  simp [onActive, bind_apply, h]

theorem onActive_closed {α : Type} {op : Op α} {w : World} (h : w.db.activeFile = .closed) :
    onActive op w = .error .closed w := by
  simp [onActive, bind_apply, h]

end KvRaft.Store
