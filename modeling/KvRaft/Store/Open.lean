import KvRaft.Store.Write

/-! `kvstore/open.go`. -/

namespace KvRaft.Store

open Std Replay

def shouldReplace (current incoming : KeyDirEntry) : Bool :=
  if incoming.timeStamp > current.timeStamp then true
  else if incoming.timeStamp < current.timeStamp then false
  else if incoming.fileID > current.fileID then true
  else if incoming.fileID < current.fileID then false
  else incoming.fileOffset > current.fileOffset

def applyKeydirUpdate (keydir : KeyDir) (key : Bytes) (incoming : KeyDirEntry)
    (tombstone : Bool) : KeyDir :=
  if (keydir[key]?).any fun current => !shouldReplace current incoming then keydir
  else if tombstone then keydir.erase key
  else keydir.insert key incoming

/-- The loop of `scanHintFile` over the records of the file. -/
def scanHints (fileID : Nat) : List (HintRecord × Nat) → Op Unit
  | [] => return
  | (hr, _) :: rest => do
    let entry : KeyDirEntry := { fileID := fileID, fileOffset := hr.recordOff
                                 recordSize := hr.recordSize, timeStamp := hr.timestamp }
    modifyDB fun db => { db with keydir := applyKeydirUpdate db.keydir hr.key entry hr.tombstone }
    scanHints fileID rest

def scanHintFile (fileID : Nat) : Op Unit := do
  let bs ← readHint fileID
  let (recs, err) := hints bs
  scanHints fileID recs
  if err ≠ .eof then throw err

/-- The loop of `scanDataFile` over the records of the file, from `offset`; the offset after the
last one. -/
def scanRecords (fileID : Nat) : Int64 → List (Record × Nat) → Op Int64
  | offset, [] => return offset
  | offset, (rec, size) :: rest => do
    let entry : KeyDirEntry := { fileID := fileID, fileOffset := offset
                                 recordSize := UInt32.ofNat size, timeStamp := rec.timestamp }
    modifyDB fun db => { db with keydir := applyKeydirUpdate db.keydir rec.key entry rec.tombstone }
    scanRecords fileID (offset + Int64.ofNat size) rest

def isTailTruncationError (err : Err) : Bool := err = .eof ∨ err = .unexpectedEOF

def scanDataFile (fileID : Nat) (allowTailTruncate : Bool) : Op Unit := do
  let bs ← readData fileID
  let (recs, err) := records bs
  let lastGoodOffset ← scanRecords fileID 0 recs
  if err = .eof then return
  if allowTailTruncate ∧ isTailTruncationError err then
    call
    modifyDisk fun d =>
      { d with data := d.data.modify fileID (·.take lastGoodOffset.toNatClampNeg) }
    call
    call
  else if err = .corruptData ∨ ¬ allowTailTruncate then throw .corruptData
  else throw err

def acquireWriterLock : Op Unit := do
  call
  call
  if (← getDisk).locked then throw .writerLocked
  modifyDisk fun d => { d with locked := true }
  modifyDB fun db => { db with lockFile := true }

/-- The data file is the source of a non-active segment only if its hint file cannot be read. -/
def scanSegment (active : Nat) (readWrite : Bool) (fileID : Nat) : Op Unit :=
  if fileID = active then scanDataFile fileID readWrite
  else do
    try scanHintFile fileID
    catch _ => scanDataFile fileID false

/-- `OpenWithOptions` once the lock is held. -/
def loadSegments (readWrite : Bool) : Op Unit := do
  let ids ← listDataFileIDs
  match ids.getLast? with
  | none =>
    if readWrite then
      createNewActiveFile 1
      modifyDB fun db => { db with nextFileID := 2 }
  | some active =>
    modifyDB fun db => { db with activeFileID := active, nextFileID := (active + 1) % 2 ^ 64 }
    ids.forM (scanSegment active readWrite)
    if readWrite then
      call
      if ((← getDisk).data[active]?).isNone then throw .notExist
      call
      let size := (((← getDisk).data[active]?).getD []).length
      modifyDB fun db => { db with activeFile := .opened, activeOffset := Int64.ofNat size }

/-- A `DB` before anything is read. -/
def newDB (opts : OpenOptions) : DB where
  opts := opts
  keydir := ∅
  activeFile := .none
  activeFileID := 0
  activeOffset := 0
  nextFileID := 0
  readers := []
  lockFile := false
  closed := false

def OpenOptions.withDefaults (opts : OpenOptions) : OpenOptions :=
  if opts.maxDataFileSizeBytes ≤ 0 then
    { opts with maxDataFileSizeBytes := defaultMaxDataFileSize } else opts

theorem withDefaults_readWrite {opts : OpenOptions} :
    opts.withDefaults.readWrite = opts.readWrite := by
  unfold OpenOptions.withDefaults
  split <;> rfl

/-- The new `DB` takes the place of the one in the state; a failed open leaves it useless. -/
def openWithOptions (opts : OpenOptions) : Op Unit := do
  let opts := opts.withDefaults
  call
  if opts.readWrite then modifyDisk fun d => { d with present := true }
  else if ¬ (← getDisk).present then throw .notExist
  modifyDB fun _ => newDB opts
  validateLayout
  if opts.readWrite then acquireWriterLock
  onError (loadSegments opts.readWrite) releaseWriterLock

def openReadOnly : Op Unit := openWithOptions { readWrite := false }

end KvRaft.Store
