import KvRaft.Store.Read

/-! `kvstore/merge.go`. `Merge` holds the lock of the `DB` only at its start and at its end; in
between it copies the snapshot key by key. The parts are definitions of their own, so that other
calls can run between them. -/

namespace KvRaft.Store

open Std

/-- `mergeFile`: the temporary files are those of the ID. -/
structure MergeFile where
  fileID : Nat
  offset : Int64

/-- The local variables of a call of `Merge`. -/
structure MergeRun where
  immutableIDs : List Nat
  snapshot : KeyDir
  mergedEntries : KeyDir
  mergedFiles : List Nat
  current : Option MergeFile

def sameEntry (a b : KeyDirEntry) : Bool :=
  a.fileID = b.fileID ∧ a.fileOffset = b.fileOffset ∧ a.recordSize = b.recordSize ∧
    a.timeStamp = b.timeStamp

/-- The first part, under the lock. Without a file to merge there is nothing to do. -/
def mergeSnapshot : Op (Option MergeRun) := do
  ensureOpen
  mustReadWrite
  let allIDs ← listDataFileIDs
  let db ← getDB
  let immutableIDs := allIDs.filter (· ≠ db.activeFileID)
  if immutableIDs = [] then return none
  return some { immutableIDs := immutableIDs
                snapshot := db.keydir.filter fun _ entry => decide (entry.fileID ∈ immutableIDs)
                mergedEntries := ∅, mergedFiles := [], current := none }

def newMergeFile : Op MergeFile := do
  let fileID ← allocateDataFileID
  call
  modifyDisk fun d => { d with tmpData := d.tmpData.insert fileID [] }
  onError call (removeFile (.tmpData fileID))
  modifyDisk fun d => { d with tmpHint := d.tmpHint.insert fileID [] }
  return { fileID := fileID, offset := 0 }

/-- Two syncs and two closes. -/
def closeAndSync : Op Unit := do
  call
  call
  call
  call

def cleanupMergeFiles (files : List Nat) : Op Unit :=
  files.forM fun id => do
    removeFile (.tmpData id)
    removeFile (.tmpHint id)

/-- The file that takes the next record. -/
def mergeTarget (run : MergeRun) (recordLen : Int64) : Op (MergeRun × MergeFile) := do
  let max := (← getDB).opts.maxDataFileSizeBytes
  match run.current with
  | some file =>
    if file.offset + recordLen > max ∧ file.offset > 0 then
      closeAndSync
      let file ← newMergeFile
      return ({ run with mergedFiles := run.mergedFiles ++ [file.fileID], current := file }, file)
    else return (run, file)
  | none =>
    let file ← newMergeFile
    return ({ run with mergedFiles := run.mergedFiles ++ [file.fileID], current := file }, file)

/-- One record goes into the temporary data and hint files. -/
def mergeAppend (run : MergeRun) (file : MergeFile) (key : Bytes) (rec : Record) :
    Op MergeRun := do
  let recBytes := encodeDataRecord rec.timestamp key rec.value
  let dataSize := (((← getDisk).tmpData[file.fileID]?).getD []).length
  write (fun bs d => { d with tmpData := d.tmpData.modify file.fileID (· ++ bs) }) dataSize recBytes
  let hint := encodeHintRecord { timestamp := rec.timestamp, key := key, recordOff := file.offset
                                 recordSize := UInt32.ofNat recBytes.length, tombstone := false }
  let hintSize := (((← getDisk).tmpHint[file.fileID]?).getD []).length
  write (fun bs d => { d with tmpHint := d.tmpHint.modify file.fileID (· ++ bs) }) hintSize hint
  return { run with
    current := some { file with offset := file.offset + Int64.ofNat recBytes.length }
    mergedEntries := run.mergedEntries.insert key
      { fileID := file.fileID, fileOffset := file.offset
        recordSize := UInt32.ofNat recBytes.length, timeStamp := rec.timestamp } }

/-- The start of the loop body: the record of `key` as the snapshot has it. -/
def mergeRead (run : MergeRun) (key : Bytes) : Op Record :=
  onError (match run.snapshot[key]? with
    | some entry => readRecordAtEntry key entry
    | none => throw .notExist) (cleanupMergeFiles run.mergedFiles)

/-- The file that takes the copy of `rec`. -/
def mergeAllocate (run : MergeRun) (key : Bytes) (rec : Record) : Op (MergeRun × MergeFile) :=
  onError (mergeTarget run
    (Int64.ofNat (encodeDataRecord rec.timestamp key rec.value).length))
    (cleanupMergeFiles run.mergedFiles)

/-- The rest of the loop body. -/
def mergeStore (run : MergeRun) (file : MergeFile) (key : Bytes) (rec : Record) : Op MergeRun :=
  onError (mergeAppend run file key rec) (cleanupMergeFiles run.mergedFiles)

def mergeCopy (run : MergeRun) : List Bytes → Op MergeRun
  | [] => return run
  | key :: rest => do
    let rec ← mergeRead run key
    let (run, file) ← mergeAllocate run key rec
    let run ← mergeStore run file key rec
    mergeCopy run rest

/-- The temporary data file gets its name. -/
def renameData (fileID : Nat) : Op Unit := do
  call
  match (← getDisk).tmpData[fileID]? with
  | some bs => modifyDisk fun d => { d with data := d.data.insert fileID bs
                                            tmpData := d.tmpData.erase fileID }
  | none => throw .notExist

/-- A temporary data file and its hint get their names. -/
def publishFile (fileID : Nat) : Op Unit := do
  renameData fileID
  renameHint fileID

/-- An entry that is still that of the snapshot moves to the merged file. -/
def redirectEntry (run : MergeRun) (keydir : KeyDir) (key : Bytes) (newEntry : KeyDirEntry) :
    KeyDir :=
  match keydir[key]?, run.snapshot[key]? with
  | some currentEntry, some entry =>
    if sameEntry currentEntry entry then keydir.insert key newEntry else keydir
  | _, _ => keydir

def redirect (run : MergeRun) (keydir : KeyDir) : KeyDir :=
  run.mergedEntries.foldl (redirectEntry run) keydir

def removeSegment (fileID : Nat) : Op Unit := do
  modifyDB fun db => { db with readers := db.readers.filter (· ≠ fileID) }
  removeFile (.data fileID)
  removeFile (.hint fileID)

/-- The last part, under the lock. -/
def mergePublish (run : MergeRun) : Op Unit :=
  onError (do
    if run.current.isSome then closeAndSync
    ensureOpen
    mustReadWrite
    run.mergedFiles.forM publishFile
    modifyDB fun db => { db with keydir := redirect run db.keydir }
    run.immutableIDs.forM removeSegment) (cleanupMergeFiles run.mergedFiles)

def merge : Op Unit := do
  match ← mergeSnapshot with
  | none => return
  | some run =>
    let run ← mergeCopy run run.snapshot.keys
    mergePublish run

end KvRaft.Store
