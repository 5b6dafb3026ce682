import KvRaft.Store.Open

/-! `kvstore/read.go`. -/

namespace KvRaft.Store

open Std

/-- `openReader`: the descriptor of a data file, opened at its first use. -/
def openReader (fileID : Nat) : Op Unit := do
  let db ← getDB
  if db.closed then throw .closed
  if fileID ∈ db.readers then return
  let _ ← readData fileID
  modifyDB fun db => { db with readers := fileID :: db.readers }

/-- The bytes of the section that an entry describes; an empty one is not looked for. -/
def readSection (entry : KeyDirEntry) : Op Bytes := do
  if entry.recordSize = 0 then return []
  call
  match (← getDisk).data[entry.fileID]? with
  | none => throw .notExist
  | some bs =>
    if entry.fileOffset < 0 then throw .fault
    else return (bs.drop entry.fileOffset.toNatClampNeg).take entry.recordSize.toNat

def readRecordAtEntry (key : Bytes) (entry : KeyDirEntry) : Op Record := do
  openReader entry.fileID
  let bs ← readSection entry
  match decodeDataRecord bs with
  | .error err => throw err
  | .ok (rec, size) =>
    if rec.key ≠ key ∨ UInt32.ofNat size ≠ entry.recordSize then throw .corruptData
    else return rec

/-- `Get` up to the release of the lock. -/
def findEntry (key : Bytes) : Op KeyDirEntry := do
  let db ← getDB
  if db.closed then throw .closed
  match db.keydir[key]? with
  | none => throw .keyNotFound
  | some entry => return entry

/-- The rest of `Get`. -/
def readValue (key : Bytes) (entry : KeyDirEntry) : Op Bytes := do
  let found ← readRecordAtEntry key entry
  if found.value = tombstoneValue then throw .keyNotFound
  else return found.value

def getValue (key : Bytes) : Op Bytes := do
  let entry ← findEntry key
  readValue key entry

/-- What `Get` returns. -/
def World.lookup (w : World) (key : Bytes) : Except Err Bytes :=
  match getValue key w with
  | .ok value _ => .ok value
  | .error err _ => .error err

/-- What `Get` should return for a key that a map has or lacks. -/
def answer : Option Bytes → Except Err Bytes
  | some value => .ok value
  | none => .error .keyNotFound

def listKeys : Op (List Bytes) := do return (← getDB).keydir.keys

end KvRaft.Store
