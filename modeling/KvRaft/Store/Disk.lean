import KvRaft.Lib.Replay
import KvRaft.Store.Codec

/-! The state of the store: the directory, the open `DB`, and the file-system calls that connect
them. A computation keeps its effects when it fails. File IDs are the natural numbers below
`2 ^ 64`; timestamps, offsets and sizes have the types of the source. -/

namespace KvRaft.Store

open Std

structure OpenOptions where
  readWrite : Bool
  syncOnPut : Bool := false
  maxDataFileSizeBytes : Int64 := 0

def defaultMaxDataFileSize : Int64 := 64 * 1024 * 1024

structure KeyDirEntry where
  fileID : Nat
  fileOffset : Int64
  recordSize : UInt32
  timeStamp : Int64
deriving DecidableEq

abbrev KeyDir := ExtTreeMap Bytes KeyDirEntry

/-- `DB.activeFile`: nil, or an `os.File`, which `Close` closes even when it returns an error. -/
inductive Handle
  | none
  | opened
  | closed
deriving DecidableEq

/-- `math.MaxUint64`, the largest file ID. The counter of the source wraps behind it: `open.go` then
starts with 0. A file that a rotation or a `Merge` would give this ID is outside the model, like a
file that the file system cannot address. -/
def maxFileID : Nat := 2 ^ 64 - 1

structure DB where
  opts : OpenOptions
  keydir : KeyDir
  /-- the handle on the data file `activeFileID` -/
  activeFile : Handle
  activeFileID : Nat
  activeOffset : Int64
  nextFileID : Nat
  /-- the data files with a cached read descriptor -/
  readers : List Nat
  lockFile : Bool
  closed : Bool

/-- The directory: the data and hint files by ID, the same with the suffix `.tmp`, and the names of
any other files. -/
structure Disk where
  present : Bool := true
  data : ExtTreeMap Nat Bytes := ∅
  hint : ExtTreeMap Nat Bytes := ∅
  tmpData : ExtTreeMap Nat Bytes := ∅
  tmpHint : ExtTreeMap Nat Bytes := ∅
  other : List String := []
  /-- some process holds the writer lock -/
  locked : Bool := false

/-- How a file-system call ends. A failed write leaves the first `written` bytes behind. -/
inductive Outcome
  | ok
  | fail (written : Nat)
deriving DecidableEq

/-- `outcomes` are those of the coming calls; when there are none left, calls succeed. -/
structure World where
  disk : Disk
  db : DB
  outcomes : List Outcome := []

abbrev Op := EStateM Err World

def getDB : Op DB := do return (← get).db

def getDisk : Op Disk := do return (← get).disk

def modifyDB (f : DB → DB) : Op Unit := modify fun w => { w with db := f w.db }

def modifyDisk (f : Disk → Disk) : Op Unit := modify fun w => { w with disk := f w.disk }

def nextOutcome : Op Outcome := do
  let w ← get
  match w.outcomes with
  | [] => return .ok
  | o :: rest =>
    set { w with outcomes := rest }
    return o

/-- A call that changes no file. -/
def call : Op Unit := do
  match ← nextOutcome with
  | .ok => return
  | .fail _ => throw .fault

/-- The largest file the system can address. -/
def maxFileSize : Nat := 2 ^ 63 - 1

/-- A write of `bs` at the end of a file of `size` bytes that `append` extends. -/
def write (append : Bytes → Disk → Disk) (size : Nat) (bs : Bytes) : Op Unit := do
  match ← nextOutcome with
  | .fail written =>
    modifyDisk (append (bs.take (min written (maxFileSize - size))))
    throw .fault
  | .ok =>
    if size + bs.length ≤ maxFileSize then modifyDisk (append bs)
    else
      modifyDisk (append (bs.take (maxFileSize - size)))
      throw .fault

/-- The first `k` of the coming calls succeed. -/
def Succeed (k : Nat) (os : List Outcome) : Prop := ∀ o ∈ os.take k, o = .ok

instance (k : Nat) (os : List Outcome) : Decidable (Succeed k os) :=
  inferInstanceAs (Decidable (∀ o ∈ os.take k, o = .ok))

/-- How many of `len` bytes a write leaves at the end of a file of `size` bytes, if it fails. -/
def shortWrite (size len : Nat) : Outcome → Option Nat
  | .ok => if size + len ≤ maxFileSize then none else some (maxFileSize - size)
  | .fail written => some (min (min written (maxFileSize - size)) len)

/-- The error of `op` as a value. -/
def attempt (op : Op Unit) : Op (Option Err) := do
  try
    op
    return none
  catch e => return some e

/-- `op` with its error dropped. -/
def ignore (op : Op Unit) : Op Unit := do
  let _ ← attempt op

/-- Runs `cleanup` when `op` fails, and fails like it. -/
def onError {α : Type} (op : Op α) (cleanup : Op Unit) : Op α := do
  try op
  catch e =>
    cleanup
    throw e

/-- `os.Open` and the bytes of a data file. -/
def readData (fileID : Nat) : Op Bytes := do
  call
  match (← getDisk).data[fileID]? with
  | some bs => return bs
  | none => throw .notExist

def readHint (fileID : Nat) : Op Bytes := do
  call
  match (← getDisk).hint[fileID]? with
  | some bs => return bs
  | none => throw .notExist

/-! File names, as `paths.go` writes and reads them. -/

def dataFileExtension : String := ".data"
def hintFileExtension : String := ".hint"
def tmpFileSuffix : String := ".tmp"

/-- `%020d` -/
def padID (fileID : Nat) : String :=
  let digits := toString fileID
  String.ofList (List.replicate (20 - digits.length) '0') ++ digits

def dataFileName (fileID : Nat) : String := padID fileID ++ dataFileExtension
def hintFileName (fileID : Nat) : String := padID fileID ++ hintFileExtension

def hasSuffix (name suffix : String) : Bool := suffix.toList.isSuffixOf name.toList

/-- `strconv.ParseUint(base, 10, 64)` -/
def parseUint (base : List Char) : Option Nat :=
  if base ≠ [] ∧ base.all Char.isDigit then
    let n := base.foldl (fun n c => 10 * n + (c.toNat - '0'.toNat)) 0
    if n < 2 ^ 64 then some n else none
  else none

def parseFileID (name suffix : String) : Option Nat :=
  if hasSuffix name suffix then parseUint (name.toList.take (name.length - suffix.length)) else none

/-- A file of the directory other than the lock. -/
inductive FileName
  | data (fileID : Nat)
  | hint (fileID : Nat)
  | tmpData (fileID : Nat)
  | tmpHint (fileID : Nat)
  | other (name : String)

def FileName.name : FileName → String
  | .data id => dataFileName id
  | .hint id => hintFileName id
  | .tmpData id => dataFileName id ++ tmpFileSuffix
  | .tmpHint id => hintFileName id ++ tmpFileSuffix
  | .other name => name

namespace Disk

/-- `os.ReadDir`, sorted by name. -/
def entries (d : Disk) : List FileName :=
  (d.data.keys.map FileName.data ++ d.hint.keys.map FileName.hint ++
    d.tmpData.keys.map FileName.tmpData ++ d.tmpHint.keys.map FileName.tmpHint ++
    d.other.map FileName.other).insertionSort fun a b => a.name ≤ b.name

def remove (d : Disk) : FileName → Disk
  | .data id => { d with data := d.data.erase id }
  | .hint id => { d with hint := d.hint.erase id }
  | .tmpData id => { d with tmpData := d.tmpData.erase id }
  | .tmpHint id => { d with tmpHint := d.tmpHint.erase id }
  | .other name => { d with other := d.other.erase name }

end Disk

/-- `os.Remove`, its error dropped. -/
def removeFile (f : FileName) : Op Unit := ignore do
  call
  modifyDisk (·.remove f)

/-- The body of the loop of `validateLayout`. -/
def validateEntry (readWrite : Bool) (f : FileName) : Op Unit :=
  match f with
  | .data _ | .hint _ => return
  | .tmpData _ | .tmpHint _ => if readWrite then removeFile f else throw (.layout f.name)
  | .other name =>
    if hasSuffix name tmpFileSuffix then
      if readWrite then removeFile f else throw (.layout name)
    else if hasSuffix name dataFileExtension then
      if (parseFileID name dataFileExtension).isSome then return else throw (.layout name)
    else if hasSuffix name hintFileExtension then
      if (parseFileID name hintFileExtension).isSome then return else throw (.layout name)
    else throw (.layout name)

def validateLayout : Op Unit := do
  call
  let readWrite := (← getDB).opts.readWrite
  (← getDisk).entries.forM (validateEntry readWrite)

/-- `listDataFileIDs`: every name that reads as a data file, in the order of the IDs. -/
def listDataFileIDs : Op (List Nat) := do
  call
  let d ← getDisk
  return (d.other.filterMap (parseFileID · dataFileExtension)).foldr
    (List.orderedInsert (· ≤ ·)) d.data.keys

theorem Succeed.nil (k : Nat) : Succeed k [] := by simp [Succeed]

theorem Succeed.zero (os : List Outcome) : Succeed 0 os := by simp [Succeed]

theorem succeed_one {os : List Outcome} : Succeed 1 os ↔ os.headD .ok = .ok := by
  cases os <;> simp [Succeed]

theorem succeed_add {k l : Nat} {os : List Outcome} :
    Succeed (k + l) os ↔ Succeed k os ∧ Succeed l (os.drop k) := by
  simp only [Succeed, List.take_add, List.mem_append, or_imp, forall_and]

theorem Succeed.mono {k l : Nat} {os : List Outcome} (h : Succeed l os) (hle : k ≤ l) :
    Succeed k os :=
  fun o ho => h o (List.take_subset_take_left os hle ho)

/-! How computations run when no file-system call fails. -/

section Run

variable {α β : Type} (d : Disk) (db : DB) (w : World)

theorem bind_apply (op : Op α) (f : α → Op β) : (op >>= f) w =
    match op w with
    | .ok a w' => f a w'
    | .error e w' => .error e w' := by
  change EStateM.bind op f w = _
  unfold EStateM.bind
  cases op w <;> rfl

@[simp] theorem pure_apply (a : α) : (pure a : Op α) w = .ok a w := rfl
@[simp] theorem throw_apply (e : Err) : (throw e : Op α) w = .error e w := rfl
@[simp] theorem getDB_apply : getDB w = .ok w.db w := rfl
@[simp] theorem getDisk_apply : getDisk w = .ok w.disk w := rfl

@[simp] theorem modifyDB_apply (f : DB → DB) :
    modifyDB f w = .ok () { w with db := f w.db } := rfl

@[simp] theorem modifyDisk_apply (f : Disk → Disk) :
    modifyDisk f w = .ok () { w with disk := f w.disk } := rfl

@[simp] theorem call_apply : call ⟨d, db, []⟩ = .ok () ⟨d, db, []⟩ := rfl

theorem get_apply : (get : Op World) w = .ok w w := rfl

theorem write_ok {a : Bytes → Disk → Disk} {size : Nat} {bs : Bytes}
    (h : size + bs.length ≤ maxFileSize) :
    write a size bs ⟨d, db, []⟩ = .ok () ⟨a bs d, db, []⟩ := by
  simp [write, nextOutcome, bind_apply, h, get_apply]

theorem write_fault {a : Bytes → Disk → Disk} {size : Nat} {bs : Bytes}
    (h : maxFileSize < size + bs.length) :
    ∃ w', write a size bs ⟨d, db, []⟩ = .error .fault w' := by
  simp [write, nextOutcome, bind_apply, Nat.not_le.mpr h, get_apply]

theorem nextOutcome_apply (os : List Outcome) :
    nextOutcome ⟨d, db, os⟩ = .ok (os.headD .ok) ⟨d, db, os.drop 1⟩ := by
  cases os <;> rfl

/-- A call takes one outcome, and changes nothing else. -/
theorem call_cases (os : List Outcome) :
    Succeed 1 os ∧ call ⟨d, db, os⟩ = .ok () ⟨d, db, os.drop 1⟩ ∨
      ¬ Succeed 1 os ∧ call ⟨d, db, os⟩ = .error .fault ⟨d, db, os.drop 1⟩ := by
  cases os with
  | nil => exact Or.inl ⟨.nil 1, rfl⟩
  | cons o rest =>
    cases o with
    | ok => exact Or.inl ⟨succeed_one.mpr rfl, rfl⟩
    | fail _ => exact Or.inr ⟨by simp [succeed_one], rfl⟩

theorem write_eq (a : Bytes → Disk → Disk) (size : Nat) (bs : Bytes) (os : List Outcome) :
    write a size bs ⟨d, db, os⟩ = match shortWrite size bs.length (os.headD .ok) with
      | none => .ok () ⟨a bs d, db, os.drop 1⟩
      | some n => .error .fault ⟨a (bs.take n) d, db, os.drop 1⟩ := by
  simp only [write, bind_apply, nextOutcome_apply]
  cases ho : os.headD .ok with
  | ok =>
    by_cases hfit : size + bs.length ≤ maxFileSize
    · simp [shortWrite, hfit]
    · simp [shortWrite, hfit, bind_apply]
  | fail k =>
    simp only [shortWrite, bind_apply, modifyDisk_apply, throw_apply]
    rw [← List.take_eq_take_min]

theorem shortWrite_none {size len : Nat} {o : Outcome} (h : shortWrite size len o = none) :
    o = .ok ∧ size + len ≤ maxFileSize := by
  cases o with
  | ok =>
    by_cases hfit : size + len ≤ maxFileSize
    · exact ⟨rfl, hfit⟩
    · simp [shortWrite, hfit] at h
  | fail k => cases h

theorem shortWrite_some {size len n : Nat} {o : Outcome} (h : shortWrite size len o = some n) :
    (o ≠ .ok ∨ maxFileSize < size + len) ∧ n ≤ maxFileSize - size ∧ n ≤ len := by
  cases o with
  | ok =>
    by_cases hfit : size + len ≤ maxFileSize
    · simp [shortWrite, hfit] at h
    · simp only [shortWrite, if_neg hfit, Option.some.injEq] at h
      exact ⟨Or.inr (Nat.not_le.mp hfit), by omega⟩
  | fail k =>
    simp only [shortWrite, Option.some.injEq] at h
    exact ⟨Or.inl (by simp), by omega⟩

/-- A write appends all of its bytes, or fails and leaves some first part of them. -/
theorem write_cases (a : Bytes → Disk → Disk) (size : Nat) (bs : Bytes) (os : List Outcome) :
    shortWrite size bs.length (os.headD .ok) = none ∧
        write a size bs ⟨d, db, os⟩ = .ok () ⟨a bs d, db, os.drop 1⟩ ∨
      ∃ n, shortWrite size bs.length (os.headD .ok) = some n ∧
        write a size bs ⟨d, db, os⟩ = .error .fault ⟨a (bs.take n) d, db, os.drop 1⟩ := by
  rw [write_eq]
  cases hs : shortWrite size bs.length (os.headD .ok) with
  | none => exact Or.inl ⟨rfl, rfl⟩
  | some n => exact Or.inr ⟨n, rfl, rfl⟩

theorem onError_ok {op : Op α} {cleanup : Op Unit} {a : α} {w w' : World} (h : op w = .ok a w') :
    onError op cleanup w = .ok a w' := by
  simp [onError, tryCatch, tryCatchThe, MonadExceptOf.tryCatch, EStateM.tryCatch, h]

theorem onError_error {op : Op α} {cleanup : Op Unit} {e : Err} {w v w' : World}
    (h : op w = .error e v) (hc : cleanup v = .ok () w') :
    onError op cleanup w = .error e w' := by
  simp only [onError, tryCatch, tryCatchThe, MonadExceptOf.tryCatch, EStateM.tryCatch, h]
  change (cleanup >>= fun _ => throw e) v = _
  rw [bind_apply, hc]
  rfl

theorem attempt_of_ok {op : Op Unit} {w w' : World} (h : op w = .ok () w') :
    attempt op w = .ok none w' := by
  simp only [attempt, tryCatch, tryCatchThe, MonadExceptOf.tryCatch, EStateM.tryCatch, bind_apply,
    h]
  rfl

theorem attempt_of_error {op : Op Unit} {w w' : World} {e : Err} (h : op w = .error e w') :
    attempt op w = .ok (some e) w' := by
  simp only [attempt, tryCatch, tryCatchThe, MonadExceptOf.tryCatch, EStateM.tryCatch, bind_apply,
    h]
  rfl

theorem attempt_ok (op : Op Unit) : ∃ r w', attempt op w = .ok r w' := by
  cases h : op w with
  | ok a w' => exact ⟨_, _, attempt_of_ok h⟩
  | error e w' => exact ⟨_, _, attempt_of_error h⟩

theorem removeFile_ok (f : FileName) : ∃ w', removeFile f w = .ok () w' := by
  obtain ⟨r, w', h⟩ := attempt_ok w (do call; modifyDisk (·.remove f))
  exact ⟨w', by simp only [removeFile, ignore, bind_apply, h]; rfl⟩

theorem removeFile_cases (f : FileName) (os : List Outcome) :
    removeFile f ⟨d, db, os⟩ = .ok () ⟨d.remove f, db, os.drop 1⟩ ∨
      removeFile f ⟨d, db, os⟩ = .ok () ⟨d, db, os.drop 1⟩ := by
  simp only [removeFile, ignore, attempt, tryCatch, tryCatchThe, MonadExceptOf.tryCatch,
    EStateM.tryCatch, bind_apply]
  rcases call_cases d db os with hok | hfail
  · exact Or.inl (by simp only [hok]; rfl)
  · exact Or.inr (by simp only [hfail]; rfl)

theorem onError_fails {op : Op α} {cleanup : Op Unit} {e : Err} {w w' : World}
    (h : op w = .error e w') (hc : ∀ w, ∃ w', cleanup w = .ok () w') :
    ∃ w'', onError op cleanup w = .error e w'' := by
  obtain ⟨w'', hw⟩ := hc w'
  exact ⟨w'', onError_error h hw⟩

@[simp] theorem removeFile_apply (f : FileName) :
    removeFile f ⟨d, db, []⟩ = .ok () ⟨d.remove f, db, []⟩ := rfl

/-- A loop whose body never fails. -/
theorem forM_run (op : α → Op Unit) (d : Disk) (db : DB) {f : α → Disk → Disk} {g : α → DB → DB}
    (as : List α)
    (h : ∀ a ∈ as, ∀ d db, op a ⟨d, db, []⟩ = .ok () ⟨f a d, g a db, []⟩) :
    as.forM op ⟨d, db, []⟩ = .ok () ⟨as.foldl (fun d a => f a d) d,
      as.foldl (fun db a => g a db) db, []⟩ := by
  induction as generalizing d db with
  | nil => rfl
  | cons a as ih =>
    change (op a >>= fun _ => as.forM op) _ = _
    rw [bind_apply, h a List.mem_cons_self]
    exact ih _ _ fun b hb => h b (List.mem_cons_of_mem a hb)

end Run

end KvRaft.Store
