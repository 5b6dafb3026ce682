import KvRaft.Lib.Machine
import KvRaft.Store.Merge

/-! Histories of one directory: sessions that open it for writing, write, merge and close it, or end
in a crash. No file-system call fails; a run ends where a file would outgrow the file system. -/

namespace KvRaft.Store

open Std

inductive Event
  | open (opts : OpenOptions)
  | put (ts : Int64) (key value : Bytes)
  | delete (ts : Int64) (key : Bytes)
  | merge
  | close
  /-- the process dies when the first `cut` bytes of the record of a `Put` or `Delete` have reached
  the active file -/
  | crash (rec : Record) (cut : Nat)

namespace Event

def isMerge : Event → Bool
  | .merge => true
  | _ => false

def isCrash : Event → Bool
  | .crash _ _ => true
  | _ => false

end Event

namespace World

/-- The state after a call, unless the file system failed it. -/
def after {α : Type} (op : Op α) (w : World) : Option World :=
  match op w with
  | .ok _ w' => some w'
  | .error .fault _ => none
  | .error _ w' => some w'

/-- The state after a call that returned no error. -/
def returned {α : Type} (op : Op α) (w : World) : Option World :=
  match op w with
  | .ok _ w' => some w'
  | .error _ _ => none

/-- The state after a call that returned an error. -/
def failed {α : Type} (op : Op α) (w : World) : Option World :=
  match op w with
  | .ok _ _ => none
  | .error _ w' => some w'

section After

variable {α : Type} {op : Op α} {w w' : World}

theorem after_ok {a : α} (h : op w = .ok a w') : w.after op = some w' := by
  rw [after, h]

theorem after_fault (h : ∃ w', op w = .error .fault w') : w.after op = none := by
  obtain ⟨w', h⟩ := h
  rw [after, h]

theorem after_error {err : Err} (h : op w = .error err w') (hne : err ≠ .fault) :
    w.after op = some w' := by
  rw [after, h]
  cases err with
  | fault => exact absurd rfl hne
  | _ => rfl

theorem returned_ok {a : α} (h : op w = .ok a w') : w.returned op = some w' := by
  rw [returned, h]

theorem of_returned (h : w.returned op = some w') : ∃ a, op w = .ok a w' := by
  unfold returned at h
  split at h
  · next a v hok =>
    cases h
    exact ⟨a, hok⟩
  · cases h

theorem of_failed (h : w.failed op = some w') : ∃ err, op w = .error err w' := by
  unfold failed at h
  split at h
  · cases h
  · next err v herr =>
    cases h
    exact ⟨err, herr⟩

end After

/-- What a process leaves behind when it dies. -/
def die (w : World) : World :=
  { w with disk := { w.disk with locked := false }
           db := { w.db with closed := true, activeFile := .none, lockFile := false } }

/-- `OpenWithOptions`: on an error there is no new `DB`. -/
def openDB (opts : OpenOptions) (w : World) : Option World :=
  match openWithOptions opts w with
  | .ok _ w' => some w'
  | .error .fault _ => none
  | .error _ w' => some { w' with db := w.db }

def step (w : World) : Event → Option World
  | .open opts => if w.db.closed then w.openDB { opts with readWrite := true } else none
  | .put ts key value => w.after (put ts key value)
  | .delete ts key => w.after (delete ts key)
  | .merge => w.after merge
  | .close => w.after close
  | .crash rec cut =>
    if ¬ w.db.closed ∧ cut < rec.size then do
      let w ← w.returned (makeRoom (Int64.ofNat rec.size))
      let w ← w.returned (writeActive (rec.encode.take cut))
      return w.die
    else none

/-- An empty directory that nobody has opened. -/
def empty : World where
  disk := {}
  db := { newDB { readWrite := true } with closed := true }

end World

/-- The histories that start with an empty directory. -/
def store : Machine World Event where
  initial w := w = World.empty
  step := World.step

end KvRaft.Store
