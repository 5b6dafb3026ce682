import KvRaft.Store.History

/-! An open store whose calls overlap with calls of `Merge`. Every other call is one step; a call of
`Merge` takes its snapshot in one step, then reads the record of a key, finds a file for it and
writes it, each in a step of its own, and publishes in its last step. -/

namespace KvRaft.Store

/-- Where a call of `Merge` stands between its steps: before the next of the keys that are left,
with the record of a key in hand, or with the file that takes it. -/
inductive Merging
  | next (run : MergeRun) (keys : List Bytes)
  | found (run : MergeRun) (key : Bytes) (rec : Record) (keys : List Bytes)
  | placed (run : MergeRun) (file : MergeFile) (key : Bytes) (rec : Record) (keys : List Bytes)

/-- The store, and the calls of `Merge` that have not returned. -/
structure Shared where
  world : World
  merges : Nat → Option Merging := fun _ => none

inductive Call
  | put (ts : Int64) (key value : Bytes)
  | delete (ts : Int64) (key : Bytes)
  | get (key : Bytes)
  | listKeys
  /-- a new call of `Merge`, named `id` -/
  | merge (id : Nat)
  /-- the next step of the call of `Merge` named `id` -/
  | resume (id : Nat)

/-- A part of a call of `Merge`: what is left of the call after it, nothing if the part returned an
error. -/
def World.part {α : Type} (op : Op α) (next : α → Option Merging) (w : World) :
    Option (Option Merging × World) :=
  match op w with
  | .ok a w' => some (next a, w')
  | .error .fault _ => none
  | .error _ w' => some (none, w')

namespace Merging

def run : Merging → MergeRun
  | .next run _ | .found run _ _ _ | .placed run _ _ _ _ => run

def start (w : World) : Option (Option Merging × World) :=
  w.part mergeSnapshot (Option.map fun run => .next run run.snapshot.keys)

def resume (w : World) : Merging → Option (Option Merging × World)
  | .next run [] => w.part (mergePublish run) fun _ => none
  | .next run (key :: keys) => w.part (mergeRead run key) fun rec => some (.found run key rec keys)
  | .found run key rec keys =>
    w.part (mergeAllocate run key rec) fun p => some (.placed p.1 p.2 key rec keys)
  | .placed run file key rec keys =>
    w.part (mergeStore run file key rec) fun run => some (.next run keys)

end Merging

namespace Shared

/-- The call of `Merge` named `id` goes on as `p.1` says. -/
def goOn (s : Shared) (id : Nat) (p : Option Merging × World) : Shared :=
  ⟨p.2, Function.update s.merges id p.1⟩

def step (s : Shared) : Call → Option Shared
  | .put ts key value => (s.world.after (put ts key value)).map ({ s with world := · })
  | .delete ts key => (s.world.after (delete ts key)).map ({ s with world := · })
  | .get key => (s.world.after (getValue key)).map ({ s with world := · })
  | .listKeys => (s.world.after listKeys).map ({ s with world := · })
  | .merge id =>
    match s.merges id with
    | none => (Merging.start s.world).map (s.goOn id)
    | some _ => none
  | .resume id =>
    match s.merges id with
    | none => none
    | some x => (x.resume s.world).map (s.goOn id)

end Shared

/-- A store that has just been opened for writing, with an empty directory. -/
def overlap : Machine Shared Call where
  initial s := s.merges = (fun _ => none) ∧
    ∃ opts : OpenOptions, World.empty.openDB { opts with readWrite := true } = some s.world
  step := Shared.step

namespace Call

/-- What the calls mean for the map from keys to values. -/
def effect (m : Bytes → Option Bytes) : Call → Bytes → Option Bytes
  | .put _ key value =>
    if value = tombstoneValue then m else Function.update m key (some value)
  | .delete _ key => Function.update m key none
  | .get _ | .listKeys | .merge _ | .resume _ => m

/-- The last value put to each key since its last delete. -/
def served (calls : List Call) : Bytes → Option Bytes := calls.foldl effect fun _ => none

/-- The sizes that the record formats can hold. -/
def Sized : Call → Prop
  | .put _ key value => 20 + key.length + value.length < 2 ^ 32
  | .delete _ key => key.length < 2 ^ 32
  | .get _ | .listKeys | .merge _ | .resume _ => True

instance : DecidablePred Sized
  | .put _ key value => inferInstanceAs (Decidable (20 + key.length + value.length < 2 ^ 32))
  | .delete _ key => inferInstanceAs (Decidable (key.length < 2 ^ 32))
  | .get _ | .listKeys | .merge _ | .resume _ => inferInstanceAs (Decidable True)

end Call

/-- The entry points at bytes of a data file that decode to a record of the key with a value. -/
def World.Locates (w : World) (k : Bytes) (e : KeyDirEntry) : Prop :=
  ∃ bs rec, w.disk.data[e.fileID]? = some bs ∧ 0 ≤ e.fileOffset ∧
    e.fileOffset.toNatClampNeg + e.recordSize.toNat ≤ bs.length ∧
    decodeDataRecord ((bs.drop e.fileOffset.toNatClampNeg).take e.recordSize.toNat) =
      .ok (rec, e.recordSize.toNat) ∧
    rec.key = k ∧ rec.tombstone = false

end KvRaft.Store
