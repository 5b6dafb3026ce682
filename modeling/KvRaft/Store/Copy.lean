import KvRaft.Store.Index

/-! What the parts of `Merge` do. The merged files of a call are described like the data files, by
the segments `out` that they hold; other calls may run between the parts. -/

namespace KvRaft.Store

open Std Replay

/-- The temporary files of the call hold `out`, and its `mergedEntries` are the places of the
records there. -/
structure Copies (d : Disk) (run : MergeRun) (out : Nat → Option Segment) : Prop where
  files : ∀ id, id ∈ run.mergedFiles ↔ out id ≠ none
  distinct : run.mergedFiles.Nodup
  clean : ∀ id s, out id = some s → s.tail = []
  data : ∀ id s, out id = some s → d.tmpData[id]? = some s.bytes
  hint : ∀ id s, out id = some s → d.tmpHint[id]? = some (hintBytes s.records)
  size : ∀ id s, out id = some s → s.bytes.length ≤ maxFileSize
  legal : ∀ id s, out id = some s → ∀ r ∈ s.records, r.Legal ∧ r.tombstone = false
  current : ∀ f, run.current = some f → ∃ rs, out f.fileID = some { records := rs } ∧
    f.offset = Int64.ofNat (bytesOf rs).length
  entries : ∀ k e, run.mergedEntries[k]? = some e ↔ ∃ r, At out e r ∧ r.key = k

/-- The file that takes a record: the one in use, or a new one. -/
inductive Target (d : Disk) (db : DB) (run : MergeRun) :
    MergeRun → MergeFile → Disk → DB → Prop
  | stay {f : MergeFile} (h : run.current = some f) : Target d db run run f d db
  | fresh (hmax : db.nextFileID ≠ maxFileID) : Target d db run
      { run with mergedFiles := run.mergedFiles ++ [db.nextFileID]
                 current := some ⟨db.nextFileID, 0⟩ }
      ⟨db.nextFileID, 0⟩
      { d with tmpData := d.tmpData.insert db.nextFileID []
               tmpHint := d.tmpHint.insert db.nextFileID [] }
      { db with nextFileID := db.nextFileID + 1 }

/-- The call after a copy of `r` has gone to the end of the file `id` of the records `rs`. -/
def storedRun (run : MergeRun) (id : Nat) (rs : List Record) (r : Record) : MergeRun :=
  { run with current := some ⟨id, Int64.ofNat (bytesOf (rs ++ [r])).length⟩
             mergedEntries := run.mergedEntries.insert r.key (entryOf id (bytesOf rs).length r) }

def storedDisk (d : Disk) (id : Nat) (rs : List Record) (r : Record) : Disk :=
  { d with tmpData := d.tmpData.insert id (bytesOf (rs ++ [r]))
           tmpHint := d.tmpHint.insert id (hintBytes (rs ++ [r])) }

variable {segs out : Nat → Option Segment} {d d' : Disk} {db db' : DB} {run run' : MergeRun}
  {f : MergeFile} {r : Record} {rs : List Record}

theorem hintBytes_append (rs : List Record) (r : Record) : hintBytes (rs ++ [r]) =
    hintBytes rs ++ encodeHintRecord (hintOf r (Int64.ofNat (bytesOf rs).length) r.size) := by
  simp [hintBytes, hintsFrom_append, hintsFrom]

section Run

theorem newMergeFile_run (hopen : db.closed = false) (hnext : db.nextFileID ≠ 0)
    (hmax : db.nextFileID ≠ maxFileID) :
    newMergeFile ⟨d, db, []⟩ = .ok ⟨db.nextFileID, 0⟩
      ⟨{ d with tmpData := d.tmpData.insert db.nextFileID []
                tmpHint := d.tmpHint.insert db.nextFileID [] },
        { db with nextFileID := db.nextFileID + 1 }, []⟩ := by
  simp only [newMergeFile, allocateDataFileID, DB.number, bind_apply, getDB_apply, hopen,
    Bool.false_eq_true, if_false, pure_apply, modifyDB_apply, if_neg hnext, if_neg hmax, call_apply,
    modifyDisk_apply]
  rw [onError_ok (call_apply _ _)]

theorem newMergeFile_exhausted (hopen : db.closed = false) (hmax : db.nextFileID = maxFileID) :
    newMergeFile ⟨d, db, []⟩ = .error .fault ⟨d, db, []⟩ := by
  have hnumber : db.number = maxFileID := by
    rw [DB.number, hmax, if_neg (by decide)]
  simp [newMergeFile, allocateDataFileID, bind_apply, hopen, hnumber]

theorem cleanupMergeFiles_ok (files : List Nat) (w : World) :
    ∃ w', cleanupMergeFiles files w = .ok () w' := by
  induction files generalizing w with
  | nil => exact ⟨w, rfl⟩
  | cons id files ih =>
    obtain ⟨w₁, h₁⟩ := removeFile_ok w (.tmpData id)
    obtain ⟨w₂, h₂⟩ := removeFile_ok w₁ (.tmpHint id)
    obtain ⟨w₃, h₃⟩ := ih w₂
    refine ⟨w₃, ?_⟩
    change ((do removeFile (.tmpData id); removeFile (.tmpHint id)) >>=
      fun _ => cleanupMergeFiles files) w = _
    simp only [bind_apply, h₁, h₂, h₃]

/-- The record finds a file, unless the IDs are used up. -/
theorem mergeAllocate_run (hopen : db.closed = false) (hnext : db.nextFileID ≠ 0)
    (run : MergeRun) (key : Bytes) (r : Record) :
    (∃ run' f d' db', Target d db run run' f d' db' ∧
      mergeAllocate run key r ⟨d, db, []⟩ = .ok (run', f) ⟨d', db', []⟩) ∨
      db.nextFileID = maxFileID ∧
        ∃ w, mergeAllocate run key r ⟨d, db, []⟩ = .error .fault w := by
  generalize hlen : Int64.ofNat (encodeDataRecord r.timestamp key r.value).length = len
  have htarget : (∃ run' f d' db', Target d db run run' f d' db' ∧
      mergeTarget run len ⟨d, db, []⟩ = .ok (run', f) ⟨d', db', []⟩) ∨
      db.nextFileID = maxFileID ∧
        mergeTarget run len ⟨d, db, []⟩ = .error .fault ⟨d, db, []⟩ := by
    by_cases hstay : ∃ f, run.current = some f ∧
        ¬ (f.offset + len > db.opts.maxDataFileSizeBytes ∧ f.offset > 0)
    · obtain ⟨f, hc, hfull⟩ := hstay
      refine Or.inl ⟨_, _, _, _, .stay hc, ?_⟩
      simp [mergeTarget, bind_apply, hc, if_neg hfull]
    have hnew : mergeTarget run len ⟨d, db, []⟩ = (do
        let file ← newMergeFile
        return ({ run with mergedFiles := run.mergedFiles ++ [file.fileID], current := file },
          file)) ⟨d, db, []⟩ := by
      cases hc : run.current with
      | none => simp only [mergeTarget, bind_apply, getDB_apply, hc]
      | some f =>
        have hfull : f.offset + len > db.opts.maxDataFileSizeBytes ∧ f.offset > 0 := by
          by_contra hnot
          exact hstay ⟨f, hc, hnot⟩
        simp only [mergeTarget, bind_apply, getDB_apply, hc, if_pos hfull, closeAndSync, call_apply]
    rw [hnew, bind_apply]
    by_cases hmax : db.nextFileID = maxFileID
    · exact Or.inr ⟨hmax, by rw [newMergeFile_exhausted hopen hmax]⟩
    · exact Or.inl ⟨_, _, _, _, .fresh hmax, by rw [newMergeFile_run hopen hnext hmax]; rfl⟩
  rw [mergeAllocate, hlen]
  rcases htarget with ⟨run', f, d', db', ht, hok⟩ | ⟨hmax, hfault⟩
  · exact Or.inl ⟨run', f, d', db', ht, onError_ok hok⟩
  · exact Or.inr ⟨hmax, onError_fails hfault (cleanupMergeFiles_ok run.mergedFiles)⟩

/-- The copy is written, unless one of the files outgrows the file system. -/
theorem mergeStore_run (db : DB) (hc : Copies d run out) (hf : run.current = some f)
    (hout : out f.fileID = some { records := rs }) (ht : r.tombstone = false) :
    ((bytesOf (rs ++ [r])).length ≤ maxFileSize ∧ mergeStore run f r.key r ⟨d, db, []⟩ =
        .ok (storedRun run f.fileID rs r) ⟨storedDisk d f.fileID rs r, db, []⟩) ∨
      ∃ w, mergeStore run f r.key r ⟨d, db, []⟩ = .error .fault w := by
  have hdata : d.tmpData[f.fileID]? = some (bytesOf rs) := by
    simpa [Segment.bytes] using hc.data _ _ hout
  have hhint : d.tmpHint[f.fileID]? = some (hintBytes rs) := hc.hint _ _ hout
  obtain ⟨rs', hrs', hoff⟩ := hc.current f hf
  obtain rfl : rs = rs' := by
    rw [hout, Option.some.injEq, Segment.mk.injEq] at hrs'
    exact hrs'.1
  have hrec : HintRecord.mk r.timestamp r.key f.offset (UInt32.ofNat r.size) false =
      hintOf r (Int64.ofNat (bytesOf rs).length) r.size := by
    simp [hintOf, hoff, ht]
  have hfails : (∃ w, mergeAppend run f r.key r ⟨d, db, []⟩ = .error .fault w) →
      ∃ w, mergeStore run f r.key r ⟨d, db, []⟩ = .error .fault w := by
    rintro ⟨w, hw⟩
    exact onError_fails hw (cleanupMergeFiles_ok run.mergedFiles)
  have henc : encodeDataRecord r.timestamp r.key r.value = r.encode := rfl
  by_cases hfit : (bytesOf rs).length + r.encode.length ≤ maxFileSize
  · by_cases hfit' : (hintBytes rs).length +
        (encodeHintRecord (hintOf r (Int64.ofNat (bytesOf rs).length) r.size)).length ≤ maxFileSize
    · refine Or.inl ⟨by simpa using hfit, onError_ok ?_⟩
      simp only [mergeAppend, bind_apply, getDisk_apply, henc, hdata, Option.getD_some,
        Record.length_encode, hrec]
      rw [write_ok d db (by simpa using hfit)]
      simp only [hhint, Option.getD_some]
      rw [write_ok _ db hfit']
      simp [Maps.modify_eq_insert hdata, Maps.modify_eq_insert hhint, storedRun, storedDisk,
        hintBytes_append, hoff, entryOf, ← Int64.ofNat_add]
    · refine Or.inr (hfails ?_)
      simp only [mergeAppend, bind_apply, getDisk_apply, henc, hdata, Option.getD_some,
        Record.length_encode, hrec]
      rw [write_ok d db (by simpa using hfit)]
      simp only [hhint, Option.getD_some]
      obtain ⟨w, hw⟩ := write_fault (a := fun bs d =>
        { d with tmpHint := d.tmpHint.modify f.fileID (· ++ bs) })
        { d with tmpData := d.tmpData.modify f.fileID (· ++ r.encode) } db (Nat.not_le.mp hfit')
      exact ⟨w, by rw [hw]⟩
  · refine Or.inr (hfails ?_)
    simp only [mergeAppend, bind_apply, getDisk_apply, henc, hdata, Option.getD_some]
    obtain ⟨w, hw⟩ := write_fault (a := fun bs d =>
      { d with tmpData := d.tmpData.modify f.fileID (· ++ bs) }) d db (Nat.not_le.mp hfit)
    exact ⟨w, by rw [hw]⟩

/-- The directory without the temporary files of a call. -/
def Disk.clean (d : Disk) (files : List Nat) : Disk :=
  files.foldl (fun d id => (d.remove (.tmpData id)).remove (.tmpHint id)) d

theorem clean_getElem? (files : List Nat) (id : Nat) :
    (d.clean files).tmpData[id]? = (if id ∈ files then none else d.tmpData[id]?) ∧
      (d.clean files).tmpHint[id]? = (if id ∈ files then none else d.tmpHint[id]?) := by
  induction files generalizing d with
  | nil => simp [Disk.clean]
  | cons a files ih =>
    obtain ⟨h₁, h₂⟩ := ih (d := (d.remove (.tmpData a)).remove (.tmpHint a))
    rw [Disk.clean, List.foldl_cons, ← Disk.clean, h₁, h₂]
    by_cases hid : id = a
    · subst hid
      simp [Disk.remove]
    · simp [hid, Disk.remove, Maps.getElem?_erase_of_ne]

theorem clean_rest (files : List Nat) :
    d.clean files = { d with tmpData := (d.clean files).tmpData
                             tmpHint := (d.clean files).tmpHint } := by
  induction files generalizing d with
  | nil => rfl
  | cons a files ih => exact ih (d := (d.remove (.tmpData a)).remove (.tmpHint a))

theorem cleanupMergeFiles_run (files : List Nat) :
    cleanupMergeFiles files ⟨d, db, []⟩ = .ok () ⟨d.clean files, db, []⟩ := by
  have := forM_run (fun id => do removeFile (.tmpData id); removeFile (.tmpHint id)) d db
    (f := fun id d => (d.remove (.tmpData id)).remove (.tmpHint id)) (g := fun _ db => db)
    files fun id _ d db => by simp [bind_apply]
  rw [cleanupMergeFiles, this, List.foldl_fixed, Disk.clean]

theorem mergeRead_run (h : Holds segs d) (hopen : db.closed = false) {e : KeyDirEntry}
    (hs : run.snapshot[r.key]? = some e) (hat : At segs e r) (ht : r.tombstone = false) :
    mergeRead run r.key ⟨d, db, []⟩ = .ok r ⟨d, db.reading e.fileID, []⟩ := by
  refine onError_ok ?_
  rw [hs]
  exact readRecordAtEntry_run h hopen hat ht

theorem mergeRead_removed (hopen : db.closed = false) {e : KeyDirEntry} {key : Bytes}
    (hs : run.snapshot[key]? = some e) (hd : d.data[e.fileID]? = none) :
    ∃ err, err ≠ .fault ∧
      mergeRead run key ⟨d, db, []⟩ = .error err ⟨d.clean run.mergedFiles, db, []⟩ := by
  obtain ⟨err, hne, hread⟩ := readRecordAtEntry_removed hopen hd key
  refine ⟨err, hne, onError_error (v := ⟨d, db, []⟩) ?_ (cleanupMergeFiles_run run.mergedFiles)⟩
  rw [hs]
  exact hread

end Run

/-! How the description of the temporary files changes with them. -/

namespace Copies

/-- Only the temporary files of the call matter. -/
theorem frame (hc : Copies d run out)
    (hdata : ∀ id, out id ≠ none → d'.tmpData[id]? = d.tmpData[id]?)
    (hhint : ∀ id, out id ≠ none → d'.tmpHint[id]? = d.tmpHint[id]?) : Copies d' run out :=
  { hc with
    data := fun id s hs => by rw [hdata id (by simp [hs]), hc.data id s hs]
    hint := fun id s hs => by rw [hhint id (by simp [hs]), hc.hint id s hs] }

theorem start (d : Disk) (ids : List Nat) (snapshot : KeyDir) :
    Copies d ⟨ids, snapshot, ∅, [], none⟩ fun _ => none where
  files := by simp
  distinct := List.nodup_nil
  clean := nofun
  data := nofun
  hint := nofun
  size := nofun
  legal := nofun
  current := nofun
  entries := by simp [At]

/-- `none` in `out` means that the ID is not one of the call. -/
theorem ne_of_none (hc : Copies d run out) {id : Nat} (h : out id = none) :
    ∀ i ∈ run.mergedFiles, i ≠ id := by
  rintro i hi rfl
  exact (hc.files i).mp hi h

theorem fresh (hc : Copies d run out) {id : Nat} (hid : out id = none) :
    Copies { d with tmpData := d.tmpData.insert id [], tmpHint := d.tmpHint.insert id [] }
      { run with mergedFiles := run.mergedFiles ++ [id], current := some ⟨id, 0⟩ }
      (Function.update out id (some { records := [] })) where
  files i := by
    by_cases hi : i = id
    · simp [hi]
    · simp [hi, hc.files i]
  distinct := by
    refine List.nodup_append.mpr ⟨hc.distinct, by simp, ?_⟩
    intro i hi j hj
    rw [List.mem_singleton.mp hj]
    exact hc.ne_of_none hid i hi
  clean := forall_update (fun i s _ => hc.clean i s) rfl
  data := by
    refine forall_update (fun i s hi hs => ?_) (by simp [Segment.bytes])
    rw [Maps.getElem?_insert_of_ne hi]
    exact hc.data i s hs
  hint := by
    refine forall_update (fun i s hi hs => ?_) (by simp [hintBytes, hintsFrom])
    rw [Maps.getElem?_insert_of_ne hi]
    exact hc.hint i s hs
  size := forall_update (fun i s _ => hc.size i s) (by simp [Segment.bytes])
  legal := forall_update (fun i s _ => hc.legal i s) (by simp)
  current f hf := by
    rw [Option.some.injEq] at hf
    subst hf
    exact ⟨[], by simp, rfl⟩
  entries k e := by
    rw [hc.entries]
    refine exists_congr fun r => and_congr_left fun _ => ⟨fun h => ?_, At.of_empty⟩
    refine h.grow (Grows.update fun s₀ hs₀ => ?_)
    rw [hid] at hs₀
    cases hs₀

theorem stored (hc : Copies d run out) {id : Nat} (hout : out id = some { records := rs })
    (hr : r.Legal) (ht : r.tombstone = false) (hsize : (bytesOf (rs ++ [r])).length ≤ maxFileSize)
    (hnew : run.mergedEntries[r.key]? = none) :
    Copies (storedDisk d id rs r) (storedRun run id rs r)
      (Function.update out id (some { records := rs ++ [r] })) where
  files i := by
    change i ∈ run.mergedFiles ↔ _
    rw [hc.files i]
    by_cases hi : i = id
    · simp [hi, hout]
    · rw [Function.update_of_ne hi]
  distinct := hc.distinct
  clean := forall_update (fun i s _ => hc.clean i s) rfl
  data := by
    refine forall_update (fun i s hi hs => ?_) (by simp [storedDisk, Segment.bytes])
    rw [← hc.data i s hs]
    exact Maps.getElem?_insert_of_ne hi
  hint := by
    refine forall_update (fun i s hi hs => ?_) (by simp [storedDisk])
    rw [← hc.hint i s hs]
    exact Maps.getElem?_insert_of_ne hi
  size := forall_update (fun i s _ => hc.size i s) (by simpa [Segment.bytes] using hsize)
  legal := by
    refine forall_update (fun i s _ => hc.legal i s) fun r' hr' => ?_
    rcases List.mem_append.mp hr' with hold | hlast
    · exact hc.legal id _ hout r' hold
    · rw [List.mem_singleton.mp hlast]
      exact ⟨hr, ht⟩
  current f hf := by
    obtain rfl := Option.some.inj hf
    exact ⟨rs ++ [r], by simp, rfl⟩
  entries k e := by
    have hgrows : Grows out (Function.update out id (some { records := rs ++ [r] })) := by
      refine Grows.update fun s₀ hs₀ => ?_
      rw [hout, Option.some.injEq] at hs₀
      rw [← hs₀]
      exact List.prefix_append rs [r]
    constructor
    · intro he
      by_cases hk : k = r.key
      · subst hk
        rw [storedRun, ExtTreeMap.getElem?_insert_self, Option.some.injEq] at he
        exact ⟨r, he ▸ At.last out id rs r, rfl⟩
      · rw [storedRun, Maps.getElem?_insert_of_ne hk] at he
        obtain ⟨r', hat, hkey⟩ := (hc.entries k e).mp he
        exact ⟨r', hat.grow hgrows, hkey⟩
    · rintro ⟨r', hat, rfl⟩
      rcases hat.of_append hout with hold | ⟨rfl, rfl⟩
      · have hold' := (hc.entries r'.key e).mpr ⟨r', hold, rfl⟩
        have hk : r'.key ≠ r.key := by
          intro h
          rw [h, hnew] at hold'
          cases hold'
        rw [storedRun, Maps.getElem?_insert_of_ne hk]
        exact hold'
      · rw [storedRun, ExtTreeMap.getElem?_insert_self]

end Copies

end KvRaft.Store
