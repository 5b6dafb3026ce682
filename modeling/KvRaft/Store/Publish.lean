import KvRaft.Store.Copy

/-! The parts of `Merge` under the lock of the `DB`: the snapshot at its start, and at its end the
renaming of the merged files, the redirection of the keydir and the removal of the old files. -/

namespace KvRaft.Store

open Std Replay

variable {segs out : Nat → Option Segment} {d d' : Disk} {db : DB} {run : MergeRun}
  {keydir : KeyDir} {rs : List Record}

/-- A call of `Merge` that has taken its snapshot. -/
def startRun (d : Disk) (db : DB) : MergeRun :=
  let ids := d.data.keys.filter (· ≠ db.activeFileID)
  ⟨ids, db.keydir.filter fun _ entry => decide (entry.fileID ∈ ids), ∅, [], none⟩

theorem mem_startRun (h : Holds segs d) {id : Nat} :
    id ∈ (startRun d db).immutableIDs ↔ segs id ≠ none ∧ id ≠ db.activeFileID := by
  simp [startRun, h.mem_keys]

theorem startRun_snapshot {k : Bytes} {e : KeyDirEntry} :
    (startRun d db).snapshot[k]? = some e ↔
      db.keydir[k]? = some e ∧ e.fileID ∈ (startRun d db).immutableIDs := by
  rw [startRun, ExtTreeMap.getElem?_filter']
  cases db.keydir[k]? with
  | none => simp
  | some e' =>
    rw [Option.filter_eq_some_iff, Option.some.injEq, decide_eq_true_iff]

theorem listDataFileIDs_run (hother : d.other = []) :
    listDataFileIDs ⟨d, db, []⟩ = .ok d.data.keys ⟨d, db, []⟩ := by
  simp only [listDataFileIDs, bind_apply, call_apply, getDisk_apply, hother, List.filterMap_nil,
    List.foldr_nil, pure_apply]

theorem mergeSnapshot_run (h : Holds segs d) (ha : Active segs db rs) :
    mergeSnapshot ⟨d, db, []⟩ =
      .ok (if (startRun d db).immutableIDs = [] then none else some (startRun d db))
        ⟨d, db, []⟩ := by
  simp only [mergeSnapshot, ensureOpen, mustReadWrite, bind_apply, getDB_apply, ha.opened,
    ha.readWrite, not_true_eq_false, Bool.false_eq_true, if_false, pure_apply,
    listDataFileIDs_run h.other]
  by_cases hids : (startRun d db).immutableIDs = []
  · rw [if_pos hids]
    exact congrFun (if_pos hids) _
  · rw [if_neg hids]
    exact congrFun (if_neg hids) _

section Redirect

theorem sameEntry_iff {a b : KeyDirEntry} : sameEntry a b = true ↔ a = b := by
  cases a
  cases b
  simp [sameEntry]

theorem redirectEntry_ne (run : MergeRun) (keydir : KeyDir) (key : Bytes) (n : KeyDirEntry)
    (a : Bytes) (ha : a ≠ key) : (redirectEntry run keydir key n)[a]? = keydir[a]? := by
  unfold redirectEntry
  split
  · split
    · exact Maps.getElem?_insert_of_ne ha
    · rfl
  · rfl

theorem redirect_moved {k : Bytes} {e n : KeyDirEntry} (hk : keydir[k]? = some e)
    (hs : run.snapshot[k]? = some e) (hn : run.mergedEntries[k]? = some n) :
    (redirect run keydir)[k]? = some n := by
  obtain ⟨m', hm', hfold⟩ := Maps.getElem?_foldl_of_some (redirectEntry_ne run) (m := keydir) hn
  rw [redirect, hfold, redirectEntry, hm', hk, hs]
  simp [sameEntry_iff.mpr]

/-- Every other key keeps what it has. -/
theorem redirect_kept {k : Bytes}
    (h : ∀ e, keydir[k]? = some e → run.snapshot[k]? = some e → run.mergedEntries[k]? = none) :
    (redirect run keydir)[k]? = keydir[k]? := by
  cases hn : run.mergedEntries[k]? with
  | none => exact Maps.getElem?_foldl_of_none (redirectEntry_ne run) hn
  | some n =>
    obtain ⟨m', hm', hfold⟩ := Maps.getElem?_foldl_of_some (redirectEntry_ne run) (m := keydir) hn
    rw [redirect, hfold, redirectEntry]
    split
    · next c e hc he =>
      rw [hm'] at hc
      by_cases hce : sameEntry c e = true
      · rw [sameEntry_iff] at hce
        subst hce
        have := h c hc he
        rw [hn] at this
        cases this
      · rw [if_neg hce, hm']
    · exact hm'

end Redirect

/-- The directory once a merged file has got its names. -/
def Disk.publish (d : Disk) (id : Nat) : Disk :=
  { d with data := d.data.insert id ((d.tmpData[id]?).getD []), tmpData := d.tmpData.erase id
           hint := d.hint.insert id ((d.tmpHint[id]?).getD []), tmpHint := d.tmpHint.erase id }

/-- The temporary files of the ID are there. -/
def Disk.Prepared (d : Disk) (id : Nat) : Prop := d.tmpData[id]? ≠ none ∧ d.tmpHint[id]? ≠ none

/-- The temporary files of `files` are there to be renamed, each once. -/
def Disk.Staged (d : Disk) (files : List Nat) : Prop := files.Nodup ∧ ∀ id ∈ files, d.Prepared id

instance (d : Disk) (files : List Nat) : Decidable (d.Staged files) :=
  inferInstanceAs (Decidable (_ ∧ ∀ id ∈ files, _ ∧ _))

theorem Disk.Staged.tail {id : Nat} {files : List Nat} (h : d.Staged (id :: files))
    (hdata : d'.tmpData = d.tmpData.erase id) (hhint : d'.tmpHint = d.tmpHint.erase id) :
    d'.Staged files := by
  obtain ⟨hid, hnodup⟩ := List.nodup_cons.mp h.1
  refine ⟨hnodup, fun i hi => ?_⟩
  have hne : i ≠ id := ne_of_mem_of_not_mem hi hid
  rw [Disk.Prepared, hdata, hhint, Maps.getElem?_erase_of_ne hne, Maps.getElem?_erase_of_ne hne]
  exact h.2 i (List.mem_cons_of_mem id hi)

theorem publishFile_run {id : Nat} (h : d.Prepared id) :
    publishFile id ⟨d, db, []⟩ = .ok () ⟨d.publish id, db, []⟩ := by
  obtain ⟨bs, hbs⟩ := Option.ne_none_iff_exists'.mp h.1
  obtain ⟨hs, hhs⟩ := Option.ne_none_iff_exists'.mp h.2
  simp [publishFile, renameData, renameHint, bind_apply, Disk.publish, hbs, hhs]

theorem forM_publishFile_run {files : List Nat} (h : d.Staged files) :
    files.forM publishFile ⟨d, db, []⟩ = .ok () ⟨files.foldl Disk.publish d, db, []⟩ := by
  induction files generalizing d with
  | nil => rfl
  | cons id files ih =>
    change (publishFile id >>= fun _ => files.forM publishFile) _ = _
    rw [bind_apply, publishFile_run (h.2 id List.mem_cons_self)]
    exact ih (h.tail rfl rfl)

/-- The directory without a segment. -/
def Disk.drop (d : Disk) (id : Nat) : Disk :=
  { d with data := d.data.erase id, hint := d.hint.erase id }

/-- The directory `d'` is `d` after the files of the call have replaced the ones it merged. -/
structure Published (d : Disk) (run : MergeRun) (out : Nat → Option Segment) (d' : Disk) :
    Prop where
  data : ∀ id, d'.data[id]? = if id ∈ run.immutableIDs then none
    else ((out id).map Segment.bytes).or d.data[id]?
  hint : ∀ id, d'.hint[id]? = if id ∈ run.immutableIDs then none
    else ((out id).map fun s => hintBytes s.records).or d.hint[id]?
  tmpData : ∀ id, d'.tmpData[id]? = if id ∈ run.mergedFiles then none else d.tmpData[id]?
  tmpHint : ∀ id, d'.tmpHint[id]? = if id ∈ run.mergedFiles then none else d.tmpHint[id]?
  present : d'.present = d.present
  other : d'.other = d.other
  locked : d'.locked = d.locked

section Files

theorem publish_getElem? {files : List Nat} (hnd : files.Nodup) (id : Nat) :
    (files.foldl Disk.publish d).data[id]? =
        (if id ∈ files then some ((d.tmpData[id]?).getD []) else d.data[id]?) ∧
      (files.foldl Disk.publish d).hint[id]? =
        (if id ∈ files then some ((d.tmpHint[id]?).getD []) else d.hint[id]?) ∧
      (files.foldl Disk.publish d).tmpData[id]? =
        (if id ∈ files then none else d.tmpData[id]?) ∧
      (files.foldl Disk.publish d).tmpHint[id]? =
        (if id ∈ files then none else d.tmpHint[id]?) := by
  induction files generalizing d with
  | nil => simp
  | cons a files ih =>
    obtain ⟨ha, hnd⟩ := List.nodup_cons.mp hnd
    obtain ⟨h₁, h₂, h₃, h₄⟩ := ih (d := d.publish a) hnd
    rw [List.foldl_cons, h₁, h₂, h₃, h₄]
    by_cases hid : id = a
    · subst hid
      simp [ha, Disk.publish]
    · simp [hid, Disk.publish, Maps.getElem?_insert_of_ne, Maps.getElem?_erase_of_ne]

theorem drop_getElem? (ids : List Nat) (id : Nat) :
    (ids.foldl Disk.drop d).data[id]? = (if id ∈ ids then none else d.data[id]?) ∧
      (ids.foldl Disk.drop d).hint[id]? = (if id ∈ ids then none else d.hint[id]?) := by
  induction ids generalizing d with
  | nil => simp
  | cons a ids ih =>
    obtain ⟨h₁, h₂⟩ := ih (d := d.drop a)
    rw [List.foldl_cons, h₁, h₂]
    by_cases hid : id = a
    · subst hid
      simp [Disk.drop]
    · simp [hid, Disk.drop, Maps.getElem?_erase_of_ne]

/-- What neither loop touches. -/
theorem foldl_publish_rest (files : List Nat) :
    (files.foldl Disk.publish d).present = d.present ∧
      (files.foldl Disk.publish d).other = d.other ∧
      (files.foldl Disk.publish d).locked = d.locked := by
  induction files generalizing d with
  | nil => exact ⟨rfl, rfl, rfl⟩
  | cons a files ih => exact ih (d := d.publish a)

theorem foldl_drop_rest (ids : List Nat) :
    ids.foldl Disk.drop d = { d with data := (ids.foldl Disk.drop d).data
                                     hint := (ids.foldl Disk.drop d).hint } := by
  induction ids generalizing d with
  | nil => rfl
  | cons a ids ih => exact ih (d := d.drop a)

theorem Copies.staged (hc : Copies d run out) : d.Staged run.mergedFiles := by
  refine ⟨hc.distinct, fun id hid => ?_⟩
  obtain ⟨s, hs⟩ := Option.ne_none_iff_exists'.mp ((hc.files id).mp hid)
  simp [Disk.Prepared, hc.data id s hs, hc.hint id s hs]

theorem Copies.published (hc : Copies d run out) :
    Published d run out
      (run.immutableIDs.foldl Disk.drop (run.mergedFiles.foldl Disk.publish d)) := by
  have hpub := publish_getElem? (d := d) hc.distinct
  have hdrop := drop_getElem? (d := run.mergedFiles.foldl Disk.publish d) run.immutableIDs
  obtain ⟨hpresent, hother, hlocked⟩ := foldl_publish_rest (d := d) run.mergedFiles
  have hrest := foldl_drop_rest (d := run.mergedFiles.foldl Disk.publish d) run.immutableIDs
  have hin : ∀ id s, out id = some s → id ∈ run.mergedFiles := fun id s hs =>
    (hc.files id).mpr (by simp [hs])
  have hout : ∀ id, out id = none → id ∉ run.mergedFiles := fun id hid hmem =>
    (hc.files id).mp hmem hid
  refine ⟨?_, ?_, ?_, ?_, ?_, ?_, ?_⟩
  · intro id
    rw [(hdrop id).1, (hpub id).1]
    congr 1
    cases hs : out id with
    | none => simp [hout id hs]
    | some s => simp [hin id s hs, hc.data id s hs]
  · intro id
    rw [(hdrop id).2, (hpub id).2.1]
    congr 1
    cases hs : out id with
    | none => simp [hout id hs]
    | some s => simp [hin id s hs, hc.hint id s hs]
  · intro id
    rw [hrest]
    exact (hpub id).2.2.1
  · intro id
    rw [hrest]
    exact (hpub id).2.2.2
  · rw [hrest]
    exact hpresent
  · rw [hrest]
    exact hother
  · rw [hrest]
    exact hlocked

end Files

/-- The removal of a segment closes its reader. -/
def DB.closeReader (db : DB) (id : Nat) : DB :=
  { db with readers := db.readers.filter (· ≠ id) }

theorem foldl_closeReader (db : DB) (ids : List Nat) :
    ∃ readers, ids.foldl DB.closeReader db = { db with readers := readers } ∧
      ∀ id ∈ readers, id ∈ db.readers ∧ id ∉ ids := by
  induction ids generalizing db with
  | nil => exact ⟨db.readers, rfl, fun id hid => ⟨hid, List.not_mem_nil⟩⟩
  | cons i ids ih =>
    obtain ⟨readers, heq, hleft⟩ := ih (db.closeReader i)
    refine ⟨readers, heq, fun id hid => ?_⟩
    obtain ⟨hmem, hnot⟩ := hleft id hid
    obtain ⟨hold, hne⟩ := List.mem_filter.mp hmem
    exact ⟨hold, List.not_mem_cons_of_ne_of_not_mem (by simpa using hne) hnot⟩

/-- Nothing can fail any more once the lock is taken and the files are there. -/
theorem mergePublish_ok (hstaged : d.Staged run.mergedFiles) (hopen : db.closed = false)
    (hrw : db.opts.readWrite = true) :
    ∃ readers, (∀ id ∈ run.immutableIDs, id ∉ readers) ∧ mergePublish run ⟨d, db, []⟩ =
      .ok () ⟨run.immutableIDs.foldl Disk.drop (run.mergedFiles.foldl Disk.publish d),
        { db with keydir := redirect run db.keydir, readers := readers }, []⟩ := by
  have hpublish : run.mergedFiles.forM publishFile ⟨d, db, []⟩ = _ := forM_publishFile_run hstaged
  have hremove := forM_run removeSegment (run.mergedFiles.foldl Disk.publish d)
    { db with keydir := redirect run db.keydir } (f := fun id d => d.drop id)
    (g := fun id db => db.closeReader id) run.immutableIDs
    fun id _ d db => by simp [removeSegment, bind_apply, Disk.drop, Disk.remove, DB.closeReader]
  obtain ⟨readers, hr, hclosed⟩ := foldl_closeReader { db with keydir := redirect run db.keydir }
    run.immutableIDs
  refine ⟨readers, fun id hid hmem => (hclosed id hmem).2 hid, onError_ok ?_⟩
  rw [hr] at hremove
  simp only [hopen] at hremove
  split <;>
  · simp only [closeAndSync, bind_apply, call_apply, ensureOpen, mustReadWrite, getDB_apply, hopen,
      hrw, not_true_eq_false, Bool.false_eq_true, if_false, pure_apply, hpublish, modifyDB_apply]
    exact hremove

theorem mergePublish_run (hc : Copies d run out) (hopen : db.closed = false)
    (hrw : db.opts.readWrite = true) : ∃ d' readers, Published d run out d' ∧
      mergePublish run ⟨d, db, []⟩ =
        .ok () ⟨d', { db with keydir := redirect run db.keydir, readers := readers }, []⟩ := by
  obtain ⟨readers, -, hok⟩ := mergePublish_ok hc.staged hopen hrw
  exact ⟨_, readers, hc.published, hok⟩

end KvRaft.Store
