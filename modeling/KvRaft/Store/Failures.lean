import KvRaft.Lib.Maps
import KvRaft.Store.Effects
import KvRaft.Store.Overlap
import KvRaft.Store.Publish

/-! What the parts of `Merge` change when a call of the file system fails in them: temporary files,
and in the last part, after its first rename, the files and the keydir. -/

namespace KvRaft.Store

open Std Effects

variable {α β : Type} {w w' v : World} {run : MergeRun}

/-- The part of the state that a call of `Merge` that fails has to leave alone. -/
structure Untouched (w w' : World) : Prop where
  keydir : w'.db.keydir = w.db.keydir
  data : w'.disk.data = w.disk.data
  hint : w'.disk.hint = w.disk.hint

/-- Every temporary file of `d'` is one of `d` or has its ID in `new`. -/
def Disk.Temporary (d d' : Disk) (new : List Nat) : Prop :=
  ∀ id, (d'.tmpData[id]? ≠ none → d.tmpData[id]? ≠ none ∨ id ∈ new) ∧
    (d'.tmpHint[id]? ≠ none → d.tmpHint[id]? ≠ none ∨ id ∈ new)

theorem Untouched.refl (w : World) : Untouched w w := ⟨rfl, rfl, rfl⟩

theorem Untouched.trans (h : Untouched w v) (h' : Untouched v w') : Untouched w w' :=
  ⟨h'.keydir.trans h.keydir, h'.data.trans h.data, h'.hint.trans h.hint⟩

theorem Disk.Temporary.refl (d : Disk) (new : List Nat) : d.Temporary d new :=
  fun _ => ⟨Or.inl, Or.inl⟩

theorem Disk.Temporary.trans {d d' d'' : Disk} {new : List Nat} (h : d.Temporary d' new)
    (h' : d'.Temporary d'' new) : d.Temporary d'' new := by
  intro id
  refine ⟨fun hne => ?_, fun hne => ?_⟩
  · rcases (h' id).1 hne with h₁ | h₁
    · exact (h id).1 h₁
    · exact Or.inr h₁
  · rcases (h' id).2 hne with h₁ | h₁
    · exact (h id).2 h₁
    · exact Or.inr h₁

/-! ### Operations that change no data file, no hint file and no entry -/

/-- The files and the keydir are the same, and there is no new temporary file. -/
def Hushed (w w' : World) : Prop := Untouched w w' ∧ w.disk.Temporary w'.disk []

instance : Std.Refl Hushed where
  refl w := ⟨.refl w, .refl _ _⟩

instance : IsTrans World Hushed where
  trans _ _ _ h h' := ⟨h.1.trans h'.1, h.2.trans h'.2⟩

theorem hushed_calls (w : World) : Hushed w { w with outcomes := w.outcomes.drop 1 } :=
  ⟨⟨rfl, rfl, rfl⟩, .refl _ _⟩

theorem opensReaders_hushed : OpensReaders Hushed :=
  fun _ _ _ => ⟨⟨rfl, rfl, rfl⟩, .refl _ _⟩

theorem Disk.temporary_remove (d : Disk) (f : FileName) : d.Temporary (d.remove f) [] := by
  cases f with
  | tmpData i => exact fun _ => ⟨fun hne => Or.inl (Maps.getElem?_erase_ne_none hne), Or.inl⟩
  | tmpHint i => exact fun _ => ⟨Or.inl, fun hne => Or.inl (Maps.getElem?_erase_ne_none hne)⟩
  | _ => exact fun _ => ⟨Or.inl, Or.inl⟩

theorem hushed_removeFile {f : FileName} (hdata : ∀ d : Disk, (d.remove f).data = d.data)
    (hhint : ∀ d : Disk, (d.remove f).hint = d.hint) : Within Hushed (removeFile f) :=
  within_removeFile hushed_calls fun w =>
    ⟨⟨rfl, hdata w.disk, hhint w.disk⟩, w.disk.temporary_remove f⟩

theorem hushed_cleanupMergeFiles (files : List Nat) : Within Hushed (cleanupMergeFiles files) :=
  .forM fun _ _ => .bind (hushed_removeFile (fun _ => rfl) fun _ => rfl) fun _ =>
    hushed_removeFile (fun _ => rfl) fun _ => rfl

theorem hushed_closeAndSync : Within Hushed closeAndSync := within_closeAndSync hushed_calls

theorem hushed_write {a : Bytes → Disk → Disk} (hdata : ∀ bs d, (a bs d).data = d.data)
    (hhint : ∀ bs d, (a bs d).hint = d.hint)
    (htmp : ∀ bs (d : Disk), d.Temporary (a bs d) []) (size : Nat) (bs : Bytes) :
    Within Hushed (write a size bs) :=
  within_write fun w bs => ⟨⟨rfl, hdata bs w.disk, hhint bs w.disk⟩, htmp bs w.disk⟩

/-! ### The parts of a call -/

theorem Disk.temporary_modifyData (d : Disk) (i : Nat) (f : Bytes → Bytes) :
    d.Temporary { d with tmpData := d.tmpData.modify i f } [] :=
  fun _ => ⟨fun hne => Or.inl fun hnone => hne (Maps.getElem?_modify_eq_none.mpr hnone), Or.inl⟩

theorem Disk.temporary_modifyHint (d : Disk) (i : Nat) (f : Bytes → Bytes) :
    d.Temporary { d with tmpHint := d.tmpHint.modify i f } [] :=
  fun _ => ⟨Or.inl, fun hne => Or.inl fun hnone => hne (Maps.getElem?_modify_eq_none.mpr hnone)⟩

theorem hushed_mergeAppend (run : MergeRun) (file : MergeFile) (key : Bytes) (r : Record) :
    Within Hushed (mergeAppend run file key r) := by
  refine .bind within_getDisk fun _ => .bind (hushed_write ?_ ?_ ?_ _ _)
    fun _ => .bind within_getDisk fun _ => .bind (hushed_write ?_ ?_ ?_ _ _) fun _ => .pure _
  · exact fun _ _ => rfl
  · exact fun _ _ => rfl
  · exact fun _ d => d.temporary_modifyData _ _
  · exact fun _ _ => rfl
  · exact fun _ _ => rfl
  · exact fun _ d => d.temporary_modifyHint _ _

theorem mergeAppend_ok {file : MergeFile} {key : Bytes} {r : Record} {run' : MergeRun}
    (h : mergeAppend run file key r w = .ok run' w') :
    run'.mergedFiles = run.mergedFiles ∧ run'.immutableIDs = run.immutableIDs := by
  obtain ⟨_, v₁, -, h⟩ := of_bind_apply_ok h
  obtain ⟨_, v₂, -, h⟩ := of_bind_apply_ok h
  obtain ⟨_, v₃, -, h⟩ := of_bind_apply_ok h
  obtain ⟨_, v₄, -, h⟩ := of_bind_apply_ok h
  cases h
  exact ⟨rfl, rfl⟩

/-- The record of `key` as the snapshot has it. -/
def snapshotRecord (run : MergeRun) (key : Bytes) : Op Record :=
  match run.snapshot[key]? with
  | some entry => readRecordAtEntry key entry
  | none => throw .notExist

theorem within_snapshotRecord {R : World → World → Prop} [Std.Refl R] [IsTrans World R]
    (hcall : ∀ w : World, R w { w with outcomes := w.outcomes.drop 1 })
    (hreaders : OpensReaders R) (run : MergeRun) (key : Bytes) :
    Within R (snapshotRecord run key) := by
  unfold snapshotRecord
  split
  · exact within_readRecordAtEntry hcall hreaders _ _
  · exact .throw _

theorem hushed_snapshotRecord (run : MergeRun) (key : Bytes) :
    Within Hushed (snapshotRecord run key) :=
  within_snapshotRecord hushed_calls opensReaders_hushed run key

def Outcome.failed : Outcome → Bool
  | .ok => false
  | .fail _ => true

/-- The first of the calls that fails. -/
def firstFailure (os : List Outcome) : Option Nat := os.findIdx? Outcome.failed

/-- Every call but the first that fails succeeds. -/
def FailsOnce (os : List Outcome) : Prop := os.countP Outcome.failed ≤ 1

instance (os : List Outcome) : Decidable (FailsOnce os) := inferInstanceAs (Decidable (_ ≤ _))

theorem of_bind_apply_error {op : Op α} {f : α → Op β} {e : Err}
    (h : (op >>= f) w = .error e w') :
    op w = .error e w' ∨ ∃ a v, op w = .ok a v ∧ f a v = .error e w' := by
  rw [bind_apply] at h
  cases hop : op w with
  | ok a v =>
    rw [hop] at h
    exact Or.inr ⟨a, v, rfl, h⟩
  | error e' v =>
    rw [hop] at h
    obtain ⟨rfl, rfl⟩ := EStateM.Result.error.inj h
    exact Or.inl rfl

theorem of_onError_ok {op : Op α} {cleanup : Op Unit} {a : α}
    (h : onError op cleanup w = .ok a w') : op w = .ok a w' := by
  simp only [onError, tryCatch, tryCatchThe, MonadExceptOf.tryCatch, EStateM.tryCatch] at h
  cases hop : op w with
  | ok b v =>
    rw [hop] at h
    exact h
  | error e v =>
    rw [hop] at h
    have hthrows : (cleanup >>= fun _ => throw e) v = .ok a w' := h
    obtain ⟨_, _, -, hthrow⟩ := of_bind_apply_ok hthrows
    cases hthrow

theorem call_error {e : Err} (h : call w = .error e w') :
    ∃ n rest, w.outcomes = .fail n :: rest ∧ w' = { w with outcomes := rest } := by
  obtain ⟨d, db, os⟩ := w
  rcases os with _ | ⟨o, rest⟩
  · cases h
  · cases o with
    | ok => cases h
    | fail n =>
      obtain ⟨-, rfl⟩ := EStateM.Result.error.inj h
      exact ⟨n, rest, rfl, rfl⟩

/-- A call that succeeds takes one outcome, which is no failure. -/
theorem call_returns (h : call w = .ok () w') : ∃ os, w' = { w with outcomes := os } ∧
    firstFailure w.outcomes = (firstFailure os).map (· + 1) ∧
    (FailsOnce w.outcomes → FailsOnce os) := by
  obtain ⟨d, db, os⟩ := w
  rcases os with _ | ⟨o, rest⟩
  · obtain ⟨-, rfl⟩ := EStateM.Result.ok.inj h
    exact ⟨[], rfl, rfl, id⟩
  · cases o with
    | ok =>
      obtain ⟨-, rfl⟩ := EStateM.Result.ok.inj h
      exact ⟨rest, rfl, by simp [firstFailure, List.findIdx?_cons, Outcome.failed], by
        simp [FailsOnce, Outcome.failed]⟩
    | fail n => cases h

theorem FailsOnce.rest {n : Nat} {rest : List Outcome} (h : FailsOnce (.fail n :: rest)) :
    ∀ o ∈ rest, o.failed = false := by
  intro o ho
  rw [FailsOnce, List.countP_cons_of_pos (by rfl)] at h
  have hnone : rest.countP Outcome.failed = 0 := by omega
  exact Bool.eq_false_iff.mpr (List.countP_eq_zero.mp hnone o ho)

/-- With no failure to come, a file is removed. -/
theorem removeFile_calm (f : FileName) (h : ∀ o ∈ w.outcomes, o.failed = false) :
    removeFile f w = .ok () { w with disk := w.disk.remove f, outcomes := w.outcomes.drop 1 } := by
  obtain ⟨d, db, os⟩ := w
  rcases os with _ | ⟨o, rest⟩
  · rfl
  · have ho := h o List.mem_cons_self
    cases o with
    | ok => rfl
    | fail n => cases ho

/-- An operation that cleans up returns what it returns without, in the state where it stopped or
after the cleanup. -/
theorem onError_cases (op : Op α) {cleanup : Op Unit} (hc : ∀ v, ∃ v', cleanup v = .ok () v')
    (w : World) :
    (∃ a v, op w = .ok a v ∧ onError op cleanup w = .ok a v) ∨
      ∃ e v, op w = .error e v ∧ onError op cleanup w = .error e (left cleanup v) := by
  cases hop : op w with
  | ok a v => exact Or.inl ⟨a, v, rfl, onError_ok hop⟩
  | error e v =>
    obtain ⟨v', hv⟩ := hc v
    exact Or.inr ⟨e, v, rfl, left_ok hv ▸ onError_error hop hv⟩

theorem Disk.temporary_insertData (d : Disk) (i : Nat) (bs : Bytes) :
    d.Temporary { d with tmpData := d.tmpData.insert i bs } [i] := by
  refine fun id => ⟨fun hne => ?_, Or.inl⟩
  by_cases hi : id = i
  · exact Or.inr (List.mem_singleton.mpr hi)
  · rw [Maps.getElem?_insert_of_ne hi] at hne
    exact Or.inl hne

theorem Disk.temporary_insertHint (d : Disk) (i : Nat) (bs : Bytes) :
    d.Temporary { d with tmpHint := d.tmpHint.insert i bs } [i] := by
  refine fun id => ⟨Or.inl, fun hne => ?_⟩
  by_cases hi : id = i
  · exact Or.inr (List.mem_singleton.mpr hi)
  · rw [Maps.getElem?_insert_of_ne hi] at hne
    exact Or.inl hne

theorem allocateDataFileID_cases (w : World) : (∃ e, allocateDataFileID w = .error e w) ∨
    w.db.number ≠ maxFileID ∧ allocateDataFileID w =
      .ok w.db.number { w with db := { w.db with nextFileID := w.db.number + 1 } } := by
  by_cases hclosed : w.db.closed = true
  · exact Or.inl ⟨.closed, by simp [allocateDataFileID, bind_apply, hclosed]⟩
  by_cases hmax : w.db.number = maxFileID
  · exact Or.inl ⟨.fault, by simp [allocateDataFileID, bind_apply, hclosed, hmax]⟩
  · refine Or.inr ⟨hmax, ?_⟩
    simp only [allocateDataFileID, bind_apply, getDB_apply, if_neg hclosed, if_neg hmax]
    rfl

theorem newMergeFile_ok {file : MergeFile} (h : newMergeFile w = .ok file w') :
    Untouched w w' ∧ w.disk.Temporary w'.disk [file.fileID] := by
  obtain ⟨_, v₁, h₁, h⟩ := of_bind_apply_ok h
  rcases allocateDataFileID_cases w with ⟨e, hall⟩ | ⟨-, hall⟩
  · cases hall.symm.trans h₁
  generalize w.db.number = id at hall
  obtain ⟨rfl, rfl⟩ := EStateM.Result.ok.inj (hall.symm.trans h₁)
  obtain ⟨_, v₂, h₂, h⟩ := of_bind_apply_ok h
  obtain ⟨os, rfl, -⟩ := call_returns h₂
  obtain ⟨_, v₃, h₃, h⟩ := of_bind_apply_ok h
  obtain ⟨-, rfl⟩ := EStateM.Result.ok.inj h₃
  obtain ⟨_, v₄, h₄, h⟩ := of_bind_apply_ok h
  rcases onError_cases call (removeFile_ok · (.tmpData id)) _ with
    ⟨_, v, hcall, hall⟩ | ⟨e, v, -, hall⟩
  · obtain ⟨-, rfl⟩ := EStateM.Result.ok.inj (hall.symm.trans h₄)
    obtain ⟨os', rfl, -⟩ := call_returns hcall
    obtain ⟨rfl, rfl⟩ := EStateM.Result.ok.inj h
    exact ⟨⟨rfl, rfl, rfl⟩,
      (Disk.temporary_insertData _ id []).trans (Disk.temporary_insertHint _ id [])⟩
  · cases hall.symm.trans h₄

theorem newMergeFile_error {e : Err} (h : newMergeFile w = .error e w') :
    Untouched w w' ∧ (FailsOnce w.outcomes → w.disk.Temporary w'.disk []) := by
  rcases allocateDataFileID_cases w with ⟨e', hall⟩ | ⟨-, hall⟩
  · rcases of_bind_apply_error h with h₁ | ⟨_, v₁, h₁, -⟩
    · obtain ⟨-, rfl⟩ := EStateM.Result.error.inj (hall.symm.trans h₁)
      exact ⟨.refl w, fun _ => .refl _ _⟩
    · cases hall.symm.trans h₁
  generalize w.db.number = id at hall
  rw [newMergeFile, bind_apply, hall] at h
  rcases of_bind_apply_error h with h₂ | ⟨_, v₂, h₂, h⟩
  · obtain ⟨n, rest, -, rfl⟩ := call_error h₂
    exact ⟨⟨rfl, rfl, rfl⟩, fun _ => .refl _ _⟩
  obtain ⟨os, rfl, -, honce⟩ := call_returns h₂
  rcases of_bind_apply_error h with h₃ | ⟨_, v₃, h₃, h⟩
  · cases h₃
  obtain ⟨-, rfl⟩ := EStateM.Result.ok.inj h₃
  rcases of_bind_apply_error h with h₄ | ⟨_, v₄, -, h⟩
  · rcases onError_cases call (removeFile_ok · (.tmpData id)) _ with
      ⟨_, v, -, hall⟩ | ⟨e', v, hcall, hall⟩
    · cases hall.symm.trans h₄
    · obtain ⟨-, rfl⟩ := EStateM.Result.error.inj (hall.symm.trans h₄)
      obtain ⟨n, rest, hos, rfl⟩ := call_error hcall
      refine ⟨?_, fun hfails => ?_⟩
      · obtain h | h := removeFile_cases _ _ (.tmpData id) rest
        · rw [left_ok h]
          exact ⟨rfl, rfl, rfl⟩
        · rw [left_ok h]
          exact ⟨rfl, rfl, rfl⟩
      · have hos : os = .fail n :: rest := hos
        rw [left_ok (removeFile_calm _ (hos ▸ honce hfails).rest)]
        have hremoved := w.disk.temporary_remove (.tmpData id)
        have hsame : (w.disk.tmpData.insert id []).erase id = w.disk.tmpData.erase id :=
          Maps.erase_insert
        rw [Disk.remove, ← hsame] at hremoved
        exact hremoved
  · cases h

theorem Disk.Temporary.mono {d d' : Disk} {new new' : List Nat} (h : d.Temporary d' new)
    (hsub : new ⊆ new') : d.Temporary d' new' :=
  fun id => ⟨fun hne => ((h id).1 hne).imp_right (hsub ·),
    fun hne => ((h id).2 hne).imp_right (hsub ·)⟩

/-- A call of `Merge` begins another file. -/
def openTarget (run : MergeRun) : Op (MergeRun × MergeFile) := do
  let file ← newMergeFile
  return ({ run with mergedFiles := run.mergedFiles ++ [file.fileID], current := file }, file)

theorem mergeTarget_cases (run : MergeRun) (n : Int64) (w : World) :
    mergeTarget run n w = (do closeAndSync; openTarget run) w ∨
      mergeTarget run n w = openTarget run w ∨ ∃ file, mergeTarget run n w = .ok (run, file) w := by
  cases hc : run.current with
  | none =>
    exact Or.inr (Or.inl (by simp only [mergeTarget, openTarget, bind_apply, getDB_apply, hc]))
  | some file =>
    by_cases hfull : file.offset + n > w.db.opts.maxDataFileSizeBytes ∧ file.offset > 0
    · exact Or.inl (by
        simp only [mergeTarget, openTarget, bind_apply, getDB_apply, hc, if_pos hfull])
    · exact Or.inr (Or.inr ⟨file, by
        simp only [mergeTarget, bind_apply, getDB_apply, hc, if_neg hfull]; rfl⟩)

/-- The new file is one of the files of the call. -/
theorem openTarget_ok {p : MergeRun × MergeFile} (h : openTarget run w = .ok p w') :
    Untouched w w' ∧ w.disk.Temporary w'.disk p.1.mergedFiles ∧
      run.mergedFiles ⊆ p.1.mergedFiles := by
  obtain ⟨file, v, hfile, h⟩ := of_bind_apply_ok h
  obtain ⟨rfl, rfl⟩ := EStateM.Result.ok.inj h
  obtain ⟨hu, ht⟩ := newMergeFile_ok hfile
  exact ⟨hu, ht.mono (List.subset_append_right _ _), List.subset_append_left _ _⟩

theorem openTarget_error {e : Err} (h : openTarget run w = .error e w') :
    Untouched w w' ∧ (FailsOnce w.outcomes → w.disk.Temporary w'.disk []) := by
  rcases of_bind_apply_error h with h | ⟨_, _, -, h⟩
  · exact newMergeFile_error h
  · cases h

theorem mergeTarget_ok {n : Int64} {p : MergeRun × MergeFile}
    (h : mergeTarget run n w = .ok p w') :
    Untouched w w' ∧ w.disk.Temporary w'.disk p.1.mergedFiles ∧
      run.mergedFiles ⊆ p.1.mergedFiles := by
  rcases mergeTarget_cases run n w with heq | heq | ⟨file, heq⟩
  · obtain ⟨_, v, hclose, h⟩ := of_bind_apply_ok (heq.symm.trans h)
    obtain ⟨hu, ht⟩ := hushed_closeAndSync.ok hclose
    obtain ⟨hu', ht', hsub⟩ := openTarget_ok h
    exact ⟨hu.trans hu', (ht.mono (List.nil_subset _)).trans ht', hsub⟩
  · exact openTarget_ok (heq.symm.trans h)
  · obtain ⟨rfl, rfl⟩ := EStateM.Result.ok.inj (heq.symm.trans h)
    exact ⟨.refl _, .refl _ _, List.Subset.refl _⟩

/-- The outcomes of the calls that are left once `n` calls have succeeded. -/
def Passed (n : Nat) (os os' : List Outcome) : Prop :=
  firstFailure os = (firstFailure os').map (· + n) ∧ (FailsOnce os → FailsOnce os')

theorem Passed.refl (os : List Outcome) : Passed 0 os os := ⟨by simp, id⟩

theorem Passed.trans {m n : Nat} {os os' os'' : List Outcome} (h : Passed m os os')
    (h' : Passed n os' os'') : Passed (m + n) os os'' := by
  refine ⟨?_, h'.2 ∘ h.2⟩
  rw [h.1, h'.1, Option.map_map]
  congr 1
  funext i
  simp only [Function.comp_apply]
  omega

theorem closeAndSync_returns (h : closeAndSync w = .ok () w') :
    ∃ os, w' = { w with outcomes := os } ∧ Passed 4 w.outcomes os := by
  obtain ⟨_, v₁, h₁, h⟩ := of_bind_apply_ok h
  obtain ⟨_, v₂, h₂, h⟩ := of_bind_apply_ok h
  obtain ⟨_, v₃, h₃, h₄⟩ := of_bind_apply_ok h
  obtain ⟨os₁, rfl, p₁⟩ := call_returns h₁
  obtain ⟨os₂, rfl, p₂⟩ := call_returns h₂
  obtain ⟨os₃, rfl, p₃⟩ := call_returns h₃
  obtain ⟨os₄, rfl, p₄⟩ := call_returns h₄
  exact ⟨os₄, rfl, ((Passed.trans p₁ p₂).trans p₃).trans p₄⟩

theorem mergeTarget_error {n : Int64} {e : Err} (h : mergeTarget run n w = .error e w') :
    Untouched w w' ∧ (FailsOnce w.outcomes → w.disk.Temporary w'.disk []) := by
  rcases mergeTarget_cases run n w with heq | heq | ⟨file, heq⟩
  · rcases of_bind_apply_error (heq.symm.trans h) with h | ⟨_, v, hclose, h⟩
    · obtain ⟨hu, ht⟩ := hushed_closeAndSync.error h
      exact ⟨hu, fun _ => ht⟩
    · obtain ⟨os, rfl, hpassed⟩ := closeAndSync_returns hclose
      obtain ⟨hu, ht⟩ := openTarget_error h
      have hsame : Untouched w { w with outcomes := os } := ⟨rfl, rfl, rfl⟩
      exact ⟨hsame.trans hu, fun honce => ht (hpassed.2 honce)⟩
  · exact openTarget_error (heq.symm.trans h)
  · cases heq.symm.trans h

/-! ### Publishing -/

/-- What the last part of a call does under the lock. -/
def publishLocked (run : MergeRun) : Op Unit := do
  ensureOpen
  mustReadWrite
  run.mergedFiles.forM publishFile
  modifyDB fun db => { db with keydir := redirect run db.keydir }
  run.immutableIDs.forM removeSegment

/-- The last part of a call, without the deferred cleanup. -/
def publishMerged (run : MergeRun) : Op Unit :=
  if run.current.isSome then (do closeAndSync; publishLocked run) else publishLocked run

theorem mergePublish_eq (run : MergeRun) :
    mergePublish run = onError (publishMerged run) (cleanupMergeFiles run.mergedFiles) := rfl

/-- The file that a rename takes away was there. -/
theorem renameData_ok {id : Nat} (h : renameData id w = .ok () w') : ∃ bs os,
    w' = { w with disk := { w.disk with data := w.disk.data.insert id bs
                                        tmpData := w.disk.tmpData.erase id }
                  outcomes := os } ∧ Passed 1 w.outcomes os := by
  obtain ⟨_, v, hcall, h⟩ := of_bind_apply_ok h
  obtain ⟨os, rfl, hpassed⟩ := call_returns hcall
  rw [bind_apply, getDisk_apply] at h
  cases hfile : w.disk.tmpData[id]? with
  | none =>
    simp only [hfile] at h
    cases h
  | some bs =>
    simp only [hfile] at h
    obtain ⟨-, rfl⟩ := EStateM.Result.ok.inj h
    exact ⟨bs, os, rfl, hpassed⟩

theorem renameHint_ok {id : Nat} (h : renameHint id w = .ok () w') : ∃ bs os,
    w' = { w with disk := { w.disk with hint := w.disk.hint.insert id bs
                                        tmpHint := w.disk.tmpHint.erase id }
                  outcomes := os } ∧ Passed 1 w.outcomes os := by
  obtain ⟨_, v, hcall, h⟩ := of_bind_apply_ok h
  obtain ⟨os, rfl, hpassed⟩ := call_returns hcall
  rw [bind_apply, getDisk_apply] at h
  cases hfile : w.disk.tmpHint[id]? with
  | none =>
    simp only [hfile] at h
    cases h
  | some bs =>
    simp only [hfile] at h
    obtain ⟨-, rfl⟩ := EStateM.Result.ok.inj h
    exact ⟨bs, os, rfl, hpassed⟩

/-- A rename fails because its call does, or because there is no file to rename. -/
theorem renameData_error {id : Nat} {e : Err} (h : renameData id w = .error e w') :
    ∃ os, w' = { w with outcomes := os } ∧
      (w.disk.tmpData[id]? ≠ none → firstFailure w.outcomes = some 0) := by
  rcases of_bind_apply_error h with hcall | ⟨_, v, hcall, h⟩
  · obtain ⟨n, rest, hos, rfl⟩ := call_error hcall
    exact ⟨rest, rfl, fun _ => by rw [hos]; rfl⟩
  · obtain ⟨os, rfl, -⟩ := call_returns hcall
    rw [bind_apply, getDisk_apply] at h
    cases hfile : w.disk.tmpData[id]? with
    | none =>
      simp only [hfile] at h
      obtain ⟨-, rfl⟩ := EStateM.Result.error.inj h
      exact ⟨os, rfl, fun hne => absurd rfl hne⟩
    | some bs =>
      simp only [hfile] at h
      cases h

theorem renameHint_error {id : Nat} {e : Err} (h : renameHint id w = .error e w') :
    ∃ os, w' = { w with outcomes := os } ∧
      (w.disk.tmpHint[id]? ≠ none → firstFailure w.outcomes = some 0) := by
  rcases of_bind_apply_error h with hcall | ⟨_, v, hcall, h⟩
  · obtain ⟨n, rest, hos, rfl⟩ := call_error hcall
    exact ⟨rest, rfl, fun _ => by rw [hos]; rfl⟩
  · obtain ⟨os, rfl, -⟩ := call_returns hcall
    rw [bind_apply, getDisk_apply] at h
    cases hfile : w.disk.tmpHint[id]? with
    | none =>
      simp only [hfile] at h
      obtain ⟨-, rfl⟩ := EStateM.Result.error.inj h
      exact ⟨os, rfl, fun hne => absurd rfl hne⟩
    | some bs =>
      simp only [hfile] at h
      cases h

theorem publishFile_ok {id : Nat} (h : publishFile id w = .ok () w') :
    w.disk.Temporary w'.disk [] ∧ Passed 2 w.outcomes w'.outcomes ∧
      ∀ {files : List Nat}, w.disk.Staged (id :: files) → w'.disk.Staged files := by
  obtain ⟨_, v, hdata, hhint⟩ := of_bind_apply_ok h
  obtain ⟨bs, os, rfl, p₁⟩ := renameData_ok hdata
  obtain ⟨bs', os', rfl, p₂⟩ := renameHint_ok hhint
  refine ⟨(w.disk.temporary_remove (.tmpData id)).trans
    (Disk.temporary_remove _ (.tmpHint id)), Passed.trans p₁ p₂, fun hstaged =>
      hstaged.tail rfl rfl⟩

theorem publishFile_error {id : Nat} {e : Err} (h : publishFile id w = .error e w') :
    w.disk.Temporary w'.disk [] ∧ (firstFailure w.outcomes = some 0 → Untouched w w') ∧
      ∀ {files : List Nat}, w.disk.Staged (id :: files) →
        ∃ j < 2, firstFailure w.outcomes = some j := by
  rcases of_bind_apply_error h with hdata | ⟨_, v, hdata, hhint⟩
  · obtain ⟨os, rfl, hfirst⟩ := renameData_error hdata
    exact ⟨.refl _ _, fun _ => ⟨rfl, rfl, rfl⟩, fun hstaged =>
      ⟨0, by omega, hfirst (hstaged.2 id List.mem_cons_self).1⟩⟩
  · obtain ⟨bs, os, rfl, hpassed⟩ := renameData_ok hdata
    obtain ⟨os', rfl, hfirst⟩ := renameHint_error hhint
    refine ⟨w.disk.temporary_remove (.tmpData id), fun hzero => ?_,
      fun hstaged => ⟨1, by omega, ?_⟩⟩
    · obtain ⟨j, -, hj⟩ := Option.map_eq_some_iff.mp (hpassed.1.symm.trans hzero)
      omega
    · rw [hpassed.1, hfirst (hstaged.2 id List.mem_cons_self).2]
      rfl

theorem forM_publishFile_error {e : Err} {files : List Nat}
    (h : files.forM publishFile w = .error e w') :
    w.disk.Temporary w'.disk [] ∧ (firstFailure w.outcomes = some 0 → Untouched w w') ∧
      (w.disk.Staged files → ∃ j < 2 * files.length, firstFailure w.outcomes = some j) := by
  induction files generalizing w with
  | nil => cases h
  | cons id files ih =>
    rcases of_bind_apply_error h with h | ⟨_, v, hfile, h⟩
    · obtain ⟨ht, hu, hj⟩ := publishFile_error h
      refine ⟨ht, hu, fun hstaged => ?_⟩
      obtain ⟨j, hlt, hfirst⟩ := hj hstaged
      exact ⟨j, by rw [List.length_cons]; omega, hfirst⟩
    · obtain ⟨ht, hpassed, hstays⟩ := publishFile_ok hfile
      obtain ⟨ht', -, hj⟩ := ih h
      refine ⟨ht.trans ht', fun hzero => ?_, fun hstaged => ?_⟩
      · obtain ⟨j, -, hj⟩ := Option.map_eq_some_iff.mp (hpassed.1.symm.trans hzero)
        omega
      · obtain ⟨j, hlt, hfirst⟩ := hj (hstays hstaged)
        refine ⟨j + 2, by rw [List.length_cons]; omega, ?_⟩
        rw [hpassed.1, hfirst]
        rfl

theorem removeSegment_ok (fileID : Nat) (w : World) : ∃ w', removeSegment fileID w = .ok () w' := by
  obtain ⟨w₁, h₁⟩ := removeFile_ok
    { w with db := { w.db with readers := w.db.readers.filter (· ≠ fileID) } } (.data fileID)
  obtain ⟨w₂, h₂⟩ := removeFile_ok w₁ (.hint fileID)
  refine ⟨w₂, ?_⟩
  rw [removeSegment, bind_apply, modifyDB_apply]
  simp only [bind_apply, h₁, h₂]

theorem forM_removeSegment_ok (ids : List Nat) (w : World) :
    ∃ w', ids.forM removeSegment w = .ok () w' := by
  induction ids generalizing w with
  | nil => exact ⟨w, rfl⟩
  | cons id ids ih =>
    obtain ⟨w₁, h₁⟩ := removeSegment_ok id w
    obtain ⟨w₂, h₂⟩ := ih w₁
    refine ⟨w₂, ?_⟩
    change (removeSegment id >>= fun _ => ids.forM removeSegment) w = _
    rw [bind_apply, h₁]
    exact h₂

/-- The calls that the last part makes before its first rename. -/
def MergeRun.syncs (run : MergeRun) : Nat := if run.current.isSome then 4 else 0

/-- No rename of the last part fails but perhaps the first: an earlier call or the first rename
fails, or else every file is there and no rename is the first call to fail. -/
def MergeRun.RenamesWell (run : MergeRun) (w : World) : Prop :=
  (∃ j ∈ firstFailure w.outcomes, j ≤ run.syncs) ∨ w.disk.Staged run.mergedFiles ∧
    ∀ j ∈ firstFailure w.outcomes, run.syncs + 2 * run.mergedFiles.length ≤ j

instance (run : MergeRun) (w : World) : Decidable (run.RenamesWell w) :=
  inferInstanceAs (Decidable ((∃ j ∈ firstFailure w.outcomes, _) ∨ _ ∧ _))

theorem ensureOpen_ok (h : ensureOpen w = .ok () w') : w' = w ∧ w.db.closed = false := by
  simp only [ensureOpen, bind_apply, getDB_apply] at h
  split at h
  · cases h
  · next hopen =>
    obtain ⟨-, rfl⟩ := EStateM.Result.ok.inj h
    exact ⟨rfl, Bool.eq_false_iff.mpr hopen⟩

theorem mustReadWrite_ok (h : mustReadWrite w = .ok () w') : w' = w := by
  simp only [mustReadWrite, bind_apply, getDB_apply] at h
  split at h
  · cases h
  · obtain ⟨-, rfl⟩ := EStateM.Result.ok.inj h
    rfl

/-- Only a rename after the first leaves a change behind. -/
theorem publishLocked_error {e : Err} (h : publishLocked run w = .error e w') :
    w.disk.Temporary w'.disk [] ∧ (Untouched w w' ∨ w.db.closed = false ∧
      firstFailure w.outcomes ≠ some 0 ∧ (w.disk.Staged run.mergedFiles →
        ∃ j < 2 * run.mergedFiles.length, firstFailure w.outcomes = some j)) := by
  rcases of_bind_apply_error h with h₁ | ⟨_, v₁, h₁, k₁⟩
  · obtain ⟨hu, ht⟩ := Within.error (R := Hushed) within_ensureOpen h₁
    exact ⟨ht, Or.inl hu⟩
  obtain ⟨hv₁, hopen⟩ := ensureOpen_ok h₁
  rw [hv₁] at k₁
  rcases of_bind_apply_error k₁ with h₂ | ⟨_, v₂, h₂, k₂⟩
  · obtain ⟨hu, ht⟩ := Within.error (R := Hushed) within_mustReadWrite h₂
    exact ⟨ht, Or.inl hu⟩
  rw [mustReadWrite_ok h₂] at k₂
  rcases of_bind_apply_error k₂ with h₃ | ⟨_, v₃, -, k₃⟩
  · obtain ⟨ht, hu, hj⟩ := forM_publishFile_error h₃
    refine ⟨ht, ?_⟩
    by_cases hzero : firstFailure w.outcomes = some 0
    · exact Or.inl (hu hzero)
    · exact Or.inr ⟨hopen, hzero, hj⟩
  rcases of_bind_apply_error k₃ with h₄ | ⟨_, v₄, -, h₅⟩
  · cases h₄
  · obtain ⟨v₅, hok⟩ := forM_removeSegment_ok run.immutableIDs v₄
    cases hok.symm.trans h₅

theorem publishLocked_error_passed {e : Err} {os : List Outcome}
    (hpassed : Passed run.syncs w.outcomes os)
    (h : publishLocked run { w with outcomes := os } = .error e w') :
    (w.db.closed = true ∨ run.RenamesWell w → Untouched w w') ∧
      w.disk.Temporary w'.disk [] := by
  obtain ⟨ht, hcases⟩ := publishLocked_error h
  refine ⟨fun hwell => ?_, ht⟩
  rcases hcases with ⟨hkeydir, hdata, hhint⟩ | ⟨hopen, hzero, hj⟩
  · exact ⟨hkeydir, hdata, hhint⟩
  rcases hwell with hclosed | ⟨j, hfirst, hle⟩ | ⟨hstaged, hlate⟩
  · cases hopen.symm.trans hclosed
  · obtain ⟨i, hi, rfl⟩ := Option.map_eq_some_iff.mp (hpassed.1.symm.trans hfirst)
    obtain rfl : i = 0 := by omega
    exact absurd hi hzero
  · obtain ⟨j, hlt, hfirst⟩ := hj hstaged
    have hle := hlate (j + run.syncs) (by rw [hpassed.1, hfirst]; rfl)
    omega

theorem publishMerged_error {e : Err} (h : publishMerged run w = .error e w') :
    (w.db.closed = true ∨ run.RenamesWell w → Untouched w w') ∧
      w.disk.Temporary w'.disk [] := by
  rw [publishMerged] at h
  split at h
  · next hc =>
    rcases of_bind_apply_error h with h₁ | ⟨_, v₁, h₁, h⟩
    · obtain ⟨hu, ht⟩ := hushed_closeAndSync.error h₁
      exact ⟨fun _ => hu, ht⟩
    · obtain ⟨os, rfl, hpassed⟩ := closeAndSync_returns h₁
      refine publishLocked_error_passed ?_ h
      rw [MergeRun.syncs, if_pos hc]
      exact hpassed
  · next hc =>
    refine publishLocked_error_passed ?_ h
    rw [MergeRun.syncs, if_neg hc]
    exact .refl _

end KvRaft.Store
