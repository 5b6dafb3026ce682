import KvRaft.Store.Effects
import KvRaft.Store.Failures
import KvRaft.Store.Names

/-! A second process that opens the directory of a `DB` for writing. `OpenWithOptions` looks at the
layout, and removes temporary files, before it asks for the writer lock. -/

namespace KvRaft.Store

open Std Effects

variable {w w' v : World} {d d' : Disk} {db : DB} {f : FileName} {fs : List FileName} {id : Nat}

/-- The name ends in `.tmp`. -/
def FileName.isTmp : FileName → Bool
  | .tmpData _ | .tmpHint _ => true
  | .other name => hasSuffix name tmpFileSuffix
  | .data _ | .hint _ => false

/-- No name of the directory ends in `.tmp`. -/
def Disk.NoTemporary (d : Disk) : Prop := ∀ f ∈ d.entries, f.isTmp = false

/-- The files of the directory are the same. -/
structure Disk.SameFiles (d d' : Disk) : Prop where
  data : d'.data = d.data
  hint : d'.hint = d.hint
  tmpData : d'.tmpData = d.tmpData
  tmpHint : d'.tmpHint = d.tmpHint
  other : d'.other = d.other

theorem Disk.SameFiles.trans {d'' : Disk} (h : d.SameFiles d') (h' : d'.SameFiles d'') :
    d.SameFiles d'' :=
  ⟨h'.data.trans h.data, h'.hint.trans h.hint, h'.tmpData.trans h.tmpData,
    h'.tmpHint.trans h.tmpHint, h'.other.trans h.other⟩

/-! ### Looking at the layout -/

theorem validateEntry_isTmp (h : f.isTmp = true) : validateEntry true f = removeFile f := by
  cases f with
  | tmpData | tmpHint => rfl
  | other name =>
    have hname : hasSuffix name tmpFileSuffix = true := h
    simp only [validateEntry, hname, if_true]
  | data | hint => cases h

/-- Any other name is accepted or refused. -/
theorem validateEntry_kept (h : f.isTmp = false) (w : World) :
    validateEntry true f w = .ok () w ∨
      ∃ name, validateEntry true f w = .error (.layout name) w := by
  cases f with
  | data | hint => exact Or.inl rfl
  | tmpData | tmpHint => cases h
  | other name =>
    have hname : hasSuffix name tmpFileSuffix = false := h
    simp only [validateEntry, hname, Bool.false_eq_true, if_false]
    by_cases hdata : hasSuffix name dataFileExtension = true
    · by_cases hparse : (parseFileID name dataFileExtension).isSome = true
      · exact Or.inl (by simp [hdata, hparse])
      · exact Or.inr ⟨name, by simp [hdata, hparse]⟩
    · by_cases hhint : hasSuffix name hintFileExtension = true
      · by_cases hparse : (parseFileID name hintFileExtension).isSome = true
        · exact Or.inl (by simp [hdata, hhint, hparse])
        · exact Or.inr ⟨name, by simp [hdata, hhint, hparse]⟩
      · exact Or.inr ⟨name, by simp [hdata, hhint]⟩

/-- What `validateLayout` leaves of the directory when no call fails. -/
def Disk.swept (d : Disk) (fs : List FileName) : Disk :=
  fs.foldl (fun d f => if f.isTmp then d.remove f else d) d

theorem forM_validateEntry_kept (h : ∀ f ∈ fs, f.isTmp = false)
    (hop : fs.forM (validateEntry true) w = .ok () w') : w' = w := by
  induction fs with
  | nil =>
    obtain ⟨-, rfl⟩ := EStateM.Result.ok.inj hop
    rfl
  | cons f fs ih =>
    obtain ⟨hf, hfs⟩ := List.forall_mem_cons.mp h
    obtain ⟨_, v, hfirst, hrest⟩ := of_bind_apply_ok hop
    rcases validateEntry_kept hf w with hok | ⟨name, herror⟩
    · obtain ⟨-, rfl⟩ := EStateM.Result.ok.inj (hok.symm.trans hfirst)
      exact ih hfs hrest
    · cases herror.symm.trans hfirst

theorem forM_validateEntry_swept (hop : fs.forM (validateEntry true) ⟨d, db, []⟩ = .ok () w') :
    w' = ⟨d.swept fs, db, []⟩ := by
  induction fs generalizing d with
  | nil =>
    obtain ⟨-, rfl⟩ := EStateM.Result.ok.inj hop
    rfl
  | cons f fs ih =>
    obtain ⟨_, v, hfirst, hrest⟩ := of_bind_apply_ok hop
    by_cases hf : f.isTmp = true
    · rw [validateEntry_isTmp hf] at hfirst
      obtain ⟨-, rfl⟩ := EStateM.Result.ok.inj ((removeFile_apply d db f).symm.trans hfirst)
      rw [Disk.swept, List.foldl_cons, if_pos hf]
      exact ih hrest
    · rcases validateEntry_kept (Bool.eq_false_iff.mpr hf) ⟨d, db, []⟩ with hok | ⟨name, herror⟩
      · obtain ⟨-, rfl⟩ := EStateM.Result.ok.inj (hok.symm.trans hfirst)
        rw [Disk.swept, List.foldl_cons, if_neg hf]
        exact ih hrest
      · cases herror.symm.trans hfirst

/-- How many files of the directory have the name. -/
def Disk.copies (d : Disk) : FileName → Nat
  | .data id => if id ∈ d.data then 1 else 0
  | .hint id => if id ∈ d.hint then 1 else 0
  | .tmpData id => if id ∈ d.tmpData then 1 else 0
  | .tmpHint id => if id ∈ d.tmpHint then 1 else 0
  | .other name => d.other.count name

theorem Disk.mem_entries : f ∈ d.entries ↔ 0 < d.copies f := by
  rw [d.entries_perm.mem_iff]
  cases f with
  | data id | hint id | tmpData id | tmpHint id => simp [Disk.copies, Nat.pos_iff_ne_zero]
  | other name => simp [Disk.copies]

theorem Disk.SameFiles.copies (h : d.SameFiles d') (f : FileName) : d'.copies f = d.copies f := by
  cases f with
  | data id => rw [Disk.copies, Disk.copies, h.data]
  | hint id => rw [Disk.copies, Disk.copies, h.hint]
  | tmpData id => rw [Disk.copies, Disk.copies, h.tmpData]
  | tmpHint id => rw [Disk.copies, Disk.copies, h.tmpHint]
  | other name => rw [Disk.copies, Disk.copies, h.other]

theorem Disk.copies_remove (d : Disk) (f : FileName) : (d.remove f).copies f = d.copies f - 1 := by
  have hmap : ∀ (t : ExtTreeMap Nat Bytes) (id : Nat),
      (if id ∈ t.erase id then 1 else 0) = (if id ∈ t then 1 else 0) - 1 := by
    intro t id
    rw [if_neg (by simp)]
    split <;> rfl
  cases f with
  | data id | hint id | tmpData id | tmpHint id => exact hmap _ id
  | other name => exact List.count_erase_self

theorem Disk.copies_remove_le (d : Disk) (g f : FileName) : (d.remove g).copies f ≤ d.copies f := by
  have hmap : ∀ (t : ExtTreeMap Nat Bytes) (i id : Nat),
      (if id ∈ t.erase i then 1 else 0) ≤ if id ∈ t then 1 else 0 := by
    intro t i id
    by_cases hid : id ∈ t.erase i
    · rw [if_pos hid, if_pos (ExtTreeMap.mem_of_mem_erase hid)]
    · rw [if_neg hid]
      exact Nat.zero_le _
  cases g with
  | data i => cases f <;> first | exact hmap _ i _ | exact Nat.le_refl _
  | hint i => cases f <;> first | exact hmap _ i _ | exact Nat.le_refl _
  | tmpData i => cases f <;> first | exact hmap _ i _ | exact Nat.le_refl _
  | tmpHint i => cases f <;> first | exact hmap _ i _ | exact Nat.le_refl _
  | other i => cases f <;> first | exact List.erase_sublist.count_le _ | exact Nat.le_refl _

theorem Disk.copies_swept_le (fs : List FileName) (f : FileName) :
    (d.swept fs).copies f ≤ d.copies f := by
  induction fs generalizing d with
  | nil => exact Nat.le_refl _
  | cons g fs ih =>
    rw [Disk.swept, List.foldl_cons]
    refine ih.trans ?_
    split
    · exact d.copies_remove_le g f
    · exact Nat.le_refl _

theorem Disk.copies_swept (d : Disk) (hf : f.isTmp = true) (hmem : f ∈ fs) :
    (d.swept fs).copies f ≤ d.copies f - 1 := by
  induction fs generalizing d with
  | nil => cases hmem
  | cons g fs ih =>
    rw [Disk.swept, List.foldl_cons]
    rcases List.mem_cons.mp hmem with rfl | hmem
    · rw [if_pos hf, ← d.copies_remove f]
      exact Disk.copies_swept_le fs f
    · refine (ih _ hmem).trans (Nat.sub_le_sub_right ?_ 1)
      split
      · exact d.copies_remove_le g f
      · exact Nat.le_refl _

/-- The directory is as it was only if there was nothing to remove. -/
theorem Disk.noTemporary_of_swept (h : d.SameFiles (d.swept d.entries)) : d.NoTemporary := by
  intro f hf
  by_contra htmp
  have hless := d.copies_swept (Bool.eq_true_of_not_eq_false htmp) hf
  rw [h.copies f] at hless
  have := Disk.mem_entries.mp hf
  omega

/-! ### A refused open -/

/-- The same process holds the writer lock, or none does. -/
def SameLock (w w' : World) : Prop := w'.disk.locked = w.disk.locked

instance : Std.Refl SameLock := ⟨fun _ => rfl⟩

instance : IsTrans World SameLock := ⟨fun _ _ _ h h' => Eq.trans h' h⟩

theorem Disk.remove_locked (d : Disk) (f : FileName) : (d.remove f).locked = d.locked := by
  cases f <;> rfl

theorem validateLayout_sameLock : Within SameLock validateLayout :=
  have hcall : ∀ w : World, SameLock w { w with outcomes := w.outcomes.drop 1 } := fun _ => rfl
  within_validateLayout hcall fun f => within_removeFile hcall fun w => w.disk.remove_locked f

theorem forM_validateEntry_error {e : Err} (h : fs.forM (validateEntry true) w = .error e w') :
    ∃ name, e = .layout name := by
  induction fs generalizing w with
  | nil => cases h
  | cons f fs ih =>
    rcases of_bind_apply_error h with hfirst | ⟨_, v, -, hrest⟩
    · by_cases hf : f.isTmp = true
      · rw [validateEntry_isTmp hf] at hfirst
        obtain ⟨v, hv⟩ := removeFile_ok w f
        cases hv.symm.trans hfirst
      · rcases validateEntry_kept (Bool.eq_false_iff.mpr hf) w with hok | ⟨name, herror⟩
        · cases hok.symm.trans hfirst
        · obtain ⟨rfl, -⟩ := EStateM.Result.error.inj (herror.symm.trans hfirst)
          exact ⟨name, rfl⟩
    · exact ih hrest

theorem call_ne_writerLocked : call w ≠ .error .writerLocked w' := by
  intro h
  rcases call_cases w.disk w.db w.outcomes with ⟨-, hok⟩ | ⟨-, hfault⟩
  · cases hok.symm.trans h
  · cases hfault.symm.trans h

theorem validateLayout_eq (hrw : w.db.opts.readWrite = true) :
    validateLayout w = (call >>= fun _ => w.disk.entries.forM (validateEntry true)) w := by
  rw [bind_apply]
  rcases call_cases w.disk w.db w.outcomes with ⟨-, hcall⟩ | ⟨-, hcall⟩
  · change (call >>= fun _ => _) w = _
    rw [bind_apply, hcall, ← hrw]
    rfl
  · change (call >>= fun _ => _) w = _
    rw [bind_apply, hcall]

theorem acquireWriterLock_held (h : w.disk.locked = true) :
    ∃ e w', acquireWriterLock w = .error e w' ∧ w'.disk = w.disk := by
  obtain ⟨d, db, os⟩ := w
  have hd : d.locked = true := h
  change ∃ e w', (call >>= fun _ => call >>= fun _ => _) _ = .error e w' ∧ _
  rw [bind_apply]
  rcases call_cases d db os with ⟨-, hfirst⟩ | ⟨-, hfirst⟩
  · rw [hfirst]
    simp only
    rw [bind_apply]
    rcases call_cases d db (os.drop 1) with ⟨-, hsecond⟩ | ⟨-, hsecond⟩
    · rw [hsecond]
      exact ⟨.writerLocked, _, by simp only [bind_apply, getDisk_apply, hd, if_true]; rfl, rfl⟩
    · rw [hsecond]
      exact ⟨_, _, rfl, rfl⟩
  · rw [hfirst]
    exact ⟨_, _, rfl, rfl⟩

/-- An open that the lock of another process refuses has looked at the layout before. -/
theorem openWithOptions_refused {os : List Outcome} {opts : OpenOptions} (hlocked : d.locked = true)
    (h : openWithOptions { opts with readWrite := true } ⟨d, db, os⟩ = .error .writerLocked w') :
    ∃ db' os' v, d.entries.forM (validateEntry true) ⟨{ d with present := true }, db', os'⟩ =
      .ok () v ∧ w'.disk = v.disk ∧ (os = [] → os' = []) := by
  have hrw : (OpenOptions.withDefaults { opts with readWrite := true }).readWrite = true :=
    withDefaults_readWrite
  rcases of_bind_apply_error h with herror | ⟨_, v₁, h₁, h⟩
  · exact absurd herror call_ne_writerLocked
  obtain ⟨os₁, rfl, -⟩ := call_returns h₁
  rw [hrw] at h
  rcases of_bind_apply_error h with herror | ⟨_, v₂, h₂, h⟩
  · cases herror
  obtain ⟨-, rfl⟩ := EStateM.Result.ok.inj h₂
  rcases of_bind_apply_error h with herror | ⟨_, v₃, h₃, h⟩
  · cases herror
  obtain ⟨-, rfl⟩ := EStateM.Result.ok.inj h₃
  rcases of_bind_apply_error h with herror | ⟨_, v₄, h₄, h⟩
  · rw [validateLayout_eq hrw] at herror
    rcases of_bind_apply_error herror with herror | ⟨_, _, -, herror⟩
    · exact absurd herror call_ne_writerLocked
    · obtain ⟨name, heq⟩ := forM_validateEntry_error herror
      cases heq
  have hheld : v₄.disk.locked = true := (validateLayout_sameLock.ok h₄).trans hlocked
  rw [validateLayout_eq hrw] at h₄
  obtain ⟨_, v₅, h₅, hlayout⟩ := of_bind_apply_ok h₄
  obtain ⟨os₂, rfl, -⟩ := call_returns h₅
  refine ⟨_, os₂, v₄, hlayout, ?_, fun hos => ?_⟩
  · obtain ⟨e, v₆, h₆, hdisk⟩ := acquireWriterLock_held hheld
    change (acquireWriterLock >>= fun _ => _) v₄ = _ at h
    rw [bind_apply, h₆] at h
    obtain ⟨-, rfl⟩ := EStateM.Result.error.inj h
    exact hdisk
  · subst hos
    cases h₁
    cases h₅
    rfl

/-! ### The renames of the process that holds the lock -/

theorem renameData_notExist (h : d.tmpData[id]? = none) :
    renameData id ⟨d, db, []⟩ = .error .notExist ⟨d, db, []⟩ := by
  simp [renameData, bind_apply, h]

theorem renameHint_notExist (h : d.tmpHint[id]? = none) :
    renameHint id ⟨d, db, []⟩ = .error .notExist ⟨d, db, []⟩ := by
  simp [renameHint, bind_apply, h]

/-- `writeHintForDataFile` up to its rename. -/
def buildHint (fileID : Nat) : Op Unit := do
  call
  modifyDisk fun d => { d with tmpHint := d.tmpHint.insert fileID [] }
  onError (do
    let bs ← readData fileID
    let (recs, err) := records bs
    writeHints fileID 0 recs
    if err ≠ .eof then throw err
    call
    call
    call) (removeFile (.tmpHint fileID))

theorem onError_congr {α : Type} {op op' : Op α} {cleanup : Op Unit} (h : op w = op' v) :
    onError op cleanup w = onError op' cleanup v := by
  simp only [onError, tryCatch, tryCatchThe, MonadExceptOf.tryCatch, EStateM.tryCatch, h]

/-- A hint file is built and then renamed. -/
theorem writeHintForDataFile_eq (h : buildHint id w = .ok () v) :
    writeHintForDataFile id w = onError (renameHint id) (removeFile (.tmpHint id)) v := by
  obtain ⟨_, w₁, h₁, h⟩ := of_bind_apply_ok h
  obtain ⟨_, w₂, h₂, h⟩ := of_bind_apply_ok h
  obtain ⟨bs, w₃, h₃, h⟩ := of_bind_apply_ok (of_onError_ok h)
  obtain ⟨_, w₄, hwrite, hend⟩ := of_bind_apply_ok h
  have h₄ : writeHints id 0 (records bs).1 w₃ = .ok () w₄ := hwrite
  let sync : Op Unit := do call; call; call
  have h : (if (records bs).2 ≠ Err.eof then throw (records bs).2 >>= fun (_ : PUnit) => sync
    else sync) w₄ = .ok () v := hend
  have heof : (records bs).2 = .eof := by
    by_contra hne
    rw [if_pos hne] at h
    cases h
  rw [if_neg (not_not_intro heof)] at h
  obtain ⟨_, w₅, h₅, h⟩ := of_bind_apply_ok h
  obtain ⟨_, w₆, h₆, h₇⟩ := of_bind_apply_ok h
  change (call >>= fun _ => _ >>= fun _ => onError (readData id >>= fun _ => _) _) w = _
  rw [bind_apply, h₁]
  simp only
  rw [bind_apply, h₂]
  refine onError_congr ?_
  rw [bind_apply, h₃]
  simp only
  rw [bind_apply, h₄]
  simp only [heof, ne_eq, not_true_eq_false, if_false, bind_apply, h₅, h₆, h₇]

/-- The call returns no error. -/
def World.Succeeds (w : World) (op : Op Unit) : Prop := (w.returned op).isSome

instance (op : Op Unit) : Decidable (w.Succeeds op) := inferInstanceAs (Decidable (_ = true))

/-- Every rename of a temporary file that would succeed in `w` succeeds in `w'`. -/
def RenamesStill (w w' : World) : Prop := ∀ id,
  (w.Succeeds (renameData id) → w'.Succeeds (renameData id)) ∧
    (w.Succeeds (renameHint id) → w'.Succeeds (renameHint id))

theorem World.succeeds_renameData : w.Succeeds (renameData id) ↔
    w.Succeeds call ∧ w.disk.tmpData[id]? ≠ none := by
  obtain ⟨d, db, os⟩ := w
  simp only [World.Succeeds, World.returned, renameData, bind_apply]
  rcases call_cases d db os with ⟨-, hcall⟩ | ⟨-, hcall⟩
  · cases hbs : d.tmpData[id]? <;> simp [hcall, hbs]
  · simp [hcall]

theorem World.succeeds_renameHint : w.Succeeds (renameHint id) ↔
    w.Succeeds call ∧ w.disk.tmpHint[id]? ≠ none := by
  obtain ⟨d, db, os⟩ := w
  simp only [World.Succeeds, World.returned, renameHint, bind_apply]
  rcases call_cases d db os with ⟨-, hcall⟩ | ⟨-, hcall⟩
  · cases hbs : d.tmpHint[id]? <;> simp [hcall, hbs]
  · simp [hcall]

theorem World.succeeds_call : World.Succeeds { w with disk := d } call ↔ w.Succeeds call := by
  obtain ⟨d', db, os⟩ := w
  rcases os with _ | ⟨o, rest⟩
  · exact Iff.rfl
  · cases o <;> exact Iff.rfl

theorem Disk.SameFiles.renamesStill (h : w.disk.SameFiles d) :
    RenamesStill w { w with disk := d } := by
  intro id
  simp only [World.succeeds_renameData, World.succeeds_renameHint, World.succeeds_call, h.tmpData,
    h.tmpHint]
  exact ⟨fun h => h, fun h => h⟩

/-- An open for writing that finds the lock of another process taken leaves the files of the
directory as they were, and so the renames that the other process is about to make, if no name of
the directory ends in `.tmp`; and if no call fails, only then. -/
theorem refused_open (opts : OpenOptions) {holder : World} {os : List Outcome}
    (hlocked : holder.disk.locked = true)
    (h : openWithOptions { opts with readWrite := true } ⟨holder.disk, db, os⟩ =
      .error .writerLocked w') :
    (holder.disk.NoTemporary → holder.disk.SameFiles w'.disk ∧
      RenamesStill holder { holder with disk := w'.disk }) ∧
    (os = [] → (holder.disk.SameFiles w'.disk ∧
      RenamesStill holder { holder with disk := w'.disk } ↔ holder.disk.NoTemporary)) := by
  obtain ⟨db', os', v, hlayout, hdisk, hcalm⟩ := openWithOptions_refused hlocked h
  have hkept : holder.disk.NoTemporary → holder.disk.SameFiles w'.disk := by
    intro hno
    rw [hdisk, forM_validateEntry_kept hno hlayout]
    exact ⟨rfl, rfl, rfl, rfl, rfl⟩
  refine ⟨fun hno => ⟨hkept hno, (hkept hno).renamesStill⟩, fun hos => ⟨fun hsame => ?_,
    fun hno => ⟨hkept hno, (hkept hno).renamesStill⟩⟩⟩
  obtain rfl := hcalm hos
  have hswept := forM_validateEntry_swept hlayout
  rw [hdisk, hswept] at hsame
  have hpresent : Disk.SameFiles { holder.disk with present := true } holder.disk :=
    ⟨rfl, rfl, rfl, rfl, rfl⟩
  have hno : Disk.NoTemporary { holder.disk with present := true } :=
    Disk.noTemporary_of_swept (hpresent.trans hsame.1)
  exact hno

/-- What an open by another process leaves behind when it finds the lock taken. -/
def World.refusal (holder : World) (opts : OpenOptions) : Option World :=
  match openWithOptions opts { holder with outcomes := [] } with
  | .error .writerLocked w' => some w'
  | _ => none

theorem World.of_refusal {opts : OpenOptions} (h : w.refusal opts = some w') :
    openWithOptions opts ⟨w.disk, w.db, []⟩ = .error .writerLocked w' := by
  unfold World.refusal at h
  split at h
  · next hop => exact hop.trans (by rw [Option.some.inj h])
  · cases h

instance : Decidable d.NoTemporary := inferInstanceAs (Decidable (∀ f ∈ d.entries, _))

/-- A store whose active file holds one record and is full. -/
def idleWriter : Option World :=
  (World.empty.openDB ⟨true, false, 25⟩).bind fun w => w.returned (put 1 [1] [7])

theorem refused_open_idleWriter : ∃ w w', idleWriter = some w ∧ w.disk.locked = true ∧
    openWithOptions ⟨true, false, 25⟩ ⟨w.disk, w.db, []⟩ = .error .writerLocked w' ∧
    w.disk.NoTemporary ∧ w.disk.SameFiles w'.disk ∧
    RenamesStill w { w with disk := w'.disk } := by
  obtain ⟨w, hw⟩ : ∃ w, idleWriter = some w := Option.isSome_iff_exists.mp (by decide +kernel)
  have hidle : ∀ w ∈ idleWriter, w.disk.locked = true ∧ w.disk.NoTemporary ∧
      (w.refusal ⟨true, false, 25⟩).isSome := by decide +kernel
  obtain ⟨hlocked, hno, hsome⟩ := hidle w hw
  obtain ⟨w', hw'⟩ := Option.isSome_iff_exists.mp hsome
  have hopen := World.of_refusal hw'
  exact ⟨w, w', hw, hlocked, hopen, hno,
    (refused_open ⟨true, false, 25⟩ hlocked hopen).1 hno⟩

/-- A rotation up to the rename of its hint file. -/
def rotationStart : Op Unit := do
  let db ← getDB
  call
  call
  modifyDB fun db => { db with activeFile := .none }
  buildHint db.activeFileID

/-- The second `Put` rotates; then a `Merge` copies the record of the first file. -/
def rotateAndCopy : List Call :=
  [.put 1 [1] [7], .put 2 [2] [8], .merge 0, .resume 0, .resume 0, .resume 0]

/-- The files that the call of `Merge` renames in its next step, if that is its last. -/
def Shared.publishing (s : Shared) (id : Nat) : Option (List Nat) :=
  match s.merges id with
  | some (.next run []) => some run.mergedFiles
  | _ => none

/-- In the middle of a `Merge` or of a rotation the refused open removes the temporary files, and
the rename that was about to succeed fails. -/
theorem not_refused_open :
    (∃ s₀ s w', overlap.initial s₀ ∧ overlap.exec s₀ rotateAndCopy = some s ∧
      s.publishing 0 = some [3] ∧ s.world.disk.locked = true ∧
      openWithOptions ⟨true, false, 25⟩ ⟨s.world.disk, s.world.db, []⟩ =
        .error .writerLocked w' ∧
      ¬ s.world.disk.SameFiles w'.disk ∧ s.world.Succeeds (renameData 3) ∧
      renameData 3 ⟨w'.disk, s.world.db, []⟩ = .error .notExist ⟨w'.disk, s.world.db, []⟩) ∧
    ∃ w v w', idleWriter = some w ∧ rotationStart w = .ok () v ∧ v.disk.locked = true ∧
      openWithOptions ⟨true, false, 25⟩ ⟨v.disk, v.db, []⟩ = .error .writerLocked w' ∧
      ¬ v.disk.SameFiles w'.disk ∧ v.Succeeds (renameHint 1) ∧
      renameHint 1 ⟨w'.disk, v.db, []⟩ = .error .notExist ⟨w'.disk, v.db, []⟩ := by
  constructor
  · obtain ⟨w, hw⟩ : ∃ w, World.empty.openDB ⟨true, false, 25⟩ = some w :=
      Option.isSome_iff_exists.mp (by decide +kernel)
    have hruns : ∀ w ∈ World.empty.openDB ⟨true, false, 25⟩,
        (overlap.exec ⟨w, fun _ => none⟩ rotateAndCopy).isSome ∧
        ∀ s ∈ overlap.exec ⟨w, fun _ => none⟩ rotateAndCopy,
          s.publishing 0 = some [3] ∧ s.world.disk.locked = true ∧
          s.world.Succeeds (renameData 3) ∧ s.world.disk.tmpData[3]? ≠ none ∧
          (s.world.refusal ⟨true, false, 25⟩).isSome ∧
          ∀ w' ∈ s.world.refusal ⟨true, false, 25⟩, w'.disk.tmpData[3]? = none := by
      decide +kernel
    obtain ⟨hsome, hall⟩ := hruns w hw
    obtain ⟨s, hs⟩ := Option.isSome_iff_exists.mp hsome
    obtain ⟨hnext, hlocked, hrename, hthere, hrefused, hgone⟩ := hall s hs
    obtain ⟨w', hw'⟩ := Option.isSome_iff_exists.mp hrefused
    refine ⟨_, s, w', ⟨rfl, ⟨true, false, 25⟩, hw⟩, hs, hnext, hlocked, World.of_refusal hw',
      fun hsame => hthere ?_, hrename,
      renameData_notExist (hgone w' hw')⟩
    rw [← hsame.tmpData]
    exact hgone w' hw'
  · obtain ⟨w, hw⟩ : ∃ w, idleWriter = some w := Option.isSome_iff_exists.mp (by decide +kernel)
    have hruns : ∀ w ∈ idleWriter, (w.returned rotationStart).isSome ∧
        ∀ v ∈ w.returned rotationStart, v.disk.locked = true ∧ v.Succeeds (renameHint 1) ∧
          v.disk.tmpHint[1]? ≠ none ∧ (v.refusal ⟨true, false, 25⟩).isSome ∧
          ∀ w' ∈ v.refusal ⟨true, false, 25⟩, w'.disk.tmpHint[1]? = none := by
      decide +kernel
    obtain ⟨hsome, hall⟩ := hruns w hw
    obtain ⟨v, hv⟩ := Option.isSome_iff_exists.mp hsome
    obtain ⟨_, hstart⟩ := World.of_returned hv
    obtain ⟨hlocked, hrename, hthere, hrefused, hgone⟩ := hall v hv
    obtain ⟨w', hw'⟩ := Option.isSome_iff_exists.mp hrefused
    refine ⟨w, v, w', hw, hstart, hlocked, World.of_refusal hw', fun hsame => hthere ?_, hrename,
      renameHint_notExist (hgone w' hw')⟩
    rw [← hsame.tmpHint]
    exact hgone w' hw'

end KvRaft.Store
