import KvRaft.Store.Numbering

/-! Calls of `Get` beside calls of `Merge`. `Get` holds the lock of the `DB` only while it looks its
entry up; the file of the entry is opened and read later, and by then a `Merge` may have removed it.
Whatever the directory contains, a `Get` is served if no `Merge` removes its file meanwhile; that it
is not served otherwise rests on no number of a file being given away twice. -/

namespace KvRaft.Store

open Std Effects

variable {α : Type} {w w' v : World} {id i fileID : Nat} {key value : Bytes} {e : KeyDirEntry}

/-! ### The steps of `Get` -/

/-- The rest of `Get` once it has a descriptor. -/
def readOpened (key : Bytes) (entry : KeyDirEntry) : Op Bytes := do
  let bs ← readSection entry
  match decodeDataRecord bs with
  | .error err => throw err
  | .ok (rec, size) =>
    if rec.key ≠ key ∨ UInt32.ofNat size ≠ entry.recordSize then throw .corruptData
    else if rec.value = tombstoneValue then throw .keyNotFound
    else return rec.value

theorem getValue_eq (key : Bytes) (w : World) : getValue key w =
    (findEntry key >>= fun e => openReader e.fileID >>= fun _ => readOpened key e) w := by
  have hvalue : ∀ e, readValue key e = openReader e.fileID >>= fun _ => readOpened key e := by
    intro e
    rw [readValue, readRecordAtEntry, bind_assoc]
    congr 1
    funext _
    rw [readOpened, bind_assoc]
    congr 1
    funext bs
    cases decodeDataRecord bs with
    | error err => rfl
    | ok p =>
      by_cases hbad : p.1.key ≠ key ∨ UInt32.ofNat p.2 ≠ e.recordSize
      · simp only [if_pos hbad]
        rfl
      · simp only [if_neg hbad]
        rfl
  rw [getValue]
  simp only [hvalue]

/-- Where a call of `Get` stands between its steps: with the entry of the key, with a descriptor
that was opened for it, which a `Merge` may have closed since, or at its end. -/
inductive Getting
  | found (key : Bytes) (entry : KeyDirEntry)
  | opened (key : Bytes) (entry : KeyDirEntry) (closed : Bool)
  | returned (result : Except Err Bytes)
deriving DecidableEq

namespace Getting

/-- The descriptors that are left after a step of another call. -/
def keep (readers : List Nat) : Getting → Getting
  | .opened key entry closed => .opened key entry (closed || decide (entry.fileID ∉ readers))
  | .found key entry => .found key entry
  | .returned result => .returned result

/-- The entry, as long as the call has not returned. -/
def entry : Getting → Option KeyDirEntry
  | .found _ entry | .opened _ entry _ => some entry
  | .returned _ => none

end Getting

/-- The open store with the calls of `Merge`, and the calls of `Get` that were made. -/
structure Reading where
  shared : Shared
  gets : Nat → Option Getting := fun _ => none

inductive ReadStep
  /-- a step of any other call -/
  | call (c : Call)
  /-- a new call of `Get`, named `id`, looks its entry up -/
  | find (id : Nat) (key : Bytes)
  | openFile (id : Nat)
  | read (id : Nat)

namespace Reading

variable (s : Reading)

def goOn (id : Nat) (w : World) (g : Getting) : Reading :=
  ⟨{ s.shared with world := w }, Function.update s.gets id (some g)⟩

/-- A step of the call of `Get` named `id`; an error ends the call. -/
def part (id : Nat) (op : Op α) (next : α → Getting) : Reading :=
  match op s.shared.world with
  | .ok a w => s.goOn id w (next a)
  | .error err w => s.goOn id w (.returned (.error err))

def step : ReadStep → Option Reading
  | .call c => (s.shared.step c).map fun s' =>
    ⟨s', fun id => (s.gets id).map (Getting.keep s'.world.db.readers)⟩
  | .find id key =>
    match s.gets id with
    | none => some (s.part id (findEntry key) (.found key))
    | some _ => none
  | .openFile id =>
    match s.gets id with
    | some (.found key entry) =>
      some (s.part id (openReader entry.fileID) fun _ => .opened key entry false)
    | _ => none
  | .read id =>
    match s.gets id with
    | some (.opened key entry false) =>
      some (s.part id (readOpened key entry) fun value => .returned (.ok value))
    | some (.opened _ entry true) =>
      -- no read is made for a record of no bytes
      let err := if entry.recordSize = 0 then .eof else .closed
      some (s.goOn id s.shared.world (.returned (.error err)))
    | _ => none

/-- The data files that a step removes. -/
def removes : ReadStep → List Nat
  | .call (.resume i) =>
    match s.shared.merges i with
    | some (.next run []) => run.immutableIDs
    | _ => []
  | _ => []

/-- The step does not remove the file that the call of `Get` named `id` reads. -/
def Leaves (id : Nat) (s : Reading) (a : ReadStep) : Prop :=
  ∀ e ∈ (s.gets id).bind Getting.entry, e.fileID ∉ s.removes a

end Reading

/-- A store that has just been opened for writing, whatever its directory holds. -/
def reading : Machine Reading ReadStep where
  initial s := opened.initial s.shared ∧ s.gets = fun _ => none
  step := Reading.step

/-! ### What a step leaves of a data file -/

/-- The file of the ID, if there is one, is only appended to and its descriptor stays open; a file
that is gone does not come back. -/
structure FileKept (id : Nat) (w w' : World) : Prop where
  closed : w'.db.closed = w.db.closed
  opts : w'.db.opts = w.db.opts
  next : w.db.nextFileID ≤ w'.db.nextFileID
  data : ∀ bs, w.disk.data[id]? = some bs → ∃ more, w'.disk.data[id]? = some (bs ++ more)
  reader : id ∈ w.db.readers → id ∈ w'.db.readers
  gone : id < w.db.nextFileID → w.disk.data[id]? = none → id ∉ w.db.readers →
    w'.disk.data[id]? = none ∧ id ∉ w'.db.readers

/-- When no call fails, the file of the ID is kept. -/
def KeepsFile (id : Nat) (w w' : World) : Prop :=
  w.outcomes = [] → w'.outcomes = [] ∧ FileKept id w w'

theorem FileKept.of_same (hdata : w'.disk.data[id]? = w.disk.data[id]?) (hdb : w.db.Like w'.db) :
    FileKept id w w' where
  closed := hdb.closed
  opts := hdb.opts
  next := hdb.next.ge
  data bs hbs := ⟨[], by rw [hdata, hbs, List.append_nil]⟩
  reader hid := hdb.readers ▸ hid
  gone _ hnone hid := ⟨hdata.trans hnone, hdb.readers ▸ hid⟩

theorem DB.Like.refl (db : DB) : db.Like db := ⟨rfl, rfl, rfl, rfl, rfl⟩

theorem FileKept.trans (h : FileKept id w v) (h' : FileKept id v w') : FileKept id w w' where
  closed := h'.closed.trans h.closed
  opts := h'.opts.trans h.opts
  next := h.next.trans h'.next
  data bs hbs := by
    obtain ⟨more, hmore⟩ := h.data bs hbs
    obtain ⟨more', hmore'⟩ := h'.data _ hmore
    exact ⟨more ++ more', by rw [hmore', List.append_assoc]⟩
  reader hid := h'.reader (h.reader hid)
  gone hlt hnone hid := by
    obtain ⟨hnone', hid'⟩ := h.gone hlt hnone hid
    exact h'.gone (hlt.trans_le h.next) hnone' hid'

instance : Std.Refl (KeepsFile id) := ⟨fun w hcalm => ⟨hcalm, .of_same rfl (.refl w.db)⟩⟩

instance : IsTrans World (KeepsFile id) where
  trans _ _ _ h h' hcalm :=
    have ⟨hcalm', hkept⟩ := h hcalm
    have ⟨hcalm'', hkept'⟩ := h' hcalm'
    ⟨hcalm'', hkept.trans hkept'⟩

theorem permits_keeps : Permits T (KeepsFile id) where
  calls w hcalm := ⟨by simp [hcalm], .of_same rfl (.refl w.db)⟩
  db _ _ hdb hcalm := ⟨hcalm, .of_same rfl hdb⟩
  disk w _ hdata _ _ hcalm := ⟨hcalm, .of_same (by rw [hdata]) (.refl w.db)⟩
  append w i bs hcalm := by
    refine ⟨hcalm, rfl, rfl, Nat.le_refl _, fun bs' hbs => ?_, fun h => h, fun _ hnone hid => ?_⟩
    · by_cases hi : i = id
      · subst hi
        exact ⟨bs, by simp [hbs]⟩
      · exact ⟨[], by simp [ExtTreeMap.getElem?_modify, hi, hbs]⟩
    · exact ⟨Maps.getElem?_modify_eq_none.mpr hnone, hid⟩

theorem opensReaders_keeps : OpensReaders (KeepsFile id) := by
  intro w fileID hthere hcalm
  refine ⟨hcalm, rfl, rfl, Nat.le_refl _, fun bs hbs => ⟨[], by rw [List.append_nil]; exact hbs⟩,
    List.mem_cons_of_mem fileID, fun _ hnone hid => ⟨hnone, fun hmem => ?_⟩⟩
  rcases List.mem_cons.mp hmem with rfl | hmem
  · exact hthere hnone
  · exact hid hmem

theorem keeps_startFile {db : DB} (hdb : w.db.nextFileID = db.nextFileID)
    (hcalm : w.outcomes = []) : KeepsFile id w (left (startFile db.number) w) := by
  by_cases hmax : db.number = maxFileID
  · rw [hmax, left_error (startFile_max w)]
    exact refl_of _ w
  · obtain ⟨d, db', os⟩ := w
    obtain rfl : os = [] := hcalm
    have hnext : db'.nextFileID = db.nextFileID := hdb
    have hle := db.le_number
    rw [left_ok (startFile_run d db' hmax)]
    refine fun _ => ⟨rfl, rfl, rfl, ?_, fun bs hbs => ⟨[], ?_⟩, fun h => h,
      fun hlt hnone hid => ⟨?_, hid⟩⟩
    · change db'.nextFileID ≤ db.number + 1
      omega
    · by_cases hi : id = db.number
      · subst hi
        have hbs' : d.data[db.number]? = some bs := hbs
        simp [hbs']
      · rw [List.append_nil, Maps.getElem?_insert_of_ne hi]
        exact hbs
    · have hlt' : id < db'.nextFileID := hlt
      rw [Maps.getElem?_insert_of_ne (by omega)]
      exact hnone

theorem keeps_rotateActiveFileLocked : Within (KeepsFile id) rotateActiveFileLocked := by
  intro w hcalm
  have hends : KeepsFile id w (left endFile w) :=
    (permits_keeps (T := fun _ => True)).endFile trivial
  have hdraws : Draws (fun _ => True) [] none w (left endFile w) := permits_draws.endFile trivial
  have hleft : left rotateActiveFileLocked w =
      left (endFile >>= fun _ => startFile w.db.number) w := by
    rw [left, rotateActiveFileLocked_eq]
    rfl
  rw [hleft]
  cases hend : endFile w with
  | error err v =>
    rw [left_error hend] at hends
    rw [left_bind_error hend]
    exact hends hcalm
  | ok _ v =>
    rw [left_ok hend] at hends hdraws
    rw [left_bind_ok hend]
    exact trans_of (KeepsFile id) hends
      (keeps_startFile hdraws.next (hdraws.calm hcalm)) hcalm

theorem keeps_allocateDataFileID : Within (KeepsFile id) allocateDataFileID := by
  intro w
  rcases allocateDataFileID_cases w with ⟨e, herror⟩ | ⟨-, hok⟩
  · rw [left_error herror]
    exact refl_of _ w
  · rw [left_ok hok]
    exact fun hcalm => ⟨hcalm, rfl, rfl, Nat.le_succ_of_le w.db.le_number,
      fun bs hbs => ⟨[], by rw [List.append_nil]; exact hbs⟩, fun h => h,
      fun _ hnone hid => ⟨hnone, hid⟩⟩

theorem keeps_publishFile (h : id ≠ i) : Within (KeepsFile id) (publishFile i) :=
  have hpermits : Permits (fun _ => True) (KeepsFile id) := permits_keeps
  .bind (within_renameData hpermits.calls fun w _ hcalm =>
    ⟨hcalm, .of_same (Maps.getElem?_insert_of_ne h) (.refl w.db)⟩) fun _ =>
      hpermits.renameHint trivial

theorem keeps_removeSegment (h : id ≠ i) : Within (KeepsFile id) (removeSegment i) := by
  have hpermits : Permits (fun _ => True) (KeepsFile id) := permits_keeps
  refine .bind (within_modifyDB fun w hcalm => ⟨hcalm, rfl, rfl, Nat.le_refl _,
    fun bs hbs => ⟨[], by rw [List.append_nil]; exact hbs⟩, fun hid => ?_,
    fun _ hnone hid => ⟨hnone, fun hmem => ?_⟩⟩) fun _ => .bind ?_ fun _ =>
      hpermits.removeFile (fun _ => rfl) (fun _ => rfl) fun _ => .all
  · exact List.mem_filter.mpr ⟨hid, by simpa using h⟩
  · exact hid (List.mem_of_mem_filter hmem)
  · refine within_removeFile hpermits.calls fun w hcalm => ⟨hcalm, .of_same ?_ (.refl w.db)⟩
    change (w.disk.data.erase i)[id]? = _
    rw [ExtTreeMap.getElem?_erase, if_neg fun heq => h (LawfulEqOrd.eq_of_compare heq).symm]

theorem keeps_mergePublish {run : MergeRun} (hnew : id ∉ run.mergedFiles)
    (hold : id ∉ run.immutableIDs) : Within (KeepsFile id) (mergePublish run) :=
  permits_keeps.mergePublish (fun _ _ => trivial)
    (fun _ hi => keeps_publishFile fun heq => hnew (heq ▸ hi))
    fun _ hi => keeps_removeSegment fun heq => hold (heq ▸ hi)

/-! ### The steps of the store -/

variable {s s' : Shared} {seen : List Nat} {c : Call}

/-- What every part of a call keeps, a step of the store keeps. -/
theorem Shared.step_within {R : World → World → Prop} [Std.Refl R] [IsTrans World R]
    (h : Permits (fun _ => True) R) (hreaders : OpensReaders R)
    (hrotate : Within R rotateActiveFileLocked) (hallocate : Within R allocateDataFileID)
    (hpublish : ∀ i run, c = .resume i → s.merges i = some (.next run []) →
      Within R (mergePublish run)) (hs : s.step c = some s') : R s.world s'.world := by
  have halone : ∀ {β : Type} {op : Op β}, Within R op →
      (s.world.after op).map ({ s with world := · }) = some s' → R s.world s'.world := by
    intro β op hop hs
    obtain ⟨w', hafter, rfl⟩ := Option.map_eq_some_iff.mp hs
    have := hop s.world
    rwa [← World.after_eq_left hafter] at this
  have hpart : ∀ {β : Type} {op : Op β} {next : β → Option Merging} {p : Option Merging × World},
      Within R op → s.world.part op next = some p → R s.world p.2 := by
    intro β op next p hop hs
    rcases World.part_cases hs with ⟨a, hok, -⟩ | ⟨err, herror, -⟩
    · exact hop.ok hok
    · exact hop.error herror
  cases c with
  | put ts key value => exact halone (h.put hrotate _ _ _) hs
  | delete ts key => exact halone (h.delete hrotate _ _) hs
  | get key => exact halone (within_getValue h.calls hreaders key) hs
  | listKeys =>
    have hlist : Within R listKeys := .bind within_getDB fun _ => .pure _
    exact halone hlist hs
  | merge i =>
    simp only [Shared.step] at hs
    split at hs
    · obtain ⟨p, hp, rfl⟩ := Option.map_eq_some_iff.mp hs
      exact hpart (within_mergeSnapshot h.calls) hp
    · cases hs
  | resume i =>
    simp only [Shared.step] at hs
    split at hs
    · cases hs
    · next x hx =>
      obtain ⟨p, hp, rfl⟩ := Option.map_eq_some_iff.mp hs
      cases x with
      | next run keys =>
        cases keys with
        | nil => exact hpart (hpublish i run rfl hx) hp
        | cons key keys => exact hpart (h.mergeRead (fun _ _ => trivial) hreaders key) hp
      | found run key r keys =>
        exact hpart (h.mergeAllocate (fun _ => trivial) hallocate run key r) hp
      | placed run file key r keys => exact hpart (h.mergeStore (fun _ _ => trivial) file key r) hp

/-- A file that a step neither makes nor removes is kept. -/
theorem Shared.step_keeps (hs : s.step c = some s')
    (hends : ∀ i run, c = .resume i → s.merges i = some (.next run []) →
      id ∉ run.mergedFiles ∧ id ∉ run.immutableIDs) : KeepsFile id s.world s'.world :=
  Shared.step_within permits_keeps opensReaders_keeps keeps_rotateActiveFileLocked
    keeps_allocateDataFileID (fun i run hc hx =>
      keeps_mergePublish (hends i run hc hx).1 (hends i run hc hx).2) hs

/-- The mode of the `DB` is the same. -/
def SameMode (w w' : World) : Prop :=
  w'.db.closed = w.db.closed ∧ w'.db.opts = w.db.opts

instance : Std.Refl SameMode := ⟨fun _ => ⟨rfl, rfl⟩⟩

instance : IsTrans World SameMode := ⟨fun _ _ _ h h' => ⟨h'.1.trans h.1, h'.2.trans h.2⟩⟩

theorem permits_sameMode : Permits (fun _ => True) SameMode where
  calls _ := ⟨rfl, rfl⟩
  db _ _ h := ⟨h.closed, h.opts⟩
  disk _ _ _ _ _ := ⟨rfl, rfl⟩
  append _ _ _ := ⟨rfl, rfl⟩

theorem sameMode_createNewActiveFile (fileID : Nat) :
    Within SameMode (createNewActiveFile fileID) :=
  have hcall : Within SameMode call := within_call permits_sameMode.calls
  .bind hcall fun _ => .bind (within_modifyDisk fun _ => ⟨rfl, rfl⟩) fun _ => .bind hcall fun _ =>
    .bind within_getDisk fun _ => within_modifyDB fun _ => ⟨rfl, rfl⟩

theorem sameMode_rotateActiveFileLocked : Within SameMode rotateActiveFileLocked := by
  intro w
  have hends : Within SameMode endFile := fun _ => permits_sameMode.endFile trivial
  have hcreate : Within SameMode (do
      createNewActiveFile w.db.number
      modifyDB fun db => { db with nextFileID := w.db.number + 1 }) :=
    .bind (sameMode_createNewActiveFile _) fun _ => within_modifyDB fun _ => ⟨rfl, rfl⟩
  rw [left, rotateActiveFileLocked_eq]
  exact hends.bind (fun _ => .ite (.bind (.throw _) fun _ => hcreate) hcreate) w

theorem sameMode_allocateDataFileID : Within SameMode allocateDataFileID := by
  intro w
  rcases allocateDataFileID_cases w with ⟨e, herror⟩ | ⟨-, hok⟩
  · rw [left_error herror]
    exact refl_of _ w
  · rw [left_ok hok]
    exact ⟨rfl, rfl⟩

theorem sameMode_mergePublish (run : MergeRun) : Within SameMode (mergePublish run) := by
  have hremove : ∀ f, Within SameMode (removeFile f) := fun f =>
    within_removeFile permits_sameMode.calls fun _ => ⟨rfl, rfl⟩
  refine permits_sameMode.mergePublish (fun _ _ => trivial) (fun id _ => ?_) fun id _ => ?_
  · exact .bind (within_renameData permits_sameMode.calls fun _ _ => ⟨rfl, rfl⟩) fun _ =>
      permits_sameMode.renameHint trivial
  · exact .bind (within_modifyDB fun _ => ⟨rfl, rfl⟩) fun _ => .bind (hremove _) fun _ => hremove _

theorem Shared.step_sameMode (hs : s.step c = some s') : SameMode s.world s'.world :=
  Shared.step_within permits_sameMode (fun _ _ _ => ⟨rfl, rfl⟩) sameMode_rotateActiveFileLocked
    sameMode_allocateDataFileID (fun _ run _ _ => sameMode_mergePublish run) hs

theorem sameMode_loadSegments (readWrite : Bool) : Within SameMode (loadSegments readWrite) := by
  have hdb : ∀ {f : DB → DB}, (∀ db, (f db).closed = db.closed ∧ (f db).opts = db.opts) →
      Within SameMode (modifyDB f) := fun hf => within_modifyDB fun w => hf w.db
  refine .bind (within_listDataFileIDs permits_sameMode.calls) fun ids => ?_
  split
  · exact .ite (.bind (sameMode_createNewActiveFile 1) fun _ => hdb fun _ => ⟨rfl, rfl⟩) (.pure _)
  · next active _ =>
    exact .bind (hdb fun _ => ⟨rfl, rfl⟩) fun _ =>
      permits_sameMode.loadFound (fun _ _ _ => ⟨rfl, rfl⟩) ids active readWrite

/-- A `DB` that was opened for writing is open and writable. -/
theorem openWithOptions_mode {opts : OpenOptions}
    (h : openWithOptions { opts with readWrite := true } w = .ok () w') :
    w'.db.closed = false ∧ w'.db.opts.readWrite = true := by
  obtain ⟨opts', hrw, v, v₁, v₂, -, hlayout, hlock, hload⟩ := of_openWithOptions_ok h
  have hchecks : Within SameMode validateLayout :=
    within_validateLayout permits_sameMode.calls fun f =>
      within_removeFile permits_sameMode.calls fun _ => ⟨rfl, rfl⟩
  obtain ⟨hclosed, hopts⟩ := trans_of SameMode (hchecks.ok hlayout) (trans_of SameMode
    (permits_sameMode.acquireWriterLock.ok hlock) ((sameMode_loadSegments true).ok hload))
  exact ⟨hclosed, by rw [hopts]; exact hrw⟩

/-! ### A `Merge` that removes a file -/

/-- The last step of a `Merge` succeeds, and removes its old files. -/
theorem mergePublish_removes {run : MergeRun} (hstaged : w.disk.Staged run.mergedFiles)
    (hcalm : w.outcomes = []) (hopen : w.db.closed = false) (hrw : w.db.opts.readWrite = true) :
    ∃ w', mergePublish run w = .ok () w' ∧
      ∀ id ∈ run.immutableIDs, w'.disk.data[id]? = none ∧ id ∉ w'.db.readers := by
  obtain ⟨d, db, os⟩ := w
  obtain rfl : os = [] := hcalm
  obtain ⟨readers, hclosed, hok⟩ := mergePublish_ok hstaged hopen hrw
  refine ⟨_, hok, fun id hid => ⟨?_, hclosed id hid⟩⟩
  rw [(drop_getElem? run.immutableIDs id).1, if_pos hid]

/-! ### What a call of `Get` finds -/

/-- The entry describes a record of the key with the value. -/
def World.Carries (w : World) (key : Bytes) (e : KeyDirEntry) (value : Bytes) : Prop :=
  ∃ bs, ∃ r : Record, w.disk.data[e.fileID]? = some bs ∧ e.Describes bs key r ∧
    r.value = value ∧ value ≠ tombstoneValue

theorem KeyDirEntry.Describes.append {bs : Bytes} {r : Record} (h : e.Describes bs key r)
    (more : Bytes) : e.Describes (bs ++ more) key r := by
  refine ⟨?_, h.key, h.size, h.fits, h.offset⟩
  have hlength := congrArg List.length h.extent
  rw [KeyDirEntry.extent, List.length_take, List.length_drop, Record.length_encode,
    ← h.size] at hlength
  rw [← h.extent, KeyDirEntry.extent, KeyDirEntry.extent]
  by_cases hempty : e.recordSize.toNat = 0
  · rw [hempty, List.take_zero, List.take_zero]
  · rw [List.drop_append_of_le_length (by omega), List.take_append_of_le_length]
    rw [List.length_drop]
    omega

theorem World.Carries.kept (h : w.Carries key e value) (hk : FileKept e.fileID w w') :
    w'.Carries key e value := by
  obtain ⟨bs, r, hbs, hr, hvalue⟩ := h
  obtain ⟨more, hmore⟩ := hk.data bs hbs
  exact ⟨_, r, hmore, hr.append more, hvalue⟩

theorem World.Carries.there (h : w.Carries key e value) : w.disk.data[e.fileID]? ≠ none := by
  obtain ⟨bs, -, hbs, -⟩ := h
  rw [hbs]
  exact Option.some_ne_none bs

theorem readOpened_run (h : w.Carries key e value) (hcalm : w.outcomes = []) :
    readOpened key e w = .ok value w := by
  obtain ⟨d, db, os⟩ := w
  obtain rfl : os = [] := hcalm
  obtain ⟨bs, r, hbs, hr, rfl, hne⟩ := h
  have hbs' : d.data[e.fileID]? = some bs := hbs
  have hdecode : decodeDataRecord (e.extent bs) = .ok (r, r.size) := by
    have := Record.decode_encode hr.fits []
    rwa [List.append_nil, Record.length_encode, ← hr.extent] at this
  have hsection : readSection e ⟨d, db, []⟩ = .ok (e.extent bs) ⟨d, db, []⟩ := by
    have hsome : e.recordSize ≠ 0 := by
      intro hzero
      have hempty := hr.size
      rw [hzero, Record.size] at hempty
      simp at hempty
      omega
    simp [readSection, if_neg hsome, bind_apply, hbs', hr.offset, KeyDirEntry.extent]
  have hsize : UInt32.ofNat r.size = e.recordSize := by
    rw [← hr.size, UInt32.ofNat_toNat]
  simp [readOpened, bind_apply, hsection, hdecode, hr.key, hsize, hne]

theorem openReader_there (hthere : w.disk.data[fileID]? ≠ none) (hcalm : w.outcomes = [])
    (hopen : w.db.closed = false) :
    ∃ w', openReader fileID w = .ok () w' ∧ fileID ∈ w'.db.readers := by
  obtain ⟨d, db, os⟩ := w
  obtain rfl : os = [] := hcalm
  obtain ⟨bs, hbs⟩ := Option.ne_none_iff_exists'.mp hthere
  have hbs' : d.data[fileID]? = some bs := hbs
  have hopen' : db.closed = false := hopen
  by_cases hmem : fileID ∈ db.readers
  · exact ⟨_, by simp [openReader, bind_apply, hopen', hmem]; rfl, hmem⟩
  · refine ⟨_, by simp [openReader, bind_apply, hopen', hmem, readData, hbs']; rfl, ?_⟩
    exact List.mem_cons_self

theorem openReader_gone (hnone : w.disk.data[fileID]? = none) (hid : fileID ∉ w.db.readers)
    (hcalm : w.outcomes = []) (hopen : w.db.closed = false) :
    openReader fileID w = .error .notExist w := by
  obtain ⟨d, db, os⟩ := w
  obtain rfl : os = [] := hcalm
  have hnone' : d.data[fileID]? = none := hnone
  have hopen' : db.closed = false := hopen
  have hid' : fileID ∉ db.readers := hid
  simp [openReader, bind_apply, hopen', hid', readData, hnone']

/-- A value that `Get` returns is carried by the entry that it looks up. -/
theorem carries_of_lookup (h : w.lookup key = .ok value) :
    ∃ e, findEntry key w = .ok e w ∧ w.Carries key e value := by
  obtain ⟨e, bs, r, he, hbs, hr, hvalue⟩ := lookup_eq_ok h
  unfold World.lookup at h
  split at h
  · next _ _ hget =>
    obtain ⟨e', v, hfind, -⟩ := of_bind_apply_ok hget
    obtain ⟨rfl, he'⟩ := findEntry_ok hfind
    obtain rfl : e = e' := Option.some.inj (he.symm.trans he')
    exact ⟨e, hfind, bs, r, hbs, hr, hvalue⟩
  · cases h

/-! ### The steps of a call -/

variable {t t' : Reading} {a : ReadStep}

/-- The store between any two steps. -/
structure Ready (s : Shared) : Prop where
  numbered : ∃ seen, Numbered seen s
  isOpen : s.world.db.closed = false
  readWrite : s.world.db.opts.readWrite = true

theorem Ready.calm (h : Ready s) : s.world.outcomes = [] := h.numbered.elim fun _ hn => hn.calm

/-- A data file that is there and that a `Merge` is about to make is one of its old files. -/
theorem Ready.taken (h : Ready s) {run : MergeRun} {keys : List Bytes}
    (hx : s.merges i = some (.next run keys)) (hthere : s.world.disk.data[id]? ≠ none)
    (hold : id ∉ run.immutableIDs) : id ∉ run.mergedFiles := fun hid =>
  h.numbered.elim fun _ hn => hold (hn.taken i _ hx id hid (Or.inl hthere))

/-- The relation allows what a call of `Get` does to the store. -/
structure PermitsGet (R : World → World → Prop) : Prop where
  refl : Std.Refl R
  trans : IsTrans World R
  calls : ∀ w : World, R w { w with outcomes := w.outcomes.drop 1 }
  readers : OpensReaders R

theorem permitsGet_draws : PermitsGet (Draws T [] none) :=
  ⟨inferInstance, inferInstance, draws_call, opensReaders_draws⟩

theorem permitsGet_keeps : PermitsGet (KeepsFile id) :=
  ⟨inferInstance, inferInstance, (permits_keeps (T := fun _ => True)).calls, opensReaders_keeps⟩

theorem permitsGet_sameMode : PermitsGet SameMode :=
  ⟨inferInstance, inferInstance, permits_sameMode.calls, fun _ _ _ => ⟨rfl, rfl⟩⟩

theorem Reading.part_get {op : Op α} (j : Nat) (next : α → Getting)
    (hop : ∀ R, PermitsGet R → Within R op) : ∃ w g, t.part j op next = t.goOn j w g ∧
      ∀ R, PermitsGet R → R t.shared.world w := by
  unfold Reading.part
  cases hresult : op t.shared.world with
  | ok a w => exact ⟨w, _, rfl, fun R hR => (hop R hR).ok hresult⟩
  | error err w => exact ⟨w, _, rfl, fun R hR => (hop R hR).error hresult⟩

/-- The call of `Get` that takes the step. -/
def ReadStep.get : ReadStep → Option Nat
  | .call _ => none
  | .find id _ | .openFile id | .read id => some id

/-- A step of a call of `Get` does no more to the store than open a descriptor. -/
theorem Reading.step_get {j : Nat} (hs : t.step a = some t') (ha : a.get = some j) :
    ∃ w g, t' = t.goOn j w g ∧ ∀ R, PermitsGet R → R t.shared.world w := by
  have hpart : ∀ {β : Type} {op : Op β} {next : β → Getting}, (∀ R, PermitsGet R → Within R op) →
      t.part j op next = t' →
        ∃ w g, t' = t.goOn j w g ∧ ∀ R, PermitsGet R → R t.shared.world w := by
    intro β op next hop heq
    obtain ⟨w, g, hpart, hw⟩ := t.part_get j next hop
    exact ⟨w, g, heq.symm.trans hpart, hw⟩
  cases a with
  | call c => cases ha
  | find id key =>
    obtain rfl := Option.some.inj ha
    simp only [Reading.step] at hs
    split at hs
    · refine hpart (fun R hR => ?_) (Option.some.inj hs)
      have := hR.refl
      have := hR.trans
      exact within_findEntry key
    · cases hs
  | openFile id =>
    obtain rfl := Option.some.inj ha
    simp only [Reading.step] at hs
    split at hs
    · refine hpart (fun R hR => ?_) (Option.some.inj hs)
      have := hR.refl
      have := hR.trans
      exact within_openReader hR.calls hR.readers _
    · cases hs
  | read id =>
    obtain rfl := Option.some.inj ha
    simp only [Reading.step] at hs
    split at hs
    · refine hpart (fun R hR => ?_) (Option.some.inj hs)
      have := hR.refl
      have := hR.trans
      refine .bind (within_readSection hR.calls _) fun bs => ?_
      split
      · exact .throw _
      · exact .ite (.throw _) (.ite (.throw _) (.pure _))
    · obtain rfl := Option.some.inj hs
      exact ⟨_, _, rfl, fun R hR => hR.refl.refl _⟩
    · cases hs

theorem Reading.step_call {c : Call} (hs : t.step (.call c) = some t') :
    t.shared.step c = some t'.shared ∧
      ∀ id, t'.gets id = (t.gets id).map (Getting.keep t'.shared.world.db.readers) := by
  obtain ⟨s', hstep, rfl⟩ := Option.map_eq_some_iff.mp hs
  exact ⟨hstep, fun _ => rfl⟩

theorem Ready.initial (h : opened.initial s) : Ready s := by
  obtain ⟨-, d, db, opts, hopen⟩ := id h
  obtain ⟨hclosed, hrw⟩ := openWithOptions_mode hopen
  exact ⟨⟨[], .initial h⟩, hclosed, hrw⟩

theorem Ready.step (h : Ready t.shared) (hs : t.step a = some t') : Ready t'.shared := by
  obtain ⟨seen, hn⟩ := h.numbered
  cases ha : a.get with
  | none =>
    cases a with
    | call c =>
      have hstep := (Reading.step_call hs).1
      obtain ⟨hclosed, hopts⟩ := Shared.step_sameMode hstep
      exact ⟨⟨_, hn.step hstep⟩, hclosed.trans h.isOpen, hopts ▸ h.readWrite⟩
    | find | openFile | read => cases ha
  | some j =>
    obtain ⟨w, g, rfl, hw⟩ := Reading.step_get hs ha
    obtain ⟨hclosed, hopts⟩ := hw _ permitsGet_sameMode
    exact ⟨⟨_, hn.takes (hn.alone none (hw _ permitsGet_draws))⟩,
      hclosed.trans h.isOpen, hopts ▸ h.readWrite⟩

theorem Unwrapped.read (h : Unwrapped t.shared) (hready : Ready t.shared)
    (hs : t.step a = some t') : Unwrapped t'.shared := by
  obtain ⟨seen, hn⟩ := hready.numbered
  cases ha : a.get with
  | none =>
    cases a with
    | call c => exact h.step hn (Reading.step_call hs).1
    | find | openFile | read => cases ha
  | some j =>
    obtain ⟨w, g, rfl, hw⟩ := Reading.step_get hs ha
    exact h.takes hn (hn.alone none (hw _ permitsGet_draws))

/-- A step keeps a file that it neither makes nor removes. -/
theorem Ready.keeps (h : Ready t.shared) (hs : t.step a = some t') (hold : id ∉ t.removes a)
    (hnew : ∀ i run, t.shared.merges i = some (.next run []) → id ∉ run.immutableIDs →
      id ∉ run.mergedFiles) : FileKept id t.shared.world t'.shared.world := by
  cases ha : a.get with
  | none =>
    cases a with
    | call c =>
      refine (Shared.step_keeps (Reading.step_call hs).1 (fun i run hc hx => ?_) h.calm).2
      subst hc
      have hout : id ∉ run.immutableIDs := by simpa only [Reading.removes, hx] using hold
      exact ⟨hnew i run hx hout, hout⟩
    | find | openFile | read => cases ha
  | some j =>
    obtain ⟨w, g, rfl, hw⟩ := Reading.step_get hs ha
    exact (hw _ permitsGet_keeps h.calm).2

/-- What a call of `Get` has in hand as long as no step has removed its file. -/
def Getting.Good (key value : Bytes) (w : World) : Getting → Prop
  | .found k e => k = key ∧ w.Carries key e value
  | .opened k e closed => k = key ∧ w.Carries key e value ∧ e.fileID ∈ w.db.readers ∧ closed = false
  | .returned result => result = .ok value

/-- The file of the ID was removed, and no call makes it again. -/
structure Shared.Removed (s : Shared) (id : Nat) : Prop where
  data : s.world.disk.data[id]? = none
  reader : id ∉ s.world.db.readers
  below : id < s.world.db.nextFileID
  unnamed : ∀ i, id ∉ s.filesOf i

/-- What is left for a call of `Get` once its file was removed. -/
def Getting.Lost (s : Shared) : Getting → Prop
  | .found _ e => s.Removed e.fileID
  | .opened _ _ closed => closed = true
  | .returned result => ∃ err, result = .error err

structure Undisturbed (id : Nat) (key value : Bytes) (t : Reading) : Prop where
  ready : Ready t.shared
  good : ∃ g, t.gets id = some g ∧ g.Good key value t.shared.world

structure Disturbed (id : Nat) (t : Reading) : Prop where
  ready : Ready t.shared
  lost : ∃ g, t.gets id = some g ∧ g.Lost t.shared

/-- A call that is not the one of the step. -/
theorem Reading.gets_other {w : World} {g : Getting} {j : Nat} (h : id ≠ j) :
    (t.goOn j w g).gets id = t.gets id := Function.update_of_ne h _ _

theorem Reading.gets_self {w : World} {g : Getting} : (t.goOn id w g).gets id = some g :=
  Function.update_self _ _ _

theorem Getting.Good.kept {g : Getting} (h : g.Good key value w)
    (hkept : ∀ e ∈ g.entry, FileKept e.fileID w w') :
    g.Good key value w' ∧ (g.keep w'.db.readers).Good key value w' := by
  cases g with
  | found k e => exact ⟨⟨h.1, h.2.kept (hkept e rfl)⟩, h.1, h.2.kept (hkept e rfl)⟩
  | opened k e closed =>
    obtain ⟨hk, hcarries, hreader, rfl⟩ := h
    have hstays := hcarries.kept (hkept e rfl)
    have hopen := (hkept e rfl).reader hreader
    exact ⟨⟨hk, hstays, hopen, rfl⟩, hk, hstays, hopen, by simpa using hopen⟩
  | returned result => exact ⟨h, h⟩

theorem Getting.Good.there {g : Getting} (h : g.Good key value w) (he : e ∈ g.entry) :
    w.disk.data[e.fileID]? ≠ none := by
  cases g with
  | found k e' =>
    obtain rfl := Option.some.inj he
    exact h.2.there
  | opened k e' closed =>
    obtain rfl := Option.some.inj he
    exact h.2.1.there
  | returned result => cases he

/-- The next step of a call that nothing has disturbed. -/
theorem Undisturbed.own (h : Undisturbed id key value t) (ha : a.get = some id)
    (hs : t.step a = some t') :
    ∃ g, t'.gets id = some g ∧ g.Good key value t'.shared.world := by
  obtain ⟨g, hg, hgood⟩ := h.good
  cases a with
  | call c => cases ha
  | find id' k =>
    obtain rfl := Option.some.inj ha
    simp only [Reading.step, hg] at hs
    cases hs
  | openFile id' =>
    obtain rfl := Option.some.inj ha
    cases g with
    | found k e =>
      obtain ⟨rfl, hcarries⟩ := hgood
      obtain ⟨w, hopen, hmem⟩ := openReader_there hcarries.there h.ready.calm h.ready.isOpen
      have hkept : FileKept e.fileID t.shared.world w :=
        (within_openReader permitsGet_keeps.calls opensReaders_keeps _).ok hopen h.ready.calm |>.2
      simp only [Reading.step, hg, Reading.part, hopen, Option.some.injEq] at hs
      subst hs
      exact ⟨_, Reading.gets_self, rfl, hcarries.kept hkept, hmem, rfl⟩
    | opened | returned =>
      simp only [Reading.step, hg] at hs
      cases hs
  | read id' =>
    obtain rfl := Option.some.inj ha
    cases g with
    | opened k e closed =>
      obtain ⟨rfl, hcarries, -, rfl⟩ := hgood
      have hread := readOpened_run hcarries h.ready.calm
      simp only [Reading.step, hg, Reading.part, hread, Option.some.injEq] at hs
      subst hs
      exact ⟨_, Reading.gets_self, rfl⟩
    | found | returned =>
      simp only [Reading.step, hg] at hs
      cases hs

theorem Undisturbed.step (h : Undisturbed id key value t) (hleaves : Reading.Leaves id t a)
    (hs : t.step a = some t') : Undisturbed id key value t' := by
  obtain ⟨g, hg, hgood⟩ := h.good
  refine ⟨h.ready.step hs, ?_⟩
  have hkept : ∀ e ∈ g.entry, FileKept e.fileID t.shared.world t'.shared.world := by
    intro e he
    refine h.ready.keeps hs (hleaves e ?_) fun i run hx => h.ready.taken hx (hgood.there he)
    rw [hg]
    exact he
  obtain ⟨hsame, hkeep⟩ := hgood.kept hkept
  cases ha : a.get with
  | none =>
    cases a with
    | call c =>
      refine ⟨_, ?_, hkeep⟩
      rw [(Reading.step_call hs).2 id, hg]
      rfl
    | find | openFile | read => cases ha
  | some j =>
    by_cases hj : id = j
    · exact h.own (hj ▸ ha) hs
    · obtain ⟨w, g', rfl, -⟩ := Reading.step_get hs ha
      exact ⟨g, (Reading.gets_other hj).trans hg, hsame⟩

/-- Only the last step of a `Merge` removes files. -/
theorem Reading.mem_removes (h : id ∈ t.removes a) : ∃ i run, a = .call (.resume i) ∧
    t.shared.merges i = some (.next run []) ∧ id ∈ run.immutableIDs := by
  unfold Reading.removes at h
  split at h
  · next i =>
    split at h
    · next run hx => exact ⟨i, run, rfl, hx, h⟩
    · cases h
  · cases h

theorem Ready.removes (h : Ready t.shared) (hid : id ∈ t.removes a) (hs : t.step a = some t') :
    t'.shared.world.disk.data[id]? = none ∧ id ∉ t'.shared.world.db.readers := by
  obtain ⟨i, run, rfl, hx, hold⟩ := Reading.mem_removes hid
  obtain ⟨seen, hn⟩ := h.numbered
  have hstaged : t.shared.world.disk.Staged run.mergedFiles := by
    have hfiles := hn.staged i
    rwa [filesOf_of_merges hx] at hfiles
  obtain ⟨w, hop, hgone⟩ := mergePublish_removes hstaged h.calm h.isOpen h.readWrite
  have hstep := (Reading.step_call hs).1
  simp only [Shared.step, hx, Merging.resume, World.part, hop, Option.map_some,
    Option.some.injEq] at hstep
  rw [← hstep]
  exact hgone id hold

/-- A number that was given away is not given away again. -/
theorem Ready.unnamed (h : Ready t.shared) (hs : t.step a = some t')
    (hlt : id < t.shared.world.db.nextFileID) (hnone : ∀ i, id ∉ t.shared.filesOf i) :
    id < t'.shared.world.db.nextFileID ∧ ∀ i, id ∉ t'.shared.filesOf i := by
  obtain ⟨seen, hn⟩ := h.numbered
  cases ha : a.get with
  | none =>
    cases a with
    | call c =>
      obtain ⟨j, files, htakes⟩ := hn.step_takes (Reading.step_call hs).1
      refine ⟨hlt.trans_le (hn.next_le htakes.draws).1, fun i hid => ?_⟩
      rcases htakes.oldOrNew hid with hold | ⟨-, hnew⟩
      · exact hnone i hold
      · have := (hn.number htakes.draws hnew).1
        omega
    | find | openFile | read => cases ha
  | some j =>
    obtain ⟨w, g, rfl, hw⟩ := Reading.step_get hs ha
    have hdraws : Draws (fun _ => False) [] none t.shared.world w := hw _ permitsGet_draws
    exact ⟨hdraws.next ▸ hlt, hnone⟩

theorem Shared.Removed.step (h : t.shared.Removed id) (hready : Ready t.shared)
    (hs : t.step a = some t') : t'.shared.Removed id := by
  obtain ⟨hlt, hnone⟩ := hready.unnamed hs h.below h.unnamed
  by_cases hid : id ∈ t.removes a
  · obtain ⟨hdata, hreader⟩ := hready.removes hid hs
    exact ⟨hdata, hreader, hlt, hnone⟩
  · have hkept := hready.keeps hs hid fun i run hx _ => by
      rw [← show t.shared.filesOf i = run.mergedFiles from filesOf_of_merges hx]
      exact h.unnamed i
    obtain ⟨hdata, hreader⟩ := hkept.gone h.below h.data h.reader
    exact ⟨hdata, hreader, hlt, hnone⟩

/-- A step that removes the file of a call disturbs it. -/
theorem Undisturbed.disturb (h : Undisturbed id key value t) (hfresh : Unwrapped t.shared)
    (hleaves : ¬ Reading.Leaves id t a) (hs : t.step a = some t') : Disturbed id t' := by
  obtain ⟨g, hg, hgood⟩ := h.good
  refine ⟨h.ready.step hs, ?_⟩
  obtain ⟨e, he, hid⟩ : ∃ e ∈ g.entry, e.fileID ∈ t.removes a := by
    simp only [Reading.Leaves, hg, not_forall, not_not] at hleaves
    obtain ⟨e, he, hid⟩ := hleaves
    exact ⟨e, he, hid⟩
  obtain ⟨hdata, hreader⟩ := h.ready.removes hid hs
  obtain ⟨i, run, rfl, -⟩ := Reading.mem_removes hid
  refine ⟨_, ((Reading.step_call hs).2 id).trans (by rw [hg]; rfl), ?_⟩
  cases g with
  | found k e' =>
    obtain rfl := Option.some.inj he
    have hthere : t.shared.world.disk.HasID e'.fileID := Or.inl hgood.2.there
    obtain ⟨hlt, hnone⟩ := h.ready.unnamed hs (hfresh.below _ hthere)
      fun i hi => hfresh.unnamed i _ hi hthere
    exact ⟨hdata, hreader, hlt, hnone⟩
  | opened k e' closed =>
    obtain rfl := Option.some.inj he
    simp [Getting.keep, Getting.Lost, hreader]
  | returned result => cases he

/-- The next step of a call whose file was removed. -/
theorem Disturbed.own (h : Disturbed id t) (ha : a.get = some id) (hs : t.step a = some t') :
    ∃ g, t'.gets id = some g ∧ g.Lost t'.shared := by
  obtain ⟨g, hg, hlost⟩ := h.lost
  cases a with
  | call c => cases ha
  | find id' k =>
    obtain rfl := Option.some.inj ha
    simp only [Reading.step, hg] at hs
    cases hs
  | openFile id' =>
    obtain rfl := Option.some.inj ha
    cases g with
    | found k e =>
      have hgone : t.shared.Removed e.fileID := hlost
      have hopen := openReader_gone hgone.data hgone.reader h.ready.calm h.ready.isOpen
      simp only [Reading.step, hg, Reading.part, hopen, Option.some.injEq] at hs
      subst hs
      exact ⟨_, Reading.gets_self, _, rfl⟩
    | opened | returned =>
      simp only [Reading.step, hg] at hs
      cases hs
  | read id' =>
    obtain rfl := Option.some.inj ha
    cases g with
    | opened k e closed =>
      obtain rfl : closed = true := hlost
      simp only [Reading.step, hg, Option.some.injEq] at hs
      subst hs
      exact ⟨_, Reading.gets_self, _, rfl⟩
    | found | returned =>
      simp only [Reading.step, hg] at hs
      cases hs

theorem Disturbed.step (h : Disturbed id t) (hs : t.step a = some t') : Disturbed id t' := by
  obtain ⟨g, hg, hlost⟩ := h.lost
  refine ⟨h.ready.step hs, ?_⟩
  have hstays : ∀ readers, g.Lost t'.shared ∧ (g.keep readers).Lost t'.shared := by
    intro readers
    cases g with
    | found k e =>
      have hgone : t'.shared.Removed e.fileID := Shared.Removed.step hlost h.ready hs
      exact ⟨hgone, hgone⟩
    | opened k e closed =>
      obtain rfl : closed = true := hlost
      exact ⟨rfl, rfl⟩
    | returned result => exact ⟨hlost, hlost⟩
  cases ha : a.get with
  | none =>
    cases a with
    | call c =>
      exact ⟨_, ((Reading.step_call hs).2 id).trans (by rw [hg]; rfl), (hstays _).2⟩
    | find | openFile | read => cases ha
  | some j =>
    by_cases hj : id = j
    · exact h.own (hj ▸ ha) hs
    · obtain ⟨w, g', rfl, -⟩ := Reading.step_get hs ha
      exact ⟨g, (Reading.gets_other hj).trans hg, (hstays []).1⟩

theorem Ready.of_exec {t₀ : Reading} {before : List ReadStep} (h₀ : reading.initial t₀)
    (hbefore : reading.exec t₀ before = some t) : Ready t.shared :=
  Machine.Leads.invariant (P := fun t => Ready t.shared) (fun _ _ _ h hs => h.step hs)
    ⟨before, hbefore⟩ (.initial h₀.1)

theorem Unwrapped.of_exec {t₀ : Reading} {before : List ReadStep} (h₀ : reading.initial t₀)
    (hmax : ∀ id, t₀.shared.world.disk.HasID id → id < maxFileID)
    (hbefore : reading.exec t₀ before = some t) : Unwrapped t.shared :=
  (Machine.Leads.invariant (P := fun t => Ready t.shared ∧ Unwrapped t.shared)
    (fun _ _ _ h hs => ⟨h.1.step hs, h.2.read h.1 hs⟩) ⟨before, hbefore⟩
    ⟨.initial h₀.1, .initial h₀.1 hmax⟩).2

/-- A call of `Get` that finds a value begins undisturbed. -/
theorem Undisturbed.find (h : Ready t.shared) (hlive : t.shared.world.lookup key = .ok value)
    (hs : t.step (.find id key) = some t') : Undisturbed id key value t' := by
  obtain ⟨e, hfind, hcarries⟩ := carries_of_lookup hlive
  refine ⟨h.step hs, ?_⟩
  simp only [Reading.step] at hs
  split at hs
  · simp only [Reading.part, hfind, Option.some.injEq] at hs
    subst hs
    exact ⟨_, Reading.gets_self, rfl, hcarries⟩
  · cases hs

/-- A call of `Get` is not forgotten. -/
theorem Reading.stays {g : Getting} (hg : t.gets id = some g) (hs : t.step a = some t') :
    ∃ g, t'.gets id = some g := by
  cases ha : a.get with
  | none =>
    cases a with
    | call c => exact ⟨_, ((Reading.step_call hs).2 id).trans (by rw [hg]; rfl)⟩
    | find | openFile | read => cases ha
  | some j =>
    obtain ⟨w, g', rfl, -⟩ := Reading.step_get hs ha
    by_cases hj : id = j
    · subst hj
      exact ⟨g', Reading.gets_self⟩
    · exact ⟨g, (Reading.gets_other hj).trans hg⟩

/-- A call that has not returned can take its next step. -/
theorem Reading.goes_on {g : Getting} (hg : t.gets id = some g) :
    (∃ result, t.gets id = some (.returned result)) ∨
      (t.step (.openFile id)).isSome ∨ (t.step (.read id)).isSome := by
  cases g with
  | found k e =>
    refine Or.inr (Or.inl ?_)
    simp only [Reading.step, hg, Option.isSome_some]
  | opened k e closed =>
    refine Or.inr (Or.inr ?_)
    cases closed <;> simp only [Reading.step, hg, Option.isSome_some]
  | returned result => exact Or.inl ⟨result, hg⟩

/-- Whatever the directory holds and whatever other calls do between the steps of a `Get`: the `Get`
never gets stuck, and it returns the value that its key has when it looks the entry up if no `Merge`
ends between its steps of which the file of the entry is an old file. Where no data file has the
largest ID, so that no number is given away twice, it returns the value only then. -/
theorem get_beside_merge {t₀ t₁ t₂ : Reading} {before after : List ReadStep}
    (h₀ : reading.initial t₀) (hbefore : reading.exec t₀ before = some t)
    (hlive : t.shared.world.lookup key = .ok value)
    (hfind : reading.step t (.find id key) = some t₁) (hafter : reading.exec t₁ after = some t₂) :
    (∀ result, t₂.gets id = some (.returned result) →
      (reading.Along (Reading.Leaves id) t₁ after → result = .ok value) ∧
      ((∀ i, t₀.shared.world.disk.HasID i → i < maxFileID) → result = .ok value →
        reading.Along (Reading.Leaves id) t₁ after)) ∧
    ((∃ result, t₂.gets id = some (.returned result)) ∨
      (reading.step t₂ (.openFile id)).isSome ∨ (reading.step t₂ (.read id)).isSome) := by
  have hready : Ready t.shared := .of_exec h₀ hbefore
  have hbegins : Undisturbed id key value t₁ := .find hready hlive hfind
  refine ⟨fun result hresult => ⟨fun halong => ?_, fun hmax hok => ?_⟩, ?_⟩
  · obtain ⟨g, hg, hgood⟩ := (halong.invariant (fun _ _ _ h hP hs => h.step hP hs) hafter
      hbegins).good
    obtain rfl := Option.some.inj (hg.symm.trans hresult)
    exact hgood
  · have hfresh : Unwrapped t₁.shared :=
      (Unwrapped.of_exec h₀ hmax hbefore).read (a := .find id key) hready hfind
    rcases Machine.along_or (P := Reading.Leaves id)
      (I := fun t => Undisturbed id key value t ∧ Unwrapped t.shared) (J := Disturbed id)
      (fun _ _ _ h hP hs => ⟨h.1.step hP hs, h.2.read h.1.ready hs⟩)
      (fun _ _ _ h hP hs => h.1.disturb h.2 hP hs) (fun _ _ _ h hs => h.step hs) hafter
      ⟨hbegins, hfresh⟩ with ⟨halong, -⟩ | ⟨-, hlost⟩
    · exact halong
    · obtain ⟨g, hg, hlost⟩ := hlost.lost
      obtain rfl := Option.some.inj (hg.symm.trans hresult)
      obtain ⟨err, herror⟩ := hlost
      cases herror.symm.trans hok
  · have hcalls : ∃ g, t₂.gets id = some g :=
      Machine.Leads.invariant (P := fun t : Reading => ∃ g, t.gets id = some g)
        (fun _ _ _ ⟨_, hg⟩ hs => Reading.stays hg hs) ⟨after, hafter⟩
        (hbegins.good.imp fun _ => And.left)
    exact Reading.goes_on hcalls.choose_spec

/-- A store with a data file before the active one, of which a `Merge` has copied the record. -/
def copied : List ReadStep :=
  [.call (.put 1 [1] [7]), .call (.put 2 [2] [8]), .call (.merge 0), .call (.resume 0),
    .call (.resume 0), .call (.resume 0)]

/-- The state when a `Get` of the copied record has looked its entry up. -/
def lookedUp : Option (Reading × Reading × Reading) := do
  let w ← World.returned (openWithOptions ⟨true, false, 25⟩) World.empty
  let t ← reading.exec ⟨⟨w, fun _ => none⟩, fun _ => none⟩ copied
  let t₁ ← reading.step t (.find 5 [1])
  return (⟨⟨w, fun _ => none⟩, fun _ => none⟩, t, t₁)

theorem of_lookedUp {t₀ t t₁ : Reading} (h : lookedUp = some (t₀, t, t₁)) :
    reading.initial t₀ ∧ reading.exec t₀ copied = some t ∧
      reading.step t (.find 5 [1]) = some t₁ := by
  unfold lookedUp at h
  obtain ⟨w, hw, h⟩ := Option.bind_eq_some_iff.mp h
  obtain ⟨t', ht, h⟩ := Option.bind_eq_some_iff.mp h
  obtain ⟨t₁', ht₁, h⟩ := Option.bind_eq_some_iff.mp h
  obtain ⟨rfl, hpair⟩ := Prod.mk.inj (Option.some.inj h)
  obtain ⟨rfl, rfl⟩ := Prod.mk.inj hpair
  obtain ⟨_, hopen⟩ := World.of_returned hw
  exact ⟨⟨⟨rfl, _, _, ⟨true, false, 25⟩, hopen⟩, rfl⟩, ht, ht₁⟩

/-- The `Get` is over when the `Merge` ends. -/
def readFirst : List ReadStep := [.openFile 5, .read 5, .call (.resume 0)]

theorem get_beside_merge_readFirst : ∃ t₀ t t₁ t₂, reading.initial t₀ ∧
    reading.exec t₀ copied = some t ∧ t.shared.world.lookup [1] = .ok [7] ∧
    reading.step t (.find 5 [1]) = some t₁ ∧ reading.exec t₁ readFirst = some t₂ ∧
    t₂.gets 5 = some (.returned (.ok [7])) ∧ reading.Along (Reading.Leaves 5) t₁ readFirst := by
  obtain ⟨⟨t₀, t, t₁⟩, ht⟩ : ∃ p, lookedUp = some p :=
    Option.isSome_iff_exists.mp (by decide +kernel)
  obtain ⟨h₀, hbefore, hfind⟩ := of_lookedUp ht
  have hruns : ∀ p ∈ lookedUp, p.1.shared.world.disk.data.keys = [1] ∧
      p.1.shared.world.disk.other = [] ∧ p.2.1.shared.world.lookup [1] = .ok [7] ∧
      (reading.exec p.2.2 readFirst).isSome ∧
      ∀ t₂ ∈ reading.exec p.2.2 readFirst, t₂.gets 5 = some (.returned (.ok [7])) := by
    decide +kernel
  obtain ⟨hkeys, hother, hlive, hsome, hends⟩ := hruns _ ht
  have hmax : ∀ i, t₀.shared.world.disk.HasID i → i < maxFileID := by
    intro i hi
    obtain rfl := List.mem_singleton.mp (hkeys ▸ hi.mem_keys hother)
    decide
  obtain ⟨t₂, hafter⟩ := Option.isSome_iff_exists.mp hsome
  have hresult := hends t₂ hafter
  exact ⟨t₀, t, t₁, t₂, h₀, hbefore, hlive, hfind, hafter, hresult,
    ((get_beside_merge h₀ hbefore hlive hfind hafter).1 _ hresult).2 hmax rfl⟩

/-- The record below a file with the largest ID is copied: the numbers start anew, so it goes to the
first file. -/
def copiedBelow : List ReadStep := .call (.merge 0) :: List.replicate 3 (.call (.resume 0))

/-- The state when a `Get` of that record has looked its entry up. -/
def lookedUpBelow : Option (Reading × Reading × Reading) := do
  let s₀ ← openedOn 2 maxFileID
  let t ← reading.exec { shared := s₀ } copiedBelow
  let t₁ ← reading.step t (.find 5 [1])
  return ({ shared := s₀ }, t, t₁)

/-- The first `Merge` removes the file of the entry, and a second one gives its own file the number
of that one before the `Get` opens it. -/
def renumbered : List ReadStep :=
  .call (.resume 0) :: .call (.merge 1) :: List.replicate 4 (.call (.resume 1)) ++
    [.openFile 5, .read 5]

/-- Where a number is given away twice, a `Get` may find its record although its file was removed
meanwhile. -/
theorem not_along_renumbered : ∃ t₀ t t₁ t₂, reading.initial t₀ ∧
    reading.exec t₀ copiedBelow = some t ∧ t.shared.world.lookup [1] = .ok [7] ∧
    reading.step t (.find 5 [1]) = some t₁ ∧ reading.exec t₁ renumbered = some t₂ ∧
    t₂.gets 5 = some (.returned (.ok [7])) ∧ ¬ reading.Along (Reading.Leaves 5) t₁ renumbered := by
  obtain ⟨p, hp⟩ : ∃ p, lookedUpBelow = some p := Option.isSome_iff_exists.mp (by decide +kernel)
  have hruns : ∀ p ∈ lookedUpBelow, p.2.1.shared.world.lookup [1] = .ok [7] ∧
      (∃ e ∈ (p.2.2.gets 5).bind Getting.entry, e.fileID ∈ p.2.2.removes (.call (.resume 0))) ∧
      (reading.exec p.2.2 renumbered).isSome ∧
      ∀ t₂ ∈ reading.exec p.2.2 renumbered, t₂.gets 5 = some (.returned (.ok [7])) := by
    decide +kernel
  obtain ⟨hlive, ⟨e, he, hremoved⟩, hsome, hends⟩ := hruns p hp
  obtain ⟨t₂, hafter⟩ := Option.isSome_iff_exists.mp hsome
  unfold lookedUpBelow at hp
  obtain ⟨s₀, hs₀, h⟩ := Option.bind_eq_some_iff.mp hp
  obtain ⟨t, ht, h⟩ := Option.bind_eq_some_iff.mp h
  obtain ⟨t₁, ht₁, h⟩ := Option.bind_eq_some_iff.mp h
  obtain rfl := Option.some.inj h
  exact ⟨_, t, t₁, t₂, ⟨initial_of_openedOn hs₀, rfl⟩, ht, hlive, ht₁, hafter, hends t₂ hafter,
    fun h => h.1 e he hremoved⟩

/-- The `Merge` ends before the `Get` opens the file, or before it reads the file it opened. -/
theorem not_get_beside_merge : ∃ t₀ t t₁, reading.initial t₀ ∧
    reading.exec t₀ copied = some t ∧ t.shared.world.lookup [1] = .ok [7] ∧
    reading.step t (.find 5 [1]) = some t₁ ∧
    (∃ t₂, reading.exec t₁ [.call (.resume 0), .openFile 5] = some t₂ ∧
      t₂.shared.world.lookup [1] = .ok [7] ∧
      t₂.gets 5 = some (.returned (.error .notExist))) ∧
    ∃ t₂, reading.exec t₁ [.openFile 5, .call (.resume 0), .read 5] = some t₂ ∧
      t₂.shared.world.lookup [1] = .ok [7] ∧ t₂.gets 5 = some (.returned (.error .closed)) := by
  obtain ⟨⟨t₀, t, t₁⟩, ht⟩ : ∃ p, lookedUp = some p :=
    Option.isSome_iff_exists.mp (by decide +kernel)
  obtain ⟨h₀, hbefore, hfind⟩ := of_lookedUp ht
  have hruns : ∀ p ∈ lookedUp, p.2.1.shared.world.lookup [1] = .ok [7] ∧
      (reading.exec p.2.2 [.call (.resume 0), .openFile 5]).isSome ∧
      (∀ t₂ ∈ reading.exec p.2.2 [.call (.resume 0), .openFile 5],
        t₂.shared.world.lookup [1] = .ok [7] ∧
        t₂.gets 5 = some (.returned (.error .notExist))) ∧
      (reading.exec p.2.2 [.openFile 5, .call (.resume 0), .read 5]).isSome ∧
      ∀ t₂ ∈ reading.exec p.2.2 [.openFile 5, .call (.resume 0), .read 5],
        t₂.shared.world.lookup [1] = .ok [7] ∧
        t₂.gets 5 = some (.returned (.error .closed)) := by
    decide +kernel
  obtain ⟨hlive, hsome, hends, hsome', hends'⟩ := hruns _ ht
  obtain ⟨t₂, hafter⟩ := Option.isSome_iff_exists.mp hsome
  obtain ⟨t₃, hafter'⟩ := Option.isSome_iff_exists.mp hsome'
  exact ⟨t₀, t, t₁, h₀, hbefore, hlive, hfind, ⟨t₂, hafter, hends t₂ hafter⟩,
    t₃, hafter', hends' t₃ hafter'⟩

end KvRaft.Store
