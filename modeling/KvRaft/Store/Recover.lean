import KvRaft.Store.Compact

/-! What `OpenWithOptions` makes of a directory of segments and hint files. -/

namespace KvRaft.Store

open Std Replay

/-- The hint files of the directory are those of the records `hints`, except for that of the active
file, which nobody reads. -/
structure Hinted (hints : Nat → Option (List Record)) (active : Nat) (d : Disk) : Prop where
  hint : ∀ id, id ≠ active → d.hint[id]? = (hints id).map hintBytes
  fits : ∀ id rs, hints id = some rs → ∀ r ∈ rs, r.Fits

def recordsAt (segs : Nat → Option Segment) (id : Nat) : List Record :=
  ((segs id).map Segment.records).getD []

/-- The updates that recovery reads of a segment when `active` is the highest ID. -/
def recovered (segs : Nat → Option Segment) (hints : Nat → Option (List Record))
    (active id : Nat) : List (Update Bytes KeyDirEntry) :=
  updates id 0 (if id = active then recordsAt segs id else (hints id).getD (recordsAt segs id))

/-- What recovery leaves of the active file. -/
def Segment.trim (s : Segment) : Segment :=
  match decodeDataRecord s.tail with
  | .error .unexpectedEOF => { s with tail := [] }
  | _ => s

/-- Recovery can read the segment: the active one to the torn record at its end, the others through
the hint file, or if there is none to an end that looks clean. -/
def Readable (d : Disk) (readWrite : Bool) (active id : Nat) (s : Segment) : Prop :=
  decodeDataRecord s.tail = .error .eof ∨
    id = active ∧ readWrite = true ∧ decodeDataRecord s.tail = .error .unexpectedEOF ∨
    id ≠ active ∧ d.hint[id]? ≠ none

variable {segs : Nat → Option Segment} {hints : Nat → Option (List Record)} {d : Disk} {db : DB}
  {s : Segment} {active id : Nat} {readWrite : Bool}

theorem recordsAt_eq (hs : segs id = some s) : recordsAt segs id = s.records := by
  simp [recordsAt, hs]

theorem scanSegment_other (h : Holds segs d) (hh : Hinted hints active d) (hs : segs id = some s)
    (hne : id ≠ active) (hr : Readable d readWrite active id s) :
    scanSegment active readWrite id ⟨d, db, []⟩ = .ok () ⟨d, { db with
      keydir := scan db.keydir (recovered segs hints active id) }, []⟩ := by
  have hfits : ∀ r ∈ s.records, r.Fits := fun r hr => (h.legal id s hs r hr).fits
  have hdata : d.data[id]? = some (bytesOf s.records ++ s.tail) := by rw [h.data, hs]; rfl
  simp only [scanSegment, if_neg hne, recovered]
  cases hi : hints id with
  | some rs =>
    have hfile : d.hint[id]? = some (hintBytes rs) := by rw [hh.hint id hne, hi]; rfl
    have hrun := scanHintFile_exact db hfile (hh.fits id rs hi)
    simp [tryCatch, tryCatchThe, MonadExceptOf.tryCatch, EStateM.tryCatch, hrun]
  | none =>
    have hfile : d.hint[id]? = none := by rw [hh.hint id hne, hi]; rfl
    have hmissing := scanHintFile_missing db hfile
    have hclean : decodeDataRecord s.tail = .error .eof := by
      rcases hr with hr | ⟨heq, -⟩ | ⟨-, hr⟩
      · exact hr
      · exact absurd heq hne
      · exact absurd (by rw [hh.hint id hne, hi]; rfl) hr
    have hrun := scanDataFile_clean db hdata hfits hclean false
    simp only [tryCatch, tryCatchThe, MonadExceptOf.tryCatch, EStateM.tryCatch, hmissing,
      Option.getD_none, recordsAt_eq hs]
    exact hrun

theorem scanSegment_active (hints : Nat → Option (List Record)) (h : Holds segs d)
    (hs : segs id = some s) (hr : Readable d readWrite id id s) :
    scanSegment id readWrite id ⟨d, db, []⟩ = .ok ()
      ⟨if readWrite then { d with data := d.data.insert id s.trim.bytes } else d, { db with
        keydir := scan db.keydir (recovered segs hints id id) }, []⟩ := by
  have hfits : ∀ r ∈ s.records, r.Fits := fun r hr => (h.legal id s hs r hr).fits
  have hdata : d.data[id]? = some (bytesOf s.records ++ s.tail) := by rw [h.data, hs]; rfl
  have hsize : (bytesOf s.records).length < 2 ^ 63 := by
    have := h.size id s hs
    rw [Segment.bytes, List.length_append, maxFileSize] at this
    omega
  simp only [scanSegment, if_true, recovered, recordsAt_eq hs]
  rcases hr with hclean | ⟨-, rfl, htorn⟩ | ⟨hne, -⟩
  · rw [scanDataFile_clean db hdata hfits hclean]
    have htrim : d.data[id]? = some s.trim.bytes := by
      rw [hdata, Segment.trim, hclean]
      rfl
    cases readWrite <;> simp [Maps.insert_same htrim]
  · rw [scanDataFile_torn db hdata hfits htorn hsize]
    simp [Maps.modify_eq_insert hdata, Segment.trim, htorn, Segment.bytes]
  · exact absurd rfl hne

theorem scanSegments_other (h : Holds segs d) (hh : Hinted hints active d) (ids : List Nat)
    (hids : ∀ id ∈ ids, id ≠ active ∧
      ∃ s, segs id = some s ∧ Readable d readWrite active id s) :
    ids.forM (scanSegment active readWrite) ⟨d, db, []⟩ = .ok () ⟨d, { db with
      keydir := scan db.keydir (ids.flatMap (recovered segs hints active)) }, []⟩ := by
  induction ids generalizing db with
  | nil => rfl
  | cons id ids ih =>
    obtain ⟨hne, s, hs, hr⟩ := hids id List.mem_cons_self
    change (scanSegment active readWrite id >>= fun _ => ids.forM _) _ = _
    rw [bind_apply, scanSegment_other h hh hs hne hr]
    refine (ih fun i hi => hids i (List.mem_cons_of_mem id hi)).trans ?_
    rw [List.flatMap_cons, scan, scan, scan, replay_append]

theorem validateLayout_run (db : DB) (hother : d.other = [])
    (hd : d.tmpData = ∅ ∧ d.tmpHint = ∅) :
    validateLayout ⟨d, db, []⟩ = .ok () ⟨d, db, []⟩ := by
  have hentry : ∀ f ∈ d.entries, ∀ d' db', validateEntry db.opts.readWrite f ⟨d', db', []⟩ =
      .ok () ⟨d', db', []⟩ := by
    intro f hf d' db'
    simp only [Disk.entries, List.mem_insertionSort, hd.1, hd.2, hother, List.mem_append,
      List.mem_map, ExtTreeMap.mem_keys, ExtTreeMap.not_mem_empty, List.not_mem_nil, false_and,
      exists_false, or_false] at hf
    rcases hf with ⟨_, _, rfl⟩ | ⟨_, _, rfl⟩
    · rfl
    · rfl
  have hrun := forM_run _ d db (f := fun _ d => d) (g := fun _ db => db) d.entries hentry
  rw [List.foldl_fixed, List.foldl_fixed] at hrun
  simp only [validateLayout, bind_apply, call_apply, getDB_apply, getDisk_apply, hrun]

/-- What `validateLayout` does about one file of a directory that is opened for writing. -/
def Disk.tidy (d : Disk) (f : FileName) : Disk :=
  match f with
  | .tmpData _ | .tmpHint _ => d.remove f
  | _ => d

theorem Disk.foldl_tidy (fs : List FileName) (hdata : ∀ id ∈ d.tmpData, .tmpData id ∈ fs)
    (hhint : ∀ id ∈ d.tmpHint, .tmpHint id ∈ fs) :
    fs.foldl Disk.tidy d = { d with tmpData := ∅, tmpHint := ∅ } := by
  induction fs generalizing d with
  | nil =>
    have hempty : ∀ t : ExtTreeMap Nat Bytes, (∀ id, id ∉ t) → t = ∅ := fun t ht =>
      ExtTreeMap.ext_getElem? fun id => by simpa using ht id
    have hd : d.tmpData = ∅ := hempty _ fun id hid => nomatch hdata id hid
    have hh : d.tmpHint = ∅ := hempty _ fun id hid => nomatch hhint id hid
    obtain ⟨present, data, hint, tmpData, tmpHint, other, locked⟩ := d
    simp only at hd hh
    rw [List.foldl_nil, hd, hh]
  | cons f fs ih =>
    rw [List.foldl_cons]
    cases f with
    | data | hint | other =>
      exact ih (d := d) (by simpa using hdata) (by simpa using hhint)
    | tmpData i =>
      refine ih (d := { d with tmpData := d.tmpData.erase i }) (fun id hid => ?_)
        (by simpa using hhint)
      obtain ⟨hne, hmem⟩ := ExtTreeMap.mem_erase.mp hid
      refine (List.mem_cons.mp (hdata id hmem)).resolve_left ?_
      rintro ⟨⟩
      exact hne compare_self
    | tmpHint i =>
      refine ih (d := { d with tmpHint := d.tmpHint.erase i }) (by simpa using hdata)
        fun id hid => ?_
      obtain ⟨hne, hmem⟩ := ExtTreeMap.mem_erase.mp hid
      refine (List.mem_cons.mp (hhint id hmem)).resolve_left ?_
      rintro ⟨⟩
      exact hne compare_self

/-- Opening for writing removes the temporary files. -/
theorem validateLayout_tidy (d : Disk) (db : DB) (hother : d.other = [])
    (hrw : db.opts.readWrite = true) :
    validateLayout ⟨d, db, []⟩ = .ok () ⟨{ d with tmpData := ∅, tmpHint := ∅ }, db, []⟩ := by
  have hentry : ∀ f ∈ d.entries, ∀ d' db', validateEntry db.opts.readWrite f ⟨d', db', []⟩ =
      .ok () ⟨d'.tidy f, db', []⟩ := by
    intro f hf d' db'
    rw [hrw]
    cases f with
    | data | hint | tmpData | tmpHint => rfl
    | other name => simp [Disk.entries, hother] at hf
  have htidy : d.entries.foldl Disk.tidy d = { d with tmpData := ∅, tmpHint := ∅ } := by
    refine Disk.foldl_tidy _ (fun id hid => ?_) fun id hid => ?_
    · simp [Disk.entries, hid]
    · simp [Disk.entries, hid]
  have hrun := forM_run _ d db (f := fun f d => d.tidy f) (g := fun _ db => db) d.entries hentry
  rw [List.foldl_fixed, htidy] at hrun
  simp only [validateLayout, bind_apply, call_apply, getDB_apply, getDisk_apply, hrun]

/-- The `DB` that `OpenWithOptions` returns for a directory with a segment. -/
def openedDB (opts : OpenOptions) (keydir : KeyDir) (active size : Nat) : DB where
  opts := opts.withDefaults
  keydir := keydir
  activeFile := if opts.readWrite then .opened else .none
  activeFileID := active
  activeOffset := if opts.readWrite then Int64.ofNat size else 0
  nextFileID := (active + 1) % 2 ^ 64
  readers := []
  lockFile := opts.readWrite
  closed := false

def openedDisk (opts : OpenOptions) (d : Disk) (active : Nat) (s : Segment) : Disk :=
  if opts.readWrite then { d with locked := true, data := d.data.insert active s.trim.bytes } else d

variable {opts : OpenOptions}

theorem acquireWriterLock_run (hlock : d.locked = false) : acquireWriterLock ⟨d, db, []⟩ =
    .ok () ⟨{ d with locked := true }, { db with lockFile := true }, []⟩ := by
  simp [acquireWriterLock, bind_apply, hlock]

/-- The first part of `OpenWithOptions`. -/
theorem openWithOptions_start (hother : d.other = []) (hd : d.tmpData = ∅ ∧ d.tmpHint = ∅)
    (hpresent : d.present = true) (hlock : opts.readWrite = true → d.locked = false) :
    openWithOptions opts ⟨d, db, []⟩ =
      onError (loadSegments opts.readWrite) releaseWriterLock
        ⟨if opts.readWrite then { d with locked := true } else d,
          { newDB opts.withDefaults with lockFile := opts.readWrite }, []⟩ := by
  have hd' : { d with present := true } = d := by rw [← hpresent]
  have hlayout := validateLayout_run (newDB opts.withDefaults) hother hd
  cases hrw : opts.readWrite with
  | false =>
    simp only [openWithOptions, bind_apply, withDefaults_readWrite, hrw, call_apply, getDisk_apply,
      hpresent, not_true_eq_false, Bool.false_eq_true, if_false, modifyDB_apply, hlayout]
    rfl
  | true =>
    simp only [openWithOptions, bind_apply, withDefaults_readWrite, hrw, call_apply, if_true,
      modifyDisk_apply, hd', modifyDB_apply, hlayout, acquireWriterLock_run (hlock hrw)]

/-- Temporary hint files make no difference to an open for writing. -/
theorem openWithOptions_tmpHint (hother : d.other = []) (hrw : opts.readWrite = true)
    (t : ExtTreeMap Nat Bytes) : openWithOptions opts ⟨{ d with tmpHint := t }, db, []⟩ =
      openWithOptions opts ⟨{ d with tmpHint := ∅ }, db, []⟩ := by
  have hrun : ∀ t, openWithOptions opts ⟨{ d with tmpHint := t }, db, []⟩ =
      (do
        acquireWriterLock
        onError (loadSegments true) releaseWriterLock)
        ⟨{ d with present := true, tmpData := ∅, tmpHint := ∅ }, newDB opts.withDefaults, []⟩ := by
    intro t
    have hlayout := validateLayout_tidy { d with present := true, tmpHint := t }
      (newDB opts.withDefaults) hother (by rw [newDB, withDefaults_readWrite, hrw])
    simp only [openWithOptions, bind_apply, withDefaults_readWrite, hrw, call_apply, if_true,
      modifyDisk_apply, modifyDB_apply, hlayout]
  rw [hrun t, hrun ∅]

theorem loadSegments_run (h : Holds segs d) (hh : Hinted hints active d) {init : List Nat}
    (hids : d.data.keys = init ++ [active]) (hs : segs active = some s)
    (hr : ∀ id s, segs id = some s → Readable d readWrite active id s) :
    loadSegments readWrite ⟨d, db, []⟩ = .ok ()
      ⟨if readWrite then { d with data := d.data.insert active s.trim.bytes } else d, { db with
        keydir := scan db.keydir (d.data.keys.flatMap (recovered segs hints active))
        activeFile := if readWrite then .opened else db.activeFile
        activeFileID := active
        activeOffset := if readWrite then Int64.ofNat s.trim.bytes.length else db.activeOffset
        nextFileID := (active + 1) % 2 ^ 64 }, []⟩ := by
  have hother : ∀ id ∈ init, id ≠ active ∧
      ∃ s, segs id = some s ∧ Readable d readWrite active id s := by
    intro id hid
    have hmem : id ∈ d.data.keys := by simp [hids, hid]
    have hdistinct := ExtTreeMap.distinct_keys (t := d.data)
    rw [hids, List.pairwise_append] at hdistinct
    refine ⟨fun heq => hdistinct.2.2 id hid active (by simp) (by rw [heq]; exact compare_self), ?_⟩
    obtain ⟨s, hs⟩ := Option.ne_none_iff_exists'.mp (h.mem_keys.mp hmem)
    exact ⟨s, hs, hr id s hs⟩
  have hforM : ∀ db : DB, (init ++ [active]).forM (scanSegment active readWrite) ⟨d, db, []⟩ =
      .ok () ⟨if readWrite then { d with data := d.data.insert active s.trim.bytes } else d,
        { db with
          keydir := scan db.keydir ((init ++ [active]).flatMap (recovered segs hints active)) },
        []⟩ := by
    intro db
    rw [List.forM_eq_forM, List.forM_append, bind_apply, ← List.forM_eq_forM,
      scanSegments_other h hh init hother]
    change (scanSegment active readWrite active >>= fun _ => pure ()) _ = _
    rw [bind_apply, scanSegment_active hints h hs (hr active s hs)]
    simp only [List.flatMap_append, List.flatMap_cons, List.flatMap_nil, List.append_nil, scan,
      replay_append, pure_apply]
  simp only [loadSegments, bind_apply, listDataFileIDs_run h.other, hids, List.getLast?_concat,
    modifyDB_apply, hforM]
  cases readWrite with
  | false => rfl
  | true => simp [bind_apply]

theorem openWithOptions_run (h : Holds segs d) (hh : Hinted hints active d)
    (hd : d.tmpData = ∅ ∧ d.tmpHint = ∅) (hpresent : d.present = true)
    (hlock : opts.readWrite = true → d.locked = false) {init : List Nat}
    (hids : d.data.keys = init ++ [active]) (hs : segs active = some s)
    (hr : ∀ id s, segs id = some s → Readable d opts.readWrite active id s) :
    openWithOptions opts ⟨d, db, []⟩ = .ok () ⟨openedDisk opts d active s,
      openedDB opts (scan ∅ (d.data.keys.flatMap (recovered segs hints active))) active
        s.trim.bytes.length, []⟩ := by
  rw [openWithOptions_start h.other hd hpresent hlock]
  cases hrw : opts.readWrite with
  | false =>
    rw [hrw] at hr
    refine onError_ok ((loadSegments_run h hh hids hs hr).trans ?_)
    simp [openedDisk, openedDB, hrw, newDB]
  | true =>
    rw [hrw] at hr
    have h' : Holds segs { d with locked := true } := h.frame rfl rfl
    have hh' : Hinted hints active { d with locked := true } := ⟨hh.hint, hh.fits⟩
    refine onError_ok ((loadSegments_run h' hh' hids hs hr).trans ?_)
    simp [openedDisk, openedDB, hrw, newDB]

/-- The hint files were written for a beginning of their data files. -/
def Covered (segs : Nat → Option Segment) (d : Disk) : Prop :=
  ∀ id bs, d.hint[id]? = some bs → ∃ s rs, segs id = some s ∧ rs <+: s.records ∧ bs = hintBytes rs

theorem Covered.exists_hints (hc : Covered segs d) (h : Holds segs d) :
    ∃ hints, (∀ active, Hinted hints active d) ∧
      ∀ id rs, hints id = some rs → ∃ s, segs id = some s ∧ rs <+: s.records := by
  have hex : ∀ id, ∃ rs : Option (List Record), d.hint[id]? = rs.map hintBytes ∧
      ∀ l, rs = some l → ∃ s, segs id = some s ∧ l <+: s.records := by
    intro id
    cases hb : d.hint[id]? with
    | none => exact ⟨none, rfl, nofun⟩
    | some bs =>
      obtain ⟨s, rs, hs, hrs, rfl⟩ := hc id bs hb
      refine ⟨some rs, rfl, fun l hl => ⟨s, hs, ?_⟩⟩
      rwa [← Option.some.inj hl]
  choose hints hhint hcov using hex
  refine ⟨hints, fun active => ⟨fun id _ => hhint id, fun id rs hrs r hr => ?_⟩, hcov⟩
  obtain ⟨s, hs, hpre⟩ := hcov id rs hrs
  exact (h.legal id s hs r (hpre.subset hr)).fits

/-- An empty directory gets a first segment, if it is opened for writing. -/
theorem openWithOptions_empty (hdata : d.data = ∅) (hother : d.other = [])
    (hd : d.tmpData = ∅ ∧ d.tmpHint = ∅) (hpresent : d.present = true)
    (hlock : opts.readWrite = true → d.locked = false) :
    openWithOptions opts ⟨d, db, []⟩ = .ok () (if opts.readWrite then
        ⟨{ d with locked := true, data := d.data.insert 1 [] }, openedDB opts ∅ 1 0, []⟩
      else ⟨d, newDB opts.withDefaults, []⟩) := by
  have hkeys : d.data.keys = [] := by
    rw [hdata]
    exact List.eq_nil_iff_forall_not_mem.mpr fun id => by simp [ExtTreeMap.mem_keys]
  have hcreate : (d.data.alter 1 fun bs => some (bs.getD [])) = d.data.insert 1 [] :=
    Maps.alter_eq_insert (by simp [hdata])
  rw [openWithOptions_start hother hd hpresent hlock]
  cases hrw : opts.readWrite with
  | false =>
    refine onError_ok ?_
    simp only [loadSegments, bind_apply, Bool.false_eq_true, if_false,
      listDataFileIDs_run hother, hkeys, List.getLast?_nil]
    rfl
  | true =>
    refine onError_ok ?_
    have hlist := @listDataFileIDs_run { d with locked := true }
      { newDB opts.withDefaults with lockFile := true } hother
    simp only [loadSegments, bind_apply, if_true, hlist, hkeys, List.getLast?_nil,
      createNewActiveFile, call_apply, modifyDisk_apply, getDisk_apply, modifyDB_apply, hcreate]
    simp [openedDB, hrw, newDB]

/-- What `OpenWithOptions` finds: nothing, or segments whose records it replays in the order of the
IDs, whichever lists of records the hint files stand for. -/
inductive Opens (opts : OpenOptions) (segs : Nat → Option Segment) (d : Disk) :
    (Nat → Option Segment) → World → Prop
  | empty (hnone : ∀ id, segs id = none) : Opens opts segs d
      (if opts.readWrite then Function.update segs 1 (some { records := [] }) else segs)
      (if opts.readWrite then
        ⟨{ d with locked := true, data := d.data.insert 1 [] }, openedDB opts ∅ 1 0, []⟩
      else ⟨d, newDB opts.withDefaults, []⟩)
  | scanned {active : Nat} {s : Segment} {keydir : KeyDir} (hs : segs active = some s)
      (htop : ∀ id, segs id ≠ none → id ≤ active)
      (hkey : ∀ hints, Hinted hints active d →
        keydir = scan ∅ (d.data.keys.flatMap (recovered segs hints active))) :
      Opens opts segs d
        (if opts.readWrite then Function.update segs active (some s.trim) else segs)
        ⟨openedDisk opts d active s, openedDB opts keydir active s.trim.bytes.length, []⟩

/-- The highest ID of a directory that is not empty. -/
theorem Holds.keys_eq (h : Holds segs d) : (∀ id, segs id = none) ∧ d.data = ∅ ∨
    ∃ init active, d.data.keys = init ++ [active] ∧ segs active ≠ none ∧
      ∀ id, segs id ≠ none → id ≤ active := by
  rcases List.eq_nil_or_concat d.data.keys with hnil | ⟨init, active, hkeys⟩
  · have hnone : ∀ id, segs id = none := by
      intro id
      by_contra hne
      have := h.mem_keys.mpr hne
      simp [hnil] at this
    refine Or.inl ⟨hnone, ExtTreeMap.ext_getElem? fun id => ?_⟩
    rw [h.data, hnone id]
    simp
  · rw [List.concat_eq_append] at hkeys
    refine Or.inr ⟨init, active, hkeys, h.mem_keys.mp (by simp [hkeys]), fun id hid => ?_⟩
    have hmem := h.mem_keys.mpr hid
    have hsorted := ExtTreeMap.ordered_keys (t := d.data)
    rw [hkeys, List.pairwise_append] at hsorted
    rw [hkeys, List.mem_append, List.mem_singleton] at hmem
    rcases hmem with hinit | rfl
    · exact Nat.le_of_lt (Nat.compare_eq_lt.mp (hsorted.2.2 id hinit active (by simp)))
    · exact Nat.le_refl _

theorem openWithOptions_opens (db : DB) (h : Holds segs d)
    (hh : ∀ active, segs active ≠ none → (∀ id, segs id ≠ none → id ≤ active) →
      ∃ hints, Hinted hints active d) (hd : d.tmpData = ∅ ∧ d.tmpHint = ∅)
    (hpresent : d.present = true) (hlock : opts.readWrite = true → d.locked = false)
    (hr : ∀ active, segs active ≠ none → (∀ id, segs id ≠ none → id ≤ active) →
      ∀ id s, segs id = some s → Readable d opts.readWrite active id s) :
    ∃ segs' w', Opens opts segs d segs' w' ∧
      openWithOptions opts ⟨d, db, []⟩ = .ok () w' := by
  rcases h.keys_eq with ⟨hnone, hdata⟩ | ⟨init, active, hkeys, hne, htop⟩
  · exact ⟨_, _, .empty hnone, openWithOptions_empty hdata h.other hd hpresent hlock⟩
  · obtain ⟨s, hs⟩ := Option.ne_none_iff_exists'.mp hne
    obtain ⟨hints, hh⟩ := hh active hne htop
    have hread := hr active hne htop
    have hrun : ∀ hints, Hinted hints active d → openWithOptions opts ⟨d, db, []⟩ = _ :=
      fun hints hh => openWithOptions_run h hh hd hpresent hlock hkeys hs hread
    refine ⟨_, _, .scanned hs htop fun hints' hh' => ?_, hrun hints hh⟩
    have := (hrun hints hh).symm.trans (hrun hints' hh')
    injection this with _ hw
    exact congrArg (fun w => w.db.keydir) hw

theorem Segment.trim_records (s : Segment) : s.trim.records = s.records := by
  unfold Segment.trim
  split <;> rfl

theorem Segment.length_trim (s : Segment) : s.trim.bytes.length ≤ s.bytes.length := by
  unfold Segment.trim
  split
  · simp [Segment.bytes]
  · exact Nat.le_refl _

/-- What `OpenWithOptions` returns when recovery reads the records `read` of each data file. -/
theorem Opens.reads {segs' : Nat → Option Segment} {w' : World} (h : Holds segs d)
    (ho : Opens opts segs d segs' w') {read : Nat → List Record}
    (hread : ∀ active, segs active ≠ none → (∀ id, segs id ≠ none → id ≤ active) →
      ∃ hints, Hinted hints active d ∧
        ∀ id, segs id ≠ none → recovered segs hints active id = updates id 0 (read id)) :
    w'.outcomes = [] ∧
      w'.db.keydir = scan ∅ (d.data.keys.flatMap fun id => updates id 0 (read id)) ∧
      w'.db.closed = false ∧ Holds segs' w'.disk ∧ Grows segs segs' := by
  cases ho with
  | empty hnone =>
    have hkeys : d.data.keys = [] := List.eq_nil_iff_forall_not_mem.mpr fun id hid =>
      h.mem_keys.mp hid (hnone id)
    have hall : scan ∅ (d.data.keys.flatMap fun id => updates id 0 (read id)) = ∅ := by
      rw [hkeys]
      rfl
    cases hrw : opts.readWrite with
    | false => exact ⟨rfl, hall.symm, rfl, h, Grows.refl segs⟩
    | true =>
      refine ⟨rfl, hall.symm, rfl, h.update (by simp) (by simp [Segment.bytes]) rfl rfl,
        Grows.update fun s₀ hs₀ => ?_⟩
      rw [hnone 1] at hs₀
      cases hs₀
  | @scanned active s keydir hs htop hkey =>
    obtain ⟨hints, hh, hrec⟩ := hread active (by simp [hs]) htop
    have hscan : keydir = scan ∅ (d.data.keys.flatMap fun id => updates id 0 (read id)) := by
      rw [hkey hints hh]
      congr 1
      exact List.flatMap_congr fun id hid => hrec id (h.mem_keys.mp hid)
    cases hrw : opts.readWrite with
    | false =>
      rw [openedDisk, hrw, if_neg (by simp)]
      exact ⟨rfl, hscan, rfl, h, Grows.refl segs⟩
    | true =>
      rw [openedDisk, hrw, if_pos rfl, if_pos rfl]
      refine ⟨rfl, hscan, rfl, h.update ?_ ?_ rfl rfl, Grows.update fun s₀ hs₀ => ?_⟩
      · rw [s.trim_records]
        exact h.legal active s hs
      · exact Nat.le_trans s.length_trim (h.size active s hs)
      · rw [hs, Option.some.injEq] at hs₀
        rw [← hs₀, s.trim_records]

/-- Every update that recovery reads is that of a record of the segment. -/
theorem mem_recovered {hints : Nat → Option (List Record)}
    (hcov : ∀ id rs, hints id = some rs → ∃ s, segs id = some s ∧ rs <+: s.records)
    {u : Update Bytes KeyDirEntry} (hu : u ∈ recovered segs hints active id) :
    ∃ r, At segs u.entry r ∧ r.key = u.key ∧ r.tombstone = u.tombstone := by
  obtain ⟨pre, r, post, hrs, rfl⟩ := mem_updates.mp hu
  refine ⟨r, ?_, rfl, rfl⟩
  have hat : ∀ rs s, segs id = some s → rs <+: s.records → rs = pre ++ r :: post →
      At segs (entryOf id (0 + (bytesOf pre).length) r) r := by
    rintro rs s hs ⟨more, hmore⟩ rfl
    refine ⟨s, pre, post ++ more, hs, by rw [← hmore]; simp, ?_⟩
    rw [Nat.zero_add]
    rfl
  have hown : recordsAt segs id = pre ++ r :: post →
      At segs (entryOf id (0 + (bytesOf pre).length) r) r := by
    intro heq
    cases hs : segs id with
    | none => simp [recordsAt, hs] at heq
    | some s => exact hat _ s hs List.prefix_rfl (by rw [← heq, recordsAt_eq hs])
  split at hrs
  · exact hown hrs
  · cases hi : hints id with
    | none =>
      rw [hi] at hrs
      exact hown hrs
    | some rs =>
      obtain ⟨s, hs, hpre⟩ := hcov id rs hi
      rw [hi] at hrs
      exact hat rs s hs hpre hrs

/-- What recovery builds serves some map. -/
theorem serves_scan (h : Holds segs d) (hc : Covered segs d) {keydir : KeyDir}
    (hkey : ∀ hints, Hinted hints active d →
      keydir = scan ∅ (d.data.keys.flatMap (recovered segs hints active))) :
    ∃ m, Serves segs keydir m := by
  obtain ⟨hints, hh, hcov⟩ := hc.exists_hints h
  refine Serves.exists_of_live fun k e he => ?_
  rw [hkey hints (hh active)] at he
  rcases replay_mem he with hempty | ⟨u, hu, rfl, rfl, ht⟩
  · simp at hempty
  · obtain ⟨id, -, hu⟩ := List.mem_flatMap.mp hu
    obtain ⟨r, hat, hkey, htomb⟩ := mem_recovered hcov hu
    exact ⟨r, hat, hkey, htomb.trans ht⟩

end KvRaft.Store
