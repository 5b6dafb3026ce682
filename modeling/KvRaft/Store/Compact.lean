import KvRaft.Store.Publish

/-! A whole call of `Merge` while no other call runs. -/

namespace KvRaft.Store

open Std Replay

/-- The data files after the files `out` have replaced all but the active one. -/
def mergedSegs (segs out : Nat → Option Segment) (active : Nat) : Nat → Option Segment :=
  fun id => (out id).or (if id = active then segs id else none)

/-- What a call of `Merge` that wrote the files `out` leaves behind. -/
structure Merged (segs : Nat → Option Segment) (d : Disk) (db : DB) (out : Nat → Option Segment)
    (d' : Disk) (db' : DB) : Prop where
  holds : Holds (mergedSegs segs out db.activeFileID) d'
  hint : ∀ id, d'.hint[id]? = ((out id).map fun s => hintBytes s.records).or
    (if (segs id).isSome ∧ id ≠ db.activeFileID then none else d.hint[id]?)
  tmp : d'.tmpData = ∅ ∧ d'.tmpHint = ∅
  sameDisk : d'.present = d.present ∧ d'.locked = d.locked
  sameDB : db' = { db with
    keydir := db'.keydir, readers := db'.readers, nextFileID := db'.nextFileID }
  next : db.nextFileID ≤ db'.nextFileID ∧ db'.nextFileID ≤ maxFileID
  fresh : ∀ id, out id ≠ none → db.nextFileID ≤ id ∧ id < db'.nextFileID
  clean : ∀ id s, out id = some s → s.tail = []
  puts : ∀ id s, out id = some s → ∀ r ∈ s.records, r.tombstone = false
  dead : ∀ k : Bytes, db.keydir[k]? = none → db'.keydir[k]? = none
  kept : ∀ (k : Bytes) e, db.keydir[k]? = some e → e.fileID = db.activeFileID →
    db'.keydir[k]? = some e
  moved : ∀ (k : Bytes) e, db.keydir[k]? = some e → e.fileID ≠ db.activeFileID →
    ∃ e' r, db'.keydir[k]? = some e' ∧ At out e' r ∧ At segs e r ∧ r.key = k
  copied : ∀ e' r, At out e' r → ∃ e, db.keydir[r.key]? = some e ∧
    e.fileID ≠ db.activeFileID ∧ At segs e r ∧ db'.keydir[r.key]? = some e'
  published : ∀ id, out id ≠ none → ∃ (k : Bytes) (e : KeyDirEntry),
    db.keydir[k]? = some e ∧ e.fileID ≠ db.activeFileID

/-- The state of the loop that copies the snapshot, with the keys `todo` still to come. -/
structure Copying (segs : Nat → Option Segment) (d₀ : Disk) (db₀ : DB) (todo : List Bytes)
    (d : Disk) (db : DB) (run : MergeRun) (out : Nat → Option Segment) : Prop where
  copies : Copies d run out
  fresh : ∀ id, out id ≠ none → db₀.nextFileID ≤ id ∧ id < db.nextFileID
  used : ∀ id, out id ≠ none → ∃ (k : Bytes) (e : KeyDirEntry), run.snapshot[k]? = some e
  next : db₀.nextFileID ≤ db.nextFileID ∧ db.nextFileID ≤ maxFileID
  tmp : ∀ id, out id = none → d.tmpData[id]? = none ∧ d.tmpHint[id]? = none
  sameDisk : d = { d₀ with tmpData := d.tmpData, tmpHint := d.tmpHint }
  sameDB : db = { db₀ with nextFileID := db.nextFileID, readers := db.readers }
  sameRun : run.immutableIDs = (startRun d₀ db₀).immutableIDs ∧
    run.snapshot = (startRun d₀ db₀).snapshot
  copied : ∀ e' r, At out e' r → ∃ e, run.snapshot[r.key]? = some e ∧ At segs e r
  ahead : ∀ k ∈ todo, run.mergedEntries[k]? = none
  done : ∀ k e, run.snapshot[k]? = some e → k ∈ todo ∨ run.mergedEntries[k]? ≠ none

variable {segs out : Nat → Option Segment} {d₀ d : Disk} {db₀ db : DB} {run : MergeRun}
  {rs : List Record} {todo : List Bytes} {m : Bytes → Option Bytes}

theorem Holds.frame {d' : Disk} (h : Holds segs d) (hdata : d'.data = d.data)
    (hother : d'.other = d.other) : Holds segs d' :=
  { h with
    data := fun id => by rw [hdata, h.data]
    other := by rw [hother, h.other] }

/-- Only these fields of a `DB` matter. -/
theorem Active.frame {db' : DB} (ha : Active segs db rs)
    (hdb : db' = { db with keydir := db'.keydir, readers := db'.readers
                           nextFileID := db'.nextFileID })
    (hnext : db.nextFileID ≤ db'.nextFileID) (hmax : db'.nextFileID ≤ maxFileID) :
    Active segs db' rs := by
  rw [hdb]
  exact { ha with below := fun id hid => Nat.lt_of_lt_of_le (ha.below id hid) hnext, next := hmax }

namespace Copying

theorem start (hd : d₀.tmpData = ∅ ∧ d₀.tmpHint = ∅) (hmax : db₀.nextFileID ≤ maxFileID) :
    Copying segs d₀ db₀ (startRun d₀ db₀).snapshot.keys d₀ db₀ (startRun d₀ db₀)
      fun _ => none where
  copies := Copies.start d₀ _ _
  fresh := by simp
  used := by simp
  next := ⟨Nat.le_refl _, hmax⟩
  tmp := by simp [hd.1, hd.2]
  sameDisk := rfl
  sameDB := rfl
  sameRun := ⟨rfl, rfl⟩
  copied := by simp [At]
  ahead := by simp [startRun]
  done := by
    intro k e he
    left
    rw [ExtTreeMap.mem_keys, ExtTreeMap.mem_iff_isSome_getElem?, he]
    rfl

/-- The descriptor that a read opens changes nothing else. -/
theorem reading (hc : Copying segs d₀ db₀ todo d db run out) (id : Nat) :
    Copying segs d₀ db₀ todo d (db.reading id) run out := by
  rw [DB.reading_eq]
  generalize (db.reading id).readers = readers
  refine { hc with sameDB := ?_ }
  conv_lhs => rw [hc.sameDB]

/-- A new file among the merged ones. -/
theorem allocate (hc : Copying segs d₀ db₀ todo d db run out)
    (hused : ∃ (k : Bytes) (e : KeyDirEntry), run.snapshot[k]? = some e)
    (hmax : db.nextFileID ≠ maxFileID) :
    Copying segs d₀ db₀ todo
      { d with tmpData := d.tmpData.insert db.nextFileID []
               tmpHint := d.tmpHint.insert db.nextFileID [] }
      { db with nextFileID := db.nextFileID + 1 }
      { run with mergedFiles := run.mergedFiles ++ [db.nextFileID]
                 current := some ⟨db.nextFileID, 0⟩ }
      (Function.update out db.nextFileID (some { records := [] })) := by
  have hnone : out db.nextFileID = none := by
    by_contra hne
    exact Nat.lt_irrefl _ (hc.fresh _ hne).2
  refine { hc with
    copies := hc.copies.fresh hnone, fresh := ?_, used := fun _ _ => hused
    next := ⟨Nat.le_succ_of_le hc.next.1, Nat.lt_of_le_of_ne hc.next.2 hmax⟩, tmp := ?_
    sameDisk := ?_, sameDB := ?_
    copied := fun e' r hat => hc.copied e' r hat.of_empty }
  · intro id hid
    by_cases hi : id = db.nextFileID
    · subst hi
      exact ⟨hc.next.1, Nat.lt_succ_self _⟩
    · rw [Function.update_of_ne hi] at hid
      have := hc.fresh id hid
      exact ⟨this.1, Nat.lt_succ_of_lt this.2⟩
  · intro id hid
    by_cases hi : id = db.nextFileID
    · rw [hi, Function.update_self] at hid
      cases hid
    · rw [Function.update_of_ne hi] at hid
      rw [Maps.getElem?_insert_of_ne hi, Maps.getElem?_insert_of_ne hi]
      exact hc.tmp id hid
  · conv_lhs => rw [hc.sameDisk]
  · conv_lhs => rw [hc.sameDB]

variable {key : Bytes} {e : KeyDirEntry} {r : Record} {id : Nat}

/-- A copy of the record of the next key. -/
theorem store (hc : Copying segs d₀ db₀ (r.key :: todo) d db run out) (hkey : r.key ∉ todo)
    (hs : run.snapshot[r.key]? = some e) (hat : At segs e r) (hr : r.Legal)
    (ht : r.tombstone = false) (hout : out id = some { records := rs })
    (hsize : (bytesOf (rs ++ [r])).length ≤ maxFileSize) :
    Copying segs d₀ db₀ todo (storedDisk d id rs r) db (storedRun run id rs r)
      (Function.update out id (some { records := rs ++ [r] })) := by
  have hids : ∀ i, Function.update out id (some { records := rs ++ [r] }) i ≠ none →
      out i ≠ none := by
    intro i hi
    by_cases hid : i = id
    · simp [hid, hout]
    · rwa [Function.update_of_ne hid] at hi
  refine { hc with
    copies := hc.copies.stored hout hr ht hsize (hc.ahead _ List.mem_cons_self)
    fresh := fun i hi => hc.fresh i (hids i hi)
    used := fun i hi => hc.used i (hids i hi)
    tmp := ?_, sameDisk := ?_, copied := ?_, ahead := ?_, done := ?_ }
  · intro i hi
    have hne : i ≠ id := by
      rintro rfl
      simp at hi
    rw [Function.update_of_ne hne] at hi
    rw [storedDisk, Maps.getElem?_insert_of_ne hne, Maps.getElem?_insert_of_ne hne]
    exact hc.tmp i hi
  · rw [storedDisk]
    conv_lhs => rw [hc.sameDisk]
  · intro e' r' hat'
    rcases hat'.of_append hout with hold | ⟨-, rfl⟩
    · exact hc.copied e' r' hold
    · exact ⟨e, hs, hat⟩
  · intro k hk
    have hne : k ≠ r.key := fun h => hkey (h ▸ hk)
    rw [storedRun, Maps.getElem?_insert_of_ne hne]
    exact hc.ahead k (List.mem_cons_of_mem _ hk)
  · intro k e' he'
    by_cases hk : k = r.key
    · exact Or.inr (by simp [hk, storedRun])
    · rw [storedRun, Maps.getElem?_insert_of_ne hk]
      exact (hc.done k e' he').imp_left fun h => (List.mem_cons.mp h).resolve_left hk

/-- One turn of the loop. -/
theorem turn (h : Holds segs d₀) (ha : Active segs db₀ rs)
    (hc : Copying segs d₀ db₀ (r.key :: todo) d db run out) (hkey : r.key ∉ todo)
    (hs : run.snapshot[r.key]? = some e) (hat : At segs e r) (ht : r.tombstone = false) :
    (∃ d' db' run' out', Copying segs d₀ db₀ todo d' db' run' out' ∧
      mergeCopy run (r.key :: todo) ⟨d, db, []⟩ = mergeCopy run' todo ⟨d', db', []⟩) ∨
      ∃ w, mergeCopy run (r.key :: todo) ⟨d, db, []⟩ = .error .fault w := by
  have hd : Holds segs d := h.frame (by rw [hc.sameDisk]) (by rw [hc.sameDisk])
  have hopen : db.closed = false := by rw [hc.sameDB]; exact ha.opened
  have hread := mergeRead_run hd hopen hs hat ht
  have hlegal : r.Legal := by
    obtain ⟨s, pre, post, hfile, hrecs, -⟩ := hat
    exact hd.legal _ s hfile r (by simp [hrecs])
  have hnext : (db.reading e.fileID).nextFileID ≠ 0 := by
    have := ha.active_lt
    have := hc.next.1
    rw [DB.reading_eq]
    change db.nextFileID ≠ 0
    omega
  have hopen' : (db.reading e.fileID).closed = false := by rw [DB.reading_eq]; exact hopen
  rcases mergeAllocate_run (d := d) hopen' hnext run r.key r with
    ⟨run', f, d', db', htarget, halloc⟩ | ⟨-, w, hw⟩
  swap
  · exact Or.inr ⟨w, by simp only [mergeCopy, bind_apply, hread, hw]⟩
  have hfile : ∃ out' rs', Copying segs d₀ db₀ (r.key :: todo) d' db' run' out' ∧
      run'.current = some f ∧ out' f.fileID = some { records := rs' } ∧
      run'.snapshot = run.snapshot := by
    cases htarget with
    | stay hcur =>
      obtain ⟨rs', hrs', -⟩ := hc.copies.current f hcur
      exact ⟨out, rs', hc.reading e.fileID, hcur, hrs', rfl⟩
    | fresh hmax =>
      exact ⟨_, [], (hc.reading e.fileID).allocate ⟨_, e, hs⟩ hmax, rfl, Function.update_self ..,
        rfl⟩
  obtain ⟨out', rs', hc', hcur, hout', hsnap⟩ := hfile
  rcases mergeStore_run db' hc'.copies hcur hout' ht with ⟨hsize, hstore⟩ | ⟨w, hw⟩
  · refine Or.inl ⟨_, _, _, _, hc'.store hkey (hsnap ▸ hs) hat hlegal ht hout' hsize, ?_⟩
    simp only [mergeCopy, bind_apply, hread, halloc, hstore]
  · refine Or.inr ⟨w, ?_⟩
    simp only [mergeCopy, bind_apply, hread, halloc, hw]

/-- The whole loop. -/
theorem loop (h : Holds segs d₀) (ha : Active segs db₀ rs)
    (hserves : ∀ k e, (startRun d₀ db₀).snapshot[k]? = some e →
      ∃ r, At segs e r ∧ r.key = k ∧ r.tombstone = false)
    (hc : Copying segs d₀ db₀ todo d db run out) (hnd : todo.Nodup)
    (htodo : ∀ k ∈ todo, ∃ e, (startRun d₀ db₀).snapshot[k]? = some e) :
    (∃ d' db' run' out', Copying segs d₀ db₀ [] d' db' run' out' ∧
      mergeCopy run todo ⟨d, db, []⟩ = .ok run' ⟨d', db', []⟩) ∨
      ∃ w, mergeCopy run todo ⟨d, db, []⟩ = .error .fault w := by
  induction todo generalizing d db run out with
  | nil => exact Or.inl ⟨d, db, run, out, hc, rfl⟩
  | cons k todo ih =>
    obtain ⟨hk, hrest⟩ := List.nodup_cons.mp hnd
    obtain ⟨e, he⟩ := htodo k List.mem_cons_self
    obtain ⟨r, hat, rfl, ht⟩ := hserves k e he
    rcases hc.turn h ha hk (by rw [hc.sameRun.2, he]) hat ht with
      ⟨d', db', run', out', hc', heq⟩ | hfault
    · rw [heq]
      exact ih hc' hrest fun k' hk' => htodo k' (List.mem_cons_of_mem _ hk')
    · exact Or.inr hfault

end Copying

namespace Merged

variable {d' : Disk} {db' : DB}

theorem out_active (hm : Merged segs d db out d' db') (ha : Active segs db rs) :
    out db.activeFileID = none := by
  by_contra hne
  exact absurd ha.active_lt (Nat.not_lt.mpr (hm.fresh _ hne).1)

theorem segs_active (hm : Merged segs d db out d' db') (ha : Active segs db rs) :
    mergedSegs segs out db.activeFileID db.activeFileID = some { records := rs } := by
  rw [mergedSegs, hm.out_active ha, if_pos rfl, ha.file]
  rfl

/-- Only the active file and the merged ones are left. -/
theorem segs_cases (ha : Active segs db rs) {id : Nat} {s : Segment}
    (hs : mergedSegs segs out db.activeFileID id = some s) :
    out id = some s ∨ id = db.activeFileID ∧ s = { records := rs } := by
  rcases Option.or_eq_some_iff.mp hs with ho | ⟨-, hold⟩
  · exact Or.inl ho
  · split at hold
    · next heq =>
      rw [heq, ha.file, Option.some.injEq] at hold
      exact Or.inr ⟨heq, hold.symm⟩
    · cases hold

/-- The records after a merge: those of the merged files, and those of the active file. -/
theorem at_iff (hm : Merged segs d db out d' db') (ha : Active segs db rs) (e : KeyDirEntry)
    (r : Record) : At (mergedSegs segs out db.activeFileID) e r ↔
      At out e r ∨ At segs e r ∧ e.fileID = db.activeFileID := by
  constructor
  · rintro ⟨s, pre, post, hs, hrecs, he⟩
    rcases segs_cases ha hs with ho | ⟨hid, rfl⟩
    · exact Or.inl ⟨s, pre, post, ho, hrecs, he⟩
    · exact Or.inr ⟨⟨_, pre, post, hid ▸ ha.file, hrecs, he⟩, hid⟩
  · rintro (⟨s, pre, post, hs, hrecs, he⟩ | ⟨⟨s, pre, post, hs, hrecs, he⟩, hid⟩)
    · exact ⟨s, pre, post, by simp [mergedSegs, hs], hrecs, he⟩
    · refine ⟨s, pre, post, ?_, hrecs, he⟩
      rw [hid, hm.segs_active ha, ← ha.file, ← hid, hs]

/-- An entry of the new keydir is an old one of the active file, or that of a copy. -/
theorem keydir_cases (hm : Merged segs d db out d' db') {k : Bytes} {e' : KeyDirEntry}
    (he' : db'.keydir[k]? = some e') : ∃ e, db.keydir[k]? = some e ∧
      (e.fileID = db.activeFileID ∧ e' = e ∨
        e.fileID ≠ db.activeFileID ∧ ∃ r, At out e' r ∧ At segs e r ∧ r.key = k) := by
  cases he : db.keydir[k]? with
  | none =>
    rw [hm.dead k he] at he'
    cases he'
  | some e =>
    refine ⟨e, rfl, ?_⟩
    by_cases hact : e.fileID = db.activeFileID
    · rw [hm.kept k e he hact, Option.some.injEq] at he'
      exact Or.inl ⟨hact, he'.symm⟩
    · obtain ⟨e₁, r, he₁, hout, hold, hkey⟩ := hm.moved k e he hact
      rw [he₁, Option.some.injEq] at he'
      exact Or.inr ⟨hact, r, he' ▸ hout, hold, hkey⟩

theorem keydir_none (hm : Merged segs d db out d' db') {k : Bytes} (hk : db'.keydir[k]? = none) :
    db.keydir[k]? = none := by
  cases he : db.keydir[k]? with
  | none => rfl
  | some e =>
    by_cases hact : e.fileID = db.activeFileID
    · rw [hm.kept k e he hact] at hk
      cases hk
    · obtain ⟨e₁, _, he₁, _⟩ := hm.moved k e he hact
      rw [he₁] at hk
      cases hk

theorem serves (hm : Merged segs d db out d' db') (h : Holds segs d) (ha : Active segs db rs)
    (hs : Serves segs db.keydir m) :
    Serves (mergedSegs segs out db.activeFileID) db'.keydir m where
  live k e' he' := by
    obtain ⟨e, he, hfrom⟩ := hm.keydir_cases he'
    obtain ⟨r, hat, hkey, ht, hv⟩ := hs.live k e he
    refine ⟨r, (hm.at_iff ha e' r).mpr ?_, hkey, ht, hv⟩
    rcases hfrom with ⟨hact, rfl⟩ | ⟨-, r₁, hout, hold, -⟩
    · exact Or.inr ⟨hat, hact⟩
    · exact Or.inl (hold.unique h hat ▸ hout)
  dead k hk := hs.dead k (hm.keydir_none hk)

theorem active (hm : Merged segs d db out d' db') (ha : Active segs db rs) :
    Active (mergedSegs segs out db.activeFileID) db' rs := by
  rw [hm.sameDB]
  refine { ha with file := hm.segs_active ha, below := fun id hne => ?_, next := hm.next.2 }
  obtain ⟨s, hs⟩ := Option.ne_none_iff_exists'.mp hne
  rcases segs_cases ha hs with ho | ⟨rfl, -⟩
  · exact (hm.fresh id (by simp [ho])).2
  · exact Nat.lt_of_lt_of_le ha.active_lt hm.next.1

end Merged

/-- The call when there is nothing but the active file. -/
theorem Merged.idle (h : Holds segs d) (hd : d.tmpData = ∅ ∧ d.tmpHint = ∅)
    (hserves : Serves segs db.keydir m) (honly : ∀ id, segs id ≠ none → id = db.activeFileID)
    (hmax : db.nextFileID ≤ maxFileID) : Merged segs d db (fun _ => none) d db := by
  have hsegs : mergedSegs segs (fun _ => none) db.activeFileID = segs := by
    funext id
    by_cases hid : id = db.activeFileID
    · simp [mergedSegs, hid]
    · by_contra hne
      refine hid (honly id fun hnone => hne ?_)
      simp [mergedSegs, hid, hnone]
  have hactive : ∀ (k : Bytes) e, db.keydir[k]? = some e → e.fileID = db.activeFileID := by
    intro k e he
    obtain ⟨r, ⟨s, _, _, hs, _⟩, _⟩ := hserves.live k e he
    exact honly _ (by simp [hs])
  refine { holds := hsegs.symm ▸ h, hint := ?_, tmp := hd, sameDisk := ⟨rfl, rfl⟩, sameDB := rfl
           next := ⟨Nat.le_refl _, hmax⟩, fresh := by simp, clean := nofun, puts := nofun
           dead := fun _ hk => hk, kept := fun _ _ he _ => he, moved := ?_, copied := ?_
           published := by simp }
  · intro id
    by_cases hs : (segs id).isSome ∧ id ≠ db.activeFileID
    · exact absurd (honly id (Option.isSome_iff_ne_none.mp hs.1)) hs.2
    · simp [hs]
  · intro k e he hne
    exact absurd (hactive k e he) hne
  · rintro e' r ⟨s, _, _, hs, _⟩
    cases hs

namespace Copying

variable {d' : Disk}

theorem snapshot_iff (h : Holds segs d₀) (hc : Copying segs d₀ db₀ todo d db run out) {k : Bytes}
    {e : KeyDirEntry} : run.snapshot[k]? = some e ↔
      db₀.keydir[k]? = some e ∧ segs e.fileID ≠ none ∧ e.fileID ≠ db₀.activeFileID := by
  rw [hc.sameRun.2, startRun_snapshot, mem_startRun h]

theorem mem_immutableIDs (h : Holds segs d₀) (hc : Copying segs d₀ db₀ todo d db run out)
    {id : Nat} : id ∈ run.immutableIDs ↔ segs id ≠ none ∧ id ≠ db₀.activeFileID := by
  rw [hc.sameRun.1, mem_startRun h]

/-- A merged file has an ID of its own. -/
theorem unused (ha : Active segs db₀ rs) (hc : Copying segs d₀ db₀ todo d db run out) {id : Nat}
    (hid : out id ≠ none) : segs id = none := by
  by_contra hne
  exact absurd (ha.below id hne) (Nat.not_lt.mpr (hc.fresh id hid).1)

theorem published_holds (h : Holds segs d₀) (ha : Active segs db₀ rs)
    (hc : Copying segs d₀ db₀ todo d db run out) (hp : Published d run out d') :
    Holds (mergedSegs segs out db₀.activeFileID) d' where
  data id := by
    have hd : d.data[id]? = (segs id).map Segment.bytes := by rw [hc.sameDisk, h.data]
    rw [hp.data, mergedSegs]
    cases ho : out id with
    | some s =>
      have hnew : segs id = none := hc.unused ha (by simp [ho])
      simp [hc.mem_immutableIDs h, hnew]
    | none =>
      by_cases hid : id = db₀.activeFileID
      · subst hid
        simp [hc.mem_immutableIDs h, hd]
      · cases hs : segs id <;> simp [hc.mem_immutableIDs h, hid, hs, hd]
  legal id s hs := by
    rcases Merged.segs_cases ha hs with ho | ⟨rfl, rfl⟩
    · exact fun r hr => (hc.copies.legal id s ho r hr).1
    · exact h.legal _ _ ha.file
  size id s hs := by
    rcases Merged.segs_cases ha hs with ho | ⟨rfl, rfl⟩
    · exact hc.copies.size id s ho
    · exact h.size _ _ ha.file
  other := by
    rw [hp.other, hc.sameDisk]
    exact h.other

theorem published_hint (h : Holds segs d₀) (ha : Active segs db₀ rs)
    (hc : Copying segs d₀ db₀ todo d db run out) (hp : Published d run out d') (id : Nat) :
    d'.hint[id]? = ((out id).map fun s => hintBytes s.records).or
      (if (segs id).isSome ∧ id ≠ db₀.activeFileID then none else d₀.hint[id]?) := by
  rw [hp.hint, show d.hint = d₀.hint by rw [hc.sameDisk]]
  cases ho : out id with
  | some s =>
    have hnew : segs id = none := hc.unused ha (by simp [ho])
    simp [hc.mem_immutableIDs h, hnew]
  | none => simp [hc.mem_immutableIDs h, Option.isSome_iff_ne_none]

/-- The call had no other temporary files. -/
theorem published_tmp (hc : Copying segs d₀ db₀ todo d db run out) (hp : Published d run out d') :
    d'.tmpData = ∅ ∧ d'.tmpHint = ∅ := by
  have hnone : ∀ {id}, id ∉ run.mergedFiles → out id = none := by
    intro id hid
    rwa [hc.copies.files, not_not] at hid
  refine ⟨ExtTreeMap.ext_getElem? fun id => ?_, ExtTreeMap.ext_getElem? fun id => ?_⟩
  · rw [hp.tmpData]
    split
    · simp
    · next hid => simpa using (hc.tmp id (hnone hid)).1
  · rw [hp.tmpHint]
    split
    · simp
    · next hid => simpa using (hc.tmp id (hnone hid)).2

/-- The last part of the call, once every key has been copied. -/
theorem merged {readers : List Nat} (h : Holds segs d₀) (ha : Active segs db₀ rs)
    (hserves : Serves segs db₀.keydir m) (hc : Copying segs d₀ db₀ [] d db run out)
    (hp : Published d run out d') :
    Merged segs d₀ db₀ out d' { db with keydir := redirect run db.keydir, readers := readers } := by
  have hkeydir : db.keydir = db₀.keydir := by rw [hc.sameDB]
  have hmoved : ∀ (k : Bytes) e e', run.snapshot[k]? = some e → run.mergedEntries[k]? = some e' →
      (redirect run db.keydir)[k]? = some e' := fun k e e' he he' =>
    redirect_moved (by rw [hkeydir]; exact ((hc.snapshot_iff h).mp he).1) he he'
  refine { holds := hc.published_holds h ha hp, hint := hc.published_hint h ha hp
           tmp := hc.published_tmp hp, sameDisk := ⟨?_, ?_⟩, sameDB := ?_, next := hc.next
           fresh := hc.fresh, clean := hc.copies.clean, puts := ?_, dead := ?_, kept := ?_
           moved := ?_, copied := ?_, published := ?_ }
  · rw [hp.present, hc.sameDisk]
  · rw [hp.locked, hc.sameDisk]
  · generalize redirect run db.keydir = keydir
    conv_lhs => rw [hc.sameDB]
  · exact fun id s hs r hr => (hc.copies.legal id s hs r hr).2
  · intro k hk
    refine (redirect_kept fun e he _ => ?_).trans (by rw [hkeydir, hk])
    rw [hkeydir, hk] at he
    cases he
  · intro k e he hactive
    refine (redirect_kept fun e' he' hs => ?_).trans (by rw [hkeydir, he])
    rw [hkeydir, he, Option.some.injEq] at he'
    subst he'
    exact absurd hactive ((hc.snapshot_iff h).mp hs).2.2
  · intro k e he hne
    have hlive : segs e.fileID ≠ none := by
      obtain ⟨r, ⟨s, _, _, hs, _⟩, _⟩ := hserves.live k e he
      simp [hs]
    have hs : run.snapshot[k]? = some e := (hc.snapshot_iff h).mpr ⟨he, hlive, hne⟩
    obtain ⟨e', he'⟩ := Option.ne_none_iff_exists'.mp ((hc.done k e hs).resolve_left (by simp))
    obtain ⟨r, hat, hkey⟩ := (hc.copies.entries k e').mp he'
    obtain ⟨e₁, he₁, hat₁⟩ := hc.copied e' r hat
    rw [hkey, hs, Option.some.injEq] at he₁
    subst he₁
    exact ⟨e', r, hmoved k e e' hs he', hat, hat₁, hkey⟩
  · intro e' r hat
    obtain ⟨e, hs, hat₁⟩ := hc.copied e' r hat
    have hold := (hc.snapshot_iff h).mp hs
    exact ⟨e, hold.1, hold.2.2, hat₁,
      hmoved r.key e e' hs ((hc.copies.entries r.key e').mpr ⟨r, hat, rfl⟩)⟩
  · intro id hid
    obtain ⟨k, e, he⟩ := hc.used id hid
    rw [hc.snapshot_iff h] at he
    exact ⟨k, e, he.1, he.2.2⟩

end Copying

/-- `Merge` succeeds unless a file outgrows the file system. -/
theorem merge_run (h : Holds segs d) (ha : Active segs db rs) (hserves : Serves segs db.keydir m)
    (hd : d.tmpData = ∅ ∧ d.tmpHint = ∅) :
    (∃ out d' db', Merged segs d db out d' db' ∧ merge ⟨d, db, []⟩ = .ok () ⟨d', db', []⟩) ∨
      ∃ w, merge ⟨d, db, []⟩ = .error .fault w := by
  simp only [merge, bind_apply, mergeSnapshot_run h ha]
  by_cases hids : (startRun d db).immutableIDs = []
  · refine Or.inl ⟨_, d, db, Merged.idle h hd hserves ?_ ha.next, by rw [if_pos hids]; rfl⟩
    intro id hid
    by_contra hne
    have := (mem_startRun h).mpr ⟨hid, hne⟩
    rw [hids] at this
    simp at this
  · rw [if_neg hids]
    simp only [bind_apply]
    have hlive : ∀ k e, (startRun d db).snapshot[k]? = some e →
        ∃ r, At segs e r ∧ r.key = k ∧ r.tombstone = false := by
      intro k e he
      obtain ⟨r, hat, hkey, ht, -⟩ := hserves.live k e (startRun_snapshot.mp he).1
      exact ⟨r, hat, hkey, ht⟩
    have hmem : ∀ k ∈ (startRun d db).snapshot.keys,
        ∃ e, (startRun d db).snapshot[k]? = some e := by
      intro k hk
      rw [ExtTreeMap.mem_keys, ExtTreeMap.mem_iff_isSome_getElem?] at hk
      exact Option.isSome_iff_exists.mp hk
    have hnd : (startRun d db).snapshot.keys.Nodup :=
      List.Pairwise.imp (fun hne heq => hne (by rw [heq]; exact compare_self))
        (ExtTreeMap.distinct_keys (t := (startRun d db).snapshot))
    rcases (Copying.start hd ha.next).loop h ha hlive hnd hmem with
      ⟨d', db', run', out', hc, hloop⟩ | ⟨w, hw⟩
    · have hopen : db'.closed = false := by rw [hc.sameDB]; exact ha.opened
      have hrw : db'.opts.readWrite = true := by rw [hc.sameDB]; exact ha.readWrite
      obtain ⟨d'', readers, hpub, hok⟩ := mergePublish_run hc.copies hopen hrw
      refine Or.inl ⟨out', d'', _, hc.merged h ha hserves hpub, Eq.trans ?_ hok⟩
      rw [hloop]
    · refine Or.inr ⟨w, ?_⟩
      rw [hw]

end KvRaft.Store
