import KvRaft.Store.Overlap
import KvRaft.Store.Sessions

/-! What holds while calls of `Merge` overlap with the other calls. An entry that points into an old
file of a call is still the one of its snapshot; a copy whose entry is still that of the keydir has
the value of the key; so the redirection at the end changes no value, and leaves no entry that
points at a file that the call removes. -/

namespace KvRaft.Store

open Std Replay

/-- What holds of the store between any two steps. -/
structure Steady (segs : Nat → Option Segment) (m : Bytes → Option Bytes) (w : World) : Prop where
  calm : w.outcomes = []
  holds : Holds segs w.disk
  active : ∃ rs, Active segs w.db rs
  serves : Serves segs w.db.keydir m
  tmp : ∀ id, w.disk.tmpData[id]? ≠ none ∨ w.disk.tmpHint[id]? ≠ none →
    id < w.db.nextFileID ∧ segs id = none

/-- While the entry that the snapshot has for the key of `r` is the one of the keydir, `r` has the
value of the key. -/
def MergeRun.Faithful (run : MergeRun) (keydir : KeyDir) (m : Bytes → Option Bytes) (r : Record) :
    Prop :=
  ∃ e, run.snapshot[r.key]? = some e ∧ (keydir[r.key]? = some e → m r.key = some r.value)

/-- What holds of a call of `Merge` that has written the files `out`, with `keys` still to copy. -/
structure Flying (segs : Nat → Option Segment) (m : Bytes → Option Bytes) (w : World)
    (run : MergeRun) (out : Nat → Option Segment) (keys : List Bytes) : Prop where
  copies : Copies w.disk run out
  old : ∀ id ∈ run.immutableIDs,
    id < w.db.nextFileID ∧ id ≠ w.db.activeFileID ∧ w.disk.tmpData[id]? = none
  source : ∀ k e, run.snapshot[k]? = some e → e.fileID ∈ run.immutableIDs ∧
    (segs e.fileID ≠ none → ∃ r, At segs e r ∧ r.key = k ∧ r.tombstone = false)
  recent : ∀ (k : Bytes) e, w.db.keydir[k]? = some e → e.fileID ∈ run.immutableIDs →
    run.snapshot[k]? = some e
  copied : ∀ e r, At out e r → run.Faithful w.db.keydir m r
  nodup : keys.Nodup
  ahead : ∀ k ∈ keys, run.mergedEntries[k]? = none ∧ ∃ e, run.snapshot[k]? = some e
  done : ∀ k e, run.snapshot[k]? = some e → k ∈ keys ∨ run.mergedEntries[k]? ≠ none

/-- The record that a call has in hand. -/
structure InHand (run : MergeRun) (w : World) (m : Bytes → Option Bytes) (key : Bytes)
    (r : Record) : Prop where
  key : r.key = key
  legal : r.Legal
  tombstone : r.tombstone = false
  faithful : run.Faithful w.db.keydir m r

def Merging.Flies (segs : Nat → Option Segment) (m : Bytes → Option Bytes) (w : World)
    (out : Nat → Option Segment) : Merging → Prop
  | .next run keys => Flying segs m w run out keys
  | .found run key r keys => Flying segs m w run out (key :: keys) ∧ InHand run w m key r
  | .placed run file key r keys =>
    Flying segs m w run out (key :: keys) ∧ InHand run w m key r ∧ run.current = some file

/-- What a step of another call spares of a call of `Merge`. -/
structure Spared (segs : Nat → Option Segment) (m : Bytes → Option Bytes) (w : World)
    (segs' : Nat → Option Segment) (m' : Bytes → Option Bytes) (w' : World) (run : MergeRun) :
    Prop where
  tmp : ∀ id ∈ run.mergedFiles, w'.disk.tmpData[id]? = w.disk.tmpData[id]? ∧
    w'.disk.tmpHint[id]? = w.disk.tmpHint[id]?
  next : w.db.nextFileID ≤ w'.db.nextFileID
  active : w'.db.activeFileID ∉ run.immutableIDs
  fresh : ∀ id ∈ run.immutableIDs, w'.disk.tmpData[id]? = none
  files : ∀ id ∈ run.immutableIDs, segs' id = segs id ∨ segs' id = none
  entries : ∀ (k : Bytes) e, w'.db.keydir[k]? = some e → e.fileID ∈ run.immutableIDs →
    w.db.keydir[k]? = some e ∧ m' k = m k

/-- What holds of the store and of all calls of `Merge` together. -/
structure Flights (segs : Nat → Option Segment) (m : Bytes → Option Bytes) (s : Shared) :
    Prop where
  steady : Steady segs m s.world
  flies : ∀ i x, s.merges i = some x → ∃ out, x.Flies segs m s.world out
  apart : ∀ i j x y, i ≠ j → s.merges i = some x → s.merges j = some y →
    ∀ id ∈ x.run.mergedFiles, id ∉ y.run.mergedFiles

variable {segs segs' out : Nat → Option Segment} {m m' : Bytes → Option Bytes} {w w' : World}
  {d d' : Disk} {db db' : DB} {run : MergeRun} {keys : List Bytes} {key : Bytes} {r : Record}
  {rs : List Record} {x : Merging} {s s' : Shared}

section Frame

theorem Flying.faithful_spared (h : Flying segs m w run out keys)
    (hs : Spared segs m w segs' m' w' run) (hr : run.Faithful w.db.keydir m r) :
    run.Faithful w'.db.keydir m' r := by
  obtain ⟨e, he, hval⟩ := hr
  refine ⟨e, he, fun he' => ?_⟩
  obtain ⟨hold, hm⟩ := hs.entries r.key e he' (h.source _ e he).1
  rw [hm, hval hold]

theorem Flying.spared (h : Flying segs m w run out keys) (hs : Spared segs m w segs' m' w' run) :
    Flying segs' m' w' run out keys where
  copies := h.copies.frame (fun id hid => (hs.tmp id ((h.copies.files id).mpr hid)).1)
    fun id hid => (hs.tmp id ((h.copies.files id).mpr hid)).2
  old id hid := by
    refine ⟨Nat.lt_of_lt_of_le (h.old id hid).1 hs.next, ?_, hs.fresh id hid⟩
    rintro rfl
    exact hs.active hid
  source k e he := by
    obtain ⟨hold, hat⟩ := h.source k e he
    refine ⟨hold, fun hne => ?_⟩
    rcases hs.files e.fileID hold with hsame | hnone
    · rw [hsame] at hne
      obtain ⟨r, ⟨s, pre, post, hfile, hplace⟩, hrest⟩ := hat hne
      exact ⟨r, ⟨s, pre, post, hsame.trans hfile, hplace⟩, hrest⟩
    · exact absurd hnone hne
  recent k e he hold := h.recent k e (hs.entries k e he hold).1 hold
  copied e r hat := h.faithful_spared hs (h.copied e r hat)
  nodup := h.nodup
  ahead := h.ahead
  done := h.done

theorem Flying.inHand_spared (h : Flying segs m w run out keys)
    (hs : Spared segs m w segs' m' w' run) (hr : InHand run w m key r) : InHand run w' m' key r :=
  { hr with faithful := h.faithful_spared hs hr.faithful }

theorem Merging.Flies.flying (h : x.Flies segs m w out) :
    ∃ keys, Flying segs m w x.run out keys := by
  cases x with
  | next => exact ⟨_, h⟩
  | found | placed => exact ⟨_, h.1⟩

theorem Merging.Flies.spared (h : x.Flies segs m w out) (hs : Spared segs m w segs' m' w' x.run) :
    x.Flies segs' m' w' out := by
  cases x with
  | next => exact Flying.spared h hs
  | found => exact ⟨h.1.spared hs, h.1.inHand_spared hs h.2⟩
  | placed => exact ⟨h.1.spared hs, h.1.inHand_spared hs h.2.1, h.2.2⟩

/-- The files that a call is writing. -/
theorem Flying.temporary (h : Flying segs m w run out keys) {id : Nat}
    (hid : id ∈ run.mergedFiles) : w.disk.tmpData[id]? ≠ none ∧ w.disk.tmpHint[id]? ≠ none := by
  obtain ⟨s, hs⟩ := Option.ne_none_iff_exists'.mp ((h.copies.files id).mp hid)
  rw [h.copies.data id s hs, h.copies.hint id s hs]
  simp

/-- A step of a call that is not one of `Merge`. -/
theorem Flights.beside (h : Flights segs m s) (hw : Steady segs' m' w')
    (hspared : ∀ run out keys, Flying segs m s.world run out keys →
      Spared segs m s.world segs' m' w' run) : Flights segs' m' { s with world := w' } where
  steady := hw
  flies i x hx := by
    obtain ⟨out, hflies⟩ := h.flies i x hx
    obtain ⟨keys, hflying⟩ := hflies.flying
    exact ⟨out, hflies.spared (hspared _ _ _ hflying)⟩
  apart := h.apart

/-- A step of a call of `Merge`. -/
theorem Flights.goOn {i : Nat} {x' : Option Merging} (h : Flights segs m s)
    (hw : Steady segs' m' w')
    (hspared : ∀ j y out keys, j ≠ i → s.merges j = some y → Flying segs m s.world y.run out keys →
      Spared segs m s.world segs' m' w' y.run)
    (hown : ∀ x, x' = some x → (∃ out, x.Flies segs' m' w' out) ∧
      ∀ j y, j ≠ i → s.merges j = some y → ∀ id ∈ x.run.mergedFiles, id ∉ y.run.mergedFiles) :
    Flights segs' m' (s.goOn i (x', w')) := by
  have hcases : ∀ j y, (s.goOn i (x', w')).merges j = some y →
      j = i ∧ x' = some y ∨ j ≠ i ∧ s.merges j = some y := by
    intro j y hy
    by_cases hj : j = i
    · subst hj
      exact Or.inl ⟨rfl, by simpa [Shared.goOn] using hy⟩
    · exact Or.inr ⟨hj, by simpa [Shared.goOn, hj] using hy⟩
  refine ⟨hw, fun j y hy => ?_, fun j k y z hne hy hz id hidy hidz => ?_⟩
  · rcases hcases j y hy with ⟨-, hx⟩ | ⟨hj, hy⟩
    · exact (hown y hx).1
    · obtain ⟨out, hflies⟩ := h.flies j y hy
      obtain ⟨keys, hflying⟩ := hflies.flying
      exact ⟨out, hflies.spared (hspared j y _ _ hj hy hflying)⟩
  · rcases hcases j y hy with ⟨hj, hx⟩ | ⟨hj, hy⟩ <;> rcases hcases k z hz with ⟨hk, hx'⟩ | ⟨hk, hz⟩
    · exact hne (hj.trans hk.symm)
    · exact (hown y hx).2 k z hk hz id hidy hidz
    · exact (hown z hx').2 j y hj hy id hidz hidy
    · exact h.apart j k y z hne hy hz id hidy hidz

end Frame

section Writes

/-- What a rotation leaves alone. -/
theorem Room.same {len : Int64} {rs' : List Record}
    (hroom : Room segs d db rs len segs' d' db' rs') :
    d'.tmpData = d.tmpData ∧ d'.tmpHint = d.tmpHint ∧ db'.keydir = db.keydir ∧
      db.nextFileID ≤ db'.nextFileID ∧
      (db'.activeFileID = db.activeFileID ∨ db'.activeFileID = db.nextFileID) ∧
      ∀ id, id < db.nextFileID → segs' id = segs id := by
  cases hroom with
  | stay => exact ⟨rfl, rfl, rfl, Nat.le_refl _, Or.inl rfl, fun _ _ => rfl⟩
  | rotate =>
    refine ⟨rfl, rfl, rfl, Nat.le_succ _, Or.inr rfl, fun id hid => ?_⟩
    rw [Function.update_of_ne (Nat.ne_of_lt hid)]

theorem Steady.appended (h : Steady segs m w) (ha : Active segs w.db rs) (hr : r.Legal)
    (happ : Appended segs w.disk w.db rs r segs' w') :
    Steady segs' (r.effect m) w' ∧ ∀ run out keys, Flying segs m w run out keys →
      Spared segs m w segs' (r.effect m) w' run := by
  cases happ with
  | @intro segs₁ d₁ db₁ rs₁ hroom _ hsize =>
    obtain ⟨htmpData, htmpHint, hkeydir, hnext, hactive, hfiles⟩ := hroom.same
    have ha₁ := hroom.active ha
    have hserves : Serves segs₁ db₁.keydir m := by
      rw [hkeydir]
      exact h.serves.grow (hroom.grows ha)
    refine ⟨⟨rfl, (hroom.holds h.holds).append ha₁ hr hsize, ⟨rs₁ ++ [r], ?_⟩, ?_, ?_⟩, ?_⟩
    · exact { ha₁.append r with }
    · exact (hserves.grow (ha₁.grows r)).write (At.last segs₁ _ rs₁ r)
    · intro id hid
      change d₁.tmpData[id]? ≠ none ∨ d₁.tmpHint[id]? ≠ none at hid
      rw [htmpData, htmpHint] at hid
      obtain ⟨hlt, hnone⟩ := h.tmp id hid
      refine ⟨Nat.lt_of_lt_of_le hlt hnext, ?_⟩
      have hnone₁ : segs₁ id = none := by rw [hfiles id hlt, hnone]
      have hne : id ≠ db₁.activeFileID := by
        rintro rfl
        rw [ha₁.file] at hnone₁
        cases hnone₁
      rw [Function.update_of_ne hne, hnone₁]
    · intro run out keys hf
      have hnot : db₁.activeFileID ∉ run.immutableIDs := by
        intro hmem
        have hold := hf.old _ hmem
        rcases hactive with heq | heq
        · exact hold.2.1 heq
        · exact absurd hold.1 (heq ▸ Nat.lt_irrefl _)
      refine { tmp := fun id _ => ⟨?_, ?_⟩, next := hnext, active := hnot, fresh := ?_
               files := fun id hid => Or.inl ?_, entries := ?_ }
      · change d₁.tmpData[id]? = _
        rw [htmpData]
      · change d₁.tmpHint[id]? = _
        rw [htmpHint]
      · intro id hid
        change d₁.tmpData[id]? = none
        rw [htmpData]
        exact (hf.old id hid).2.2
      · have hne : id ≠ db₁.activeFileID := fun heq => hnot (heq ▸ hid)
        rw [Function.update_of_ne hne]
        exact hfiles id (hf.old id hid).1
      · intro k e he hold
        change (r.index _ db₁.keydir)[k]? = some e at he
        by_cases hk : k = r.key
        · subst hk
          rw [Record.index_self] at he
          split at he
          · cases he
          · obtain rfl := Option.some.inj he
            exact absurd hold hnot
        · rw [Record.index_ne hk, hkeydir] at he
          exact ⟨he, Record.effect_ne hk⟩

end Writes

section Reads

theorem Steady.reading (h : Steady segs m ⟨d, db, []⟩) (id : Nat) :
    Steady segs m ⟨d, db.reading id, []⟩ := by
  obtain ⟨rs, ha⟩ := h.active
  have ha' := ha.reading id
  rw [DB.reading_eq] at ha' ⊢
  exact { h with active := ⟨rs, ha'⟩ }

/-- A descriptor of a data file concerns no call of `Merge`. -/
theorem Flying.reading (h : Flying segs m ⟨d, db, []⟩ run out keys) (id : Nat) :
    Spared segs m ⟨d, db, []⟩ segs m ⟨d, db.reading id, []⟩ run := by
  rw [DB.reading_eq]
  exact { tmp := fun _ _ => ⟨rfl, rfl⟩, next := Nat.le_refl _
          active := fun hmem => (h.old _ hmem).2.1 rfl
          fresh := fun id hid => (h.old id hid).2.2, files := fun _ _ => Or.inl rfl
          entries := fun _ _ he _ => ⟨he, rfl⟩ }

end Reads

section Start

/-- A call of `Merge` that has taken its snapshot. -/
theorem Steady.start (h : Steady segs m w) :
    Flying segs m w (startRun w.disk w.db) (fun _ => none)
      (startRun w.disk w.db).snapshot.keys := by
  obtain ⟨rs, ha⟩ := h.active
  refine { copies := Copies.start _ _ _, old := ?_, source := ?_, recent := ?_, copied := ?_
           nodup := ?_, ahead := ?_, done := ?_ }
  · intro id hid
    obtain ⟨hfile, hne⟩ := (mem_startRun h.holds).mp hid
    refine ⟨ha.below id hfile, hne, ?_⟩
    by_contra htmp
    exact hfile (h.tmp id (Or.inl htmp)).2
  · intro k e he
    obtain ⟨hkey, hold⟩ := startRun_snapshot.mp he
    obtain ⟨r, hat, hrkey, ht, -⟩ := h.serves.live k e hkey
    exact ⟨hold, fun _ => ⟨r, hat, hrkey, ht⟩⟩
  · exact fun k e he hold => startRun_snapshot.mpr ⟨he, hold⟩
  · rintro e r ⟨s, _, _, hs, _⟩
    cases hs
  · exact List.Pairwise.imp (fun hne heq => hne (by rw [heq]; exact compare_self))
      (ExtTreeMap.distinct_keys (t := (startRun w.disk w.db).snapshot))
  · intro k hk
    rw [ExtTreeMap.mem_keys, ExtTreeMap.mem_iff_isSome_getElem?] at hk
    exact ⟨by simp [startRun], Option.isSome_iff_exists.mp hk⟩
  · intro k e he
    left
    rw [ExtTreeMap.mem_keys, ExtTreeMap.mem_iff_isSome_getElem?, he]
    rfl

end Start

section Copy

/-- The record that a call reads, if no other call has removed its file. -/
theorem Steady.inHand (hw : Steady segs m w) {e : KeyDirEntry} (he : run.snapshot[key]? = some e)
    (hat : At segs e r) (hkey : r.key = key) (ht : r.tombstone = false) : InHand run w m key r where
  key := hkey
  legal := by
    obtain ⟨s, pre, post, hs, hrecs, -⟩ := hat
    exact hw.holds.legal _ s hs r (by simp [hrecs])
  tombstone := ht
  faithful := by
    refine ⟨e, hkey ▸ he, fun hcur => ?_⟩
    obtain ⟨r', hat', -, -, hval⟩ := hw.serves.live _ e hcur
    rw [hval, hat.unique hw.holds hat']

theorem Steady.next_le (hw : Steady segs m w) : w.db.nextFileID ≤ maxFileID := by
  obtain ⟨rs, ha⟩ := hw.active
  exact ha.next

/-- Only temporary files change, and the counter of file IDs. -/
theorem Steady.temporary (hw : Steady segs m w) {tmpData tmpHint : ExtTreeMap Nat Bytes}
    {next : Nat} (hnext : w.db.nextFileID ≤ next) (hmax : next ≤ maxFileID)
    (htmp : ∀ id : Nat, tmpData[id]? ≠ none ∨ tmpHint[id]? ≠ none → id < next ∧ segs id = none) :
    Steady segs m ⟨{ w.disk with tmpData := tmpData, tmpHint := tmpHint },
      { w.db with nextFileID := next }, []⟩ where
  calm := rfl
  holds := hw.holds.frame rfl rfl
  active := by
    obtain ⟨rs, ha⟩ := hw.active
    exact ⟨rs, ha.frame rfl hnext hmax⟩
  serves := hw.serves
  tmp := htmp

theorem Flying.temporary_spared (h : Flying segs m w run out keys)
    {tmpData tmpHint : ExtTreeMap Nat Bytes} {next : Nat} (hnext : w.db.nextFileID ≤ next)
    (htmp : ∀ id ∈ run.mergedFiles, tmpData[id]? = w.disk.tmpData[id]? ∧
      tmpHint[id]? = w.disk.tmpHint[id]?)
    (hold : ∀ id ∈ run.immutableIDs, tmpData[id]? = none) :
    Spared segs m w segs m ⟨{ w.disk with tmpData := tmpData, tmpHint := tmpHint },
      { w.db with nextFileID := next }, []⟩ run where
  tmp := htmp
  next := hnext
  active hmem := (h.old _ hmem).2.1 rfl
  fresh := hold
  files _ _ := Or.inl rfl
  entries _ _ he _ := ⟨he, rfl⟩

/-- A new file of a call. -/
theorem Flying.allocate (h : Flying segs m w run out keys) (hw : Steady segs m w) :
    Flying segs m
      ⟨{ w.disk with tmpData := w.disk.tmpData.insert w.db.nextFileID []
                     tmpHint := w.disk.tmpHint.insert w.db.nextFileID [] },
        { w.db with nextFileID := w.db.nextFileID + 1 }, []⟩
      { run with mergedFiles := run.mergedFiles ++ [w.db.nextFileID]
                 current := some ⟨w.db.nextFileID, 0⟩ }
      (Function.update out w.db.nextFileID (some { records := [] })) keys := by
  have hnone : out w.db.nextFileID = none := by
    by_contra hne
    have htmp := (h.temporary ((h.copies.files _).mpr hne)).1
    exact Nat.lt_irrefl _ (hw.tmp _ (Or.inl htmp)).1
  refine { h with copies := h.copies.fresh hnone, old := fun id hid => ?_
                  copied := fun e r hat => h.copied e r hat.of_empty }
  obtain ⟨hlt, hne, htmp⟩ := h.old id hid
  refine ⟨Nat.lt_succ_of_lt hlt, hne, ?_⟩
  exact (Maps.getElem?_insert_of_ne (Nat.ne_of_lt hlt)).trans htmp

/-- The copy of the record in hand is written. -/
theorem Flying.store (h : Flying segs m w run out (key :: keys)) (hr : InHand run w m key r)
    {id : Nat} (hout : out id = some { records := rs })
    (hsize : (bytesOf (rs ++ [r])).length ≤ maxFileSize) :
    Flying segs m ⟨storedDisk w.disk id rs r, w.db, []⟩ (storedRun run id rs r)
      (Function.update out id (some { records := rs ++ [r] })) keys := by
  obtain ⟨rfl, hlegal, ht, hfaithful⟩ := hr
  obtain ⟨hnot, hnodup⟩ := List.nodup_cons.mp h.nodup
  have hnew := (h.ahead r.key List.mem_cons_self).1
  have hmine : id ∈ run.mergedFiles := (h.copies.files id).mpr (by simp [hout])
  refine { copies := h.copies.stored hout hlegal ht hsize hnew, old := fun i hi => ?_
           source := h.source, recent := h.recent, copied := fun e r' hat => ?_, nodup := hnodup
           ahead := fun k hk => ?_, done := fun k e he => ?_ }
  · obtain ⟨hlt, hne, htmp⟩ := h.old i hi
    refine ⟨hlt, hne, Eq.trans (Maps.getElem?_insert_of_ne ?_) htmp⟩
    rintro rfl
    exact (h.temporary hmine).1 htmp
  · rcases hat.of_append hout with hold | ⟨-, rfl⟩
    · exact h.copied e r' hold
    · exact hfaithful
  · have hne : k ≠ r.key := fun heq => hnot (heq ▸ hk)
    rw [storedRun, Maps.getElem?_insert_of_ne hne]
    exact h.ahead k (List.mem_cons_of_mem _ hk)
  · by_cases hk : k = r.key
    · exact Or.inr (by simp [hk, storedRun])
    · rw [storedRun, Maps.getElem?_insert_of_ne hk]
      exact (h.done k e he).imp_left fun hmem => (List.mem_cons.mp hmem).resolve_left hk

end Copy

section Publish

/-- The data files after a call has published `out` and removed its old ones. -/
def publishedSegs (segs : Nat → Option Segment) (run : MergeRun) (out : Nat → Option Segment) :
    Nat → Option Segment :=
  fun id => if id ∈ run.immutableIDs then none else (out id).or (segs id)

theorem publishedSegs_cases {id : Nat} {seg : Segment}
    (hs : publishedSegs segs run out id = some seg) :
    id ∉ run.immutableIDs ∧ (out id = some seg ∨ segs id = some seg) := by
  unfold publishedSegs at hs
  split at hs
  · cases hs
  · next hid => exact ⟨hid, (Option.or_eq_some_iff.mp hs).imp_right And.right⟩

/-- The files of a call are none of the data files, nor an old file of any call. -/
theorem Flying.out_none (h : Flying segs m w run out keys) (hw : Steady segs m w) {id : Nat}
    (hid : segs id ≠ none) : out id = none := by
  by_contra hne
  exact hid (hw.tmp id (Or.inl (h.temporary ((h.copies.files id).mpr hne)).1)).2

theorem Flying.out_old (h : Flying segs m w run out keys) {run' : MergeRun}
    {out' : Nat → Option Segment} {keys' : List Bytes} (h' : Flying segs m w run' out' keys')
    {id : Nat} (hid : id ∈ run'.immutableIDs) : out id = none := by
  by_contra hne
  exact (h.temporary ((h.copies.files id).mpr hne)).1 (h'.old id hid).2.2

/-- What the redirection makes of the entry of a key. -/
theorem Flying.redirect_cases (h : Flying segs m w run out []) (k : Bytes) :
    (∃ e' r, (redirect run w.db.keydir)[k]? = some e' ∧ At out e' r ∧ r.key = k ∧
        m k = some r.value) ∨
      (redirect run w.db.keydir)[k]? = w.db.keydir[k]? ∧
        ∀ e, w.db.keydir[k]? = some e → e.fileID ∉ run.immutableIDs := by
  by_cases hold : ∃ e, w.db.keydir[k]? = some e ∧ e.fileID ∈ run.immutableIDs
  · obtain ⟨e, he, hid⟩ := hold
    have hs := h.recent k e he hid
    obtain ⟨e', he'⟩ := Option.ne_none_iff_exists'.mp ((h.done k e hs).resolve_left (by simp))
    obtain ⟨r, hat, rfl⟩ := (h.copies.entries k e').mp he'
    obtain ⟨e₁, hs₁, hval⟩ := h.copied e' r hat
    rw [hs, Option.some.injEq] at hs₁
    subst hs₁
    exact Or.inl ⟨e', r, redirect_moved he hs he', hat, rfl, hval he⟩
  · refine Or.inr ⟨redirect_kept fun e he hs => ?_, fun e he hid => hold ⟨e, he, hid⟩⟩
    exact absurd ⟨e, he, (h.source k e hs).1⟩ hold

theorem Flying.published (h : Flying segs m w run out []) (hw : Steady segs m w)
    (hp : Published w.disk run out d') (readers : List Nat) :
    Steady (publishedSegs segs run out) m
      ⟨d', { w.db with keydir := redirect run w.db.keydir, readers := readers }, []⟩ := by
  obtain ⟨rs, ha⟩ := hw.active
  have hgrow : ∀ e r, At out e r → At (publishedSegs segs run out) e r := by
    rintro e r ⟨seg, pre, post, hs, hplace⟩
    have hid : e.fileID ∉ run.immutableIDs := fun hmem => by
      rw [h.out_old h hmem] at hs
      cases hs
    exact ⟨seg, pre, post, by simp [publishedSegs, hid, hs], hplace⟩
  have hkept : ∀ e r, At segs e r → e.fileID ∉ run.immutableIDs →
      At (publishedSegs segs run out) e r := by
    rintro e r ⟨seg, pre, post, hs, hplace⟩ hid
    have hout := h.out_none hw (show segs e.fileID ≠ none by simp [hs])
    exact ⟨seg, pre, post, by simp [publishedSegs, hid, hs, hout], hplace⟩
  have hactive : publishedSegs segs run out w.db.activeFileID = some { records := rs } := by
    have hid : w.db.activeFileID ∉ run.immutableIDs := fun hmem => (h.old _ hmem).2.1 rfl
    have hout := h.out_none hw (show segs w.db.activeFileID ≠ none by simp [ha.file])
    simp [publishedSegs, hid, ha.file, hout]
  refine ⟨rfl, ⟨fun id => ?_, fun id seg hs => ?_, fun id seg hs => ?_, ?_⟩,
    ⟨rs, { ha with file := hactive, below := fun id hid => ?_ }⟩,
    ⟨fun k e' he' => ?_, fun k hk => ?_⟩, fun id hid => ?_⟩
  · rw [hp.data, publishedSegs, hw.holds.data]
    split
    · rfl
    · rw [Option.map_or]
  · rcases (publishedSegs_cases hs).2 with hout | hold
    · exact fun r hr => (h.copies.legal id seg hout r hr).1
    · exact hw.holds.legal id seg hold
  · rcases (publishedSegs_cases hs).2 with hout | hold
    · exact h.copies.size id seg hout
    · exact hw.holds.size id seg hold
  · exact hp.other.trans hw.holds.other
  · obtain ⟨seg, hs⟩ := Option.ne_none_iff_exists'.mp hid
    rcases (publishedSegs_cases hs).2 with hout | hold
    · have := (h.temporary ((h.copies.files id).mpr (by simp [hout]))).1
      exact (hw.tmp id (Or.inl this)).1
    · exact ha.below id (by simp [hold])
  · rcases h.redirect_cases k with ⟨e₁, r, he₁, hat, hkey, hval⟩ | ⟨hsame, hnot⟩
    · obtain rfl := Option.some.inj (he₁.symm.trans he')
      obtain ⟨seg, pre, post, hs, hrecs, -⟩ := id hat
      exact ⟨r, hgrow _ r hat, hkey, (h.copies.legal _ seg hs r (by simp [hrecs])).2, hval⟩
    · have he := hsame.symm.trans he'
      obtain ⟨r, hat, hrest⟩ := hw.serves.live k e' he
      exact ⟨r, hkept e' r hat (hnot e' he), hrest⟩
  · rcases h.redirect_cases k with ⟨e₁, r, he₁, _⟩ | ⟨hsame, -⟩
    · cases he₁.symm.trans hk
    · exact hw.serves.dead k (hsame.symm.trans hk)
  · change d'.tmpData[id]? ≠ none ∨ d'.tmpHint[id]? ≠ none at hid
    rw [hp.tmpData, hp.tmpHint] at hid
    by_cases hmine : id ∈ run.mergedFiles
    · simp [hmine] at hid
    · rw [if_neg hmine, if_neg hmine] at hid
      obtain ⟨hlt, hnone⟩ := hw.tmp id hid
      have hout : out id = none := by rwa [h.copies.files, not_not] at hmine
      exact ⟨hlt, by simp [publishedSegs, hout, hnone]⟩

/-- What a call that publishes spares of another one. -/
theorem Flying.published_spared (h : Flying segs m w run out [])
    (hp : Published w.disk run out d') (readers : List Nat) {run' : MergeRun}
    {out' : Nat → Option Segment} {keys' : List Bytes} (h' : Flying segs m w run' out' keys')
    (hapart : ∀ id ∈ run'.mergedFiles, id ∉ run.mergedFiles) :
    Spared segs m w (publishedSegs segs run out) m
      ⟨d', { w.db with keydir := redirect run w.db.keydir, readers := readers }, []⟩ run' where
  tmp id hid := by
    change d'.tmpData[id]? = _ ∧ d'.tmpHint[id]? = _
    rw [hp.tmpData, hp.tmpHint, if_neg (hapart id hid), if_neg (hapart id hid)]
    exact ⟨rfl, rfl⟩
  next := Nat.le_refl _
  active hmem := (h'.old _ hmem).2.1 rfl
  fresh id hid := by
    change d'.tmpData[id]? = none
    rw [hp.tmpData, (h'.old id hid).2.2, ite_self]
  files id hid := by
    unfold publishedSegs
    rw [h.out_old h' hid]
    split
    · exact Or.inr rfl
    · exact Or.inl rfl
  entries k e he hold := by
    refine ⟨?_, rfl⟩
    rcases h.redirect_cases k with ⟨e₁, r, he₁, ⟨seg, _, _, hs, _⟩, _⟩ | ⟨hsame, -⟩
    · obtain rfl := Option.some.inj (he₁.symm.trans he)
      rw [h.out_old h' hold] at hs
      cases hs
    · exact hsame.symm.trans he

end Publish

section Step

theorem World.part_ok {α : Type} {op : Op α} {a : α} (next : α → Option Merging)
    (h : op w = .ok a w') : w.part op next = some (next a, w') := by
  rw [World.part, h]

theorem World.part_error {α : Type} {op : Op α} {err : Err} (next : α → Option Merging)
    (herr : err ≠ .fault) (h : op w = .error err w') : w.part op next = some (none, w') := by
  cases err with
  | fault => exact absurd rfl herr
  | _ => rw [World.part, h]

theorem World.part_fault {α : Type} {op : Op α} (next : α → Option Merging)
    (h : ∃ w', op w = .error .fault w') : w.part op next = none := by
  obtain ⟨w', h⟩ := h
  rw [World.part, h]

theorem Flying.same (h : Flying segs m w run out keys) : Spared segs m w segs m w run where
  tmp _ _ := ⟨rfl, rfl⟩
  next := Nat.le_refl _
  active hmem := (h.old _ hmem).2.1 rfl
  fresh id hid := (h.old id hid).2.2
  files _ _ := Or.inl rfl
  entries _ _ he _ := ⟨he, rfl⟩

variable {merges : Nat → Option Merging} {i : Nat}

/-- A call of `Merge` that ends because another one has removed a file. -/
theorem Flights.abandon (h : Flights segs m ⟨⟨d, db, []⟩, merges⟩) (hx : merges i = some x) :
    Flights segs m (Shared.goOn ⟨⟨d, db, []⟩, merges⟩ i
      (none, ⟨d.clean x.run.mergedFiles, db, []⟩)) := by
  have hclean := clean_getElem? (d := d) x.run.mergedFiles
  rw [clean_rest]
  refine h.goOn ?_ ?_ nofun
  · refine h.steady.temporary (Nat.le_refl _) h.steady.next_le fun id hid => h.steady.tmp id ?_
    rw [(hclean id).1, (hclean id).2] at hid
    split at hid
    · simp at hid
    · exact hid
  · intro j y _ _ hj hy hfy
    refine hfy.temporary_spared (Nat.le_refl _) (fun id hid => ?_) fun id hid => ?_
    · have hnot := h.apart j i y x hj hy hx id hid
      rw [(hclean id).1, (hclean id).2, if_neg hnot, if_neg hnot]
      exact ⟨rfl, rfl⟩
    · rw [(hclean id).1, (hfy.old id hid).2.2, ite_self]

/-- A call of `Merge` finds a file for the record in hand. -/
theorem Flights.place {run' : MergeRun} {f : MergeFile}
    (h : Flights segs m ⟨⟨d, db, []⟩, merges⟩)
    (hx : merges i = some (.found run key r keys))
    (hf : Flying segs m ⟨d, db, []⟩ run out (key :: keys)) (hr : InHand run ⟨d, db, []⟩ m key r)
    (ht : Target d db run run' f d' db') :
    Flights segs m (Shared.goOn ⟨⟨d, db, []⟩, merges⟩ i
      (some (.placed run' f key r keys), ⟨d', db', []⟩)) := by
  cases ht with
  | stay hcur =>
    refine h.goOn h.steady (fun j y _ _ _ _ hfy => hfy.same) fun y hy => ?_
    obtain rfl := Option.some.inj hy
    exact ⟨⟨out, hf, hr, hcur⟩, fun j y hj hy id hid => h.apart i j _ y (Ne.symm hj) hx hy id hid⟩
  | fresh hmax =>
    have hlt : ∀ {run out keys}, Flying segs m ⟨d, db, []⟩ run out keys → ∀ id ∈ run.mergedFiles,
        id ≠ db.nextFileID := fun hfy id hid =>
      Nat.ne_of_lt (h.steady.tmp id (Or.inl (hfy.temporary hid).1)).1
    refine h.goOn ?_ ?_ fun y hy => ?_
    · obtain ⟨rs, ha⟩ := h.steady.active
      refine h.steady.temporary (Nat.le_succ _) (Nat.lt_of_le_of_ne ha.next hmax) fun id hid => ?_
      by_cases hnew : id = db.nextFileID
      · subst hnew
        exact ⟨Nat.lt_succ_self _, ha.fresh⟩
      · rw [Maps.getElem?_insert_of_ne hnew, Maps.getElem?_insert_of_ne hnew] at hid
        have := h.steady.tmp id hid
        exact ⟨Nat.lt_succ_of_lt this.1, this.2⟩
    · intro j y _ _ hj hy hfy
      refine hfy.temporary_spared (Nat.le_succ _) (fun id hid => ?_) fun id hid => ?_
      · have hne := hlt hfy id hid
        exact ⟨Maps.getElem?_insert_of_ne hne, Maps.getElem?_insert_of_ne hne⟩
      · have hold := hfy.old id hid
        exact (Maps.getElem?_insert_of_ne (Nat.ne_of_lt hold.1)).trans hold.2.2
    · obtain rfl := Option.some.inj hy
      refine ⟨⟨_, hf.allocate h.steady, { hr with }, rfl⟩, fun j y hj hy id hid hidy => ?_⟩
      obtain ⟨_, hflies⟩ := h.flies j y hy
      obtain ⟨_, hfy⟩ := hflies.flying
      rcases List.mem_append.mp hid with hold | hlast
      · exact h.apart i j _ y (Ne.symm hj) hx hy id hold hidy
      · exact hlt hfy id hidy (List.mem_singleton.mp hlast)

/-- A call of `Merge` writes the copy of the record in hand. -/
theorem Flights.store {f : MergeFile} (h : Flights segs m ⟨⟨d, db, []⟩, merges⟩)
    (hx : merges i = some (.placed run f key r keys))
    (hf : Flying segs m ⟨d, db, []⟩ run out (key :: keys)) (hr : InHand run ⟨d, db, []⟩ m key r)
    (hout : out f.fileID = some { records := rs })
    (hsize : (bytesOf (rs ++ [r])).length ≤ maxFileSize) :
    Flights segs m (Shared.goOn ⟨⟨d, db, []⟩, merges⟩ i
      (some (.next (storedRun run f.fileID rs r) keys), ⟨storedDisk d f.fileID rs r, db, []⟩)) := by
  have hmine : f.fileID ∈ run.mergedFiles := (hf.copies.files _).mpr (by simp [hout])
  have htmp := hf.temporary hmine
  refine h.goOn ?_ ?_ fun y hy => ?_
  · refine h.steady.temporary (Nat.le_refl _) h.steady.next_le fun id hid => ?_
    by_cases hid' : id = f.fileID
    · subst hid'
      exact h.steady.tmp _ (Or.inl htmp.1)
    · rw [Maps.getElem?_insert_of_ne hid', Maps.getElem?_insert_of_ne hid'] at hid
      exact h.steady.tmp id hid
  · intro j y _ _ hj hy hfy
    refine hfy.temporary_spared (Nat.le_refl _) (fun id hid => ?_) fun id hid => ?_
    · have hne : id ≠ f.fileID := by
        rintro rfl
        exact h.apart j i y _ hj hy hx _ hid hmine
      exact ⟨Maps.getElem?_insert_of_ne hne, Maps.getElem?_insert_of_ne hne⟩
    · have hold := (hfy.old id hid).2.2
      have hne : id ≠ f.fileID := by
        rintro rfl
        exact htmp.1 hold
      exact (Maps.getElem?_insert_of_ne hne).trans hold
  · obtain rfl := Option.some.inj hy
    exact ⟨⟨_, hf.store hr hout hsize⟩, fun j y hj hy id hid =>
      h.apart i j _ y (Ne.symm hj) hx hy id hid⟩

end Step

end KvRaft.Store
