import KvRaft.Store.Sessions

/-! Hint files: when what recovery reads of them is what it would read of the data files. Only the
file with the highest ID may have a hint file that is out of date, since recovery does not read
that one. -/

namespace KvRaft.Store

open Std Replay

/-- All records, in the order in which recovery reads the data files. -/
def allUpdates (segs : Nat → Option Segment) (d : Disk) : List (Update Bytes KeyDirEntry) :=
  d.data.keys.flatMap fun id => updates id 0 (recordsAt segs id)

/-- A directory without torn files, where a hint file is up to date unless no other file has a
higher ID. -/
structure Plain (segs : Nat → Option Segment) (d : Disk) : Prop where
  holds : Holds segs d
  clean : ∀ id s, segs id = some s → s.tail = []
  hint : ∀ id bs, d.hint[id]? = some bs →
    bs = hintBytes (recordsAt segs id) ∨ ∀ high, segs high ≠ none → high ≤ id
  owned : ∀ id bs, d.hint[id]? = some bs → segs id ≠ none
  tmp : d.tmpData = ∅ ∧ d.tmpHint = ∅
  present : d.present = true

variable {segs segs' : Nat → Option Segment} {m : Bytes → Option Bytes} {d : Disk} {db : DB}
  {w w' : World} {opts : OpenOptions} {es : List Event}

theorem Holds.fits_recordsAt (h : Holds segs d) (id : Nat) : ∀ r ∈ recordsAt segs id, r.Fits := by
  intro r hr
  cases hs : segs id with
  | none => simp [recordsAt, hs] at hr
  | some s => exact (h.legal id s hs r (recordsAt_eq hs ▸ hr)).fits

namespace Plain

/-- The records for which the hint files of a plain directory stand. -/
theorem hinted (h : Plain segs d) {active : Nat} (hactive : segs active ≠ none)
    (htop : ∀ id, segs id ≠ none → id ≤ active) :
    Hinted (fun id => (d.hint[id]?).map fun _ => recordsAt segs id) active d := by
  constructor
  · intro id hne
    cases hb : d.hint[id]? with
    | none => rfl
    | some bs =>
      rcases h.hint id bs hb with rfl | hmax
      · rfl
      · exact absurd (Nat.le_antisymm (htop id (h.owned id bs hb)) (hmax active hactive)) hne
  · intro id rs hrs
    obtain ⟨bs, -, rfl⟩ := Option.map_eq_some_iff.mp hrs
    exact h.holds.fits_recordsAt id

theorem recovered_eq (active : Nat) :
    recovered segs (fun id => (d.hint[id]?).map fun _ => recordsAt segs id) active =
      fun id => updates id 0 (recordsAt segs id) := by
  funext id
  unfold recovered
  cases hb : d.hint[id]? <;> simp [hb]

/-- Opening a plain directory replays all records. -/
theorem opens (h : Plain segs d) (opts : OpenOptions)
    (hlock : opts.readWrite = true → d.locked = false) (db : DB) :
    ∃ w' segs', openWithOptions opts ⟨d, db, []⟩ = .ok () w' ∧ w'.outcomes = [] ∧
      w'.db.keydir = scan ∅ (allUpdates segs d) ∧ w'.db.closed = false ∧
      Holds segs' w'.disk ∧ Grows segs segs' := by
  have hread : ∀ active, segs active ≠ none → (∀ id, segs id ≠ none → id ≤ active) →
      ∀ id s, segs id = some s → Readable d opts.readWrite active id s := by
    intro active _ _ id s hs
    exact Or.inl (by rw [h.clean id s hs]; exact decode_nil)
  obtain ⟨segs', w', ho, hok⟩ := openWithOptions_opens db h.holds
    (fun _ hactive htop => ⟨_, h.hinted hactive htop⟩) h.tmp h.present hlock hread
  exact ⟨w', segs', hok, ho.reads h.holds fun active hactive htop =>
    ⟨_, h.hinted hactive htop, fun id _ => congrFun (recovered_eq active) id⟩⟩

end Plain

/-- The hint file of the active file is out of date only while no other file has a higher ID. -/
def Dated (segs : Nat → Option Segment) (w : World) : Prop :=
  (∀ id s, segs id = some s → s.tail = []) ∧
    ∀ id bs, w.disk.hint[id]? = some bs → bs = hintBytes (recordsAt segs id) ∨
      (∀ high, segs high ≠ none → high ≤ id) ∧
        (w.db.closed = false → id = w.db.activeFileID)

theorem Session.plain (h : Session segs m w) (hd : Dated segs w) : Plain segs w.disk where
  holds := h.holds
  clean := hd.1
  hint id bs hbs := (hd.2 id bs hbs).imp_right And.left
  owned id bs hbs := by
    obtain ⟨s, _, hs, _⟩ := h.covered id bs hbs
    simp [hs]
  tmp := h.tmp
  present := h.present

/-- The hint file that belongs to the bytes of a data file. -/
def hintFor (bs : Bytes) : Bytes := hintBytes ((records bs).1.map Prod.fst)

/-- The hint file of the active file, if there is one, is up to date. -/
def World.HintCurrent (w : World) : Prop :=
  ∀ bs ∈ w.disk.hint[w.db.activeFileID]?,
    bs = hintFor ((w.disk.data[w.db.activeFileID]?).getD [])

/-- A `Merge` has something to copy. -/
def World.Publishes (w : World) : Prop :=
  ∃ p ∈ w.db.keydir.toList, p.2.fileID ≠ w.db.activeFileID

/-- An append of `r` in place finds no hint file that recovery would read. -/
def World.Unhinted (w : World) (r : Record) : Prop :=
  w.db.closed = false → ¬ w.db.full (Int64.ofNat r.size) →
    w.top ∨ w.disk.hint[w.db.activeFileID]? = none

/-- No call lets a hint file that recovery reads fall behind its data file: none appends in place to
a file that has a hint file and is below another, and none puts a merged file above an active file
whose hint file is out of date. -/
def Hinting (w : World) (e : Event) : Prop :=
  e.Sized ∧ match e with
    | .put ts key value => value ≠ tombstoneValue → w.Unhinted ⟨ts, key, value⟩
    | .delete ts key => w.Unhinted ⟨ts, key, tombstoneValue⟩
    | .merge => w.db.closed = false → w.Publishes → w.HintCurrent
    | .crash _ _ => False
    | _ => True

instance (w : World) : Decidable w.HintCurrent :=
  match h : w.disk.hint[w.db.activeFileID]? with
  | none => isTrue (by intro bs hbs; rw [h] at hbs; exact nomatch hbs)
  | some bs => decidable_of_iff (bs = hintFor ((w.disk.data[w.db.activeFileID]?).getD []))
    (by simp [World.HintCurrent, h])

instance (w : World) : Decidable w.Publishes :=
  inferInstanceAs (Decidable (∃ p ∈ w.db.keydir.toList, p.2.fileID ≠ w.db.activeFileID))

instance (w : World) (r : Record) : Decidable (w.Unhinted r) :=
  inferInstanceAs (Decidable (_ → ¬ w.db.full (Int64.ofNat r.size) → _ ∨ _))

instance (w : World) : (e : Event) → Decidable (Hinting w e)
  | .put ts key value => inferInstanceAs (Decidable (Event.Sized (.put ts key value) ∧
      (value ≠ tombstoneValue → w.Unhinted ⟨ts, key, value⟩)))
  | .delete ts key => inferInstanceAs (Decidable (Event.Sized (.delete ts key) ∧
      w.Unhinted ⟨ts, key, tombstoneValue⟩))
  | .merge => inferInstanceAs (Decidable (Event.Sized .merge ∧
      (w.db.closed = false → w.Publishes → w.HintCurrent)))
  | .crash rec cut => inferInstanceAs (Decidable (Event.Sized (.crash rec cut) ∧ False))
  | .open opts => inferInstanceAs (Decidable (Event.Sized (.open opts) ∧ True))
  | .close => inferInstanceAs (Decidable (Event.Sized .close ∧ True))

theorem Hinting.unhinted {e : Event} (hg : Hinting w e) {r : Record} (he : e.writes = some r) :
    w.Unhinted r := by
  cases e with
  | put ts key value =>
    simp only [Event.writes] at he
    split at he
    · cases he
    · next hv =>
      obtain rfl := Option.some.inj he
      exact hg.2 hv
  | delete ts key =>
    obtain rfl := Option.some.inj he
    exact hg.2
  | «open» | merge | close | crash => cases he

theorem Hinting.no_crash {rec : Record} {cut : Nat} (hg : Hinting w (.crash rec cut)) : False :=
  hg.2

theorem recordsAt_update_of_ne {i id : Nat} {s : Option Segment} (h : i ≠ id) :
    recordsAt (Function.update segs id s) i = recordsAt segs i := by
  rw [recordsAt, Function.update_of_ne h, recordsAt]

theorem recordsAt_update_self {id : Nat} {s : Segment} :
    recordsAt (Function.update segs id (some s)) id = s.records := by
  simp [recordsAt]

theorem World.HintCurrent.eq {rs : List Record} (hc : w.HintCurrent) (h : Holds segs w.disk)
    (ha : Active segs w.db rs) {bs : Bytes} (hbs : w.disk.hint[w.db.activeFileID]? = some bs) :
    bs = hintBytes (recordsAt segs w.db.activeFileID) := by
  have hrecs := records_flatMap (ha.fits h)
  rw [hc bs hbs, ha.data h, Option.getD_some, hintFor, recordsAt_eq ha.file]
  change hintBytes ((records (rs.flatMap Record.encode)).1.map Prod.fst) = _
  rw [hrecs]
  simp [Function.comp_def]

namespace Dated

variable {rs : List Record} {r : Record}

/-- A rotation leaves an active file without a hint file above all others. -/
theorem room {d' : Disk} {db' : DB} {rs' : List Record} {len : Int64}
    (h : Session segs m ⟨d, db, []⟩) (ha : Active segs db rs) (hd : Dated segs ⟨d, db, []⟩)
    (hroom : Room segs d db rs len segs' d' db' rs')
    (hin : ¬ db.full len → World.top ⟨d, db, []⟩ ∨ d.hint[db.activeFileID]? = none) :
    Dated segs' ⟨d', db', []⟩ ∧
      ((∀ high, segs' high ≠ none → high ≤ db'.activeFileID) ∨
        d'.hint[db'.activeFileID]? = none) := by
  have ha' := hroom.active ha
  cases hroom with
  | stay hnot => exact ⟨hd, (hin hnot).imp_left h.holds.top.mp⟩
  | rotate hfull =>
    refine ⟨⟨forall_update (fun id s _ => hd.1 id s) rfl, fun id bs hbs => ?_⟩,
      Or.inl fun high hhigh => Nat.le_of_lt_succ (ha'.below high hhigh)⟩
    simp only [rotatedDisk] at hbs
    by_cases hid : id = db.activeFileID
    · subst hid
      rw [ExtTreeMap.getElem?_insert_self, Option.some.injEq] at hbs
      rw [recordsAt_update_of_ne (Nat.ne_of_lt ha.active_lt), recordsAt_eq ha.file]
      exact Or.inl hbs.symm
    · rw [Maps.getElem?_insert_of_ne hid] at hbs
      rcases hd.2 id bs hbs with hexact | ⟨-, hact⟩
      · refine Or.inl (hexact.trans ?_)
        have hne : id ≠ db.nextFileID := by
          rintro rfl
          obtain ⟨s, _, hs, _⟩ := h.covered _ bs hbs
          rw [ha.fresh] at hs
          cases hs
        rw [recordsAt_update_of_ne hne]
      · exact absurd (hact ha.opened) hid

theorem appended (h : Session segs m w) (ha : Active segs w.db rs) (hd : Dated segs w)
    (happ : Appended segs w.disk w.db rs r segs' w')
    (hin : ¬ w.db.full (Int64.ofNat r.size) →
      w.top ∨ w.disk.hint[w.db.activeFileID]? = none) : Dated segs' w' := by
  obtain ⟨d, db, os⟩ := w
  obtain rfl : os = [] := h.calm
  cases happ with
  | @intro segs₁ d₁ db₁ rs₁ hroom hsize =>
    have ha₁ := hroom.active ha
    obtain ⟨hd₁, hplace⟩ := room h ha hd hroom hin
    refine ⟨forall_update (fun id s _ => hd₁.1 id s) rfl, fun id bs hbs => ?_⟩
    have hbs' : d₁.hint[id]? = some bs := hbs
    have hfiles : ∀ high, Function.update segs₁ db₁.activeFileID
        (some { records := rs₁ ++ [r] }) high ≠ none → segs₁ high ≠ none := by
      intro high hne
      by_cases hA : high = db₁.activeFileID
      · simp [hA, ha₁.file]
      · rwa [Function.update_of_ne hA] at hne
    by_cases hid : id = db₁.activeFileID
    · subst hid
      rcases hplace with htop | hnone
      · exact Or.inr ⟨fun high hhigh => htop high (hfiles high hhigh), fun _ => rfl⟩
      · rw [hnone] at hbs'
        cases hbs'
    · rcases hd₁.2 id bs hbs' with hexact | ⟨hmax, hact⟩
      · rw [recordsAt_update_of_ne hid]
        exact Or.inl hexact
      · exact absurd (hact ha₁.opened) hid

theorem merged (h : Session segs m w) (ha : Active segs w.db rs)
    {out : Nat → Option Segment} {d' : Disk} {db' : DB} (hm : Merged segs w.disk w.db out d' db')
    (hin : w.Publishes → w.HintCurrent) :
    Dated (mergedSegs segs out w.db.activeFileID) ⟨d', db', []⟩ := by
  refine ⟨fun id s hs => ?_, fun id bs hbs => ?_⟩
  · rcases Merged.segs_cases ha hs with ho | ⟨-, rfl⟩
    · exact hm.clean id s ho
    · rfl
  · have hbs := (hm.hint id).symm.trans hbs
    rcases Option.or_eq_some_iff.mp hbs with ho | ⟨-, hold⟩
    · obtain ⟨s, hs, rfl⟩ := Option.map_eq_some_iff.mp ho
      have hs' : mergedSegs segs out w.db.activeFileID id = some s := by simp [mergedSegs, hs]
      rw [recordsAt_eq hs']
      exact Or.inl rfl
    · split at hold
      · cases hold
      · next hkeep =>
        have hid : id = w.db.activeFileID := by
          obtain ⟨s, _, hs, _⟩ := h.covered id bs hold
          by_contra hne
          exact hkeep ⟨by simp [hs], hne⟩
        subst hid
        have hrecs : recordsAt (mergedSegs segs out w.db.activeFileID) w.db.activeFileID =
            recordsAt segs w.db.activeFileID := by
          rw [recordsAt_eq (hm.segs_active ha), recordsAt_eq ha.file]
        rw [hrecs]
        by_cases hpub : ∃ i, out i ≠ none
        · obtain ⟨i, hi⟩ := hpub
          obtain ⟨k, e, he, hne⟩ := hm.published i hi
          refine Or.inl ((hin ⟨(k, e), ?_, hne⟩).eq h.holds ha hold)
          exact ExtTreeMap.mem_toList_iff_getElem?_eq_some.mpr he
        · refine Or.inr ⟨fun high hhigh => ?_, fun _ => by rw [hm.sameDB]⟩
          obtain ⟨s, hs⟩ := Option.ne_none_iff_exists'.mp hhigh
          rcases Merged.segs_cases ha hs with ho | ⟨rfl, -⟩
          · exact absurd ⟨high, by simp [ho]⟩ hpub
          · exact Nat.le_refl _

theorem shut (hd : Dated segs w) : Dated segs w.shut :=
  ⟨hd.1, fun id bs hbs => (hd.2 id bs hbs).imp_right fun h => ⟨h.1, nofun⟩⟩

theorem opened (h : Session segs m w) (hd : Dated segs w) (hrw : opts.readWrite = true)
    (ho : Opens opts segs w.disk segs' w') : Dated segs' w' := by
  cases ho with
  | empty hnone =>
    rw [hrw, if_pos rfl, if_pos rfl]
    refine ⟨forall_update (fun id s _ => hd.1 id s) rfl, fun id bs hbs => ?_⟩
    obtain ⟨s, _, hs, _⟩ := h.covered id bs hbs
    rw [hnone id] at hs
    cases hs
  | @scanned active s keydir hs htop hkey =>
    have hdisk : (openedDisk opts w.disk active s).hint = w.disk.hint := by
      rw [openedDisk, if_pos hrw]
    have htrim := h.trim_eq htop hs
    rw [if_pos hrw, htrim]
    refine ⟨forall_update (fun id s _ => hd.1 id s) rfl, fun id bs hbs => ?_⟩
    rw [hdisk] at hbs
    by_cases hid : id = active
    · subst hid
      refine Or.inr ⟨fun high hhigh => ?_, fun _ => rfl⟩
      by_cases hA : high = id
      · exact Nat.le_of_eq hA
      · rw [Function.update_of_ne hA] at hhigh
        exact htop high hhigh
    · rcases hd.2 id bs hbs with hexact | ⟨hmax, -⟩
      · rw [recordsAt_update_of_ne hid]
        exact Or.inl hexact
      · obtain ⟨s', _, hs', _⟩ := h.covered id bs hbs
        exact absurd (Nat.le_antisymm (htop id (by simp [hs'])) (hmax active (by simp [hs]))) hid

theorem step (h : Session segs m w) (hd : Dated segs w) {e : Event} (hg : Hinting w e)
    {m' : Bytes → Option Bytes} (he : Effect segs m w e segs' m' w') : Dated segs' w' := by
  cases he with
  | refused _ => exact hd
  | wrote hw ha happ => exact hd.appended h ha happ (hg.unhinted hw ha.opened)
  | merged ha hm => exact merged h ha hm (hg.2 ha.opened)
  | closed ha => exact hd.shut
  | opened hclosed ho => exact hd.opened h rfl ho
  | crashed ha hroom => exact hg.no_crash.elim

end Dated

/-- What the runs keep whose calls keep the hint files up to date. -/
theorem dated_of_hinting (h : store.Along Hinting World.empty es)
    (hrun : store.exec World.empty es = some w) : ∃ segs m, Session segs m w ∧ Dated segs w := by
  have hstep : ∀ w e w', (∃ segs m, Session segs m w ∧ Dated segs w) → Hinting w e →
      store.step w e = some w' → ∃ segs m, Session segs m w' ∧ Dated segs w' := by
    rintro w e w' ⟨segs, m, hs, hd⟩ hg hstep
    obtain ⟨segs', m', he, hs'⟩ := hs.step hg.1
      (by rintro rec cut rfl; exact hg.no_crash.elim) hstep
    exact ⟨segs', m', hs', hd.step hs hg he⟩
  refine h.invariant (I := fun w => ∃ segs m, Session segs m w ∧ Dated segs w) hstep hrun
    ⟨_, _, World.empty_session, nofun, fun id bs hbs => ?_⟩
  simp [World.empty] at hbs

/-- The directory without some of its hint files. -/
def Disk.dropHints (d : Disk) (ids : List Nat) : Disk :=
  { d with hint := d.hint.filter fun id _ => decide (id ∉ ids) }

theorem Plain.dropHints (h : Plain segs d) (ids : List Nat) : Plain segs (d.dropHints ids) := by
  have hold : ∀ (id : Nat) bs, (d.dropHints ids).hint[id]? = some bs → d.hint[id]? = some bs := by
    intro id bs hbs
    rw [Disk.dropHints, ExtTreeMap.getElem?_filter'] at hbs
    exact (Option.filter_eq_some_iff.mp hbs).1
  exact { holds := h.holds.frame rfl rfl, clean := h.clean
          hint := fun id bs hbs => h.hint id bs (hold id bs hbs)
          owned := fun id bs hbs => h.owned id bs (hold id bs hbs)
          tmp := h.tmp, present := h.present }

/-- Whatever hint files are deleted, `OpenReadOnly` builds the same keydir. -/
theorem openReadOnly_dropHints (h : store.Along Hinting World.empty es)
    (hrun : store.exec World.empty es = some w) (ids : List Nat) (db : DB) :
    ∃ w₁ w₂, openReadOnly ⟨w.disk, db, []⟩ = .ok () w₁ ∧
      openReadOnly ⟨w.disk.dropHints ids, db, []⟩ = .ok () w₂ ∧
      w₁.db.keydir = w₂.db.keydir := by
  obtain ⟨segs, m, hs, hd⟩ := dated_of_hinting h hrun
  have hplain := hs.plain hd
  obtain ⟨w₁, _, hok₁, _, hkey₁, _⟩ := hplain.opens ⟨false, false, 0⟩ nofun db
  obtain ⟨w₂, _, hok₂, _, hkey₂, _⟩ := (hplain.dropHints ids).opens ⟨false, false, 0⟩ nofun db
  exact ⟨w₁, w₂, hok₁, hok₂, hkey₁.trans hkey₂.symm⟩

/-- A merge, and a second session that appends to the merged file. -/
def mergedAgain : List Event :=
  [.open ⟨true, false, 25⟩, .put 1 [1] [7], .put 2 [2] [8], .merge, .delete 3 [3], .close,
    .open ⟨true, false, 1000⟩, .put 4 [3] [9]]

theorem openReadOnly_mergedAgain : ∃ w, store.exec World.empty mergedAgain = some w ∧
    ∃ w₁ w₂, openReadOnly ⟨w.disk, w.db, []⟩ = .ok () w₁ ∧
      openReadOnly ⟨w.disk.dropHints [2, 3], w.db, []⟩ = .ok () w₂ ∧
      w₁.db.keydir = w₂.db.keydir := by
  have h : store.Along Hinting World.empty mergedAgain := by decide +kernel
  have hrun : (store.exec World.empty mergedAgain).isSome := by decide +kernel
  obtain ⟨w, hw⟩ := Option.isSome_iff_exists.mp hrun
  exact ⟨w, hw, openReadOnly_dropHints h hw [2, 3] w.db⟩

/-- The merged file 3 has a hint file when the second session makes it the active file; the second
merge puts file 4 above it, and recovery reads the hint file without the last record. -/
def staleHint : List Event :=
  [.open ⟨true, false, 25⟩, .put 1 [1] [7], .put 2 [2] [8], .merge, .close,
    .open ⟨true, false, 1000⟩, .put 3 [3] [9], .merge]

theorem not_openReadOnly_staleHint : ¬ ∀ es w ids db, (∀ e ∈ es, e.Sized ∧ ¬ e.isCrash) →
    store.exec World.empty es = some w → ∃ w₁ w₂, openReadOnly ⟨w.disk, db, []⟩ = .ok () w₁ ∧
      openReadOnly ⟨w.disk.dropHints ids, db, []⟩ = .ok () w₂ ∧
      w₁.db.keydir = w₂.db.keydir := by
  intro h
  have hcalls : ∀ e ∈ staleHint, e.Sized ∧ ¬ e.isCrash := by decide
  have hrun : (store.exec World.empty staleHint).any fun w =>
      match openReadOnly ⟨w.disk, w.db, []⟩, openReadOnly ⟨w.disk.dropHints [3], w.db, []⟩ with
      | .ok _ w₁, .ok _ w₂ => w₁.db.keydir.keys ≠ w₂.db.keydir.keys
      | _, _ => false := by decide +kernel
  obtain ⟨w, hw, hdiffer⟩ := Option.any_eq_true _ _ |>.mp hrun
  obtain ⟨w₁, w₂, h₁, h₂, hsame⟩ := h staleHint w [3] w.db hcalls hw
  rw [h₁, h₂] at hdiffer
  simp [hsame] at hdiffer

end KvRaft.Store
