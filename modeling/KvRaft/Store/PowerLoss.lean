import KvRaft.Store.Durable
import KvRaft.Store.Faults

/-! Power losses. What the store writes reaches the device when a file is synced, or earlier; what
has not reached it is lost with the power. `rotateActiveFileLocked` and `Close` sync the active file
before they close it, so only the active file can lose its end. The directory itself is taken to
keep up with its files, and the power is not lost inside a rotation. Calls that are refused change
nothing and are left out, and so are merges, which the server does not make. -/

namespace KvRaft.Store

open Std Replay

/-! ### The device -/

/-- The power is lost when the first `keep` bytes of the active file have reached the device. -/
def World.lose (w : World) (keep : Nat) : World :=
  World.die { w with
    disk := { w.disk with data := w.disk.data.modify w.db.activeFileID (·.take keep) } }

inductive DeviceStep
  /-- `OpenWithOptions`, `Close`, or a `Put` or `Delete` up to the `Sync` that `SyncOnPut` asks
  for -/
  | call (e : Event)
  /-- that `Sync`, after which the call returns -/
  | flush
  /-- a call of `Sync` -/
  | sync

/-- The store does not refuse the call. -/
def Event.accepted (w : World) (e : Event) : Bool :=
  match e with
  | .open _ => w.db.closed
  | .close => !w.db.closed
  | .put _ _ _ | .delete _ _ => !w.db.closed && e.writes.isSome
  | .merge | .crash _ _ => false

theorem Event.simple_of_accepted {w : World} {e : Event} (h : e.accepted w = true) :
    e.Simple := by
  cases e with
  | «open» | put | delete | close => exact ⟨rfl, rfl⟩
  | merge | crash => cases h

theorem Event.open_of_accepted {w : World} {e : Event} {r : Record} (h : e.accepted w = true)
    (hw : e.writes = some r) : w.db.closed = false := by
  cases e with
  | put | delete =>
    simp only [accepted, Bool.and_eq_true, Bool.not_eq_true'] at h
    exact h.1
  | «open» | merge | close | crash => cases hw

/-- The store with its device. `synced` is how much of the active file is known to be on the device,
`calls` lists the calls so far, of which those before number `safe` have left nothing unsynced, and
the last one has not returned if it is `pending`. -/
structure Device where
  world : World
  synced : Nat
  calls : List Event
  safe : Nat
  pending : Bool

namespace Device

/-- The active file is synced. -/
def flushed (dv : Device) : Device :=
  { dv with synced := dv.world.activeSize, safe := dv.calls.length, pending := false }

/-- A record has been written: to the file that was active, or to a new one after that file has been
synced. -/
def wrote (dv : Device) (e : Event) (w : World) : Device :=
  let rotated := w.db.activeFileID ≠ dv.world.db.activeFileID
  { world := w
    synced := if rotated then 0 else dv.synced
    calls := dv.calls ++ [e]
    safe := if rotated then dv.calls.length else dv.safe
    pending := w.db.opts.syncOnPut }

def step (dv : Device) : DeviceStep → Option Device
  | .call e =>
    if dv.pending ∨ e.accepted dv.world = false then none
    else
      (dv.world.step e).map fun w =>
        if e.writes.isSome then dv.wrote e w
        -- `Close` syncs, and `OpenWithOptions` finds what an earlier `Close` has synced
        else { dv with world := w, calls := dv.calls ++ [e] }.flushed
  | .flush => if dv.pending then some dv.flushed else none
  | .sync =>
    if dv.pending ∨ dv.world.db.closed then none
    else (dv.world.after Store.sync).map fun w => { dv with world := w }.flushed

/-- An empty directory that nobody has opened. -/
def fresh : Device := ⟨World.empty, 0, [], 0, false⟩

/-- The calls that have returned. -/
def returned (dv : Device) : Nat := if dv.pending then dv.calls.length - 1 else dv.calls.length

end Device

def device : Machine Device DeviceStep where
  initial dv := dv = .fresh
  step := Device.step

/-! ### Recovery -/

variable {segs segs' : Nat → Option Segment} {m : Bytes → Option Bytes} {w w' : World} {d d' : Disk}
  {db : DB} {s : Served} {now : Int64} {rs : List Record} {r : Record} {keydir : KeyDir}

/-- Opening the directory for writing serves the map. -/
def Recovers (m : Bytes → Option Bytes) (d : Disk) : Prop :=
  ∀ (opts : OpenOptions) (db : DB), ∃ w',
    openWithOptions { opts with readWrite := true } ⟨d, db, []⟩ = .ok () w' ∧
      ∀ key, w'.lookup key = answer (m key)

/-- The process is gone, and with it its lock. -/
theorem Plain.unlocked (h : Plain segs d) : Plain segs { d with locked := false } :=
  ⟨⟨h.holds.data, h.holds.legal, h.holds.size, h.holds.other⟩, h.clean, h.hint, h.owned, h.tmp,
    h.present⟩

theorem Tracks.recovers (h : Tracks s w now segs) :
    Recovers s.map { w.disk with locked := false } := by
  intro opts db
  obtain ⟨hs, hd, ho, -, -⟩ := h
  have hplain := (hs.plain hd).unlocked
  obtain ⟨w', segs', hok, hcalm, hkey, hopen, hholds, hgrows⟩ :=
    hplain.opens { opts with readWrite := true } (fun _ => rfl) db
  rw [ho.settled.scan_eq hplain.holds hs.serves] at hkey
  refine ⟨w', hok, lookup_eq hcalm hholds hopen ?_⟩
  rw [hkey]
  exact hs.serves.grow hgrows

/-- A torn end is no record. -/
theorem at_tail {id : Nat} {tail : Bytes} (hs : segs id = some { records := rs })
    (e : KeyDirEntry) (r : Record) :
    At (Function.update segs id (some ⟨rs, tail⟩)) e r ↔ At segs e r := by
  refine ⟨?_, fun h => h.grow (Grows.tail hs)⟩
  rintro ⟨s, pre, post, hseg, hrecs, he⟩
  by_cases hid : e.fileID = id
  · rw [hid, Function.update_self, Option.some.injEq] at hseg
    exact ⟨{ records := rs }, pre, post, hid ▸ hs, by rw [← hrecs, ← hseg], he⟩
  · rw [Function.update_of_ne hid] at hseg
    exact ⟨s, pre, post, hseg, hrecs, he⟩

theorem Room.at_iff {len : Int64} {db' : DB} {rs' : List Record} (ha : Active segs db rs)
    (hroom : Room segs d db rs len segs' d' db' rs') (e : KeyDirEntry) (r : Record) :
    At segs' e r ↔ At segs e r := by
  cases hroom with
  | stay => exact Iff.rfl
  | rotate => exact Ordered.at_empty ha.fresh e r

/-- What is left of the files when the last record is cut. -/
theorem lose_appended {d₁ : Disk} {db₁ db' : DB} {rs₁ : List Record} {keep : Nat}
    (hid : db'.activeFileID = db₁.activeFileID) (hlow : (bytesOf rs₁).length ≤ keep) :
    (World.lose ⟨appendedDisk d₁ db₁.activeFileID rs₁ r, db', []⟩ keep).disk =
      { d₁ with
        locked := false
        data := d₁.data.insert db₁.activeFileID
          (bytesOf rs₁ ++ r.encode.take (keep - (bytesOf rs₁).length)) } := by
  have hdata : (appendedDisk d₁ db₁.activeFileID rs₁ r).data[db₁.activeFileID]? =
      some (bytesOf rs₁ ++ r.encode) := by
    simp [appendedDisk]
  simp only [World.lose, World.die, hid, Maps.modify_eq_insert hdata]
  simp only [appendedDisk, Maps.insert_insert, List.take_append,
    List.take_of_length_le hlow]

/-- The directory with the record `r`, cut after `c` bytes of it, has the map from before. -/
theorem Room.recovers_cut {len : Int64} {segs₁ : Nat → Option Segment} {d₁ : Disk} {db₁ : DB}
    {rs₁ : List Record} {c : Nat} (h : Tracks s w now segs) (ha : Active segs w.db rs)
    (hroom : Room segs w.disk w.db rs len segs₁ d₁ db₁ rs₁)
    (hplain : Plain (Function.update segs₁ db₁.activeFileID (some { records := rs₁ ++ [r] }))
      (appendedDisk d₁ db₁.activeFileID rs₁ r))
    (htop : ∀ id, segs₁ id ≠ none → id ≤ db₁.activeFileID) (hfits : r.Fits)
    (hsize : (bytesOf (rs₁ ++ [r])).length ≤ maxFileSize) (hc : c < r.size) :
    Recovers s.map { d₁ with
      locked := false
      data := d₁.data.insert db₁.activeFileID (bytesOf rs₁ ++ r.encode.take c) } := by
  have hfile := (hroom.active ha).file
  generalize db₁.activeFileID = active at *
  generalize hcut : Function.update segs₁ active (some ⟨rs₁, r.encode.take c⟩) = cut
  generalize hd : ({ d₁ with
    locked := false
    data := d₁.data.insert active (bytesOf rs₁ ++ r.encode.take c) } : Disk) = d
  have hother : ∀ id, id ≠ active → recordsAt cut id =
      recordsAt (Function.update segs₁ active (some { records := rs₁ ++ [r] })) id := by
    intro id hid
    rw [← hcut, recordsAt_update_of_ne hid, recordsAt_update_of_ne hid]
  have hholds : Holds cut d := by
    have hlen : (bytesOf rs₁ ++ r.encode.take c).length ≤ maxFileSize := by
      rw [bytesOf_append, List.length_append] at hsize
      rw [List.length_append, List.length_take]
      simp only [bytesOf_cons, bytesOf_nil, List.append_nil] at hsize
      omega
    subst hcut hd
    exact (hroom.holds h.session.holds).tail hfile hlen rfl rfl
  -- the active file is the only one with the highest ID, before the cut and after it
  have hhigh : ∀ active', cut active' ≠ none → (∀ id, cut id ≠ none → id ≤ active') →
      active' = active := by
    intro active' hne hmax
    have hle : active ≤ active' := hmax active (by simp [← hcut])
    by_contra hneq
    rw [← hcut, Function.update_of_ne hneq] at hne
    exact hneq (Nat.le_antisymm (htop active' hne) hle)
  have hhinted : Hinted (fun id => (d.hint[id]?).map fun _ => recordsAt cut id) active d := by
    have hall : ∀ id, Function.update segs₁ active (some { records := rs₁ ++ [r] }) id ≠ none →
        id ≤ active := by
      intro id hne
      by_cases hid : id = active
      · exact hid.le
      · rw [Function.update_of_ne hid] at hne
        exact htop id hne
    refine ⟨fun id hne => ?_, fun id rs hrs => ?_⟩
    · have hhint := (hplain.hinted (by simp) hall).hint id hne
      rw [← hother id hne] at hhint
      subst hd
      exact hhint
    · obtain ⟨bs, -, rfl⟩ := Option.map_eq_some_iff.mp hrs
      exact hholds.fits_recordsAt id
  have hread : ∀ active', cut active' ≠ none → (∀ id, cut id ≠ none → id ≤ active') →
      ∀ id s, cut id = some s → Readable d true active' id s := by
    intro active' hne hmax id s hs
    rw [hhigh active' hne hmax]
    by_cases hid : id = active
    · rw [← hcut, hid, Function.update_self, Option.some.injEq] at hs
      have hdecode := Record.decode_take hfits hc
      rw [← hs, hid]
      split at hdecode
      · exact Or.inl hdecode
      · exact Or.inr (Or.inl ⟨rfl, rfl, hdecode⟩)
    · rw [← hcut, Function.update_of_ne hid] at hs
      have hclean := hplain.clean id s (by rw [Function.update_of_ne hid, hs])
      exact Or.inl (by rw [hclean]; exact decode_nil)
  have hhints : ∀ active', cut active' ≠ none → (∀ id, cut id ≠ none → id ≤ active') →
      Hinted (fun id => (d.hint[id]?).map fun _ => recordsAt cut id) active' d :=
    fun active' hne hmax => hhigh active' hne hmax ▸ hhinted
  have hdir : (d.tmpData = ∅ ∧ d.tmpHint = ∅) ∧ d.present = true ∧ d.locked = false := by
    subst hd
    exact ⟨hplain.tmp, hplain.present, rfl⟩
  have hgrow : Grows segs cut := by
    rw [← hcut]
    exact (hroom.grows ha).trans (Grows.tail hfile)
  have hsettled : Ordered cut { w with db := { w.db with closed := true } } now := by
    refine h.ordered.frame (fun e r' => ?_) rfl fun hopen => by cases hopen
    rw [← hcut]
    exact (at_tail hfile e r').trans (hroom.at_iff ha e r')
  intro opts db
  have hlock : ({ opts with readWrite := true } : OpenOptions).readWrite = true →
      d.locked = false := fun _ => hdir.2.2
  obtain ⟨segs₂, w₂, ho, hok⟩ := openWithOptions_opens db hholds
    (fun active' hne hmax => ⟨_, hhints active' hne hmax⟩) hdir.1 hdir.2.1 hlock hread
  obtain ⟨hcalm, hkey, hopen, hholds₂, hgrows⟩ := ho.reads hholds fun active' hne hmax =>
    ⟨_, hhints active' hne hmax, fun id _ => congrFun (Plain.recovered_eq active') id⟩
  have hscan := hsettled.settled.scan_eq hholds (h.session.serves.grow hgrow)
  refine ⟨w₂, hok, lookup_eq hcalm hholds₂ hopen ?_⟩
  rw [hkey.trans hscan]
  exact h.session.serves.grow (hgrow.trans hgrows)

/-- The last record of the active file is cut. -/
theorem Appended.recovers_cut {keep : Nat} (h : Tracks s w now segs) (ha : Active segs w.db rs)
    (happ : Appended segs w.disk w.db rs r segs' w') (hs' : Session segs' m w')
    (hd' : Dated segs' w') (htop : w'.top) (hfits : r.Fits)
    (hlow : w'.activeSize ≤ keep + r.size) (hlt : keep < w'.activeSize) :
    Recovers s.map (w'.lose keep).disk := by
  have hplain := hs'.plain hd'
  rw [hs'.holds.top] at htop
  cases happ with
  | @intro segs₁ d₁ db₁ rs₁ hroom _ hsize =>
    have hlen : (bytesOf (rs₁ ++ [r])).length = (bytesOf rs₁).length + r.size := by
      simp [Record.length_encode]
    simp only [World.activeSize, World.activeBytes, World.dataOf, appendedDisk, appendedDB,
      ExtTreeMap.getElem?_insert_self, Option.getD_some, hlen] at hlow hlt
    rw [lose_appended (by rfl) (by omega)]
    refine hroom.recovers_cut h ha hplain (fun id hne => htop id ?_) hfits hsize (by omega)
    by_cases hid : id = db₁.activeFileID
    · simp [hid]
    · rwa [Function.update_of_ne hid]

/-! ### Runs -/

variable {dv dv' : Device} {e : Event} {keep : Nat}

theorem World.lose_whole (h : w.activeSize ≤ keep) :
    (w.lose keep).disk = { w.disk with locked := false } := by
  cases hdata : w.disk.data[w.db.activeFileID]? with
  | none =>
    have hsame : w.disk.data.modify w.db.activeFileID (·.take keep) = w.disk.data := by
      refine ExtTreeMap.ext_getElem? fun id => ?_
      rw [ExtTreeMap.getElem?_modify]
      split
      · next hc => rw [← LawfulEqOrd.eq_of_compare hc, hdata]; rfl
      · rfl
    simp only [World.lose, World.die, hsame]
  | some bs =>
    have hlen : bs.length ≤ keep := by
      simpa [World.activeSize, World.activeBytes, World.dataOf, hdata] using h
    simp only [World.lose, World.die, Maps.modify_eq_insert hdata, List.take_of_length_le hlen,
      Maps.insert_same hdata]

/-- Where an append has put its record. -/
theorem Appended.placed (h : Holds segs w.disk) (ha : Active segs w.db rs)
    (happ : Appended segs w.disk w.db rs r segs' w') :
    w'.db.opts = w.db.opts ∧
    (w'.db.activeFileID = w.db.activeFileID ∧ w'.activeSize = w.activeSize + r.size ∧
        (∀ keep < w.activeSize, (w'.lose keep).disk = (w.lose keep).disk) ∨
      w'.db.activeFileID ≠ w.db.activeFileID ∧ w'.activeSize = r.size) := by
  have hdata := ha.data h
  cases happ with
  | @intro segs₁ d₁ db₁ rs₁ hroom _ hsize =>
    cases hroom with
    | stay =>
      refine ⟨rfl, Or.inl ⟨rfl, ?_, fun keep hkeep => ?_⟩⟩
      · simp [World.activeSize, World.activeBytes, World.dataOf, appendedDisk, appendedDB, hdata,
          Record.length_encode]
      · have hlt : keep ≤ (bytesOf rs).length := by
          simp only [World.activeSize, World.activeBytes, World.dataOf, hdata,
            Option.getD_some] at hkeep
          omega
        have hnew : (w.disk.data.insert w.db.activeFileID
            (bytesOf rs ++ bytesOf [r]))[w.db.activeFileID]? =
              some (bytesOf rs ++ bytesOf [r]) := by simp
        simp only [World.lose, World.die, appendedDisk, appendedDB, bytesOf_append,
          Maps.modify_eq_insert hnew, Maps.modify_eq_insert hdata, Maps.insert_insert,
          List.take_append_of_le_length hlt]
    | rotate =>
      refine ⟨rfl, Or.inr ⟨?_, ?_⟩⟩
      · exact ha.active_lt.ne'
      · simp [World.activeSize, World.activeBytes, World.dataOf, appendedDisk, appendedDB,
          rotatedDB, Record.length_encode]

theorem after_sync (hcalm : w.outcomes = []) (h : w.after Store.sync = some w') : w' = w := by
  obtain ⟨d, db, os⟩ := w
  obtain rfl : os = [] := hcalm
  cases hc : db.closed <;> cases hrw : db.opts.readWrite <;> cases hf : db.activeFile <;>
    simp [World.after, Store.sync, ensureOpen, mustReadWrite, onActive, bind_apply, hc, hrw,
      hf] at h <;>
    exact h.symm

/-- What holds of the store and of what a loss of power would leave of it. -/
structure Flushed (dv : Device) : Prop where
  ran : store.exec World.empty dv.calls = some dv.world
  simple : ∀ e ∈ dv.calls, e.Simple
  top : dv.world.db.closed = false → dv.world.top
  safe : dv.safe ≤ dv.calls.length
  acknowledged : dv.world.db.closed = false → dv.world.db.opts.syncOnPut = true →
    dv.returned ≤ dv.safe
  kept : ∀ keep, dv.synced ≤ keep → ∃ k, dv.safe ≤ k ∧ k ≤ dv.calls.length ∧
    Recovers (Served.after (dv.calls.take k)).map (dv.world.lose keep).disk

/-- The sizes and the clock of the calls. -/
structure Regular (es : List Event) : Prop where
  sized : ∀ e ∈ es, e.Sized
  clock : (es.filterMap Event.stamp).Pairwise (· ≤ ·)

theorem Regular.init {es es' : List Event} (h : Regular (es ++ es')) : Regular es := by
  refine ⟨fun e he => h.sized e (List.mem_append_left _ he), ?_⟩
  have hclock := h.clock
  rw [List.filterMap_append] at hclock
  exact (List.pairwise_append.mp hclock).1

namespace Flushed

theorem tracks (h : Flushed dv) (hr : Regular dv.calls) :
    ∃ now segs, Tracks (Served.after dv.calls) dv.world now segs :=
  tracks_of_orderly (along_of_simple hr.sized h.simple) hr.clock h.ran

theorem fresh : Flushed .fresh where
  ran := rfl
  simple := by simp [Device.fresh]
  top h := by cases h
  safe := Nat.le_refl _
  acknowledged h := by cases h
  kept keep _ := by
    refine ⟨0, Nat.le_refl _, Nat.le_refl _, ?_⟩
    rw [World.lose_whole (by simp [Device.fresh, World.activeSize, World.activeBytes, World.dataOf,
      World.empty])]
    exact (Tracks.empty 0).recovers

/-- The active file is synced. -/
theorem flushed (h : Flushed dv) (hr : Regular dv.calls) : Flushed dv.flushed where
  ran := h.ran
  simple := h.simple
  top := h.top
  safe := Nat.le_refl _
  acknowledged _ _ := Nat.le_refl _
  kept keep hkeep := by
    obtain ⟨now, segs, ht⟩ := h.tracks hr
    refine ⟨dv.calls.length, Nat.le_refl _, Nat.le_refl _, ?_⟩
    change Recovers (Served.after (dv.calls.take dv.calls.length)).map (dv.world.lose keep).disk
    rw [World.lose_whole hkeep, List.take_length]
    exact ht.recovers

/-- The history with one more call. -/
theorem next (h : Flushed dv) (hr : Regular (dv.calls ++ [e])) (hsimple : e.Simple)
    (hstep : dv.world.step e = some w') :
    store.exec World.empty (dv.calls ++ [e]) = some w' ∧ (∀ e' ∈ dv.calls ++ [e], e'.Simple) ∧
      ∃ now segs, Tracks (Served.after (dv.calls ++ [e])) w' now segs := by
  have hran : store.exec World.empty (dv.calls ++ [e]) = some w' :=
    Machine.exec_append_eq_some.mpr ⟨_, h.ran, Machine.exec_singleton.trans hstep⟩
  have hall : ∀ e' ∈ dv.calls ++ [e], e'.Simple := fun e' he' =>
    (List.mem_append.mp he').elim (h.simple e') fun hmem => List.mem_singleton.mp hmem ▸ hsimple
  exact ⟨hran, hall, tracks_of_orderly (along_of_simple hr.sized hall) hr.clock hran⟩

/-- `OpenWithOptions` or `Close`. -/
theorem turned (h : Flushed dv) (hr : Regular (dv.calls ++ [e])) (hsimple : e.Simple)
    (hstep : dv.world.step e = some w') :
    Flushed { dv with world := w', calls := dv.calls ++ [e] }.flushed := by
  obtain ⟨now, segs, ht⟩ := h.tracks hr.init
  obtain ⟨segs', m', he, hs'⟩ := ht.session.step (hr.sized e (by simp))
    (by rintro rec cut rfl; cases hsimple.2) hstep
  obtain ⟨hran, hall, now', segs'', ht'⟩ := h.next hr hsimple hstep
  refine ⟨hran, hall, he.top hs' h.top ht.session hsimple, Nat.le_refl _,
    fun _ _ => Nat.le_refl _, fun keep hkeep => ⟨_, Nat.le_refl _, Nat.le_refl _, ?_⟩⟩
  change Recovers (Served.after ((dv.calls ++ [e]).take (dv.calls ++ [e]).length)).map
    (w'.lose keep).disk
  rw [World.lose_whole hkeep, List.take_length]
  exact ht'.recovers

/-- A `Put` or `Delete` that writes. If its record is cut, the calls before it are left; if more is
cut, it is cut from the file as it was before. -/
theorem wrote (h : Flushed dv) (hr : Regular (dv.calls ++ [e])) (hsimple : e.Simple)
    (hidle : dv.pending = false) (hopen : dv.world.db.closed = false) (hw : e.writes = some r)
    (hstep : dv.world.step e = some w') : Flushed (dv.wrote e w') := by
  obtain ⟨now, segs, ht⟩ := h.tracks hr.init
  have hsized := hr.sized e (by simp)
  obtain ⟨segs', m', he, hs'⟩ := ht.session.step hsized
    (by rintro rec cut rfl; cases hsimple.2) hstep
  have hd' := ht.dated.step ht.session (orderly_of_top h.top hsized hsimple).1 he
  have htop' := he.top hs' h.top ht.session hsimple
  obtain ⟨hran, hall, now', segs'', ht'⟩ := h.next hr hsimple hstep
  cases he with
  | refused hwhy =>
    rcases hwhy with ⟨hc, -⟩ | ⟨ts, key, rfl⟩ | hdead
    · rw [hopen] at hc
      cases hc
    · simp [Event.writes] at hw
    · exact absurd hdead ht.live
  | merged | closed | opened | crashed => cases hw
  | @wrote _ r' rs _ _ hw' ha happ =>
    obtain rfl : r' = r := Option.some.inj (hw'.symm.trans hw)
    obtain ⟨hopts, hplaced⟩ := happ.placed ht.session.holds ha
    have hle : dv.calls.length ≤ (dv.calls ++ [e]).length := by simp
    have hreturned : dv.returned = dv.calls.length := by simp [Device.returned, hidle]
    have hreturned' : ∀ synced safe, w'.db.opts.syncOnPut = true →
        Device.returned ⟨w', synced, dv.calls ++ [e], safe, w'.db.opts.syncOnPut⟩ =
          dv.calls.length := by
      intro synced safe hsync
      simp [Device.returned, hsync]
    -- all of the record is on the device, or a part of it and everything before
    have hlast : ∀ keep, w'.activeSize ≤ keep + r'.size → ∃ k, dv.calls.length ≤ k ∧
        k ≤ (dv.calls ++ [e]).length ∧
        Recovers (Served.after ((dv.calls ++ [e]).take k)).map (w'.lose keep).disk := by
      intro keep hlow
      by_cases hwhole : w'.activeSize ≤ keep
      · refine ⟨(dv.calls ++ [e]).length, hle, Nat.le_refl _, ?_⟩
        rw [World.lose_whole hwhole, List.take_length]
        exact ht'.recovers
      · refine ⟨dv.calls.length, Nat.le_refl _, hle, ?_⟩
        rw [List.take_left]
        exact happ.recovers_cut ht ha hs' hd' (htop' (happ.opened ha)) (hsized.legal hw).fits hlow
          (Nat.lt_of_not_le hwhole)
    rcases hplaced with ⟨hid, hsize, hsame⟩ | ⟨hid, hsize⟩
    · have hdv : dv.wrote e w' =
          ⟨w', dv.synced, dv.calls ++ [e], dv.safe, w'.db.opts.syncOnPut⟩ := by
        simp [Device.wrote, hid]
      rw [hdv]
      refine ⟨hran, hall, htop', h.safe.trans hle, fun _ hsync => ?_, fun keep hkeep => ?_⟩
      · rw [hreturned' _ _ hsync, ← hreturned]
        exact h.acknowledged hopen (hopts ▸ hsync)
      · by_cases hlow : w'.activeSize ≤ keep + r'.size
        · obtain ⟨k, hk, hk', hrec⟩ := hlast keep hlow
          exact ⟨k, h.safe.trans hk, hk', hrec⟩
        · obtain ⟨k, hk, hk', hrec⟩ := h.kept keep hkeep
          refine ⟨k, hk, hk'.trans hle, ?_⟩
          rw [hsame keep (by omega), List.take_append_of_le_length hk']
          exact hrec
    · have hdv : dv.wrote e w' =
          ⟨w', 0, dv.calls ++ [e], dv.calls.length, w'.db.opts.syncOnPut⟩ := by
        simp [Device.wrote, hid]
      rw [hdv]
      exact ⟨hran, hall, htop', hle, fun _ hsync => (hreturned' _ _ hsync).le,
        fun keep _ => hlast keep (by omega)⟩

theorem step {a : DeviceStep} (h : Flushed dv) (hr : Regular dv'.calls)
    (hstep : dv.step a = some dv') : Flushed dv' := by
  cases a with
  | call e =>
    simp only [Device.step] at hstep
    split at hstep
    · cases hstep
    · next hgo =>
      obtain ⟨hidle, hacc⟩ := not_or.mp hgo
      simp only [Bool.not_eq_true, Bool.not_eq_false] at hidle hacc
      obtain ⟨w', hw', rfl⟩ := Option.map_eq_some_iff.mp hstep
      have hsimple := Event.simple_of_accepted hacc
      cases hw : e.writes with
      | none =>
        simp only [hw, Option.isSome_none, Bool.false_eq_true, if_false] at hr ⊢
        exact h.turned hr hsimple hw'
      | some r =>
        simp only [hw, Option.isSome_some, if_true] at hr ⊢
        exact h.wrote hr hsimple hidle (Event.open_of_accepted hacc hw) hw hw'
  | flush =>
    simp only [Device.step, Option.ite_none_right_eq_some, Option.some.injEq] at hstep
    obtain ⟨-, rfl⟩ := hstep
    exact h.flushed hr
  | sync =>
    simp only [Device.step] at hstep
    split at hstep
    · cases hstep
    · obtain ⟨w', hw', rfl⟩ := Option.map_eq_some_iff.mp hstep
      obtain ⟨now, segs, ht⟩ := h.tracks hr
      obtain rfl := after_sync ht.session.calm hw'
      exact h.flushed hr

end Flushed

theorem Device.calls_step {a : DeviceStep} (hstep : dv.step a = some dv') :
    dv.calls <+: dv'.calls := by
  cases a with
  | call e =>
    simp only [Device.step] at hstep
    split at hstep
    · cases hstep
    · obtain ⟨w', -, rfl⟩ := Option.map_eq_some_iff.mp hstep
      split <;> exact List.prefix_append _ _
  | flush =>
    simp only [Device.step, Option.ite_none_right_eq_some, Option.some.injEq] at hstep
    obtain ⟨-, rfl⟩ := hstep
    exact List.prefix_rfl
  | sync =>
    simp only [Device.step] at hstep
    split at hstep
    · cases hstep
    · obtain ⟨w', -, rfl⟩ := Option.map_eq_some_iff.mp hstep
      exact List.prefix_rfl

theorem Flushed.of_reachable (h : device.Reachable dv) (hr : Regular dv.calls) : Flushed dv := by
  refine h.invariant (P := fun dv => Regular dv.calls → Flushed dv) (fun s hs _ => ?_)
    (fun s a s' hs hstep hr' => ?_) hr
  · obtain rfl : s = .fresh := hs
    exact .fresh
  · obtain ⟨rest, hrest⟩ := Device.calls_step hstep
    exact (hs (Regular.init (hrest ▸ hr'))).step hr' hstep

/-- The power is lost in the second `Put`, when a part of its record is on the device. -/
def interrupted : List DeviceStep :=
  [.call (.open ⟨true, true, 1000⟩), .call (.put 1 [1] [7]), .flush, .call (.put 2 [1] [8])]

end KvRaft.Store
