import KvRaft.Store.Faults
import KvRaft.Store.Hints

/-! What a write that reports an error leaves behind, in memory and for the next recovery: which
records recovery would read of the directory before the call and after it. -/

namespace KvRaft.Store

open Std Replay

/-- No data file has a higher ID. -/
def Highest (segs : Nat → Option Segment) (id : Nat) : Prop := ∀ high, segs high ≠ none → high ≤ id

/-- Recovery for writing can deal with such a tail. -/
def Tolerated (segs : Nat → Option Segment) (d : Disk) (id : Nat) (tail : Bytes) : Prop :=
  decodeDataRecord tail = .error .eof ∨
    Highest segs id ∧ decodeDataRecord tail = .error .unexpectedEOF ∨
    ¬ Highest segs id ∧ d.hint[id]? ≠ none

/-- Recovery for writing reads the records `read` of each data file, and so replays `us`. -/
structure Reads (segs : Nat → Option Segment) (d : Disk) (read : Nat → List Record)
    (us : List (Update Bytes KeyDirEntry)) : Prop where
  holds : Holds segs d
  covered : Covered segs d
  tmp : d.tmpData = ∅ ∧ d.tmpHint = ∅
  present : d.present = true
  tolerated : ∀ id s, segs id = some s → Tolerated segs d id s.tail
  own : ∀ id, Highest segs id → read id = recordsAt segs id
  unhinted : ∀ id, d.hint[id]? = none → read id = recordsAt segs id
  hinted : ∀ id bs, ¬ Highest segs id → d.hint[id]? = some bs → bs = hintBytes (read id)
  part : ∀ id, read id <+: recordsAt segs id
  replays : d.data.keys.flatMap (fun id => updates id 0 (read id)) = us

variable {segs segs' : Nat → Option Segment} {m m' : Bytes → Option Bytes} {d d' : Disk}
  {db db' : DB} {w w' : World} {e : Event} {op : Op Unit} {rs rs' : List Record} {r : Record}
  {len : Int64} {os : List Outcome}
  {read : Nat → List Record} {us : List (Update Bytes KeyDirEntry)} {opts : OpenOptions}

theorem Session.reads (h : Session segs m w) : ∃ read us, Reads segs w.disk read us := by
  classical
  obtain ⟨hints, hh, hcov⟩ := h.covered.exists_hints h.holds
  have hhint : ∀ id, w.disk.hint[id]? = (hints id).map hintBytes := fun id =>
    (hh (id + 1)).hint id (Nat.ne_of_lt (Nat.lt_succ_self id))
  refine ⟨fun id => if Highest segs id then recordsAt segs id
    else (hints id).getD (recordsAt segs id), _, h.holds, h.covered, h.tmp, h.present, ?_, ?_, ?_,
    ?_, ?_, rfl⟩
  · intro id s hs
    by_cases htail : s.tail = []
    · exact Or.inl (by rw [htail]; exact decode_nil)
    · rcases h.torn id s hs htail with ⟨hhid, ⟨high, hhigh, hlt⟩, -⟩ | ⟨-, hdec, hmax⟩
      · rcases hhid with hhint | hdec
        · exact Or.inr (Or.inr ⟨fun hmax => absurd (hmax high hhigh) (Nat.not_le.mpr hlt), hhint⟩)
        · exact Or.inl hdec
      · exact Or.inr (Or.inl ⟨hmax, hdec⟩)
  · intro id hid
    exact if_pos hid
  · intro id hnone
    rw [hhint, Option.map_eq_none_iff] at hnone
    simp [hnone]
  · intro id bs hid hbs
    rw [hhint] at hbs
    obtain ⟨rs, hrs, rfl⟩ := Option.map_eq_some_iff.mp hbs
    simp [hid, hrs]
  · intro id
    by_cases hid : Highest segs id
    · simp only [if_pos hid]
      exact List.prefix_rfl
    · simp only [if_neg hid]
      cases hi : hints id with
      | none => exact List.prefix_rfl
      | some rs =>
        obtain ⟨s, hs, hpre⟩ := hcov id rs hi
        rw [recordsAt_eq hs]
        exact hpre

namespace Reads

theorem unlock (h : Reads segs d read us) : Reads segs { d with locked := false } read us :=
  { h with holds := h.holds.frame rfl rfl }

theorem opens (h : Reads segs d read us) (hlock : d.locked = false) (hrw : opts.readWrite = true)
    (db : DB) : ∃ w' segs', openWithOptions opts ⟨d, db, []⟩ = .ok () w' ∧ w'.outcomes = [] ∧
      w'.db.keydir = scan ∅ us ∧ w'.db.closed = false ∧ Holds segs' w'.disk ∧ Grows segs segs' := by
  have hread : ∀ active, segs active ≠ none → (∀ id, segs id ≠ none → id ≤ active) →
      ∃ hints, Hinted hints active d ∧
        ∀ id, segs id ≠ none → recovered segs hints active id = updates id 0 (read id) := by
    intro active hactive htop
    refine ⟨fun id => (d.hint[id]?).map fun _ => read id, ⟨fun id hne => ?_, ?_⟩, fun id _ => ?_⟩
    · cases hbs : d.hint[id]? with
      | none => rfl
      | some bs =>
        obtain ⟨s, -, hs, -⟩ := h.covered id bs hbs
        have hlow : ¬ Highest segs id := fun hmax =>
          hne (Nat.le_antisymm (htop id (by simp [hs])) (hmax active hactive))
        rw [h.hinted id bs hlow hbs]
        rfl
    · intro id rs hrs r hr
      obtain ⟨_, -, rfl⟩ := Option.map_eq_some_iff.mp hrs
      exact h.holds.fits_recordsAt id r ((h.part id).subset hr)
    · by_cases hid : id = active
      · subst hid
        rw [recovered, if_pos rfl, h.own id htop]
      · rw [recovered, if_neg hid]
        cases hbs : d.hint[id]? with
        | none => rw [Option.map_none, Option.getD_none, h.unhinted id hbs]
        | some bs => rfl
  have hreadable : ∀ active, segs active ≠ none → (∀ id, segs id ≠ none → id ≤ active) →
      ∀ id s, segs id = some s → Readable d opts.readWrite active id s := by
    intro active hactive htop id s hs
    rcases h.tolerated id s hs with hdec | ⟨hmax, hdec⟩ | ⟨hlow, hhint⟩
    · exact Or.inl hdec
    · have hid : id = active := Nat.le_antisymm (htop id (by simp [hs])) (hmax active hactive)
      exact Or.inr (Or.inl ⟨hid, hrw, hdec⟩)
    · refine Or.inr (Or.inr ⟨?_, hhint⟩)
      rintro rfl
      exact hlow htop
  obtain ⟨segs', w', ho, hok⟩ := openWithOptions_opens db h.holds
    (fun active hactive htop => (hread active hactive htop).imp fun _ => And.left) h.tmp h.present
    (fun _ => hlock) hreadable
  refine ⟨w', segs', hok, ?_⟩
  rw [← h.replays]
  exact ho.reads h.holds hread

/-- What recovery replays serves some map. -/
theorem serves (h : Reads segs d read us) : ∃ m, Serves segs (scan ∅ us) m := by
  refine Serves.exists_of_live fun k e he => ?_
  rcases replay_mem he with hempty | ⟨u, hu, rfl, rfl, ht⟩
  · simp at hempty
  · rw [← h.replays] at hu
    obtain ⟨id, hid, hu⟩ := List.mem_flatMap.mp hu
    obtain ⟨s, hs⟩ := Option.ne_none_iff_exists'.mp (h.holds.mem_keys.mp hid)
    obtain ⟨pre, r, post, hrs, rfl⟩ := mem_updates.mp hu
    obtain ⟨more, hmore⟩ := h.part id
    refine ⟨r, ⟨s, pre, post ++ more, hs, ?_, ?_⟩, rfl, ht⟩
    · rw [← recordsAt_eq hs, ← hmore, hrs]
      simp
    · rw [Nat.zero_add]
      rfl

/-- A new hint file that tells recovery what it reads anyway. -/
theorem rehint (h : Reads segs d read us) {id : Nat} (hs : segs id = some { records := rs })
    (hsame : Highest segs id ∨ hintBytes rs = hintBytes (read id)) :
    Reads segs { d with hint := d.hint.insert id (hintBytes rs) } read us := by
  have hhint : ∀ {i : Nat}, i ≠ id → (d.hint.insert id (hintBytes rs))[i]? = d.hint[i]? :=
    Maps.getElem?_insert_of_ne
  refine { h with holds := h.holds.frame rfl rfl, covered := ?_, tolerated := ?_, unhinted := ?_
                  hinted := ?_ }
  · intro i bs hbs
    by_cases hi : i = id
    · subst hi
      simp only [ExtTreeMap.getElem?_insert_self, Option.some.injEq] at hbs
      exact ⟨_, rs, hs, List.prefix_rfl, hbs.symm⟩
    · exact h.covered i bs ((hhint hi).symm.trans hbs)
  · intro i s hi
    rcases h.tolerated i s hi with hdec | hdec | ⟨hlow, hne⟩
    · exact Or.inl hdec
    · exact Or.inr (Or.inl hdec)
    · refine Or.inr (Or.inr ⟨hlow, ?_⟩)
      by_cases hid : i = id
      · simp [hid]
      · exact fun hnone => hne ((hhint hid).symm.trans hnone)
  · intro i hnone
    by_cases hi : i = id
    · simp [hi] at hnone
    · exact h.unhinted i ((hhint hi).symm.trans hnone)
  · intro i bs hlow hbs
    by_cases hi : i = id
    · subst hi
      simp only [ExtTreeMap.getElem?_insert_self, Option.some.injEq] at hbs
      rw [← hbs]
      exact hsame.resolve_left hlow
    · exact h.hinted i bs hlow ((hhint hi).symm.trans hbs)

/-- A new file above all others. The one that was the highest before is now read through its hint
file. -/
theorem create (h : Reads segs d read us) {id : Nat} (habove : ∀ i, segs i ≠ none → i < id)
    (hcrown : ∀ i s, Highest segs i → segs i = some s → s.tail = [] ∧
      ∀ bs, d.hint[i]? = some bs → bs = hintBytes s.records) :
    Reads (Function.update segs id (some { records := [] }))
      { d with data := d.data.insert id [] } read us := by
  have hnone : segs id = none := by
    by_contra hne
    exact Nat.lt_irrefl id (habove id hne)
  have hgrows : Grows segs (Function.update segs id (some { records := [] })) :=
    Grows.update fun s₀ hs₀ => absurd hs₀ (by simp [hnone])
  have hrecs : ∀ i, recordsAt (Function.update segs id (some { records := [] })) i =
      recordsAt segs i := by
    intro i
    by_cases hi : i = id
    · rw [hi, recordsAt_update_self, recordsAt, hnone]
      rfl
    · exact recordsAt_update_of_ne hi
  have hhigh : ∀ {i}, Highest (Function.update segs id (some { records := [] })) i ↔ id ≤ i := by
    intro i
    constructor
    · intro hi
      exact hi id (by simp)
    · intro hle high hne
      by_cases hh : high = id
      · omega
      · rw [Function.update_of_ne hh] at hne
        have := habove high hne
        omega
  have hread : read id = [] := by
    rw [h.own id fun high hne => Nat.le_of_lt (habove high hne), recordsAt, hnone]
    rfl
  refine ⟨h.holds.update (by simp) (by simp [Segment.bytes]) rfl rfl, h.covered.grow hgrows rfl,
    h.tmp, h.present, ?_, ?_, ?_, ?_, ?_, ?_⟩
  · refine forall_update (fun i s hi hs => ?_) (Or.inl decode_nil)
    rcases h.tolerated i s hs with hdec | ⟨hmax, -⟩ | ⟨-, hhint⟩
    · exact Or.inl hdec
    · rw [(hcrown i s hmax hs).1]
      exact Or.inl decode_nil
    · refine Or.inr (Or.inr ⟨fun hmax => ?_, hhint⟩)
      exact absurd (hhigh.mp hmax) (Nat.not_le.mpr (habove i (by simp [hs])))
  · intro i hi
    rw [hrecs]
    exact h.own i fun high hne => Nat.le_trans (Nat.le_of_lt (habove high hne)) (hhigh.mp hi)
  · intro i hi
    rw [hrecs]
    exact h.unhinted i hi
  · intro i bs hlow hbs
    by_cases hmax : Highest segs i
    · obtain ⟨s, -, hs, -⟩ := h.covered i bs hbs
      rw [(hcrown i s hmax hs).2 bs hbs, h.own i hmax, recordsAt_eq hs]
    · exact h.hinted i bs hmax hbs
  · intro i
    rw [hrecs]
    exact h.part i
  · have hlast : ∀ a ∈ d.data, compare a id = .lt := fun a ha =>
      Nat.compare_eq_lt.mpr (habove a (h.holds.mem_keys.mp (ExtTreeMap.mem_keys.mpr ha)))
    rw [Maps.keys_insert_last hlast, List.flatMap_append, h.replays]
    simp [hread, updates]

/-- A file that gets a tail. -/
theorem tear (h : Reads segs d read us) {id : Nat} {tail : Bytes}
    (hs : segs id = some { records := rs }) (hsize : (bytesOf rs ++ tail).length ≤ maxFileSize)
    (htail : Tolerated segs d id tail) :
    Reads (Function.update segs id (some ⟨rs, tail⟩))
      { d with data := d.data.insert id (bytesOf rs ++ tail) } read us := by
  have hfiles : ∀ i, Function.update segs id (some ⟨rs, tail⟩) i ≠ none ↔ segs i ≠ none := by
    intro i
    by_cases hi : i = id
    · simp [hi, hs]
    · rw [Function.update_of_ne hi]
  have hhigh : ∀ i, Highest (Function.update segs id (some ⟨rs, tail⟩)) i ↔ Highest segs i :=
    fun i => forall_congr' fun high => imp_congr_left (hfiles high)
  have hrecs : ∀ i, recordsAt (Function.update segs id (some ⟨rs, tail⟩)) i = recordsAt segs i := by
    intro i
    by_cases hi : i = id
    · rw [hi, recordsAt_update_self, recordsAt_eq hs]
    · exact recordsAt_update_of_ne hi
  refine ⟨h.holds.tail hs hsize rfl rfl, h.covered.grow (Grows.tail hs) rfl, h.tmp, h.present,
    ?_, ?_, ?_, ?_, ?_, ?_⟩
  · simp only [Tolerated, hhigh]
    exact forall_update (fun i s _ => h.tolerated i s) htail
  · simp only [hhigh, hrecs]
    exact h.own
  · simp only [hrecs]
    exact h.unhinted
  · simp only [hhigh]
    exact h.hinted
  · simp only [hrecs]
    exact h.part
  · have hmem : id ∈ d.data := ExtTreeMap.mem_keys.mp (h.holds.mem_keys.mpr (by simp [hs]))
    rw [Maps.keys_insert_of_mem hmem]
    exact h.replays

end Reads

namespace World

/-- The first `cut` bytes of `r`, at the end of the file that the write comes to, are less than the
record, and do not keep recovery from reading the other records. -/
def Hides (w : World) (r : Record) (cut : Nat) : Prop :=
  cut < r.size ∧ (w.db.full (Int64.ofNat r.size) ∨ w.top ∨ r.CleanCut cut ∨
    (w.disk.hint[w.db.activeFileID]?).isSome)

/-- If the write of `r` fails, then not in the `Sync` after it, and what it leaves does not change
what recovery reads: neither a new hint file for a data file below another one whose hint file was
out of date, nor a part of the record where recovery does not cut it off. -/
def Traceless (w : World) (r : Record) (os : List Outcome) : Prop :=
  w.db.activeFile = .opened →
    if w.HasRoom r os then
      (¬ w.db.full (Int64.ofNat r.size) ∨ w.top ∨ w.HintCurrent) ∧
        ∃ n ∈ w.cutOff r os, w.Hides r n
    else w.top ∨ w.HintCurrent ∨ ¬ Rehints (recordsIn w.activeBytes) os

instance (w : World) (r : Record) (cut : Nat) : Decidable (w.Hides r cut) :=
  inferInstanceAs (Decidable (_ ∧ _))

instance (w : World) (r : Record) (os : List Outcome) : Decidable (w.Traceless r os) :=
  inferInstanceAs (Decidable (_ → _))

end World

/-- An open `DB` that serves `m`, over a directory of which recovery replays `us`. -/
structure Stands (segs : Nat → Option Segment) (m : Bytes → Option Bytes)
    (us : List (Update Bytes KeyDirEntry)) (w : World) : Prop where
  calm : w.outcomes = []
  opened : w.db.closed = false
  lockFile : w.db.lockFile = true
  serves : Serves segs w.db.keydir m
  reads : ∃ read, Reads segs { w.disk with tmpHint := ∅ } read us

namespace Stands

theorem of_reads (hr : Reads segs w.disk read us) (hcalm : w.outcomes = [])
    (hopened : w.db.closed = false) (hlock : w.db.lockFile = true)
    (hserves : Serves segs w.db.keydir m) : Stands segs m us w := by
  have hd : { w.disk with tmpHint := ∅ } = w.disk := by rw [← hr.tmp.2]
  exact ⟨hcalm, hopened, hlock, hserves, read, hd ▸ hr⟩

theorem holds (h : Stands segs m us w) : Holds segs w.disk := by
  obtain ⟨read, hr⟩ := h.reads
  exact hr.holds.frame rfl rfl

theorem reopens (h : Stands segs m us w) (hm : Serves segs (scan ∅ us) m')
    (hrw : opts.readWrite = true) : ∃ v u, w.Closes v ∧
      openWithOptions opts v = .ok () u ∧ ∀ key, u.lookup key = answer (m' key) := by
  obtain ⟨d, db, os⟩ := w
  obtain rfl : os = [] := h.calm
  obtain ⟨read, hr⟩ := h.reads
  obtain ⟨u, segs', hok, hcalm, hkey, hopen, hholds, hgrows⟩ := hr.unlock.opens rfl hrw
    (World.shut ⟨d, db, []⟩).db
  refine ⟨World.shut ⟨d, db, []⟩, u, World.closes_shut h.opened h.lockFile, ?_, ?_⟩
  · exact (openWithOptions_tmpHint (d := { d with locked := false }) h.holds.other hrw
      d.tmpHint).trans hok
  · exact lookup_eq hcalm hholds hopen (hkey ▸ hm.grow hgrows)

end Stands

/-- A record cut short where recovery deals with it. -/
theorem tolerated_take (hr : r.Fits) {id n : Nat} (hn : n < r.size)
    (hwhere : Highest segs id ∨ r.CleanCut n ∨ (d.hint[id]?).isSome) :
    Tolerated segs d id (r.encode.take n) := by
  have hdec := Record.decode_take hr hn
  by_cases hclean : r.CleanCut n
  · rw [if_pos hclean] at hdec
    exact Or.inl hdec
  · rw [if_neg hclean] at hdec
    by_cases hmax : Highest segs id
    · exact Or.inr (Or.inl ⟨hmax, hdec⟩)
    · exact Or.inr (Or.inr ⟨hmax, Option.isSome_iff_ne_none.mp
        ((hwhere.resolve_left hmax).resolve_left hclean)⟩)

/-- A write that found room leaves its part of the record in the active file, or in a new file above
all others. -/
theorem World.Hides.tolerated (h : Holds segs d) (ha : Active segs db rs) (hr : r.Fits) {n : Nat}
    (hroom : Room segs d db rs (Int64.ofNat r.size) segs' d' db' rs')
    (hhides : World.Hides ⟨d, db, []⟩ r n) :
    Tolerated segs' d' db'.activeFileID (r.encode.take n) := by
  obtain ⟨hn, hwhere⟩ := hhides
  refine tolerated_take hr hn ?_
  cases hroom with
  | stay hfull => exact (hwhere.resolve_left hfull).imp_left h.top.mp
  | rotate hfull hnext =>
    refine Or.inl fun high hhigh => ?_
    by_cases hid : high = db.nextFileID
    · exact hid.le
    · rw [Function.update_of_ne hid] at hhigh
      exact (ha.below high hhigh).le

namespace Kept

/-- What the highest data file and its hint file are once the hint file of the active file is up to
date. -/
theorem crown (h : Kept segs m ⟨d, db, []⟩) (ha : Active segs db rs) :
    ∀ i s, Highest segs i → segs i = some s → s.tail = [] ∧ ∀ bs,
      (d.hint.insert db.activeFileID (hintBytes rs))[i]? = some bs → bs = hintBytes s.records := by
  intro i s hmax hs
  by_cases hi : i = db.activeFileID
  · subst hi
    rw [ha.file, Option.some.injEq] at hs
    subst hs
    refine ⟨rfl, fun bs hbs => ?_⟩
    simp only [ExtTreeMap.getElem?_insert_self, Option.some.injEq] at hbs
    exact hbs.symm
  · have hlt : db.activeFileID < i := by
      have := hmax db.activeFileID (by simp [ha.file])
      omega
    refine ⟨?_, fun bs hbs => ?_⟩
    · by_contra htail
      rcases h.session.torn i s hs htail with ⟨-, ⟨high, hhigh, hlow⟩, -⟩ | ⟨hclosed, -⟩
      · exact absurd (hmax high hhigh) (Nat.not_le.mpr hlow)
      · exact absurd (hclosed.symm.trans ha.opened) (by simp)
    · rw [Maps.getElem?_insert_of_ne hi] at hbs
      rw [h.aloft ha.opened i bs hlt hbs, recordsAt_eq hs]

/-- A rotation that got as far as the new file leaves no trace, unless it replaces a hint file that
recovery reads by another. -/
theorem rotated (h : Kept segs m ⟨d, db, []⟩) (ha : Active segs db rs) (hr : Reads segs d read us)
    (hsame : Highest segs db.activeFileID ∨ hintBytes rs = hintBytes (read db.activeFileID)) :
    Reads (Function.update segs db.nextFileID (some { records := [] }))
      (rotatedDisk d db.activeFileID db.nextFileID rs) read us :=
  (hr.rehint ha.file hsame).create ha.below (h.crown ha)

/-- When a new hint file for the active file tells recovery nothing new. -/
theorem hint_same (h : Kept segs m ⟨d, db, []⟩) (ha : Active segs db rs) (hr : Reads segs d read us)
    (hcur : World.top ⟨d, db, []⟩ ∨ World.HintCurrent ⟨d, db, []⟩) :
    Highest segs db.activeFileID ∨ hintBytes rs = hintBytes (read db.activeFileID) := by
  by_cases hmax : Highest segs db.activeFileID
  · exact Or.inl hmax
  · refine Or.inr ?_
    cases hbs : d.hint[db.activeFileID]? with
    | none => rw [hr.unhinted _ hbs, recordsAt_eq ha.file]
    | some bs =>
      rw [← hr.hinted _ bs hmax hbs]
      rcases hcur with htop | hcur
      · exact absurd (h.session.holds.top.mp htop) hmax
      · rw [hcur.eq h.session.holds ha hbs, recordsAt_eq ha.file]

theorem reads_room (h : Kept segs m ⟨d, db, []⟩) (ha : Active segs db rs)
    (hreads : Reads segs d read us) (hroom : Room segs d db rs len segs' d' db' rs')
    (hcur : ¬ db.full len ∨ World.top ⟨d, db, []⟩ ∨ World.HintCurrent ⟨d, db, []⟩) :
    Reads segs' d' read us := by
  cases hroom with
  | stay => exact hreads
  | rotate hfull =>
    exact h.rotated ha hreads (h.hint_same ha hreads (hcur.resolve_left (not_not.mpr hfull)))

/-- What is left of a write that failed without a trace. -/
theorem stands (h : Kept segs m ⟨d, db, []⟩) (ha : Active segs db rs)
    (hlive : db.activeFile = .opened) (hr : r.Legal) (hreads : Reads segs d read us)
    (htr : World.Traceless ⟨d, db, []⟩ r os) {err : Err}
    (hends : Ends segs d db rs r os (.error err w')) :
    ∃ segs', Grows segs segs' ∧ Stands segs' m us { w' with outcomes := [] } := by
  have hlock := (h.session.opened ha.opened).1
  have htr := htr hlive
  cases hends with
  | unrotated hfull hnot hun =>
    have hno : ¬ World.HasRoom ⟨d, db, []⟩ r os := fun hroom =>
      hnot ((ha.hasRoom_iff h.session.holds).mp hroom hfull)
    rw [if_neg hno, ha.recordsIn_activeBytes h.session.holds] at htr
    have hsame (hrehints : Rehints rs os) := h.hint_same ha hreads
      (htr.imp_right fun hcur => hcur.resolve_right (not_not_intro hrehints))
    cases hun with
    | sync =>
      exact ⟨segs, Grows.refl segs, .of_reads hreads rfl ha.opened hlock h.session.serves⟩
    | close =>
      exact ⟨segs, Grows.refl segs, .of_reads hreads rfl ha.opened hlock h.session.serves⟩
    | broken _ hb =>
      cases hb with
      | hint t =>
        have hd : { d with tmpHint := ∅ } = d := by rw [← hreads.tmp.2]
        exact ⟨segs, Grows.refl segs, rfl, ha.opened, hlock, h.session.serves, read, hd ▸ hreads⟩
      | create hrehints =>
        exact ⟨segs, Grows.refl segs, .of_reads (hreads.rehint ha.file (hsame hrehints)) rfl
          ha.opened hlock h.session.serves⟩
      | stat hrehints =>
        have hgrows := Grows.create ha
        exact ⟨_, hgrows, .of_reads (h.rotated ha hreads (hsame hrehints)) rfl ha.opened hlock
          (h.session.serves.grow hgrows)⟩
  | torn hroom hrotates hshort hsize =>
    rw [if_pos ((ha.hasRoom_iff h.session.holds).mpr hrotates),
      hroom.cutOff_eq ha h.session.holds, hshort] at htr
    obtain ⟨hcur, n, hn, hhides⟩ := htr
    obtain rfl := Option.some.inj hn
    have ha' := hroom.active ha
    have hs' := h.session.room ha hroom
    have hreads' := (h.reads_room ha hreads hroom hcur).tear ha'.file hsize
      (hhides.tolerated h.session.holds ha hr.fits hroom)
    exact ⟨_, (hroom.grows ha).trans (Grows.tail ha'.file), .of_reads hreads' rfl ha'.opened
      (hs'.opened ha'.opened).1 (hs'.serves.grow (Grows.tail ha'.file))⟩
  | unsynced hroom hrotates hshort _ _ =>
    rw [if_pos ((ha.hasRoom_iff h.session.holds).mpr hrotates),
      hroom.cutOff_eq ha h.session.holds, hshort] at htr
    obtain ⟨-, n, hn, -⟩ := htr
    cases hn

end Kept

/-- A write that returns an error leaves the keydir alone, and every record where it was. -/
theorem Session.unchanged (h : Session segs m ⟨d, db, []⟩) (ha : Active segs db rs) (hr : r.Legal)
    {err : Err} (hends : Ends segs d db rs r os (.error err w')) :
    ∃ segs', Holds segs' w'.disk ∧ Serves segs' w'.db.keydir m ∧ w'.db.closed = false := by
  cases hends with
  | unrotated hfull hnot hun =>
    cases hun with
    | sync | close => exact ⟨segs, h.holds, h.serves, ha.opened⟩
    | broken _ hb =>
      cases hb with
      | hint | create => exact ⟨segs, h.holds.frame rfl rfl, h.serves, ha.opened⟩
      | stat =>
        exact ⟨_, h.holds.update (by simp) (by simp [Segment.bytes]) rfl rfl,
          h.serves.grow (Grows.create ha), ha.opened⟩
  | torn hroom _ _ hsize =>
    have ha' := hroom.active ha
    have h' := h.room ha hroom
    exact ⟨_, h'.holds.tail ha'.file hsize rfl rfl, h'.serves.grow (Grows.tail ha'.file),
      ha'.opened⟩
  | unsynced hroom _ _ hsize _ =>
    have ha' := hroom.active ha
    have h' := h.room ha hroom
    exact ⟨_, h'.holds.append ha' hr hsize, h'.serves.grow (ha'.grows r), ha'.opened⟩

/-- What a session ends in can be opened again. -/
theorem Session.reopens (h : Session segs m w) (hrw : opts.readWrite = true) :
    ∃ v u, w.Closes v ∧ openWithOptions opts v = .ok () u := by
  obtain ⟨d, db, os⟩ := w
  obtain rfl : os = [] := h.calm
  cases hc : db.closed with
  | true =>
    obtain ⟨_, u, -, hok⟩ := h.openWithOptions_ok hc opts hrw
    exact ⟨_, u, by simp [World.Closes, close, bind_apply, hc], hok⟩
  | false =>
    have hshut : Session segs m (World.shut ⟨d, db, []⟩) := h.shut rfl rfl
    obtain ⟨_, u, -, hok⟩ := hshut.openWithOptions_ok rfl opts hrw
    exact ⟨_, u, World.closes_shut hc (h.opened hc).1, hok⟩

/-- After any history whose failures are bearable, a `Put` or `Delete` that returns an error leaves
the map that `Get` serves as it was, and if it fails without a trace, closing the directory and
opening it for writing recovers the map that it recovers without the call. -/
theorem failed_write_traceless {ts : List Trial} (h : faulty.Along Bearable World.empty ts)
    (hrun : faulty.exec World.empty ts = some w) (hop : e.write = some op) (hsized : e.Sized)
    {err : Err} (herr : op { w with outcomes := os } = .error err w') :
    (∀ key, World.lookup { w' with outcomes := [] } key = w.lookup key) ∧
      ((∀ r ∈ e.writes, w.Traceless r os) → ∀ opts : OpenOptions, opts.readWrite = true →
        ∃ v v' u u', w.Closes v ∧ World.Closes { w' with outcomes := [] } v' ∧
          openWithOptions opts v = .ok () u ∧ openWithOptions opts v' = .ok () u' ∧
          ∀ key, u'.lookup key = u.lookup key) := by
  obtain ⟨segs, m, hk⟩ := kept_of_bearable h hrun
  obtain ⟨d, db, os₀⟩ := w
  obtain rfl : os₀ = [] := hk.session.calm
  rcases hk.session.write_cases hop os with ⟨_, hrefused⟩ | ⟨r, rs, he, ha, hlive, hends⟩
  · obtain ⟨-, rfl⟩ : _ ∧ _ = w' := by simpa [hrefused] using herr
    refine ⟨fun _ => rfl, fun _ opts hrw => ?_⟩
    obtain ⟨v, u, hclose, hok⟩ := hk.session.reopens hrw
    exact ⟨v, v, u, u, hclose, hclose, hok, hok, fun _ => rfl⟩
  · rw [herr] at hends
    have hlegal := hsized.legal he
    refine ⟨fun key => ?_, fun htr opts hrw => ?_⟩
    · obtain ⟨segs', hholds, hserves, hopened⟩ := hk.session.unchanged ha hlegal hends
      rw [lookup_eq rfl hk.session.holds ha.opened hk.session.serves key]
      exact lookup_eq (w := { w' with outcomes := [] }) rfl hholds hopened hserves key
    · obtain ⟨read, us, hreads⟩ := hk.session.reads
      obtain ⟨m', hm'⟩ := hreads.serves
      have hstands : Stands segs m us ⟨d, db, []⟩ :=
        .of_reads hreads rfl ha.opened (hk.session.opened ha.opened).1 hk.session.serves
      obtain ⟨segs', hgrows, hstands'⟩ := hk.stands ha hlive hlegal hreads (htr r he) hends
      obtain ⟨v, u, hclose, hok, hlook⟩ := hstands.reopens hm' hrw
      obtain ⟨v', u', hclose', hok', hlook'⟩ := hstands'.reopens (hm'.grow hgrows) hrw
      exact ⟨v, v', u, u', hclose, hclose', hok, hok', fun key => by rw [hlook, hlook']⟩

/-- A write that returned an error and one that did not, before a rotation that cannot create the
new active file. -/
def lateFailure : List Trial :=
  [⟨.open ⟨true, false, 25⟩, []⟩, ⟨.put 1 [1] [7], [.fail 0]⟩, ⟨.put 2 [1] [7], []⟩]

theorem failed_write_traceless_lateFailure : ∃ w w' err v v' u u',
    faulty.exec World.empty lateFailure = some w ∧
    put 3 [2] [8] { w with outcomes := List.replicate 9 .ok ++ [.fail 0] } = .error err w' ∧
    (∀ key, World.lookup { w' with outcomes := [] } key = w.lookup key) ∧
    w.Closes v ∧ World.Closes { w' with outcomes := [] } v' ∧
    openWithOptions ⟨true, false, 0⟩ v = .ok () u ∧
    openWithOptions ⟨true, false, 0⟩ v' = .ok () u' ∧
    ∀ key, u'.lookup key = u.lookup key := by
  have h : faulty.Along Bearable World.empty lateFailure := by decide +kernel
  have hrun : (faulty.exec World.empty lateFailure).any fun w =>
      decide (w.Traceless ⟨3, [2], [8]⟩ (List.replicate 9 .ok ++ [.fail 0])) &&
      (World.failed (put 3 [2] [8])
        { w with outcomes := List.replicate 9 .ok ++ [.fail 0] }).isSome := by decide +kernel
  obtain ⟨w, hw, hput⟩ := Option.any_eq_true _ _ |>.mp hrun
  rw [Bool.and_eq_true, decide_eq_true_eq] at hput
  obtain ⟨htr, hput⟩ := hput
  obtain ⟨w', hfailed⟩ := Option.isSome_iff_exists.mp hput
  obtain ⟨err, herr⟩ := World.of_failed hfailed
  obtain ⟨hsame, hreopen⟩ := failed_write_traceless (e := .put 3 [2] [8]) h hw rfl (by decide) herr
  have htraceless : ∀ r ∈ Event.writes (.put 3 [2] [8]),
      w.Traceless r (List.replicate 9 .ok ++ [.fail 0]) := by
    intro r hr
    obtain rfl := Option.some.inj hr
    exact htr
  obtain ⟨v, v', u, u', hreopen⟩ := hreopen htraceless ⟨true, false, 0⟩ rfl
  exact ⟨w, w', err, v, v', u, u', hw, herr, hsame, hreopen⟩

/-- With `SyncOnPut`, the record is in the file before the `Sync` that fails. -/
theorem not_failed_write_traceless : ¬ ∀ (ts : List Trial) w e op os err w' opts v v' u u',
    faulty.exec World.empty ts = some w → Event.write e = some op → e.Sized →
      op { w with outcomes := os } = .error err w' → opts.readWrite = true →
        close w = .ok () v → close { w' with outcomes := [] } = .ok () v' →
          openWithOptions opts v = .ok () u → openWithOptions opts v' = .ok () u' →
            ∀ key, u'.lookup key = u.lookup key := by
  intro h
  have hrun : ((faulty.exec World.empty [⟨.open ⟨true, true, 0⟩, []⟩]).bind fun w =>
      (World.failed (put 1 [1] [7]) { w with outcomes := [.ok, .fail 0] }).bind fun w' =>
      (w.returned close).bind fun v =>
      (World.returned close { w' with outcomes := [] }).bind fun v' =>
      (v.returned (openWithOptions ⟨true, true, 0⟩)).bind fun u =>
      (v'.returned (openWithOptions ⟨true, true, 0⟩)).map fun u' =>
        decide (u.lookup [1] = .error .keyNotFound ∧ u'.lookup [1] = .ok [7])) = some true := by
    decide +kernel
  obtain ⟨w, hw, hrun⟩ := Option.bind_eq_some_iff.mp hrun
  obtain ⟨w', hfailed, hrun⟩ := Option.bind_eq_some_iff.mp hrun
  obtain ⟨v, hclose, hrun⟩ := Option.bind_eq_some_iff.mp hrun
  obtain ⟨v', hclose', hrun⟩ := Option.bind_eq_some_iff.mp hrun
  obtain ⟨u, hopen, hrun⟩ := Option.bind_eq_some_iff.mp hrun
  obtain ⟨u', hopen', hread⟩ := Option.map_eq_some_iff.mp hrun
  obtain ⟨err, herr⟩ := World.of_failed hfailed
  obtain ⟨_, hv⟩ := World.of_returned hclose
  obtain ⟨_, hv'⟩ := World.of_returned hclose'
  obtain ⟨_, hu⟩ := World.of_returned hopen
  obtain ⟨_, hu'⟩ := World.of_returned hopen'
  obtain ⟨hnone, hsome⟩ := of_decide_eq_true hread
  have := h _ w (.put 1 [1] [7]) _ _ err w' _ v v' u u' hw rfl (by decide) herr rfl hv hv' hu hu'
    [1]
  rw [hnone, hsome] at this
  cases this

end KvRaft.Store
