import KvRaft.Store.History
import KvRaft.Store.Recover

/-! What holds between the calls of any history, crashes included, and what each call does: the
data files are segments, hint files cover what stood in them once, the keydir serves some map, and
whatever a crash has torn is where recovery can deal with it. -/

namespace KvRaft.Store

open Std Replay

/-- The record that the call appends. -/
def Event.writes : Event → Option Record
  | .put ts key value => if value = tombstoneValue then none else some ⟨ts, key, value⟩
  | .delete ts key => some ⟨ts, key, tombstoneValue⟩
  | _ => none

/-- The sizes that the record formats can hold. -/
def Event.Sized : Event → Prop
  | .put _ key value => 20 + key.length + value.length < 2 ^ 32
  | .delete _ key => key.length < 2 ^ 32
  | .crash rec _ => rec.Legal
  | _ => True

instance : DecidablePred Event.Sized
  | .put _ key value => inferInstanceAs (Decidable (20 + key.length + value.length < 2 ^ 32))
  | .delete _ key => inferInstanceAs (Decidable (key.length < 2 ^ 32))
  | .crash rec _ => inferInstanceAs (Decidable rec.Legal)
  | .open _ | .merge | .close => inferInstanceAs (Decidable True)

/-- No data file has a higher ID than the active one. -/
def World.top (w : World) : Prop := ∀ id ∈ w.disk.data.keys, id ≤ w.db.activeFileID

instance (w : World) : Decidable w.top := inferInstanceAs (Decidable (∀ _ ∈ _, _))

/-- A record cut at `cut` bytes is one that recovery can deal with: a torn record at the end of the
file with the highest ID is cut off, while in any other file it must look like a clean end, or be
hidden by a hint file. -/
def World.Mends (w : World) (rec : Record) (cut : Nat) : Prop :=
  cut = 0 ∨ if w.top ∨ w.db.full (Int64.ofNat rec.size) then ¬ rec.CleanCut cut
    else rec.CleanCut cut ∨ (w.disk.hint[w.db.activeFileID]?).isSome

instance (w : World) (rec : Record) (cut : Nat) : Decidable (w.Mends rec cut) :=
  inferInstanceAs (Decidable (_ ∨ _))

/-- A torn file is not the active one: it is hidden by its hint file or looks clean, below a file
with a higher ID, or it waits for recovery to cut it. -/
def Torn (segs : Nat → Option Segment) (w : World) (id : Nat) (s : Segment) : Prop :=
  (w.disk.hint[id]? ≠ none ∨ decodeDataRecord s.tail = .error .eof) ∧
      (∃ high, segs high ≠ none ∧ id < high) ∧
      (w.db.closed = false → id < w.db.activeFileID) ∨
    w.db.closed = true ∧ decodeDataRecord s.tail = .error .unexpectedEOF ∧
      ∀ high, segs high ≠ none → high ≤ id

structure Session (segs : Nat → Option Segment) (m : Bytes → Option Bytes) (w : World) : Prop where
  calm : w.outcomes = []
  holds : Holds segs w.disk
  covered : Covered segs w.disk
  tmp : w.disk.tmpData = ∅ ∧ w.disk.tmpHint = ∅
  present : w.disk.present = true
  serves : Serves segs w.db.keydir m
  opened : w.db.closed = false → w.db.lockFile = true ∧ ∃ rs, Active segs w.db rs
  closed : w.db.closed = true → w.disk.locked = false
  torn : ∀ id s, segs id = some s → s.tail ≠ [] → Torn segs w id s
  numbers : ∀ id, segs id ≠ none → id < maxFileID

variable {segs segs' : Nat → Option Segment} {m : Bytes → Option Bytes} {d d' : Disk} {db db' : DB}
  {rs rs' : List Record} {r : Record} {len : Int64} {w : World}

theorem Record.Legal.of_size (h : r.size < 2 ^ 32) : r.Legal :=
  ⟨by rw [Record.size] at h; omega, fun _ => h⟩

theorem Event.Sized.legal {e : Event} (h : e.Sized) (he : e.writes = some r) : r.Legal := by
  cases e with
  | put ts key value =>
    simp only [Event.writes] at he
    split at he
    · cases he
    · rw [Option.some.injEq] at he
      subst he
      exact Record.Legal.of_size h
  | delete ts key =>
    obtain rfl := Option.some.inj he
    exact ⟨h, fun ht => absurd ht (by simp [Record.tombstone])⟩
  | «open» | merge | close | crash => cases he

theorem Covered.grow (h : Covered segs d) (hg : Grows segs segs') (hhint : d'.hint = d.hint) :
    Covered segs' d' := by
  intro id bs hbs
  rw [hhint] at hbs
  obtain ⟨s, rs, hs, hrs, heq⟩ := h id bs hbs
  obtain ⟨s', hs', hpre⟩ := hg id s hs
  exact ⟨s', rs, hs', hrs.trans hpre, heq⟩

theorem World.empty_session : Session (fun _ => none) (fun _ => none) World.empty where
  calm := rfl
  holds := ⟨by simp [World.empty], nofun, nofun, rfl⟩
  covered := by intro id bs; simp [World.empty]
  tmp := ⟨rfl, rfl⟩
  present := rfl
  serves := ⟨by intro k e; simp [World.empty, newDB], fun _ _ => rfl⟩
  opened := nofun
  closed := fun _ => rfl
  torn := nofun
  numbers := nofun

/-- Behind an open handle, the counter bounds the IDs. -/
theorem Active.numbers (ha : Active segs db rs) (id : Nat) (hid : segs id ≠ none) :
    id < maxFileID :=
  (ha.below id hid).trans_le ha.next

namespace Session

theorem tmpHint_none (h : Session segs m w) (id : Nat) : w.disk.tmpHint[id]? = none := by
  rw [h.tmp.2]
  simp

/-- A rotation, if it takes one, changes neither the map nor what holds. -/
theorem room (h : Session segs m ⟨d, db, []⟩) (ha : Active segs db rs)
    (hr : Room segs d db rs len segs' d' db' rs') : Session segs' m ⟨d', db', []⟩ := by
  have hholds := hr.holds h.holds
  have ha' := hr.active ha
  have hgrows := hr.grows ha
  cases hr with
  | stay => exact h
  | rotate hfull =>
    refine { calm := rfl, holds := hholds, covered := ?_, tmp := h.tmp, present := h.present
             serves := h.serves.grow hgrows
             opened := fun _ => ⟨(h.opened ha.opened).1, _, ha'⟩
             closed := fun hc => absurd hc (by simp [rotatedDB, ha.opened]), torn := ?_
             numbers := ha'.numbers }
    · intro id bs hbs
      by_cases hid : id = db.activeFileID
      · subst hid
        simp only [rotatedDisk, ExtTreeMap.getElem?_insert_self, Option.some.injEq] at hbs
        refine ⟨{ records := rs }, rs, ?_, List.prefix_rfl, hbs.symm⟩
        rw [Function.update_of_ne (Nat.ne_of_lt ha.active_lt), ha.file]
      · simp only [rotatedDisk] at hbs
        rw [Maps.getElem?_insert_of_ne hid] at hbs
        obtain ⟨s, rs₀, hs, hrs, heq⟩ := h.covered id bs hbs
        obtain ⟨s', hs', hpre⟩ := hgrows id s hs
        exact ⟨s', rs₀, hs', hrs.trans hpre, heq⟩
    · refine forall_update (fun id s hid hs htail => ?_) (by simp)
      rcases h.torn id s hs htail with ⟨hhid, -, hlow⟩ | ⟨hclosed, -⟩
      · have hlt : id < db.activeFileID := hlow ha.opened
        refine Or.inl ⟨hhid.imp_left fun hne => ?_, ⟨db.nextFileID, by simp, ?_⟩, fun _ => ?_⟩
        · simp only [rotatedDisk]
          rwa [Maps.getElem?_insert_of_ne (Nat.ne_of_lt hlt)]
        · exact Nat.lt_trans hlt ha.active_lt
        · exact Nat.lt_trans hlt ha.active_lt
      · rw [ha.opened] at hclosed
        cases hclosed

/-- An append to the active file, whatever becomes of the keydir. -/
theorem append (h : Session segs m ⟨d, db, []⟩) (ha : Active segs db rs) (hr : r.Legal)
    (hsize : (bytesOf (rs ++ [r])).length ≤ maxFileSize) {keydir : KeyDir}
    {m' : Bytes → Option Bytes} (hserves : Serves
      (Function.update segs db.activeFileID (some { records := rs ++ [r] })) keydir m') :
    Session (Function.update segs db.activeFileID (some { records := rs ++ [r] })) m'
      ⟨appendedDisk d db.activeFileID rs r, { appendedDB db rs r with keydir := keydir }, []⟩ := by
  refine { calm := rfl, holds := h.holds.append ha hr hsize
           covered := h.covered.grow (ha.grows r) rfl, tmp := h.tmp, present := h.present
           serves := hserves
           opened := fun _ => ⟨(h.opened ha.opened).1, rs ++ [r], { ha.append r with }⟩
           closed := fun hc => absurd hc (by simp [appendedDB, ha.opened]), torn := ?_
           numbers := (ha.append r).numbers }
  refine forall_update (fun id s hid hs htail => ?_) (by simp)
  rcases h.torn id s hs htail with ⟨hhid, ⟨high, hhigh, hlt⟩, hlow⟩ | ⟨hclosed, -⟩
  · refine Or.inl ⟨hhid, ⟨high, ?_, hlt⟩, hlow⟩
    by_cases hA : high = db.activeFileID
    · simp [hA]
    · rwa [Function.update_of_ne hA]
  · rw [ha.opened] at hclosed
    cases hclosed

theorem appended (h : Session segs m w) (ha : Active segs w.db rs) (hr : r.Legal)
    {w' : World} (happ : Appended segs w.disk w.db rs r segs' w') :
    Session segs' (r.effect m) w' := by
  obtain ⟨d, db, os⟩ := w
  obtain rfl : os = [] := h.calm
  cases happ with
  | intro hroom hlive hsize =>
    have ha' := hroom.active ha
    have h' := h.room ha hroom
    exact h'.append ha' hr hsize ((h'.serves.grow (ha'.grows r)).write (At.last _ _ _ r))

theorem lookup_appended (h : Session segs m w) (ha : Active segs w.db rs) (hr : r.Legal)
    (ht : r.tombstone = false) {w' : World} (happ : Appended segs w.disk w.db rs r segs' w') :
    w'.lookup r.key = .ok r.value := by
  have h' := h.appended ha hr happ
  rw [lookup_eq h'.calm h'.holds (happ.opened ha) h'.serves, Record.effect_self, ht]
  rfl

theorem merged (h : Session segs m ⟨d, db, []⟩) (ha : Active segs db rs)
    {out : Nat → Option Segment} (hm : Merged segs d db out d' db') :
    Session (mergedSegs segs out db.activeFileID) m ⟨d', db', []⟩ := by
  have ha' := hm.active ha
  have hclosed : db'.closed = false := ha'.opened
  refine { calm := rfl, holds := hm.holds, covered := ?_, tmp := hm.tmp
           present := hm.sameDisk.1.trans h.present, serves := hm.serves h.holds ha h.serves
           opened := fun _ => ⟨?_, rs, ha'⟩
           closed := fun hc => absurd hc (by simp [hclosed]), torn := ?_
           numbers := ha'.numbers }
  · intro id bs hbs
    rw [hm.hint] at hbs
    rcases Option.or_eq_some_iff.mp hbs with ho | ⟨ho, hold⟩
    · obtain ⟨s, hs, rfl⟩ := Option.map_eq_some_iff.mp ho
      exact ⟨s, s.records, by simp [mergedSegs, hs], List.prefix_rfl, rfl⟩
    · split at hold
      · cases hold
      · next hkeep =>
        obtain ⟨s, rs₀, hs, hrs, heq⟩ := h.covered id bs hold
        have hact : id = db.activeFileID := by
          by_contra hne
          exact hkeep ⟨by simp [hs], hne⟩
        subst hact
        rw [ha.file, Option.some.injEq] at hs
        exact ⟨_, rs₀, hm.segs_active ha, hs ▸ hrs, heq⟩
  · rw [hm.sameDB]
    exact (h.opened ha.opened).1
  · intro id s hs htail
    rcases Merged.segs_cases ha hs with ho | ⟨-, rfl⟩
    · exact absurd (hm.clean id s ho) htail
    · exact absurd rfl htail

/-- The end of a session without a further write, whatever else it does to the `DB`. -/
theorem shut (h : Session segs m ⟨d, db, []⟩) (hkey : db'.keydir = db.keydir)
    (hclosed : db'.closed = true) : Session segs m ⟨{ d with locked := false }, db', []⟩ := by
  refine { calm := rfl, holds := h.holds.frame rfl rfl, covered := h.covered, tmp := h.tmp
           present := h.present, serves := hkey ▸ h.serves
           opened := fun hc => absurd hc (by simp [hclosed]), closed := fun _ => rfl, torn := ?_
           numbers := h.numbers }
  intro id s hs htail
  rcases h.torn id s hs htail with ⟨hhid, hhigh, -⟩ | ⟨-, hrest⟩
  · exact Or.inl ⟨hhid, hhigh, fun hc => absurd hc (by simp [hclosed])⟩
  · exact Or.inr ⟨hclosed, hrest⟩

/-- The process dies while it writes `r`, and the first `cut` bytes stay in the active file. -/
theorem tear (h : Session segs m ⟨d, db, []⟩) (ha : Active segs db rs) (hr : r.Fits) {cut : Nat}
    (hcut : cut < r.size) (hsize : (bytesOf rs).length + cut ≤ maxFileSize)
    (hmend : cut = 0 ∨ ((∀ id, segs id ≠ none → id ≤ db.activeFileID) ∧ ¬ r.CleanCut cut ∨
      (∃ high, segs high ≠ none ∧ db.activeFileID < high) ∧
        (r.CleanCut cut ∨ d.hint[db.activeFileID]? ≠ none))) :
    Session (Function.update segs db.activeFileID (some ⟨rs, r.encode.take cut⟩)) m
      (World.die ⟨{ d with
        data := d.data.insert db.activeFileID (bytesOf rs ++ r.encode.take cut) }, db, []⟩) := by
  have hlen : (r.encode.take cut).length = cut := by
    rw [List.length_take, Record.length_encode]
    omega
  have hgrows : Grows segs (Function.update segs db.activeFileID
      (some ⟨rs, r.encode.take cut⟩)) := Grows.tail ha.file
  have hfiles : ∀ id, Function.update segs db.activeFileID (some ⟨rs, r.encode.take cut⟩) id ≠ none
      ↔ segs id ≠ none := by
    intro id
    by_cases hid : id = db.activeFileID
    · simp [hid, ha.file]
    · rw [Function.update_of_ne hid]
  have hholds : Holds (Function.update segs db.activeFileID (some ⟨rs, r.encode.take cut⟩))
      { d with data := d.data.insert db.activeFileID (bytesOf rs ++ r.encode.take cut)
               locked := false } := by
    refine h.holds.tail ha.file ?_ rfl rfl
    rw [List.length_append, hlen]
    exact hsize
  refine { calm := rfl, holds := hholds, covered := h.covered.grow hgrows rfl, tmp := h.tmp
           present := h.present, serves := h.serves.grow hgrows, opened := nofun
           closed := fun _ => rfl, torn := forall_update (fun id s hid hs htail => ?_) ?_
           numbers := fun id hid => h.numbers id ((hfiles id).mp hid) }
  · rcases h.torn id s hs htail with ⟨hhid, ⟨high, hhigh, hlt⟩, -⟩ | ⟨hclosed, -⟩
    · exact Or.inl ⟨hhid, ⟨high, (hfiles high).mpr hhigh, hlt⟩, nofun⟩
    · exact absurd hclosed (by simp [ha.opened])
  · intro htail
    have hdec := Record.decode_take hr hcut
    rcases hmend with rfl | ⟨htop, hdirty⟩ | ⟨⟨high, hhigh, hlt⟩, hclean⟩
    · exact absurd rfl htail
    · rw [if_neg hdirty] at hdec
      exact Or.inr ⟨rfl, hdec, fun high hhigh => htop high ((hfiles high).mp hhigh)⟩
    · refine Or.inl ⟨?_, ⟨high, (hfiles high).mpr hhigh, hlt⟩, nofun⟩
      rcases hclean with hclean | hhint
      · rw [if_pos hclean] at hdec
        exact Or.inr hdec
      · exact Or.inl hhint

/-- Recovery for writing can read every segment. -/
theorem readable (h : Session segs m w) {active : Nat} (hactive : segs active ≠ none)
    (htop : ∀ id, segs id ≠ none → id ≤ active) {id : Nat} {s : Segment}
    (hs : segs id = some s) : Readable w.disk true active id s := by
  by_cases htail : s.tail = []
  · exact Or.inl (by rw [htail]; exact decode_nil)
  · have hle := htop id (by simp [hs])
    rcases h.torn id s hs htail with ⟨hhid, ⟨high, hhigh, hlt⟩, -⟩ | ⟨-, hdec, hmax⟩
    · have hne : id ≠ active := by
        have := htop high hhigh
        omega
      rcases hhid with hhint | hdec
      · exact Or.inr (Or.inr ⟨hne, hhint⟩)
      · exact Or.inl hdec
    · exact Or.inr (Or.inl ⟨Nat.le_antisymm hle (hmax active hactive), rfl, hdec⟩)

/-- The active file has no torn end once recovery has read it. -/
theorem trim_eq (h : Session segs m w) {active : Nat} (htop : ∀ id, segs id ≠ none → id ≤ active)
    {s : Segment} (hs : segs active = some s) : s.trim = { records := s.records } := by
  obtain ⟨recs, tail⟩ := s
  by_cases htail : tail = []
  · subst htail
    rfl
  · rcases h.torn active _ hs htail with ⟨-, ⟨high, hhigh, hlt⟩, -⟩ | ⟨-, hdec, -⟩
    · have := htop high hhigh
      omega
    · simp only at hdec
      simp [Segment.trim, hdec]

theorem openWithOptions_ok (h : Session segs m w) (hclosed : w.db.closed = true)
    (opts : OpenOptions) (hrw : opts.readWrite = true) :
    ∃ segs' w', Opens opts segs w.disk segs' w' ∧ openWithOptions opts w = .ok () w' := by
  obtain ⟨d, db, os⟩ := w
  obtain rfl : os = [] := h.calm
  obtain ⟨hints, hh, -⟩ := h.covered.exists_hints h.holds
  refine openWithOptions_opens db h.holds (fun active _ _ => ⟨hints, hh active⟩) h.tmp h.present
    (fun _ => h.closed hclosed) ?_
  rw [hrw]
  exact fun active hactive htop id s hs => h.readable hactive htop hs

end Session

/-- The `DB` that was opened for writing, above a file whose ID is not the largest. -/
theorem Active.ofOpen {opts : OpenOptions} (hrw : opts.readWrite = true) {active : Nat}
    (hs : segs active = some { records := rs }) (htop : ∀ id, segs id ≠ none → id ≤ active)
    (hmax : active < maxFileID) (keydir : KeyDir) :
    Active segs (openedDB opts keydir active (bytesOf rs).length) rs := by
  have hnext : (active + 1) % 2 ^ 64 = active + 1 := by
    unfold maxFileID at hmax
    omega
  refine ⟨rfl, ?_, by simp [openedDB, hrw], hs, by simp [openedDB, hrw], fun id hid => ?_, ?_⟩
  · rw [openedDB, withDefaults_readWrite, hrw]
  · have := htop id hid
    change id < (active + 1) % 2 ^ 64
    omega
  · change (active + 1) % 2 ^ 64 ≤ maxFileID
    omega

theorem Session.opens (h : Session segs m w) {opts : OpenOptions} (hrw : opts.readWrite = true)
    {w' : World} (ho : Opens opts segs w.disk segs' w') : ∃ m', Session segs' m' w' := by
  cases ho with
  | empty hnone =>
    rw [hrw, if_pos rfl, if_pos rfl]
    refine ⟨fun _ => none, ?_⟩
    have hupdate : ∀ id s, Function.update segs 1 (some { records := [] }) id = some s →
        id = 1 ∧ s = { records := [] } :=
      forall_update (fun id s _ hs => absurd hs (by simp [hnone id])) ⟨rfl, rfl⟩
    have hactive : Active (Function.update segs 1 (some { records := [] }))
        (openedDB opts ∅ 1 (bytesOf []).length) [] := by
      refine .ofOpen hrw (Function.update_self ..) (fun id hid => ?_) (by decide) ∅
      obtain ⟨s, hs⟩ := Option.ne_none_iff_exists'.mp hid
      exact (hupdate id s hs).1.le
    refine { calm := rfl
             holds := h.holds.update (by simp) (by simp [Segment.bytes]) rfl rfl
             covered := ?_, tmp := h.tmp, present := h.present
             serves := ⟨by simp [openedDB], fun _ _ => rfl⟩
             opened := fun _ => ⟨hrw, [], hactive⟩, closed := fun hc => by cases hc
             torn := ?_, numbers := hactive.numbers }
    · intro id bs hbs
      obtain ⟨s, _, hs, _⟩ := h.covered id bs hbs
      exact absurd hs (by simp [hnone id])
    · intro id s hs htail
      exact absurd (by rw [(hupdate id s hs).2]) htail
  | @scanned active s keydir hs htop hkey =>
    have htrim := h.trim_eq htop hs
    obtain ⟨m', hm'⟩ := serves_scan h.holds h.covered hkey
    have hgrows : Grows segs (Function.update segs active (some { records := s.records })) := by
      refine Grows.update fun s₀ hs₀ => ?_
      rw [hs, Option.some.injEq] at hs₀
      rw [← hs₀]
    refine ⟨m', ?_⟩
    have hdisk : openedDisk opts w.disk active s = { w.disk with
        locked := true, data := w.disk.data.insert active (bytesOf s.records) } := by
      rw [openedDisk, if_pos hrw, htrim]
      simp [Segment.bytes]
    have hsize : (bytesOf s.records).length ≤ maxFileSize := by
      have := h.holds.size active s hs
      rw [Segment.bytes, List.length_append] at this
      omega
    have hactive : Active (Function.update segs active (some { records := s.records }))
        (openedDB opts keydir active (bytesOf s.records).length) s.records := by
      refine .ofOpen hrw (Function.update_self ..) (fun id hid => ?_)
        (h.numbers active (by simp [hs])) keydir
      by_cases hA : id = active
      · exact hA.le
      · rw [Function.update_of_ne hA] at hid
        exact htop id hid
    have hbytes : (Segment.bytes { records := s.records }).length = (bytesOf s.records).length := by
      simp [Segment.bytes]
    rw [hdisk, if_pos hrw, htrim, hbytes]
    refine { calm := rfl
             holds := h.holds.update (h.holds.legal active s hs)
               (by simpa [Segment.bytes] using hsize) (by simp [Segment.bytes]) rfl
             covered := h.covered.grow hgrows rfl, tmp := h.tmp, present := h.present
             serves := hm'.grow hgrows, opened := fun _ => ⟨hrw, s.records, hactive⟩
             closed := fun hc => by cases hc
             torn := forall_update (fun id s₁ hid hs₁ htail => ?_) (by simp)
             numbers := hactive.numbers }
    have hle := htop id (by simp [hs₁])
    have hlt : id < active := by omega
    rcases h.torn id s₁ hs₁ htail with ⟨hhid, -, -⟩ | ⟨-, -, hmax⟩
    · exact Or.inl ⟨hhid, ⟨active, by simp, hlt⟩, fun _ => hlt⟩
    · have := hmax active (by simp [hs])
      omega

/-- A store that has just been opened in an empty directory. -/
theorem World.openDB_empty {opts : OpenOptions}
    (h : World.empty.openDB { opts with readWrite := true } = some w) :
    ∃ segs, Session segs (fun _ => none) w ∧ w.db.closed = false ∧
      w.db.activeFile ≠ .closed := by
  obtain ⟨segs, w', ho, hok⟩ :=
    World.empty_session.openWithOptions_ok rfl { opts with readWrite := true } rfl
  obtain ⟨_, hs⟩ := World.empty_session.opens rfl ho
  have hkeydir : w'.db.keydir = ∅ := by
    cases ho with
    | empty => rfl
    | scanned hsome => cases hsome
  have hopened : w'.db.closed = false ∧ w'.db.activeFile ≠ .closed := by
    cases ho <;> exact ⟨rfl, nofun⟩
  rw [World.openDB, hok, Option.some.injEq] at h
  subst h
  refine ⟨segs, { hs with serves := ?_ }, hopened⟩
  rw [hkeydir]
  exact ⟨by simp, fun _ _ => rfl⟩

/-- A read descriptor is opened. -/
theorem Session.reading (h : Session segs m ⟨d, db, []⟩) (fileID : Nat) :
    Session segs m ⟨d, db.reading fileID, []⟩ := by
  rw [DB.reading_eq]
  refine { h with opened := fun hc => ?_ }
  obtain ⟨hlock, rs, ha⟩ := h.opened hc
  exact ⟨hlock, rs, { ha with }⟩

/-- The directory and the `DB` after a `Close`. -/
def World.shut (w : World) : World :=
  ⟨{ w.disk with locked := false }, { w.db with
    activeFile := .none, readers := [], lockFile := false, closed := true }, []⟩

/-- `Close` leaves `v`. It returns an error only for a handle that a failed rotation has closed. -/
def World.Closes (w v : World) : Prop :=
  close w = if w.db.closed = false ∧ w.db.activeFile = .closed then .error .closed v else .ok () v

theorem World.closes_shut (hopen : db.closed = false) (hlock : db.lockFile = true) :
    World.Closes ⟨d, db, []⟩ (World.shut ⟨d, db, []⟩) := by
  rw [World.Closes]
  have hignore : ∀ d db, ignore call ⟨d, db, []⟩ = .ok () ⟨d, db, []⟩ := fun _ _ => rfl
  cases hactive : db.activeFile with
  | none =>
    simp only [close, bind_apply, getDB_apply, hopen, hactive, Bool.false_eq_true, if_false,
      ne_eq, not_true_eq_false, modifyDB_apply, pure_apply, releaseWriterLock, hlock, if_true,
      hignore, modifyDisk_apply, World.shut]
    rfl
  | opened =>
    have honActive : attempt (onActive call) ⟨d, db, []⟩ = .ok none ⟨d, db, []⟩ :=
      attempt_of_ok (onActive_opened (by simp [hactive]))
    simp only [close, bind_apply, getDB_apply, hopen, hactive, Bool.false_eq_true, if_false,
      ne_eq, reduceCtorEq, not_false_eq_true, if_true, honActive, modifyDB_apply, pure_apply,
      releaseWriterLock, hlock, hignore, modifyDisk_apply]
    rfl
  | closed =>
    have honActive : attempt (onActive call) ⟨d, db, []⟩ = .ok (some .closed) ⟨d, db, []⟩ :=
      attempt_of_error (onActive_closed hactive)
    simp only [close, bind_apply, getDB_apply, hopen, hactive, Bool.false_eq_true, if_false,
      ne_eq, reduceCtorEq, not_false_eq_true, if_true, honActive, modifyDB_apply, pure_apply,
      releaseWriterLock, hlock, hignore, modifyDisk_apply]
    rfl

theorem close_after (hopen : db.closed = false) (hlock : db.lockFile = true) :
    World.after close ⟨d, db, []⟩ = some (World.shut ⟨d, db, []⟩) := by
  have hclose : close ⟨d, db, []⟩ = _ := World.closes_shut hopen hlock
  rw [World.after, hclose]
  by_cases hdead : db.closed = false ∧ db.activeFile = .closed
  · rw [if_pos hdead]
  · rw [if_neg hdead]

/-- What a call does to the segments, to the map and to the state. A write through a closed handle
does nothing. -/
inductive Effect (segs : Nat → Option Segment) (m : Bytes → Option Bytes) (w : World) :
    Event → (Nat → Option Segment) → (Bytes → Option Bytes) → World → Prop
  | refused {e : Event} (h : w.db.closed = true ∧ (∀ opts, e ≠ .open opts) ∨
      (∃ ts key, e = .put ts key tombstoneValue) ∨ w.db.activeFile = .closed) :
      Effect segs m w e segs m w
  | wrote {e : Event} {r : Record} {rs : List Record} {segs' : Nat → Option Segment} {w' : World}
      (he : e.writes = some r) (ha : Active segs w.db rs)
      (happ : Appended segs w.disk w.db rs r segs' w') : Effect segs m w e segs' (r.effect m) w'
  | merged {rs : List Record} {out : Nat → Option Segment} {d' : Disk} {db' : DB}
      (ha : Active segs w.db rs) (hm : Merged segs w.disk w.db out d' db') :
      Effect segs m w .merge (mergedSegs segs out w.db.activeFileID) m ⟨d', db', []⟩
  | closed {rs : List Record} (ha : Active segs w.db rs) : Effect segs m w .close segs m w.shut
  | opened {opts : OpenOptions} {segs' : Nat → Option Segment} {m' : Bytes → Option Bytes}
      {w' : World} (hclosed : w.db.closed = true)
      (ho : Opens { opts with readWrite := true } segs w.disk segs' w') :
      Effect segs m w (.open opts) segs' m' w'
  | crashed {rec : Record} {cut : Nat} {rs rs' : List Record} {segs' : Nat → Option Segment}
      {d' : Disk} {db' : DB} (ha : Active segs w.db rs)
      (hroom : Room segs w.disk w.db rs (Int64.ofNat rec.size) segs' d' db' rs') :
      Effect segs m w (.crash rec cut)
        (Function.update segs' db'.activeFileID (some ⟨rs', rec.encode.take cut⟩)) m
        (World.die ⟨{ d' with
          data := d'.data.insert db'.activeFileID (bytesOf rs' ++ rec.encode.take cut) }, db', []⟩)

section Step

theorem Holds.top (h : Holds segs w.disk) :
    w.top ↔ ∀ id, segs id ≠ none → id ≤ w.db.activeFileID :=
  forall_congr' fun _ => imp_congr_left h.mem_keys

theorem Session.write_step (h : Session segs m w) {e : Event} (hsized : e.Sized)
    (he : e.writes = some r) (ha : Active segs w.db rs) {op : Op Unit} {w' : World}
    (hop : (∃ segs' w₁, Appended segs w.disk w.db rs r segs' w₁ ∧ op w = .ok () w₁) ∨
      ∃ w₁, op w = .error .fault w₁) (hstep : w.after op = some w') :
    ∃ segs' m', Effect segs m w e segs' m' w' ∧ Session segs' m' w' := by
  rcases hop with ⟨segs', w₁, happ, hok⟩ | hfault
  · rw [World.after_ok hok, Option.some.injEq] at hstep
    subst hstep
    exact ⟨segs', r.effect m, .wrote he ha happ, h.appended ha (hsized.legal he) happ⟩
  · rw [World.after_fault hfault] at hstep
    cases hstep

/-- With the handle closed, nothing is written. -/
theorem Session.dead_step (h : Session segs m w) {e : Event} {op : Op Unit} {w' : World}
    (hdead : w.db.activeFile = .closed) (hop : op w = .error .closed w)
    (hstep : w.after op = some w') :
    ∃ segs' m', Effect segs m w e segs' m' w' ∧ Session segs' m' w' := by
  rw [World.after_error hop (by decide), Option.some.injEq] at hstep
  subst hstep
  exact ⟨segs, m, .refused (Or.inr (Or.inr hdead)), h⟩

/-- The tail that a crash leaves, seen from the state in which the record finds room. -/
theorem Session.mends (h : Session segs m ⟨d, db, []⟩) (ha : Active segs db rs) {cut : Nat}
    (hm : World.Mends ⟨d, db, []⟩ r cut)
    (hroom : Room segs d db rs (Int64.ofNat r.size) segs' d' db' rs') :
    cut = 0 ∨ ((∀ id, segs' id ≠ none → id ≤ db'.activeFileID) ∧ ¬ r.CleanCut cut ∨
      (∃ high, segs' high ≠ none ∧ db'.activeFileID < high) ∧
        (r.CleanCut cut ∨ d'.hint[db'.activeFileID]? ≠ none)) := by
  refine hm.imp_right fun hm => ?_
  have ha' := hroom.active ha
  cases hroom with
  | stay hnot =>
    by_cases htop : World.top ⟨d, db, []⟩
    · rw [if_pos (Or.inl htop)] at hm
      exact Or.inl ⟨h.holds.top.mp htop, hm⟩
    · rw [if_neg (not_or.mpr ⟨htop, hnot⟩)] at hm
      rw [h.holds.top] at htop
      simp only [not_forall, Nat.not_le, exists_prop] at htop
      refine Or.inr ⟨htop, hm.imp_right fun hs => ?_⟩
      exact Option.isSome_iff_ne_none.mp hs
  | rotate hfull =>
    rw [if_pos (Or.inr hfull)] at hm
    refine Or.inl ⟨fun id hid => ?_, hm⟩
    exact Nat.le_of_lt_succ (ha'.below id hid)

/-- On a closed `DB` only `Open` does anything. -/
theorem Session.closed_step (h : Session segs m w) (hc : w.db.closed = true) {e : Event}
    {w' : World} (hstep : w.step e = some w') :
    ∃ segs' m', Effect segs m w e segs' m' w' ∧ Session segs' m' w' := by
  have hne : Err.closed ≠ .fault := by decide
  have hrefused : ∀ (e : Event), (∀ opts, e ≠ .open opts) → some w = some w' →
      ∃ segs' m', Effect segs m w e segs' m' w' ∧ Session segs' m' w' := by
    rintro e he hw
    obtain rfl := Option.some.inj hw
    exact ⟨segs, m, .refused (Or.inl ⟨hc, he⟩), h⟩
  cases e with
  | «open» opts =>
    obtain ⟨segs', w₁, hopens, hok⟩ := h.openWithOptions_ok hc { opts with readWrite := true } rfl
    simp only [World.step, hc, if_true, World.openDB, hok, Option.some.injEq] at hstep
    subst hstep
    obtain ⟨m', hsession⟩ := h.opens rfl hopens
    exact ⟨segs', m', .opened hc hopens, hsession⟩
  | put ts key value =>
    refine hrefused _ (by simp) (Eq.trans (World.after_error ?_ hne).symm hstep)
    simp [put, ensureOpen, bind_apply, hc]
  | delete ts key =>
    refine hrefused _ (by simp) (Eq.trans (World.after_error ?_ hne).symm hstep)
    simp [delete, ensureOpen, bind_apply, hc]
  | merge =>
    refine hrefused _ (by simp) (Eq.trans (World.after_error ?_ hne).symm hstep)
    simp [merge, mergeSnapshot, ensureOpen, bind_apply, hc]
  | close =>
    have hnoop : close w = .ok () w := by simp [close, bind_apply, hc]
    exact hrefused _ (by simp) ((World.after_ok hnoop).symm.trans hstep)
  | crash rec cut => simp [World.step, hc] at hstep

/-- The process dies in the write of a record. -/
theorem Session.crash_step (h : Session segs m ⟨d, db, []⟩) (ha : Active segs db rs) {cut : Nat}
    (hfits : r.Fits) (hmends : World.Mends ⟨d, db, []⟩ r cut) {w' : World}
    (hstep : World.step ⟨d, db, []⟩ (.crash r cut) = some w') :
    ∃ segs' m', Effect segs m ⟨d, db, []⟩ (.crash r cut) segs' m' w' ∧ Session segs' m' w' := by
  have htmp : d.tmpHint[db.activeFileID]? = none := h.tmpHint_none _
  by_cases hcut : cut < r.size
  · rw [World.step, if_pos ⟨by simp [ha.opened], hcut⟩] at hstep
    obtain ⟨w₁, h₁, hstep⟩ := Option.bind_eq_some_iff.mp hstep
    obtain ⟨w₂, h₂, hdie⟩ := Option.bind_eq_some_iff.mp hstep
    obtain ⟨_, hroomed⟩ := World.of_returned h₁
    obtain ⟨_, hwritten⟩ := World.of_returned h₂
    obtain rfl := Option.some.inj hdie
    -- the write of the record came to the file, so the handle was open
    have hlive : db.activeFile = .opened := ha.live_of_writes hroomed hwritten
    rcases makeRoom_run h.holds ha hlive htmp (Int64.ofNat r.size) with
      ⟨segs', d', db', rs', hroom, hmk⟩ | ⟨_, hfault⟩
    · obtain ⟨-, rfl⟩ := EStateM.Result.ok.inj (hmk.symm.trans hroomed)
      have h' := h.room ha hroom
      have ha' := hroom.active ha
      rcases writeActive_run h'.holds ha' (hroom.live hlive) (r.encode.take cut) with
        ⟨hsize, hok⟩ | ⟨_, hfault⟩
      · obtain ⟨-, rfl⟩ := EStateM.Result.ok.inj (hok.symm.trans hwritten)
        rw [List.length_take, Record.length_encode, Nat.min_eq_left (Nat.le_of_lt hcut)] at hsize
        exact ⟨_, m, .crashed ha hroom, h'.tear ha' hfits hcut hsize (h.mends ha hmends hroom)⟩
      · cases hfault.symm.trans hwritten
    · cases hfault.symm.trans hroomed
  · simp [World.step, hcut] at hstep

/-- What a call does, and that everything still holds after it. -/
theorem Session.step (h : Session segs m w) {e : Event} (hsized : e.Sized)
    (hcrash : ∀ rec cut, e = .crash rec cut → w.Mends rec cut) {w' : World}
    (hstep : w.step e = some w') :
    ∃ segs' m', Effect segs m w e segs' m' w' ∧ Session segs' m' w' := by
  obtain ⟨d, db, os⟩ := w
  obtain rfl : os = [] := h.calm
  have htmp : d.tmpHint[db.activeFileID]? = none := h.tmpHint_none _
  cases hc : db.closed with
  | true => exact h.closed_step hc hstep
  | false =>
    obtain ⟨hlock, rs, ha⟩ := h.opened hc
    cases e with
    | «open» opts => simp [World.step, hc] at hstep
    | put ts key value =>
      by_cases hv : value = tombstoneValue
      · subst hv
        have hrw : db.opts.readWrite = true := ha.readWrite
        have : put ts key tombstoneValue ⟨d, db, []⟩ = .error .reservedValue ⟨d, db, []⟩ := by
          simp [put, ensureOpen, mustReadWrite, bind_apply, hc, hrw]
        rw [World.step, World.after_error this (by decide), Option.some.injEq] at hstep
        subst hstep
        exact ⟨segs, m, .refused (Or.inr (Or.inl ⟨ts, key, rfl⟩)), h⟩
      · rcases ha.live_or with hlive | hdead
        · exact h.write_step hsized (by simp [Event.writes, hv]) ha
            (put_run h.holds ha hlive htmp hv ts key) hstep
        · exact h.dead_step hdead ((put_eq ha hv ts key []).trans (writeRecord_closed hdead _ _))
            hstep
    | delete ts key =>
      rcases ha.live_or with hlive | hdead
      · exact h.write_step hsized rfl ha (delete_run h.holds ha hlive htmp ts key) hstep
      · exact h.dead_step hdead ((delete_eq ha ts key []).trans (writeRecord_closed hdead _ _))
          hstep
    | merge =>
      rcases merge_run h.holds ha h.serves h.tmp with ⟨out, d', db', hm, hok⟩ | hfault
      · rw [World.step, World.after_ok hok, Option.some.injEq] at hstep
        subst hstep
        exact ⟨_, m, .merged ha hm, h.merged ha hm⟩
      · rw [World.step, World.after_fault hfault] at hstep
        cases hstep
    | close =>
      rw [World.step, close_after hc hlock, Option.some.injEq] at hstep
      subst hstep
      exact ⟨segs, m, .closed ha, h.shut rfl rfl⟩
    | crash rec cut => exact h.crash_step ha hsized.fits (hcrash rec cut rfl) hstep

/-- A call leaves no closed handle behind if it finds none. -/
theorem Effect.live {e : Event} {m' : Bytes → Option Bytes} {w' : World}
    (h : Effect segs m w e segs' m' w') (hlive : w.db.activeFile ≠ .closed) :
    w'.db.activeFile ≠ .closed := by
  cases h with
  | refused => exact hlive
  | wrote _ _ happ => exact happ.live.trans_ne (by decide)
  | merged ha hm =>
    rw [hm.sameDB]
    exact hlive
  | closed | crashed => exact nofun
  | opened _ ho =>
    cases ho with
    | empty | scanned => exact nofun

end Step

end KvRaft.Store
