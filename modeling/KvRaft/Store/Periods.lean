import KvRaft.Store.Faults
import KvRaft.Store.Refine

/-! Histories in which calls that run alone, crashes and harmless failures among them, and periods
of overlapping calls follow each other. While calls overlap, every temporary file belongs to a call
of `Merge` that has not returned; so once all have returned, the store is one that every kind of
period can go on from. -/

namespace KvRaft.Store

open Std Replay

/-- The call of `Merge` that the step belongs to. -/
def Call.merging : Call → Option Nat
  | .merge id | .resume id => some id
  | .put .. | .delete .. | .get _ | .listKeys => none

/-- Every call of `Merge` among the calls has returned. -/
def Shared.Returned (s : Shared) (calls : List Call) : Prop :=
  ∀ c ∈ calls, ∀ id ∈ c.merging, (s.merges id).isNone

instance (s : Shared) (calls : List Call) : Decidable (s.Returned calls) :=
  inferInstanceAs (Decidable (∀ _ ∈ _, _))

inductive Period
  /-- a call that runs alone -/
  | alone (t : Trial)
  /-- calls that overlap -/
  | together (calls : List Call)

def World.period (w : World) : Period → Option World
  | .alone t => w.trial t
  | .together calls =>
    if w.db.closed then none
    else (overlap.exec ⟨w, fun _ => none⟩ calls).bind fun s =>
      if s.Returned calls then some s.world else none

def periods : Machine World Period where
  initial w := w = World.empty
  step := World.period

/-- The records fit their size fields, and failures and crashes are bearable. -/
def Mild (w : World) : Period → Prop
  | .alone t => Bearable w t
  | .together calls => ∀ c ∈ calls, c.Sized

instance (w : World) (p : Period) : Decidable (Mild w p) :=
  match p with
  | .alone t => inferInstanceAs (Decidable (Bearable w t))
  | .together calls => inferInstanceAs (Decidable (∀ c ∈ calls, c.Sized))

/-- What a history keeps of an open store for the next recovery. -/
structure Lasting (segs : Nat → Option Segment) (w : World) : Prop where
  covered : Covered segs w.disk
  present : w.disk.present = true
  locked : w.db.lockFile = true
  torn : ∀ id s, segs id = some s → s.tail ≠ [] →
    (w.disk.hint[id]? ≠ none ∨ decodeDataRecord s.tail = .error .eof) ∧ id < w.db.activeFileID
  aloft : ∀ id bs, w.db.activeFileID < id → w.disk.hint[id]? = some bs →
    bs = hintBytes (recordsAt segs id)

/-- Every temporary file is one that a call of `Merge` is writing. -/
def Shared.Owned (s : Shared) : Prop :=
  ∀ id, s.world.disk.tmpData[id]? ≠ none ∨ s.world.disk.tmpHint[id]? ≠ none →
    ∃ i x, s.merges i = some x ∧ id ∈ x.run.mergedFiles

/-- The directory without its temporary files. -/
def World.swept (w : World) : World :=
  { w with disk := { w.disk with tmpData := ∅, tmpHint := ∅ } }

variable {segs segs' out : Nat → Option Segment} {m m' : Bytes → Option Bytes} {w w' : World}
  {d d' : Disk} {db db' : DB} {rs : List Record} {r : Record} {run : MergeRun} {keys : List Bytes}
  {merges : Nat → Option Merging} {i : Nat} {x : Merging} {s s' : Shared} {c : Call}
  {calls : List Call}

section Lasting

theorem Kept.lasting (h : Kept segs m w) (hopen : w.db.closed = false) : Lasting segs w where
  covered := h.session.covered
  present := h.session.present
  locked := (h.session.opened hopen).1
  torn id s hs ht := by
    rcases h.session.torn id s hs ht with ⟨htail, -, hbelow⟩ | ⟨hclosed, -⟩
    · exact ⟨htail, hbelow hopen⟩
    · rw [hopen] at hclosed
      cases hclosed
  aloft := h.aloft hopen

theorem Steady.kept (h : Steady segs m w) (hl : Lasting segs w) : Kept segs m w.swept := by
  obtain ⟨rs, ha⟩ := h.active
  refine ⟨⟨h.calm, h.holds.frame rfl rfl, hl.covered, ⟨rfl, rfl⟩, hl.present, h.serves,
    fun _ => ⟨hl.locked, rs, ha⟩, ?_, ?_, ha.numbers⟩, fun _ => hl.aloft⟩
  · intro hclosed
    have hopen : w.db.closed = false := ha.opened
    exact absurd hclosed (by simp [World.swept, hopen])
  · intro id s hs ht
    obtain ⟨htail, hlt⟩ := hl.torn id s hs ht
    exact Or.inl ⟨htail, ⟨w.db.activeFileID, by simp [ha.file], hlt⟩, fun _ => hlt⟩

/-- Neither the entries nor the temporary files matter. -/
theorem Lasting.frame (h : Lasting segs w) (hhint : w'.disk.hint = w.disk.hint)
    (hpresent : w'.disk.present = w.disk.present) (hlock : w'.db.lockFile = w.db.lockFile)
    (hactive : w'.db.activeFileID = w.db.activeFileID) : Lasting segs w' where
  covered id bs hbs := h.covered id bs (hhint ▸ hbs)
  present := hpresent.trans h.present
  locked := hlock.trans h.locked
  torn id s hs ht := by
    rw [hhint, hactive]
    exact h.torn id s hs ht
  aloft id bs hid hbs := h.aloft id bs (hactive ▸ hid) (hhint ▸ hbs)

theorem Appended.swept (h : Appended segs d db rs r segs' w) :
    Appended segs (World.swept ⟨d, db, []⟩).disk db rs r segs' w.swept := by
  cases h with
  | intro hroom hlive hsize =>
    cases hroom with
    | stay hroom => exact .intro (.stay hroom) hlive hsize
    | rotate hfull hnext => exact .intro (.rotate hfull hnext) hlive hsize

theorem Lasting.appended (h : Steady segs m w) (hl : Lasting segs w) (ha : Active segs w.db rs)
    (hr : r.Legal) (happ : Appended segs w.disk w.db rs r segs' w') : Lasting segs' w' := by
  have hkept := (h.kept hl).appended ha hr happ.swept
  have hopen : w'.db.closed = false := happ.opened ha
  exact (hkept.lasting hopen).frame rfl rfl rfl rfl

/-- The merged files have up-to-date hint files and no tail; the old files are gone with theirs. -/
theorem Lasting.published (h : Steady segs m ⟨d, db, []⟩) (hl : Lasting segs ⟨d, db, []⟩)
    (hf : Flying segs m ⟨d, db, []⟩ run out keys) (hp : Published d run out d')
    (hlock : db'.lockFile = db.lockFile) (hactive : db'.activeFileID = db.activeFileID) :
    Lasting (publishedSegs segs run out) ⟨d', db', []⟩ := by
  have hhint : ∀ id bs, d'.hint[id]? = some bs →
      (∃ s, out id = some s ∧ publishedSegs segs run out id = some s ∧ bs = hintBytes s.records) ∨
        d.hint[id]? = some bs ∧ publishedSegs segs run out id = segs id := by
    intro id bs hbs
    rw [hp.hint] at hbs
    split at hbs
    · cases hbs
    · next hold =>
      rcases Option.or_eq_some_iff.mp hbs with hnew | ⟨hnone, hbs⟩
      · obtain ⟨s, hs, rfl⟩ := Option.map_eq_some_iff.mp hnew
        exact Or.inl ⟨s, hs, by simp [publishedSegs, hold, hs], rfl⟩
      · have hout : out id = none := Option.map_eq_none_iff.mp hnone
        exact Or.inr ⟨hbs, by simp [publishedSegs, hold, hout]⟩
  refine ⟨fun id bs hbs => ?_, hp.present.trans hl.present, hlock.trans hl.locked, ?_, ?_⟩
  · rcases hhint id bs hbs with ⟨s, -, hs, rfl⟩ | ⟨hold, hsame⟩
    · exact ⟨s, s.records, hs, List.prefix_rfl, rfl⟩
    · rw [hsame]
      exact hl.covered id bs hold
  · intro id s hs ht
    obtain ⟨hold, hnew | hfile⟩ := publishedSegs_cases hs
    · exact absurd (hf.copies.clean id s hnew) ht
    · have hout : out id = none := hf.out_none h (by simp [hfile])
      have hkeep : d'.hint[id]? = d.hint[id]? := by rw [hp.hint, if_neg hold, hout]; rfl
      obtain ⟨htail, hlt⟩ := hl.torn id s hfile ht
      rw [hactive]
      exact ⟨htail.imp_left fun hne => by rwa [hkeep], hlt⟩
  · intro id bs hid hbs
    rcases hhint id bs hbs with ⟨s, -, hs, rfl⟩ | ⟨hold, hsame⟩
    · rw [recordsAt_eq hs]
    · rw [recordsAt, hsame]
      exact hl.aloft id bs (hactive ▸ hid) hold

theorem Lasting.resume {p : Option Merging × World} (h : Steady segs m ⟨d, db, []⟩)
    (hl : Lasting segs ⟨d, db, []⟩) (hr : Resumes segs m d db x segs' p) : Lasting segs' p.2 := by
  cases hr with
  | published hf hp => exact hl.published h hf hp rfl rfl
  | abandoned =>
    rw [clean_rest]
    exact hl.frame rfl rfl rfl rfl
  | found =>
    rw [DB.reading_eq]
    exact hl.frame rfl rfl rfl rfl
  | placed _ _ ht => cases ht <;> exact hl.frame rfl rfl rfl rfl
  | stored => exact hl.frame rfl rfl rfl rfl

theorem Lasting.step (h : Flights segs m s) (hl : Lasting segs s.world)
    (hstep : Stepped segs m s c segs' s') : Lasting segs' s'.world := by
  obtain ⟨⟨d, db, os⟩, merges⟩ := s
  obtain rfl : os = [] := h.steady.calm
  cases hstep with
  | same | began => exact hl
  | wrote _ hr ha happ => exact hl.appended h.steady ha hr happ
  | read _ id =>
    change Lasting segs ⟨d, db.reading id, []⟩
    rw [DB.reading_eq]
    exact hl.frame rfl rfl rfl rfl
  | resumed _ _ hr => exact hl.resume h.steady hr

end Lasting

section Owned

/-- A step of a call that is not one of `Merge`. -/
theorem Shared.Owned.beside (h : s.Owned) (hdata : w.disk.tmpData = s.world.disk.tmpData)
    (hhint : w.disk.tmpHint = s.world.disk.tmpHint) : Shared.Owned { s with world := w } := by
  intro id hid
  change w.disk.tmpData[id]? ≠ none ∨ w.disk.tmpHint[id]? ≠ none at hid
  rw [hdata, hhint] at hid
  exact h id hid

/-- A step of the call of `Merge` named `i`: what is new is its own, what it does not own stays. -/
theorem Shared.Owned.goOn {x' : Option Merging} (h : s.Owned)
    (hstep : ∀ id, w.disk.tmpData[id]? ≠ none ∨ w.disk.tmpHint[id]? ≠ none →
      (∃ x, x' = some x ∧ id ∈ x.run.mergedFiles) ∨
        (s.world.disk.tmpData[id]? ≠ none ∨ s.world.disk.tmpHint[id]? ≠ none) ∧
        ∀ x, s.merges i = some x → id ∉ x.run.mergedFiles) : (s.goOn i (x', w)).Owned := by
  intro id hid
  rcases hstep id hid with ⟨x, hx, hmem⟩ | ⟨hold, hnot⟩
  · exact ⟨i, x, by simp [Shared.goOn, hx], hmem⟩
  · obtain ⟨j, x, hx, hmem⟩ := h id hold
    have hj : j ≠ i := by
      rintro rfl
      exact hnot x hx hmem
    exact ⟨j, x, by simp [Shared.goOn, hj, hx], hmem⟩

/-- A call of `Merge` that has not returned keeps its files. -/
theorem Shared.Owned.carry {y : Merging} (h : s.Owned) (hx : s.merges i = some x)
    (hfiles : ∀ id ∈ x.run.mergedFiles, id ∈ y.run.mergedFiles)
    (hstep : ∀ id, w.disk.tmpData[id]? ≠ none ∨ w.disk.tmpHint[id]? ≠ none →
      id ∈ y.run.mergedFiles ∨
        s.world.disk.tmpData[id]? ≠ none ∨ s.world.disk.tmpHint[id]? ≠ none) :
    (s.goOn i (some y, w)).Owned := by
  refine h.goOn fun id hid => ?_
  by_cases hmem : id ∈ y.run.mergedFiles
  · exact Or.inl ⟨y, rfl, hmem⟩
  · refine Or.inr ⟨(hstep id hid).resolve_left hmem, fun z hz hz' => hmem (hfiles id ?_)⟩
    rw [hx, Option.some.injEq] at hz
    rwa [hz]

/-- A call of `Merge` that returns leaves none of its files. -/
theorem Shared.Owned.leave (h : s.Owned) (hx : s.merges i = some x)
    (hdata : ∀ id, w.disk.tmpData[id]? =
      if id ∈ x.run.mergedFiles then none else s.world.disk.tmpData[id]?)
    (hhint : ∀ id, w.disk.tmpHint[id]? =
      if id ∈ x.run.mergedFiles then none else s.world.disk.tmpHint[id]?) :
    (s.goOn i (none, w)).Owned := by
  refine h.goOn fun id hid => Or.inr ?_
  rw [hdata, hhint] at hid
  by_cases hmem : id ∈ x.run.mergedFiles
  · simp [hmem] at hid
  · rw [if_neg hmem, if_neg hmem] at hid
    refine ⟨hid, fun z hz => ?_⟩
    rw [hx, Option.some.injEq] at hz
    rwa [← hz]

theorem Shared.Owned.resume {p : Option Merging × World} (h : Shared.Owned ⟨⟨d, db, []⟩, merges⟩)
    (hx : merges i = some x) (hr : Resumes segs m d db x segs' p) :
    (Shared.goOn ⟨⟨d, db, []⟩, merges⟩ i p).Owned := by
  cases hr with
  | published hf hp => exact h.leave hx hp.tmpData hp.tmpHint
  | abandoned =>
    exact h.leave hx (fun id => (clean_getElem? _ id).1) fun id => (clean_getElem? _ id).2
  | found => exact h.carry hx (fun _ hid => hid) fun _ hid => Or.inr hid
  | placed _ _ ht =>
    cases ht with
    | stay => exact h.carry hx (fun _ hid => hid) fun _ hid => Or.inr hid
    | fresh =>
      refine h.carry hx (fun id hid => List.mem_append_left _ hid) fun id hid => ?_
      by_cases hnew : id = db.nextFileID
      · exact Or.inl (by simp [Merging.run, hnew])
      · simp only [Maps.getElem?_insert_of_ne hnew] at hid
        exact Or.inr hid
  | @stored run out key r keys f rs hf hr hout hsize =>
    refine h.carry hx (fun _ hid => hid) fun id hid => ?_
    by_cases hfile : id = f.fileID
    · refine Or.inl ((hf.copies.files id).mpr ?_)
      rw [hfile, hout]
      exact Option.some_ne_none _
    · simp only [storedDisk, Maps.getElem?_insert_of_ne hfile] at hid
      exact Or.inr hid

theorem Shared.Owned.step (hf : Flights segs m s) (h : s.Owned)
    (hstep : Stepped segs m s c segs' s') : s'.Owned := by
  obtain ⟨⟨d, db, os⟩, merges⟩ := s
  obtain rfl : os = [] := hf.steady.calm
  cases hstep with
  | same => exact h
  | wrote _ _ _ happ =>
    cases happ with
    | intro hroom _ _ => exact h.beside hroom.same.1 hroom.same.2.1
  | read => exact h.beside rfl rfl
  | began _ hnew =>
    refine h.goOn fun id hid => Or.inr ⟨hid, fun x hx => ?_⟩
    rw [hnew] at hx
    cases hx
  | resumed _ hx hr => exact h.resume hx hr

/-- When every call of `Merge` has returned, no temporary file is left. -/
theorem Shared.Owned.swept (h : s.Owned) (hreturned : s.merges = fun _ => none) :
    s.world.swept = s.world := by
  obtain ⟨⟨⟨present, data, hint, tmpData, tmpHint, other, locked⟩, db, os⟩, merges⟩ := s
  have hnone : ∀ id : Nat, ¬ (tmpData[id]? ≠ none ∨ tmpHint[id]? ≠ none) := by
    intro id hid
    obtain ⟨i, x, hx, -⟩ := h id hid
    cases hx.symm.trans (congrFun hreturned i)
  have hdata : tmpData = ∅ := ExtTreeMap.ext_getElem? fun id => by
    simpa using (not_or.mp (hnone id)).1
  have hhint : tmpHint = ∅ := ExtTreeMap.ext_getElem? fun id => by
    simpa using (not_or.mp (hnone id)).2
  rw [hdata, hhint, World.swept]

end Owned

section Runs

/-- A step of another call leaves a call of `Merge` where it is. -/
theorem overlap_step_merges (hstep : overlap.step s c = some s') (hi : c.merging ≠ some i) :
    s'.merges i = s.merges i := by
  have hgoOn : ∀ {j p}, c.merging = some j → s' = s.goOn j p → s'.merges i = s.merges i := by
    rintro j p hj rfl
    have hne : i ≠ j := by
      rintro rfl
      exact hi hj
    simp [Shared.goOn, hne]
  cases c with
  | put | delete | get | listKeys =>
    simp only [overlap, Shared.step, Option.map_eq_some_iff] at hstep
    obtain ⟨w, -, rfl⟩ := hstep
    rfl
  | merge j =>
    simp only [overlap, Shared.step] at hstep
    split at hstep
    · obtain ⟨p, -, hs⟩ := Option.map_eq_some_iff.mp hstep
      exact hgoOn rfl hs.symm
    · cases hstep
  | resume j =>
    simp only [overlap, Shared.step] at hstep
    split at hstep
    · cases hstep
    · obtain ⟨p, -, hs⟩ := Option.map_eq_some_iff.mp hstep
      exact hgoOn rfl hs.symm

theorem overlap_exec_merges (hrun : overlap.exec s calls = some s')
    (hi : ∀ c ∈ calls, c.merging ≠ some i) : s'.merges i = s.merges i := by
  induction calls generalizing s with
  | nil =>
    cases hrun
    rfl
  | cons c calls ih =>
    obtain ⟨s₁, h₁, hrest⟩ := Machine.exec_cons_eq_some.mp hrun
    obtain ⟨hc, hi⟩ := List.forall_mem_cons.mp hi
    rw [ih hrest hi, overlap_step_merges h₁ hc]

theorem Shared.Returned.merges_eq (h : s.Returned calls)
    (hrun : overlap.exec ⟨w, fun _ => none⟩ calls = some s) : s.merges = fun _ => none := by
  funext i
  by_cases hi : ∃ c ∈ calls, c.merging = some i
  · obtain ⟨c, hc, hmerging⟩ := hi
    exact Option.isNone_iff_eq_none.mp (h c hc i hmerging)
  · exact overlap_exec_merges hrun fun c hc hmerging => hi ⟨c, hc, hmerging⟩

theorem Kept.flights (h : Kept segs m w) (hopen : w.db.closed = false) :
    Flights segs m ⟨w, fun _ => none⟩ := by
  obtain ⟨-, rs, ha⟩ := h.session.opened hopen
  refine ⟨⟨h.session.calm, h.session.holds, ⟨rs, ha⟩, h.session.serves, fun id hid => ?_⟩, ?_, ?_⟩
  · simp [h.session.tmp.1, h.session.tmp.2] at hid
  · simp
  · simp

/-- What holds at the end of the calls holds besides of what is not of the calls. -/
theorem Flights.lasts (h : Flights segs m s) (hl : Lasting segs s.world) (ho : s.Owned)
    (hsized : ∀ c ∈ calls, c.Sized) (hrun : overlap.exec s calls = some s') :
    ∃ segs' m', Steady segs' m' s'.world ∧ Lasting segs' s'.world ∧ s'.Owned := by
  induction calls generalizing segs m s with
  | nil =>
    cases hrun
    exact ⟨segs, m, h.steady, hl, ho⟩
  | cons c calls ih =>
    obtain ⟨s₁, h₁, hrest⟩ := Machine.exec_cons_eq_some.mp hrun
    obtain ⟨hc, hsized⟩ := List.forall_mem_cons.mp hsized
    obtain ⟨segs₁, hstepped⟩ := h.stepped hc h₁
    exact ih (h.step hstepped) (hl.step h hstepped) (ho.step h hstepped) hsized hrest

theorem Kept.period (h : Kept segs m w) {p : Period} (hp : Mild w p)
    (hstep : periods.step w p = some w') : ∃ segs' m', Kept segs' m' w' := by
  cases p with
  | alone t => exact h.trial hp hstep
  | together calls =>
    change (if w.db.closed then none else _) = some w' at hstep
    split at hstep
    · cases hstep
    · next hclosed =>
      have hopen : w.db.closed = false := Bool.eq_false_iff.mpr hclosed
      obtain ⟨s, hrun, hend⟩ := Option.bind_eq_some_iff.mp hstep
      split at hend
      · next hreturned =>
        obtain rfl := Option.some.inj hend
        have howned : Shared.Owned ⟨w, fun _ => none⟩ := by
          intro id hid
          simp [h.session.tmp.1, h.session.tmp.2] at hid
        obtain ⟨segs', m', hsteady, hl, ho⟩ :=
          (h.flights hopen).lasts (h.lasting hopen) howned hp hrun
        have hkept := hsteady.kept hl
        rw [ho.swept (hreturned.merges_eq hrun)] at hkept
        exact ⟨segs', m', hkept⟩
      · cases hend

theorem kept_of_mild {ps : List Period} (h : periods.Along Mild World.empty ps)
    (hrun : periods.exec World.empty ps = some w) : ∃ segs m, Kept segs m w := by
  have hstep : ∀ w p w', (∃ segs m, Kept segs m w) → Mild w p →
      periods.step w p = some w' → ∃ segs m, Kept segs m w' := by
    rintro w p w' ⟨segs, m, hk⟩ hp hstep
    exact hk.period hp hstep
  exact h.invariant (I := fun w => ∃ segs m, Kept segs m w) hstep hrun ⟨_, _, Kept.empty⟩

end Runs

end KvRaft.Store
