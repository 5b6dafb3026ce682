import KvRaft.Store.Durable

/-! Recovery and the clock. In memory the last write of a key wins, while recovery compares the
recorded times first; without merges it reads the records in the order in which they were written,
so the two agree as long as no write of a live key reads the clock before the record it replaces. -/

namespace KvRaft.Store

open Std Replay

/-- The call without its reading of the clock. -/
def Event.untimed : Event → Event
  | .put _ key value => .put 0 key value
  | .delete _ key => .delete 0 key
  | e => e

/-- A write to a live key reads the clock no earlier than the write it replaces. -/
def Timely (w : World) (e : Event) : Prop :=
  ∀ r ∈ e.writes, w.db.closed = false → ∀ c ∈ w.db.keydir[r.key]?, c.timeStamp ≤ r.timestamp

instance (w : World) (e : Event) : Decidable (Timely w e) :=
  inferInstanceAs (Decidable (∀ r ∈ e.writes, _ → ∀ c ∈ w.db.keydir[r.key]?, _))

variable {segs segs' : Nat → Option Segment} {m : Bytes → Option Bytes} {d d' : Disk}
  {w w' w₀ w₀' : World} {e : Event} {es es' : List Event} {r : Record} {rs : List Record}
  {s : Served} {c : KeyDirEntry} {opts : OpenOptions}

section Scan

theorem Before.trans {a b c : KeyDirEntry} (hab : Before a b) (hbc : Before b c) : Before a c := by
  rw [Before] at hab hbc ⊢
  omega

/-- Two lists that are sorted by place and have the same updates are one. -/
theorem eq_of_before {us vs : List (Update Bytes KeyDirEntry)}
    (hu : us.Pairwise fun a b => Before a.entry b.entry)
    (hv : vs.Pairwise fun a b => Before a.entry b.entry) (h : ∀ u, u ∈ us ↔ u ∈ vs) : us = vs := by
  have hne : ∀ {a b : Update Bytes KeyDirEntry}, Before a.entry b.entry → a ≠ b := by
    rintro a _ hab rfl
    exact not_before_self _ hab
  have hperm : us.Perm vs :=
    (List.perm_ext_iff_of_nodup (hu.imp hne) (hv.imp hne)).mpr h
  refine hperm.eq_of_pairwise (fun a b _ _ hab hba => ?_) hu hv
  exact absurd (hab.trans hba) (not_before_self _)

theorem allUpdates_congr (h : Holds segs d) (h' : Holds segs' d')
    (hat : ∀ e r, At segs' e r ↔ At segs e r) : allUpdates segs' d' = allUpdates segs d := by
  refine eq_of_before (allUpdates_pairwise h') (allUpdates_pairwise h) fun u => ?_
  rw [mem_allUpdates h', mem_allUpdates h]
  simp only [hat]

/-- A record behind all others is the last one that recovery reads. -/
theorem allUpdates_last (h : Holds segs d) (h' : Holds segs' d')
    (hat : ∀ e r', At segs' e r' ↔ At segs e r' ∨ e = c ∧ r' = r)
    (hlast : ∀ e r', At segs e r' → Before e c) :
    allUpdates segs' d' = allUpdates segs d ++ [⟨r.key, c, r.tombstone⟩] := by
  refine eq_of_before (allUpdates_pairwise h') ?_ fun u => ?_
  · refine List.pairwise_append.mpr ⟨allUpdates_pairwise h, List.pairwise_singleton _ _, ?_⟩
    intro u hu v hv
    obtain ⟨r', hr', -⟩ := (mem_allUpdates h).mp hu
    rw [List.mem_singleton.mp hv]
    exact hlast _ _ hr'
  · rw [mem_allUpdates h', List.mem_append, mem_allUpdates h, List.mem_singleton]
    simp only [hat]
    constructor
    · rintro ⟨r', hold | ⟨hc, rfl⟩, hu⟩
      · exact Or.inl ⟨r', hold, hu⟩
      · rw [hc] at hu
        exact Or.inr hu
    · rintro (⟨r', hold, hu⟩ | rfl)
      · exact ⟨r', Or.inl hold, hu⟩
      · exact ⟨r, Or.inr ⟨rfl, rfl⟩, rfl⟩

end Scan

/-- The directory serves `s`, and recovery would read the keydir of the memory: the records stand in
the order of the writes, with the active file last. -/
structure Replays (s : Served) (w : World) (segs : Nat → Option Segment) : Prop where
  session : Session segs s.map w
  dated : Dated segs w
  scanned : scan ∅ (allUpdates segs w.disk) = w.db.keydir
  top : w.db.closed = false → w.top
  closed : w.db.closed = !s.opened
  live : w.db.activeFile ≠ .closed

namespace Replays

theorem empty : Replays {} World.empty fun _ => none where
  session := World.empty_session
  dated := ⟨nofun, by intro id bs; simp [World.empty]⟩
  scanned := rfl
  top := nofun
  closed := rfl
  live := nofun

/-- Recovery takes the record of a timely write for the newest of its key. -/
theorem scan_append (hscan : scan ∅ (allUpdates segs d) = w.db.keydir)
    (hkey : ∀ c' ∈ w.db.keydir[r.key]?, shouldReplace c' c = true) :
    scan ∅ (allUpdates segs d ++ [⟨r.key, c, r.tombstone⟩]) = r.index c w.db.keydir := by
  have hnot : ¬ (w.db.keydir[r.key]?).any fun current => !shouldReplace current c := by
    cases hk : w.db.keydir[r.key]? with
    | none => simp
    | some c' => simp [hkey c' (by simp [hk])]
  rw [scan, replay_append]
  change Replay.apply shouldReplace (scan ∅ (allUpdates segs d)) _ = _
  rw [hscan, Replay.apply, if_neg hnot]
  rfl

/-- Nothing stands behind the end of the active file. -/
theorem before_last (hh : Holds segs d) {db : DB} (ha : Active segs db rs)
    (htop : ∀ id, segs id ≠ none → id ≤ db.activeFileID) {r' : Record} (hat : At segs c r') :
    Before c (entryOf db.activeFileID (bytesOf rs).length r) := by
  have hle : c.fileID ≤ db.activeFileID := by
    obtain ⟨s, _, _, hs, _⟩ := hat
    exact htop c.fileID (by simp [hs])
  rcases Nat.lt_or_eq_of_le hle with hlt | heq
  · exact Or.inl hlt
  · exact Or.inr ⟨heq, hat.offset_lt hh ha heq⟩

theorem wrote (h : Replays s w segs) (ha : Active segs w.db rs)
    (happ : Appended segs w.disk w.db rs r segs' w') (hs' : Session segs' m w')
    (htimely : ∀ c ∈ w.db.keydir[r.key]?, c.timeStamp ≤ r.timestamp) :
    scan ∅ (allUpdates segs' w'.disk) = w'.db.keydir := by
  obtain ⟨hs, -, hscan, htop, -, -⟩ := h
  have htop := hs.holds.top.mp (htop ha.opened)
  obtain ⟨d, db, os⟩ := w
  obtain rfl : os = [] := hs.calm
  cases happ with
  | @intro segs₁ d₁ db₁ rs₁ hroom _ hsize =>
    have ha₁ := hroom.active ha
    have hh₁ := hroom.holds hs.holds
    have hroomed : allUpdates segs₁ d₁ = allUpdates segs d ∧ db₁.keydir = db.keydir ∧
        ∀ id, segs₁ id ≠ none → id ≤ db₁.activeFileID := by
      cases hroom with
      | stay => exact ⟨rfl, rfl, htop⟩
      | rotate =>
        exact ⟨allUpdates_congr hs.holds hh₁ (Ordered.at_empty ha.fresh), rfl,
          fun id hid => Nat.le_of_lt_succ (ha₁.below id hid)⟩
    obtain ⟨hall, hkeydir, htop₁⟩ := hroomed
    have hlast : ∀ c r', At segs₁ c r' →
        Before c (entryOf db₁.activeFileID (bytesOf rs₁).length r) :=
      fun c r' hat => before_last hh₁ ha₁ htop₁ hat
    rw [allUpdates_last (r := r) hh₁ hs'.holds (fun c r' => ⟨fun hat => hat.of_append ha₁.file, ?_⟩)
      hlast, hall]
    · change _ = r.index _ db₁.keydir
      rw [hkeydir]
      refine scan_append hscan fun c' hc' => ?_
      obtain ⟨r', hat, -⟩ := hs.serves.live r.key c' hc'
      have hgrow : At segs₁ c' r' := hat.grow (hroom.grows ha)
      have hle := Int64.le_iff_toInt_le.mp (htimely c' hc')
      rw [shouldReplace_iff]
      change c'.timeStamp.toInt < r.timestamp.toInt ∨ c'.timeStamp.toInt = r.timestamp.toInt ∧ _
      rcases Int.lt_or_eq_of_le hle with hlt | heq
      · exact Or.inl hlt
      · exact Or.inr ⟨heq, hlast c' r' hgrow⟩
    · rintro (hold | ⟨rfl, rfl⟩)
      · exact hold.grow (ha₁.grows r)
      · exact At.last segs₁ db₁.activeFileID rs₁ r'

/-- Recovery for writing finds the keydir again. -/
theorem opened (h : Replays s w segs) (hrw : opts.readWrite = true)
    (ho : Opens opts segs w.disk segs' w') (hs' : Session segs' m w') :
    scan ∅ (allUpdates segs' w'.disk) = w'.db.keydir ∧ w'.db.keydir = w.db.keydir ∧
      Grows segs segs' := by
  obtain ⟨hs, hd, hscan, -⟩ := h
  cases ho with
  | empty hnone =>
    have hkeys : w.disk.data.keys = [] := List.eq_nil_iff_forall_not_mem.mpr fun id hid =>
      hs.holds.mem_keys.mp hid (hnone id)
    have hall : scan ∅ (allUpdates segs w.disk) = ∅ := by rw [allUpdates, hkeys]; rfl
    have hgrows : Grows segs (Function.update segs 1 (some { records := [] })) := by
      refine Grows.update fun s₀ hs₀ => ?_
      rw [hnone 1] at hs₀
      cases hs₀
    rw [if_pos hrw, if_pos hrw] at hs' ⊢
    refine ⟨?_, hall.symm.trans hscan, hgrows⟩
    rw [allUpdates_congr hs.holds hs'.holds (Ordered.at_empty (hnone 1)), hall]
    rfl
  | @scanned active s₀ keydir hsome htop hkey =>
    have htrim : s₀.trim = s₀ := by rw [Segment.trim, hd.1 active s₀ hsome, decode_nil]
    have hsame : keydir = w.db.keydir := by
      rw [hkey _ ((hs.plain hd).hinted (by simp [hsome]) htop), Plain.recovered_eq]
      exact hscan
    have hsegs : Function.update segs active (some s₀) = segs := by
      rw [← hsome, Function.update_eq_self]
    rw [if_pos hrw, htrim, hsegs] at hs' ⊢
    refine ⟨?_, hsame, Grows.refl segs⟩
    rw [allUpdates_congr hs.holds hs'.holds fun _ _ => Iff.rfl, hscan]
    exact hsame.symm

theorem step (h : Replays s w segs) (hsized : e.Sized) (hsimple : e.Simple) (hg : Timely w e)
    (hstep : store.step w e = some w') : ∃ segs', Replays (s.step e) w' segs' := by
  have hcrash : ∀ rec cut, e ≠ .crash rec cut := by
    rintro rec cut rfl
    cases hsimple.2
  have hs := h.session
  obtain ⟨segs', m', he, hs'⟩ := hs.step hsized
    (fun rec cut heq => absurd heq (hcrash rec cut)) hstep
  have hd' := h.dated.step hs (orderly_of_top h.top hsized hsimple).1 he
  have htop' := he.top hs' h.top hs hsimple
  have hlive' := he.live h.live
  refine ⟨segs', ?_⟩
  cases he with
  | refused hwhy =>
    rw [Served.step_refused h.closed h.live hwhy hcrash]
    exact h
  | @wrote _ r rs _ _ hw ha happ =>
    have hopened : s.opened = true := by simpa [ha.opened] using h.closed
    rw [Served.step_wrote hopened hw]
    refine ⟨hs', hd', h.wrote ha happ hs' (hg r hw ha.opened), htop', ?_, hlive'⟩
    cases happ with
    | intro hroom _ _ => exact (hroom.active ha).opened.trans (by simp [hopened])
  | merged => cases hsimple.1
  | closed => exact ⟨hs', hd', h.scanned, htop', rfl, hlive'⟩
  | opened hc hopens =>
    obtain ⟨hscan, hkey, hgrows⟩ := h.opened rfl hopens hs'
    refine ⟨{ hs' with serves := hkey ▸ hs.serves.grow hgrows }, hd', hscan, htop', ?_, hlive'⟩
    cases hopens <;> rfl
  | crashed => cases hsimple.2

theorem run (h : Replays s w segs) (hcalls : ∀ e ∈ es, e.Sized ∧ e.Simple)
    (hg : store.Along Timely w es) (hrun : store.exec w es = some w') :
    ∃ segs', Replays (es.foldl Served.step s) w' segs' := by
  induction es generalizing s w segs with
  | nil => cases hrun; exact ⟨segs, h⟩
  | cons e es ih =>
    obtain ⟨w₁, h₁, hrest⟩ := Machine.exec_cons_eq_some.mp hrun
    obtain ⟨hguard, halong⟩ := hg.step h₁
    obtain ⟨⟨hsized, hsimple⟩, hcalls⟩ := List.forall_mem_cons.mp hcalls
    obtain ⟨segs₁, hreplays⟩ := h.step hsized hsimple hguard h₁
    exact ih hreplays hcalls halong hrest

/-- Closing the directory and opening it again, for reading or for writing. -/
theorem reopens (h : Replays s w₀ segs) (hclose : store.step w₀ .close = some w)
    (opts : OpenOptions) :
    ∃ w', openWithOptions opts w = .ok () w' ∧ w'.db.keydir = w₀.db.keydir ∧
      (∀ key, w'.lookup key = answer (s.map key)) ∧
      (w₀.db.closed = false → ∀ key, w'.lookup key = w₀.lookup key) := by
  obtain ⟨segs', h'⟩ := h.step (e := .close) trivial ⟨rfl, rfl⟩ (fun r hr => by cases hr) hclose
  have hcl : w.db.closed = true := h'.closed
  have hkey₀ : w.db.keydir = w₀.db.keydir := by
    obtain ⟨_, _, he, -⟩ := h.session.step (e := .close) trivial (by simp) hclose
    cases he with
    | refused => rfl
    | wrote hw => cases hw
    | closed => rfl
  obtain ⟨hs, hd, hscan, -⟩ := h'
  obtain ⟨d, db, os⟩ := w
  obtain rfl : os = [] := hs.calm
  obtain ⟨w', segs'', hok, hcalm, hkey, hopen, hholds, hgrows⟩ :=
    (hs.plain hd).opens opts (fun _ => hs.closed hcl) db
  have hlook : ∀ key, w'.lookup key = answer (s.map key) := by
    refine lookup_eq hcalm hholds hopen ?_
    rw [hkey, hscan]
    exact hs.serves.grow hgrows
  refine ⟨w', hok, (hkey.trans hscan).trans hkey₀, hlook, fun hopen₀ key => ?_⟩
  rw [hlook, lookup_eq h.session.calm h.session.holds hopen₀ h.session.serves]

end Replays

/-- What is served does not depend on the clock. -/
theorem Served.after_untimed (es : List Event) :
    Served.after (es.map Event.untimed) = Served.after es := by
  rw [Served.after, List.foldl_map, Served.after]
  congr 1
  funext s e
  cases e <;> rfl

theorem calls_of_untimed (hsame : es'.map Event.untimed = es.map Event.untimed)
    (hcalls : ∀ e ∈ es, e.Sized ∧ e.Simple) : ∀ e ∈ es', e.Sized ∧ e.Simple := by
  have huntimed : ∀ e : Event, (e.untimed.Sized ∧ e.untimed.Simple) = (e.Sized ∧ e.Simple) := by
    intro e
    cases e <;> rfl
  intro e he
  have hmem : e.untimed ∈ es.map Event.untimed := hsame ▸ List.mem_map_of_mem he
  obtain ⟨e₀, he₀, heq⟩ := List.mem_map.mp hmem
  rw [← huntimed, ← heq, huntimed]
  exact hcalls e₀ he₀

/-- Recovery does not depend on the clock: two histories of the same calls, neither with a write to
a live key whose reading lies before that of the write it replaces, are recovered as the same map,
which is the one in memory before the last `Close`. -/
theorem recovery_clock_free (hcalls : ∀ e ∈ es, e.Sized ∧ e.Simple)
    (hsame : es'.map Event.untimed = es.map Event.untimed)
    (hg : store.Along Timely World.empty es) (hg' : store.Along Timely World.empty es')
    (hrun : store.exec World.empty es = some w₀) (hrun' : store.exec World.empty es' = some w₀')
    (hclose : store.step w₀ .close = some w) (hclose' : store.step w₀' .close = some w')
    (opts : OpenOptions) :
    ∃ v v', openWithOptions opts w = .ok () v ∧ openWithOptions opts w' = .ok () v' ∧
      (∀ key, v.lookup key = v'.lookup key) ∧
      (w₀.db.closed = false → ∀ key, v.lookup key = w₀.lookup key) := by
  obtain ⟨segs, h⟩ := Replays.empty.run hcalls hg hrun
  obtain ⟨segs', h'⟩ := Replays.empty.run (calls_of_untimed hsame hcalls) hg' hrun'
  obtain ⟨v, hok, -, hlook, hmem⟩ := h.reopens hclose opts
  obtain ⟨v', hok', -, hlook', -⟩ := h'.reopens hclose' opts
  refine ⟨v, v', hok, hok', fun key => ?_, hmem⟩
  rw [hlook, hlook']
  change answer ((Served.after es).map key) = answer ((Served.after es').map key)
  rw [← Served.after_untimed es, ← hsame, Served.after_untimed]

/-- An overwrite and a delete, a rotation and a second session. -/
def clockForward : List Event :=
  [.open ⟨true, false, 25⟩, .put 1 [1] [7], .put 3 [1] [8], .close, .open ⟨true, false, 25⟩,
    .delete 5 [1], .put 2 [1] [9]]

/-- The same calls at other times. The last put reads a time before that of the delete. -/
def clockStill : List Event :=
  [.open ⟨true, false, 25⟩, .put 4 [1] [7], .put 4 [1] [8], .close, .open ⟨true, false, 25⟩,
    .delete 4 [1], .put (-1) [1] [9]]

theorem recovery_clock_free_sameCalls : ∃ w₀ w₀' w w' v v',
    store.exec World.empty clockForward = some w₀ ∧ store.exec World.empty clockStill = some w₀' ∧
    store.step w₀ .close = some w ∧ store.step w₀' .close = some w' ∧
    openWithOptions ⟨false, false, 0⟩ w = .ok () v ∧
    openWithOptions ⟨false, false, 0⟩ w' = .ok () v' ∧ ∀ key, v.lookup key = v'.lookup key := by
  have hg : store.Along Timely World.empty clockForward := by decide +kernel
  have hg' : store.Along Timely World.empty clockStill := by decide +kernel
  have hrun : ((store.exec World.empty clockForward).bind (store.step · .close)).isSome := by
    decide +kernel
  have hrun' : ((store.exec World.empty clockStill).bind (store.step · .close)).isSome := by
    decide +kernel
  obtain ⟨w, hw⟩ := Option.isSome_iff_exists.mp hrun
  obtain ⟨w', hw'⟩ := Option.isSome_iff_exists.mp hrun'
  obtain ⟨w₀, hw₀, hclose⟩ := Option.bind_eq_some_iff.mp hw
  obtain ⟨w₀', hw₀', hclose'⟩ := Option.bind_eq_some_iff.mp hw'
  obtain ⟨v, v', hok, hok', hlook, -⟩ := recovery_clock_free (by decide) (by rfl) hg hg' hw₀ hw₀'
    hclose hclose' ⟨false, false, 0⟩
  exact ⟨w₀, w₀', w, w', v, v', hw₀, hw₀', hclose, hclose', hok, hok', hlook⟩

/-- The second put of key 1 reads a time before that of the first. -/
def clockBack : List Event := [.open ⟨true, false, 0⟩, .put 2 [1] [7], .put 1 [1] [8], .close]

/-- The same calls with a clock that does not go back. -/
def clockOn : List Event := [.open ⟨true, false, 0⟩, .put 1 [1] [7], .put 2 [1] [8], .close]

theorem not_recovery_clock_free : ¬ ∀ es es' w w' opts v v', (∀ e ∈ es, e.Sized ∧ e.Simple) →
    es'.map Event.untimed = es.map Event.untimed → store.exec World.empty es = some w →
    store.exec World.empty es' = some w' → openWithOptions opts w = .ok () v →
    openWithOptions opts w' = .ok () v' → ∀ key, v.lookup key = v'.lookup key := by
  intro h
  have hback : ((store.exec World.empty clockBack).bind
      (World.returned (openWithOptions ⟨false, false, 0⟩))).any
      fun v => v.lookup [1] = .ok [7] := by
    decide +kernel
  have hon : ((store.exec World.empty clockOn).bind
      (World.returned (openWithOptions ⟨false, false, 0⟩))).any
      fun v => v.lookup [1] = .ok [8] := by
    decide +kernel
  obtain ⟨v, hv, hread⟩ := Option.any_eq_true _ _ |>.mp hback
  obtain ⟨v', hv', hread'⟩ := Option.any_eq_true _ _ |>.mp hon
  obtain ⟨w, hw, hopen⟩ := Option.bind_eq_some_iff.mp hv
  obtain ⟨w', hw', hopen'⟩ := Option.bind_eq_some_iff.mp hv'
  obtain ⟨_, hok⟩ := World.of_returned hopen
  obtain ⟨_, hok'⟩ := World.of_returned hopen'
  have := h _ _ w w' _ v v' (by decide) (by rfl) hw hw' hok hok' [1]
  rw [of_decide_eq_true hread, of_decide_eq_true hread'] at this
  exact absurd this (by decide)

end KvRaft.Store
