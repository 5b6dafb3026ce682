import KvRaft.Store.Order

/-! What a directory serves after its sessions: the last value put to each key since its last
delete, and nothing else, as long as no call writes in place below a record of its key that recovery
would take for a newer one. Without merges no call does. -/

namespace KvRaft.Store

open Std

/-- What a directory should serve: a map that the calls of open sessions change. -/
structure Served where
  opened : Bool := false
  map : Bytes → Option Bytes := fun _ => none

namespace Served

def step (s : Served) : Event → Served
  | .open _ => { s with opened := true }
  | .put _ key value =>
    if s.opened ∧ value ≠ tombstoneValue then
      { s with map := Function.update s.map key (some value) }
    else s
  | .delete _ key => if s.opened then { s with map := Function.update s.map key none } else s
  | .merge => s
  | .close | .crash _ _ => { s with opened := false }

def after (es : List Event) : Served := es.foldl step {}

end Served

namespace Event

/-- The reading of the clock in a call that writes. -/
def stamp : Event → Option Int64
  | .put ts _ _ | .delete ts _ => some ts
  | _ => none

/-- Neither a merge nor a crash. -/
def Simple (e : Event) : Prop := e.isMerge = false ∧ e.isCrash = false

instance : DecidablePred Simple := fun _ => inferInstanceAs (Decidable (_ ∧ _))

end Event

/-- A record written in place finds no record of its key in a file above, unless it is a `Put` at
another time. -/
def World.Latest (w : World) (r : Record) : Prop :=
  w.db.closed = false → ¬ w.db.full (Int64.ofNat r.size) →
    ∀ p ∈ w.disk.data.toList, w.db.activeFileID < p.1 → ∀ q ∈ (records p.2).1, q.1.key = r.key →
      r.tombstone = false ∧ q.1.timestamp ≠ r.timestamp

instance (w : World) (r : Record) : Decidable (w.Latest r) :=
  inferInstanceAs (Decidable (_ → ¬ w.db.full (Int64.ofNat r.size) →
    ∀ p ∈ w.disk.data.toList, w.db.activeFileID < p.1 → ∀ q ∈ (records p.2).1, _ → _))

/-- No call lets recovery see something else than the keydir: hint files that recovery reads are up
to date, and what is written is what recovery takes for the newest. -/
def Orderly (w : World) (e : Event) : Prop := Hinting w e ∧ ∀ r ∈ e.writes, w.Latest r

instance (w : World) (e : Event) : Decidable (Orderly w e) :=
  inferInstanceAs (Decidable (_ ∧ _))

variable {segs segs' : Nat → Option Segment} {m m' : Bytes → Option Bytes} {w w' w₀ v : World}
  {e : Event} {es : List Event} {now : Int64} {r : Record} {s : Served} {opts : OpenOptions}

/-- A scan of the data file from its start finds the record. -/
theorem At.mem_records {d : Disk} {e : KeyDirEntry} (h : Holds segs d) (hat : At segs e r) :
    ∃ bs, (e.fileID, bs) ∈ d.data.toList ∧ (r, r.size) ∈ (records bs).1 := by
  obtain ⟨s, pre, post, hs, hrecs, -⟩ := hat
  have hdata : d.data[e.fileID]? = some s.bytes := by rw [h.data, hs]; rfl
  have hfits : ∀ r ∈ s.records, r.Fits := fun r hr => (h.legal _ s hs r hr).fits
  exact ⟨s.bytes, ExtTreeMap.mem_toList_iff_getElem?_eq_some.mpr hdata,
    Store.mem_records hfits (by simp [hrecs]) s.tail⟩

theorem World.Latest.newest (h : w.Latest r) (hs : Session segs m w)
    (hopen : w.db.closed = false) (hin : ¬ w.db.full (Int64.ofNat r.size)) :
    Newest segs w.db.activeFileID r := by
  intro e r' hat hlt hkey
  obtain ⟨bs, hmem, hread⟩ := hat.mem_records hs.holds
  exact h hopen hin _ hmem hlt _ hread hkey

theorem Event.stamp_of_writes (h : e.writes = some r) : e.stamp = some r.timestamp := by
  cases e with
  | put ts key value =>
    simp only [Event.writes] at h
    split at h
    · cases h
    · obtain rfl := Option.some.inj h
      rfl
  | delete =>
    obtain rfl := Option.some.inj h
    rfl
  | «open» | merge | close | crash => cases h

/-- A call that is refused changes nothing of what is served. -/
theorem Served.step_refused (hclosed : w.db.closed = !s.opened)
    (hlive : w.db.activeFile ≠ .closed)
    (hwhy : w.db.closed = true ∧ (∀ opts, e ≠ .open opts) ∨
      (∃ ts key, e = .put ts key tombstoneValue) ∨ w.db.activeFile = .closed)
    (hcrash : ∀ rec cut, e ≠ .crash rec cut) : s.step e = s := by
  rcases hwhy with ⟨hc, hnot⟩ | ⟨ts, key, rfl⟩ | hdead
  · have hopened : s.opened = false := by rw [hc] at hclosed; simpa using hclosed.symm
    cases e with
    | «open» opts => exact absurd rfl (hnot opts)
    | put | delete => simp [Served.step, hopened]
    | merge => rfl
    | close => rw [Served.step, ← hopened]
    | crash rec cut => exact absurd rfl (hcrash rec cut)
  · simp [Served.step]
  · exact absurd hdead hlive

theorem Served.step_wrote (hopened : s.opened = true) (h : e.writes = some r) :
    s.step e = { s with map := r.effect s.map } := by
  cases e with
  | put ts key value =>
    simp only [Event.writes] at h
    split at h
    · cases h
    · next hv =>
      obtain rfl := Option.some.inj h
      simp [Served.step, hopened, hv, Record.effect, Record.tombstone]
  | delete =>
    obtain rfl := Option.some.inj h
    simp [Served.step, hopened, Record.effect, Record.tombstone]
  | «open» | merge | close | crash => cases h

/-- The directory and the keydir agree with what should be served, and recovery would find it. -/
structure Tracks (s : Served) (w : World) (now : Int64) (segs : Nat → Option Segment) : Prop where
  session : Session segs s.map w
  dated : Dated segs w
  ordered : Ordered segs w now
  closed : w.db.closed = !s.opened
  live : w.db.activeFile ≠ .closed

namespace Tracks

theorem empty (now : Int64) : Tracks {} World.empty now fun _ => none where
  session := World.empty_session
  dated := ⟨by simp, by intro id bs; simp [World.empty]⟩
  ordered := by
    have hno : ∀ e r, ¬ At (fun _ => none) e r := by rintro e r ⟨s, _, _, hs, _⟩; cases hs
    refine ⟨⟨fun k e => ?_, fun k _ => Or.inl fun e r hat => absurd hat (hno e r)⟩,
      fun e r hat => absurd hat (hno e r), fun hc => by cases hc⟩
    simp [World.empty, newDB]
  closed := rfl
  live := nofun

theorem step (h : Tracks s w now segs) (hg : Orderly w e)
    (hts : ∀ t ∈ e.stamp, now.toInt ≤ t.toInt) (hstep : store.step w e = some w') :
    ∃ segs', Tracks (s.step e) w' (e.stamp.getD now) segs' := by
  obtain ⟨hs, hd, ho, hclosed, hlive⟩ := h
  obtain ⟨segs', m', he, hs'⟩ := hs.step hg.1.1
    (by rintro rec cut rfl; exact hg.1.no_crash.elim) hstep
  have hd' := hd.step hs hg.1 he
  have hlive' := he.live hlive
  refine ⟨segs', ?_⟩
  cases he with
  | refused hwhy =>
    rw [Served.step_refused hclosed hlive hwhy fun rec cut he => (he ▸ hg.1).no_crash.elim]
    refine ⟨hs, hd, ho.mono ?_, hclosed, hlive⟩
    cases hst : e.stamp with
    | none => exact Int.le_refl _
    | some t => exact hts t hst
  | @wrote _ r rs _ _ hw ha happ =>
    have hopened : s.opened = true := by rw [ha.opened] at hclosed; simpa using hclosed.symm
    have hstamp := Event.stamp_of_writes hw
    rw [Served.step_wrote hopened hw, hstamp]
    refine ⟨hs', hd', ho.appended hs ha happ (hts _ hstamp) fun hin => ?_, ?_, hlive'⟩
    · exact (hg.2 r hw).newest hs ha.opened hin
    · cases happ with
      | intro hroom _ _ => exact (hroom.active ha).opened.trans (by simp [hopened])
  | merged ha hm =>
    refine ⟨hs', hd', ho.merged ha hm, ?_, hlive'⟩
    rw [hm.sameDB]
    exact hclosed
  | closed ha => exact ⟨hs', hd', ho.shut, rfl, hlive'⟩
  | opened hc hopens =>
    obtain ⟨ho', hkey, hgrows⟩ := ho.opened hs hd rfl hopens
    refine ⟨{ hs' with serves := hkey ▸ hs.serves.grow hgrows }, hd', ho', ?_, hlive'⟩
    cases hopens <;> rfl
  | crashed => exact hg.1.no_crash.elim

theorem run (h : Tracks s w now segs) (hg : store.Along Orderly w es)
    (hclock : (es.filterMap Event.stamp).Pairwise (· ≤ ·))
    (hts : ∀ t ∈ es.filterMap Event.stamp, now.toInt ≤ t.toInt)
    (hrun : store.exec w es = some w') :
    ∃ now' segs', Tracks (es.foldl Served.step s) w' now' segs' := by
  induction es generalizing s w now segs with
  | nil => cases hrun; exact ⟨now, segs, h⟩
  | cons e es ih =>
    obtain ⟨w₁, h₁, hrest⟩ := Machine.exec_cons_eq_some.mp hrun
    obtain ⟨hguard, halong⟩ := hg.step h₁
    have hfirst : ∀ t ∈ e.stamp, now.toInt ≤ t.toInt := fun t ht =>
      hts t (List.mem_filterMap.mpr ⟨e, List.mem_cons_self, ht⟩)
    obtain ⟨segs₁, htracks⟩ := h.step hguard hfirst h₁
    cases hst : e.stamp with
    | none =>
      rw [List.filterMap_cons_none hst] at hclock hts
      rw [hst] at htracks
      exact ih htracks halong hclock hts hrest
    | some t =>
      rw [List.filterMap_cons_some hst] at hclock
      rw [hst] at htracks
      obtain ⟨hall, hclock⟩ := List.pairwise_cons.mp hclock
      exact ih htracks halong hclock (fun t' ht' => Int64.le_iff_toInt_le.mp (hall t' ht')) hrest

/-- Opening the directory after the last session, for reading or for writing. -/
theorem reopens (h : Tracks s w now segs) (hc : w.db.closed = true) (opts : OpenOptions) :
    ∃ w', openWithOptions opts w = .ok () w' ∧ w'.db.keydir = w.db.keydir ∧
      ∀ key, w'.lookup key = answer (s.map key) := by
  obtain ⟨hs, hd, ho, -, -⟩ := h
  obtain ⟨d, db, os⟩ := w
  obtain rfl : os = [] := hs.calm
  obtain ⟨w', segs', hok, hcalm, hkey, hopen, hholds, hgrows⟩ :=
    (hs.plain hd).opens opts (fun _ => hs.closed hc) db
  rw [ho.settled.scan_eq hs.holds hs.serves] at hkey
  refine ⟨w', hok, hkey, lookup_eq hcalm hholds hopen ?_⟩
  rw [hkey]
  exact hs.serves.grow hgrows

end Tracks

theorem tracks_of_orderly (hg : store.Along Orderly World.empty es)
    (hclock : (es.filterMap Event.stamp).Pairwise (· ≤ ·))
    (hrun : store.exec World.empty es = some w) :
    ∃ now segs, Tracks (Served.after es) w now segs :=
  (Tracks.empty Int64.minValue).run hg hclock
    (fun t _ => Int64.le_iff_toInt_le.mp (Int64.minValue_le t)) hrun

section Simple

/-- Without merges the active file has the highest ID. -/
theorem Effect.top (hs' : Session segs' m' w') (htop : w.db.closed = false → w.top)
    (hs : Session segs m w) (he : Effect segs m w e segs' m' w') (hsimple : e.Simple) :
    w'.db.closed = false → w'.top := by
  intro hopen
  rw [hs'.holds.top]
  cases he with
  | refused => exact hs.holds.top.mp (htop hopen)
  | wrote hw ha happ =>
    cases happ with
    | @intro segs₁ d₁ db₁ rs₁ hroom hsize =>
      have ha₁ := hroom.active ha
      have hle : ∀ id, segs₁ id ≠ none → id ≤ db₁.activeFileID := by
        cases hroom with
        | stay => exact hs.holds.top.mp (htop ha.opened)
        | rotate => exact fun id hid => Nat.le_of_lt_succ (ha₁.below id hid)
      intro id hid
      change id ≤ db₁.activeFileID
      by_cases hact : id = db₁.activeFileID
      · exact Nat.le_of_eq hact
      · rw [Function.update_of_ne hact] at hid
        exact hle id hid
  | merged => cases hsimple.1
  | closed => cases hopen
  | opened hc hopens =>
    cases hopens with
    | empty hnone =>
      intro id hid
      change id ≤ 1
      by_cases hone : id = 1
      · exact Nat.le_of_eq hone
      · rw [if_pos rfl, Function.update_of_ne hone] at hid
        exact absurd (hnone id) hid
    | @scanned active s keydir hsome hmax hkey =>
      intro id hid
      change id ≤ active
      by_cases hact : id = active
      · exact Nat.le_of_eq hact
      · rw [if_pos rfl, Function.update_of_ne hact] at hid
        exact hmax id hid
  | crashed => cases hsimple.2

theorem orderly_of_top (htop : w.db.closed = false → w.top) (hsized : e.Sized)
    (hsimple : e.Simple) : Orderly w e := by
  have hunhinted : ∀ r, w.Unhinted r := fun r hopen _ => Or.inl (htop hopen)
  refine ⟨⟨hsized, ?_⟩, fun r _ hopen _ p hp hlt => ?_⟩
  · cases e with
    | put ts key value => exact fun _ => hunhinted _
    | delete ts key => exact hunhinted _
    | merge => cases hsimple.1
    | crash => cases hsimple.2
    | «open» | close => trivial
  · have hkey : p.1 ∈ w.disk.data.keys := by
      rw [ExtTreeMap.mem_keys, ← ExtTreeMap.isSome_getElem?_iff_mem,
        ExtTreeMap.mem_toList_iff_getElem?_eq_some.mp hp]
      rfl
    exact absurd hlt (Nat.not_lt.mpr (htop hopen p.1 hkey))

/-- Sessions without merges and crashes are orderly. -/
theorem along_of_simple (hsized : ∀ e ∈ es, e.Sized) (hsimple : ∀ e ∈ es, e.Simple) :
    store.Along Orderly World.empty es := by
  refine Machine.Along.of_invariant (Q := fun e => e.Sized ∧ e.Simple)
    (I := fun w => ∃ segs m, Session segs m w ∧ (w.db.closed = false → w.top)) ?_ ?_
    ⟨_, _, World.empty_session, nofun⟩ fun e he => ⟨hsized e he, hsimple e he⟩
  · rintro w e ⟨_, _, -, htop⟩ ⟨hsized, hsimple⟩
    exact orderly_of_top htop hsized hsimple
  · rintro w e w' ⟨segs, m, hs, htop⟩ ⟨hsized, hsimple⟩ hstep
    obtain ⟨segs', m', he, hs'⟩ := hs.step hsized
      (by rintro rec cut rfl; exact nomatch hsimple.2) hstep
    exact ⟨segs', m', hs', he.top hs' htop hs hsimple⟩

end Simple

/-- The `DB` after a `Close`. -/
theorem Tracks.close (h : Tracks s w₀ now segs) (hclose : store.step w₀ .close = some w) :
    w.db.closed = true ∧ w.db.keydir = w₀.db.keydir := by
  obtain ⟨segs', m', he, -⟩ := h.session.step (e := .close) trivial (by simp) hclose
  cases he with
  | refused hwhy =>
    rcases hwhy with ⟨hc, -⟩ | ⟨_, _, heq⟩ | hdead
    · exact ⟨hc, rfl⟩
    · cases heq
    · exact absurd hdead h.live
  | wrote hw => cases hw
  | closed => exact ⟨rfl, rfl⟩

/-- What opening the directory finds after an orderly history and a last `Close`. -/
theorem reopens_of_orderly (hg : store.Along Orderly World.empty es)
    (hclock : (es.filterMap Event.stamp).Pairwise (· ≤ ·))
    (hrun : store.exec World.empty es = some w₀) (hclose : store.step w₀ .close = some w)
    (opts : OpenOptions) :
    ∃ w', openWithOptions opts w = .ok () w' ∧ w'.db.keydir = w₀.db.keydir ∧
      ∀ key, w'.lookup key = answer ((Served.after es).map key) := by
  obtain ⟨now, segs, h⟩ := tracks_of_orderly hg hclock hrun
  obtain ⟨hc, hkey⟩ := h.close hclose
  obtain ⟨_, hclosed⟩ := h.step (e := .close) ⟨⟨trivial, trivial⟩, nofun⟩ nofun hclose
  obtain ⟨w', hok, hsame, hlook⟩ := hclosed.reopens hc opts
  exact ⟨w', hok, hsame.trans hkey, hlook⟩

/-- What is written without merges is what opening the directory finds: the same keydir, and behind
it the last value put to each key since its last delete. -/
theorem openWithOptions_durable (hsized : ∀ e ∈ es, e.Sized) (hsimple : ∀ e ∈ es, e.Simple)
    (hclock : (es.filterMap Event.stamp).Pairwise (· ≤ ·))
    (hrun : store.exec World.empty es = some w₀) (hclose : store.step w₀ .close = some w)
    (opts : OpenOptions) :
    ∃ w', openWithOptions opts w = .ok () w' ∧ w'.db.keydir = w₀.db.keydir ∧
      ∀ key, w'.lookup key = answer ((Served.after es).map key) :=
  reopens_of_orderly (along_of_simple hsized hsimple) hclock hrun hclose opts

/-- Two sessions, the first with a rotation, the second with a delete and a put at the same time. -/
def twoSessions : List Event :=
  [.open ⟨true, false, 25⟩, .put 1 [1] [7], .put 1 [2] [8], .close, .open ⟨true, false, 0⟩,
    .delete 2 [1], .put 2 [1] [9], .delete 2 [2]]

theorem openWithOptions_twoSessions : ∃ w₀ w w', store.exec World.empty twoSessions = some w₀ ∧
    store.step w₀ .close = some w ∧ openWithOptions ⟨false, false, 0⟩ w = .ok () w' ∧
      w'.db.keydir = w₀.db.keydir ∧
      ∀ key, w'.lookup key = answer ((Served.after twoSessions).map key) := by
  have hsized : ∀ e ∈ twoSessions, e.Sized := by decide
  have hsimple : ∀ e ∈ twoSessions, e.Simple := by decide
  have hclock : (twoSessions.filterMap Event.stamp).Pairwise (· ≤ ·) := by decide
  have hrun : ((store.exec World.empty twoSessions).bind (store.step · .close)).isSome := by
    decide +kernel
  obtain ⟨w, hw⟩ := Option.isSome_iff_exists.mp hrun
  obtain ⟨w₀, hw₀, hclose⟩ := Option.bind_eq_some_iff.mp hw
  obtain ⟨w', h⟩ := openWithOptions_durable hsized hsimple hclock hw₀ hclose ⟨false, false, 0⟩
  exact ⟨w₀, w, w', hw₀, hclose, h⟩

/-- Merges do not change what should be served. -/
theorem Served.after_erase (es : List Event) :
    Served.after (es.filter (! ·.isMerge)) = Served.after es := by
  rw [Served.after, List.foldl_filter, Served.after]
  congr 1
  funext s e
  cases e <;> rfl

/-- Erasing the merges of an orderly history changes nothing of what is recovered. -/
theorem openWithOptions_mergeErased (h : store.Along Orderly World.empty es)
    (hclock : (es.filterMap Event.stamp).Pairwise (· ≤ ·))
    (hrun : store.exec World.empty (es ++ [.close]) = some w)
    (herased : store.exec World.empty (es.filter (! ·.isMerge) ++ [.close]) = some v)
    (opts : OpenOptions) :
    ∃ w' v', openWithOptions opts w = .ok () w' ∧ openWithOptions opts v = .ok () v' ∧
      ∀ key, w'.lookup key = v'.lookup key := by
  obtain ⟨w₀, hw₀, hclose⟩ := Machine.exec_append_eq_some.mp hrun
  obtain ⟨v₀, hv₀, hclose'⟩ := Machine.exec_append_eq_some.mp herased
  rw [Machine.exec_singleton] at hclose hclose'
  have hcalls : ∀ e ∈ es, e.Sized ∧ e.isCrash = false := by
    refine h.forall_mem (fun w e hg => ⟨hg.1.1, ?_⟩) hw₀
    cases e with
    | crash => exact hg.1.no_crash.elim
    | _ => rfl
  have hrest : ∀ e ∈ es.filter (! ·.isMerge), e.Sized ∧ e.Simple := by
    intro e he
    obtain ⟨hmem, hmerge⟩ := List.mem_filter.mp he
    exact ⟨(hcalls e hmem).1, by simpa using hmerge, (hcalls e hmem).2⟩
  have hclock' := hclock.sublist ((List.filter_sublist (p := (! ·.isMerge))).filterMap Event.stamp)
  obtain ⟨w', hok, -, hlook⟩ := reopens_of_orderly h hclock hw₀ hclose opts
  obtain ⟨v', hok', -, hlook'⟩ := reopens_of_orderly
    (along_of_simple (fun e he => (hrest e he).1) fun e he => (hrest e he).2) hclock' hv₀
    hclose' opts
  refine ⟨w', v', hok, hok', fun key => ?_⟩
  rw [hlook, hlook', Served.after_erase]

/-- A merge, a delete of the key it has copied, in a file above the copy, and a second session. -/
def deletedAbove : List Event :=
  [.open ⟨true, false, 25⟩, .put 1 [1] [7], .put 2 [2] [8], .merge, .delete 3 [1], .close,
    .open ⟨true, false, 1000⟩, .put 4 [2] [9]]

theorem openWithOptions_deletedAbove : ∃ w v w' v',
    store.exec World.empty (deletedAbove ++ [.close]) = some w ∧
    store.exec World.empty (deletedAbove.filter (! ·.isMerge) ++ [.close]) = some v ∧
    openWithOptions ⟨true, false, 0⟩ w = .ok () w' ∧
      openWithOptions ⟨true, false, 0⟩ v = .ok () v' ∧ ∀ key, w'.lookup key = v'.lookup key := by
  have h : store.Along Orderly World.empty deletedAbove := by decide +kernel
  have hclock : (deletedAbove.filterMap Event.stamp).Pairwise (· ≤ ·) := by decide
  have hrun : (store.exec World.empty (deletedAbove ++ [.close])).isSome := by decide +kernel
  have herased : (store.exec World.empty
      (deletedAbove.filter (! ·.isMerge) ++ [.close])).isSome := by decide +kernel
  obtain ⟨w, hw⟩ := Option.isSome_iff_exists.mp hrun
  obtain ⟨v, hv⟩ := Option.isSome_iff_exists.mp herased
  obtain ⟨w', v', hall⟩ := openWithOptions_mergeErased h hclock hw hv ⟨true, false, 0⟩
  exact ⟨w, v, w', v', hw, hv, hall⟩

/-- The merge puts the copy of key 1 into file 3, above the active file 2; the delete goes to
file 2, and recovery reads its tombstone before the copy. -/
def deletedBelow : List Event :=
  [.open ⟨true, false, 25⟩, .put 1 [1] [7], .put 2 [2] [8], .close, .open ⟨true, false, 1000⟩,
    .merge, .delete 3 [1]]

theorem not_openWithOptions_deletedBelow : ¬ ∀ es w v opts, (∀ e ∈ es, e.Sized ∧ ¬ e.isCrash) →
    (es.filterMap Event.stamp).Pairwise (· ≤ ·) →
    store.exec World.empty (es ++ [.close]) = some w →
    store.exec World.empty (es.filter (! ·.isMerge) ++ [.close]) = some v →
      ∃ w' v', openWithOptions opts w = .ok () w' ∧ openWithOptions opts v = .ok () v' ∧
        ∀ key, w'.lookup key = v'.lookup key := by
  intro h
  have hcalls : ∀ e ∈ deletedBelow, e.Sized ∧ ¬ e.isCrash := by decide
  have hclock : (deletedBelow.filterMap Event.stamp).Pairwise (· ≤ ·) := by decide
  have hrun : (store.exec World.empty (deletedBelow ++ [.close])).any fun w =>
      (w.returned (openWithOptions ⟨true, false, 0⟩)).any fun w' => (w'.lookup [1]).isOk := by
    decide +kernel
  have herased : (store.exec World.empty (deletedBelow.filter (! ·.isMerge) ++ [.close])).any
      fun v => (v.returned (openWithOptions ⟨true, false, 0⟩)).any fun v' =>
        ! (v'.lookup [1]).isOk := by decide +kernel
  obtain ⟨w, hw, hfound⟩ := Option.any_eq_true _ _ |>.mp hrun
  obtain ⟨v, hv, hgone⟩ := Option.any_eq_true _ _ |>.mp herased
  obtain ⟨w', v', hok, hok', hsame⟩ := h deletedBelow w v ⟨true, false, 0⟩ hcalls hclock hw hv
  rw [World.returned_ok hok, Option.any_some, hsame [1]] at hfound
  rw [World.returned_ok hok', Option.any_some, hfound] at hgone
  cases hgone

end KvRaft.Store
