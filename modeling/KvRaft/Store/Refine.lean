import KvRaft.Store.Flights

/-! The open store is a finite map, whatever calls of `Merge` overlap with its calls: every step
keeps what `Flights` says, and from that come the places of the entries and what `Get` and
`ListKeys` return. -/

namespace KvRaft.Store

open Std

variable {segs segs' : Nat → Option Segment} {m : Bytes → Option Bytes} {d : Disk} {db : DB}
  {merges : Nat → Option Merging} {i : Nat} {x : Merging} {s s₀ s' : Shared} {c : Call}
  {calls : List Call}

/-- What the next step of a call of `Merge` can do, with the reason it could and the segments that
it leaves. -/
inductive Resumes (segs : Nat → Option Segment) (m : Bytes → Option Bytes) (d : Disk) (db : DB) :
    Merging → (Nat → Option Segment) → Option Merging × World → Prop
  | published {run : MergeRun} {out : Nat → Option Segment} {d' : Disk} {readers : List Nat}
      (hf : Flying segs m ⟨d, db, []⟩ run out []) (hp : Published d run out d') :
      Resumes segs m d db (.next run []) (publishedSegs segs run out)
        (none, ⟨d', { db with keydir := redirect run db.keydir, readers := readers }, []⟩)
  | abandoned {run : MergeRun} {keys : List Bytes} :
      Resumes segs m d db (.next run keys) segs (none, ⟨d.clean run.mergedFiles, db, []⟩)
  | found {run : MergeRun} {out : Nat → Option Segment} {e : KeyDirEntry} {r : Record}
      {keys : List Bytes} (hf : Flying segs m ⟨d, db, []⟩ run out (r.key :: keys))
      (he : run.snapshot[r.key]? = some e) (hat : At segs e r) (ht : r.tombstone = false) :
      Resumes segs m d db (.next run (r.key :: keys)) segs
        (some (.found run r.key r keys), ⟨d, db.reading e.fileID, []⟩)
  | placed {run run' : MergeRun} {out : Nat → Option Segment} {key : Bytes} {r : Record}
      {keys : List Bytes} {f : MergeFile} {d' : Disk} {db' : DB}
      (hf : Flying segs m ⟨d, db, []⟩ run out (key :: keys))
      (hr : InHand run ⟨d, db, []⟩ m key r) (ht : Target d db run run' f d' db') :
      Resumes segs m d db (.found run key r keys) segs
        (some (.placed run' f key r keys), ⟨d', db', []⟩)
  | stored {run : MergeRun} {out : Nat → Option Segment} {key : Bytes} {r : Record}
      {keys : List Bytes} {f : MergeFile} {rs : List Record}
      (hf : Flying segs m ⟨d, db, []⟩ run out (key :: keys))
      (hr : InHand run ⟨d, db, []⟩ m key r) (hout : out f.fileID = some { records := rs })
      (hsize : (bytesOf (rs ++ [r])).length ≤ maxFileSize) :
      Resumes segs m d db (.placed run f key r keys) segs
        (some (.next (storedRun run f.fileID rs r) keys), ⟨storedDisk d f.fileID rs r, db, []⟩)

theorem Flights.resumes {p : Option Merging × World} (h : Flights segs m ⟨⟨d, db, []⟩, merges⟩)
    (hx : merges i = some x) (hstep : x.resume ⟨d, db, []⟩ = some p) :
    ∃ segs', Resumes segs m d db x segs' p := by
  obtain ⟨rs, ha⟩ := h.steady.active
  have hopen : db.closed = false := ha.opened
  obtain ⟨out, hflies⟩ := h.flies i x hx
  cases x with
  | next run keys =>
    have hf : Flying segs m ⟨d, db, []⟩ run out keys := hflies
    cases keys with
    | nil =>
      obtain ⟨d', readers, hp, hok⟩ := mergePublish_run hf.copies hopen ha.readWrite
      rw [Merging.resume, World.part_ok _ hok, Option.some.injEq] at hstep
      subst hstep
      exact ⟨_, .published hf hp⟩
    | cons key keys =>
      obtain ⟨-, e, he⟩ := hf.ahead key List.mem_cons_self
      by_cases hfile : segs e.fileID = none
      · have hgone : d.data[e.fileID]? = none := by rw [h.steady.holds.data, hfile]; rfl
        obtain ⟨err, herr, hread⟩ := mergeRead_removed hopen he hgone
        rw [Merging.resume, World.part_error _ herr hread, Option.some.injEq] at hstep
        subst hstep
        exact ⟨_, .abandoned⟩
      · obtain ⟨r, hat, rfl, ht⟩ := (hf.source key e he).2 hfile
        rw [Merging.resume, World.part_ok _ (mergeRead_run h.steady.holds hopen he hat ht),
          Option.some.injEq] at hstep
        subst hstep
        exact ⟨_, .found hf he hat ht⟩
  | found run key r keys =>
    obtain ⟨hf, hr⟩ := hflies
    have hnext : db.nextFileID ≠ 0 := Nat.ne_of_gt (Nat.zero_lt_of_lt ha.active_lt)
    rcases mergeAllocate_run (d := d) hopen hnext run key r with
      ⟨run', f, d', db', ht, hok⟩ | ⟨-, hfault⟩
    · rw [Merging.resume, World.part_ok _ hok, Option.some.injEq] at hstep
      subst hstep
      exact ⟨_, .placed hf hr ht⟩
    · rw [Merging.resume, World.part_fault _ hfault] at hstep
      cases hstep
  | placed run f key r keys =>
    obtain ⟨hf, hr, hcur⟩ := hflies
    obtain ⟨rs', hout, -⟩ := hf.copies.current f hcur
    obtain rfl := hr.key
    rcases mergeStore_run db hf.copies hcur hout hr.tombstone with ⟨hsize, hok⟩ | hfault
    · rw [Merging.resume, World.part_ok _ hok, Option.some.injEq] at hstep
      subst hstep
      exact ⟨_, .stored hf hr hout hsize⟩
    · rw [Merging.resume, World.part_fault _ hfault] at hstep
      cases hstep

/-- What the call does to the map. Through a handle that is closed nothing is written. -/
def Shared.effect (s : Shared) (m : Bytes → Option Bytes) (c : Call) : Bytes → Option Bytes :=
  if s.world.db.activeFile = .closed then m else c.effect m

theorem Shared.effect_eq_self (h : c.effect m = m) : s.effect m c = m := by
  rw [Shared.effect, h, ite_self]

/-- What a call can do, with the reason it could: nothing that matters, an append, a descriptor that
is opened, or a step of a call of `Merge`. -/
inductive Stepped (segs : Nat → Option Segment) (m : Bytes → Option Bytes) (s : Shared) (c : Call) :
    (Nat → Option Segment) → Shared → Prop
  | same (hm : s.effect m c = m) : Stepped segs m s c segs s
  | wrote {r : Record} {rs : List Record} {segs' : Nat → Option Segment} {w : World}
      (hm : s.effect m c = r.effect m) (hr : r.Legal) (ha : Active segs s.world.db rs)
      (happ : Appended segs s.world.disk s.world.db rs r segs' w) :
      Stepped segs m s c segs' { s with world := w }
  | read (hm : s.effect m c = m) (id : Nat) :
      Stepped segs m s c segs { s with world := ⟨s.world.disk, s.world.db.reading id, []⟩ }
  | began {i : Nat} (hm : s.effect m c = m) (hnew : s.merges i = none) (x : Option Merging)
      (hx : ∀ y ∈ x, y = .next (startRun s.world.disk s.world.db)
        (startRun s.world.disk s.world.db).snapshot.keys) :
      Stepped segs m s c segs (s.goOn i (x, s.world))
  | resumed {i : Nat} {x : Merging} {segs' : Nat → Option Segment} {p : Option Merging × World}
      (hm : s.effect m c = m) (hx : s.merges i = some x)
      (hr : Resumes segs m s.world.disk s.world.db x segs' p) :
      Stepped segs m s c segs' (s.goOn i p)

/-- A call that writes `r`, if its handle is open. -/
theorem Stepped.of_write {r : Record} {rs : List Record} (hm : c.effect m = r.effect m)
    (hr : r.Legal) (ha : Active segs db rs) (h : Holds segs d)
    (htmp : d.tmpHint[db.activeFileID]? = none)
    (hstep : (World.after (writeRecord r) ⟨d, db, []⟩).map (Shared.mk · merges) = some s') :
    ∃ segs', Stepped segs m ⟨⟨d, db, []⟩, merges⟩ c segs' s' := by
  rcases ha.live_or with hlive | hdead
  · rcases writeRecord_run h ha hlive htmp r with ⟨segs', w, happ, hok⟩ | hfault
    · rw [World.after_ok hok, Option.map_some, Option.some.injEq] at hstep
      subst hstep
      have hne : db.activeFile ≠ .closed := hlive.trans_ne (by decide)
      exact ⟨segs', .wrote (by rw [Shared.effect, if_neg hne, hm]) hr ha happ⟩
    · rw [World.after_fault hfault] at hstep
      cases hstep
  · rw [World.after, writeRecord_closed hdead, Option.map_some, Option.some.injEq] at hstep
    subst hstep
    exact ⟨segs, .same (if_pos hdead)⟩

theorem Flights.stepped (h : Flights segs m s) (hsized : c.Sized)
    (hstep : overlap.step s c = some s') : ∃ segs', Stepped segs m s c segs' s' := by
  obtain ⟨⟨d, db, os⟩, merges⟩ := s
  obtain rfl : os = [] := h.steady.calm
  obtain ⟨rs, ha⟩ := h.steady.active
  have hopen : db.closed = false := ha.opened
  have hrw : db.opts.readWrite = true := ha.readWrite
  have htmp : d.tmpHint[db.activeFileID]? = none := by
    by_contra hne
    have := (h.steady.tmp _ (Or.inr hne)).2
    rw [ha.file] at this
    cases this
  cases c with
  | put ts key value =>
    by_cases hv : value = tombstoneValue
    · subst hv
      have hrefused : put ts key tombstoneValue ⟨d, db, []⟩ =
          .error .reservedValue ⟨d, db, []⟩ := by
        simp [put, ensureOpen, mustReadWrite, bind_apply, hopen, hrw]
      change (World.after _ _).map _ = _ at hstep
      rw [World.after, hrefused, Option.map_some, Option.some.injEq] at hstep
      subst hstep
      exact ⟨segs, .same (Shared.effect_eq_self (by rw [Call.effect, if_pos rfl]))⟩
    · have hlegal : Record.Legal ⟨ts, key, value⟩ := by
        have hsize : 20 + key.length + value.length < 2 ^ 32 := hsized
        exact ⟨by change key.length < _; omega, fun _ => hsize⟩
      change (World.after _ _).map _ = _ at hstep
      rw [World.after, put_eq ha hv, ← World.after] at hstep
      refine Stepped.of_write (r := ⟨ts, key, value⟩) ?_ hlegal ha h.steady.holds htmp hstep
      simp [Call.effect, Record.effect, Record.tombstone, hv]
  | delete ts key =>
    have hlegal : Record.Legal ⟨ts, key, tombstoneValue⟩ :=
      ⟨hsized, fun ht => absurd ht (by simp [Record.tombstone])⟩
    change (World.after _ _).map _ = _ at hstep
    rw [World.after, delete_eq ha, ← World.after] at hstep
    exact Stepped.of_write rfl hlegal ha h.steady.holds htmp hstep
  | get key =>
    change (World.after _ _).map _ = _ at hstep
    cases hv : m key with
    | none =>
      rw [World.after, getValue_dead hopen h.steady.serves hv, Option.map_some,
        Option.some.injEq] at hstep
      subst hstep
      exact ⟨segs, .same (Shared.effect_eq_self rfl)⟩
    | some value =>
      obtain ⟨id, hget⟩ := getValue_live h.steady.holds hopen h.steady.serves hv
      rw [World.after_ok hget, Option.map_some, Option.some.injEq] at hstep
      subst hstep
      exact ⟨segs, .read (Shared.effect_eq_self rfl) id⟩
  | listKeys =>
    obtain rfl := Option.some.inj hstep
    exact ⟨segs, .same (Shared.effect_eq_self rfl)⟩
  | merge i =>
    simp only [overlap, Shared.step] at hstep
    split at hstep
    · next hnew =>
      rw [Merging.start, World.part_ok _ (mergeSnapshot_run h.steady.holds ha), Option.map_some,
        Option.some.injEq] at hstep
      subst hstep
      refine ⟨segs, .began (Shared.effect_eq_self rfl) hnew _ fun y hy => ?_⟩
      split at hy
      · cases hy
      · exact (Option.some.inj hy).symm
    · cases hstep
  | resume i =>
    simp only [overlap, Shared.step] at hstep
    split at hstep
    · cases hstep
    · next hx =>
      obtain ⟨p, hp, rfl⟩ := Option.map_eq_some_iff.mp hstep
      obtain ⟨segs', hr⟩ := h.resumes hx hp
      exact ⟨segs', .resumed (Shared.effect_eq_self rfl) hx hr⟩

/-- The steps of a call of `Merge` leave the map as it is. -/
theorem Flights.resume {p : Option Merging × World} (h : Flights segs m ⟨⟨d, db, []⟩, merges⟩)
    (hx : merges i = some x) (hr : Resumes segs m d db x segs' p) :
    Flights segs' m (Shared.goOn ⟨⟨d, db, []⟩, merges⟩ i p) := by
  cases hr with
  | published hf hp =>
    refine h.goOn (hf.published h.steady hp _) ?_ nofun
    exact fun j y _ _ hj hy hfy => hf.published_spared hp _ hfy (h.apart j i y _ hj hy hx)
  | abandoned => exact h.abandon hx
  | found hf he hat ht =>
    refine h.goOn (h.steady.reading _) (fun j y _ _ _ _ hfy => hfy.reading _) fun y hy => ?_
    obtain rfl := Option.some.inj hy
    have hr := h.steady.inHand he hat rfl ht
    exact ⟨⟨_, hf.spared (hf.reading _), hf.inHand_spared (hf.reading _) hr⟩,
      fun j y hj hy id hid => h.apart i j _ y (Ne.symm hj) hx hy id hid⟩
  | placed hf hr ht => exact h.place hx hf hr ht
  | stored hf hr hout hsize => exact h.store hx hf hr hout hsize

theorem Flights.step (h : Flights segs m s) (hstep : Stepped segs m s c segs' s') :
    Flights segs' (s.effect m c) s' := by
  obtain ⟨⟨d, db, os⟩, merges⟩ := s
  obtain rfl : os = [] := h.steady.calm
  cases hstep with
  | same hm => exact hm.symm ▸ h
  | wrote hm hr ha happ =>
    obtain ⟨hw, hspared⟩ := h.steady.appended ha hr happ
    exact hm.symm ▸ h.beside hw hspared
  | read hm id => exact hm.symm ▸ h.beside (h.steady.reading id) fun _ _ _ hf => hf.reading id
  | began hm hnew x hx =>
    refine hm.symm ▸ h.goOn h.steady (fun j y _ _ _ _ hfy => hfy.same) fun y hy => ?_
    obtain rfl := hx y hy
    exact ⟨⟨_, h.steady.start⟩, nofun⟩
  | resumed hm hx hr => exact hm.symm ▸ h.resume hx hr

/-- No call closes the handle. -/
theorem Stepped.live (h : Stepped segs m s c segs' s') (hlive : s.world.db.activeFile ≠ .closed) :
    s'.world.db.activeFile ≠ .closed := by
  cases h with
  | same | began => exact hlive
  | wrote _ _ _ happ =>
    cases happ with
    | intro _ hopened _ => exact hopened.trans_ne (by decide)
  | read =>
    rw [DB.reading_eq]
    exact hlive
  | resumed _ _ hr =>
    cases hr with
    | published | abandoned | stored => exact hlive
    | found =>
      rw [DB.reading_eq]
      exact hlive
    | placed _ _ ht =>
      cases ht with
      | stay | fresh => exact hlive

/-- A store that has just been opened in an empty directory. -/
theorem Flights.initial (h : overlap.initial s) :
    ∃ segs, Flights segs (fun _ => none) s ∧ s.world.db.activeFile ≠ .closed := by
  obtain ⟨hmerges, opts, hopen⟩ := h
  obtain ⟨segs, hs, hclosed, hlive⟩ := World.openDB_empty hopen
  refine ⟨segs, ⟨⟨hs.calm, hs.holds, (hs.opened hclosed).2, hs.serves, ?_⟩, ?_, ?_⟩, hlive⟩
  · simp [hs.tmp.1, hs.tmp.2]
  · simp [hmerges]
  · simp [hmerges]

/-- What every run keeps: the store serves the map of its calls. -/
theorem Flights.run (h : Flights segs m s) (hlive : s.world.db.activeFile ≠ .closed)
    (hsized : ∀ c ∈ calls, c.Sized) (hrun : overlap.exec s calls = some s') :
    ∃ segs', Flights segs' (calls.foldl Call.effect m) s' ∧ s'.world.db.activeFile ≠ .closed := by
  induction calls generalizing segs m s with
  | nil => cases hrun; exact ⟨segs, h, hlive⟩
  | cons c calls ih =>
    obtain ⟨s₁, h₁, hrest⟩ := Machine.exec_cons_eq_some.mp hrun
    obtain ⟨hc, hsized⟩ := List.forall_mem_cons.mp hsized
    obtain ⟨segs₁, hstepped⟩ := h.stepped hc h₁
    have hnext := h.step hstepped
    rw [Shared.effect, if_neg hlive] at hnext
    exact ih hnext (hstepped.live hlive) hsized hrest

theorem Steady.locates {w : World} (h : Steady segs m w) {k : Bytes} {e : KeyDirEntry}
    (he : w.db.keydir[k]? = some e) : w.Locates k e := by
  obtain ⟨r, hat, hkey, ht, -⟩ := h.serves.live k e he
  have hlegal : r.Legal := by
    obtain ⟨seg, pre, post, hs, hrecs, -⟩ := hat
    exact h.holds.legal _ seg hs r (by simp [hrecs])
  obtain ⟨bs, hdata, hoff, hsize, hlen, hsection⟩ := hat.located h.holds (hlegal.2 ht)
  have hdec := Record.decode_encode hlegal.fits []
  rw [List.append_nil, Record.length_encode] at hdec
  refine ⟨bs, r, hdata, Int64.not_lt.mp hoff, ?_, ?_, hkey, ht⟩
  · rw [hsize]
    exact hlen
  · rw [hsize, hsection, hdec]

theorem Steady.listKeys {w : World} (h : Steady segs m w) :
    ∃ ks, listKeys w = .ok ks w ∧ ks.Pairwise (fun a b => compare a b = .lt) ∧
      ∀ k, k ∈ ks ↔ m k ≠ none := by
  refine ⟨w.db.keydir.keys, rfl, ExtTreeMap.ordered_keys, fun k => ?_⟩
  rw [ExtTreeMap.mem_keys, ExtTreeMap.mem_iff_isSome_getElem?]
  cases he : w.db.keydir[k]? with
  | none => simp [h.serves.dead k he]
  | some e =>
    obtain ⟨r, -, -, -, hval⟩ := h.serves.live k e he
    simp [hval]

/-- In every state that overlapping calls reach, the entries of the keydir point at records of their
keys, `Get` returns the last value put since the last delete, and `ListKeys` the live keys in
order. -/
theorem overlap_refines (h₀ : overlap.initial s₀) (hsized : ∀ c ∈ calls, c.Sized)
    (hrun : overlap.exec s₀ calls = some s) :
    (∀ (k : Bytes) e, s.world.db.keydir[k]? = some e → s.world.Locates k e) ∧
      (∀ key, s.world.lookup key = answer (Call.served calls key)) ∧
      ∃ ks, listKeys s.world = .ok ks s.world ∧ ks.Pairwise (fun a b => compare a b = .lt) ∧
        ∀ k, k ∈ ks ↔ Call.served calls k ≠ none := by
  obtain ⟨segs₀, hinit, hlive⟩ := Flights.initial h₀
  obtain ⟨segs, ⟨hs, -, -⟩, -⟩ := hinit.run hlive hsized hrun
  obtain ⟨rs, ha⟩ := hs.active
  exact ⟨fun k e he => hs.locates he,
    fun key => lookup_eq hs.calm hs.holds ha.opened hs.serves key, hs.listKeys⟩

/-- Two calls of `Merge` over the same files, with a `Put`, a `Delete` and a rotation in between;
the second one finds a file gone that the first has removed. -/
def twoMerges : List Call :=
  [.put 1 [1] [7], .put 2 [2] [8], .put 3 [3] [9], .merge 0, .merge 1, .resume 0, .resume 0,
    .resume 0, .put 4 [1] [6], .resume 1, .resume 1, .resume 0, .resume 0, .resume 0, .delete 5 [2],
    .resume 0, .resume 1, .resume 1, .get [1], .listKeys]

theorem overlap_twoMerges : ∃ s₀ s, overlap.initial s₀ ∧ overlap.exec s₀ twoMerges = some s ∧
    (∀ (k : Bytes) e, s.world.db.keydir[k]? = some e → s.world.Locates k e) ∧
      (∀ key, s.world.lookup key = answer (Call.served twoMerges key)) ∧
      ∃ ks, listKeys s.world = .ok ks s.world ∧ ks.Pairwise (fun a b => compare a b = .lt) ∧
        ∀ k, k ∈ ks ↔ Call.served twoMerges k ≠ none := by
  have hsized : ∀ c ∈ twoMerges, c.Sized := by decide
  have hrun : ((World.empty.openDB ⟨true, false, 25⟩).bind fun w =>
      overlap.exec ⟨w, fun _ => none⟩ twoMerges).isSome := by decide +kernel
  obtain ⟨s, hs⟩ := Option.isSome_iff_exists.mp hrun
  obtain ⟨w, hw, hexec⟩ := Option.bind_eq_some_iff.mp hs
  have h₀ : overlap.initial ⟨w, fun _ => none⟩ := ⟨rfl, ⟨true, false, 25⟩, hw⟩
  exact ⟨_, s, h₀, hexec, overlap_refines h₀ hsized hexec⟩

end KvRaft.Store
