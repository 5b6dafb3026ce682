import KvRaft.Store.Readers

/-! A `DB` that is open for reading beside the `DB` of another process that is open for writing. The
two share the directory and no lock, so every step of a `Get` of the reader may stand between any
two steps of the writer. The reader keeps the keydir that it has built, and the system keeps the
files that it has opened, also those that a `Merge` of the writer has removed. When the writer was
opened no data file had the largest ID, so that no file comes back under the name of another. -/

namespace KvRaft.Store

open Std Effects

variable {w w' : World} {s : Shared} {id i fileID : Nat} {key value : Bytes} {e : KeyDirEntry}

/-! ### The steps of the two processes -/

/-- Where a call of `Get` of the reader stands. -/
inductive Lookup
  | found (key : Bytes) (entry : KeyDirEntry)
  | opened (key : Bytes) (entry : KeyDirEntry)

/-- The writer, and the `DB` of the reader; `kept` has the bytes of the files that were removed
while the reader had them open. -/
structure Watching where
  shared : Shared
  db : DB
  kept : Nat → Option Bytes := fun _ => none
  gets : Nat → Option Lookup := fun _ => none

inductive WatchStep
  /-- a step of the writer -/
  | call (c : Call)
  /-- a new call of `Get`, named `j`, looks its entry up -/
  | find (j : Nat) (key : Bytes)
  | openFile (j : Nat)
  | read (j : Nat)

namespace Watching

variable (t : Watching)

/-- The directory for the reader. -/
def here : World := ⟨t.shared.world.disk, t.db, []⟩

/-- What the reader finds behind its descriptor of a file. -/
def behind (fileID : Nat) : World :=
  match t.kept fileID with
  | some bs =>
    let d := t.shared.world.disk
    ⟨{ d with data := d.data.insert fileID bs }, t.db, []⟩
  | none => t.here

/-- After a step of the writer: a file that is gone is kept for those who have it open. -/
def follow (s : Shared) : Watching :=
  { t with
    shared := s
    kept := fun id =>
      if id ∈ t.db.readers ∧ s.world.disk.data[id]? = none then
        (t.kept id).or t.shared.world.disk.data[id]?
      else t.kept id }

def goOn (j : Nat) (db : DB) (x : Option Lookup) : Watching :=
  { t with db := db, gets := Function.update t.gets j x }

/-- A step, with what a call of `Get` returns in it. -/
def advance : WatchStep → Option (Watching × Option (Bytes × Except Err Bytes))
  | .call c => (t.shared.step c).map fun s => (t.follow s, none)
  | .find j key =>
    match t.gets j with
    | none =>
      match findEntry key t.here with
      | .ok entry _ => some (t.goOn j t.db (some (.found key entry)), none)
      | .error err _ => some (t, some (key, .error err))
    | some _ => none
  | .openFile j =>
    match t.gets j with
    | some (.found key entry) =>
      match openReader entry.fileID t.here with
      | .ok _ w => some (t.goOn j w.db (some (.opened key entry)), none)
      | .error err w => some (t.goOn j w.db none, some (key, .error err))
    | _ => none
  | .read j =>
    match t.gets j with
    | some (.opened key entry) =>
      match readOpened key entry (t.behind entry.fileID) with
      | .ok value _ => some (t.goOn j t.db none, some (key, .ok value))
      | .error err _ => some (t.goOn j t.db none, some (key, .error err))
    | _ => none

def step (a : WatchStep) : Option Watching := (t.advance a).map Prod.fst

def result (a : WatchStep) : Option (Bytes × Except Err Bytes) := (t.advance a).bind Prod.snd

end Watching

/-- The reader has just been opened, at any moment of the writer. -/
def watching : Machine Watching WatchStep where
  initial t := (∃ s₀ calls, opened.initial s₀ ∧
      (∀ id, s₀.world.disk.HasID id → id < maxFileID) ∧ opened.exec s₀ calls = some t.shared) ∧
    (∃ db w, openReadOnly ⟨t.shared.world.disk, db, []⟩ = .ok () w ∧ t.db = w.db) ∧
    t.kept = (fun _ => none) ∧ t.gets = fun _ => none
  step := Watching.step

/-! ### What a step of the writer leaves -/

variable {s' : Shared} {c : Call} {bs : Bytes} {t t' : Watching} {a : WatchStep}

/-- The writer on its own is one of the runs with calls of `Get`. -/
theorem reading_call (hs : s.step c = some s') :
    ∃ gets, Reading.step ⟨s, fun _ => none⟩ (.call c) = some ⟨s', gets⟩ :=
  ⟨_, by rw [Reading.step, hs]; rfl⟩

theorem Ready.call (h : Ready s) (hs : s.step c = some s') : Ready s' := by
  obtain ⟨gets, hstep⟩ := reading_call hs
  exact Ready.step (t := ⟨s, fun _ => none⟩) h hstep

theorem Shared.Removed.call (h : s.Removed id) (hready : Ready s) (hs : s.step c = some s') :
    s'.Removed id := by
  obtain ⟨gets, hstep⟩ := reading_call hs
  exact Shared.Removed.step (t := ⟨s, fun _ => none⟩) h hready hstep

/-- A data file is appended to, or a `Merge` removes it for good. -/
theorem Ready.file (h : Ready s) (hfresh : Unwrapped s) (hs : s.step c = some s')
    (hbs : s.world.disk.data[id]? = some bs) :
    (∃ more, s'.world.disk.data[id]? = some (bs ++ more)) ∨
      (∃ i, c = .resume i) ∧ s'.Removed id := by
  obtain ⟨gets, hstep⟩ := reading_call hs
  have hthere : s.world.disk.data[id]? ≠ none := by simp [hbs]
  by_cases hid : id ∈ Reading.removes ⟨s, fun _ => none⟩ (.call c)
  · obtain ⟨i, run, hc, -⟩ := Reading.mem_removes hid
    obtain ⟨hdata, hreader⟩ := Ready.removes (t := ⟨s, fun _ => none⟩) h hid hstep
    obtain ⟨hlt, hunnamed⟩ := Ready.unnamed (t := ⟨s, fun _ => none⟩) h hstep
      (hfresh.below _ (Or.inl hthere)) fun i hi => hfresh.unnamed i _ hi (Or.inl hthere)
    exact Or.inr ⟨⟨i, ReadStep.call.inj hc⟩, hdata, hreader, hlt, hunnamed⟩
  · exact Or.inl ((Ready.keeps (t := ⟨s, fun _ => none⟩) h hstep hid fun i run hx =>
      h.taken hx hthere).data bs hbs)

theorem Unwrapped.call (h : Unwrapped s) (hready : Ready s) (hs : s.step c = some s') :
    Unwrapped s' :=
  hready.numbered.elim fun _ hn => h.step hn hs

/-! ### What the reader sees of a file -/

namespace Watching

/-- The bytes behind a descriptor. -/
def bytes (t : Watching) (id : Nat) : Option Bytes :=
  (t.kept id).or t.shared.world.disk.data[id]?

theorem behind_data (t : Watching) (id : Nat) : (t.behind id).disk.data[id]? = t.bytes id := by
  unfold behind bytes
  cases t.kept id with
  | none => rfl
  | some bs => simp

theorem behind_outcomes (t : Watching) (id : Nat) : (t.behind id).outcomes = [] := by
  unfold behind
  split <;> rfl

/-- A file that the reader could read grows, or is gone before the reader has opened it. -/
theorem bytes_follow (hready : Ready t.shared) (hfresh : Unwrapped t.shared)
    (hs : t.shared.step c = some s') (hbs : t.bytes id = some bs) :
    (∃ more, (t.follow s').bytes id = some (bs ++ more)) ∨
      (∃ i, c = .resume i) ∧ s'.Removed id ∧ id ∉ t.db.readers := by
  cases hkept : t.kept id with
  | some bs' =>
    have heq : bs' = bs := by simpa [bytes, hkept] using hbs
    exact Or.inl ⟨[], by simp [bytes, follow, hkept, heq]⟩
  | none =>
    have hdata : t.shared.world.disk.data[id]? = some bs := by simpa [bytes, hkept] using hbs
    rcases hready.file hfresh hs hdata with ⟨more, hmore⟩ | ⟨hresume, hgone⟩
    · have hstays : ¬ (id ∈ t.db.readers ∧ s'.world.disk.data[id]? = none) := by
        rw [hmore]
        exact fun h => Option.some_ne_none _ h.2
      refine Or.inl ⟨more, ?_⟩
      rw [bytes, show (t.follow s').kept id = none from (if_neg hstays).trans hkept]
      exact hmore
    · by_cases hopen : id ∈ t.db.readers
      · refine Or.inl ⟨[], ?_⟩
        simp only [bytes, follow, if_pos (⟨hopen, hgone.data⟩ : _ ∧ _), hkept, hdata,
          Option.none_or, Option.some_or, List.append_nil]
      · exact Or.inr ⟨hresume, hgone, hopen⟩

theorem gets_goOn {j i : Nat} {db : DB} {x : Option Lookup} {y : Lookup}
    (h : (t.goOn j db x).gets i = some y) : x = some y ∨ t.gets i = some y := by
  have hgets : Function.update t.gets j x i = some y := h
  by_cases hij : i = j
  · rw [hij, Function.update_self] at hgets
    exact Or.inl hgets
  · rw [Function.update_of_ne hij] at hgets
    exact Or.inr hgets

end Watching

/-- The outcomes of `openReader` when the system fails no call. -/
theorem openReader_cases (fileID : Nat) (d : Disk) (db : DB) (hopen : db.closed = false) :
    (fileID ∈ db.readers ∧ openReader fileID ⟨d, db, []⟩ = .ok () ⟨d, db, []⟩) ∨
    (fileID ∉ db.readers ∧ d.data[fileID]? ≠ none ∧ openReader fileID ⟨d, db, []⟩ =
      .ok () ⟨d, { db with readers := fileID :: db.readers }, []⟩) ∨
    fileID ∉ db.readers ∧ d.data[fileID]? = none ∧
      openReader fileID ⟨d, db, []⟩ = .error .notExist ⟨d, db, []⟩ := by
  by_cases hmem : fileID ∈ db.readers
  · exact Or.inl ⟨hmem, by simp [openReader, bind_apply, hopen, hmem]⟩
  · cases hdata : d.data[fileID]? with
    | none =>
      refine Or.inr (Or.inr ⟨hmem, rfl, ?_⟩)
      simp [openReader, bind_apply, hopen, hmem, readData, hdata]
    | some bs =>
      refine Or.inr (Or.inl ⟨hmem, by simp, ?_⟩)
      simp [openReader, bind_apply, hopen, hmem, readData, hdata]

/-! ### The reads of a key -/

/-- What the reader has of a key that had the value when it was opened; `merges` says that the
writer may go on with a `Merge`. -/
structure Repeats (merges : Prop) (key : Bytes) (e : KeyDirEntry) (value : Bytes)
    (results : List (Bytes × Except Err Bytes)) (t : Watching) : Prop where
  ready : Ready t.shared
  fresh : Unwrapped t.shared
  isOpen : t.db.closed = false
  entry : t.db.keydir[key]? = some e
  /-- the record is there, or its file was removed before the reader has opened it -/
  carried : (t.behind e.fileID).Carries key e value ∨
    merges ∧ t.shared.Removed e.fileID ∧ e.fileID ∉ t.db.readers
  unkept : e.fileID ∉ t.db.readers → t.kept e.fileID = none
  found : ∀ j e', t.gets j = some (.found key e') → e' = e
  opened : ∀ j e', t.gets j = some (.opened key e') → e' = e ∧ e.fileID ∈ t.db.readers
  answers : ∀ r, (key, r) ∈ results → r = .ok value ∨ merges ∧ r = .error .notExist
  held : (key, .ok value) ∈ results → e.fileID ∈ t.db.readers
  repeated : results.Pairwise fun p q => p = (key, .ok value) → q.1 = key → q.2 = .ok value

namespace Repeats

variable {merges : Prop} {results : List (Bytes × Except Err Bytes)}
  {r : Option (Bytes × Except Err Bytes)}

/-- A step of the writer. -/
theorem follow (h : Repeats merges key e value results t) (hs : t.shared.step c = some s')
    (hc : ∀ i, c = .resume i → merges) : Repeats merges key e value results (t.follow s') := by
  refine { h with
    ready := h.ready.call hs
    fresh := h.fresh.call h.ready hs
    carried := ?_
    unkept := fun hout => (if_neg fun hin => hout hin.1).trans (h.unkept hout) }
  rcases h.carried with hcarried | ⟨hmerges, hgone, hopen⟩
  · obtain ⟨bs, r, hbs, hr, hvalue⟩ := hcarried
    rw [Watching.behind_data] at hbs
    rcases Watching.bytes_follow h.ready h.fresh hs hbs with ⟨more, hmore⟩ | ⟨⟨i, hi⟩, hgone⟩
    · exact Or.inl ⟨_, r, ((t.follow s').behind_data _).trans hmore, hr.append more, hvalue⟩
    · exact Or.inr ⟨hc i hi, hgone⟩
  · exact Or.inr ⟨hmerges, hgone.call h.ready hs, hopen⟩

theorem goOn (h : Repeats merges key e value results t) (j : Nat) {x : Option Lookup}
    (hfound : ∀ e', x = some (.found key e') → e' = e)
    (hopened : ∀ e', x = some (.opened key e') → e' = e ∧ e.fileID ∈ t.db.readers) :
    Repeats merges key e value results (t.goOn j t.db x) := by
  refine { h with found := fun i e' hi => ?_, opened := fun i e' hi => ?_ }
  · rcases Watching.gets_goOn hi with hx | hi
    · exact hfound e' hx
    · exact h.found i e' hi
  · rcases Watching.gets_goOn hi with hx | hi
    · exact hopened e' hx
    · exact h.opened i e' hi

/-- A call is over. -/
theorem finished (h : Repeats merges key e value results t) (j : Nat) :
    Repeats merges key e value results (t.goOn j t.db none) :=
  h.goOn j (fun _ heq => by cases heq) fun _ heq => by cases heq

/-- The reader opens a file that is there. -/
theorem opens (h : Repeats merges key e value results t)
    (hthere : t.shared.world.disk.data[fileID]? ≠ none) :
    Repeats merges key e value results
      { t with db := { t.db with readers := fileID :: t.db.readers } } := by
  refine { h with
    carried := ?_
    unkept := fun hout => h.unkept fun hmem => hout (List.mem_cons_of_mem _ hmem)
    opened := fun j e' hj => ⟨(h.opened j e' hj).1, List.mem_cons_of_mem _ (h.opened j e' hj).2⟩
    held := fun hmem => List.mem_cons_of_mem _ (h.held hmem) }
  rcases h.carried with ⟨bs, r, hbs, hr⟩ | ⟨hmerges, hgone, hout⟩
  · rw [Watching.behind_data] at hbs
    exact Or.inl ⟨bs, r, (Watching.behind_data _ _).trans hbs, hr⟩
  · refine Or.inr ⟨hmerges, hgone, fun hmem => ?_⟩
    rcases List.mem_cons.mp hmem with heq | hmem
    · exact hthere (heq ▸ hgone.data)
    · exact hout hmem

/-- A call returns; an answer about the key depends on whether its file is open. -/
theorem answer (h : Repeats merges key e value results t) {k : Bytes} {x : Except Err Bytes}
    (hnew : k = key → x = .ok value ∧ e.fileID ∈ t.db.readers ∨
      (merges ∧ x = .error .notExist) ∧ e.fileID ∉ t.db.readers) :
    Repeats merges key e value (results ++ [(k, x)]) t := by
  refine { h with answers := fun r hr => ?_, held := fun hmem => ?_, repeated := ?_ }
  · rcases List.mem_append.mp hr with hr | hr
    · exact h.answers r hr
    · obtain ⟨rfl, rfl⟩ := Prod.mk.inj (List.mem_singleton.mp hr)
      exact (hnew rfl).imp And.left And.left
  · rcases List.mem_append.mp hmem with hmem | hmem
    · exact h.held hmem
    · obtain ⟨rfl, rfl⟩ := Prod.mk.inj (List.mem_singleton.mp hmem)
      rcases hnew rfl with hok | herror
      · exact hok.2
      · cases herror.1.2
  · refine List.pairwise_append.mpr ⟨h.repeated, List.pairwise_singleton _ _, ?_⟩
    intro p hp q hq heq hk
    obtain rfl := List.mem_singleton.mp hq
    rcases hnew hk with hok | herror
    · exact hok.1
    · exact absurd (h.held (heq ▸ hp)) herror.2

/-- A call looks its entry up. -/
theorem find (h : Repeats merges key e value results t) {j : Nat} {k : Bytes}
    (hs : t.advance (.find j k) = some (t', r)) :
    Repeats merges key e value (results ++ r.toList) t' := by
  simp only [Watching.advance] at hs
  split at hs
  · split at hs
    · next e' w hfind =>
      obtain ⟨rfl, rfl⟩ := Prod.mk.inj (Option.some.inj hs)
      rw [Option.toList_none, List.append_nil]
      obtain ⟨-, he'⟩ := findEntry_ok hfind
      refine h.goOn j (fun e'' heq => ?_) fun e'' heq => by cases heq
      obtain ⟨rfl, rfl⟩ := Lookup.found.inj (Option.some.inj heq)
      exact Option.some.inj (he'.symm.trans h.entry)
    · next err w hfind =>
      obtain ⟨rfl, rfl⟩ := Prod.mk.inj (Option.some.inj hs)
      refine h.answer fun hk => ?_
      subst hk
      simp [findEntry, bind_apply, Watching.here, h.isOpen, h.entry] at hfind
  · cases hs

/-- A call opens the file of its entry. -/
theorem openFile (h : Repeats merges key e value results t) {j : Nat}
    (hs : t.advance (.openFile j) = some (t', r)) :
    Repeats merges key e value (results ++ r.toList) t' := by
  simp only [Watching.advance] at hs
  split at hs
  · next k e' hj =>
    have hentry : k = key → e' = e := fun hk => h.found j e' (hk ▸ hj)
    have hnext : ∀ {u : Watching}, Repeats merges key e value results u → e'.fileID ∈ u.db.readers →
        Repeats merges key e value results (u.goOn j u.db (some (.opened k e'))) := by
      intro u hu hmem
      refine hu.goOn j (fun _ heq => by cases heq) fun e'' heq => ?_
      obtain ⟨hk, rfl⟩ := Lookup.opened.inj (Option.some.inj heq)
      exact ⟨hentry hk, hentry hk ▸ hmem⟩
    rcases openReader_cases _ t.shared.world.disk t.db h.isOpen with
      ⟨hmem, hopen⟩ | ⟨-, hthere, hopen⟩ | ⟨hout, hnone, hopen⟩
    · rw [Watching.here, hopen] at hs
      obtain ⟨rfl, rfl⟩ := Prod.mk.inj (Option.some.inj hs)
      rw [Option.toList_none, List.append_nil]
      exact hnext h hmem
    · rw [Watching.here, hopen] at hs
      obtain ⟨rfl, rfl⟩ := Prod.mk.inj (Option.some.inj hs)
      rw [Option.toList_none, List.append_nil]
      exact hnext (h.opens hthere) List.mem_cons_self
    · rw [Watching.here, hopen] at hs
      obtain ⟨rfl, rfl⟩ := Prod.mk.inj (Option.some.inj hs)
      refine (h.finished j).answer fun hk => ?_
      obtain rfl := hentry hk
      rcases h.carried with ⟨bs, _, hbs, -⟩ | ⟨hmerges, -⟩
      · rw [Watching.behind_data, Watching.bytes, h.unkept hout, hnone] at hbs
        cases hbs
      · exact Or.inr ⟨⟨hmerges, rfl⟩, hout⟩
  · cases hs

/-- A call reads its record. -/
theorem read (h : Repeats merges key e value results t) {j : Nat}
    (hs : t.advance (.read j) = some (t', r)) :
    Repeats merges key e value (results ++ r.toList) t' := by
  simp only [Watching.advance] at hs
  split at hs
  · next k e' hj =>
    -- the file is open, so the record is still to be read behind its descriptor
    have hread : k = key → readOpened k e' (t.behind e'.fileID) =
        .ok value (t.behind e'.fileID) ∧ e.fileID ∈ t.db.readers := by
      intro hk
      subst hk
      obtain ⟨rfl, hmem⟩ := h.opened j e' hj
      rcases h.carried with hc | hgone
      · exact ⟨readOpened_run hc (t.behind_outcomes _), hmem⟩
      · exact absurd hmem hgone.2.2
    split at hs
    · next v w hok =>
      obtain ⟨rfl, rfl⟩ := Prod.mk.inj (Option.some.inj hs)
      refine (h.finished j).answer fun hk => Or.inl ⟨?_, (hread hk).2⟩
      rw [(hread hk).1] at hok
      obtain ⟨rfl, -⟩ := EStateM.Result.ok.inj hok
      rfl
    · next err w herror =>
      obtain ⟨rfl, rfl⟩ := Prod.mk.inj (Option.some.inj hs)
      refine (h.finished j).answer fun hk => ?_
      rw [(hread hk).1] at herror
      cases herror
  · cases hs

theorem step (h : Repeats merges key e value results t) (hs : t.advance a = some (t', r))
    (ha : ∀ i, a = .call (.resume i) → merges) :
    Repeats merges key e value (results ++ r.toList) t' := by
  cases a with
  | call c =>
    obtain ⟨s', hs', heq⟩ := Option.map_eq_some_iff.mp hs
    obtain ⟨rfl, rfl⟩ := Prod.mk.inj heq
    rw [Option.toList_none, List.append_nil]
    exact h.follow hs' fun i hi => ha i (hi ▸ rfl)
  | find j k => exact h.find hs
  | openFile j => exact h.openFile hs
  | read j => exact h.read hs

end Repeats

/-! ### A key that the reader does not know -/

structure Unknown (key : Bytes) (results : List (Bytes × Except Err Bytes)) (t : Watching) :
    Prop where
  isOpen : t.db.closed = false
  entry : t.db.keydir[key]? = none
  found : ∀ j e, t.gets j ≠ some (.found key e)
  opened : ∀ j e, t.gets j ≠ some (.opened key e)
  answers : ∀ r, (key, r) ∈ results → r = .error .keyNotFound

namespace Unknown

variable {results : List (Bytes × Except Err Bytes)} {r : Option (Bytes × Except Err Bytes)}

theorem goOn (h : Unknown key results t) (j : Nat) {db : DB} {x : Option Lookup}
    (hclosed : db.closed = false) (hkeydir : db.keydir = t.db.keydir)
    (hfound : ∀ e, x ≠ some (.found key e)) (hopened : ∀ e, x ≠ some (.opened key e)) :
    Unknown key results (t.goOn j db x) where
  isOpen := hclosed
  entry := (congrArg (·[key]?) hkeydir).trans h.entry
  found i e hi := (Watching.gets_goOn hi).elim (hfound e) (h.found i e)
  opened i e hi := (Watching.gets_goOn hi).elim (hopened e) (h.opened i e)
  answers := h.answers

theorem answer (h : Unknown key results t) {k : Bytes} {x : Except Err Bytes}
    (hnew : k = key → x = .error .keyNotFound) : Unknown key (results ++ [(k, x)]) t := by
  refine { h with answers := fun r hr => ?_ }
  rcases List.mem_append.mp hr with hr | hr
  · exact h.answers r hr
  · obtain ⟨rfl, rfl⟩ := Prod.mk.inj (List.mem_singleton.mp hr)
    exact hnew rfl

theorem step (h : Unknown key results t) (hs : t.advance a = some (t', r)) :
    Unknown key (results ++ r.toList) t' := by
  cases a with
  | call c =>
    obtain ⟨s', -, heq⟩ := Option.map_eq_some_iff.mp hs
    obtain ⟨rfl, rfl⟩ := Prod.mk.inj heq
    rw [Option.toList_none, List.append_nil]
    exact ⟨h.isOpen, h.entry, h.found, h.opened, h.answers⟩
  | find j k =>
    simp only [Watching.advance] at hs
    split at hs
    · split at hs
      · next e w hfind =>
        obtain ⟨rfl, rfl⟩ := Prod.mk.inj (Option.some.inj hs)
        rw [Option.toList_none, List.append_nil]
        refine h.goOn j h.isOpen rfl (fun e' heq => ?_) fun e' heq => by cases heq
        obtain ⟨rfl, rfl⟩ := Lookup.found.inj (Option.some.inj heq)
        cases (findEntry_ok hfind).2.symm.trans h.entry
      · next err w hfind =>
        obtain ⟨rfl, rfl⟩ := Prod.mk.inj (Option.some.inj hs)
        refine h.answer fun hk => ?_
        subst hk
        simp only [findEntry, Watching.here, bind_apply, getDB_apply, h.isOpen, h.entry] at hfind
        cases hfind
        rfl
    · cases hs
  | openFile j =>
    simp only [Watching.advance] at hs
    split at hs
    · next k e hj =>
      have hk : k ≠ key := fun hk => h.found j e (hk ▸ hj)
      have hopened : ∀ e', some (Lookup.opened k e) ≠ some (.opened key e') := fun e' heq =>
        hk (Lookup.opened.inj (Option.some.inj heq)).1
      rcases openReader_cases _ t.shared.world.disk t.db h.isOpen with
        ⟨-, hopen⟩ | ⟨-, -, hopen⟩ | ⟨-, -, hopen⟩
      · rw [Watching.here, hopen] at hs
        obtain ⟨rfl, rfl⟩ := Prod.mk.inj (Option.some.inj hs)
        rw [Option.toList_none, List.append_nil]
        exact h.goOn j h.isOpen rfl (fun _ heq => by cases heq) hopened
      · rw [Watching.here, hopen] at hs
        obtain ⟨rfl, rfl⟩ := Prod.mk.inj (Option.some.inj hs)
        rw [Option.toList_none, List.append_nil]
        exact h.goOn j h.isOpen rfl (fun _ heq => by cases heq) hopened
      · rw [Watching.here, hopen] at hs
        obtain ⟨rfl, rfl⟩ := Prod.mk.inj (Option.some.inj hs)
        exact (h.goOn j h.isOpen rfl (fun _ heq => by cases heq)
          fun _ heq => by cases heq).answer fun heq => absurd heq hk
    · cases hs
  | read j =>
    simp only [Watching.advance] at hs
    split at hs
    · next k e hj =>
      have hk : k ≠ key := fun hk => h.opened j e (hk ▸ hj)
      have hover : Unknown key results (t.goOn j t.db none) :=
        h.goOn j h.isOpen rfl (fun _ heq => by cases heq) fun _ heq => by cases heq
      split at hs
      · obtain ⟨rfl, rfl⟩ := Prod.mk.inj (Option.some.inj hs)
        exact hover.answer fun heq => absurd heq hk
      · obtain ⟨rfl, rfl⟩ := Prod.mk.inj (Option.some.inj hs)
        exact hover.answer fun heq => absurd heq hk
    · cases hs

end Unknown

/-! ### The reader -/

/-- At most the keydir and the numbers of the files in the `DB` have changed. -/
structure OnlyLoads (w w' : World) : Prop where
  disk : w'.disk = w.disk
  calm : w.outcomes = [] → w'.outcomes = []
  closed : w'.db.closed = w.db.closed
  readers : w'.db.readers = w.db.readers
  opts : w'.db.opts = w.db.opts

instance : Std.Refl OnlyLoads := ⟨fun _ => ⟨rfl, fun h => h, rfl, rfl, rfl⟩⟩

instance : IsTrans World OnlyLoads where
  trans _ _ _ h h' := ⟨h'.disk.trans h.disk, fun hcalm => h'.calm (h.calm hcalm),
    h'.closed.trans h.closed, h'.readers.trans h.readers, h'.opts.trans h.opts⟩

theorem onlyLoads_calls (w : World) : OnlyLoads w { w with outcomes := w.outcomes.drop 1 } :=
  ⟨rfl, fun hcalm => by simp [hcalm], rfl, rfl, rfl⟩

theorem onlyLoads_keydir (f : DB → KeyDir) :
    Within OnlyLoads (modifyDB fun db => { db with keydir := f db }) :=
  within_modifyDB fun _ => ⟨rfl, fun h => h, rfl, rfl, rfl⟩

theorem onlyLoads_scanHints (fileID : Nat) (recs : List (HintRecord × Nat)) :
    Within OnlyLoads (scanHints fileID recs) := by
  induction recs with
  | nil => exact .pure _
  | cons p recs ih => exact .bind (onlyLoads_keydir _) fun _ => ih

theorem onlyLoads_scanRecords (fileID : Nat) (offset : Int64) (recs : List (Record × Nat)) :
    Within OnlyLoads (scanRecords fileID offset recs) := by
  induction recs generalizing offset with
  | nil => exact .pure _
  | cons p recs ih => exact .bind (onlyLoads_keydir _) fun _ => ih _

/-- A scan that may not cut the tail of the file changes no file. -/
theorem onlyLoads_scanSegment (active fileID : Nat) :
    Within OnlyLoads (scanSegment active false fileID) := by
  have hdata : Within OnlyLoads (scanDataFile fileID false) := by
    refine .bind (within_readData onlyLoads_calls _) fun bs => .bind (onlyLoads_scanRecords _ _ _)
      fun last => .ite (.pure _) ?_
    rw [if_neg (fun htrim => Bool.false_ne_true htrim.1)]
    exact .ite (.throw _) (.throw _)
  refine .ite hdata (.tryCatch ?_ fun _ => hdata)
  have hread : Within OnlyLoads (readHint fileID) := by
    refine .bind (within_call onlyLoads_calls) fun _ => .bind within_getDisk fun d => ?_
    split
    · exact .pure _
    · exact .throw _
  exact .bind hread fun bs => .bind (onlyLoads_scanHints _ _) fun _ => .ite (.throw _) (.pure _)

theorem onlyLoads_loadSegments : Within OnlyLoads (loadSegments false) := by
  refine .bind (within_listDataFileIDs onlyLoads_calls) fun ids => ?_
  split
  · exact .pure _
  · next active _ =>
    exact .bind (within_modifyDB fun _ => ⟨rfl, fun h => h, rfl, rfl, rfl⟩) fun _ =>
      .bind (.forM fun id _ => onlyLoads_scanSegment active id) fun _ => .pure _

theorem onlyLoads_validateEntry (f : FileName) : Within OnlyLoads (validateEntry false f) := by
  cases f with
  | data | hint => exact .pure _
  | tmpData | tmpHint => exact .throw _
  | other name =>
    exact .ite (.throw _) (.ite (.ite (.pure _) (.throw _)) (.ite (.ite (.pure _) (.throw _))
      (.throw _)))

theorem onlyLoads_validateLayout (hrw : w.db.opts.readWrite = false)
    (h : validateLayout w = .ok () w') : OnlyLoads w w' := by
  obtain ⟨_, v, hcall, h⟩ := of_bind_apply_ok h
  have hv : OnlyLoads w v := (within_call onlyLoads_calls).ok hcall
  obtain ⟨db, _, hdb, h⟩ := of_bind_apply_ok h
  obtain ⟨rfl, rfl⟩ := EStateM.Result.ok.inj hdb
  obtain ⟨d, _, hdisk, h⟩ := of_bind_apply_ok h
  obtain ⟨rfl, rfl⟩ := EStateM.Result.ok.inj hdisk
  rw [hv.opts, hrw] at h
  have hall : Within OnlyLoads (v.disk.entries.forM (validateEntry false)) :=
    .forM fun f _ => onlyLoads_validateEntry f
  exact trans_of OnlyLoads hv (hall.ok h)

/-- `OpenReadOnly` leaves the directory as it is, and its `DB` has no descriptor yet. -/
theorem openReadOnly_fresh (h : openReadOnly w = .ok () w') (hcalm : w.outcomes = []) :
    w' = ⟨w.disk, w'.db, []⟩ ∧ w'.db.closed = false ∧ w'.db.readers = [] := by
  have hrw : (OpenOptions.withDefaults { readWrite := false }).readWrite = false :=
    withDefaults_readWrite
  obtain ⟨_, v, hcall, h⟩ := of_bind_apply_ok h
  have hv : OnlyLoads w v := (within_call onlyLoads_calls).ok hcall
  rw [hrw] at h
  obtain ⟨d, _, hdisk, h⟩ := of_bind_apply_ok h
  obtain ⟨rfl, rfl⟩ := EStateM.Result.ok.inj hdisk
  split at h
  · cases h
  · obtain ⟨_, _, hnew, h⟩ := of_bind_apply_ok h
    obtain ⟨-, rfl⟩ := EStateM.Result.ok.inj hnew
    obtain ⟨_, v₁, hlayout, h⟩ := of_bind_apply_ok h
    have hload : loadSegments false v₁ = .ok () w' := of_onError_ok h
    have hnew := trans_of OnlyLoads (onlyLoads_validateLayout hrw hlayout)
      (onlyLoads_loadSegments.ok hload)
    obtain ⟨d, db, os⟩ := w'
    obtain rfl : os = [] := hnew.calm (hv.calm hcalm)
    obtain rfl : d = w.disk := hnew.disk.trans hv.disk
    exact ⟨rfl, hnew.closed, hnew.readers⟩

theorem Watching.advance_of_step {r : Option (Bytes × Except Err Bytes)}
    (h : watching.step t a = some t') (hr : t.result a = r) : t.advance a = some (t', r) := by
  obtain ⟨⟨t₁, r₁⟩, hadvance, rfl⟩ := Option.map_eq_some_iff.mp h
  rw [Watching.result, hadvance] at hr
  rw [hadvance, ← hr]
  rfl

/-- The reader before its first call. -/
theorem watching_initial (h : watching.initial t) :
    (Ready t.shared ∧ Unwrapped t.shared) ∧ t.db.closed = false ∧ t.db.readers = [] ∧
      (∀ id, t.behind id = t.here) ∧ ∀ j, t.gets j = none := by
  obtain ⟨⟨s₀, calls, hs₀, hmax, hcalls⟩, ⟨db, w, hopen, hdb⟩, hkept, hgets⟩ := h
  obtain ⟨-, hclosed, hreaders⟩ := openReadOnly_fresh hopen rfl
  refine ⟨?_, hdb ▸ hclosed, hdb ▸ hreaders, fun id => ?_, fun j => ?_⟩
  · exact Machine.Leads.invariant (m := opened) (P := fun s => Ready s ∧ Unwrapped s)
      (fun _ _ _ h hs => ⟨h.1.call hs, h.2.call h.1 hs⟩) ⟨calls, hcalls⟩
      ⟨.initial hs₀, .initial hs₀ hmax⟩
  · rw [Watching.behind, hkept]
  · rw [hgets]

/-- A store with one record in each of its files, and a reader of it. -/
def watched : Option (Shared × Watching) := do
  let w ← World.returned (openWithOptions ⟨true, false, 25⟩) World.empty
  let s ← opened.exec ⟨w, fun _ => none⟩ [.put 1 [1] [7], .put 2 [2] [8], .put 3 [3] [9]]
  let r ← World.returned openReadOnly ⟨s.world.disk, s.world.db, []⟩
  return (⟨w, fun _ => none⟩, ⟨s, r.db, fun _ => none, fun _ => none⟩)

theorem watching_of_watched {s₀ : Shared} (h : watched = some (s₀, t)) : watching.initial t := by
  unfold watched at h
  obtain ⟨w, hw, h⟩ := Option.bind_eq_some_iff.mp h
  obtain ⟨s, hs, h⟩ := Option.bind_eq_some_iff.mp h
  obtain ⟨r, hr, h⟩ := Option.bind_eq_some_iff.mp h
  obtain ⟨rfl, rfl⟩ := Prod.mk.inj (Option.some.inj h)
  obtain ⟨_, hopen⟩ := World.of_returned hw
  obtain ⟨_, hread⟩ := World.of_returned hr
  exact ⟨⟨_, _, ⟨rfl, _, _, ⟨true, false, 25⟩, hopen⟩, fun _ => hasID_of_empty
    ⟨true, false, 25⟩ rfl hopen (by simp [World.empty, Disk.HasID]), hs⟩,
    ⟨_, r, hread, rfl⟩, rfl, rfl⟩

/-- The reader has read the first key when a `Merge` removes the files of the first two. -/
def compactedBehind : List WatchStep :=
  [.find 0 [1], .openFile 0, .read 0, .call (.put 4 [1] [6]), .find 1 [2], .call (.merge 0)] ++
    List.replicate 7 (.call (.resume 0)) ++
    [.find 2 [1], .openFile 2, .openFile 1, .find 3 [5], .read 2]

end KvRaft.Store
