import KvRaft.Store.ReadOnly
import KvRaft.Store.Refine

/-! `Fold` beside other calls. It takes the keys in one step and then calls `Get` for one after the
other, so what it reports is no state of the store in general; but each key is answered as it was
when its `Get` looked it up. -/

namespace KvRaft.Store

open Std Effects

/-- How a `Fold` returns: with `nil`, with the error of a `Get` or with that of its argument. -/
inductive FoldEnd
  | nil
  | failed (err : Err)
  | stopped
deriving DecidableEq

/-- A `Fold` with the keys that are left. Its calls of `Get` are those with the name 0. -/
structure Folding where
  reading : Reading
  left : List Bytes
  /-- the key of the present call of `Get` -/
  current : Bytes := []
  reported : List (Bytes × Bytes) := []
  ended : Option FoldEnd := none

inductive FoldStep
  /-- a step of another call -/
  | call (c : Call)
  /-- `Get` looks the next key up -/
  | next
  | openFile
  | read

namespace Folding

/-- `Fold` has taken the keys. -/
def start (s : Shared) : Folding where
  reading := ⟨s, fun _ => none⟩
  left := s.world.db.keydir.keys

variable (fn : Bytes → Bytes → Bool) (t : Folding)

/-- The loop goes on when `Get` has returned; `fn` says where the argument returns an error. -/
def settle : Folding :=
  match t.reading.gets 0 with
  | some (.returned result) =>
    let t := { t with reading := { t.reading with gets := fun _ => none } }
    match result with
    | .ok value =>
      { t with
        reported := t.reported ++ [(t.current, value)]
        ended := if fn t.current value then some .stopped else none }
    | .error err => if err = .keyNotFound then t else { t with ended := some (.failed err) }
  | _ => t

def step : FoldStep → Option Folding
  | .call c => (t.reading.step (.call c)).map ({ t with reading := · })
  | .next =>
    match t.ended, t.reading.gets 0, t.left with
    | none, none, [] => some { t with ended := some .nil }
    | none, none, key :: left =>
      (t.reading.step (.find 0 key)).map fun r =>
        settle fn { t with reading := r, left := left, current := key }
    | _, _, _ => none
  | .openFile => (t.reading.step (.openFile 0)).map fun r => settle fn { t with reading := r }
  | .read => (t.reading.step (.read 0)).map fun r => settle fn { t with reading := r }

/-- The key that `Get` looks up in a step, with what the store has for it then. -/
def sees : FoldStep → Option (Bytes × Except Err Bytes)
  | .next => t.left.head?.map fun key => (key, t.reading.shared.world.lookup key)
  | _ => none

end Folding

def folding (fn : Bytes → Bytes → Bool) : Machine Folding FoldStep where
  initial t := ∃ s₀ calls, overlap.initial s₀ ∧ (∀ c ∈ calls, c.Sized) ∧
    overlap.exec s₀ calls = some t.reading.shared ∧ t = .start t.reading.shared
  step := Folding.step fn

/-- The pairs of a list of answers. -/
def foundIn (seen : List (Bytes × Except Err Bytes)) : List (Bytes × Bytes) :=
  seen.filterMap fun p => p.2.toOption.map (p.1, ·)

/-- The call of which the step is one. -/
def FoldStep.other : FoldStep → Option Call
  | .call c => some c
  | .next | .openFile | .read => none

/-- The calls beside the `Fold`. -/
def callsOf (as : List FoldStep) : List Call := as.filterMap FoldStep.other

variable {segs : Nat → Option Segment} {m : Bytes → Option Bytes} {s s' : Shared} {r r' : Reading}
  {key value : Bytes} {w w' : World}

/-! ### The store between the steps -/

theorem openWithOptions_of_overlap (h : overlap.initial s) : ∃ opts : OpenOptions,
    openWithOptions { opts with readWrite := true } World.empty = .ok () s.world := by
  obtain ⟨-, opts, hopen⟩ := h
  obtain ⟨-, -, hclosed, -⟩ := World.openDB_empty hopen
  refine ⟨opts, ?_⟩
  unfold World.openDB at hopen
  split at hopen
  · next w' hok =>
    obtain rfl := Option.some.inj hopen
    exact hok
  · cases hopen
  · rw [← Option.some.inj hopen] at hclosed
    cases hclosed

/-- A store in an empty directory is one of those that any directory gives. -/
theorem opened_of_overlap (h : overlap.initial s) : opened.initial s := by
  obtain ⟨opts, hopen⟩ := openWithOptions_of_overlap h
  exact ⟨h.1, World.empty.disk, World.empty.db, opts, hopen⟩

theorem Unwrapped.of_overlap (h : overlap.initial s) : Unwrapped s := by
  refine .initial (opened_of_overlap h) fun id hid => ?_
  obtain ⟨opts, hopen⟩ := openWithOptions_of_overlap h
  exact hasID_of_empty opts rfl hopen (by simp [Disk.HasID, World.empty]) hid

theorem Flights.lookup_eq (h : Flights segs m s) (key : Bytes) :
    s.world.lookup key = answer (m key) := by
  obtain ⟨rs, ha⟩ := h.steady.active
  exact Store.lookup_eq h.steady.calm h.steady.holds ha.opened h.steady.serves key

/-- A key without a value has no entry. -/
theorem Flights.findEntry_none (h : Flights segs m s) (hm : m key = none) :
    findEntry key s.world = .error .keyNotFound s.world := by
  have hnone : s.world.db.keydir[key]? = none := by
    rw [← Option.not_isSome_iff_eq_none]
    intro hsome
    obtain ⟨e, he⟩ := Option.isSome_iff_exists.mp hsome
    obtain ⟨r, -, -, -, hval⟩ := h.steady.serves.live key e he
    cases hval.symm.trans hm
  obtain ⟨rs, ha⟩ := h.steady.active
  simp [findEntry, bind_apply, ha.opened, hnone]

/-- When the system fails no call, nothing changes. -/
def Idles (w w' : World) : Prop := w.outcomes = [] → w' = w

instance : Std.Refl Idles := ⟨fun _ _ => rfl⟩

instance : IsTrans World Idles where
  trans _ _ _ h h' hcalm := by
    obtain rfl := h hcalm
    exact h' hcalm

theorem idles_calls (w : World) : Idles w { w with outcomes := w.outcomes.drop 1 } := by
  intro hcalm
  rw [hcalm]
  exact congrArg (World.mk w.disk w.db) hcalm.symm

theorem idles_readOpened (key : Bytes) (e : KeyDirEntry) : Within Idles (readOpened key e) := by
  refine .bind (within_readSection idles_calls e) fun bs => ?_
  split
  · exact .throw _
  · exact .ite (.throw _) (.ite (.throw _) (.pure _))

theorem Reading.part_shared {α : Type} (r : Reading) (j : Nat) (op : Op α) (next : α → Getting) :
    (r.part j op next).shared = { r.shared with world := left op r.shared.world } := by
  unfold Reading.part left
  cases op r.shared.world <;> rfl

/-- The descriptor that `openReader` opens. -/
theorem left_openReader (h : Flights segs m s) (fileID : Nat) :
    left (openReader fileID) s.world = s.world ∨
      left (openReader fileID) s.world = ⟨s.world.disk, s.world.db.reading fileID, []⟩ := by
  obtain ⟨⟨d, db, os⟩, merges⟩ := s
  obtain rfl : os = [] := h.steady.calm
  obtain ⟨rs, ha⟩ := h.steady.active
  rcases openReader_cases fileID d db ha.opened with
    ⟨-, hopen⟩ | ⟨hmem, -, hopen⟩ | ⟨-, -, hopen⟩
  · exact Or.inl (left_ok hopen)
  · exact Or.inr ((left_ok hopen).trans (by rw [DB.reading, if_neg hmem]))
  · exact Or.inl (left_error hopen)

/-- The steps of a `Get` leave the store as it is, but for a descriptor. -/
theorem Flights.get (h : Flights segs m r.shared) {a : ReadStep} {j : Nat} (ha : a.get = some j)
    (hs : r.step a = some r') : Flights segs m r'.shared ∧
      r'.shared.world.db.activeFile = r.shared.world.db.activeFile := by
  have hidle : ∀ {α : Type} {op : Op α} {next : α → Getting}, Within Idles op →
      some (r.part j op next) = some r' → Flights segs m r'.shared ∧
        r'.shared.world.db.activeFile = r.shared.world.db.activeFile := by
    intro α op next hop heq
    rw [← Option.some.inj heq, Reading.part_shared, hop r.shared.world h.steady.calm]
    exact ⟨h, rfl⟩
  cases a with
  | call c => cases ha
  | find id key =>
    obtain rfl := Option.some.inj ha
    simp only [Reading.step] at hs
    split at hs
    · exact hidle (within_findEntry key) hs
    · cases hs
  | openFile id =>
    obtain rfl := Option.some.inj ha
    simp only [Reading.step] at hs
    split at hs
    · next k e hg =>
      rw [← Option.some.inj hs, Reading.part_shared]
      rcases left_openReader h e.fileID with heq | heq
      · rw [heq]
        exact ⟨h, rfl⟩
      · rw [heq]
        obtain ⟨⟨⟨d, db, os⟩, merges⟩, gets⟩ := r
        obtain rfl : os = [] := h.steady.calm
        refine ⟨h.beside (h.steady.reading e.fileID) fun _ _ _ hf => hf.reading e.fileID, ?_⟩
        rw [DB.reading_eq]
    · cases hs
  | read id =>
    obtain rfl := Option.some.inj ha
    simp only [Reading.step] at hs
    split at hs
    · exact hidle (idles_readOpened _ _) hs
    · rw [← Option.some.inj hs]
      exact ⟨h, rfl⟩
    · cases hs

/-! ### The calls of `Get` of a `Fold` -/

/-- The call has looked its key up, and has the entry of a record. -/
def Reading.Going (r : Reading) : Prop :=
  ∃ g e, r.gets 0 = some g ∧ g.entry = some e ∧ e.recordSize ≠ 0

theorem Reading.gets_openFile (hs : r.step (.openFile 0) = some r') :
    (∃ k e, r.gets 0 = some (.found k e) ∧ r'.gets 0 = some (.opened k e false)) ∨
      ∃ err, r'.gets 0 = some (.returned (.error err)) := by
  simp only [Reading.step] at hs
  split at hs
  · next k e hg =>
    rw [← Option.some.inj hs]
    unfold Reading.part
    split
    · exact Or.inl ⟨k, e, hg, Reading.gets_self⟩
    · exact Or.inr ⟨_, Reading.gets_self⟩
  · cases hs

theorem Reading.gets_read (hs : r.step (.read 0) = some r') :
    ∃ result, r'.gets 0 = some (.returned result) := by
  simp only [Reading.step] at hs
  split at hs
  · rw [← Option.some.inj hs]
    unfold Reading.part
    split
    · exact ⟨_, Reading.gets_self⟩
    · exact ⟨_, Reading.gets_self⟩
  · rw [← Option.some.inj hs]
    exact ⟨_, Reading.gets_self⟩
  · cases hs

theorem Undisturbed.openFile (h : Undisturbed 0 key value r) (hgoing : r.Going)
    (hs : r.step (.openFile 0) = some r') : Undisturbed 0 key value r' ∧ r'.Going := by
  have hnext := h.step (fun e _ => List.not_mem_nil) hs
  obtain ⟨g, hg, hgood⟩ := hnext.good
  rcases Reading.gets_openFile hs with ⟨k, e, hfound, heq⟩ | ⟨err, heq⟩
  · obtain ⟨g₀, e₀, hg₀, he₀, hsize⟩ := hgoing
    obtain rfl := Option.some.inj (hfound.symm.trans hg₀)
    exact ⟨hnext, _, e₀, heq, he₀, hsize⟩
  · rw [← Option.some.inj (heq.symm.trans hg)] at hgood
    cases hgood

theorem Undisturbed.read (h : Undisturbed 0 key value r) (hs : r.step (.read 0) = some r') :
    r'.gets 0 = some (.returned (.ok value)) := by
  have hnext := h.step (fun e _ => List.not_mem_nil) hs
  obtain ⟨g, hg, hgood⟩ := hnext.good
  obtain ⟨result, heq⟩ := Reading.gets_read hs
  rw [← Option.some.inj (heq.symm.trans hg)] at hgood
  rw [heq, show result = .ok value from hgood]

theorem Disturbed.openFile (h : Disturbed 0 r) (hs : r.step (.openFile 0) = some r') :
    r'.gets 0 = some (.returned (.error .notExist)) := by
  obtain ⟨g, hg, hlost⟩ := h.lost
  cases g with
  | found k e =>
    have hgone : r.shared.Removed e.fileID := hlost
    have hopen := openReader_gone hgone.data hgone.reader h.ready.calm h.ready.isOpen
    simp only [Reading.step, hg, Reading.part, hopen, Option.some.injEq] at hs
    rw [← hs]
    exact Reading.gets_self
  | opened | returned =>
    simp only [Reading.step, hg] at hs
    cases hs

theorem Disturbed.read (h : Disturbed 0 r) (hgoing : r.Going)
    (hs : r.step (.read 0) = some r') : r'.gets 0 = some (.returned (.error .closed)) := by
  obtain ⟨g, hg, hlost⟩ := h.lost
  obtain ⟨g₀, e₀, hg₀, he₀, hsize⟩ := hgoing
  obtain rfl := Option.some.inj (hg₀.symm.trans hg)
  cases g₀ with
  | opened k e closed =>
    obtain rfl : closed = true := hlost
    obtain rfl := Option.some.inj he₀
    simp only [Reading.step, hg, if_neg hsize, Option.some.injEq] at hs
    rw [← hs]
    exact Reading.gets_self
  | found | returned =>
    simp only [Reading.step, hg] at hs
    cases hs

/-! ### The loop -/

/-- A `Get` is under way for a key that had a value when it was looked up. -/
structure Asking (merges : Prop) (key value : Bytes) (r : Reading) : Prop where
  get : Undisturbed 0 key value r ∨ merges ∧ Disturbed 0 r
  going : r.Going

/-- Where a `Fold` stands that has looked the keys of `seen` up. -/
inductive Phase (fn : Bytes → Bytes → Bool) (merges : Prop)
    (seen : List (Bytes × Except Err Bytes)) (t : Folding) : Prop
  | between (idle : t.reading.gets 0 = none) (ended : t.ended = none)
      (same : t.reported = foundIn seen)
  | asking {pre : List (Bytes × Except Err Bytes)} {value : Bytes} (ended : t.ended = none)
      (last : seen = pre ++ [(t.current, .ok value)]) (same : t.reported = foundIn pre)
      (get : Asking merges t.current value t.reading)
  | returned (idle : t.reading.gets 0 = none) (ended : t.ended = some .nil) (left : t.left = [])
      (same : t.reported = foundIn seen)
  | stopped (idle : t.reading.gets 0 = none) (ended : t.ended = some .stopped)
      (same : t.reported = foundIn seen)
      (last : ∃ p, t.reported.getLast? = some p ∧ fn p.1 p.2 = true)
  | failed {err : Err} {pre : List (Bytes × Except Err Bytes)} {value : Bytes}
      (idle : t.reading.gets 0 = none) (ended : t.ended = some (.failed err)) (merged : merges)
      (cause : err = .notExist ∨ err = .closed) (last : seen = pre ++ [(t.current, .ok value)])
      (same : t.reported = foundIn pre)

variable {fn : Bytes → Bytes → Bool} {merges : Prop} {seen pre : List (Bytes × Except Err Bytes)}
  {t t' : Folding} {keys : List Bytes}

@[simp] theorem foundIn_append_ok (pre : List (Bytes × Except Err Bytes)) (key value : Bytes) :
    foundIn (pre ++ [(key, .ok value)]) = foundIn pre ++ [(key, value)] := by
  simp [foundIn, Except.toOption]

@[simp] theorem foundIn_append_error (pre : List (Bytes × Except Err Bytes)) (key : Bytes)
    (err : Err) : foundIn (pre ++ [(key, .error err)]) = foundIn pre := by
  simp [foundIn, Except.toOption]

/-- `Get` has returned a value. -/
theorem Phase.answered (hget : t.reading.gets 0 = some (.returned (.ok value)))
    (hlast : seen = pre ++ [(t.current, .ok value)]) (hsame : t.reported = foundIn pre) :
    Phase fn merges seen (t.settle fn) := by
  have hreported : t.reported ++ [(t.current, value)] = foundIn seen := by
    rw [hlast, foundIn_append_ok, hsame]
  have hsettle : t.settle fn = { t with
      reading := { t.reading with gets := fun _ => none }
      reported := t.reported ++ [(t.current, value)]
      ended := if fn t.current value then some .stopped else none } := by
    rw [Folding.settle, hget]
  rw [hsettle]
  by_cases hfn : fn t.current value = true
  · exact .stopped rfl (if_pos hfn) hreported ⟨(t.current, value), by simp, hfn⟩
  · exact .between rfl (if_neg hfn) hreported

/-- `Get` has lost the file of its key. -/
theorem Phase.lost {err : Err} (hget : t.reading.gets 0 = some (.returned (.error err)))
    (hmerges : merges) (hcause : err = .notExist ∨ err = .closed)
    (hlast : seen = pre ++ [(t.current, .ok value)]) (hsame : t.reported = foundIn pre) :
    Phase fn merges seen (t.settle fn) := by
  have hne : err ≠ .keyNotFound := by rcases hcause with rfl | rfl <;> decide
  have hsettle : t.settle fn = { t with
      reading := { t.reading with gets := fun _ => none }
      ended := some (.failed err) } := by
    rw [Folding.settle, hget]
    exact if_neg hne
  rw [hsettle]
  exact .failed rfl rfl hmerges hcause hlast hsame

/-- `Get` goes on. -/
theorem Folding.settle_going (h : t.reading.Going) : t.settle fn = t := by
  obtain ⟨g, e, hg, hentry, -⟩ := h
  rw [Folding.settle, hg]
  cases g with
  | found | opened => rfl
  | returned => cases hentry

/-- A step of another call beside a `Get`. -/
theorem Asking.call {c : Call} (h : Asking merges key value r) (hfresh : Unwrapped r.shared)
    (hs : r.step (.call c) = some r') (hc : ∀ i, c = .resume i → merges) :
    Asking merges key value r' where
  get := by
    rcases h.get with hu | ⟨hm, hd⟩
    · by_cases hleaves : Reading.Leaves 0 r (.call c)
      · exact Or.inl (hu.step hleaves hs)
      · have hdisturbed := hu.disturb hfresh hleaves hs
        simp only [Reading.Leaves, not_forall, not_not] at hleaves
        obtain ⟨e, -, hid⟩ := hleaves
        obtain ⟨i, run, hi, -⟩ := Reading.mem_removes hid
        exact Or.inr ⟨hc i (ReadStep.call.inj hi), hdisturbed⟩
    · exact Or.inr ⟨hm, hd.step hs⟩
  going := by
    obtain ⟨g, e, hg, hentry, hsize⟩ := h.going
    refine ⟨_, e, ((Reading.step_call hs).2 0).trans (by rw [hg]; rfl), ?_, hsize⟩
    cases g with
    | found | opened => exact hentry
    | returned => cases hentry

theorem Phase.call {c : Call} (h : Phase fn merges seen t) (hfresh : Unwrapped t.reading.shared)
    (hs : t.reading.step (.call c) = some r) (hc : ∀ i, c = .resume i → merges) :
    Phase fn merges seen { t with reading := r } := by
  have hidle : t.reading.gets 0 = none → r.gets 0 = none := by
    intro hnone
    rw [(Reading.step_call hs).2 0, hnone]
    rfl
  cases h with
  | between idle ended same => exact .between (hidle idle) ended same
  | asking ended last same get => exact .asking ended last same (get.call hfresh hs hc)
  | returned idle ended left same => exact .returned (hidle idle) ended left same
  | stopped idle ended same last => exact .stopped (hidle idle) ended same last
  | failed idle ended merged cause last same =>
    exact .failed (hidle idle) ended merged cause last same

/-- Only a `Get` that is under way can take its next step. -/
theorem Phase.get_asking {a : ReadStep} (h : Phase fn merges seen t)
    (ha : a = .openFile 0 ∨ a = .read 0) (hs : t.reading.step a = some r) :
    ∃ pre value, t.ended = none ∧ seen = pre ++ [(t.current, .ok value)] ∧
      t.reported = foundIn pre ∧ Asking merges t.current value t.reading := by
  have hbusy : t.reading.gets 0 ≠ none := by
    intro hnone
    rcases ha with rfl | rfl <;> simp [Reading.step, hnone] at hs
  cases h with
  | asking ended last same get => exact ⟨_, _, ended, last, same, get⟩
  | between idle | returned idle | stopped idle | failed idle => exact absurd idle hbusy

theorem Phase.openFile (h : Phase fn merges seen t) (hs : t.reading.step (.openFile 0) = some r) :
    Phase fn merges seen (Folding.settle fn { t with reading := r }) := by
  obtain ⟨pre, value, ended, last, same, get⟩ := h.get_asking (Or.inl rfl) hs
  rcases get.get with hu | ⟨hm, hd⟩
  · obtain ⟨hnext, hgoing⟩ := hu.openFile get.going hs
    rw [Folding.settle_going (t := { t with reading := r }) hgoing]
    exact .asking ended last same ⟨Or.inl hnext, hgoing⟩
  · exact .lost (t := { t with reading := r }) (hd.openFile hs) hm (Or.inl rfl) last same

theorem Phase.read (h : Phase fn merges seen t) (hs : t.reading.step (.read 0) = some r) :
    Phase fn merges seen (Folding.settle fn { t with reading := r }) := by
  obtain ⟨pre, value, -, last, same, get⟩ := h.get_asking (Or.inr rfl) hs
  rcases get.get with hu | ⟨hm, hd⟩
  · exact .answered (t := { t with reading := r }) (hu.read hs) last same
  · exact .lost (t := { t with reading := r }) (hd.read get.going hs) hm (Or.inr rfl) last same

/-- The next key is looked up. -/
theorem Phase.next {left : List Bytes} (hready : Ready t.reading.shared)
    (hf : Flights segs m t.reading.shared) (hended : t.ended = none)
    (hsame : t.reported = foundIn seen) (hs : t.reading.step (.find 0 key) = some r) :
    Phase fn merges (seen ++ [(key, answer (m key))])
      (Folding.settle fn { t with reading := r, left := left, current := key }) := by
  cases hm : m key with
  | none =>
    have hget : r.gets 0 = some (.returned (.error .keyNotFound)) := by
      simp only [Reading.step] at hs
      split at hs
      · rw [← Option.some.inj hs, Reading.part, hf.findEntry_none hm]
        exact Reading.gets_self
      · cases hs
    have hsettle : Folding.settle fn { t with reading := r, left := left, current := key } =
        { t with reading := { r with gets := fun _ => none }, left := left, current := key } := by
      rw [Folding.settle, hget]
      rfl
    rw [hsettle]
    exact .between rfl hended (hsame.trans (foundIn_append_error seen key _).symm)
  | some value =>
    have hlive : t.reading.shared.world.lookup key = .ok value := by rw [hf.lookup_eq, hm]; rfl
    have hu : Undisturbed 0 key value r := .find hready hlive hs
    have hgoing : r.Going := by
      obtain ⟨e, hfind, _, _, -, hrecord, -⟩ := carries_of_lookup hlive
      simp only [Reading.step] at hs
      split at hs
      · rw [← Option.some.inj hs, Reading.part, hfind]
        exact ⟨_, e, Reading.gets_self, rfl, hrecord.recordSize_ne_zero⟩
      · cases hs
    rw [Folding.settle_going (t := { t with reading := r, left := left, current := key }) hgoing]
    exact .asking hended rfl hsame ⟨Or.inl hu, hgoing⟩

/-- What holds of a `Fold` over `keys` while the store serves the map `m`. -/
structure Folds (fn : Bytes → Bytes → Bool) (merges : Prop) (keys : List Bytes)
    (m : Bytes → Option Bytes) (seen : List (Bytes × Except Err Bytes)) (t : Folding) : Prop where
  ready : Ready t.reading.shared
  fresh : Unwrapped t.reading.shared
  live : t.reading.shared.world.db.activeFile ≠ .closed
  flights : ∃ segs, Flights segs m t.reading.shared
  order : seen.map Prod.fst ++ t.left = keys
  phase : Phase fn merges seen t

theorem Folding.settle_shared (fn : Bytes → Bytes → Bool) (t : Folding) :
    (t.settle fn).reading.shared = t.reading.shared ∧ (t.settle fn).left = t.left := by
  unfold Folding.settle
  split
  · split
    · exact ⟨rfl, rfl⟩
    · split <;> exact ⟨rfl, rfl⟩
  · exact ⟨rfl, rfl⟩

namespace Folds

/-- A step of another call. -/
theorem call {c : Call} (h : Folds fn merges keys m seen t) (hsized : c.Sized)
    (hc : ∀ i, c = .resume i → merges) (hs : t.reading.step (.call c) = some r) :
    Folds fn merges keys (c.effect m) seen { t with reading := r } := by
  obtain ⟨segs, hf⟩ := h.flights
  obtain ⟨segs', hstepped⟩ := hf.stepped hsized (Reading.step_call hs).1
  have hnext := hf.step hstepped
  rw [Shared.effect, if_neg h.live] at hnext
  exact ⟨h.ready.step hs, h.fresh.read h.ready hs, hstepped.live h.live, ⟨segs', hnext⟩, h.order,
    h.phase.call h.fresh hs hc⟩

/-- A step of the `Get` that is under way. -/
theorem get {a : ReadStep} (h : Folds fn merges keys m seen t)
    (ha : a = .openFile 0 ∨ a = .read 0) (hs : t.reading.step a = some r) :
    Folds fn merges keys m seen (Folding.settle fn { t with reading := r }) := by
  have hget : a.get = some 0 := by rcases ha with rfl | rfl <;> rfl
  obtain ⟨hshared, hleft⟩ := Folding.settle_shared fn { t with reading := r }
  obtain ⟨segs, hf⟩ := h.flights
  obtain ⟨hnext, hsame⟩ := hf.get hget hs
  refine ⟨hshared ▸ h.ready.step hs, hshared ▸ h.fresh.read h.ready hs, ?_,
    ⟨segs, hshared ▸ hnext⟩, by rw [hleft]; exact h.order, ?_⟩
  · rw [hshared]
    exact hsame.trans_ne h.live
  · rcases ha with rfl | rfl
    · exact h.phase.openFile hs
    · exact h.phase.read hs

/-- The loop goes on to the next key. -/
theorem next (h : Folds fn merges keys m seen t) (hs : t.step fn .next = some t') :
    Folds fn merges keys m (seen ++ (t.sees .next).toList) t' ∧
      ∀ p ∈ t.sees .next, p.2 = answer (m p.1) := by
  simp only [Folding.step] at hs
  split at hs
  · next hended hidle hleft =>
    obtain rfl := Option.some.inj hs
    have hnone : t.sees .next = none := by rw [Folding.sees, hleft]; rfl
    rw [hnone, Option.toList_none, List.append_nil]
    refine ⟨⟨h.ready, h.fresh, h.live, h.flights, h.order, ?_⟩, fun p hp => by cases hp⟩
    cases h.phase with
    | between idle ended same => exact .returned idle rfl hleft same
    | asking ended last same get =>
      obtain ⟨g, e, hg, -⟩ := get.going
      cases hg.symm.trans hidle
    | returned idle ended | stopped idle ended | failed idle ended => cases ended.symm.trans hended
  · next key left hended hidle hleft =>
    obtain ⟨r, hr, rfl⟩ := Option.map_eq_some_iff.mp hs
    obtain ⟨segs, hf⟩ := h.flights
    have hsome : t.sees .next = some (key, answer (m key)) := by
      rw [Folding.sees, hleft, ← hf.lookup_eq]
      rfl
    obtain ⟨hshared, hleft'⟩ := Folding.settle_shared fn
      { t with reading := r, left := left, current := key }
    obtain ⟨hnext, hsame⟩ := hf.get rfl hr
    rw [hsome]
    refine ⟨⟨hshared ▸ h.ready.step hr, hshared ▸ h.fresh.read h.ready hr, ?_,
      ⟨segs, hshared ▸ hnext⟩, ?_, ?_⟩, fun p hp => ?_⟩
    · rw [hshared]
      exact hsame.trans_ne h.live
    · rw [hleft', ← h.order, hleft]
      simp
    · cases h.phase with
      | between idle ended same => exact .next h.ready hf ended same hr
      | asking ended last same get =>
        obtain ⟨g, e, hg, -⟩ := get.going
        cases hg.symm.trans hidle
      | returned idle ended | stopped idle ended | failed idle ended =>
        cases ended.symm.trans hended
    · obtain rfl := Option.some.inj hp
      rfl
  · cases hs

/-- What one step does, with the map that the store then serves. -/
theorem step {a : FoldStep} (h : Folds fn merges keys m seen t) (hs : t.step fn a = some t')
    (hsized : ∀ c, a = .call c → c.Sized) (hc : ∀ i, a = .call (.resume i) → merges) :
    Folds fn merges keys ((callsOf [a]).foldl Call.effect m) (seen ++ (t.sees a).toList) t' ∧
      ∀ p ∈ t.sees a, p.2 = answer (m p.1) := by
  cases a with
  | call c =>
    obtain ⟨r, hr, rfl⟩ := Option.map_eq_some_iff.mp hs
    refine ⟨?_, fun p hp => by cases hp⟩
    have hnone : t.sees (.call c) = none := rfl
    rw [hnone, Option.toList_none, List.append_nil]
    exact h.call (hsized c rfl) (fun i hi => hc i (hi ▸ rfl)) hr
  | next => exact h.next hs
  | openFile =>
    obtain ⟨r, hr, rfl⟩ := Option.map_eq_some_iff.mp hs
    refine ⟨?_, fun p hp => by cases hp⟩
    have hnone : t.sees .openFile = none := rfl
    rw [hnone, Option.toList_none, List.append_nil]
    exact h.get (Or.inl rfl) hr
  | read =>
    obtain ⟨r, hr, rfl⟩ := Option.map_eq_some_iff.mp hs
    refine ⟨?_, fun p hp => by cases hp⟩
    have hnone : t.sees .read = none := rfl
    rw [hnone, Option.toList_none, List.append_nil]
    exact h.get (Or.inr rfl) hr

/-- What a run does; each key is answered from the map that is served at some moment of the run. -/
theorem run {as : List FoldStep} (h : Folds fn merges keys m seen t)
    (hrun : (folding fn).exec t as = some t') (hsized : ∀ c, .call c ∈ as → c.Sized)
    (hc : ∀ i, .call (.resume i) ∈ as → merges) :
    Folds fn merges keys ((callsOf as).foldl Call.effect m)
        (seen ++ (folding fn).reads Folding.sees t as) t' ∧
      ∀ p ∈ (folding fn).reads Folding.sees t as,
        ∃ before, before <+: as ∧ p.2 = answer ((callsOf before).foldl Call.effect m p.1) := by
  induction as generalizing t m seen with
  | nil =>
    cases hrun
    rw [Machine.reads, List.append_nil]
    exact ⟨h, fun p hp => by cases hp⟩
  | cons a as ih =>
    obtain ⟨t₁, h₁, hrest⟩ := Machine.exec_cons_eq_some.mp hrun
    obtain ⟨hnext, hsees⟩ := h.step h₁ (fun c hc' => hsized c (hc' ▸ List.mem_cons_self))
      fun i hi => hc i (hi ▸ List.mem_cons_self)
    obtain ⟨hend, hlater⟩ := ih hnext hrest (fun c hmem => hsized c (List.mem_cons_of_mem a hmem))
      fun i hmem => hc i (List.mem_cons_of_mem a hmem)
    have hcalls : ∀ bs, (callsOf (a :: bs)).foldl Call.effect m =
        (callsOf bs).foldl Call.effect ((callsOf [a]).foldl Call.effect m) := by
      intro bs
      rw [← List.foldl_append, callsOf, callsOf, callsOf, ← List.filterMap_append,
        List.singleton_append]
    have hreads : (folding fn).reads Folding.sees t (a :: as) =
        (t.sees a).toList ++ (folding fn).reads Folding.sees t₁ as := by
      rw [Machine.reads, h₁]
    rw [hreads, hcalls, ← List.append_assoc]
    refine ⟨hend, fun p hp => ?_⟩
    rcases List.mem_append.mp hp with hp | hp
    · exact ⟨[], List.nil_prefix, hsees p (Option.mem_toList.mp hp)⟩
    · obtain ⟨before, hprefix, hanswer⟩ := hlater p hp
      exact ⟨a :: before, (List.cons_prefix_cons).mpr ⟨rfl, hprefix⟩, by rw [hcalls, hanswer]⟩

end Folds

theorem Folds.start {before : List Call} (hready : Ready s) (hfresh : Unwrapped s)
    (hlive : s.world.db.activeFile ≠ .closed) (hf : Flights segs (Call.served before) s) :
    Folds fn merges s.world.db.keydir.keys (Call.served before) [] (.start s) :=
  ⟨hready, hfresh, hlive, ⟨segs, hf⟩, rfl, .between rfl rfl rfl⟩

/-- `Fold` beside any calls of `Put`, `Delete` and `Merge`. It looks up, in their order, the keys
that are live when it begins, and reports a pair for each that then has a value, until its argument
returns an error; every answer is from the map that the store serves at some moment of the `Fold`.
It returns the error of a `Get` only if a `Merge` goes on meanwhile. -/
theorem fold_reports (fn : Bytes → Bytes → Bool) {s₀ : Shared} {before : List Call}
    {as : List FoldStep} (h₀ : overlap.initial s₀) (hbefore : overlap.exec s₀ before = some s)
    (hrun : (folding fn).exec (.start s) as = some t) (hsized : ∀ c ∈ before, c.Sized)
    (hsized' : ∀ c, .call c ∈ as → c.Sized) :
    ∃ keys seen, seen = (folding fn).reads Folding.sees (.start s) as ∧
      keys.Pairwise (fun a b => compare a b = .lt) ∧
      (∀ k, k ∈ keys ↔ Call.served before k ≠ none) ∧
      seen.map Prod.fst ++ t.left = keys ∧
      (∀ p ∈ seen, ∃ during, during <+: as ∧
        p.2 = answer (Call.served (before ++ callsOf during) p.1)) ∧
      t.reported <+: foundIn seen ∧
      (t.ended = some .nil → t.left = [] ∧ t.reported = foundIn seen) ∧
      (t.ended = some .stopped → t.reported = foundIn seen ∧
        ∃ p, t.reported.getLast? = some p ∧ fn p.1 p.2 = true) ∧
      ∀ err, t.ended = some (.failed err) →
        (∃ i, .call (.resume i) ∈ as) ∧ (err = .notExist ∨ err = .closed) := by
  obtain ⟨segs₀, hinit, hlive₀⟩ := Flights.initial h₀
  obtain ⟨segs, hf, hlive⟩ := hinit.run hlive₀ hsized hbefore
  obtain ⟨hready, hfresh⟩ : Ready s ∧ Unwrapped s :=
    Machine.Leads.invariant (m := overlap) (P := fun s => Ready s ∧ Unwrapped s)
      (fun _ _ _ h hs => ⟨h.1.call hs, h.2.call h.1 hs⟩) ⟨before, hbefore⟩
      ⟨.initial (opened_of_overlap h₀), .of_overlap h₀⟩
  have hstart : Folds fn (∃ i, .call (.resume i) ∈ as) _ (Call.served before) [] (.start s) :=
    .start hready hfresh hlive hf
  obtain ⟨hend, hanswers⟩ := hstart.run hrun hsized' fun i hi => ⟨i, hi⟩
  rw [List.nil_append] at hend
  obtain ⟨ks, hks, hordered, hkeys⟩ := hf.steady.listKeys
  obtain ⟨rfl, -⟩ := EStateM.Result.ok.inj hks
  refine ⟨_, _, rfl, hordered, hkeys, hend.order, fun p hp => ?_, ?_, ?_, ?_, ?_⟩
  · obtain ⟨during, hprefix, hanswer⟩ := hanswers p hp
    exact ⟨during, hprefix, by rw [hanswer, Call.served, Call.served, List.foldl_append]⟩
  · cases hend.phase with
    | between idle ended same => rw [same]
    | asking ended last same get => rw [same, last, foundIn_append_ok]; exact List.prefix_append _ _
    | returned idle ended left same => rw [same]
    | stopped idle ended same last => rw [same]
    | failed idle ended merged cause last same =>
      rw [same, last, foundIn_append_ok]
      exact List.prefix_append _ _
  · intro hnil
    cases hend.phase with
    | returned idle ended left same => exact ⟨left, same⟩
    | between idle ended | asking ended | stopped idle ended | failed idle ended =>
      cases ended.symm.trans hnil
  · intro hstopped
    cases hend.phase with
    | stopped idle ended same last => exact ⟨same, last⟩
    | between idle ended | asking ended | returned idle ended | failed idle ended =>
      cases ended.symm.trans hstopped
  · intro err hfailed
    cases hend.phase with
    | failed idle ended merged cause last same =>
      obtain rfl := FoldEnd.failed.inj (Option.some.inj (ended.symm.trans hfailed))
      exact ⟨merged, cause⟩
    | between idle ended | asking ended | returned idle ended | stopped idle ended =>
      cases ended.symm.trans hfailed

/-- After the first key has been read, it is put again, the second is deleted and the third is put
again. -/
def overtaken : List FoldStep :=
  [.next, .openFile, .read, .call (.put 4 [1] [5]), .call (.delete 5 [2]), .call (.put 6 [3] [6]),
    .next, .next, .openFile, .call (.get [1]), .read, .next]

/-- The pairs that are reported were never in the store together. -/
theorem fold_reports_overtaken : ∃ s₀ s t, overlap.initial s₀ ∧
    overlap.exec s₀ [.put 1 [1] [7], .put 2 [2] [8], .put 3 [3] [9]] = some s ∧
    (folding fun _ _ => false).exec (.start s) overtaken = some t ∧
    t.reported = [([1], [7]), ([3], [6])] ∧ t.ended = some .nil ∧
    t.reported =
      foundIn ((folding fun _ _ => false).reads Folding.sees (.start s) overtaken) := by
  have hrun : ((World.empty.openDB ⟨true, false, 25⟩).bind fun w =>
      (overlap.exec ⟨w, fun _ => none⟩
        [.put 1 [1] [7], .put 2 [2] [8], .put 3 [3] [9]]).bind fun s =>
      ((folding fun _ _ => false).exec (.start s) overtaken).map fun t =>
        (t.reported, t.ended)) = some ([([1], [7]), ([3], [6])], some .nil) := by decide +kernel
  obtain ⟨w, hw, hrun⟩ := Option.bind_eq_some_iff.mp hrun
  obtain ⟨s, hs, hrun⟩ := Option.bind_eq_some_iff.mp hrun
  obtain ⟨t, ht, heq⟩ := Option.map_eq_some_iff.mp hrun
  obtain ⟨hreported, hended⟩ := Prod.mk.inj heq
  have h₀ : overlap.initial ⟨w, fun _ => none⟩ := ⟨rfl, ⟨true, false, 25⟩, hw⟩
  have hsized : ∀ c ∈ callsOf overtaken, c.Sized := by decide
  obtain ⟨keys, seen, hseen, -, -, -, -, -, hnil, -⟩ :=
    fold_reports (fun _ _ => false) h₀ hs ht (by decide) fun c hc =>
      hsized c (List.mem_filterMap.mpr ⟨_, hc, rfl⟩)
  exact ⟨_, s, t, h₀, hs, ht, hreported, hended, hseen ▸ (hnil hended).2⟩

end KvRaft.Store
