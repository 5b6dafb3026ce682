import KvRaft.Store.Failures

/-! Calls of `Merge` that fail, in runs of calls that overlap: what a call has left behind when it
returns an error. Every step but the last works on temporary files only, and the deferred cleanup
removes those; but it knows only the temporary names, so a rename that fails after another one
leaves files of the call under their final names. -/

namespace KvRaft.Store

open Effects

variable {α : Type} {w w' : World}

/-! ### The steps of a call -/

/-- A step of a call, without the deferred cleanup. -/
def Merging.body : Merging → Op (Option Merging)
  | .next run [] => do
    publishMerged run
    return none
  | .next run (key :: keys) => do
    let rec ← snapshotRecord run key
    return some (.found run key rec keys)
  | .found run key rec keys => do
    let (run', file) ← mergeTarget run
      (Int64.ofNat (encodeDataRecord rec.timestamp key rec.value).length)
    return some (.placed run' file key rec keys)
  | .placed run file key rec keys => do
    let run' ← mergeAppend run file key rec
    return some (.next run' keys)

/-- A step of a call, whether or not it fails. -/
def Merging.advance (x : Merging) : Op (Option Merging) :=
  onError x.body (cleanupMergeFiles x.run.mergedFiles)

theorem part_onError {op : Op α} {cleanup : Op Unit} (hc : ∀ v, ∃ v', cleanup v = .ok () v')
    (next : α → Option Merging) (w : World) :
    w.part (onError op cleanup) next = w.part (onError (do return next (← op)) cleanup) id := by
  rcases onError_cases op hc w with ⟨a, v, hop, heq⟩ | ⟨e, v, hop, heq⟩
  · have hnext : (do return next (← op) : Op (Option Merging)) w = .ok (next a) v := by
      rw [bind_apply, hop]
      rfl
    rw [World.part, World.part, heq, onError_ok hnext]
    rfl
  · have hnext : (do return next (← op) : Op (Option Merging)) w = .error e v := by
      rw [bind_apply, hop]
    obtain ⟨v', hv⟩ := hc v
    rw [World.part, World.part, heq, onError_error hnext hv, left_ok hv]
    cases e with
    | fault => rfl
    | _ => rfl

theorem Merging.resume_eq (x : Merging) (w : World) : x.resume w = w.part x.advance id := by
  have hc := cleanupMergeFiles_ok x.run.mergedFiles
  rcases x with ⟨run, _ | ⟨key, keys⟩⟩ | ⟨run, key, rec, keys⟩ | ⟨run, file, key, rec, keys⟩
  · exact part_onError hc _ w
  · exact part_onError hc _ w
  · exact part_onError hc _ w
  · exact part_onError hc _ w

/-- No temporary file has the ID. -/
def Disk.Gone (d : Disk) (id : Nat) : Prop := d.tmpData[id]? = none ∧ d.tmpHint[id]? = none

theorem Disk.Temporary.gone {d d' : Disk} {id : Nat} (h : d.Temporary d' []) (hd : d.Gone id) :
    d'.Gone id := by
  refine ⟨?_, ?_⟩
  · by_contra hne
    exact ((h id).1 hne).elim (· hd.1) (List.not_mem_nil ·)
  · by_contra hne
    exact ((h id).2 hne).elim (· hd.2) (List.not_mem_nil ·)

theorem cleanupMergeFiles_cons (id : Nat) (files : List Nat)
    (h : ∀ o ∈ w.outcomes, o.failed = false) :
    cleanupMergeFiles (id :: files) w = cleanupMergeFiles files
      { w with disk := (w.disk.remove (.tmpData id)).remove (.tmpHint id)
               outcomes := w.outcomes.drop 2 } := by
  have h₁ := removeFile_calm (.tmpData id) h
  have h₂ := removeFile_calm (w := { w with disk := w.disk.remove (.tmpData id)
                                            outcomes := w.outcomes.drop 1 }) (.tmpHint id)
    fun o ho => h o (List.mem_of_mem_drop ho)
  change ((do removeFile (.tmpData id); removeFile (.tmpHint id)) >>=
    fun _ => cleanupMergeFiles files) w = _
  simp only [bind_apply, h₁, h₂, List.drop_drop]

/-- With no failure to come, the cleanup removes the files. -/
theorem cleanupMergeFiles_calm (files : List Nat) (h : ∀ o ∈ w.outcomes, o.failed = false) :
    ∀ id ∈ files, (left (cleanupMergeFiles files) w).disk.Gone id := by
  induction files generalizing w with
  | nil => exact fun id hid => absurd hid List.not_mem_nil
  | cons i files ih =>
    intro id hid
    let v : World := { w with disk := (w.disk.remove (.tmpData i)).remove (.tmpHint i)
                              outcomes := w.outcomes.drop 2 }
    have hleft : left (cleanupMergeFiles (i :: files)) w = left (cleanupMergeFiles files) v := by
      rw [left, cleanupMergeFiles_cons i files h]
      rfl
    rw [hleft]
    rcases List.mem_cons.mp hid with rfl | hid
    · refine ((hushed_cleanupMergeFiles files) v).2.gone ⟨?_, ?_⟩
      · simp [v, Disk.remove]
      · simp [v, Disk.remove]
    · exact ih (fun o ho => h o (List.mem_of_mem_drop ho)) id hid

namespace Merging

variable {x y : Merging}

/-- The condition on the last step of a call: the `DB` is closed, or none of the renames after the
first fails. -/
def RenamesWell (x : Merging) (w : World) : Prop :=
  match x with
  | .next run [] => w.db.closed = true ∨ run.RenamesWell w
  | _ => True

instance (x : Merging) (w : World) : Decidable (x.RenamesWell w) :=
  match x with
  | .next run [] => inferInstanceAs (Decidable (w.db.closed = true ∨ run.RenamesWell w))
  | .next _ (_ :: _) | .found _ _ _ _ | .placed _ _ _ _ _ => inferInstanceAs (Decidable True)

/-- The removals that follow the error of a step succeed. -/
def CleansUp (x : Merging) (w : World) : Prop :=
  FailsOnce w.outcomes ∧ ∀ o ∈ (left x.body w).outcomes, o.failed = false

instance (x : Merging) (w : World) : Decidable (x.CleansUp w) :=
  inferInstanceAs (Decidable (FailsOnce _ ∧ ∀ o ∈ _, Outcome.failed o = false))

theorem body_ok (h : x.body w = .ok (some y) w') :
    Untouched w w' ∧ w.disk.Temporary w'.disk y.run.mergedFiles ∧
      x.run.mergedFiles ⊆ y.run.mergedFiles := by
  rcases x with ⟨run, _ | ⟨key, keys⟩⟩ | ⟨run, key, rec, keys⟩ | ⟨run, file, key, rec, keys⟩
  · obtain ⟨_, v, -, h⟩ := of_bind_apply_ok h
    cases h
  · obtain ⟨rec, v, hread, h⟩ := of_bind_apply_ok h
    obtain ⟨hu, ht⟩ := (hushed_snapshotRecord run key).ok hread
    cases h
    exact ⟨hu, ht.mono (List.nil_subset _), List.Subset.refl _⟩
  · obtain ⟨p, v, htarget, h⟩ := of_bind_apply_ok h
    have hspec := mergeTarget_ok htarget
    cases h
    exact hspec
  · obtain ⟨run', v, happend, h⟩ := of_bind_apply_ok h
    obtain ⟨hu, ht⟩ := (hushed_mergeAppend run file key rec).ok happend
    have hfiles := (mergeAppend_ok happend).1
    cases h
    exact ⟨hu, ht.mono (List.nil_subset _), fun _ hid => hfiles ▸ hid⟩

theorem body_error {e : Err} (h : x.body w = .error e w') :
    (x.RenamesWell w → Untouched w w') ∧ (FailsOnce w.outcomes → w.disk.Temporary w'.disk []) := by
  rcases x with ⟨run, _ | ⟨key, keys⟩⟩ | ⟨run, key, rec, keys⟩ | ⟨run, file, key, rec, keys⟩
  · rcases of_bind_apply_error h with h | ⟨_, v, -, h⟩
    · obtain ⟨hu, ht⟩ := publishMerged_error h
      exact ⟨hu, fun _ => ht⟩
    · cases h
  · rcases of_bind_apply_error h with h | ⟨_, v, -, h⟩
    · obtain ⟨hu, ht⟩ := (hushed_snapshotRecord run key).error h
      exact ⟨fun _ => hu, fun _ => ht⟩
    · cases h
  · rcases of_bind_apply_error h with h | ⟨_, v, -, h⟩
    · obtain ⟨hu, ht⟩ := mergeTarget_error h
      exact ⟨fun _ => hu, ht⟩
    · cases h
  · rcases of_bind_apply_error h with h | ⟨_, v, -, h⟩
    · obtain ⟨hu, ht⟩ := (hushed_mergeAppend run file key rec).error h
      exact ⟨fun _ => hu, fun _ => ht⟩
    · cases h

theorem advance_ok (h : x.advance w = .ok (some y) w') :
    Untouched w w' ∧ w.disk.Temporary w'.disk y.run.mergedFiles ∧
      x.run.mergedFiles ⊆ y.run.mergedFiles := by
  rcases onError_cases x.body (cleanupMergeFiles_ok x.run.mergedFiles) w with
    ⟨a, v, hbody, heq⟩ | ⟨e, v, -, heq⟩
  · obtain ⟨rfl, rfl⟩ := EStateM.Result.ok.inj (heq.symm.trans h)
    exact body_ok hbody
  · cases heq.symm.trans h

/-- What a step that fails leaves. -/
theorem advance_error {e : Err} (h : x.advance w = .error e w') :
    (x.RenamesWell w → Untouched w w') ∧ (x.CleansUp w →
      w.disk.Temporary w'.disk [] ∧ ∀ id ∈ x.run.mergedFiles, w'.disk.Gone id) := by
  rcases onError_cases x.body (cleanupMergeFiles_ok x.run.mergedFiles) w with
    ⟨a, v, -, heq⟩ | ⟨e', v, hbody, heq⟩
  · cases heq.symm.trans h
  · obtain ⟨-, rfl⟩ := EStateM.Result.error.inj (heq.symm.trans h)
    obtain ⟨hu, ht⟩ := body_error hbody
    obtain ⟨hu', ht'⟩ := hushed_cleanupMergeFiles x.run.mergedFiles v
    refine ⟨fun hwell => (hu hwell).trans hu', fun hclean => ⟨(ht hclean.1).trans ht', ?_⟩⟩
    exact cleanupMergeFiles_calm _ (left_error hbody ▸ hclean.2)

end Merging

/-! ### Runs in which calls fail -/

/-- What happens in a run: a call or a step of a call of `Merge`, or `Close`. -/
inductive Deed
  | call (c : Call)
  | close

/-- A deed, and how the file-system calls that it makes end. -/
structure Attempt where
  deed : Deed
  outcomes : List Outcome := []

/-- The call of `Merge` that the deed begins or takes further. -/
def Attempt.merging (a : Attempt) : Option Nat :=
  match a.deed with
  | .call (.merge id) | .call (.resume id) => some id
  | _ => none

/-- A step of a call of `Merge`: where the call stands, or nothing if it begins, and the state. -/
structure MergeStep where
  stands : Option Merging
  before : World

namespace MergeStep

def op (t : MergeStep) : Op (Option Merging) :=
  match t.stands with
  | none => do return (← mergeSnapshot).map fun run => .next run run.snapshot.keys
  | some x => x.advance

def after (t : MergeStep) : World := left t.op t.before

/-- What is left of the call, nothing if the step returned. -/
def rest (t : MergeStep) : Option Merging :=
  match t.op t.before with
  | .ok x _ => x
  | .error _ _ => none

def Fails (t : MergeStep) : Prop := ∃ e w, t.op t.before = .error e w

instance (t : MergeStep) : Decidable t.Fails :=
  match h : t.op t.before with
  | .ok _ _ => isFalse fun ⟨_, _, herr⟩ => by
    rw [h] at herr
    cases herr
  | .error e w => isTrue ⟨e, w, h⟩

/-- The step creates a temporary file with the ID. -/
def Makes (t : MergeStep) (id : Nat) : Prop :=
  t.before.disk.tmpData[id]? = none ∧ t.after.disk.tmpData[id]? ≠ none ∨
    t.before.disk.tmpHint[id]? = none ∧ t.after.disk.tmpHint[id]? ≠ none

def RenamesWell (t : MergeStep) : Prop := ∀ x ∈ t.stands, x.RenamesWell t.before

def CleansUp (t : MergeStep) : Prop := ∀ x ∈ t.stands, x.CleansUp t.before

instance (t : MergeStep) : Decidable t.RenamesWell :=
  inferInstanceAs (Decidable (∀ x ∈ t.stands, Merging.RenamesWell x t.before))

instance (t : MergeStep) : Decidable t.CleansUp :=
  inferInstanceAs (Decidable (∀ x ∈ t.stands, Merging.CleansUp x t.before))

variable {t : MergeStep} {x : Merging}

theorem mem_of_makes {new : List Nat} {id : Nat} (h : t.before.disk.Temporary t.after.disk new)
    (hmakes : t.Makes id) : id ∈ new := by
  rcases hmakes with ⟨hnone, hne⟩ | ⟨hnone, hne⟩
  · exact ((h id).1 hne).resolve_left (· hnone)
  · exact ((h id).2 hne).resolve_left (· hnone)

theorem hushed_first (w : World) : Within Hushed (op ⟨none, w⟩) :=
  .bind (within_mergeSnapshot hushed_calls) fun _ => .pure _

theorem goesOn (h : t.rest = some x) : Untouched t.before t.after ∧
    t.before.disk.Temporary t.after.disk x.run.mergedFiles ∧
    ∀ y ∈ t.stands, y.run.mergedFiles ⊆ x.run.mergedFiles := by
  obtain ⟨stands, w⟩ := t
  cases stands with
  | none =>
    obtain ⟨hu, ht⟩ := hushed_first w w
    exact ⟨hu, ht.mono (List.nil_subset _), fun y hy => by cases hy⟩
  | some y =>
    rw [rest] at h
    cases hop : op ⟨some y, w⟩ w with
    | error e v =>
      rw [hop] at h
      cases h
    | ok x' v =>
      rw [hop] at h
      subst h
      obtain ⟨hu, ht, hsub⟩ := Merging.advance_ok hop
      rw [after, left_ok hop]
      exact ⟨hu, ht, fun z hz => by cases hz; exact hsub⟩

theorem fails (h : t.Fails) : (t.RenamesWell → Untouched t.before t.after) ∧
    (t.CleansUp → t.before.disk.Temporary t.after.disk [] ∧
      ∀ y ∈ t.stands, ∀ id ∈ y.run.mergedFiles, t.after.disk.Gone id) := by
  obtain ⟨e, v, hop⟩ := h
  obtain ⟨stands, w⟩ := t
  cases stands with
  | none =>
    obtain ⟨hu, ht⟩ := hushed_first w w
    exact ⟨fun _ => hu, fun _ => ⟨ht, fun y hy => by cases hy⟩⟩
  | some y =>
    obtain ⟨hu, ht⟩ := Merging.advance_error hop
    rw [after, left_error hop]
    refine ⟨fun hwell => hu (hwell y rfl), fun hclean => ?_⟩
    obtain ⟨htmp, hgone⟩ := ht (hclean y rfl)
    exact ⟨htmp, fun z hz => by cases hz; exact hgone⟩

end MergeStep

namespace Shared

/-- The step of the call of `Merge` named `id` that the deed is. -/
def mergeStep (id : Nat) (s : Shared) (a : Attempt) : Option MergeStep :=
  match a.deed with
  | .call (.merge i) =>
    if i = id ∧ (s.merges id).isNone then some ⟨none, { s.world with outcomes := a.outcomes }⟩
    else none
  | .call (.resume i) =>
    if i = id then (s.merges id).map fun x => ⟨some x, { s.world with outcomes := a.outcomes }⟩
    else none
  | _ => none

def tookStep (s : Shared) (id : Nat) (t : MergeStep) : Shared :=
  ⟨{ t.after with outcomes := [] }, Function.update s.merges id t.rest⟩

/-- The state after a call that is no call of `Merge`, whatever it returned. -/
def tookCall (s : Shared) (op : Op α) (os : List Outcome) : Shared :=
  { s with world := { left op { s.world with outcomes := os } with outcomes := [] } }

def attempt (s : Shared) (a : Attempt) : Option Shared :=
  match a.deed with
  | .call (.put ts key value) => some (s.tookCall (put ts key value) a.outcomes)
  | .call (.delete ts key) => some (s.tookCall (delete ts key) a.outcomes)
  | .call (.get key) => some (s.tookCall (getValue key) a.outcomes)
  | .call .listKeys => some (s.tookCall listKeys a.outcomes)
  | .close => some (s.tookCall close a.outcomes)
  | .call (.merge id) | .call (.resume id) => (s.mergeStep id a).map (s.tookStep id)

variable {s s' : Shared} {a : Attempt} {id : Nat}

theorem attempt_merging (h : a.merging = some id) :
    s.attempt a = (s.mergeStep id a).map (s.tookStep id) := by
  obtain ⟨⟨c⟩ | _, os⟩ := a
  · cases c with
    | merge i => cases h; rfl
    | resume i => cases h; rfl
    | _ => cases h
  · cases h

theorem attempt_call (h : a.merging = none) : ∃ w, s.attempt a = some { s with world := w } := by
  obtain ⟨⟨c⟩ | _, os⟩ := a
  · cases c with
    | merge i => cases h
    | resume i => cases h
    | _ => exact ⟨_, rfl⟩
  · exact ⟨_, rfl⟩

theorem mergeStep_other (h : a.merging ≠ some id) : s.mergeStep id a = none := by
  obtain ⟨⟨c⟩ | _, os⟩ := a
  · cases c with
    | merge i => exact if_neg fun hi => h (congrArg some hi.1)
    | resume i => exact if_neg fun hi => h (congrArg some hi)
    | _ => rfl
  · rfl

/-- A step of one call of `Merge` does not move the others. -/
theorem attempt_merges (h : s.attempt a = some s') (id : Nat) :
    s'.merges id = match s.mergeStep id a with
      | some t => t.rest
      | none => s.merges id := by
  cases hm : a.merging with
  | none =>
    obtain ⟨w, hw⟩ := attempt_call (s := s) hm
    obtain rfl := Option.some.inj (hw.symm.trans h)
    rw [mergeStep_other (by simp [hm])]
  | some i =>
    rw [attempt_merging hm] at h
    obtain ⟨t, ht, rfl⟩ := Option.map_eq_some_iff.mp h
    by_cases hi : i = id
    · subst hi
      rw [ht]
      exact Function.update_self ..
    · rw [mergeStep_other (by simp [hm, hi])]
      exact Function.update_of_ne (Ne.symm hi) ..

/-- Where a step finds its call. -/
theorem mergeStep_stands {t : MergeStep} (h : s.mergeStep id a = some t) :
    t.stands = s.merges id ∧ (s.merges id = none → a.deed = .call (.merge id)) := by
  obtain ⟨⟨c⟩ | _, os⟩ := a
  · cases c with
    | merge i =>
      obtain ⟨⟨rfl, hnone⟩, ht⟩ := Option.ite_none_right_eq_some.mp h
      obtain rfl := Option.some.inj ht
      exact ⟨(Option.isNone_iff_eq_none.mp hnone).symm, fun _ => rfl⟩
    | resume i =>
      obtain ⟨rfl, ht⟩ := Option.ite_none_right_eq_some.mp h
      obtain ⟨x, hx, rfl⟩ := Option.map_eq_some_iff.mp ht
      exact ⟨hx.symm, fun hnone => by rw [hnone] at hx; cases hx⟩
    | _ => cases h
  · cases h

end Shared

/-- Runs of calls that may fail, from any state of the store. -/
def attempts : Machine Shared Attempt where
  initial s := s.merges = fun _ => none
  step := Shared.attempt

/-- The steps of the call of `Merge` named `id` in a run. -/
def mergeSteps (id : Nat) (s : Shared) (as : List Attempt) : List MergeStep :=
  attempts.reads (Shared.mergeStep id) s as

/-- What a call leaves when `t` is the step in which it failed, of the steps `ts`. -/
def LeavesNothing (ts : List MergeStep) (t : MergeStep) : Prop :=
  (∀ u ∈ ts, Untouched u.before u.after) ∧
    (t.CleansUp → ∀ i, (∃ u ∈ ts, u.Makes i) → t.after.disk.Gone i)

/-- The steps `ts` of the call named `id` so far: while it goes on they touched nothing, and its
temporary files are all on its list; once it has failed, nothing of it is left. -/
structure Followed (id : Nat) (ts : List MergeStep) (s : Shared) : Prop where
  going : ∀ x, s.merges id = some x →
    (∀ u ∈ ts, Untouched u.before u.after) ∧ ∀ u ∈ ts, ∀ i, u.Makes i → i ∈ x.run.mergedFiles
  failed : ∀ t ∈ ts.getLast?, t.Fails → t.RenamesWell → LeavesNothing ts t

namespace Followed

variable {s s' : Shared} {a : Attempt} {id : Nat} {ts : List MergeStep}

/-- Where the next step finds the call. -/
theorem before {t : MergeStep} (h : Followed id ts s) (hts : s.merges id = none → ts = [])
    (ht : t.stands = s.merges id) : ∀ u ∈ ts, Untouched u.before u.after ∧
      ∀ i, u.Makes i → ∃ y ∈ t.stands, i ∈ y.run.mergedFiles := by
  intro u hu
  cases hm : s.merges id with
  | none =>
    rw [hts hm] at hu
    cases hu
  | some x =>
    obtain ⟨huntouched, hmakes⟩ := h.going x hm
    exact ⟨huntouched u hu, fun i hi => ⟨x, ht.trans hm, hmakes u hu i hi⟩⟩

theorem moved {t : MergeStep} (h : Followed id ts s) (hts : s.merges id = none → ts = [])
    (ht : t.stands = s.merges id) (hrest : s'.merges id = t.rest) :
    Followed id (ts ++ [t]) s' := by
  have hbefore := h.before hts ht
  have huntouched : Untouched t.before t.after → ∀ u ∈ ts ++ [t], Untouched u.before u.after := by
    intro hu u hmem
    rcases List.mem_append.mp hmem with hmem | hmem
    · exact (hbefore u hmem).1
    · obtain rfl := List.mem_singleton.mp hmem
      exact hu
  refine ⟨fun x hx => ?_, fun t' hlast hfails hwell => ?_⟩
  · obtain ⟨hu, htmp, hsub⟩ := MergeStep.goesOn (hrest.symm.trans hx)
    refine ⟨huntouched hu, fun u hmem i hi => ?_⟩
    rcases List.mem_append.mp hmem with hmem | hmem
    · obtain ⟨y, hy, hin⟩ := (hbefore u hmem).2 i hi
      exact hsub y hy hin
    · obtain rfl := List.mem_singleton.mp hmem
      exact MergeStep.mem_of_makes htmp hi
  · rw [List.getLast?_append_of_ne_nil _ (List.cons_ne_nil t []), List.getLast?_singleton,
      Option.mem_some] at hlast
    subst hlast
    obtain ⟨hu, hclean⟩ := MergeStep.fails hfails
    refine ⟨huntouched (hu hwell), fun hcleans i hmade => ?_⟩
    obtain ⟨htmp, hgone⟩ := hclean hcleans
    obtain ⟨u, hmem, hi⟩ := hmade
    rcases List.mem_append.mp hmem with hmem | hmem
    · obtain ⟨y, hy, hin⟩ := (hbefore u hmem).2 i hi
      exact hgone y hy i hin
    · obtain rfl := List.mem_singleton.mp hmem
      exact absurd (MergeStep.mem_of_makes htmp hi) List.not_mem_nil

/-- What happens next, other than another call of the same name. -/
theorem step (h : Followed id ts s) (ha : a.deed ≠ .call (.merge id))
    (hstep : attempts.step s a = some s') :
    Followed id (ts ++ (s.mergeStep id a).toList) s' := by
  have hmerges := Shared.attempt_merges hstep id
  cases ht : s.mergeStep id a with
  | none =>
    rw [ht] at hmerges
    rw [Option.toList_none, List.append_nil]
    exact ⟨fun x hx => h.going x (hmerges.symm.trans hx), h.failed⟩
  | some t =>
    rw [ht] at hmerges
    obtain ⟨hstands, hbegins⟩ := Shared.mergeStep_stands ht
    exact h.moved (fun hnone => absurd (hbegins hnone) ha) hstands hmerges

end Followed

/-- A call of `Merge` that fails, whatever other calls and `Close` do between its steps and
whichever calls of the file system fail: if none of its renames after the first is the one that
fails, then no step of it touched a data file, a hint file or the keydir, and every temporary file
that it made is gone if the cleanup removes what it is told to. -/
theorem merge_failed {s₀ s : Shared} {id : Nat} {first : Attempt} {as : List Attempt}
    {t : MergeStep} (hfirst : first.deed = .call (.merge id))
    (has : ∀ a ∈ as, a.deed ≠ .call (.merge id))
    (hrun : attempts.exec s₀ (first :: as) = some s)
    (hlast : t ∈ (mergeSteps id s₀ (first :: as)).getLast?) (hfails : t.Fails)
    (hwell : t.RenamesWell) : LeavesNothing (mergeSteps id s₀ (first :: as)) t := by
  obtain ⟨s₁, h₁, hrest⟩ := Machine.exec_cons_eq_some.mp hrun
  have hmerging : first.merging = some id := by
    rw [Attempt.merging, hfirst]
  obtain ⟨t₁, ht₁, -⟩ := Option.map_eq_some_iff.mp ((Shared.attempt_merging hmerging).symm.trans h₁)
  have hmerges := Shared.attempt_merges h₁ id
  rw [ht₁] at hmerges
  have hnew : Followed id [] s₀ := ⟨fun _ _ => ⟨by simp, by simp⟩, by simp⟩
  have hbegun : Followed id [t₁] s₁ :=
    hnew.moved (fun _ => rfl) (Shared.mergeStep_stands ht₁).1 hmerges
  have hothers : attempts.Along (fun _ a => a.deed ≠ .call (.merge id)) s₁ as :=
    .of_invariant (I := fun _ => True) (fun _ _ _ ha => ha) (fun _ _ _ _ _ _ => trivial) trivial has
  have hall := hothers.reads (fun ts s a s' hf ha hstep => hf.step ha hstep) hrest hbegun
  have hsteps : mergeSteps id s₀ (first :: as) =
      [t₁] ++ attempts.reads (Shared.mergeStep id) s₁ as := by
    rw [mergeSteps, Machine.reads, h₁, ht₁]
    rfl
  rw [hsteps] at hlast ⊢
  exact hall.failed t hlast hfails hwell

/-- A store with one data file before the active one, which holds the only record of its key. -/
def twoFiles : Option Shared :=
  (World.empty.openDB ⟨true, false, 25⟩).bind fun w =>
    attempts.exec ⟨w, fun _ => none⟩ [⟨.call (.put 1 [1] [7]), []⟩, ⟨.call (.put 2 [2] [8]), []⟩]

/-- The `DB` is closed before `Merge` publishes its file. -/
def closedMeanwhile : List Attempt :=
  [⟨.call (.resume 0), []⟩, ⟨.call (.resume 0), []⟩, ⟨.call (.resume 0), []⟩, ⟨.close, []⟩,
    ⟨.call (.resume 0), []⟩]

/-- The rename of the data file succeeds, that of the hint file fails. -/
def secondRename : List Attempt :=
  [⟨.call (.resume 0), []⟩, ⟨.call (.resume 0), []⟩, ⟨.call (.resume 0), []⟩,
    ⟨.call (.resume 0), [.ok, .ok, .ok, .ok, .ok, .fail 0]⟩]

/-- The last step of the call of `Merge` that runs so. -/
def lastStep (as : List Attempt) : Option MergeStep :=
  twoFiles.bind fun s => (mergeSteps 0 s (⟨.call (.merge 0), []⟩ :: as)).getLast?

theorem lastStep_eq_some {as : List Attempt} {t : MergeStep} (h : lastStep as = some t) :
    ∃ s₀, twoFiles = some s₀ ∧ t ∈ (mergeSteps 0 s₀ (⟨.call (.merge 0), []⟩ :: as)).getLast? :=
  Option.bind_eq_some_iff.mp h

theorem merge_failed_closedMeanwhile : ∃ s₀ s t, twoFiles = some s₀ ∧
    attempts.exec s₀ (⟨.call (.merge 0), []⟩ :: closedMeanwhile) = some s ∧
    t ∈ (mergeSteps 0 s₀ (⟨.call (.merge 0), []⟩ :: closedMeanwhile)).getLast? ∧ t.Fails ∧
    t.RenamesWell ∧ t.CleansUp ∧
    LeavesNothing (mergeSteps 0 s₀ (⟨.call (.merge 0), []⟩ :: closedMeanwhile)) t := by
  obtain ⟨t, ht⟩ : ∃ t, lastStep closedMeanwhile = some t :=
    Option.isSome_iff_exists.mp (by decide +kernel)
  obtain ⟨s₀, hs₀, hlast⟩ := lastStep_eq_some ht
  obtain ⟨s, hs⟩ : ∃ s, attempts.exec s₀ (⟨.call (.merge 0), []⟩ :: closedMeanwhile) = some s := by
    have hruns : ∀ s ∈ twoFiles,
        (attempts.exec s (⟨.call (.merge 0), []⟩ :: closedMeanwhile)).isSome := by decide +kernel
    exact Option.isSome_iff_exists.mp (hruns s₀ hs₀)
  have hend : ∀ t ∈ lastStep closedMeanwhile, t.Fails ∧ t.RenamesWell ∧ t.CleansUp := by
    decide +kernel
  obtain ⟨hfails, hwell, hclean⟩ := hend t ht
  exact ⟨s₀, s, t, hs₀, hs, hlast, hfails, hwell, hclean,
    merge_failed rfl (by simp [closedMeanwhile]) hs hlast hfails hwell⟩

/-- The rename of the hint file fails after that of the data file: the new data file stays. -/
theorem not_leavesNothing_secondRename : ∃ s₀ s t, twoFiles = some s₀ ∧
    attempts.exec s₀ (⟨.call (.merge 0), []⟩ :: secondRename) = some s ∧
    t ∈ (mergeSteps 0 s₀ (⟨.call (.merge 0), []⟩ :: secondRename)).getLast? ∧ t.Fails ∧
    t.CleansUp ∧ t.before.disk.data[3]? = none ∧ s.world.disk.data[3]? ≠ none ∧
    ¬ LeavesNothing (mergeSteps 0 s₀ (⟨.call (.merge 0), []⟩ :: secondRename)) t := by
  obtain ⟨t, ht⟩ : ∃ t, lastStep secondRename = some t :=
    Option.isSome_iff_exists.mp (by decide +kernel)
  obtain ⟨s₀, hs₀, hlast⟩ := lastStep_eq_some ht
  have hruns : ∀ s ∈ twoFiles,
      (attempts.exec s (⟨.call (.merge 0), []⟩ :: secondRename)).isSome ∧
      ∀ s' ∈ attempts.exec s (⟨.call (.merge 0), []⟩ :: secondRename),
        s'.world.disk.data[3]? ≠ none := by decide +kernel
  obtain ⟨hsome, hleft⟩ := hruns s₀ hs₀
  obtain ⟨s, hs⟩ := Option.isSome_iff_exists.mp hsome
  have hend : ∀ t ∈ lastStep secondRename, t.Fails ∧ t.CleansUp ∧
      t.before.disk.data[3]? = none ∧ t.after.disk.data[3]? ≠ none := by
    decide +kernel
  obtain ⟨hfails, hclean, hbefore, hafter⟩ := hend t ht
  refine ⟨s₀, s, t, hs₀, hs, hlast, hfails, hclean, hbefore, hleft s hs, fun h => hafter ?_⟩
  rw [(h.1 t (List.mem_of_getLast? hlast)).data]
  exact hbefore

end KvRaft.Store
