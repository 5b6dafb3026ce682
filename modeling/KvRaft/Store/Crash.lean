import KvRaft.Store.Sessions

/-! Crashes in the middle of an append: which of them leave a directory that can be opened again. -/

namespace KvRaft.Store

/-- The records fit their formats, and a crash leaves a tail that recovery can deal with. -/
def Mending (w : World) (e : Event) : Prop :=
  e.Sized ∧ ∀ rec cut, e = .crash rec cut → w.Mends rec cut

instance (w : World) : (e : Event) → Decidable (Mending w e)
  | .crash rec cut => decidable_of_iff (Event.Sized (.crash rec cut) ∧ w.Mends rec cut)
    (and_congr_right fun _ => ⟨by rintro h _ _ ⟨⟩; exact h, fun h => h rec cut rfl⟩)
  | .open opts => decidable_of_iff (Event.Sized (.open opts)) (and_iff_left nofun).symm
  | .put ts key value =>
    decidable_of_iff (Event.Sized (.put ts key value)) (and_iff_left nofun).symm
  | .delete ts key => decidable_of_iff (Event.Sized (.delete ts key)) (and_iff_left nofun).symm
  | .merge => decidable_of_iff (Event.Sized .merge) (and_iff_left nofun).symm
  | .close => decidable_of_iff (Event.Sized .close) (and_iff_left nofun).symm

variable {es : List Event} {w : World}

theorem session_of_mending (h : store.Along Mending World.empty es)
    (hrun : store.exec World.empty es = some w) : ∃ segs m, Session segs m w := by
  have hstep : ∀ w e w', (∃ segs m, Session segs m w) → Mending w e → store.step w e = some w' →
      ∃ segs m, Session segs m w' := by
    rintro w e w' ⟨segs, m, hs⟩ ⟨hsized, hmends⟩ hstep
    obtain ⟨segs', m', -, hs'⟩ := hs.step hsized hmends hstep
    exact ⟨segs', m', hs'⟩
  exact h.invariant (I := fun w => ∃ segs m, Session segs m w) hstep hrun
    ⟨_, _, World.empty_session⟩

/-- After any history whose crashes leave such tails, the directory can be opened for writing. -/
theorem reopens_of_mending (h : store.Along Mending World.empty es)
    (hrun : store.exec World.empty es = some w) (hclosed : w.db.closed = true)
    (opts : OpenOptions) (hrw : opts.readWrite = true) :
    ∃ w', openWithOptions opts w = .ok () w' := by
  obtain ⟨segs, m, hs⟩ := session_of_mending h hrun
  obtain ⟨_, w', -, hok⟩ := hs.openWithOptions_ok hclosed opts hrw
  exact ⟨w', hok⟩

/-- Two sessions that end in a crash: one tears the record at the end of the only file, the other,
after a merge, leaves just the checksum of a record in a file below the merged one. -/
def tornTwice : List Event :=
  [.open ⟨true, false, 50⟩, .put 1 [1] [7], .crash ⟨2, [2], [8]⟩ 7,
    .open ⟨true, false, 50⟩, .put 3 [2] [8], .put 4 [3] [9], .merge, .crash ⟨5, [4], [9]⟩ 4]

theorem reopens_tornTwice : ∃ w, store.exec World.empty tornTwice = some w ∧
    ∃ w', openWithOptions ⟨true, false, 0⟩ w = .ok () w' := by
  have h : store.Along Mending World.empty tornTwice := by decide +kernel
  have hrun : (store.exec World.empty tornTwice).any fun w => w.db.closed := by decide +kernel
  obtain ⟨w, hw, hclosed⟩ := Option.any_eq_true _ _ |>.mp hrun
  exact ⟨w, hw, reopens_of_mending h hw hclosed ⟨true, false, 0⟩ rfl⟩

/-- After a merge the active file is below the merged one, and a record torn there is taken for
corruption. -/
def tornBelow : List Event :=
  [.open ⟨true, false, 50⟩, .put 1 [1] [7], .put 2 [2] [8], .put 3 [3] [9], .merge,
    .crash ⟨4, [4], [9]⟩ 10]

theorem not_reopens_tornBelow : ¬ ∀ es w opts, (∀ e ∈ es, e.Sized) →
    store.exec World.empty es = some w → w.db.closed = true → opts.readWrite = true →
      ∃ w', openWithOptions opts w = .ok () w' := by
  intro h
  have hsized : ∀ e ∈ tornBelow, e.Sized := by decide
  have hrun : (store.exec World.empty tornBelow).any fun w =>
      w.db.closed && (w.returned (openWithOptions ⟨true, false, 0⟩)).isNone := by decide +kernel
  obtain ⟨w, hw, hfails⟩ := Option.any_eq_true _ _ |>.mp hrun
  rw [Bool.and_eq_true] at hfails
  obtain ⟨w', hok⟩ := h tornBelow w ⟨true, false, 0⟩ hsized hw hfails.1 rfl
  have := hfails.2
  rw [World.returned_ok hok] at this
  cases this

end KvRaft.Store
