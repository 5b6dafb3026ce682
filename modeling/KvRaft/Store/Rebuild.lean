import KvRaft.Store.Order

/-! What a scan makes of the keydir, for any records in any order. A tombstone takes its timestamp
with it, so an older record that is read after it comes back; but the updates of a file may be
applied twice, so a hint file that cannot be read to its end does no harm. -/

namespace KvRaft.Store

open Std Replay

variable {us : List (Update Bytes KeyDirEntry)} {g u v : Update Bytes KeyDirEntry} {d : Disk}
  {rs : List Record} {id j : Nat}

/-- `shouldReplace` compares by timestamp and place, so two entries that neither replaces the other
are replaced by the same ones. -/
theorem shouldReplace_compare (a b c : KeyDirEntry) (h : shouldReplace a b = false)
    (hc : shouldReplace a c = true) : shouldReplace b c = true := by
  have hab : ¬ shouldReplace a b = true := by simp [h]
  rw [shouldReplace_iff, Before] at hab hc ⊢
  omega

theorem shouldReplace_of_place {a b : KeyDirEntry}
    (h : (a.fileID, a.fileOffset) ≠ (b.fileID, b.fileOffset)) (hb : shouldReplace b a = false) :
    shouldReplace a b = true := by
  have hba : ¬ shouldReplace b a = true := by simp [hb]
  have hplace : a.fileID ≠ b.fileID ∨ a.fileOffset.toInt ≠ b.fileOffset.toInt := by
    by_contra hno
    simp only [not_or, not_not] at hno
    exact h (by rw [hno.1, Int64.toInt_inj.mp hno.2])
  rw [shouldReplace_iff, Before] at hba ⊢
  omega

/-! ### The order of the records -/

/-- `applyKeydirUpdate` over the records, from the empty keydir. -/
def keydirOf (us : List (Update Bytes KeyDirEntry)) : KeyDir :=
  us.foldl (fun keydir u => applyKeydirUpdate keydir u.key u.entry u.tombstone) ∅

/-- No two records have the same place. -/
def Placed (us : List (Update Bytes KeyDirEntry)) : Prop :=
  us.Pairwise fun u v =>
    (u.entry.fileID, u.entry.fileOffset) ≠ (v.entry.fileID, v.entry.fileOffset)

/-- `a` is below `b` in the order by timestamp, file and offset. -/
def Precedes (a b : KeyDirEntry) : Prop :=
  a.timeStamp < b.timeStamp ∨ a.timeStamp = b.timeStamp ∧
    (a.fileID < b.fileID ∨ a.fileID = b.fileID ∧ a.fileOffset < b.fileOffset)

instance (a b : KeyDirEntry) : Decidable (Precedes a b) := inferInstanceAs (Decidable (_ ∨ _))

theorem shouldReplace_iff_precedes {a b : KeyDirEntry} :
    shouldReplace a b = true ↔ Precedes a b := by
  simp only [shouldReplace_iff, Before, Precedes, Int64.lt_iff_toInt_lt, Int64.toInt_inj]

/-- `g` is the greatest record of its key. -/
def Greatest (us : List (Update Bytes KeyDirEntry)) (g : Update Bytes KeyDirEntry) : Prop :=
  g ∈ us ∧ ∀ v ∈ us, v.key = g.key → v = g ∨ Precedes v.entry g.entry

/-- Every key is mapped to its greatest record, or is absent if that is a tombstone. -/
def PicksGreatest (us : List (Update Bytes KeyDirEntry)) : Prop :=
  ∀ u ∈ us, ∃ g, Greatest us g ∧ g.key = u.key ∧
    (keydirOf us)[u.key]? = if g.tombstone then none else some g.entry

/-- When the greatest record of a key is a tombstone, every put of the key is followed by a
tombstone that is greater than it. -/
def Buried (us : List (Update Bytes KeyDirEntry)) : Prop :=
  ∀ g, Greatest us g → g.tombstone = true → ∀ pre u post, us = pre ++ u :: post → u.key = g.key →
    u.tombstone = false →
    ∃ v ∈ post, v.key = u.key ∧ v.tombstone = true ∧ Precedes u.entry v.entry

theorem Greatest.unique (hg : Greatest us g) (hu : Greatest us u) (hkey : u.key = g.key) :
    u = g := by
  rcases hg.2 u hu.1 hkey with h | h
  · exact h
  · rcases hu.2 g hg.1 hkey.symm with h' | h'
    · exact h'.symm
    · rw [← shouldReplace_iff_precedes] at h h'
      rw [shouldReplace_asymm h] at h'
      cases h'

/-- Every key that has a record has a greatest one. -/
theorem exists_greatest (hp : Placed us) (hu : u ∈ us) : ∃ g, Greatest us g ∧ g.key = u.key := by
  generalize hk : u.key = k
  induction us generalizing u with
  | nil => cases hu
  | cons x xs ih =>
    obtain ⟨hx, hxs⟩ := List.pairwise_cons.mp hp
    by_cases hother : ∃ y ∈ xs, y.key = k
    · obtain ⟨y, hy, hyk⟩ := hother
      obtain ⟨g, ⟨hg, hmax⟩, hgk⟩ := ih hxs hy hyk
      cases hway : shouldReplace g.entry x.entry with
      | false =>
        -- the places differ, so `x` is below `g`
        refine ⟨g, ⟨List.mem_cons_of_mem x hg, List.forall_mem_cons.mpr ⟨fun _ => ?_, hmax⟩⟩, hgk⟩
        exact Or.inr (shouldReplace_iff_precedes.mp (shouldReplace_of_place (hx g hg) hway))
      | true =>
        by_cases hxk : x.key = k
        · refine ⟨x, ⟨List.mem_cons_self, List.forall_mem_cons.mpr ⟨fun _ => Or.inl rfl, ?_⟩⟩, hxk⟩
          intro v hv hvk
          refine Or.inr (shouldReplace_iff_precedes.mp ?_)
          rcases hmax v hv (by rw [hvk, hxk, hgk]) with rfl | hlt
          · exact hway
          · rw [← shouldReplace_iff_precedes] at hlt
            exact shouldReplace_compare _ _ _ (shouldReplace_asymm hlt) hway
        · refine ⟨g, ⟨List.mem_cons_of_mem x hg, List.forall_mem_cons.mpr ⟨fun heq => ?_, hmax⟩⟩,
            hgk⟩
          exact absurd (heq.trans hgk) hxk
    · rcases List.mem_cons.mp hu with rfl | hu
      · refine ⟨u, ⟨List.mem_cons_self, List.forall_mem_cons.mpr ⟨fun _ => Or.inl rfl, ?_⟩⟩, hk⟩
        exact fun v hv hvk => absurd ⟨v, hv, hvk.trans hk⟩ hother
      · exact absurd ⟨u, hu, hk⟩ hother

/-- A greatest record that is a put is found whatever the order. -/
theorem Greatest.put (hg : Greatest us g) (hset : g.tombstone = false) :
    (keydirOf us)[g.key]? = some g.entry := by
  refine scan_greatest hg.1 hset fun v hv hkey => ?_
  rw [shouldReplace_iff_precedes]
  exact hg.2 v hv hkey

/-- Recovery finds the greatest record of every key exactly if no put of a key whose greatest record
is a tombstone is read after all the tombstones that are greater than it. -/
theorem picksGreatest_iff (hp : Placed us) : PicksGreatest us ↔ Buried us := by
  have habsent : ∀ k : Bytes, (keydirOf us)[k]? = none ↔ _ :=
    fun k => replay_eq_none_iff shouldReplace_compare (fun _ _ => shouldReplace_asymm) (by simp)
  constructor
  · intro h g hg htomb pre u post hus hkey hset
    obtain ⟨g', hg', hkey', hfound⟩ := h u (by simp [hus])
    obtain rfl := hg.unique hg' (hkey'.trans hkey)
    rw [if_pos htomb] at hfound
    simp only [← shouldReplace_iff_precedes]
    exact (habsent u.key).mp hfound pre u post hus rfl hset
  · intro h u hu
    obtain ⟨g, hg, hkey⟩ := exists_greatest hp hu
    refine ⟨g, hg, hkey, ?_⟩
    cases ht : g.tombstone with
    | false =>
      rw [← hkey, hg.put ht]
      rfl
    | true =>
      refine (habsent u.key).mpr fun pre v post hus hvk hset => ?_
      obtain ⟨x, hx, hxk, hxt, hway⟩ := h g hg ht pre v post hus (hvk.trans hkey.symm) hset
      exact ⟨x, hx, hxk.trans hvk, hxt, shouldReplace_iff_precedes.mpr hway⟩

/-- The tombstone of time 2 is read after the put of time 1. -/
def tombstoneLast : List (Update Bytes KeyDirEntry) :=
  [⟨[107], ⟨1, 0, 22, 1⟩, false⟩, ⟨[107], ⟨2, 0, 42, 2⟩, true⟩]

theorem picksGreatest_tombstoneLast :
    Placed tombstoneLast ∧ Buried tombstoneLast ∧ PicksGreatest tombstoneLast := by
  have hp : Placed tombstoneLast := by
    simp [Placed, tombstoneLast]
  have hb : Buried tombstoneLast := by
    intro g _ _ pre u post hus hkey hset
    rcases pre with _ | ⟨a, _ | ⟨b, pre⟩⟩
    · obtain ⟨rfl, rfl⟩ := List.cons.inj hus
      exact ⟨_, List.mem_singleton_self _, rfl, rfl, by decide⟩
    · obtain ⟨-, hrest⟩ := List.cons.inj hus
      obtain ⟨rfl, -⟩ := List.cons.inj hrest
      cases hset
    · simp [tombstoneLast] at hus
  exact ⟨hp, hb, (picksGreatest_iff hp).mpr hb⟩

/-- The tombstone of time 2 is read before the put of time 1. -/
def tombstoneFirst : List (Update Bytes KeyDirEntry) :=
  [⟨[107], ⟨1, 0, 42, 2⟩, true⟩, ⟨[107], ⟨2, 0, 22, 1⟩, false⟩]

theorem not_picksGreatest_tombstoneFirst :
    Placed tombstoneFirst ∧ ¬ PicksGreatest tombstoneFirst := by
  refine ⟨by simp [Placed, tombstoneFirst], fun h => ?_⟩
  obtain ⟨g, ⟨hmem, hmax⟩, -, hfound⟩ := h _ List.mem_cons_self
  have hkept : (keydirOf tombstoneFirst)[([107] : Bytes)]? = some ⟨2, 0, 22, 1⟩ := by
    decide +kernel
  rw [hkept] at hfound
  rcases List.mem_cons.mp hmem with rfl | hmem
  · cases hfound
  · obtain rfl := List.mem_singleton.mp hmem
    rcases hmax _ List.mem_cons_self rfl with heq | hlt
    · cases congrArg Update.tombstone heq
    · exact absurd hlt (by decide)

/-! ### Hint files -/

theorem Record.fits_of_size {r : Record} (h : r.size < 2 ^ 32) : r.Fits := by
  rw [Record.size] at h
  exact ⟨by omega, by omega⟩

/-- Updates that were applied before make no difference to the scan that applies them again. -/
theorem scan_take (keydir : KeyDir) (us : List (Update Bytes KeyDirEntry)) (j : Nat) :
    scan (scan keydir (us.take j)) us = scan keydir us :=
  calc scan (scan keydir (us.take j)) us
      = scan (scan keydir (us.take j)) (us.take j ++ us.drop j) := by rw [List.take_append_drop]
    _ = scan (scan (scan keydir (us.take j)) (us.take j)) (us.drop j) := replay_append
    _ = scan (scan keydir (us.take j)) (us.drop j) := by
      rw [scan, scan, replay_twice shouldReplace_compare]
    _ = scan keydir (us.take j ++ us.drop j) := replay_append.symm
    _ = scan keydir us := by rw [List.take_append_drop]

theorem hints_hintBytes (hfits : ∀ r ∈ rs, r.Fits) : hints (hintBytes rs) =
    ((hintsFrom 0 rs).map fun x => (x, (encodeHintRecord x).length), .eof) :=
  hints_flatMap (hintsFrom_fits hfits 0)

/-- The loop of `scanHintFile` over the first records of the hint file. -/
theorem scanHints_take (hfits : ∀ r ∈ rs, r.Fits) (d : Disk) (db : DB) (id j : Nat) :
    scanHints id ((hints (hintBytes rs)).1.take j) ⟨d, db, []⟩ = .ok () ⟨d, { db with
      keydir := scan db.keydir ((updates id 0 rs).take j) }, []⟩ := by
  rw [scanHints_run, hints_hintBytes hfits, ← hintsFrom_updates, List.map_take, List.map_map]
  rfl

/-- Whatever a scan of the hint file has done before it failed, the scan of the data file leaves
what it would have left without it. -/
theorem scanDataFile_again (hdata : d.data[id]? = some (bytesOf rs)) (hfits : ∀ r ∈ rs, r.Fits)
    (db : DB) (j : Nat) (allow : Bool) :
    scanDataFile id allow ⟨d, { db with
      keydir := scan db.keydir ((updates id 0 rs).take j) }, []⟩ =
        scanDataFile id allow ⟨d, db, []⟩ := by
  have hclean : d.data[id]? = some (bytesOf rs ++ []) := by rw [List.append_nil, hdata]
  rw [scanDataFile_clean _ hclean hfits decode_nil, scanDataFile_clean _ hclean hfits decode_nil,
    scan_take]

theorem tryCatch_error {α : Type} {op : Op α} {handler : Err → Op α} {e : Err} {w w' : World}
    (h : op w = .error e w') : (tryCatch op handler) w = handler e w' := by
  simp only [tryCatch, tryCatchThe, MonadExceptOf.tryCatch, EStateM.tryCatch, h]
  rfl

theorem scanHintFile_failed {bs : Bytes} {recs : List (HintRecord × Nat)} {err : Err} {w : World}
    {db : DB} (hbs : d.hint[id]? = some bs) (hread : hints bs = (recs, err)) (herr : err ≠ .eof)
    (hrecs : scanHints id recs ⟨d, db, []⟩ = .ok () w) :
    scanHintFile id ⟨d, db, []⟩ = .error err w := by
  simp only [scanHintFile, readHint, bind_apply, call_apply, getDisk_apply, hbs, pure_apply, hread,
    hrecs, if_pos herr, throw_apply]

/-- Without a failing call, only a hint file too large for the system is not written. -/
theorem writeHintForDataFile_run (db : DB) (hdata : d.data[id]? = some (bytesOf rs))
    (hfits : ∀ r ∈ rs, r.Fits) (hsize : (hintBytes rs).length ≤ maxFileSize) :
    ∃ w, writeHintForDataFile id ⟨d, db, []⟩ = .ok () w := by
  rcases writeHintForDataFile_cases db hdata (records_flatMap hfits) [] with ⟨-, -, hok⟩ | ⟨hnot, -⟩
  · exact ⟨_, hok⟩
  · exact absurd ⟨Succeed.nil _, hsize⟩ hnot

/-- A hint file that was written for a data file does to any keydir what the data file does. One
that cannot be read to its end, whether it is cut off or a read of it fails, leaves the keydir that
the data file alone would leave, however many of its records were applied before. -/
theorem hint_equivalent (hdata : d.data[id]? = some (bytesOf rs))
    (hsize : ∀ r ∈ rs, r.size < 2 ^ 32) :
    (∀ db os w, writeHintForDataFile id ⟨d, db, os⟩ = .ok () w → ∀ db' allow, ∃ keydir,
      scanHintFile id ⟨w.disk, db', []⟩ = .ok () ⟨w.disk, { db' with keydir := keydir }, []⟩ ∧
      scanDataFile id allow ⟨d, db', []⟩ = .ok () ⟨d, { db' with keydir := keydir }, []⟩) ∧
    ((hintBytes rs).length ≤ maxFileSize →
      ∀ db, ∃ w, writeHintForDataFile id ⟨d, db, []⟩ = .ok () w) ∧
    (∀ db j err, err ≠ .eof →
      (tryCatch (do scanHints id ((hints (hintBytes rs)).1.take j); throw err)
        fun _ => scanDataFile id false) ⟨d, db, []⟩ = scanDataFile id false ⟨d, db, []⟩) ∧
    ∀ db bs j err active readWrite, d.hint[id]? = some bs →
      hints bs = ((hints (hintBytes rs)).1.take j, err) → err ≠ .eof → id ≠ active →
      scanSegment active readWrite id ⟨d, db, []⟩ = scanDataFile id false ⟨d, db, []⟩ := by
  have hfits : ∀ r ∈ rs, r.Fits := fun r hr => Record.fits_of_size (hsize r hr)
  have hclean : d.data[id]? = some (bytesOf rs ++ []) := by rw [List.append_nil, hdata]
  refine ⟨fun db os w hw db' allow => ?_,
    fun hlen db => writeHintForDataFile_run db hdata hfits hlen, fun db j err _ => ?_,
    fun db bs j err active readWrite hbs hread herr hne => ?_⟩
  · rcases writeHintForDataFile_cases db hdata (records_flatMap hfits) os with
      ⟨-, -, hok⟩ | ⟨-, t, k, hfail⟩
    · obtain ⟨-, rfl⟩ := EStateM.Result.ok.inj (hok.symm.trans hw)
      exact ⟨_, scanHintFile_exact db' (by simp) hfits,
        scanDataFile_clean db' hclean hfits decode_nil allow⟩
    · rw [hfail] at hw
      cases hw
  · have hfail : (do scanHints id ((hints (hintBytes rs)).1.take j); throw err : Op Unit)
        ⟨d, db, []⟩ = .error err ⟨d, { db with
          keydir := scan db.keydir ((updates id 0 rs).take j) }, []⟩ := by
      rw [bind_apply, scanHints_take hfits]
      rfl
    rw [tryCatch_error hfail]
    exact scanDataFile_again hdata hfits db j false
  · have hfail := scanHintFile_failed hbs hread herr (scanHints_take hfits d db id j)
    simp only [scanSegment, if_neg hne]
    rw [tryCatch_error hfail]
    exact scanDataFile_again hdata hfits db j false

/-- A put and an older tombstone of the same key. -/
def backwards : List Record := [⟨2, [107], [118]⟩, ⟨1, [107], tombstoneValue⟩]

/-- The hint file of `backwards`, cut off in its second record. -/
def cutHint : Disk :=
  { data := (∅ : ExtTreeMap Nat Bytes).insert 1 (bytesOf backwards)
    hint := (∅ : ExtTreeMap Nat Bytes).insert 1 ((hintBytes backwards).take 30) }

theorem hint_equivalent_cutHint :
    scanSegment 2 true 1 ⟨cutHint, newDB { readWrite := true }, []⟩ =
      scanDataFile 1 false ⟨cutHint, newDB { readWrite := true }, []⟩ := by
  have hdata : cutHint.data[1]? = some (bytesOf backwards) := by simp [cutHint]
  have hread : hints ((hintBytes backwards).take 30) =
      ((hints (hintBytes backwards)).1.take 1, .unexpectedEOF) := by decide +kernel
  exact (hint_equivalent hdata (by decide)).2.2.2 _ _ 1 _ 2 true (by simp [cutHint]) hread
    (by decide) (by decide)

end KvRaft.Store
