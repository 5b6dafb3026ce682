import Mathlib.Algebra.Order.BigOperators.Group.List
import Mathlib.Algebra.Order.Group.Nat
import KvRaft.Store.Periods

/-! What a call of `Merge` that returns nil leaves of the data files: besides the active file, one
record for each key that had its entry in another file, and nothing else. -/

namespace KvRaft.Store

open Std Replay

namespace World

/-- The data files other than the active one. -/
def immutableIDs (w : World) : List Nat := w.disk.data.keys.filter (· ≠ w.db.activeFileID)

def immutableRecords (w : World) : List Record :=
  w.immutableIDs.flatMap fun id => recordsIn (w.dataOf id)

def immutableSize (w : World) : Nat := (w.immutableIDs.map fun id => (w.dataOf id).length).sum

end World

/-- `w'` has the records of `w` that the keydir needs, once each. -/
structure Compacts (w w' : World) : Prop where
  active : w'.db.activeFileID = w.db.activeFileID ∧
    w'.disk.data[w.db.activeFileID]? = w.disk.data[w.db.activeFileID]?
  once : (w'.immutableRecords.map Record.key).Nodup
  keys : ∀ k, k ∈ w'.immutableRecords.map Record.key ↔
    ∃ e, w.db.keydir[k]? = some e ∧ e.fileID ≠ w.db.activeFileID
  same : ∀ r ∈ w'.immutableRecords, r.tombstone = false ∧ w.lookup r.key = .ok r.value ∧
    ∃ e, w.db.keydir[r.key]? = some e ∧ e.timeStamp = r.timestamp
  whole : ∀ id ∈ w'.immutableIDs, w'.dataOf id = bytesOf (recordsIn (w'.dataOf id)) ∧
    w'.disk.hint[id]? = some (hintBytes (recordsIn (w'.dataOf id)))
  size : w'.immutableSize ≤ w.immutableSize

variable {segs out : Nat → Option Segment} {m : Bytes → Option Bytes} {d d' : Disk} {db db' : DB}
  {rs : List Record} {w w' : World}

theorem updates_keys (id off : Nat) (rs : List Record) :
    (updates id off rs).map Update.key = rs.map Record.key := by
  induction rs generalizing off with
  | nil => rfl
  | cons r rs ih =>
    rw [updates, List.map_cons, List.map_cons, ih]
    rfl

/-- Records whose entries are all in a keydir have different keys. -/
theorem keys_nodup_of_indexed {keydir : KeyDir} {id : Nat} (hsize : (bytesOf rs).length < 2 ^ 63)
    (h : ∀ u ∈ updates id 0 rs, keydir[u.key]? = some u.entry) : (rs.map Record.key).Nodup := by
  rw [← updates_keys id 0]
  refine List.pairwise_map.mpr ((updates_pairwise id (by omega)).imp_of_mem ?_)
  intro u v hu hv hlt heq
  have hsame : u.entry = v.entry := by
    rw [← Option.some.injEq, ← h u hu, ← h v hv, heq]
  rw [hsame, Int64.lt_iff_toInt_lt] at hlt
  omega

theorem length_bytesOf (rs : List Record) : (bytesOf rs).length = (rs.map Record.size).sum := by
  induction rs with
  | nil => rfl
  | cons r rs ih =>
    rw [bytesOf_cons, List.length_append, Record.length_encode, ih, List.map_cons, List.sum_cons]

theorem exists_at {id : Nat} {r : Record} (h : r ∈ recordsAt segs id) :
    ∃ e, e.fileID = id ∧ At segs e r := by
  obtain ⟨s, hs⟩ : ∃ s, segs id = some s := by
    cases hs : segs id with
    | none => simp [recordsAt, hs] at h
    | some s => exact ⟨s, rfl⟩
  rw [recordsAt_eq hs] at h
  obtain ⟨pre, post, hrecs⟩ := List.append_of_mem h
  exact ⟨entryOf id (bytesOf pre).length r, rfl, s, pre, post, hs, hrecs, rfl⟩

theorem At.mem_recordsAt {e : KeyDirEntry} {r : Record} (h : At segs e r) :
    r ∈ recordsAt segs e.fileID := by
  obtain ⟨s, pre, post, hs, hrecs, -⟩ := h
  rw [recordsAt_eq hs, hrecs]
  simp

/-- Every record counts once for the total if it is there once. -/
theorem sum_size_le {ss : List Record} (hnodup : (rs.map Record.key).Nodup) (hsub : rs ⊆ ss) :
    (rs.map Record.size).sum ≤ (ss.map Record.size).sum := by
  obtain ⟨mid, hperm, hsub⟩ := List.subperm_of_subset (List.Nodup.of_map _ hnodup) hsub
  calc (rs.map Record.size).sum = (mid.map Record.size).sum :=
        (hperm.map Record.size).sum_eq.symm
    _ ≤ (ss.map Record.size).sum := (hsub.map Record.size).sum_le_sum fun _ _ => Nat.zero_le _

theorem length_flatMap_bytesOf (f : Nat → List Record) (ids : List Nat) :
    (ids.map fun id => (bytesOf (f id)).length).sum = ((ids.flatMap f).map Record.size).sum := by
  induction ids with
  | nil => rfl
  | cons id ids ih =>
    rw [List.map_cons, List.sum_cons, ih, List.flatMap_cons, List.map_append, List.sum_append,
      length_bytesOf]

namespace Merged

theorem activeFileID_eq (hm : Merged segs d db out d' db') :
    db'.activeFileID = db.activeFileID := by
  rw [hm.sameDB]

/-- The files other than the active one are the merged ones. -/
theorem data_out (hm : Merged segs d db out d' db') {id : Nat} (hid : id ≠ db.activeFileID) :
    d'.data[id]? = (out id).map fun s => bytesOf s.records := by
  rw [hm.holds.data, mergedSegs, if_neg hid, Option.or_none]
  cases hs : out id with
  | none => rfl
  | some s =>
    rw [Option.map_some, Option.map_some, Segment.bytes, hm.clean id s hs, List.append_nil]

theorem mem_immutableIDs (hm : Merged segs d db out d' db') (ha : Active segs db rs) {id : Nat} :
    id ∈ World.immutableIDs ⟨d', db', []⟩ ↔ out id ≠ none := by
  rw [World.immutableIDs, List.mem_filter, hm.holds.mem_keys, hm.activeFileID_eq]
  by_cases hid : id = db.activeFileID
  · simp [hid, hm.out_active ha]
  · simp [hid, mergedSegs]

theorem dataOf_eq (hm : Merged segs d db out d' db') (ha : Active segs db rs) {id : Nat}
    (hid : out id ≠ none) : World.dataOf ⟨d', db', []⟩ id = bytesOf (recordsAt out id) := by
  have hne : id ≠ db.activeFileID := by
    rintro rfl
    exact hid (hm.out_active ha)
  obtain ⟨s, hs⟩ := Option.ne_none_iff_exists'.mp hid
  rw [World.dataOf, hm.data_out hne, hs, recordsAt_eq hs]
  rfl

theorem fits (hm : Merged segs d db out d' db') {id : Nat} {s : Segment} (hs : out id = some s) :
    ∀ r ∈ s.records, r.Fits := by
  have hseg : mergedSegs segs out db.activeFileID id = some s := by simp [mergedSegs, hs]
  exact fun r hr => (hm.holds.legal id s hseg r hr).fits

theorem recordsIn_dataOf (hm : Merged segs d db out d' db') (ha : Active segs db rs) {id : Nat}
    (hid : out id ≠ none) : recordsIn (World.dataOf ⟨d', db', []⟩ id) = recordsAt out id := by
  obtain ⟨s, hs⟩ := Option.ne_none_iff_exists'.mp hid
  rw [hm.dataOf_eq ha hid, recordsAt_eq hs, recordsIn_bytesOf (hm.fits hs)]

theorem immutableRecords_eq (hm : Merged segs d db out d' db') (ha : Active segs db rs) :
    World.immutableRecords ⟨d', db', []⟩ =
      (World.immutableIDs ⟨d', db', []⟩).flatMap (recordsAt out) := by
  rw [World.immutableRecords]
  refine List.flatMap_congr fun id hid => ?_
  exact hm.recordsIn_dataOf ha ((hm.mem_immutableIDs ha).mp hid)

theorem mem_immutableRecords (hm : Merged segs d db out d' db') (ha : Active segs db rs)
    {r : Record} : r ∈ World.immutableRecords ⟨d', db', []⟩ ↔ ∃ e, At out e r := by
  rw [hm.immutableRecords_eq ha, List.mem_flatMap]
  constructor
  · rintro ⟨id, -, hr⟩
    obtain ⟨e, -, hat⟩ := exists_at hr
    exact ⟨e, hat⟩
  · rintro ⟨e, hat⟩
    refine ⟨e.fileID, (hm.mem_immutableIDs ha).mpr ?_, hat.mem_recordsAt⟩
    obtain ⟨s, -, -, hs, -⟩ := hat
    simp [hs]

/-- Every key has one entry, so one record. -/
theorem keys_nodup (hm : Merged segs d db out d' db') (ha : Active segs db rs) :
    ((World.immutableRecords ⟨d', db', []⟩).map Record.key).Nodup := by
  have hentry : ∀ {e r}, At out e r → db'.keydir[r.key]? = some e := by
    intro e r hat
    obtain ⟨-, -, -, -, he⟩ := hm.copied e r hat
    exact he
  rw [hm.immutableRecords_eq ha, List.map_flatMap, List.nodup_flatMap]
  refine ⟨fun id hid => ?_, ?_⟩
  · obtain ⟨s, hs⟩ := Option.ne_none_iff_exists'.mp ((hm.mem_immutableIDs ha).mp hid)
    have hseg : mergedSegs segs out db.activeFileID id = some s := by simp [mergedSegs, hs]
    have hsize := hm.holds.size id s hseg
    rw [Segment.bytes, List.length_append, maxFileSize] at hsize
    rw [recordsAt_eq hs]
    have hindexed : ∀ u ∈ updates id 0 s.records, db'.keydir[u.key]? = some u.entry := by
      intro u hu
      obtain ⟨pre, r, post, hrecs, rfl⟩ := mem_updates.mp hu
      rw [Nat.zero_add]
      exact hentry (e := entryOf id (bytesOf pre).length r) ⟨s, pre, post, hs, hrecs, rfl⟩
    exact keys_nodup_of_indexed (by omega) hindexed
  · have hids : (World.immutableIDs ⟨d', db', []⟩).Nodup :=
      List.Nodup.filter _ (List.Pairwise.imp
        (fun hne heq => hne (by rw [heq]; exact compare_self)) ExtTreeMap.distinct_keys)
    refine hids.imp fun hne k hk hk' => hne ?_
    obtain ⟨r, hr, rfl⟩ := List.mem_map.mp hk
    obtain ⟨r', hr', hkey⟩ := List.mem_map.mp hk'
    obtain ⟨e, hfile, hat⟩ := exists_at hr
    obtain ⟨e', hfile', hat'⟩ := exists_at hr'
    have hsame : some e = some e' := by rw [← hentry hat, ← hentry hat', hkey]
    rw [← hfile, ← hfile', Option.some.inj hsame]

/-- The merged files are not larger than the records that were copied from the old ones. -/
theorem size_le (h : Holds segs d) (hm : Merged segs d db out d' db') (ha : Active segs db rs) :
    World.immutableSize ⟨d', db', []⟩ ≤ World.immutableSize ⟨d, db, []⟩ := by
  have hold : ∀ id ∈ World.immutableIDs ⟨d, db, []⟩,
      (bytesOf (recordsAt segs id)).length ≤ (World.dataOf ⟨d, db, []⟩ id).length := by
    intro id hid
    obtain ⟨s, hs⟩ := Option.ne_none_iff_exists'.mp (h.mem_keys.mp (List.mem_filter.mp hid).1)
    rw [World.dataOf, h.data, hs, recordsAt_eq hs, Option.map_some, Option.getD_some,
      Segment.bytes, List.length_append]
    exact Nat.le_add_right _ _
  have hcopied : World.immutableRecords ⟨d', db', []⟩ ⊆
      (World.immutableIDs ⟨d, db, []⟩).flatMap (recordsAt segs) := by
    intro r hr
    obtain ⟨e', hat'⟩ := (hm.mem_immutableRecords ha).mp hr
    obtain ⟨e, -, hne, hat, -⟩ := hm.copied e' r hat'
    refine List.mem_flatMap.mpr ⟨e.fileID, List.mem_filter.mpr ⟨?_, by simpa using hne⟩,
      hat.mem_recordsAt⟩
    obtain ⟨s, -, -, hs, -⟩ := hat
    exact h.mem_keys.mpr (by simp [hs])
  calc World.immutableSize ⟨d', db', []⟩
      = ((World.immutableIDs ⟨d', db', []⟩).map fun id =>
          (bytesOf (recordsAt out id)).length).sum := by
        rw [World.immutableSize]
        congr 1
        refine List.map_congr_left fun id hid => ?_
        rw [hm.dataOf_eq ha ((hm.mem_immutableIDs ha).mp hid)]
    _ = ((World.immutableRecords ⟨d', db', []⟩).map Record.size).sum := by
        rw [length_flatMap_bytesOf, hm.immutableRecords_eq ha]
    _ ≤ (((World.immutableIDs ⟨d, db, []⟩).flatMap (recordsAt segs)).map Record.size).sum :=
        sum_size_le (hm.keys_nodup ha) hcopied
    _ = ((World.immutableIDs ⟨d, db, []⟩).map fun id =>
          (bytesOf (recordsAt segs id)).length).sum := (length_flatMap_bytesOf _ _).symm
    _ ≤ World.immutableSize ⟨d, db, []⟩ := List.sum_le_sum hold

/-- What the call leaves is what the keydir needs. -/
theorem compacts (h : Session segs m ⟨d, db, []⟩) (hm : Merged segs d db out d' db')
    (ha : Active segs db rs) : Compacts ⟨d, db, []⟩ ⟨d', db', []⟩ where
  active := by
    refine ⟨hm.activeFileID_eq, ?_⟩
    change d'.data[db.activeFileID]? = d.data[db.activeFileID]?
    rw [hm.holds.data, hm.segs_active ha, ha.data h.holds]
    simp [Segment.bytes]
  once := hm.keys_nodup ha
  keys := by
    intro k
    rw [List.mem_map]
    constructor
    · rintro ⟨r, hr, rfl⟩
      obtain ⟨e', hat'⟩ := (hm.mem_immutableRecords ha).mp hr
      obtain ⟨e, he, hne, -⟩ := hm.copied e' r hat'
      exact ⟨e, he, hne⟩
    · rintro ⟨e, he, hne⟩
      obtain ⟨e', r, -, hat', -, hkey⟩ := hm.moved k e he hne
      exact ⟨r, (hm.mem_immutableRecords ha).mpr ⟨e', hat'⟩, hkey⟩
  same := by
    intro r hr
    obtain ⟨e', hat'⟩ := (hm.mem_immutableRecords ha).mp hr
    obtain ⟨e, he, -, hat, -⟩ := hm.copied e' r hat'
    obtain ⟨r₀, hat₀, -, htomb, hvalue⟩ := h.serves.live r.key e he
    obtain rfl := hat₀.unique h.holds hat
    refine ⟨htomb, ?_, e, he, ?_⟩
    · rw [lookup_eq rfl h.holds ha.opened h.serves, hvalue]
      rfl
    · obtain ⟨s, pre, post, -, -, heq⟩ := hat
      rw [heq]
      rfl
  whole := by
    intro id hid
    have hout := (hm.mem_immutableIDs ha).mp hid
    rw [hm.recordsIn_dataOf ha hout, hm.dataOf_eq ha hout]
    refine ⟨rfl, ?_⟩
    obtain ⟨s, hs⟩ := Option.ne_none_iff_exists'.mp hout
    change d'.hint[id]? = _
    rw [hm.hint, hs, recordsAt_eq hs]
    rfl
  size := hm.size_le h.holds ha

end Merged

/-- After any history whose records fit their size fields and whose crashes and failed writes are
harmless, a `Merge` that returns nil while no other call runs and no call of the file system fails
compacts exactly. -/
theorem merge_compacts {ps : List Period} (h : periods.Along Mild World.empty ps)
    (hrun : periods.exec World.empty ps = some w) (hmerge : merge w = .ok () w') :
    Compacts w w' := by
  obtain ⟨segs, m, hs, -⟩ := kept_of_mild h hrun
  obtain ⟨d, db, os⟩ := w
  obtain rfl : os = [] := hs.calm
  have hopen : db.closed = false := by
    cases hclosed : db.closed with
    | false => rfl
    | true =>
      have hrefused : merge ⟨d, db, []⟩ = .error .closed ⟨d, db, []⟩ := by
        simp [merge, mergeSnapshot, ensureOpen, bind_apply, hclosed]
      cases hrefused.symm.trans hmerge
  obtain ⟨-, rs, ha⟩ := hs.opened hopen
  rcases merge_run hs.holds ha hs.serves hs.tmp with ⟨out, d', db', hm, hok⟩ | ⟨v, hfault⟩
  · obtain ⟨-, rfl⟩ := EStateM.Result.ok.inj (hok.symm.trans hmerge)
    exact hm.compacts hs ha
  · cases hfault.symm.trans hmerge

/-- A `Delete` during a call of `Merge`, a crash, and a session with a write that fails. -/
def threePeriods : List Period :=
  [.alone ⟨.open ⟨true, false, 25⟩, []⟩,
    .together [.put 1 [1] [7], .put 2 [2] [8], .merge 0, .resume 0, .delete 3 [2], .resume 0,
      .resume 0, .resume 0],
    .alone ⟨.crash ⟨4, [1], [1]⟩ 3, []⟩, .alone ⟨.open ⟨true, false, 50⟩, []⟩,
    .alone ⟨.put 5 [3] [2], [.fail 0]⟩, .together [.put 6 [3] [4], .get [1]]]

theorem merge_compacts_threePeriods : ∃ w w', periods.exec World.empty threePeriods = some w ∧
    merge w = .ok () w' ∧ Compacts w w' := by
  have h : periods.Along Mild World.empty threePeriods := by decide +kernel
  have hrun : ((periods.exec World.empty threePeriods).bind fun w => w.returned merge).isSome := by
    decide +kernel
  obtain ⟨w', hw'⟩ := Option.isSome_iff_exists.mp hrun
  obtain ⟨w, hw, hreturned⟩ := Option.bind_eq_some_iff.mp hw'
  obtain ⟨_, hmerge⟩ := World.of_returned hreturned
  exact ⟨w, w', hw, hmerge, merge_compacts h hw hmerge⟩

/-- `key1` -/
def key1 : Bytes := [107, 101, 121, 49]

/-- The record of this value for `key1` at time 2 begins with the last four bytes of a tombstone. -/
def forged : Bytes :=
  [118, 118, 118, 118, 118, 118, 118, 118, 118, 118, 118, 118, 118, 118, 118, 118, 118, 41, 76, 61,
    186]

/-- A `Delete` whose write stops four bytes before its end, and a `Put` that is indexed where the
`Delete` began. -/
def staleOffset : List Period :=
  [.alone ⟨.open ⟨true, false, 50⟩, []⟩, .alone ⟨.delete 1 key1, [.fail 41]⟩,
    .alone ⟨.put 2 key1 forged, []⟩, .alone ⟨.put 3 [2] [8], []⟩]

/-- `Merge` copies what the entry now points at: the tombstone. -/
theorem staleOffset_run : ∃ w w' r, periods.exec World.empty staleOffset = some w ∧
    merge w = .ok () w' ∧ r ∈ w'.immutableRecords ∧ r.tombstone = true := by
  have hrun : ((periods.exec World.empty staleOffset).bind fun w => w.returned merge).any
      fun w' => w'.immutableRecords.any Record.tombstone := by decide +kernel
  obtain ⟨w', hw', hcopied⟩ := Option.any_eq_true _ _ |>.mp hrun
  obtain ⟨w, hw, hreturned⟩ := Option.bind_eq_some_iff.mp hw'
  obtain ⟨_, hmerge⟩ := World.of_returned hreturned
  obtain ⟨r, hr, htombstone⟩ := List.any_eq_true.mp hcopied
  exact ⟨w, w', r, hw, hmerge, hr, htombstone⟩

theorem Compacts.not_of_tombstone {r : Record} (hr : r ∈ w'.immutableRecords)
    (htombstone : r.tombstone = true) : ¬ Compacts w w' := by
  intro h
  rw [(h.same r hr).1] at htombstone
  cases htombstone

end KvRaft.Store
