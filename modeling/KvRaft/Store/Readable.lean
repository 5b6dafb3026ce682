import KvRaft.Store.Durable
import KvRaft.Store.Oversized
import KvRaft.Store.Periods

/-! What becomes of the value of a `Put` that returned nil: `Get` returns it, and returns it again
after the directory has been opened anew, just when the size of the record fits the 32 bits that
the entry has for it. `Put` does not check that. -/

namespace KvRaft.Store

open Std Replay

/-- Recovery prefers `r` to every record of its key that the directory holds: they are older, or as
old and read before `r`. -/
def World.Prevails (w : World) (r : Record) : Prop :=
  ∀ p ∈ w.disk.data.toList, ∀ q ∈ (records p.2).1, q.1.key = r.key →
    q.1.timestamp < r.timestamp ∨ q.1.timestamp = r.timestamp ∧
      (w.db.full (Int64.ofNat r.size) ∨ p.1 ≤ w.db.activeFileID)

instance (w : World) (r : Record) : Decidable (w.Prevails r) :=
  inferInstanceAs (Decidable (∀ p ∈ w.disk.data.toList, ∀ q ∈ (records p.2).1, _ → _))

/-- `Close` and a new `Open` succeed, and `Get` returns the value. -/
def World.Rereads (w : World) (opts : OpenOptions) (key value : Bytes) : Prop :=
  ∃ w₁ w₂, close w = .ok () w₁ ∧ openWithOptions opts w₁ = .ok () w₂ ∧ w₂.lookup key = .ok value

variable {segs segs' : Nat → Option Segment} {m : Bytes → Option Bytes} {d : Disk} {db : DB}
  {w w' : World} {e : KeyDirEntry} {r : Record} {rs : List Record} {opts : OpenOptions}
  {key value : Bytes} {ts : Int64}

/-- The entry of a record that can be read holds its size. -/
theorem size_of_lookup (h : w.lookup key = .ok value) :
    20 + key.length + value.length < 2 ^ 32 := by
  obtain ⟨e, bs, r, -, -, hr, rfl, -⟩ := lookup_eq_ok h
  have hlt := e.recordSize.toNat_lt
  rw [hr.size, Record.size, hr.key] at hlt
  exact hlt

section Recovery

/-- The update of a record in a file that recovery reads to its end. -/
theorem At.mem_recovered {hints : Nat → Option (List Record)} {active : Nat} (hat : At segs e r)
    (hread : e.fileID = active ∨ hints e.fileID = none) :
    ⟨r.key, e, r.tombstone⟩ ∈ recovered segs hints active e.fileID := by
  obtain ⟨s, pre, post, hs, hrecs, he⟩ := hat
  have hall : (if e.fileID = active then recordsAt segs e.fileID
      else (hints e.fileID).getD (recordsAt segs e.fileID)) = pre ++ r :: post := by
    rw [← hrecs, ← recordsAt_eq hs]
    split
    · rfl
    · next hne => rw [hread.resolve_left hne, Option.getD_none]
  rw [recovered, hall]
  refine mem_updates.mpr ⟨pre, r, post, rfl, ?_⟩
  rw [updateOf, Nat.zero_add]
  exact congrArg (Update.mk r.key · r.tombstone) he

/-- Recovery indexes the record that beats all others of its key, unless a hint file hides it. -/
theorem At.recovered (h : Holds segs d) {hints : Nat → Option (List Record)} {active : Nat}
    (hcov : ∀ id rs, hints id = some rs → ∃ s, segs id = some s ∧ rs <+: s.records)
    (hat : At segs e r) (ht : r.tombstone = false)
    (hread : e.fileID = active ∨ hints e.fileID = none)
    (hbeats : ∀ e' r', At segs e' r' → r'.key = r.key → e' = e ∨ shouldReplace e' e = true) :
    (scan ∅ (d.data.keys.flatMap (Store.recovered segs hints active)))[r.key]? = some e := by
  have hfile : e.fileID ∈ d.data.keys := by
    obtain ⟨s, _, _, hs, _⟩ := hat
    exact h.mem_keys.mpr (by simp [hs])
  have hmem := List.mem_flatMap.mpr ⟨e.fileID, hfile, hat.mem_recovered hread⟩
  refine scan_greatest hmem ht fun v hv hkey => ?_
  obtain ⟨id, -, hv⟩ := List.mem_flatMap.mp hv
  obtain ⟨r', hat', hkey', ht'⟩ := Store.mem_recovered hcov hv
  refine (hbeats v.entry r' hat' (hkey'.trans hkey)).imp_left fun heq => ?_
  obtain rfl := hat.unique h (heq ▸ hat')
  rw [hkey', ht', ← heq]

theorem lookup_at (h : Holds segs w.disk) (hcalm : w.outcomes = []) (hopen : w.db.closed = false)
    (he : w.db.keydir[r.key]? = some e) (hat : At segs e r) (ht : r.tombstone = false) :
    w.lookup r.key = .ok r.value := by
  obtain ⟨d, db, os⟩ := w
  obtain rfl : os = [] := hcalm
  simp only [World.lookup, getValue, bind_apply, findEntry_live hopen he,
    readValue_run h hopen hat ht]

/-- After recovery `Get` returns the value of the record that beats all others of its key, if no
hint file hides the record. -/
theorem Opens.lookup_greatest (ho : Opens opts segs d segs' w') (h : Holds segs d)
    (hc : Covered segs d) (hat : At segs e r) (ht : r.tombstone = false)
    (hshown : (∀ id, segs id ≠ none → id ≤ e.fileID) ∨ d.hint[e.fileID]? = none)
    (hbeats : ∀ e' r', At segs e' r' → r'.key = r.key → e' = e ∨ shouldReplace e' e = true) :
    w'.lookup r.key = .ok r.value := by
  obtain ⟨hints, hh, hcov⟩ := hc.exists_hints h
  have hfile : segs e.fileID ≠ none := by
    obtain ⟨s, _, _, hs, _⟩ := hat
    simp [hs]
  rcases h.keys_eq with ⟨hnone, -⟩ | ⟨-, active, -, hactive, htop⟩
  · exact absurd (hnone e.fileID) hfile
  · -- there is only one highest file, so the records that recovery reads are fixed
    have hread : ∀ active', segs active' ≠ none → (∀ id, segs id ≠ none → id ≤ active') →
        ∃ hints', Hinted hints' active' d ∧ ∀ id, segs id ≠ none →
          recovered segs hints' active' id = updates id 0 (if id = active then recordsAt segs id
            else (hints id).getD (recordsAt segs id)) := by
      intro active' hactive' htop'
      obtain rfl := Nat.le_antisymm (htop active' hactive') (htop' active hactive)
      exact ⟨hints, hh active', fun _ _ => rfl⟩
    obtain ⟨hcalm, hkey, hopen, hholds, hgrows⟩ := ho.reads h hread
    refine lookup_at hholds hcalm hopen ?_ (hat.grow hgrows) ht
    rw [hkey]
    refine hat.recovered h hcov ht ?_ hbeats
    rcases hshown with hmax | hnohint
    · exact Or.inl (Nat.le_antisymm (htop _ hfile) (hmax active hactive))
    · refine or_iff_not_imp_left.mpr fun hne => ?_
      rw [(hh active).hint _ hne] at hnohint
      exact Option.map_eq_none_iff.mp hnohint

/-- What an open store has torn before does not keep recovery from reading, in either mode. -/
theorem Session.shut_opens (h : Session segs m w) (hopen : w.db.closed = false)
    (hlive : w.db.activeFile = .opened) (opts : OpenOptions) :
    ∃ segs' w₁ w₂, close w = .ok () w₁ ∧ w₁.disk = w.shut.disk ∧
      openWithOptions opts w₁ = .ok () w₂ ∧ Opens opts segs w₁.disk segs' w₂ := by
  obtain ⟨d, db, os⟩ := w
  obtain rfl : os = [] := h.calm
  have hs : Session segs m (World.shut ⟨d, db, []⟩) := h.shut rfl rfl
  obtain ⟨hints, hh, -⟩ := hs.covered.exists_hints hs.holds
  have hread : ∀ active, segs active ≠ none → (∀ id, segs id ≠ none → id ≤ active) →
      ∀ id s, segs id = some s →
        Readable { d with locked := false } opts.readWrite active id s := by
    intro active hactive htop id s hsome
    by_cases htail : s.tail = []
    · exact Or.inl (by rw [htail]; exact decode_nil)
    · rcases h.torn id s hsome htail with ⟨hhid, ⟨high, hhigh, hlt⟩, -⟩ | ⟨hclosed, -⟩
      · have hne : id ≠ active := Nat.ne_of_lt (Nat.lt_of_lt_of_le hlt (htop high hhigh))
        exact hhid.elim (fun hhint => Or.inr (Or.inr ⟨hne, hhint⟩)) Or.inl
      · rw [hopen] at hclosed
        cases hclosed
  obtain ⟨segs', w₂, ho, hok⟩ := openWithOptions_opens (World.shut ⟨d, db, []⟩).db hs.holds
    (fun active _ _ => ⟨hints, hh active⟩) hs.tmp hs.present (fun _ => rfl) hread
  have hclose := World.closes_shut hopen (h.opened hopen).1 (d := d)
  rw [World.Closes, if_neg fun hdead => absurd (hlive.symm.trans hdead.2) (by decide)] at hclose
  exact ⟨segs', _, w₂, hclose, rfl, hok, ho⟩

end Recovery

section Written

variable {segs₀ : Nat → Option Segment} {d' : Disk} {db' : DB} {rs' : List Record} {r' : Record}
  {len : Int64}

/-- A rotation moves no record, and ends above them all. -/
theorem Room.at_before (hroom : Room segs d db rs len segs₀ d' db' rs') (ha : Active segs db rs)
    (hat : At segs₀ e r) : At segs e r ∧
      (db.full len ∨ e.fileID ≤ db.activeFileID → e.fileID ≤ db'.activeFileID) := by
  cases hroom with
  | stay hnot => exact ⟨hat, fun hplace => hplace.resolve_left hnot⟩
  | rotate hfull =>
    have hold := hat.of_empty
    refine ⟨hold, fun _ => ?_⟩
    obtain ⟨s, _, _, hs, _⟩ := hold
    exact Nat.le_of_lt (ha.below e.fileID (by simp [hs]))

/-- The record just written beats all others of its key. -/
theorem World.Prevails.beats (h : w.Prevails r) (hh : Holds segs w.disk) (ha : Active segs w.db rs)
    (hroom : Room segs w.disk w.db rs (Int64.ofNat r.size) segs₀ d' db' rs')
    (hat : At (Function.update segs₀ db'.activeFileID (some { records := rs' ++ [r] })) e r')
    (hkey : r'.key = r.key) :
    e = entryOf db'.activeFileID (bytesOf rs').length r ∨
      shouldReplace e (entryOf db'.activeFileID (bytesOf rs').length r) = true := by
  have ha' := hroom.active ha
  refine (hat.of_append ha'.file).elim (fun hat => Or.inr ?_) fun hlast => Or.inl hlast.1
  obtain ⟨hold, hplace⟩ := hroom.at_before ha hat
  obtain ⟨bs, hmem, hread⟩ := hold.mem_records hh
  rw [shouldReplace_iff, hat.timeStamp]
  rcases h _ hmem _ hread hkey with hlt | ⟨heq, hfile⟩
  · exact Or.inl (Int64.lt_iff_toInt_lt.mp hlt)
  · refine Or.inr ⟨congrArg Int64.toInt heq, ?_⟩
    rcases Nat.lt_or_eq_of_le (hplace hfile) with hlt | heq
    · exact Or.inl hlt
    · exact Or.inr ⟨heq, hat.offset_lt (hroom.holds hh) ha' heq⟩

/-- Recovery reads the file of the record just written to its end. -/
theorem World.Unhinted.shown (h : w.Unhinted r) (hs : Session segs m w) (ha : Active segs w.db rs)
    (hroom : Room segs w.disk w.db rs (Int64.ofNat r.size) segs₀ d' db' rs') :
    (∀ id, segs₀ id ≠ none → id ≤ db'.activeFileID) ∨ d'.hint[db'.activeFileID]? = none := by
  have ha' := hroom.active ha
  cases hroom with
  | stay hnot =>
    refine (h ha.opened hnot).imp_left fun htop id hid => ?_
    exact htop id (hs.holds.mem_keys.mpr hid)
  | rotate hfull =>
    refine Or.inl fun id hid => ?_
    have := ha'.below id hid
    change id ≤ w.db.nextFileID
    change id < w.db.nextFileID + 1 at this
    omega

theorem rereads_appended (hs : Session segs m w) (ha : Active segs w.db rs) (hr : r.Legal)
    (ht : r.tombstone = false) (happ : Appended segs w.disk w.db rs r segs' w')
    (hhint : w.Unhinted r) (hnew : w.Prevails r) (opts : OpenOptions) :
    w'.Rereads opts r.key r.value := by
  have hs' := hs.appended ha hr happ
  obtain ⟨segs₂, w₁, w₂, hclose, hdisk, hok, ho⟩ := hs'.shut_opens (happ.opened ha) happ.live opts
  refine ⟨w₁, w₂, hclose, hok, ?_⟩
  rw [hdisk] at ho
  cases happ with
  | @intro _ _ db' _ hroom _ _ =>
    refine ho.lookup_greatest (hs'.holds.frame rfl rfl) hs'.covered (At.last _ _ _ r) ht ?_
      fun e' r' hat hkey => hnew.beats hs.holds ha hroom hat hkey
    refine (hhint.shown hs ha hroom).imp_left fun htop id hid => ?_
    by_cases hA : id = db'.activeFileID
    · exact Nat.le_of_eq hA
    · rw [Function.update_of_ne hA] at hid
      exact htop id hid

end Written

/-- After any history whose failures are harmless, a `Put` that returned nil can be read just when
the size of its record fits 32 bits; and so it is after the directory has been opened anew, for
reading or for writing, if recovery sees the record and prefers it. -/
theorem put_readable {ps : List Period} (h : periods.Along Mild World.empty ps)
    (hrun : periods.exec World.empty ps = some w) (hput : put ts key value w = .ok () w') :
    (w'.lookup key = .ok value ↔ 20 + key.length + value.length < 2 ^ 32) ∧
      (w.Unhinted ⟨ts, key, value⟩ → w.Prevails ⟨ts, key, value⟩ → ∀ opts,
        (w'.Rereads opts key value ↔ 20 + key.length + value.length < 2 ^ 32)) := by
  obtain ⟨segs, m, hs, -⟩ := kept_of_mild h hrun
  obtain ⟨hv, rs, segs', ha, happ⟩ := hs.put_appended hput
  have ht : Record.tombstone ⟨ts, key, value⟩ = false := by simp [Record.tombstone, hv]
  refine ⟨⟨size_of_lookup, fun hsize => ?_⟩, fun hhint hnew opts => ⟨?_, fun hsize => ?_⟩⟩
  · exact hs.lookup_appended ha (.of_size (r := ⟨ts, key, value⟩) hsize) ht happ
  · rintro ⟨_, _, -, -, hlook⟩
    exact size_of_lookup hlook
  · exact rereads_appended hs ha (.of_size (r := ⟨ts, key, value⟩) hsize) ht happ hhint hnew opts

/-- A `Merge` puts a file above the active one, which has no hint file and room for one more
record. -/
def mergedAbove : List Period :=
  [.alone ⟨.open ⟨true, false, 50⟩, []⟩, .alone ⟨.put 1 [1] [7], []⟩, .alone ⟨.put 2 [2] [8], []⟩,
    .alone ⟨.put 3 [3] [7], []⟩, .together (.merge 0 :: List.replicate 7 (.resume 0))]

theorem put_readable_mergedAbove : ∃ w w', periods.exec World.empty mergedAbove = some w ∧
    put 4 [1] [9] w = .ok () w' ∧ w'.lookup [1] = .ok [9] ∧
      w'.Rereads ⟨false, false, 0⟩ [1] [9] := by
  have h : periods.Along Mild World.empty mergedAbove := by decide +kernel
  have hrun : (periods.exec World.empty mergedAbove).any fun w =>
      decide (w.Unhinted ⟨4, [1], [9]⟩ ∧ w.Prevails ⟨4, [1], [9]⟩) &&
        (w.returned (put 4 [1] [9])).isSome := by decide +kernel
  obtain ⟨w, hw, hput⟩ := Option.any_eq_true _ _ |>.mp hrun
  rw [Bool.and_eq_true, decide_eq_true_eq] at hput
  obtain ⟨⟨hhint, hnew⟩, hsome⟩ := hput
  obtain ⟨w', hreturned⟩ := Option.isSome_iff_exists.mp hsome
  obtain ⟨_, hok⟩ := World.of_returned hreturned
  obtain ⟨hget, hagain⟩ := put_readable h hw hok
  exact ⟨w, w', hw, hok, hget.mpr (by decide), (hagain hhint hnew _).mpr (by decide)⟩

/-- The sizes of the key and of the value fit their fields, but that of the record does not: its
entry says that the record is empty. -/
theorem not_put_readable : ∃ w w', ∃ value : Bytes, value.length = 2 ^ 32 - 21 ∧
    periods.exec World.empty [.alone ⟨.open ⟨true, false, 25⟩, []⟩] = some w ∧
      put 1 [1] value w = .ok () w' ∧ w'.lookup [1] = .error .eof ∧
        ∀ opts, ¬ w'.Rereads opts [1] value := by
  obtain ⟨value, hlen⟩ : ∃ value : Bytes, value.length = 2 ^ 32 - 21 :=
    ⟨List.replicate _ 0, List.length_replicate⟩
  have hv : value ≠ tombstoneValue := by
    rintro rfl
    exact absurd hlen (by decide)
  have hsize : (encodeDataRecord 1 [1] value).length = 2 ^ 32 :=
    (Record.length_encode ⟨1, [1], value⟩).trans (by simp [Record.size, hlen])
  refine ⟨started, _, value, hlen, rfl, put_started hv (by rw [hsize]; decide), ?_, ?_⟩
  · have hzero : UInt32.ofNat (encodeDataRecord 1 [1] value).length = 0 := by rw [hsize]; rfl
    simp [World.lookup, getValue, findEntry, readValue, readRecordAtEntry, openReader, readSection,
      readData, bind_apply, holding, started, hzero, decode_nil]
  · rintro opts ⟨_, _, -, -, hlook⟩
    have := size_of_lookup hlook
    simp [hlen] at this

end KvRaft.Store
