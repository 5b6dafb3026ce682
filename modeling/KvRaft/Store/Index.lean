import KvRaft.Store.Append

/-! What the keydir says about the segments, and what `read.go` gets from it. -/

namespace KvRaft.Store

open Std Replay

/-- The entry is that of the record `r` of a segment. -/
def At (segs : Nat → Option Segment) (e : KeyDirEntry) (r : Record) : Prop :=
  ∃ s pre post, segs e.fileID = some s ∧ s.records = pre ++ r :: post ∧
    e = entryOf e.fileID (bytesOf pre).length r

/-- The keydir holds one entry for each key of the map `m`, and none for the other keys; the entry
is that of a record of the key with the value of the map. -/
structure Serves (segs : Nat → Option Segment) (keydir : KeyDir) (m : Bytes → Option Bytes) :
    Prop where
  live : ∀ k e, keydir[k]? = some e →
    ∃ r, At segs e r ∧ r.key = k ∧ r.tombstone = false ∧ m k = some r.value
  dead : ∀ k, keydir[k]? = none → m k = none

/-- What a call that writes `r` does to the map. -/
def Record.effect (r : Record) (m : Bytes → Option Bytes) : Bytes → Option Bytes :=
  Function.update m r.key (if r.tombstone then none else some r.value)

/-- Every record stays where it is. -/
def Grows (segs segs' : Nat → Option Segment) : Prop :=
  ∀ id s, segs id = some s → ∃ s', segs' id = some s' ∧ s.records <+: s'.records

variable {segs segs' : Nat → Option Segment} {d : Disk} {db : DB} {rs : List Record}
  {keydir : KeyDir} {m : Bytes → Option Bytes} {e : KeyDirEntry} {r : Record}

theorem Grows.refl (segs : Nat → Option Segment) : Grows segs segs :=
  fun _ s hs => ⟨s, hs, List.prefix_rfl⟩

theorem Grows.trans {segs'' : Nat → Option Segment} (h : Grows segs segs')
    (h' : Grows segs' segs'') : Grows segs segs'' := by
  intro id s hs
  obtain ⟨s', hs', hp⟩ := h id s hs
  obtain ⟨s'', hs'', hp'⟩ := h' id s' hs'
  exact ⟨s'', hs'', hp.trans hp'⟩

theorem Grows.update {id : Nat} {s : Segment}
    (h : ∀ s₀, segs id = some s₀ → s₀.records <+: s.records) :
    Grows segs (Function.update segs id (some s)) := by
  intro i s₀ hs₀
  by_cases hi : i = id
  · subst hi
    exact ⟨s, by simp, h s₀ hs₀⟩
  · exact ⟨s₀, by rw [Function.update_of_ne hi, hs₀], List.prefix_rfl⟩

theorem Grows.tail {id : Nat} {tail : Bytes} (hs : segs id = some { records := rs }) :
    Grows segs (Function.update segs id (some ⟨rs, tail⟩)) := by
  refine Grows.update fun s₀ hs₀ => ?_
  rw [hs, Option.some.injEq] at hs₀
  rw [← hs₀]

theorem Grows.create (ha : Active segs db rs) :
    Grows segs (Function.update segs db.nextFileID (some { records := [] })) := by
  refine Grows.update fun s₀ hs₀ => ?_
  rw [ha.fresh] at hs₀
  cases hs₀

theorem Room.grows {len : Int64} {d' : Disk} {db' : DB} {rs' : List Record}
    (hr : Room segs d db rs len segs' d' db' rs') (ha : Active segs db rs) : Grows segs segs' := by
  cases hr with
  | stay => exact Grows.refl segs
  | rotate => exact Grows.create ha

theorem Active.grows (ha : Active segs db rs) (r : Record) :
    Grows segs (Function.update segs db.activeFileID (some { records := rs ++ [r] })) := by
  refine Grows.update fun s₀ hs₀ => ?_
  rw [ha.file, Option.some.injEq] at hs₀
  rw [← hs₀]
  exact List.prefix_append rs [r]

theorem Appended.grows {w : World} (ha : Active segs db rs)
    (happ : Appended segs d db rs r segs' w) : Grows segs segs' := by
  cases happ with
  | intro hroom hsize => exact (hroom.grows ha).trans ((hroom.active ha).grows r)

theorem Appended.opened {w : World} (ha : Active segs db rs)
    (happ : Appended segs d db rs r segs' w) : w.db.closed = false := by
  cases happ with
  | intro hroom => exact (hroom.active ha).opened

theorem Appended.live {w : World} (happ : Appended segs d db rs r segs' w) :
    w.db.activeFile = .opened := by
  cases happ with
  | intro hroom hlive hsize => exact hlive

theorem At.grow (h : At segs e r) (hg : Grows segs segs') : At segs' e r := by
  obtain ⟨s, pre, post, hs, hrecs, he⟩ := h
  obtain ⟨s', hs', more, hmore⟩ := hg _ s hs
  refine ⟨s', pre, post ++ more, hs', ?_, he⟩
  rw [← hmore, hrecs]
  simp

theorem At.last (segs : Nat → Option Segment) (id : Nat) (rs : List Record) (r : Record) :
    At (Function.update segs id (some { records := rs ++ [r] }))
      (entryOf id (bytesOf rs).length r) r :=
  ⟨{ records := rs ++ [r] }, rs, [], Function.update_self .., rfl, rfl⟩

/-- An entry determines its record. -/
theorem At.unique (h : Holds segs d) {r' : Record} (hr : At segs e r) (hr' : At segs e r') :
    r = r' := by
  obtain ⟨s, pre, post, hs, hrecs, he⟩ := hr
  obtain ⟨s', pre', post', hs', hrecs', he'⟩ := hr'
  obtain rfl : s = s' := by rw [hs, Option.some.injEq] at hs'; exact hs'
  have hlen := h.size _ s hs
  have hoff : Int64.ofNat (bytesOf pre).length = Int64.ofNat (bytesOf pre').length := by
    have := he.symm.trans he'
    exact congrArg KeyDirEntry.fileOffset this
  have hbound : ∀ p q, s.records = p ++ q → (bytesOf p).length < 2 ^ 63 := by
    intro p q hpq
    rw [Segment.bytes, hpq, bytesOf_append, List.append_assoc, List.length_append,
      maxFileSize] at hlen
    omega
  have heq : (bytesOf pre).length = (bytesOf pre').length := by
    have := congrArg Int64.toInt hoff
    rw [Int64.toInt_ofNat_of_lt (hbound _ _ hrecs), Int64.toInt_ofNat_of_lt (hbound _ _ hrecs')]
      at this
    omega
  -- equal offsets are equal places, since every record takes room
  have hpos : ∀ r : Record, 0 < r.size := fun r => by rw [Record.size]; omega
  rw [hrecs] at hrecs'
  rcases List.append_eq_append_iff.mp hrecs' with ⟨x, rfl, hx⟩ | ⟨x, rfl, hx⟩
  all_goals
    cases x with
    | nil =>
      simp only [List.nil_append, List.cons.injEq] at hx
      simp [hx.1]
    | cons a x =>
      have := hpos a
      simp only [bytesOf_append, bytesOf_cons, List.length_append, Record.length_encode] at heq
      omega

/-- An empty file has no entries. -/
theorem At.of_empty {id : Nat}
    (h : At (Function.update segs id (some { records := [] })) e r) : At segs e r := by
  obtain ⟨s, pre, post, hs, hrecs, he⟩ := h
  by_cases hi : e.fileID = id
  · rw [hi, Function.update_self, Option.some.injEq] at hs
    rw [← hs] at hrecs
    simp at hrecs
  · rw [Function.update_of_ne hi] at hs
    exact ⟨s, pre, post, hs, hrecs, he⟩

theorem At.of_append {id : Nat} {r' : Record} (hs : segs id = some { records := rs })
    (h : At (Function.update segs id (some { records := rs ++ [r] })) e r') :
    At segs e r' ∨ e = entryOf id (bytesOf rs).length r ∧ r' = r := by
  obtain ⟨s, pre, post, hfile, hrecs, he⟩ := h
  by_cases hid : e.fileID = id
  · rw [hid, Function.update_self, Option.some.injEq] at hfile
    subst hfile
    rcases List.eq_nil_or_concat post with rfl | ⟨init, last, rfl⟩
    · obtain ⟨rfl, hr⟩ := List.append_inj' hrecs rfl
      obtain rfl := List.singleton_inj.mp hr
      rw [hid] at he
      exact Or.inr ⟨he, rfl⟩
    · rw [List.concat_eq_append, ← List.cons_append, ← List.append_assoc] at hrecs
      obtain ⟨hpre, -⟩ := List.append_inj' hrecs rfl
      exact Or.inl ⟨_, pre, init, hid ▸ hs, hpre, he⟩
  · rw [Function.update_of_ne hid] at hfile
    exact Or.inl ⟨s, pre, post, hfile, hrecs, he⟩

theorem Record.index_self : (r.index e keydir)[r.key]? = if r.tombstone then none else some e := by
  unfold Record.index
  split <;> simp

theorem Record.index_ne {k : Bytes} (h : k ≠ r.key) : (r.index e keydir)[k]? = keydir[k]? := by
  unfold Record.index
  split
  · exact Maps.getElem?_erase_of_ne h
  · exact Maps.getElem?_insert_of_ne h

theorem Record.effect_self : r.effect m r.key = if r.tombstone then none else some r.value :=
  Function.update_self ..

theorem Record.effect_ne {k : Bytes} (h : k ≠ r.key) : r.effect m k = m k :=
  Function.update_of_ne h ..

namespace Serves

theorem grow (h : Serves segs keydir m) (hg : Grows segs segs') : Serves segs' keydir m := by
  refine ⟨?_, h.dead⟩
  intro k e he
  obtain ⟨r, hat, hr⟩ := h.live k e he
  exact ⟨r, hat.grow hg, hr⟩

/-- The keydir after a call that wrote `r` serves the map after it. -/
theorem write (h : Serves segs keydir m) (hat : At segs e r) :
    Serves segs (r.index e keydir) (r.effect m) := by
  constructor
  · intro k e' he'
    by_cases hk : k = r.key
    · subst hk
      rw [Record.index_self] at he'
      rw [Record.effect_self]
      split at he'
      · cases he'
      · next ht =>
        obtain rfl := Option.some.inj he'
        exact ⟨r, hat, rfl, by simpa using ht, if_neg ht⟩
    · rw [Record.index_ne hk] at he'
      rw [Record.effect_ne hk]
      exact h.live k e' he'
  · intro k he'
    by_cases hk : k = r.key
    · subst hk
      rw [Record.index_self] at he'
      rw [Record.effect_self]
      split at he'
      · next ht => exact if_pos ht
      · cases he'
    · rw [Record.index_ne hk] at he'
      rw [Record.effect_ne hk]
      exact h.dead k he'

/-- Entries that point at values serve some map. -/
theorem exists_of_live (h : ∀ (k : Bytes) e, keydir[k]? = some e →
    ∃ r, At segs e r ∧ r.key = k ∧ r.tombstone = false) : ∃ m, Serves segs keydir m := by
  classical
  refine ⟨fun k => if hv : ∃ v e r, keydir[k]? = some e ∧ At segs e r ∧ r.key = k ∧
    r.tombstone = false ∧ v = r.value then some hv.choose else none, ?_, ?_⟩
  · intro k e he
    obtain ⟨r, hr⟩ := h k e he
    have hv : ∃ v e r, keydir[k]? = some e ∧ At segs e r ∧ r.key = k ∧ r.tombstone = false ∧
        v = r.value := ⟨r.value, e, r, he, hr.1, hr.2.1, hr.2.2, rfl⟩
    obtain ⟨e', r', he', hat, hkey, ht, hval⟩ := hv.choose_spec
    rw [he, Option.some.injEq] at he'
    subst he'
    refine ⟨r', hat, hkey, ht, ?_⟩
    rw [dif_pos hv, ← hval]
  · intro k hk
    rw [dif_neg]
    rintro ⟨_, e, _, he, _⟩
    rw [hk] at he
    cases he

end Serves

/-- `db` once the data file has been opened for reading. -/
def DB.reading (db : DB) (fileID : Nat) : DB :=
  if fileID ∈ db.readers then db else { db with readers := fileID :: db.readers }

theorem DB.reading_eq (db : DB) (fileID : Nat) :
    db.reading fileID = { db with readers := (db.reading fileID).readers } := by
  unfold DB.reading
  split <;> rfl

theorem Active.reading (ha : Active segs db rs) (fileID : Nat) :
    Active segs (db.reading fileID) rs := by
  rw [DB.reading_eq]
  exact { ha with }

theorem openReader_run {bs : Bytes} {fileID : Nat} (hopen : db.closed = false)
    (hd : d.data[fileID]? = some bs) :
    openReader fileID ⟨d, db, []⟩ = .ok () ⟨d, db.reading fileID, []⟩ := by
  simp only [openReader, bind_apply, getDB_apply, hopen, Bool.false_eq_true, if_false]
  unfold DB.reading
  split
  · rfl
  · simp [bind_apply, readData, hd]

/-- The section of an entry is the encoding of its record. -/
theorem At.located (h : Holds segs d) (hat : At segs e r) (hsize : r.size < 2 ^ 32) :
    ∃ bs, d.data[e.fileID]? = some bs ∧ ¬ e.fileOffset < 0 ∧ e.recordSize.toNat = r.size ∧
      e.fileOffset.toNatClampNeg + r.size ≤ bs.length ∧
      (bs.drop e.fileOffset.toNatClampNeg).take r.size = r.encode := by
  obtain ⟨s, pre, post, hs, hrecs, he⟩ := hat
  have hbytes : s.bytes = bytesOf pre ++ (r.encode ++ (bytesOf post ++ s.tail)) := by
    simp [Segment.bytes, hrecs]
  have hlen := h.size _ s hs
  have hoff : e.fileOffset = Int64.ofNat (bytesOf pre).length := by rw [he]; rfl
  have hsz : e.recordSize.toNat = r.size := by
    rw [he]
    exact UInt32.toNat_ofNat_of_lt' hsize
  have hlt : (bytesOf pre).length < 2 ^ 63 := by
    rw [hbytes, List.length_append, maxFileSize] at hlen
    omega
  have hpos : ¬ e.fileOffset < 0 := by
    rw [hoff, Int64.lt_iff_toInt_lt, Int64.toInt_ofNat_of_lt hlt]
    simp
  have hdata : d.data[e.fileID]? = some s.bytes := by rw [h.data, hs]; rfl
  rw [hoff] at hpos ⊢
  refine ⟨s.bytes, hdata, hpos, hsz, ?_, ?_⟩
  · rw [Int64.toNatClampNeg_ofNat_of_lt hlt, hbytes]
    simp only [List.length_append, Record.length_encode]
    omega
  · rw [Int64.toNatClampNeg_ofNat_of_lt hlt, hbytes, List.drop_left,
      List.take_left' r.length_encode]

theorem readSection_run (h : Holds segs d) (hat : At segs e r) (hsize : r.size < 2 ^ 32) :
    readSection e ⟨d, db, []⟩ = .ok r.encode ⟨d, db, []⟩ := by
  obtain ⟨bs, hdata, hpos, hsz, -, hsection⟩ := hat.located h hsize
  have hne : e.recordSize ≠ 0 := by
    intro hzero
    rw [hzero, Record.size] at hsz
    simp at hsz
    omega
  simp only [readSection, if_neg hne, bind_apply, call_apply, getDisk_apply, hdata, hpos, if_false,
    pure_apply, hsz, hsection]

theorem readRecordAtEntry_sized (h : Holds segs d) (hopen : db.closed = false) (hat : At segs e r)
    (hsize : r.size < 2 ^ 32) :
    readRecordAtEntry r.key e ⟨d, db, []⟩ = .ok r ⟨d, db.reading e.fileID, []⟩ := by
  obtain ⟨s, pre, post, hs, hrecs, he⟩ := id hat
  have hdata : d.data[e.fileID]? = some s.bytes := by rw [h.data, hs]; rfl
  have hlegal : r.Legal := h.legal _ s hs r (by simp [hrecs])
  have hdec := Record.decode_encode hlegal.fits []
  rw [List.append_nil, Record.length_encode] at hdec
  have hsz : UInt32.ofNat r.size = e.recordSize := by rw [he]; rfl
  simp [readRecordAtEntry, bind_apply, openReader_run hopen hdata, readSection_run h hat hsize,
    hdec, hsz]

theorem readRecordAtEntry_run (h : Holds segs d) (hopen : db.closed = false) (hat : At segs e r)
    (ht : r.tombstone = false) :
    readRecordAtEntry r.key e ⟨d, db, []⟩ = .ok r ⟨d, db.reading e.fileID, []⟩ := by
  obtain ⟨s, pre, post, hs, hrecs, -⟩ := id hat
  have hlegal : r.Legal := h.legal _ s hs r (by simp [hrecs])
  exact readRecordAtEntry_sized h hopen hat (hlegal.2 ht)

/-- A data file that another call has removed cannot be read. -/
theorem readRecordAtEntry_removed (hopen : db.closed = false) (hd : d.data[e.fileID]? = none)
    (key : Bytes) : ∃ err, err ≠ .fault ∧
      readRecordAtEntry key e ⟨d, db, []⟩ = .error err ⟨d, db, []⟩ := by
  by_cases hr : e.fileID ∈ db.readers
  · by_cases hzero : e.recordSize = 0
    · refine ⟨.eof, by decide, ?_⟩
      simp [readRecordAtEntry, bind_apply, openReader, hopen, hr, readSection, hzero,
        decode_nil]
    · exact ⟨.notExist, by decide, by
        simp [readRecordAtEntry, bind_apply, openReader, hopen, hr, readSection, hzero, hd]⟩
  · exact ⟨.notExist, by decide, by
      simp [readRecordAtEntry, bind_apply, openReader, hopen, hr, readData, hd]⟩

theorem findEntry_live (hopen : db.closed = false) {key : Bytes} (he : db.keydir[key]? = some e) :
    findEntry key ⟨d, db, []⟩ = .ok e ⟨d, db, []⟩ := by
  simp [findEntry, bind_apply, hopen, he]

theorem findEntry_dead (hopen : db.closed = false) {key : Bytes} (he : db.keydir[key]? = none) :
    findEntry key ⟨d, db, []⟩ = .error .keyNotFound ⟨d, db, []⟩ := by
  simp [findEntry, bind_apply, hopen, he]

theorem readValue_run (h : Holds segs d) (hopen : db.closed = false) (hat : At segs e r)
    (ht : r.tombstone = false) :
    readValue r.key e ⟨d, db, []⟩ = .ok r.value ⟨d, db.reading e.fileID, []⟩ := by
  have hne : r.value ≠ tombstoneValue := by simpa [Record.tombstone] using ht
  simp [readValue, bind_apply, readRecordAtEntry_run h hopen hat ht, hne]

theorem getValue_live (h : Holds segs d) (hopen : db.closed = false)
    (hm : Serves segs db.keydir m) {key value : Bytes} (hv : m key = some value) :
    ∃ fileID, getValue key ⟨d, db, []⟩ = .ok value ⟨d, db.reading fileID, []⟩ := by
  cases he : db.keydir[key]? with
  | none => rw [hm.dead key he] at hv; cases hv
  | some e =>
    obtain ⟨r, hat, rfl, ht, hr⟩ := hm.live key e he
    rw [hr, Option.some.injEq] at hv
    subst hv
    refine ⟨e.fileID, ?_⟩
    simp only [getValue, bind_apply, findEntry_live hopen he, readValue_run h hopen hat ht]

theorem getValue_dead (hopen : db.closed = false) (hm : Serves segs db.keydir m) {key : Bytes}
    (hv : m key = none) : getValue key ⟨d, db, []⟩ = .error .keyNotFound ⟨d, db, []⟩ := by
  cases he : db.keydir[key]? with
  | none => simp only [getValue, bind_apply, findEntry_dead hopen he]
  | some e =>
    obtain ⟨r, _, _, _, hr⟩ := hm.live key e he
    rw [hr] at hv
    cases hv

theorem lookup_eq {w : World} (hcalm : w.outcomes = []) (hh : Holds segs w.disk)
    (hopen : w.db.closed = false) (hserves : Serves segs w.db.keydir m) (key : Bytes) :
    w.lookup key = answer (m key) := by
  obtain ⟨d, db, os⟩ := w
  obtain rfl : os = [] := hcalm
  rw [World.lookup]
  cases hv : m key with
  | none => rw [getValue_dead hopen hserves hv, answer]
  | some value =>
    obtain ⟨_, hget⟩ := getValue_live hh hopen hserves hv
    rw [hget, answer]

end KvRaft.Store
