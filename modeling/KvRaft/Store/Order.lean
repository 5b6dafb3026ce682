import KvRaft.Store.Hints

/-! Recovery agrees with the keydir in memory when, for every key, the entry in memory beats all
other records of the key, or no record is left, or the last one that recovery reads is a tombstone
that beats all others. -/

namespace KvRaft.Store

open Std Replay

variable {segs segs' : Nat → Option Segment} {m : Bytes → Option Bytes} {d : Disk} {db : DB}
  {w w' : World} {keydir : KeyDir} {c e e' : KeyDirEntry} {r r' : Record} {rs : List Record}

/-- Recovery reads the record of `c` before that of `e`. -/
def Before (c e : KeyDirEntry) : Prop :=
  c.fileID < e.fileID ∨ c.fileID = e.fileID ∧ c.fileOffset.toInt < e.fileOffset.toInt

/-- `shouldReplace` orders by timestamp, file and offset. -/
theorem shouldReplace_iff : shouldReplace c e = true ↔
    c.timeStamp.toInt < e.timeStamp.toInt ∨ c.timeStamp.toInt = e.timeStamp.toInt ∧ Before c e := by
  simp only [shouldReplace, Before, gt_iff_lt, Int64.lt_iff_toInt_lt]
  split
  · simp [*]
  · split
    · simp; omega
    · split
      · simp; omega
      · split
        · simp; omega
        · simp; omega

theorem shouldReplace_self (e : KeyDirEntry) : shouldReplace e e = false := by
  simp [shouldReplace]

theorem shouldReplace_asymm (h : shouldReplace c e = true) : shouldReplace e c = false := by
  cases hc : shouldReplace e c with
  | false => rfl
  | true =>
    rw [shouldReplace_iff, Before] at h hc
    omega

/-- An update that beats all others of its key decides the key. -/
theorem scan_greatest {us : List (Update Bytes KeyDirEntry)} {u : Update Bytes KeyDirEntry}
    (hmem : u ∈ us) (hset : u.tombstone = false)
    (hall : ∀ v ∈ us, v.key = u.key → v = u ∨ shouldReplace v.entry u.entry = true) :
    (scan ∅ us)[u.key]? = some u.entry := by
  refine replay_greatest hmem hset hall (fun v hv hkey => ?_) (by simp)
  rcases hall v hv hkey with rfl | hway
  · exact shouldReplace_self v.entry
  · exact shouldReplace_asymm hway

/-- How the entries of the keydir stand to the records of the segments. -/
structure Settled (segs : Nat → Option Segment) (keydir : KeyDir) : Prop where
  live : ∀ (k : Bytes) e, keydir[k]? = some e → ∀ e' r, At segs e' r → r.key = k →
    e' = e ∨ shouldReplace e' e = true
  dead : ∀ k : Bytes, keydir[k]? = none → (∀ e r, At segs e r → r.key ≠ k) ∨
    ∃ e r, At segs e r ∧ r.key = k ∧ r.tombstone = true ∧
      ∀ e' r', At segs e' r' → r'.key = k → e' = e ∨ Before e' e ∧ shouldReplace e' e = true

section Scan

theorem mem_allUpdates (h : Holds segs d) {u : Update Bytes KeyDirEntry} :
    u ∈ allUpdates segs d ↔ ∃ r, At segs u.entry r ∧ u = ⟨r.key, u.entry, r.tombstone⟩ := by
  rw [allUpdates, List.mem_flatMap]
  constructor
  · rintro ⟨id, hid, hu⟩
    obtain ⟨s, hs⟩ := Option.ne_none_iff_exists'.mp (h.mem_keys.mp hid)
    obtain ⟨pre, r, post, hrs, rfl⟩ := mem_updates.mp hu
    rw [recordsAt_eq hs] at hrs
    refine ⟨r, ⟨s, pre, post, hs, hrs, ?_⟩, rfl⟩
    rw [updateOf, Nat.zero_add]
    rfl
  · rintro ⟨r, ⟨s, pre, post, hs, hrs, he⟩, hu⟩
    refine ⟨u.entry.fileID, h.mem_keys.mpr (by simp [hs]), mem_updates.mpr ⟨pre, r, post, ?_, ?_⟩⟩
    · rw [recordsAt_eq hs, hrs]
    · rw [hu, updateOf, Nat.zero_add]
      exact congrArg (Update.mk r.key · r.tombstone) he

/-- Recovery reads the records in the order of the files and of their places in them. -/
theorem allUpdates_pairwise (h : Holds segs d) :
    (allUpdates segs d).Pairwise fun u v => Before u.entry v.entry := by
  rw [allUpdates, List.pairwise_flatMap]
  constructor
  · intro id hid
    obtain ⟨s, hs⟩ := Option.ne_none_iff_exists'.mp (h.mem_keys.mp hid)
    have hlen : 0 + (bytesOf (recordsAt segs id)).length < 2 ^ 63 := by
      have := h.size id s hs
      rw [Segment.bytes, List.length_append, maxFileSize] at this
      rw [recordsAt_eq hs]
      omega
    refine List.Pairwise.imp_of_mem ?_ (updates_pairwise id hlen)
    intro u v hu hv hlt
    refine Or.inr ⟨?_, Int64.lt_iff_toInt_lt.mp hlt⟩
    rw [fileID_of_mem_updates hu, fileID_of_mem_updates hv]
  · refine List.Pairwise.imp ?_ (ExtTreeMap.ordered_keys (t := d.data))
    intro i j hij u hu v hv
    rw [Before, fileID_of_mem_updates hu, fileID_of_mem_updates hv]
    exact Or.inl (Nat.compare_eq_lt.mp hij)

theorem not_before_self (e : KeyDirEntry) : ¬ Before e e := by
  rw [Before]
  omega

/-- An entry determines its update. -/
theorem allUpdates_inj (h : Holds segs d) {u v : Update Bytes KeyDirEntry}
    (hu : u ∈ allUpdates segs d) (hv : v ∈ allUpdates segs d) (he : u.entry = v.entry) : u = v := by
  obtain ⟨r, hr, hur⟩ := (mem_allUpdates h).mp hu
  obtain ⟨r', hr', hvr⟩ := (mem_allUpdates h).mp hv
  rw [← he] at hr' hvr
  obtain rfl := hr.unique h hr'
  exact hur.trans hvr.symm

/-- Recovery rebuilds a settled keydir. -/
theorem Settled.scan_eq (hs : Settled segs keydir) (h : Holds segs d)
    (hserves : Serves segs keydir m) : scan ∅ (allUpdates segs d) = keydir := by
  refine ExtTreeMap.ext_getElem? fun k => ?_
  cases hk : keydir[k]? with
  | some e =>
    obtain ⟨r, hat, rfl, ht, -⟩ := hserves.live k e hk
    have hmem : (⟨r.key, e, r.tombstone⟩ : Update Bytes KeyDirEntry) ∈ allUpdates segs d :=
      (mem_allUpdates h).mpr ⟨r, hat, rfl⟩
    refine scan_greatest hmem ht fun v hv hkey => ?_
    obtain ⟨r', hat', hvr⟩ := (mem_allUpdates h).mp hv
    have hkey' : r'.key = r.key := by rw [hvr] at hkey; exact hkey
    refine (hs.live r.key e hk v.entry r' hat' hkey').imp_left fun heq => ?_
    exact allUpdates_inj h hv hmem heq
  | none =>
    rcases hs.dead k hk with hno | ⟨e, r, hat, rfl, ht, hlast⟩
    · refine (replay_ne fun u hu => ?_).trans (by simp)
      obtain ⟨r, hat, hur⟩ := (mem_allUpdates h).mp hu
      rw [hur]
      exact hno _ r hat
    · have hmem : (⟨r.key, e, r.tombstone⟩ : Update Bytes KeyDirEntry) ∈ allUpdates segs d :=
        (mem_allUpdates h).mpr ⟨r, hat, rfl⟩
      obtain ⟨pre, post, hsplit⟩ := List.append_of_mem hmem
      have hpair := allUpdates_pairwise h
      rw [hsplit, List.pairwise_append, List.pairwise_cons] at hpair
      have hcases : ∀ v ∈ allUpdates segs d, v.key = r.key →
          v.entry = e ∨ Before v.entry e ∧ shouldReplace v.entry e = true := by
        intro v hv hkey
        obtain ⟨r', hat', hvr⟩ := (mem_allUpdates h).mp hv
        exact hlast v.entry r' hat' (by rw [hvr] at hkey; exact hkey)
      rw [scan, hsplit]
      refine replay_removed (u := ⟨r.key, e, r.tombstone⟩) ht (fun v hv hkey => ?_)
        (fun v hv hkey => ?_) (by simp)
      · have hbefore := hpair.2.2 v hv _ List.mem_cons_self
        rcases hcases v (by simp [hsplit, hv]) hkey with heq | ⟨-, hway⟩
        · rw [heq] at hbefore
          exact absurd hbefore (not_before_self e)
        · exact hway
      · have hafter : Before e v.entry := hpair.2.1.1 v hv
        rcases hcases v (by simp [hsplit, hv]) hkey with heq | ⟨hbefore, -⟩
        · rw [heq] at hafter
          exact not_before_self e hafter
        · rw [Before] at hafter hbefore
          omega

end Scan

/-- A keydir that recovery rebuilds, with what keeps it so: no record is newer than `now`, and no
tombstone stands above the active file. -/
structure Ordered (segs : Nat → Option Segment) (w : World) (now : Int64) : Prop where
  settled : Settled segs w.db.keydir
  stamps : ∀ e r, At segs e r → r.timestamp.toInt ≤ now.toInt
  above : w.db.closed = false → ∀ e r, At segs e r → w.db.activeFileID < e.fileID →
    r.tombstone = false

/-- Nothing of the key stands above the active file that a record in it would not beat. -/
def Newest (segs : Nat → Option Segment) (active : Nat) (r : Record) : Prop :=
  ∀ e r', At segs e r' → active < e.fileID → r'.key = r.key →
    r.tombstone = false ∧ r'.timestamp ≠ r.timestamp

theorem At.timeStamp (h : At segs e r) : e.timeStamp = r.timestamp := by
  obtain ⟨_, _, _, _, _, he⟩ := h
  rw [he]
  rfl

theorem At.offset_lt (h : Holds segs d) (ha : Active segs db rs) (hat : At segs e r)
    (hid : e.fileID = db.activeFileID) :
    e.fileOffset.toInt < (Int64.ofNat (bytesOf rs).length).toInt := by
  obtain ⟨s, pre, post, hs, hrecs, he⟩ := hat
  rw [hid, ha.file, Option.some.injEq] at hs
  subst hs
  have hpos : 0 < r.size := by rw [Record.size]; omega
  have hsize := ha.size h
  rw [maxFileSize] at hsize
  have hlen : (bytesOf pre).length < (bytesOf rs).length := by
    rw [show rs = pre ++ r :: post from hrecs]
    simp only [bytesOf_append, bytesOf_cons, List.length_append, Record.length_encode]
    omega
  rw [he]
  change (Int64.ofNat (bytesOf pre).length).toInt < _
  rw [Int64.toInt_ofNat_of_lt (by omega), Int64.toInt_ofNat_of_lt (by omega)]
  omega

namespace Ordered

variable {now : Int64}

/-- The same records, whatever else changes. -/
theorem frame (h : Ordered segs w now) (hat : ∀ e r, At segs' e r ↔ At segs e r)
    (hkey : w'.db.keydir = w.db.keydir)
    (habove : w'.db.closed = false → ∀ e r, At segs e r → w'.db.activeFileID < e.fileID →
      r.tombstone = false) : Ordered segs' w' now where
  settled := by
    rw [hkey]
    constructor
    · intro k e hk e' r hr
      exact h.settled.live k e hk e' r ((hat e' r).mp hr)
    · intro k hk
      simp only [hat]
      exact h.settled.dead k hk
  stamps e r hr := h.stamps e r ((hat e r).mp hr)
  above hopen e r hr := habove hopen e r ((hat e r).mp hr)

theorem mono {later : Int64} (h : Ordered segs w now) (hle : now.toInt ≤ later.toInt) :
    Ordered segs w later :=
  { h with stamps := fun e r hat => Int.le_trans (h.stamps e r hat) hle }

theorem at_empty {id : Nat} (hid : segs id = none) (e : KeyDirEntry) (r : Record) :
    At (Function.update segs id (some { records := [] })) e r ↔ At segs e r := by
  refine ⟨At.of_empty, fun h => h.grow (Grows.update fun s₀ hs₀ => ?_)⟩
  rw [hid] at hs₀
  cases hs₀

theorem room {d' : Disk} {db' : DB} {rs' : List Record} {len : Int64}
    (h : Ordered segs ⟨d, db, []⟩ now) (ha : Active segs db rs)
    (hroom : Room segs d db rs len segs' d' db' rs')
    (hin : ¬ db.full len → Newest segs db.activeFileID r) :
    Ordered segs' ⟨d', db', []⟩ now ∧ Newest segs' db'.activeFileID r := by
  have ha' := hroom.active ha
  cases hroom with
  | stay hnot => exact ⟨h, hin hnot⟩
  | rotate hfull =>
    have hnone : ∀ e r, At segs e r → ¬ db.nextFileID < e.fileID := by
      rintro e r ⟨s, _, _, hs, _⟩ hlt
      have := ha.below e.fileID (by simp [hs])
      omega
    refine ⟨h.frame (at_empty ha.fresh) rfl fun _ e r hr hlt => absurd hlt (hnone e r hr), ?_⟩
    intro e r' hr hlt
    exact absurd hlt (hnone e r' (hr.of_empty))

/-- The record of a call beats all others of its key. -/
theorem beats (h : Ordered segs w now) (hh : Holds segs w.disk) (ha : Active segs w.db rs)
    (hts : now.toInt ≤ r.timestamp.toInt) (hnew : Newest segs w.db.activeFileID r)
    (hat : At segs e r') (hkey : r'.key = r.key) :
    shouldReplace e (entryOf w.db.activeFileID (bytesOf rs).length r) = true ∧
      (r.tombstone = true → Before e (entryOf w.db.activeFileID (bytesOf rs).length r)) := by
  have hle := h.stamps e r' hat
  have hstamp := hat.timeStamp
  have hoff := fun hid => hat.offset_lt hh ha hid
  rw [shouldReplace_iff, Before]
  change (e.timeStamp.toInt < r.timestamp.toInt ∨ e.timeStamp.toInt = r.timestamp.toInt ∧
      (e.fileID < w.db.activeFileID ∨ e.fileID = w.db.activeFileID ∧
        e.fileOffset.toInt < (Int64.ofNat (bytesOf rs).length).toInt)) ∧
    (r.tombstone = true → e.fileID < w.db.activeFileID ∨ e.fileID = w.db.activeFileID ∧
        e.fileOffset.toInt < (Int64.ofNat (bytesOf rs).length).toInt)
  rw [hstamp]
  rcases Nat.lt_trichotomy e.fileID w.db.activeFileID with hlt | heq | hgt
  · omega
  · have := hoff heq
    omega
  · obtain ⟨ht, hne⟩ := hnew e r' hat hgt hkey
    have hne' : r'.timestamp.toInt ≠ r.timestamp.toInt := fun h => hne (Int64.toInt_inj.mp h)
    refine ⟨Or.inl (by omega), fun htomb => ?_⟩
    rw [ht] at htomb
    cases htomb

theorem append (h : Ordered segs ⟨d, db, []⟩ now) (hh : Holds segs d) (ha : Active segs db rs)
    (hts : now.toInt ≤ r.timestamp.toInt) (hnew : Newest segs db.activeFileID r) :
    Ordered (Function.update segs db.activeFileID (some { records := rs ++ [r] }))
      ⟨appendedDisk d db.activeFileID rs r, { appendedDB db rs r with
        keydir := r.index (entryOf db.activeFileID (bytesOf rs).length r) db.keydir }, []⟩
      r.timestamp := by
  have hcases : ∀ e r', At (Function.update segs db.activeFileID
      (some { records := rs ++ [r] })) e r' →
      At segs e r' ∨ e = entryOf db.activeFileID (bytesOf rs).length r ∧ r' = r :=
    fun e r' hat => hat.of_append ha.file
  have hlast := At.last segs db.activeFileID rs r
  refine ⟨⟨?_, ?_⟩, ?_, ?_⟩
  · intro k e he e' r' hat hkey
    by_cases hk : k = r.key
    · subst hk
      change (r.index _ db.keydir)[r.key]? = some e at he
      rw [Record.index_self] at he
      split at he
      · cases he
      · obtain rfl := Option.some.inj he
        rcases hcases e' r' hat with hold | ⟨rfl, rfl⟩
        · exact Or.inr (h.beats hh ha hts hnew hold hkey).1
        · exact Or.inl rfl
    · change (r.index _ db.keydir)[k]? = some e at he
      rw [Record.index_ne hk] at he
      rcases hcases e' r' hat with hold | ⟨rfl, rfl⟩
      · exact h.settled.live k e he e' r' hold hkey
      · exact absurd hkey.symm hk
  · intro k he
    by_cases hk : k = r.key
    · subst hk
      change (r.index _ db.keydir)[r.key]? = none at he
      rw [Record.index_self] at he
      split at he
      · next ht =>
        refine Or.inr ⟨_, r, hlast, rfl, ht, fun e' r' hat hkey => ?_⟩
        rcases hcases e' r' hat with hold | ⟨rfl, rfl⟩
        · obtain ⟨hway, hbefore⟩ := h.beats hh ha hts hnew hold hkey
          exact Or.inr ⟨hbefore ht, hway⟩
        · exact Or.inl rfl
      · cases he
    · change (r.index _ db.keydir)[k]? = none at he
      rw [Record.index_ne hk] at he
      have hgrow : ∀ e r', At segs e r' → At (Function.update segs db.activeFileID
          (some { records := rs ++ [r] })) e r' := fun e r' hat => hat.grow (ha.grows r)
      refine (h.settled.dead k he).imp (fun hno e r' hat => ?_) ?_
      · rcases hcases e r' hat with hold | ⟨rfl, rfl⟩
        · exact hno e r' hold
        · exact fun hkey => hk hkey.symm
      · rintro ⟨e, r₁, hat₁, hkey₁, ht, hall⟩
        refine ⟨e, r₁, hgrow e r₁ hat₁, hkey₁, ht, fun e' r' hat hkey => ?_⟩
        rcases hcases e' r' hat with hold | ⟨rfl, rfl⟩
        · exact hall e' r' hold hkey
        · exact absurd hkey.symm hk
  · intro e r' hat
    rcases hcases e r' hat with hold | ⟨rfl, rfl⟩
    · exact Int.le_trans (h.stamps e r' hold) hts
    · exact Int.le_refl _
  · intro _ e r' hat hlt
    rcases hcases e r' hat with hold | ⟨rfl, rfl⟩
    · exact h.above ha.opened e r' hold hlt
    · exact absurd hlt (Nat.lt_irrefl _)

theorem appended (h : Ordered segs w now) (hs : Session segs m w) (ha : Active segs w.db rs)
    (happ : Appended segs w.disk w.db rs r segs' w') (hts : now.toInt ≤ r.timestamp.toInt)
    (hin : ¬ w.db.full (Int64.ofNat r.size) → Newest segs w.db.activeFileID r) :
    Ordered segs' w' r.timestamp := by
  obtain ⟨d, db, os⟩ := w
  obtain rfl : os = [] := hs.calm
  cases happ with
  | intro hroom hsize =>
    obtain ⟨h', hnew⟩ := h.room ha hroom hin
    exact h'.append (hroom.holds hs.holds) (hroom.active ha) hts hnew

theorem merged (h : Ordered segs w now) (ha : Active segs w.db rs) {out : Nat → Option Segment}
    {d' : Disk} {db' : DB} (hm : Merged segs w.disk w.db out d' db') :
    Ordered (mergedSegs segs out w.db.activeFileID) ⟨d', db', []⟩ now := by
  have hat := hm.at_iff ha
  -- a key that lost its entry has no copy
  have hnocopy : ∀ (k : Bytes), w.db.keydir[k]? = none → ∀ e r, At out e r → r.key ≠ k := by
    rintro k hk e r hr rfl
    obtain ⟨e₁, he₁, _⟩ := hm.copied e r hr
    rw [hk] at he₁
    cases he₁
  refine ⟨⟨?_, ?_⟩, ?_, ?_⟩
  · intro k e' he' e₁ r₁ hat₁ hkey₁
    obtain ⟨e, he, ⟨hact, rfl⟩ | ⟨hact, r, hout, hold, hkey⟩⟩ := hm.keydir_cases he'
    · rcases (hat e₁ r₁).mp hat₁ with hout | ⟨hold, -⟩
      · obtain ⟨e₂, he₂, hne, _⟩ := hm.copied e₁ r₁ hout
        rw [hkey₁, he, Option.some.injEq] at he₂
        subst he₂
        exact absurd hact hne
      · exact h.settled.live k _ he e₁ r₁ hold hkey₁
    · rcases (hat e₁ r₁).mp hat₁ with hout₁ | ⟨hold₁, hid₁⟩
      · obtain ⟨_, _, _, _, he₃⟩ := hm.copied e₁ r₁ hout₁
        rw [hkey₁, he', Option.some.injEq] at he₃
        exact Or.inl he₃.symm
      · right
        -- the copy has the timestamp of the original, and a higher file ID
        have hts : e'.timeStamp = e.timeStamp := by rw [hout.timeStamp, hold.timeStamp]
        have hfile : e₁.fileID < e'.fileID := by
          obtain ⟨s, _, _, hs, _⟩ := hout
          have := (hm.fresh e'.fileID (by simp [hs])).1
          have := ha.active_lt
          omega
        rw [shouldReplace_iff, Before, hts]
        rcases h.settled.live k e he e₁ r₁ hold₁ hkey₁ with rfl | hway
        · exact absurd hid₁ hact
        · rw [shouldReplace_iff] at hway
          omega
  · intro k hk'
    have hk : w.db.keydir[k]? = none := hm.keydir_none hk'
    rcases h.settled.dead k hk with hno | ⟨e, r, hr, hkey, ht, hall⟩
    · refine Or.inl fun e r hr => ?_
      rcases (hat e r).mp hr with hout | ⟨hold, -⟩
      · exact hnocopy k hk e r hout
      · exact hno e r hold
    · by_cases hact : e.fileID = w.db.activeFileID
      · refine Or.inr ⟨e, r, (hat e r).mpr (Or.inr ⟨hr, hact⟩), hkey, ht, fun e' r' hr' hkey' => ?_⟩
        rcases (hat e' r').mp hr' with hout | ⟨hold, -⟩
        · exact absurd hkey' (hnocopy k hk e' r' hout)
        · exact hall e' r' hold hkey'
      · refine Or.inl fun e' r' hr' hkey' => ?_
        rcases (hat e' r').mp hr' with hout | ⟨hold, hid⟩
        · exact hnocopy k hk e' r' hout hkey'
        · -- the tombstone came last and was not above the active file
          have hle : ¬ w.db.activeFileID < e.fileID := by
            intro hlt
            rw [h.above ha.opened e r hr hlt] at ht
            cases ht
          rcases hall e' r' hold hkey' with rfl | ⟨hbefore, -⟩
          · exact hact hid
          · rw [Before] at hbefore
            omega
  · intro e r hr
    rcases (hat e r).mp hr with hout | ⟨hold, -⟩
    · obtain ⟨e₁, _, _, hold, _⟩ := hm.copied e r hout
      exact h.stamps e₁ r hold
    · exact h.stamps e r hold
  · intro _ e r hr hlt
    rcases (hat e r).mp hr with ⟨s, pre, post, hs, hrecs, _⟩ | ⟨-, hid⟩
    · exact hm.puts e.fileID s hs r (by simp [hrecs])
    · have : db'.activeFileID = w.db.activeFileID := by rw [hm.sameDB]
      change db'.activeFileID < e.fileID at hlt
      omega

theorem shut (h : Ordered segs w now) : Ordered segs w.shut now :=
  h.frame (fun _ _ => Iff.rfl) rfl nofun

/-- Recovery for writing rebuilds the keydir, and the file with the highest ID is the active one. -/
theorem opened {opts : OpenOptions} (h : Ordered segs w now) (hs : Session segs m w)
    (hd : Dated segs w) (hrw : opts.readWrite = true) (ho : Opens opts segs w.disk segs' w') :
    Ordered segs' w' now ∧ w'.db.keydir = w.db.keydir ∧ Grows segs segs' := by
  cases ho with
  | empty hnone =>
    have hkey : (∅ : KeyDir) = w.db.keydir := by
      refine ExtTreeMap.ext_getElem? fun k => ?_
      cases he : w.db.keydir[k]? with
      | none => simp
      | some e =>
        obtain ⟨r, ⟨s, _, _, hs, _⟩, _⟩ := hs.serves.live k e he
        rw [hnone] at hs
        cases hs
    rw [hrw, if_pos rfl, if_pos rfl]
    refine ⟨h.frame (at_empty (hnone 1)) hkey fun _ e r hat => ?_, hkey, ?_⟩
    · obtain ⟨s, _, _, hs, _⟩ := hat
      rw [hnone] at hs
      cases hs
    · refine Grows.update fun s₀ hs₀ => ?_
      rw [hnone 1] at hs₀
      cases hs₀
  | @scanned active s keydir hsome htop hkey =>
    have htrim : s.trim = s := by rw [Segment.trim, hd.1 active s hsome, decode_nil]
    have hsame : keydir = w.db.keydir := by
      rw [hkey _ ((hs.plain hd).hinted (by simp [hsome]) htop), Plain.recovered_eq]
      exact h.settled.scan_eq hs.holds hs.serves
    have hsegs : Function.update segs active (some s) = segs := by
      rw [← hsome, Function.update_eq_self]
    rw [if_pos hrw, htrim, hsegs]
    refine ⟨h.frame (fun _ _ => Iff.rfl) hsame fun _ e r hat hlt => ?_, hsame, Grows.refl segs⟩
    obtain ⟨s, _, _, hs, _⟩ := hat
    have : e.fileID ≤ active := htop e.fileID (by simp [hs])
    change active < e.fileID at hlt
    omega

end Ordered

end KvRaft.Store
