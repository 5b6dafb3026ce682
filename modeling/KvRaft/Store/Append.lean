import KvRaft.Lib.Maps
import KvRaft.Store.Segments

/-! What `write.go` does to a directory of segments. -/

namespace KvRaft.Store

open Std Replay

/-- A data file: complete records, and what a crash left behind them. -/
structure Segment where
  records : List Record
  tail : Bytes := []

def Segment.bytes (s : Segment) : Bytes := bytesOf s.records ++ s.tail

/-- The data files of the directory are `segs`. -/
structure Holds (segs : Nat → Option Segment) (d : Disk) : Prop where
  data : ∀ id, d.data[id]? = (segs id).map Segment.bytes
  legal : ∀ id s, segs id = some s → ∀ r ∈ s.records, r.Legal
  size : ∀ id s, segs id = some s → s.bytes.length ≤ maxFileSize
  other : d.other = []

/-- `db` is open for writing and has a handle, though maybe a closed one, on a segment of the
records `rs`. -/
structure Active (segs : Nat → Option Segment) (db : DB) (rs : List Record) : Prop where
  opened : db.closed = false
  readWrite : db.opts.readWrite = true
  activeFile : db.activeFile ≠ .none
  file : segs db.activeFileID = some { records := rs }
  offset : db.activeOffset = Int64.ofNat (bytesOf rs).length
  below : ∀ id, segs id ≠ none → id < db.nextFileID
  next : db.nextFileID ≤ maxFileID

/-- The directory after a rotation from `old` to `new`. -/
def rotatedDisk (d : Disk) (old new : Nat) (rs : List Record) : Disk :=
  { d with data := d.data.insert new [], hint := d.hint.insert old (hintBytes rs) }

def rotatedDB (db : DB) : DB :=
  { db with
    activeFile := .opened
    activeFileID := db.nextFileID
    activeOffset := 0
    nextFileID := db.nextFileID + 1 }

/-- The directory after an append to a file of the records `rs`. -/
def appendedDisk (d : Disk) (id : Nat) (rs : List Record) (r : Record) : Disk :=
  { d with data := d.data.insert id (bytesOf (rs ++ [r])) }

def appendedDB (db : DB) (rs : List Record) (r : Record) : DB :=
  { db with activeOffset := Int64.ofNat (bytesOf (rs ++ [r])).length }

variable {segs : Nat → Option Segment} {d : Disk} {db : DB} {rs : List Record}

theorem Holds.mem_keys (h : Holds segs d) {id : Nat} : id ∈ d.data.keys ↔ segs id ≠ none := by
  rw [ExtTreeMap.mem_keys, ExtTreeMap.mem_iff_isSome_getElem?, h.data]
  cases segs id <;> simp

/-- What holds of every segment holds after one of them is written, if it holds of that one. -/
theorem forall_update {P : Nat → Segment → Prop} {i : Nat} {s₀ : Segment}
    (h : ∀ id s, id ≠ i → segs id = some s → P id s) (hi : P i s₀) :
    ∀ id s, Function.update segs i (some s₀) id = some s → P id s := by
  intro id s hs
  by_cases hid : id = i
  · subst hid
    rw [Function.update_self, Option.some.injEq] at hs
    rw [← hs]
    exact hi
  · rw [Function.update_of_ne hid] at hs
    exact h id s hid hs

/-- One data file is written. -/
theorem Holds.update {d' : Disk} (h : Holds segs d) {id : Nat} {s : Segment}
    (hlegal : ∀ r ∈ s.records, r.Legal) (hsize : s.bytes.length ≤ maxFileSize)
    (hdata : d'.data = d.data.insert id s.bytes) (hother : d'.other = d.other) :
    Holds (Function.update segs id (some s)) d' := by
  refine ⟨fun i => ?_, forall_update (fun i s _ => h.legal i s) hlegal,
    forall_update (fun i s _ => h.size i s) hsize, by rw [hother, h.other]⟩
  rw [hdata]
  by_cases hi : i = id
  · simp [hi]
  · rw [Function.update_of_ne hi, ← h.data, Maps.getElem?_insert_of_ne hi]

/-- A data file gets a tail. -/
theorem Holds.tail {d' : Disk} (h : Holds segs d) {id : Nat} {tail : Bytes}
    (hs : segs id = some { records := rs }) (hsize : (bytesOf rs ++ tail).length ≤ maxFileSize)
    (hdata : d'.data = d.data.insert id (bytesOf rs ++ tail)) (hother : d'.other = d.other) :
    Holds (Function.update segs id (some ⟨rs, tail⟩)) d' := by
  have hlegal : ∀ r ∈ rs, r.Legal := h.legal id _ hs
  exact h.update hlegal hsize hdata hother

theorem Active.data (ha : Active segs db rs) (h : Holds segs d) :
    d.data[db.activeFileID]? = some (bytesOf rs) := by
  rw [h.data, ha.file]
  simp [Segment.bytes]

theorem Active.fits (ha : Active segs db rs) (h : Holds segs d) : ∀ r ∈ rs, r.Fits :=
  fun r hr => (h.legal db.activeFileID _ ha.file r hr).fits

theorem Active.size (ha : Active segs db rs) (h : Holds segs d) :
    (bytesOf rs).length ≤ maxFileSize := by
  simpa [Segment.bytes] using h.size db.activeFileID _ ha.file

theorem Active.fresh (ha : Active segs db rs) : segs db.nextFileID = none := by
  by_contra hne
  exact lt_irrefl _ (ha.below db.nextFileID hne)

theorem Active.active_lt (ha : Active segs db rs) : db.activeFileID < db.nextFileID :=
  ha.below _ (by simp [ha.file])

theorem Active.number (ha : Active segs db rs) : db.number = db.nextFileID := by
  have := ha.active_lt
  exact if_neg (by omega)

/-- The loop that writes the hints runs to its end, or fails and leaves a part of the file. -/
theorem writeHints_cases (db : DB) (id off : Nat) (rs : List Record) (acc : Bytes)
    (os : List Outcome) (hacc : d.tmpHint[id]? = some acc) (hroom : acc.length ≤ maxFileSize) :
    (Succeed rs.length os ∧
      (acc ++ (hintsFrom off rs).flatMap encodeHintRecord).length ≤ maxFileSize ∧
      writeHints id (Int64.ofNat off) (rs.map fun r => (r, r.size)) ⟨d, db, os⟩ =
        .ok () ⟨{ d with
          tmpHint := d.tmpHint.insert id (acc ++ (hintsFrom off rs).flatMap encodeHintRecord) },
          db, os.drop rs.length⟩) ∨
      ¬ (Succeed rs.length os ∧
        (acc ++ (hintsFrom off rs).flatMap encodeHintRecord).length ≤ maxFileSize) ∧
      ∃ bs k, writeHints id (Int64.ofNat off) (rs.map fun r => (r, r.size)) ⟨d, db, os⟩ =
        .error .fault ⟨{ d with tmpHint := d.tmpHint.insert id bs }, db, os.drop k⟩ := by
  induction rs generalizing d off acc os with
  | nil =>
    refine Or.inl ⟨.zero os, ?_, ?_⟩
    · simpa [hintsFrom] using hroom
    · simp only [hintsFrom, List.flatMap_nil, List.append_nil, Maps.insert_same hacc]
      rfl
  | cons r rs ih =>
    simp only [List.map_cons, writeHints, bind_apply, getDisk_apply, hacc, Option.getD_some,
      hintsFrom, List.flatMap_cons, List.length_cons]
    generalize encodeHintRecord (hintOf r (Int64.ofNat off) r.size) = bs
    rw [Nat.add_comm rs.length 1, succeed_add, ← List.append_assoc]
    rcases write_cases d db (fun bs d => { d with tmpHint := d.tmpHint.modify id (· ++ bs) })
      acc.length bs os with ⟨hshort, hok⟩ | ⟨j, hshort, hfail⟩
    · obtain ⟨hhead, hfit⟩ := shortWrite_none hshort
      have hfirst : Succeed 1 os := succeed_one.mpr hhead
      rw [hok]
      simp only [Maps.modify_eq_insert hacc, ← Int64.ofNat_add, hfirst, true_and]
      rcases ih (d := { d with tmpHint := d.tmpHint.insert id (acc ++ bs) }) (off + r.size)
        (acc ++ bs) (os.drop 1) (by simp) (by simpa using hfit) with
        ⟨hrest, hsize, hok⟩ | ⟨hnot, bs', k, hfail⟩
      · refine Or.inl ⟨hrest, hsize, ?_⟩
        rw [hok, List.drop_drop]
        simp [Maps.insert_insert]
      · refine Or.inr ⟨hnot, bs', 1 + k, ?_⟩
        rw [hfail, List.drop_drop]
        simp [Maps.insert_insert]
    · rw [hfail]
      refine Or.inr ⟨?_, acc ++ bs.take j, 1, by simp [Maps.modify_eq_insert hacc]⟩
      rintro ⟨⟨hfirst, -⟩, hsize⟩
      rcases (shortWrite_some hshort).1 with hhead | hlong
      · exact hhead (succeed_one.mp hfirst)
      · rw [List.length_append, List.length_append] at hsize
        omega

/-- The temporary hint file is removed when a step fails, unless that fails too. -/
theorem onError_removeTmpHint {id : Nat} {op : Op Unit} {w : World} {bs : Bytes} {k : Nat}
    {os : List Outcome} (h : op w = .error .fault
      ⟨{ d with tmpHint := d.tmpHint.insert id bs }, db, os.drop k⟩) :
    ∃ t k, onError op (removeFile (.tmpHint id)) w =
      .error .fault ⟨{ d with tmpHint := t }, db, os.drop k⟩ := by
  rcases removeFile_cases { d with tmpHint := d.tmpHint.insert id bs } db (.tmpHint id)
    (os.drop k) with hr | hr
  · exact ⟨(d.tmpHint.insert id bs).erase id, k + 1,
      (onError_error h hr).trans (by simp [Disk.remove])⟩
  · exact ⟨d.tmpHint.insert id bs, k + 1, (onError_error h hr).trans (by simp)⟩

/-- How `writeHintForDataFile` ends before its clean-up: its `k` calls succeed, the hints fit a file
and have replaced the hint file, or a part of them is left in the temporary one. -/
def HintEnds (d : Disk) (db : DB) (id : Nat) (rs : List Record) (os : List Outcome) (k : Nat)
    (res : EStateM.Result Err World Unit) : Prop :=
  (Succeed k os ∧ (hintBytes rs).length ≤ maxFileSize ∧
    res = .ok () ⟨{ d with
      hint := d.hint.insert id (hintBytes rs), tmpHint := d.tmpHint.erase id }, db, os.drop k⟩) ∨
    ¬ (Succeed k os ∧ (hintBytes rs).length ≤ maxFileSize) ∧ ∃ bs k, res =
      .error .fault ⟨{ d with tmpHint := d.tmpHint.insert id bs }, db, os.drop k⟩

/-- One call more, which may fail. -/
theorem HintEnds.call {id k n : Nat} {os : List Outcome} (bs : Bytes) (op : Op Unit)
    (hle : k + 1 ≤ n) (hk : Succeed k os) (hop : Succeed (k + 1) os → HintEnds d db id rs os n
      (op ⟨{ d with tmpHint := d.tmpHint.insert id bs }, db, os.drop (k + 1)⟩)) :
    HintEnds d db id rs os n ((Store.call >>= fun _ => op)
      ⟨{ d with tmpHint := d.tmpHint.insert id bs }, db, os.drop k⟩) := by
  rw [bind_apply]
  rcases call_cases { d with tmpHint := d.tmpHint.insert id bs } db (os.drop k) with
    ⟨hsucc, h⟩ | ⟨hnot, h⟩
  · rw [h, List.drop_drop]
    exact hop (succeed_add.mpr ⟨hk, hsucc⟩)
  · rw [h, List.drop_drop]
    exact Or.inr ⟨fun hall => hnot (succeed_add.mp (hall.1.mono hle)).2, bs, k + 1, rfl⟩

/-- The new hint file is complete, or the old one is still there, with a temporary one or not. -/
theorem writeHintForDataFile_cases (db : DB) {id : Nat} {bs : Bytes} (hd : d.data[id]? = some bs)
    (hrecs : records bs = (rs.map fun r => (r, r.size), .eof)) (os : List Outcome) :
    (Succeed (6 + rs.length) os ∧ (hintBytes rs).length ≤ maxFileSize ∧
      writeHintForDataFile id ⟨d, db, os⟩ =
        .ok () ⟨{ d with hint := d.hint.insert id (hintBytes rs), tmpHint := d.tmpHint.erase id },
          db, os.drop (6 + rs.length)⟩) ∨
      ¬ (Succeed (6 + rs.length) os ∧ (hintBytes rs).length ≤ maxFileSize) ∧
      ∃ t k, writeHintForDataFile id ⟨d, db, os⟩ =
        .error .fault ⟨{ d with tmpHint := t }, db, os.drop k⟩ := by
  rw [writeHintForDataFile, bind_apply]
  rcases call_cases d db os with ⟨hfirst, h⟩ | ⟨hnot, h⟩
  · rw [h]
    simp only [bind_apply, modifyDisk_apply]
    suffices hbody : HintEnds d db id rs os (6 + rs.length) _ by
      rcases hbody with ⟨hall, hsize, hok⟩ | ⟨hnot, bs, k, hfail⟩
      · exact Or.inl ⟨hall, hsize, onError_ok hok⟩
      · exact Or.inr ⟨hnot, onError_removeTmpHint hfail⟩
    rw [readData, bind_assoc]
    refine .call [] _ (by omega) hfirst fun hopened => ?_
    simp only [bind_apply, getDisk_apply, hd, pure_apply]
    rw [hrecs, show (0 : Int64) = Int64.ofNat 0 from rfl,
      if_neg (by simp)]
    rcases writeHints_cases (d := { d with tmpHint := d.tmpHint.insert id [] }) db id 0 rs []
      (os.drop 2) (by simp) (by simp) with ⟨hwrites, hsize, hok⟩ | ⟨hnot, bs, j, hfail⟩
    · rw [hok, List.drop_drop, Maps.insert_insert, List.nil_append]
      have hsize : (hintBytes rs).length ≤ maxFileSize := by simpa [hintBytes] using hsize
      have hwritten : Succeed (2 + rs.length) os := succeed_add.mpr ⟨hopened, hwrites⟩
      refine .call _ _ (by omega) hwritten fun h₁ => .call _ _ (by omega) h₁ fun h₂ =>
        .call _ _ (by omega) h₂ fun h₃ => ?_
      rw [renameHint]
      refine .call _ _ (by omega) h₃ fun h₄ => Or.inl ?_
      rw [show 6 + rs.length = 2 + rs.length + 1 + 1 + 1 + 1 by omega]
      refine ⟨h₄, hsize, ?_⟩
      simp [bind_apply, hintBytes, Maps.erase_insert]
    · rw [hfail, List.drop_drop, Maps.insert_insert]
      refine Or.inr ⟨fun hall => hnot ⟨?_, by simpa [hintBytes] using hall.2⟩, bs, 2 + j, rfl⟩
      exact (succeed_add.mp (hall.1.mono (by omega : 2 + rs.length ≤ _))).2
  · rw [h]
    exact Or.inr ⟨fun hall => hnot (hall.1.mono (by omega)), d.tmpHint, 1, rfl⟩

theorem createNewActiveFile_cases (db : DB) {id : Nat} (hfresh : d.data[id]? = none)
    (os : List Outcome) :
    (Succeed 2 os ∧ createNewActiveFile id ⟨d, db, os⟩ =
        .ok () ⟨{ d with data := d.data.insert id [] },
          { db with activeFile := .opened, activeFileID := id, activeOffset := 0 }, os.drop 2⟩) ∨
      ¬ Succeed 2 os ∧ ((∃ k, createNewActiveFile id ⟨d, db, os⟩ = .error .fault
          ⟨d, db, os.drop k⟩) ∨
        ∃ k, createNewActiveFile id ⟨d, db, os⟩ =
          .error .fault ⟨{ d with data := d.data.insert id [] }, db, os.drop k⟩) := by
  have hcreate : (d.data.alter id fun bs => some (bs.getD [])) = d.data.insert id [] :=
    Maps.alter_eq_insert (by rw [hfresh]; rfl)
  simp only [createNewActiveFile, bind_apply]
  rcases call_cases d db os with ⟨hfirst, h⟩ | ⟨hnot, h⟩
  · simp only [h, modifyDisk_apply, hcreate]
    rcases call_cases { d with data := d.data.insert id [] } db (os.drop 1) with
      ⟨hsecond, h⟩ | ⟨hnot, h⟩
    · exact Or.inl ⟨succeed_add.mpr ⟨hfirst, hsecond⟩, by simp only [h, List.drop_drop]; simp⟩
    · exact Or.inr ⟨fun hall => hnot (succeed_add.mp hall).2,
        Or.inr ⟨2, by simp only [h, List.drop_drop]⟩⟩
  · exact Or.inr ⟨fun hall => hnot (hall.mono (by omega)), Or.inl ⟨1, by simp [h]⟩⟩

/-- A rotation of a file of the records `rs` passes: its calls succeed (`Sync` and `Close` of the
file, the two opens of `writeHintForDataFile`, a write for each record, two `Close`, a `Sync` and
the rename, open and `Stat` of the new file), its hint file fits, and there is an ID for the new
file. -/
def Rotates (db : DB) (rs : List Record) (os : List Outcome) : Prop :=
  Succeed (10 + rs.length) os ∧ (hintBytes rs).length ≤ maxFileSize ∧ db.nextFileID ≠ maxFileID

instance (db : DB) (rs : List Record) (os : List Outcome) : Decidable (Rotates db rs os) :=
  inferInstanceAs (Decidable (_ ∧ _ ∧ _))

/-- The rotation comes as far as the new hint file. -/
def Rehints (rs : List Record) (os : List Outcome) : Prop :=
  Succeed (8 + rs.length) os ∧ (hintBytes rs).length ≤ maxFileSize

instance (rs : List Record) (os : List Outcome) : Decidable (Rehints rs os) :=
  inferInstanceAs (Decidable (_ ∧ _))

/-- What a rotation that fails leaves of the directory, once it has given up the active file. -/
inductive Broken (d : Disk) (old new : Nat) (rs : List Record) (os : List Outcome) : Disk → Prop
  | hint (t : ExtTreeMap Nat Bytes) (h : ¬ Rehints rs os) :
      Broken d old new rs os { d with tmpHint := t }
  | create (h : Rehints rs os) :
      Broken d old new rs os { d with hint := d.hint.insert old (hintBytes rs) }
  | stat (h : Rehints rs os) : Broken d old new rs os (rotatedDisk d old new rs)

/-- What a failed rotation leaves: everything as it was, a closed handle, or no active file. -/
inductive Unrotated (d : Disk) (db : DB) (rs : List Record) (os : List Outcome) :
    Disk → DB → Prop
  | sync (h : ¬ Succeed 1 os) : Unrotated d db rs os d db
  | close (hsync : Succeed 1 os) (h : ¬ Succeed 2 os) :
      Unrotated d db rs os d { db with activeFile := .closed }
  | broken {d' : Disk} (hclose : Succeed 2 os)
      (h : Broken d db.activeFileID db.nextFileID rs os d') :
      Unrotated d db rs os d' { db with activeFile := .none }

theorem rotateActiveFileLocked_cases (h : Holds segs d) (ha : Active segs db rs)
    (hlive : db.activeFile = .opened) (htmp : d.tmpHint[db.activeFileID]? = none)
    (os : List Outcome) :
    (Rotates db rs os ∧ rotateActiveFileLocked ⟨d, db, os⟩ =
        .ok () ⟨rotatedDisk d db.activeFileID db.nextFileID rs, rotatedDB db,
          os.drop (10 + rs.length)⟩) ∨
      ¬ Rotates db rs os ∧ ∃ d' db' k, Unrotated d db rs os d' db' ∧
        rotateActiveFileLocked ⟨d, db, os⟩ = .error .fault ⟨d', db', os.drop k⟩ := by
  have hfresh : d.data[db.nextFileID]? = none := by rw [h.data, ha.fresh]; rfl
  have hne : db.activeFile ≠ .closed := by simp [hlive]
  have hactive : ∀ {op : Op Unit} {os}, onActive op ⟨d, db, os⟩ = op ⟨d, db, os⟩ :=
    onActive_opened hne
  simp only [rotateActiveFileLocked, bind_apply, getDB_apply, ha.activeFile, ne_eq,
    not_false_eq_true, if_true, ha.number, hactive]
  rcases call_cases d db os with ⟨hsync, h₁⟩ | ⟨hnot, h₁⟩
  · simp only [h₁, hactive]
    rcases call_cases d db (os.drop 1) with ⟨hclose, h₂⟩ | ⟨hnot, h₂⟩
    · have hclose : Succeed 2 os := succeed_add.mpr ⟨hsync, hclose⟩
      simp only [onError_ok h₂, modifyDB_apply, List.drop_drop]
      rcases writeHintForDataFile_cases { db with activeFile := .none } (ha.data h)
        (records_flatMap (ha.fits h)) (os.drop 2) with ⟨hcalls, hsize, hok⟩ | ⟨hnot, t, k, hfail⟩
      · have hcalls : Succeed (2 + (6 + rs.length)) os := succeed_add.mpr ⟨hclose, hcalls⟩
        have hrehints : Rehints rs os := ⟨hcalls.mono (by omega), hsize⟩
        simp only [hok, List.drop_drop, Maps.erase_absent htmp]
        by_cases hmax : db.nextFileID = maxFileID
        · refine Or.inr ⟨fun hall => hall.2.2 hmax, _, _, 2 + (6 + rs.length),
            .broken hclose (.create hrehints), ?_⟩
          simp [hmax, bind_apply]
        rw [if_neg hmax, bind_apply]
        rcases createNewActiveFile_cases { db with activeFile := .none }
          (d := { d with hint := d.hint.insert db.activeFileID (hintBytes rs) }) hfresh
          (os.drop (2 + (6 + rs.length))) with ⟨hnew, hc⟩ | ⟨hnot, hc⟩
        · have hsum : 2 + (6 + rs.length) + 2 = 10 + rs.length := by omega
          refine Or.inl ⟨⟨hsum ▸ succeed_add.mpr ⟨hcalls, hnew⟩, hsize, hmax⟩, ?_⟩
          simp only [hc, List.drop_drop, rotatedDisk, rotatedDB, hsum, modifyDB_apply]
        · have hnot : ¬ Rotates db rs os := fun hall => hnot
            (succeed_add.mp (hall.1.mono (by omega : 2 + (6 + rs.length) + 2 ≤ _))).2
          rcases hc with ⟨j, hc⟩ | ⟨j, hc⟩
          · exact Or.inr ⟨hnot, _, _, 2 + (6 + rs.length) + j, .broken hclose (.create hrehints), by
              simp only [hc, List.drop_drop]⟩
          · exact Or.inr ⟨hnot, _, _, 2 + (6 + rs.length) + j, .broken hclose (.stat hrehints), by
              simp only [hc, List.drop_drop, rotatedDisk]⟩
      · have hstops : ¬ Rehints rs os := fun hall => hnot
            ⟨(succeed_add.mp (hall.1.mono (by omega : 2 + (6 + rs.length) ≤ _))).2, hall.2⟩
        refine Or.inr ⟨fun hall => hstops ⟨hall.1.mono (by omega), hall.2.1⟩, _, _, 2 + k,
          .broken hclose (.hint t hstops), by simp only [hfail, List.drop_drop]⟩
    · have hnot : ¬ Succeed (1 + 1) os := fun hall => hnot (succeed_add.mp hall).2
      refine Or.inr ⟨fun hall => hnot (hall.1.mono (by omega)), d,
        { db with activeFile := .closed }, 2, .close hsync hnot, ?_⟩
      simp only [onError_error h₂ (modifyDB_apply _ _), List.drop_drop]
  · exact Or.inr ⟨fun hall => hnot (hall.1.mono (by omega)), d, db, 1, .sync hnot, by simp [h₁]⟩

/-- The state in which an append finds room: the one it starts from, or that after a rotation. -/
inductive Room (segs : Nat → Option Segment) (d : Disk) (db : DB) (rs : List Record)
    (recordLen : Int64) : (Nat → Option Segment) → Disk → DB → List Record → Prop
  | stay (h : ¬ db.full recordLen) : Room segs d db rs recordLen segs d db rs
  | rotate (h : db.full recordLen) (hnext : db.nextFileID ≠ maxFileID) :
      Room segs d db rs recordLen
        (Function.update segs db.nextFileID (some { records := [] }))
        (rotatedDisk d db.activeFileID db.nextFileID rs) (rotatedDB db) []

/-- The calls that an append to a file of the records `rs` makes before it writes. -/
def DB.callsFor (db : DB) (rs : List Record) (recordLen : Int64) : Nat :=
  if db.full recordLen then 10 + rs.length else 0

theorem makeRoom_cases (h : Holds segs d) (ha : Active segs db rs)
    (hlive : db.activeFile = .opened) (htmp : d.tmpHint[db.activeFileID]? = none)
    (recordLen : Int64) (os : List Outcome) :
    (∃ segs' d' db' rs', Room segs d db rs recordLen segs' d' db' rs' ∧
      (db.full recordLen → Rotates db rs os) ∧ makeRoom recordLen ⟨d, db, os⟩ =
        .ok () ⟨d', db', os.drop (db.callsFor rs recordLen)⟩) ∨
      db.full recordLen ∧ ¬ Rotates db rs os ∧ ∃ d' db' k, Unrotated d db rs os d' db' ∧
        makeRoom recordLen ⟨d, db, os⟩ = .error .fault ⟨d', db', os.drop k⟩ := by
  simp only [makeRoom, bind_apply, getDB_apply, ha.activeFile, if_false, DB.callsFor]
  by_cases hfull : db.full recordLen
  · rw [if_pos hfull, if_pos hfull]
    rcases rotateActiveFileLocked_cases h ha hlive htmp os with
      ⟨hrotates, hok⟩ | ⟨hnot, d', db', k, hun, hfail⟩
    · exact Or.inl ⟨_, _, _, _, .rotate hfull hrotates.2.2, fun _ => hrotates, hok⟩
    · exact Or.inr ⟨hfull, hnot, d', db', k, hun, hfail⟩
  · rw [if_neg hfull, if_neg hfull]
    exact Or.inl ⟨_, _, _, _, .stay hfull, fun hf => absurd hf hfull, rfl⟩

theorem makeRoom_run (h : Holds segs d) (ha : Active segs db rs) (hlive : db.activeFile = .opened)
    (htmp : d.tmpHint[db.activeFileID]? = none) (recordLen : Int64) :
    (∃ segs' d' db' rs', Room segs d db rs recordLen segs' d' db' rs' ∧
      makeRoom recordLen ⟨d, db, []⟩ = .ok () ⟨d', db', []⟩) ∨
      ∃ w, makeRoom recordLen ⟨d, db, []⟩ = .error .fault w := by
  rcases makeRoom_cases h ha hlive htmp recordLen [] with
    ⟨segs', d', db', rs', hroom, -, hok⟩ | ⟨-, -, d', db', k, -, hfail⟩
  · rw [List.drop_nil] at hok
    exact Or.inl ⟨segs', d', db', rs', hroom, hok⟩
  · exact Or.inr ⟨_, hfail⟩

section Room

variable {len : Int64} {segs' : Nat → Option Segment} {d' : Disk} {db' : DB} {rs' : List Record}

theorem Room.holds (hr : Room segs d db rs len segs' d' db' rs') (h : Holds segs d) :
    Holds segs' d' := by
  cases hr with
  | stay => exact h
  | rotate hfull => exact h.update (by simp) (by simp [Segment.bytes]) rfl rfl

theorem Room.active (hr : Room segs d db rs len segs' d' db' rs') (ha : Active segs db rs) :
    Active segs' db' rs' := by
  cases hr with
  | stay => exact ha
  | rotate hfull hnext =>
    refine ⟨ha.opened, ha.readWrite, by simp [rotatedDB], by simp [rotatedDB], rfl, ?_, ?_⟩
    · intro id hid
      change id < db.nextFileID + 1
      by_cases hnew : id = db.nextFileID
      · omega
      · rw [Function.update_of_ne hnew] at hid
        have := ha.below id hid
        omega
    · change db.nextFileID + 1 ≤ maxFileID
      have := ha.next
      omega

theorem Room.live (hr : Room segs d db rs len segs' d' db' rs') (hlive : db.activeFile = .opened) :
    db'.activeFile = .opened := by
  cases hr with
  | stay => exact hlive
  | rotate => rfl

end Room

theorem Holds.append (h : Holds segs d) (ha : Active segs db rs) {r : Record} (hr : r.Legal)
    (hsize : (bytesOf (rs ++ [r])).length ≤ maxFileSize) :
    Holds (Function.update segs db.activeFileID (some { records := rs ++ [r] }))
      (appendedDisk d db.activeFileID rs r) := by
  refine h.update (fun r' hr' => ?_) (by simpa [Segment.bytes] using hsize)
    (by simp [appendedDisk, Segment.bytes]) rfl
  rcases List.mem_append.mp hr' with hold | hnew
  · exact h.legal db.activeFileID _ ha.file r' hold
  · rw [List.mem_singleton.mp hnew]
    exact hr

theorem Active.append (ha : Active segs db rs) (r : Record) :
    Active (Function.update segs db.activeFileID (some { records := rs ++ [r] }))
      (appendedDB db rs r) (rs ++ [r]) := by
  refine ⟨ha.opened, ha.readWrite, ha.activeFile, by simp [appendedDB], rfl, ?_, ha.next⟩
  intro id hid
  by_cases hA : id = db.activeFileID
  · subst hA
    exact ha.active_lt
  · rw [Function.update_of_ne hA] at hid
    exact ha.below id hid

theorem writeActive_cases (h : Holds segs d) (ha : Active segs db rs)
    (hlive : db.activeFile = .opened) (bs : Bytes) (os : List Outcome) :
    (shortWrite (bytesOf rs).length bs.length (os.headD .ok) = none ∧
      writeActive bs ⟨d, db, os⟩ =
        .ok () ⟨{ d with data := d.data.insert db.activeFileID (bytesOf rs ++ bs) }, db,
          os.drop 1⟩) ∨
      ∃ n, shortWrite (bytesOf rs).length bs.length (os.headD .ok) = some n ∧
        (bytesOf rs ++ bs.take n).length ≤ maxFileSize ∧ writeActive bs ⟨d, db, os⟩ = .error .fault
          ⟨{ d with data := d.data.insert db.activeFileID (bytesOf rs ++ bs.take n) }, db,
            os.drop 1⟩ := by
  rw [writeActive, onActive_opened (by simp [hlive])]
  simp only [bind_apply, getDB_apply, getDisk_apply, ha.data h, Option.getD_some]
  rcases write_cases d db (fun bs d => { d with data := d.data.modify db.activeFileID (· ++ bs) })
    (bytesOf rs).length bs os with ⟨hshort, hok⟩ | ⟨n, hshort, hfail⟩
  · rw [Maps.modify_eq_insert (ha.data h)] at hok
    exact Or.inl ⟨hshort, hok⟩
  · rw [Maps.modify_eq_insert (ha.data h)] at hfail
    refine Or.inr ⟨n, hshort, ?_, hfail⟩
    have := ha.size h
    have := (shortWrite_some hshort).2.1
    rw [List.length_append, List.length_take]
    omega

theorem writeActive_run (h : Holds segs d) (ha : Active segs db rs)
    (hlive : db.activeFile = .opened) (bs : Bytes) :
    ((bytesOf rs).length + bs.length ≤ maxFileSize ∧ writeActive bs ⟨d, db, []⟩ =
        .ok () ⟨{ d with data := d.data.insert db.activeFileID (bytesOf rs ++ bs) }, db, []⟩) ∨
      ∃ w, writeActive bs ⟨d, db, []⟩ = .error .fault w := by
  rcases writeActive_cases h ha hlive bs [] with ⟨hshort, hok⟩ | ⟨_, -, -, hfail⟩
  · exact Or.inl ⟨(shortWrite_none hshort).2, hok⟩
  · exact Or.inr ⟨_, hfail⟩

/-- What a call that writes `r` does to the keydir: a tombstone removes the key. -/
def Record.index (r : Record) (e : KeyDirEntry) (keydir : KeyDir) : KeyDir :=
  if r.tombstone then keydir.erase r.key else keydir.insert r.key e

/-- A `Put` or `Delete` that has passed its checks. -/
def writeRecord (r : Record) : Op Unit := do
  let entry ← appendRecordLocked r.encode r.timestamp
  modifyDB fun db => { db with keydir := r.index entry db.keydir }

/-- The state after a `Put` or `Delete` that wrote `r`. -/
inductive Appended (segs : Nat → Option Segment) (d : Disk) (db : DB) (rs : List Record)
    (r : Record) : (Nat → Option Segment) → World → Prop
  | intro {segs' : Nat → Option Segment} {d' : Disk} {db' : DB} {rs' : List Record}
      (hroom : Room segs d db rs (Int64.ofNat r.size) segs' d' db' rs')
      (hlive : db'.activeFile = .opened)
      (hsize : (bytesOf (rs' ++ [r])).length ≤ maxFileSize) :
      Appended segs d db rs r
        (Function.update segs' db'.activeFileID (some { records := rs' ++ [r] }))
        ⟨appendedDisk d' db'.activeFileID rs' r, { appendedDB db' rs' r with
          keydir := r.index (entryOf db'.activeFileID (bytesOf rs').length r) db'.keydir }, []⟩

/-- The outcome of the write of `r` to the active file. -/
def DB.writeOutcome (db : DB) (rs : List Record) (r : Record) (os : List Outcome) : Outcome :=
  (os.drop (db.callsFor rs (Int64.ofNat r.size))).headD .ok

/-- How the write of `r` can end when the coming file-system calls end as `os` says: in the
rotation, in the write itself, in the `Sync` after it, or with the record written and indexed. -/
inductive Ends (segs : Nat → Option Segment) (d : Disk) (db : DB) (rs : List Record) (r : Record)
    (os : List Outcome) : EStateM.Result Err World Unit → Prop
  | unrotated {d' : Disk} {db' : DB} {k : Nat} (hfull : db.full (Int64.ofNat r.size))
      (hnot : ¬ Rotates db rs os) (hun : Unrotated d db rs os d' db') :
      Ends segs d db rs r os (.error .fault ⟨d', db', os.drop k⟩)
  | torn {segs' : Nat → Option Segment} {d' : Disk} {db' : DB} {rs' : List Record} {k n : Nat}
      (hr : Room segs d db rs (Int64.ofNat r.size) segs' d' db' rs')
      (hrotates : db.full (Int64.ofNat r.size) → Rotates db rs os)
      (hshort : shortWrite (bytesOf rs').length r.size (db.writeOutcome rs r os) = some n)
      (hsize : (bytesOf rs' ++ r.encode.take n).length ≤ maxFileSize) :
      Ends segs d db rs r os (.error .fault ⟨{ d' with
        data := d'.data.insert db'.activeFileID (bytesOf rs' ++ r.encode.take n) }, db',
        os.drop k⟩)
  | unsynced {segs' : Nat → Option Segment} {d' : Disk} {db' : DB} {rs' : List Record} {k : Nat}
      (hr : Room segs d db rs (Int64.ofNat r.size) segs' d' db' rs')
      (hrotates : db.full (Int64.ofNat r.size) → Rotates db rs os)
      (hshort : shortWrite (bytesOf rs').length r.size (db.writeOutcome rs r os) = none)
      (hsize : (bytesOf (rs' ++ [r])).length ≤ maxFileSize)
      (hsync : ¬ Succeed 1 (os.drop (db.callsFor rs (Int64.ofNat r.size) + 1))) :
      Ends segs d db rs r os (.error .fault
        ⟨appendedDisk d' db'.activeFileID rs' r, appendedDB db' rs' r, os.drop k⟩)
  | wrote {segs' : Nat → Option Segment} {w : World} {k : Nat}
      (happ : Appended segs d db rs r segs' w) :
      Ends segs d db rs r os (.ok () { w with outcomes := os.drop k })

theorem writeRecord_ends (h : Holds segs d) (ha : Active segs db rs)
    (hlive : db.activeFile = .opened) (htmp : d.tmpHint[db.activeFileID]? = none) (r : Record)
    (os : List Outcome) : Ends segs d db rs r os (writeRecord r ⟨d, db, os⟩) := by
  simp only [writeRecord, appendRecordLocked, bind_apply, Record.length_encode]
  rcases makeRoom_cases h ha hlive htmp (Int64.ofNat r.size) os with
    ⟨segs', d', db', rs', hr, hrotates, hroom⟩ | ⟨hfull, hnot, d', db', k, hun, hroom⟩
  · have ha' := hr.active ha
    have hlive' := hr.live hlive
    simp only [hroom, getDB_apply]
    rcases writeActive_cases (hr.holds h) ha' hlive' r.encode
      (os.drop (db.callsFor rs (Int64.ofNat r.size))) with
      ⟨hshort, hwrite⟩ | ⟨n, hshort, hn, hwrite⟩
    · rw [Record.length_encode] at hshort
      have hsize : (bytesOf (rs' ++ [r])).length ≤ maxFileSize := by
        simpa using (shortWrite_none hshort).2
      have hdisk : { d' with data := d'.data.insert db'.activeFileID (bytesOf rs' ++ r.encode) } =
          appendedDisk d' db'.activeFileID rs' r := by simp [appendedDisk]
      rw [List.drop_drop, hdisk] at hwrite
      have hwrote : ∀ j, Ends segs d db rs r os (.ok ()
          ⟨appendedDisk d' db'.activeFileID rs' r, { appendedDB db' rs' r with
            keydir := r.index (entryOf db'.activeFileID (bytesOf rs').length r) db'.keydir },
            os.drop j⟩) := fun j => .wrote (.intro hr hlive' hsize)
      have hentry : (⟨db'.activeFileID, Int64.ofNat (bytesOf rs').length, UInt32.ofNat r.size,
          r.timestamp⟩ : KeyDirEntry) = entryOf db'.activeFileID (bytesOf rs').length r := rfl
      have hdb : { db' with activeOffset := Int64.ofNat ((bytesOf rs').length + r.size) } =
          appendedDB db' rs' r := by simp [appendedDB]
      simp only [hwrite, modifyDB_apply, ha'.offset, ← Int64.ofNat_add, hentry, hdb]
      by_cases hsync : db'.opts.syncOnPut = true
      · rw [if_pos hsync, bind_apply,
          onActive_opened (show (appendedDB db' rs' r).activeFile ≠ .closed by
            simp [appendedDB, hlive'])]
        rcases call_cases (appendedDisk d' db'.activeFileID rs' r) (appendedDB db' rs' r)
          (os.drop (db.callsFor rs (Int64.ofNat r.size) + 1)) with ⟨-, hcall⟩ | ⟨hfails, hcall⟩
        · simp only [hcall, List.drop_drop, pure_apply]
          exact hwrote _
        · simp only [hcall, List.drop_drop]
          exact .unsynced hr hrotates hshort hsize hfails
      · rw [if_neg hsync]
        exact hwrote _
    · rw [Record.length_encode] at hshort
      rw [List.drop_drop] at hwrite
      simp only [hwrite]
      exact .torn hr hrotates hshort hn
  · simp only [hroom]
    exact .unrotated hfull hnot hun

theorem writeRecord_run (h : Holds segs d) (ha : Active segs db rs)
    (hlive : db.activeFile = .opened) (htmp : d.tmpHint[db.activeFileID]? = none) (r : Record) :
    (∃ segs' w, Appended segs d db rs r segs' w ∧ writeRecord r ⟨d, db, []⟩ = .ok () w) ∨
      ∃ w, writeRecord r ⟨d, db, []⟩ = .error .fault w := by
  have hends := writeRecord_ends h ha hlive htmp r []
  generalize writeRecord r ⟨d, db, []⟩ = res at hends ⊢
  cases hends with
  | wrote happ =>
    refine Or.inl ⟨_, _, happ, ?_⟩
    cases happ
    rw [List.drop_nil]
  | unrotated | torn | unsynced => exact Or.inr ⟨_, rfl⟩

/-- Once the handle is closed, every write fails and changes nothing. -/
theorem writeRecord_closed (hclosed : db.activeFile = .closed) (r : Record) (os : List Outcome) :
    writeRecord r ⟨d, db, os⟩ = .error .closed ⟨d, db, os⟩ := by
  have hactive : ∀ {α : Type} {op : Op α}, onActive op ⟨d, db, os⟩ = .error .closed ⟨d, db, os⟩ :=
    onActive_closed hclosed
  have hrotate : rotateActiveFileLocked ⟨d, db, os⟩ = .error .closed ⟨d, db, os⟩ := by
    simp only [rotateActiveFileLocked, bind_apply, getDB_apply, hclosed, ne_eq, reduceCtorEq,
      not_false_eq_true, if_true, hactive]
  by_cases hfull : db.full (Int64.ofNat r.size)
  · simp only [writeRecord, appendRecordLocked, makeRoom, bind_apply, getDB_apply, hclosed,
      reduceCtorEq, if_false, Record.length_encode, if_pos hfull, hrotate]
  · simp only [writeRecord, appendRecordLocked, makeRoom, bind_apply, getDB_apply, hclosed,
      reduceCtorEq, if_false, Record.length_encode, if_neg hfull, pure_apply, writeActive, hactive]

/-- The handle is open, or it is closed. -/
theorem Active.live_or (ha : Active segs db rs) :
    db.activeFile = .opened ∨ db.activeFile = .closed := by
  cases h : db.activeFile with
  | none => exact absurd h ha.activeFile
  | opened => exact Or.inl rfl
  | closed => exact Or.inr rfl

/-- Room was made and the write came to the file only through an open handle. -/
theorem Active.live_of_writes {w w' : World} {os : List Outcome} {len : Int64} {bs : Bytes}
    {a b : Unit} (ha : Active segs db rs) (hroom : makeRoom len ⟨d, db, os⟩ = .ok a w)
    (hwrite : writeActive bs w = .ok b w') : db.activeFile = .opened := by
  refine ha.live_or.resolve_right fun hclosed => ?_
  have hactive : ∀ {α : Type} {op : Op α}, onActive op ⟨d, db, os⟩ = .error .closed ⟨d, db, os⟩ :=
    onActive_closed hclosed
  by_cases hfull : db.full len
  · simp [makeRoom, rotateActiveFileLocked, bind_apply, hclosed, hfull, hactive] at hroom
  · simp only [makeRoom, bind_apply, getDB_apply, hclosed, reduceCtorEq, if_false, if_neg hfull,
      pure_apply] at hroom
    obtain ⟨-, rfl⟩ := EStateM.Result.ok.inj hroom
    cases hactive.symm.trans hwrite

theorem put_eq (ha : Active segs db rs) {value : Bytes} (hv : value ≠ tombstoneValue) (ts : Int64)
    (key : Bytes) (os : List Outcome) :
    put ts key value ⟨d, db, os⟩ = writeRecord ⟨ts, key, value⟩ ⟨d, db, os⟩ := by
  have hindex : ∀ e, Record.index ⟨ts, key, value⟩ e = fun keydir => keydir.insert key e := by
    intro e
    funext keydir
    simp [Record.index, Record.tombstone, hv]
  simp only [put, writeRecord, ensureOpen, mustReadWrite, bind_apply, getDB_apply, ha.opened,
    ha.readWrite, hv, not_true_eq_false, Bool.false_eq_true, if_false, pure_apply, hindex]
  rfl

theorem delete_eq (ha : Active segs db rs) (ts : Int64) (key : Bytes) (os : List Outcome) :
    delete ts key ⟨d, db, os⟩ = writeRecord ⟨ts, key, tombstoneValue⟩ ⟨d, db, os⟩ := by
  simp only [delete, writeRecord, ensureOpen, mustReadWrite, bind_apply, getDB_apply, ha.opened,
    ha.readWrite, not_true_eq_false, Bool.false_eq_true, if_false, pure_apply]
  rfl

theorem put_run (h : Holds segs d) (ha : Active segs db rs) (hlive : db.activeFile = .opened)
    (htmp : d.tmpHint[db.activeFileID]? = none) {value : Bytes} (hv : value ≠ tombstoneValue)
    (ts : Int64) (key : Bytes) :
    (∃ segs' w, Appended segs d db rs ⟨ts, key, value⟩ segs' w ∧
      put ts key value ⟨d, db, []⟩ = .ok () w) ∨
      ∃ w, put ts key value ⟨d, db, []⟩ = .error .fault w := by
  rw [put_eq ha hv]
  exact writeRecord_run h ha hlive htmp _

theorem delete_run (h : Holds segs d) (ha : Active segs db rs) (hlive : db.activeFile = .opened)
    (htmp : d.tmpHint[db.activeFileID]? = none) (ts : Int64) (key : Bytes) :
    (∃ segs' w, Appended segs d db rs ⟨ts, key, tombstoneValue⟩ segs' w ∧
      delete ts key ⟨d, db, []⟩ = .ok () w) ∨
      ∃ w, delete ts key ⟨d, db, []⟩ = .error .fault w := by
  rw [delete_eq ha]
  exact writeRecord_run h ha hlive htmp _

end KvRaft.Store
