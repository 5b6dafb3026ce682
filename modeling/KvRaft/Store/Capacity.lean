import KvRaft.Store.Effects
import KvRaft.Store.Faults
import KvRaft.Store.Oversized

/-! A store whose file limit is far below the largest file never fails a write by itself: the active
file stays within the limit, so there is room for the next record, and for the hints of a
rotation. Writing alone it cannot come to the last number of a file either. -/

namespace KvRaft.Store

open Std LittleEndian Effects

variable {segs : Nat → Option Segment} {m : Bytes → Option Bytes} {d : Disk} {db : DB}
  {rs : List Record} {r : Record} {w : World} {k : Nat}

/-- The limit of a data file, and the active file, leave room. The handle is open, and a store new
in its directory has made at most `k` further files. -/
structure World.Roomy (k : Nat) (w : World) : Prop where
  limit : w.db.opts.maxDataFileSizeBytes.toInt ≤ 2 ^ 61
  size : w.activeSize ≤ 2 ^ 61
  live : w.db.activeFile ≠ .closed
  files : w.db.nextFileID ≤ k + 2

theorem World.Roomy.more (h : w.Roomy k) : w.Roomy (k + 1) :=
  { h with files := h.files.trans (by omega) }

/-- A hint is at most twice as long as its record. -/
theorem length_hints_le (off : Nat) (rs : List Record) :
    ((hintsFrom off rs).flatMap encodeHintRecord).length ≤ 2 * (bytesOf rs).length := by
  induction rs generalizing off with
  | nil => simp [hintsFrom]
  | cons r rs ih =>
    have hrest := ih (off + r.size)
    have hhint : (encodeHintRecord (hintOf r (Int64.ofNat off) r.size)).length =
        25 + r.key.length := by
      simp only [encodeHintRecord, hintOf, List.length_append, length_bytesLE]
    have hsize : r.size = 20 + r.key.length + r.value.length := rfl
    rw [hintsFrom, List.flatMap_cons, List.length_append, hhint, bytesOf_cons, List.length_append,
      Record.length_encode]
    omega

/-- The record goes where the file stays within the limit, or is the only one of its file. -/
theorem Room.small {segs' : Nat → Option Segment} {d' : Disk} {db' : DB} {rs' : List Record}
    (hroom : Room segs d db rs (Int64.ofNat r.size) segs' d' db' rs') (ha : Active segs db rs)
    (hlimit : db.opts.maxDataFileSizeBytes.toInt ≤ 2 ^ 61) (hsmall : (bytesOf rs).length ≤ 2 ^ 61)
    (hr : r.size < 2 ^ 33) : (bytesOf (rs' ++ [r])).length ≤ 2 ^ 61 := by
  cases hroom with
  | rotate =>
    rw [List.nil_append, bytesOf_cons, bytesOf_nil, List.append_nil, Record.length_encode]
    omega
  | stay hnot =>
    rw [bytesOf_append, List.length_append, bytesOf_cons, bytesOf_nil, List.append_nil,
      Record.length_encode]
    by_cases hzero : (bytesOf rs).length = 0
    · omega
    · have hpos : db.activeOffset > 0 := by
        rw [ha.offset, gt_iff_lt, Int64.lt_iff_toInt_lt, Int64.toInt_ofNat_of_lt (by omega)]
        simp
        omega
      have hle : db.activeOffset + Int64.ofNat r.size ≤ db.opts.maxDataFileSizeBytes := by
        by_contra hgt
        exact hnot ⟨Int64.not_le.mp hgt, hpos⟩
      rw [ha.offset, ← Int64.ofNat_add, Int64.le_iff_toInt_le,
        Int64.toInt_ofNat_of_lt (by omega)] at hle
      omega

/-- A record that was written leaves room. -/
theorem World.Roomy.appended {segs' : Nat → Option Segment} {w' : World} (hroomy : w.Roomy k)
    (h : Holds segs w.disk) (ha : Active segs w.db rs) (hr : r.size < 2 ^ 33)
    (happ : Appended segs w.disk w.db rs r segs' w') : w'.Roomy (k + 1) := by
  have hsmall : (bytesOf rs).length ≤ 2 ^ 61 := ha.activeBytes_eq h ▸ hroomy.size
  have hfiles := hroomy.files
  cases happ with
  | intro hroom hlive hsize =>
    refine ⟨?_, ?_, hlive.trans_ne (by decide), ?_⟩
    · cases hroom <;> exact hroomy.limit
    · simpa [World.activeSize, World.activeBytes, World.dataOf, appendedDisk, appendedDB] using
        hroom.small ha hroomy.limit hsmall hr
    · cases hroom with
      | stay => exact hfiles.trans (by omega)
      | rotate => exact Nat.succ_le_succ hfiles

/-- Every record is written. -/
theorem Session.writeRecord_ok (h : Session segs m w) (hopen : w.db.closed = false)
    (hroomy : w.Roomy k) (hk : k < 2 ^ 63) (hr : r.size < 2 ^ 33) :
    ∃ rs w', Active segs w.db rs ∧ writeRecord r w = .ok () w' ∧ w'.Roomy (k + 1) := by
  obtain ⟨d, db, os⟩ := w
  obtain rfl : os = [] := h.calm
  obtain ⟨-, rs, ha⟩ := h.opened hopen
  have hlive : db.activeFile = .opened := ha.live_or.resolve_right hroomy.live
  have hsmall : (bytesOf rs).length ≤ 2 ^ 61 := ha.activeBytes_eq h.holds ▸ hroomy.size
  have hends := writeRecord_ends h.holds ha hlive (h.tmpHint_none _) r []
  generalize hres : writeRecord r ⟨d, db, []⟩ = res at hends
  -- no call fails, so only the sizes and the number of the new file could stop the write
  cases hends with
  | unrotated hfull hnot hun =>
    refine absurd ⟨.nil _, ?_, ?_⟩ hnot
    · have := length_hints_le 0 rs
      rw [hintBytes, maxFileSize]
      omega
    · have hfiles : db.nextFileID ≤ k + 2 := hroomy.files
      have hmax : k + 2 < maxFileID := by
        rw [maxFileID]
        omega
      exact Nat.ne_of_lt (Nat.lt_of_le_of_lt hfiles hmax)
  | torn hroom hrotates hshort hsize =>
    have hfits := hroom.small ha hroomy.limit hsmall hr
    simp only [bytesOf_append, List.length_append, bytesOf_cons, bytesOf_nil, List.append_nil,
      Record.length_encode] at hfits
    rcases (shortWrite_some hshort).1 with hfail | hbig
    · simp [DB.writeOutcome] at hfail
    · rw [maxFileSize] at hbig
      omega
  | unsynced hroom hrotates hshort hsize hsync => exact absurd (by simpa using .nil _) hsync
  | wrote happ =>
    have hleft := hroomy.appended h.holds ha hr happ
    exact ⟨rs, _, ha, rfl, hleft.limit, hleft.size, hleft.live, hleft.files⟩

/-- A `Put` returns nil, unless it is one of the reserved value. -/
theorem Session.put_accepted (h : Session segs m w) (hopen : w.db.closed = false)
    (hroomy : w.Roomy k) (hk : k < 2 ^ 63) (ts : Int64) {key value : Bytes}
    (hsized : 20 + key.length + value.length < 2 ^ 32) (hv : value ≠ tombstoneValue) :
    ∃ w', put ts key value w = .ok () w' ∧ w'.Roomy (k + 1) := by
  obtain ⟨rs, w', ha, hwrite, hroomy'⟩ :=
    h.writeRecord_ok (r := ⟨ts, key, value⟩) hopen hroomy hk (hsized.trans (by decide))
  refine ⟨w', ?_, hroomy'⟩
  rw [← hwrite]
  exact put_eq ha hv ts key w.outcomes

theorem put_reserved (hopen : w.db.closed = false) (hrw : w.db.opts.readWrite = true) (ts : Int64)
    (key : Bytes) : put ts key tombstoneValue w = .error .reservedValue w := by
  simp [put, ensureOpen, mustReadWrite, bind_apply, hopen, hrw]

theorem Session.delete_accepted (h : Session segs m w) (hopen : w.db.closed = false)
    (hroomy : w.Roomy k) (hk : k < 2 ^ 63) (ts : Int64) {key : Bytes}
    (hsized : key.length < 2 ^ 32) : ∃ w', delete ts key w = .ok () w' ∧ w'.Roomy (k + 1) := by
  have hsize : (Record.mk ts key tombstoneValue).size < 2 ^ 33 := by
    have hlen : tombstoneValue.length < 2 ^ 31 := by decide
    simp only [Record.size]
    omega
  obtain ⟨rs, w', ha, hwrite, hroomy'⟩ := h.writeRecord_ok hopen hroomy hk hsize
  refine ⟨w', ?_, hroomy'⟩
  rw [← hwrite]
  exact delete_eq ha ts key w.outcomes

/-- A new store has room. -/
theorem World.openDB_roomy {opts : OpenOptions}
    (h : World.empty.openDB { opts with readWrite := true } = some w)
    (hlimit : w.db.opts.maxDataFileSizeBytes.toInt ≤ 2 ^ 61) : w.Roomy 0 := by
  obtain ⟨segs, w', ho, hok⟩ :=
    World.empty_session.openWithOptions_ok rfl { opts with readWrite := true } rfl
  rw [World.openDB, hok, Option.some.injEq] at h
  subst h
  cases ho with
  | empty =>
    refine ⟨hlimit, ?_, by simp [openedDB], by simp [openedDB]⟩
    simp [World.activeSize, World.activeBytes, World.dataOf, openedDB]
  | scanned hsome => cases hsome

/-- Room is left if there was some. -/
def KeepsRoom (w w' : World) : Prop := ∀ k, w.Roomy k → w'.Roomy k

instance : Std.Refl KeepsRoom := ⟨fun _ _ h => h⟩

instance : IsTrans World KeepsRoom := ⟨fun _ _ _ h h' k hw => h' k (h k hw)⟩

theorem keepsRoom_readValue (key : Bytes) (entry : KeyDirEntry) :
    Within KeepsRoom (readValue key entry) := by
  have hcall : ∀ w : World, KeepsRoom w { w with outcomes := w.outcomes.drop 1 } :=
    fun _ _ h => ⟨h.limit, h.size, h.live, h.files⟩
  have hreaders : OpensReaders KeepsRoom := fun _ _ _ _ h => ⟨h.limit, h.size, h.live, h.files⟩
  exact .bind (within_readRecordAtEntry hcall hreaders key entry) fun _ =>
    .ite (.throw _) (.pure _)

end KvRaft.Store
