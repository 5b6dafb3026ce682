import KvRaft.Store.Crash

/-! Writes that the file system fails. Between calls that succeed, the file-system calls of a `Put`
or `Delete` end in any way, and what the call leaves behind stays. Which of these failures later
writes can live with. -/

namespace KvRaft.Store

/-- The records of a data file, as a scan from its start reads them. -/
def recordsIn (bs : Bytes) : List Record := (records bs).1.map Prod.fst

/-- The `Put` or `Delete` that the event is. -/
def Event.write : Event → Option (Op Unit)
  | .put ts key value => some (Store.put ts key value)
  | .delete ts key => some (Store.delete ts key)
  | _ => none

/-- A call, and how the file-system calls that it makes end. -/
structure Trial where
  event : Event
  outcomes : List Outcome := []

namespace World

/-- The state after a write, whether or not it returned an error. -/
def tried (w : World) (op : Op Unit) (os : List Outcome) : World :=
  match op { w with outcomes := os } with
  | .ok _ w' | .error _ w' => { w' with outcomes := [] }

/-- Only a `Put` or `Delete` meets failures. -/
def trial (w : World) (t : Trial) : Option World :=
  match t.event.write with
  | some op => some (w.tried op t.outcomes)
  | none => if t.outcomes.isEmpty then w.step t.event else none

def dataOf (w : World) (id : Nat) : Bytes := (w.disk.data[id]?).getD []

def activeBytes (w : World) : Bytes := w.dataOf w.db.activeFileID

/-- The length of the active file. -/
def activeSize (w : World) : Nat := w.activeBytes.length

/-- The write of `r` comes to a data file: the active one has room, or the rotation passes. -/
def HasRoom (w : World) (r : Record) (os : List Outcome) : Prop :=
  w.db.full (Int64.ofNat r.size) → Rotates w.db (recordsIn w.activeBytes) os

/-- The number of bytes after which the write of `r` to the data file is cut off, if it fails. -/
def cutOff (w : World) (r : Record) (os : List Outcome) : Option Nat :=
  shortWrite (if w.db.full (Int64.ofNat r.size) then 0 else w.activeSize) r.size
    (w.db.writeOutcome (recordsIn w.activeBytes) r os)

instance (w : World) (r : Record) (os : List Outcome) : Decidable (w.HasRoom r os) :=
  inferInstanceAs (Decidable (_ → _))

/-- If the write of `r` fails, then in the first `k` calls of a rotation, in the write but with no
byte written, or in the `Sync` after it. -/
def Spares (k : Nat) (w : World) (r : Record) (os : List Outcome) : Prop :=
  w.db.activeFile = .opened →
    if w.HasRoom r os then ∀ n ∈ w.cutOff r os, n = 0 else ¬ Succeed k os

instance (k : Nat) (w : World) (r : Record) (os : List Outcome) : Decidable (w.Spares k r os) :=
  inferInstanceAs (Decidable (_ → _))

end World

/-- The histories in which writes may fail. -/
def faulty : Machine World Trial where
  initial w := w = World.empty
  step := World.trial

/-- A crash, if the call is one, can be recovered from, and a write that fails does so in one of the
places of `Spares`. -/
def Endures (k : Nat) (w : World) (t : Trial) : Prop :=
  Mending w t.event ∧ ∀ r ∈ t.event.writes, w.Spares k r t.outcomes

instance (k : Nat) (w : World) (t : Trial) : Decidable (Endures k w t) :=
  inferInstanceAs (Decidable (_ ∧ _))

/-- What the call leaves behind does not hinder later writes: no rotation fails after its `Sync` of
the active file. -/
abbrev Harmless : World → Trial → Prop := Endures 1

/-- The `Close` of a rotation may fail as well. The handle is closed all the same, and from then on
every write fails. -/
abbrev Bearable : World → Trial → Prop := Endures 2

variable {segs segs' : Nat → Option Segment} {m m' : Bytes → Option Bytes} {w w' : World}
  {d d' : Disk} {db db' : DB} {len : Int64} {e : Event} {op : Op Unit} {rs rs' : List Record}
  {r : Record} {os : List Outcome}

theorem World.tried_error {err : Err} (h : op { w with outcomes := os } = .error err w') :
    w.tried op os = { w' with outcomes := [] } := by
  rw [tried, h]

theorem World.tried_ok (h : op { w with outcomes := os } = .ok () w') :
    w.tried op os = { w' with outcomes := [] } := by
  rw [tried, h]

/-- A write is refused without a file-system call, or it comes to writing its record. -/
theorem Session.write_cases (h : Session segs m w) (hop : e.write = some op) (os : List Outcome) :
    (∃ err, op { w with outcomes := os } = .error err { w with outcomes := os }) ∨
      ∃ r rs, e.writes = some r ∧ Active segs w.db rs ∧ w.db.activeFile = .opened ∧
        Ends segs w.disk w.db rs r os (op { w with outcomes := os }) := by
  obtain ⟨d, db, _⟩ := w
  have htmp : d.tmpHint[db.activeFileID]? = none := h.tmpHint_none _
  cases hc : db.closed with
  | true =>
    cases e with
    | put ts key value =>
      obtain rfl := Option.some.inj hop
      exact Or.inl ⟨.closed, by simp [put, ensureOpen, bind_apply, hc]⟩
    | delete ts key =>
      obtain rfl := Option.some.inj hop
      exact Or.inl ⟨.closed, by simp [delete, ensureOpen, bind_apply, hc]⟩
    | «open» | merge | close | crash => cases hop
  | false =>
    obtain ⟨-, rs, ha⟩ := h.opened hc
    cases e with
    | put ts key value =>
      obtain rfl := Option.some.inj hop
      by_cases hv : value = tombstoneValue
      · have hrw : db.opts.readWrite = true := ha.readWrite
        exact Or.inl ⟨.reservedValue, by
          simp [put, ensureOpen, mustReadWrite, bind_apply, hc, hrw, hv]⟩
      · rw [put_eq ha hv]
        rcases ha.live_or with hlive | hdead
        · exact Or.inr ⟨⟨ts, key, value⟩, rs, by simp [Event.writes, hv], ha, hlive,
            writeRecord_ends h.holds ha hlive htmp _ os⟩
        · exact Or.inl ⟨.closed, writeRecord_closed hdead _ os⟩
    | delete ts key =>
      obtain rfl := Option.some.inj hop
      rw [delete_eq ha]
      rcases ha.live_or with hlive | hdead
      · exact Or.inr ⟨⟨ts, key, tombstoneValue⟩, rs, rfl, ha, hlive,
          writeRecord_ends h.holds ha hlive htmp _ os⟩
      · exact Or.inl ⟨.closed, writeRecord_closed hdead _ os⟩
    | «open» | merge | close | crash => cases hop

/-- A `Put` that returned nil has written its record. -/
theorem Session.put_appended {ts : Int64} {key value : Bytes} (h : Session segs m w)
    (hput : put ts key value w = .ok () w') : value ≠ tombstoneValue ∧
      ∃ rs segs', Active segs w.db rs ∧ Appended segs w.disk w.db rs ⟨ts, key, value⟩ segs' w' := by
  obtain ⟨d, db, os⟩ := w
  obtain rfl : os = [] := h.calm
  rcases h.write_cases (e := .put ts key value) rfl [] with
    ⟨err, hrefused⟩ | ⟨r, rs, he, ha, -, hends⟩
  · cases hrefused.symm.trans hput
  · simp only [Event.writes] at he
    split at he
    · cases he
    · next hv =>
      obtain rfl := Option.some.inj he
      rw [hput] at hends
      cases hends with
      | wrote happ =>
        rw [List.drop_nil]
        cases happ with
        | intro hroom hlive hsize => exact ⟨hv, rs, _, ha, .intro hroom hlive hsize⟩

theorem recordsIn_bytesOf (h : ∀ r ∈ rs, r.Fits) : recordsIn (bytesOf rs) = rs := by
  rw [recordsIn, bytesOf, records_flatMap h, List.map_map]
  exact List.map_id rs

theorem Active.activeBytes_eq (ha : Active segs db rs) (h : Holds segs d) :
    World.activeBytes ⟨d, db, os⟩ = bytesOf rs := by
  simp [World.activeBytes, World.dataOf, ha.data h]

theorem Active.recordsIn_activeBytes (ha : Active segs db rs) (h : Holds segs d) :
    recordsIn (World.activeBytes ⟨d, db, os⟩) = rs := by
  rw [ha.activeBytes_eq h, recordsIn_bytesOf (ha.fits h)]

theorem Active.hasRoom_iff (ha : Active segs db rs) (h : Holds segs d) :
    World.HasRoom ⟨d, db, []⟩ r os ↔ (db.full (Int64.ofNat r.size) → Rotates db rs os) := by
  rw [World.HasRoom, ha.recordsIn_activeBytes h]

/-- Where the write is cut off, in the file that it comes to. -/
theorem Room.cutOff_eq (hr : Room segs d db rs (Int64.ofNat r.size) segs' d' db' rs')
    (ha : Active segs db rs) (h : Holds segs d) : World.cutOff ⟨d, db, []⟩ r os =
      shortWrite (bytesOf rs').length r.size (db.writeOutcome rs r os) := by
  rw [World.cutOff, ha.recordsIn_activeBytes h, World.activeSize, ha.activeBytes_eq h]
  cases hr with
  | stay hfull => rw [if_neg hfull]
  | rotate hfull => rw [if_pos hfull]; rfl

/-- What `Spares` says of a rotation that failed. -/
theorem World.Spares.stopped {k : Nat} (hspares : World.Spares k ⟨d, db, []⟩ r os)
    (h : Holds segs d) (ha : Active segs db rs) (hlive : db.activeFile = .opened)
    (hfull : db.full (Int64.ofNat r.size)) (hnot : ¬ Rotates db rs os) : ¬ Succeed k os := by
  have hno : ¬ World.HasRoom ⟨d, db, []⟩ r os := fun hroom =>
    hnot ((ha.hasRoom_iff h).mp hroom hfull)
  simpa only [if_neg hno] using hspares hlive

/-- What `Spares` says of a write that failed. -/
theorem World.Spares.cut_eq_zero {k n : Nat} (hspares : World.Spares k ⟨d, db, []⟩ r os)
    (h : Holds segs d) (ha : Active segs db rs) (hlive : db.activeFile = .opened)
    (hr : Room segs d db rs (Int64.ofNat r.size) segs' d' db' rs')
    (hrotates : db.full (Int64.ofNat r.size) → Rotates db rs os)
    (hshort : shortWrite (bytesOf rs').length r.size (db.writeOutcome rs r os) = some n) :
    n = 0 := by
  have hroom : World.HasRoom ⟨d, db, []⟩ r os := (ha.hasRoom_iff h).mpr hrotates
  have hall := hspares hlive
  rw [if_pos hroom, hr.cutOff_eq ha h] at hall
  exact hall n hshort

theorem World.Spares.mono {k l : Nat} (h : w.Spares k r os) (hle : k ≤ l) : w.Spares l r os := by
  intro hlive
  have h := h hlive
  split at h
  · next hroom => rwa [if_pos hroom]
  · next hroom => rw [if_neg hroom]; exact fun hl => h (hl.mono hle)

theorem Endures.mono {k l : Nat} {t : Trial} (h : Endures k w t) (hle : k ≤ l) : Endures l w t :=
  ⟨h.1, fun r hr => (h.2 r hr).mono hle⟩

/-- The handle of the active file is closed, and everything else stays. -/
theorem Session.dead (h : Session segs m ⟨d, db, []⟩) :
    Session segs m ⟨d, { db with activeFile := .closed }, []⟩ := by
  refine { h with opened := fun hc => ?_ }
  obtain ⟨hlock, rs, ha⟩ := h.opened hc
  exact ⟨hlock, rs, { ha with activeFile := nofun }⟩

/-- What holds between the calls of a history with harmless failures. The hint files of the data
files above the active one are up to date: merges have written both. -/
structure Kept (segs : Nat → Option Segment) (m : Bytes → Option Bytes) (w : World) : Prop where
  session : Session segs m w
  aloft : w.db.closed = false → ∀ id bs, w.db.activeFileID < id → w.disk.hint[id]? = some bs →
    bs = hintBytes (recordsAt segs id)

namespace Kept

theorem empty : Kept (fun _ => none) (fun _ => none) World.empty :=
  ⟨World.empty_session, nofun⟩

theorem room (h : Kept segs m ⟨d, db, []⟩) (ha : Active segs db rs)
    (hr : Room segs d db rs len segs' d' db' rs') : Kept segs' m ⟨d', db', []⟩ := by
  refine ⟨h.session.room ha hr, ?_⟩
  cases hr with
  | stay => exact h.aloft
  | rotate hfull =>
    intro _ id bs hid hbs
    change db.nextFileID < id at hid
    have hne : id ≠ db.activeFileID := by
      have := ha.active_lt
      omega
    simp only [rotatedDisk, Maps.getElem?_insert_of_ne hne] at hbs
    obtain ⟨s, -, hs, -⟩ := h.session.covered id bs hbs
    have := ha.below id (by simp [hs])
    omega

/-- Whatever happens to the active file. -/
theorem update (h : Kept segs m w) {s : Segment}
    (h' : Session (Function.update segs w.db.activeFileID (some s)) m' w')
    (hhint : w'.disk.hint = w.disk.hint) (hactive : w'.db.activeFileID = w.db.activeFileID)
    (hclosed : w'.db.closed = w.db.closed) :
    Kept (Function.update segs w.db.activeFileID (some s)) m' w' := by
  refine ⟨h', fun hopen id bs hid hbs => ?_⟩
  rw [hactive] at hid
  rw [hhint] at hbs
  rw [recordsAt, Function.update_of_ne (Nat.ne_of_gt hid)]
  exact h.aloft (hclosed ▸ hopen) id bs hid hbs

theorem appended (h : Kept segs m w) (ha : Active segs w.db rs) (hr : r.Legal)
    (happ : Appended segs w.disk w.db rs r segs' w') : Kept segs' (r.effect m) w' := by
  have h' := h.session.appended ha hr happ
  obtain ⟨d, db, os⟩ := w
  obtain rfl : os = [] := h.session.calm
  cases happ with
  | intro hroom _ _ => exact (h.room ha hroom).update h' rfl rfl rfl

theorem effect (h : Kept segs m w) (he : Effect segs m w e segs' m' w')
    (h' : Session segs' m' w') (hsized : e.Sized) : Kept segs' m' w' := by
  cases he with
  | refused => exact h
  | wrote he ha happ => exact h.appended ha (hsized.legal he) happ
  | merged ha hm =>
    refine ⟨h', fun _ id bs hid hbs => ?_⟩
    rw [hm.sameDB] at hid
    rw [hm.hint] at hbs
    rcases Option.or_eq_some_iff.mp hbs with ho | ⟨-, hold⟩
    · obtain ⟨s, hs, rfl⟩ := Option.map_eq_some_iff.mp ho
      simp [recordsAt, mergedSegs, hs]
    · split at hold
      · cases hold
      · next hkeep =>
        obtain ⟨s, -, hs, -⟩ := h.session.covered id bs hold
        exact absurd ⟨by simp [hs], Nat.ne_of_gt hid⟩ hkeep
  | closed | crashed => exact ⟨h', fun hc => by cases hc⟩
  | opened hclosed ho =>
    refine ⟨h', fun _ id bs hid hbs => ?_⟩
    cases ho with
    | empty hnone =>
      obtain ⟨s, -, hs, -⟩ := h.session.covered id bs hbs
      exact absurd hs (by simp [hnone id])
    | scanned hs htop _ =>
      obtain ⟨s, -, hs, -⟩ := h.session.covered id bs hbs
      exact absurd (htop id (by simp [hs])) (Nat.not_le.mpr hid)

/-- What is left of a write that failed in one of these places. -/
theorem spared (h : Kept segs m w) (ha : Active segs w.db rs) (hlive : w.db.activeFile = .opened)
    (hr : r.Legal) (hspares : w.Spares 2 r os) {res : EStateM.Result Err World Unit}
    (hends : Ends segs w.disk w.db rs r os res) (hop : op { w with outcomes := os } = res) :
    ∃ segs' m', Kept segs' m' (w.tried op os) := by
  obtain ⟨d, db, os₀⟩ := w
  obtain rfl : os₀ = [] := h.session.calm
  have hholds := h.session.holds
  cases hends with
  | unrotated hfull hnot hun =>
    rw [World.tried_error hop]
    cases hun with
    | sync => exact ⟨segs, m, h⟩
    | close => exact ⟨segs, m, h.session.dead, h.aloft⟩
    | broken hclose _ =>
      exact absurd hclose (hspares.stopped hholds ha hlive hfull hnot)
  | torn hroom hrotates hshort _ =>
    rw [World.tried_error hop]
    have h' := h.room ha hroom
    obtain rfl := hspares.cut_eq_zero hholds ha hlive hroom hrotates hshort
    rw [List.take_zero, List.append_nil, Maps.insert_same ((hroom.active ha).data h'.session.holds)]
    exact ⟨_, m, h'⟩
  | unsynced hroom _ _ hsize _ =>
    rw [World.tried_error hop]
    have h' := h.room ha hroom
    have ha' := hroom.active ha
    exact ⟨_, m, h'.update
      (h'.session.append ha' hr hsize (h'.session.serves.grow (ha'.grows r))) rfl rfl rfl⟩
  | wrote happ =>
    rw [World.tried_ok hop]
    have h' := h.appended ha hr happ
    cases happ
    exact ⟨_, _, h'⟩

/-- The handle stays open unless the `Close` of a rotation fails. -/
theorem spared_live (h : Kept segs m w) (ha : Active segs w.db rs)
    (hlive : w.db.activeFile = .opened) (hspares : w.Spares 1 r os)
    {res : EStateM.Result Err World Unit} (hends : Ends segs w.disk w.db rs r os res)
    (hop : op { w with outcomes := os } = res) : (w.tried op os).db.activeFile ≠ .closed := by
  obtain ⟨d, db, os₀⟩ := w
  obtain rfl : os₀ = [] := h.session.calm
  have hne : db.activeFile ≠ .closed := hlive.trans_ne (by decide)
  cases hends with
  | unrotated hfull hnot hun =>
    rw [World.tried_error hop]
    have hstopped := hspares.stopped h.session.holds ha hlive hfull hnot
    cases hun with
    | sync => exact hne
    | close hsync _ => exact absurd hsync hstopped
    | broken hclose _ => exact absurd (hclose.mono (by omega)) hstopped
  | torn hroom | unsynced hroom =>
    rw [World.tried_error hop]
    exact (hroom.live hlive).trans_ne (by decide)
  | wrote happ =>
    rw [World.tried_ok hop]
    cases happ with
    | intro _ hopened _ => exact hopened.trans_ne (by decide)

/-- A call between whose failures the store can be read. -/
theorem trial (h : Kept segs m w) {t : Trial} (hg : Bearable w t)
    (hstep : faulty.step w t = some w') : ∃ segs' m', Kept segs' m' w' := by
  change w.trial t = some w' at hstep
  unfold World.trial at hstep
  cases hop : t.event.write with
  | none =>
    simp only [hop] at hstep
    split at hstep
    · obtain ⟨segs', m', he, h'⟩ := h.session.step hg.1.1 hg.1.2 hstep
      exact ⟨segs', m', h.effect he h' hg.1.1⟩
    · cases hstep
  | some op =>
    simp only [hop, Option.some.injEq] at hstep
    subst hstep
    rcases h.session.write_cases hop t.outcomes with
      ⟨err, hrefused⟩ | ⟨r, rs, he, ha, hlive, hends⟩
    · rw [World.tried_error hrefused]
      obtain ⟨d, db, os⟩ := w
      obtain rfl : os = [] := h.session.calm
      exact ⟨segs, m, h⟩
    · exact h.spared ha hlive (hg.1.1.legal he) (hg.2 r he) hends rfl

theorem trial_live (h : Kept segs m w) {t : Trial} (hg : Harmless w t)
    (hstep : faulty.step w t = some w') (hlive : w.db.activeFile ≠ .closed) :
    w'.db.activeFile ≠ .closed := by
  change w.trial t = some w' at hstep
  unfold World.trial at hstep
  cases hop : t.event.write with
  | none =>
    simp only [hop] at hstep
    split at hstep
    · obtain ⟨_, _, he, -⟩ := h.session.step hg.1.1 hg.1.2 hstep
      exact he.live hlive
    · cases hstep
  | some op =>
    simp only [hop, Option.some.injEq] at hstep
    subst hstep
    rcases h.session.write_cases hop t.outcomes with
      ⟨err, hrefused⟩ | ⟨r, rs, he, ha, hopened, hends⟩
    · rw [World.tried_error hrefused]
      exact hlive
    · exact h.spared_live ha hopened (hg.2 r he) hends rfl

end Kept

theorem kept_of_bearable {ts : List Trial} (h : faulty.Along Bearable World.empty ts)
    (hrun : faulty.exec World.empty ts = some w) : ∃ segs m, Kept segs m w := by
  have hstep : ∀ w t w', (∃ segs m, Kept segs m w) → Bearable w t →
      faulty.step w t = some w' → ∃ segs m, Kept segs m w' := by
    rintro w t w' ⟨segs, m, hk⟩ hg hstep
    exact hk.trial hg hstep
  exact h.invariant (I := fun w => ∃ segs m, Kept segs m w) hstep hrun ⟨_, _, Kept.empty⟩

theorem kept_of_harmless {ts : List Trial} (h : faulty.Along Harmless World.empty ts)
    (hrun : faulty.exec World.empty ts = some w) :
    (∃ segs m, Kept segs m w) ∧ w.db.activeFile ≠ .closed := by
  have hstep : ∀ w t w', (∃ segs m, Kept segs m w) ∧ w.db.activeFile ≠ .closed → Harmless w t →
      faulty.step w t = some w' → (∃ segs m, Kept segs m w') ∧ w'.db.activeFile ≠ .closed := by
    rintro w t w' ⟨⟨segs, m, hk⟩, hlive⟩ hg hstep
    exact ⟨hk.trial (hg.mono (by omega)) hstep, hk.trial_live hg hstep hlive⟩
  exact h.invariant (I := fun w => (∃ segs m, Kept segs m w) ∧ w.db.activeFile ≠ .closed) hstep
    hrun ⟨⟨_, _, Kept.empty⟩, nofun⟩

/-- After any history whose failures are harmless, a `Put` whose own file-system calls succeed
returns nil, and `Get` returns its value. -/
theorem put_after_failures {ts : List Trial} (h : faulty.Along Harmless World.empty ts)
    (hrun : faulty.exec World.empty ts = some w) (hopen : w.db.closed = false) {key value : Bytes}
    (hsized : 20 + key.length + value.length < 2 ^ 32) (hv : value ≠ tombstoneValue) (now : Int64)
    (hcalls : ∀ w', put now key value w ≠ .error .fault w') :
    ∃ w', put now key value w = .ok () w' ∧ w'.lookup key = .ok value := by
  obtain ⟨⟨segs, m, hs, -⟩, hnot⟩ := kept_of_harmless h hrun
  obtain ⟨d, db, os⟩ := w
  obtain rfl : os = [] := hs.calm
  obtain ⟨-, rs, ha⟩ := hs.opened hopen
  have hlive := ha.live_or.resolve_right hnot
  have ht : Record.tombstone ⟨now, key, value⟩ = false := by simp [Record.tombstone, hv]
  rcases put_run hs.holds ha hlive (hs.tmpHint_none _) hv now key with
    ⟨segs', w', happ, hok⟩ | ⟨w', hfault⟩
  · exact ⟨w', hok, hs.lookup_appended ha (.of_size (r := ⟨now, key, value⟩) hsized) ht happ⟩
  · exact absurd hfault (hcalls w')

/-- Writes of which each fails in another harmless place: in the write, in the `Sync` after it, and
in the `Sync` of a rotation. -/
def failsEarly : List Trial :=
  [⟨.open ⟨true, true, 25⟩, []⟩, ⟨.put 1 [1] [7], [.fail 0]⟩, ⟨.put 2 [1] [7], [.ok, .fail 0]⟩,
    ⟨.put 3 [2] [8], [.fail 0]⟩, ⟨.delete 4 [1], [.fail 0]⟩]

theorem put_after_failsEarly : ∃ w w', faulty.exec World.empty failsEarly = some w ∧
    put 5 [2] [9] w = .ok () w' ∧ w'.lookup [2] = .ok [9] := by
  have h : faulty.Along Harmless World.empty failsEarly := by decide +kernel
  have hrun : (faulty.exec World.empty failsEarly).any fun w => !w.db.closed &&
      match put 5 [2] [9] w with
      | .ok _ _ => true
      | .error err _ => err ≠ .fault := by decide +kernel
  obtain ⟨w, hw, hput⟩ := Option.any_eq_true _ _ |>.mp hrun
  rw [Bool.and_eq_true, Bool.not_eq_true'] at hput
  have hcalls : ∀ w', put 5 [2] [9] w ≠ .error .fault w' := by
    intro w' hfault
    have := hput.2
    simp [hfault] at this
  obtain ⟨w', hok, hget⟩ := put_after_failures h hw hput.1 (by decide) (by decide) 5 hcalls
  exact ⟨w, w', hw, hok, hget⟩

/-- One byte of the record is written: the next record starts behind it, but is indexed at its
place. -/
def oneByte : List Trial := [⟨.open ⟨true, false, 0⟩, []⟩, ⟨.put 1 [1] [7], [.fail 1]⟩]

/-- The rotation cannot close the old file: the handle is closed all the same, but stays. -/
def noClose : List Trial :=
  [⟨.open ⟨true, false, 25⟩, []⟩, ⟨.put 1 [1] [7], []⟩, ⟨.put 2 [2] [8], [.ok, .fail 0]⟩]

/-- The rotation cannot create the temporary hint file. -/
def noHint : List Trial :=
  [⟨.open ⟨true, false, 25⟩, []⟩, ⟨.put 1 [1] [7], []⟩, ⟨.put 2 [2] [8], [.ok, .ok, .fail 0]⟩]

/-- The rotation cannot create the new active file. -/
def noFile : List Trial :=
  [⟨.open ⟨true, false, 25⟩, []⟩, ⟨.put 1 [1] [7], []⟩,
    ⟨.put 2 [2] [8], List.replicate 9 .ok ++ [.fail 0]⟩]

/-- After the run, a `Put` whose own file-system calls succeed returns nil, and `Get` returns its
value. -/
def PutServed (ts : List Trial) : Prop :=
  ∀ w now key value, faulty.exec World.empty ts = some w → w.db.closed = false →
    20 + key.length + value.length < 2 ^ 32 → value ≠ tombstoneValue →
      (∀ w', put now key value w ≠ .error .fault w') →
        ∃ w', put now key value w = .ok () w' ∧ w'.lookup key = .ok value

theorem not_put_after_failures : ¬ PutServed oneByte ∧ ¬ PutServed noClose ∧ ¬ PutServed noHint ∧
    ¬ PutServed noFile := by
  have hrun : ∀ ts ∈ [oneByte, noClose, noHint, noFile],
      (faulty.exec World.empty ts).any fun w => !w.db.closed && match put 3 [3] [9] w with
      | .ok _ w' => w'.lookup [3] ≠ .ok [9]
      | .error err _ => err ≠ .fault := by decide +kernel
  have hnot : ∀ ts ∈ [oneByte, noClose, noHint, noFile], ¬ PutServed ts := by
    intro ts hts h
    obtain ⟨w, hw, hput⟩ := Option.any_eq_true _ _ |>.mp (hrun ts hts)
    rw [Bool.and_eq_true, Bool.not_eq_true'] at hput
    obtain ⟨hopen, hput⟩ := hput
    have hcalls : ∀ w', put 3 [3] [9] w ≠ .error .fault w' := by
      intro w' hfault
      simp [hfault] at hput
    obtain ⟨w', hok, hget⟩ := h w 3 [3] [9] hw hopen (by decide) (by decide) hcalls
    simp [hok, hget] at hput
  exact ⟨hnot _ (by simp), hnot _ (by simp), hnot _ (by simp), hnot _ (by simp)⟩

end KvRaft.Store
