import Mathlib.Algebra.Order.Ring.Int
import Mathlib.Data.List.Infix
import Mathlib.Data.List.TakeDrop
import Mathlib.Logic.Function.Basic

/-! Logs whose entries carry a term, and the lineage they come from: for each term one log, written
by whoever led that term. A log is traced when each of its entries stands on the very prefix that
the leader of the entry's term had below it. Traced logs that agree on a term at a position agree
up to that position, and the truncate-and-append loop keeps logs traced. -/

namespace Lineage

variable {α : Type*}

section Prefix

variable {p q x y : List α}

theorem prefix_of_length_le (hx : x <+: p) (hy : y <+: p) (h : x.length ≤ y.length) : x <+: y :=
  List.prefix_of_prefix_length_le hx hy h

theorem prefix_take (h : x <+: y) {k : Nat} (hk : x.length ≤ k) : x <+: y.take k := by
  rw [List.prefix_iff_eq_take.mp h]
  exact List.take_prefix_take_left hk

theorem take_prefix_eq (h : x <+: y) {k : Nat} (hk : k ≤ x.length) : y.take k = x.take k := by
  obtain ⟨t, rfl⟩ := h
  rw [List.take_append_of_le_length hk]

theorem getElem_prefix_eq (h : x <+: y) {k : Nat} (hk : k < x.length) (hk' : k < y.length) :
    y[k] = x[k] := (h.getElem hk).symm

end Prefix

variable (term : α → Int)

/-- The term of the last entry, 0 for an empty log. -/
def lastTerm (log : List α) : Int := (log.getLast?.map term).getD 0

/-- The lineage `L` accounts for every entry of `log`: below and with an entry of term `t`, the
log is what the log of term `t` begins with. -/
def Traced (L : Int → List α) (log : List α) : Prop :=
  ∀ k (h : k < log.length), log.take (k + 1) <+: L (term log[k])

/-- Two logs with the same term at a position are equal up to it. -/
def Matching (x y : List α) : Prop :=
  ∀ k (hx : k < x.length) (hy : k < y.length),
    term x[k] = term y[k] → x.take (k + 1) = y.take (k + 1)

/-- Terms never decrease along the log. -/
def Sorted (log : List α) : Prop := log.Pairwise fun a b => term a ≤ term b

variable {term} {L L' : Int → List α} {log l x y : List α}

theorem lastTerm_append (log : List α) (e : α) : lastTerm term (log ++ [e]) = term e := by
  simp [lastTerm]

theorem lastTerm_eq (h : log ≠ []) : lastTerm term log = term (log.getLast h) := by
  simp [lastTerm, List.getLast?_eq_some_getLast h]

theorem lastTerm_mem (h : log ≠ []) : ∃ e ∈ log, lastTerm term log = term e :=
  ⟨log.getLast h, List.getLast_mem h, lastTerm_eq h⟩

theorem Traced.prefix_lastTerm (h : Traced term L log) (hne : log ≠ []) :
    log <+: L (lastTerm term log) := by
  have hpos : 0 < log.length := List.length_pos_iff.mpr hne
  have := h (log.length - 1) (by omega)
  rw [lastTerm_eq hne, List.getLast_eq_getElem]
  rwa [show log.length - 1 + 1 = log.length by omega, List.take_length] at this

theorem Traced.mono (h : Traced term L log) (hL : ∀ t, L t <+: L' t) : Traced term L' log :=
  fun k hk => (h k hk).trans (hL _)

theorem Traced.restrict (h : Traced term L y) (hxy : x <+: y) : Traced term L x := by
  intro k hk
  have hky : k < y.length := lt_of_lt_of_le hk hxy.length_le
  have := h k hky
  rwa [getElem_prefix_eq hxy hk hky, take_prefix_eq hxy (by omega)] at this

theorem Traced.append (h : Traced term L log) {e : α} (he : log ++ [e] <+: L (term e)) :
    Traced term L (log ++ [e]) := by
  intro k hk
  by_cases hlast : k < log.length
  · rw [List.getElem_append_left hlast, List.take_append_of_le_length (by omega)]
    exact h k hlast
  · have hk' : k = log.length := by simp at hk; omega
    subst hk'
    rw [List.take_of_length_le (by simp)]
    simpa using he

/-- Traced logs with the same term at a position are equal up to it. -/
theorem Traced.agree (hx : Traced term L x) (hy : Traced term L y) {k : Nat}
    (hkx : k < x.length) (hky : k < y.length) (ht : term x[k] = term y[k]) :
    x.take (k + 1) = y.take (k + 1) := by
  have h₁ := hx k hkx
  have h₂ := hy k hky
  rw [ht] at h₁
  have := List.prefix_of_prefix_length_le h₁ h₂ (by simp; omega)
  exact this.eq_of_length (by simp; omega)

theorem Traced.matching (hx : Traced term L x) (hy : Traced term L y) : Matching term x y :=
  fun _ hkx hky => hx.agree hy hkx hky

theorem Matching.of_extends (h : x <+: y) : Matching term x y := by
  intro k hx _ _
  exact (take_prefix_eq h hx).symm

theorem Sorted.restrict (h : Sorted term y) (hxy : x <+: y) : Sorted term x :=
  List.Pairwise.sublist hxy.sublist h

theorem Sorted.le_lastTerm (h : Sorted term log) {e : α} (he : e ∈ log) :
    term e ≤ lastTerm term log := by
  have hne : log ≠ [] := List.ne_nil_of_mem he
  rw [lastTerm_eq hne]
  obtain ⟨init, last, rfl⟩ : ∃ init last, log = init ++ [last] :=
    ⟨_, _, (List.dropLast_append_getLast hne).symm⟩
  rw [List.getLast_append_singleton]
  rcases List.mem_append.mp he with hi | hl
  · exact (List.pairwise_append.mp h).2.2 e hi last (by simp)
  · rw [List.mem_singleton.mp hl]

theorem Sorted.lastTerm_le_restrict (h : Sorted term y) (hxy : x <+: y) (hne : x ≠ []) :
    lastTerm term x ≤ lastTerm term y := by
  obtain ⟨e, he, ht⟩ : ∃ e ∈ x, lastTerm term x = term e := lastTerm_mem hne
  rw [ht]
  exact h.le_lastTerm (hxy.subset he)

theorem Sorted.append (h : Sorted term log) {e : α} (he : ∀ a ∈ log, term a ≤ term e) :
    Sorted term (log ++ [e]) := by
  refine List.pairwise_append.mpr ⟨h, List.pairwise_singleton _ _, ?_⟩
  intro a ha b hb
  simp at hb
  subst hb
  exact he a ha

section Splice

variable (term) in
/-- Writes `entries` into `log` from position `k` on: an entry whose term differs from the one in
its place cuts the log there, one that agrees is skipped. -/
def splice : List α → Nat → List α → List α
  | log, _, [] => log
  | log, k, e :: rest =>
    if h : k < log.length then
      if term log[k] ≠ term e then splice (log.take k ++ [e]) (k + 1) rest
      else splice log (k + 1) rest
    else splice (log ++ [e]) (k + 1) rest

variable {k : Nat} {entries : List α}

/-- Behind the end of the log the entries are appended. -/
theorem splice_length (log entries : List α) :
    splice term log log.length entries = log ++ entries := by
  induction entries generalizing log with
  | nil => simp [splice]
  | cons e rest ih =>
    have := ih (log ++ [e])
    rw [List.length_append, List.length_singleton, List.append_assoc] at this
    rw [splice, dif_neg (Nat.lt_irrefl _)]
    exact this

/-- The splice brings in no other entries, behind any position. -/
theorem mem_drop_splice {j : Nat} {e : α} (h : e ∈ (splice term log k entries).drop j) :
    e ∈ log.drop j ∨ e ∈ entries := by
  induction entries generalizing log k with
  | nil => exact Or.inl h
  | cons x rest ih =>
    -- a log with `x` behind some of its entries
    have hput : ∀ l : List α, l <+: log → e ∈ (l ++ [x]).drop j →
        e ∈ log.drop j ∨ e ∈ x :: rest := by
      intro l hl he
      rw [List.drop_append] at he
      rcases List.mem_append.mp he with hold | hlast
      · exact Or.inl ((hl.drop j).subset hold)
      · rw [List.mem_singleton.mp (List.mem_of_mem_drop hlast)]
        exact Or.inr List.mem_cons_self
    have hnext : ∀ l : List α, (e ∈ l.drop j → e ∈ log.drop j ∨ e ∈ x :: rest) →
        e ∈ (splice term l (k + 1) rest).drop j → e ∈ log.drop j ∨ e ∈ x :: rest := by
      intro l hl he
      exact (ih he).elim hl fun hr => Or.inr (List.mem_cons_of_mem x hr)
    unfold splice at h
    split at h
    · split at h
      · exact hnext _ (hput _ (List.take_prefix k log)) h
      · exact hnext _ Or.inl h
    · exact hnext _ (hput _ List.prefix_rfl) h

/-- The first entry stays if nothing is written in its place. -/
theorem head?_splice (hk : 0 < k) (hne : log ≠ []) :
    (splice term log k entries).head? = log.head? := by
  induction entries generalizing log k with
  | nil => rfl
  | cons e rest ih =>
    have hcut : ∀ i, 0 < i → (log.take i ++ [e]).head? = log.head? := by
      intro i hi
      rw [List.head?_append, List.head?_take, if_neg (by omega)]
      exact Option.or_of_isSome (List.isSome_head?.mpr hne)
    unfold splice
    split
    · split
      · rw [ih (by omega) (by simp), hcut k hk]
      · exact ih (by omega) hne
    · rw [ih (by omega) (by simp), ← hcut (log.length + 1) (by omega),
        List.take_of_length_le (by omega)]

/-- Splicing a piece of a log into one that matches it and agrees below the piece leaves the old
log, if that already holds the whole piece, and else exactly the source log up to the end of the
piece. -/
theorem Matching.splice_cases (hm : Matching term log l) (hk : k ≤ log.length)
    (hagree : log.take k = l.take k) (hentries : entries <+: l.drop k) :
    l.take (k + entries.length) <+: log ∧ splice term log k entries = log ∨
      ¬ l.take (k + entries.length) <+: log ∧
        splice term log k entries = l.take (k + entries.length) := by
  induction entries generalizing log k with
  | nil =>
    have : l.take k <+: log := hagree ▸ List.take_prefix k log
    simp [splice, this]
  | cons e rest ih =>
    have hlen : k < l.length := by
      have := hentries.length_le
      simp at this
      omega
    rw [List.drop_eq_getElem_cons hlen, List.cons_prefix_cons] at hentries
    obtain ⟨he, hrest⟩ := hentries
    have hnext : l.take k ++ [e] = l.take (k + 1) := by
      rw [he, List.take_append_getElem]
    have hshift : k + (e :: rest).length = k + 1 + rest.length := by simp; omega
    rw [hshift]
    have hcut : splice term (l.take (k + 1)) (k + 1) rest = l.take (k + 1 + rest.length) := by
      have hpos : (l.take (k + 1)).length = k + 1 := by simp; omega
      rcases ih (.of_extends (List.take_prefix (k + 1) l)) hpos.ge (by simp) hrest with
        ⟨h, hs⟩ | ⟨_, hs⟩
      · have hle := h.length_le
        have hr := hrest.length_le
        rw [List.length_drop] at hr
        rw [hpos, List.length_take] at hle
        have : rest.length = 0 := by omega
        rw [hs, this, Nat.add_zero]
      · exact hs
    unfold splice
    by_cases h : k < log.length
    · rw [dif_pos h]
      by_cases ht : term log[k] ≠ term e
      · rw [if_pos ht, hagree, hnext, hcut]
        refine Or.inr ⟨fun hp => ht ?_, rfl⟩
        have hk' : k < (l.take (k + 1 + rest.length)).length := by simp; omega
        have := getElem_prefix_eq hp hk' h
        rw [List.getElem_take, ← he] at this
        rw [this]
      · rw [if_neg ht]
        have hstep : log.take (k + 1) = l.take (k + 1) :=
          hm k h hlen (by rw [← he]; exact not_not.mp ht)
        exact ih hm (by omega) hstep hrest
    · rw [dif_neg h]
      have hend : log = l.take k := by
        rw [← hagree, List.take_of_length_le (by omega)]
      rw [hend, hnext, hcut]
      refine Or.inr ⟨fun hp => ?_, rfl⟩
      have := hp.length_le
      simp at this
      omega

/-- After the splice the log begins with the source log up to the end of the piece. -/
theorem Matching.take_prefix_splice (hm : Matching term log l) (hk : k ≤ log.length)
    (hagree : log.take k = l.take k) (hentries : entries <+: l.drop k) :
    l.take (k + entries.length) <+: splice term log k entries := by
  rcases hm.splice_cases hk hagree hentries with ⟨h, hs⟩ | ⟨_, hs⟩
  · rw [hs]; exact h
  · rw [hs]

/-- A common prefix of the log and the source log survives the splice. -/
theorem Matching.prefix_splice (hm : Matching term log l) (hk : k ≤ log.length)
    (hagree : log.take k = l.take k) (hentries : entries <+: l.drop k) {p : List α}
    (hp : p <+: log) (hpl : p <+: l) : p <+: splice term log k entries := by
  rcases hm.splice_cases hk hagree hentries with ⟨_, hs⟩ | ⟨h, hs⟩
  · rw [hs]; exact hp
  · rw [hs]
    refine prefix_of_length_le hpl (List.take_prefix _ _) ?_
    by_contra hlt
    exact h ((prefix_of_length_le (List.take_prefix _ _) hpl (by omega)).trans hp)

end Splice

/-- A log at least as up to date as one that begins with `c` begins with `c` too, when every log of
the lineage from the term of `c` on does. -/
theorem prefix_of_upToDate (hy : Traced term L y)
    (hsx : Sorted term x) {c : List α} (hc : c ≠ []) (hsc : Sorted term c) (hcx : c <+: x)
    (hyne : y ≠ []) (hlater : ∀ t, lastTerm term c ≤ t → L t ≠ [] → c <+: L t)
    (hup : lastTerm term x < lastTerm term y ∨
      lastTerm term x = lastTerm term y ∧ x.length ≤ y.length) : c <+: y := by
  have hcx' : lastTerm term c ≤ lastTerm term x := hsx.lastTerm_le_restrict hcx hc
  have hyL := hy.prefix_lastTerm hyne
  have hcL : c <+: L (lastTerm term y) := by
    refine hlater _ (by omega) fun h => hyne ?_
    simpa [h] using hyL
  refine prefix_of_length_le hcL hyL ?_
  by_contra hlt
  have hyc : y <+: c := prefix_of_length_le hyL hcL (by omega)
  have hle := hsc.lastTerm_le_restrict hyc hyne
  rcases hup with h | ⟨_, h⟩
  · omega
  · have := hcx.length_le
    omega

section Common

variable [DecidableEq α]

/-- The length of the longest common prefix. -/
def commonLength : List α → List α → Nat
  | a :: x, b :: y => if a = b then commonLength x y + 1 else 0
  | _, _ => 0

theorem le_commonLength {k : Nat} (hx : k ≤ x.length) (hy : k ≤ y.length) :
    k ≤ commonLength x y ↔ x.take k = y.take k := by
  induction x generalizing y k with
  | nil =>
    obtain rfl : k = 0 := by simpa using hx
    simp
  | cons a x ih =>
    cases y with
    | nil =>
      obtain rfl : k = 0 := by simpa using hy
      simp
    | cons b y =>
      cases k with
      | zero => simp
      | succ k =>
        rw [commonLength, List.take_succ_cons, List.take_succ_cons, List.cons.injEq]
        split
        · next hab =>
          rw [Nat.add_le_add_iff_right, ih (by simpa using hx) (by simpa using hy)]
          exact (and_iff_right hab).symm
        · next hab => simp [hab]

theorem commonLength_le_left (x y : List α) : commonLength x y ≤ x.length := by
  induction x generalizing y with
  | nil => simp [commonLength]
  | cons a x ih =>
    cases y with
    | nil => simp [commonLength]
    | cons b y =>
      rw [commonLength]
      split
      · exact Nat.succ_le_succ (ih y)
      · exact Nat.zero_le _

theorem commonLength_le_right (x y : List α) : commonLength x y ≤ y.length := by
  induction x generalizing y with
  | nil => simp [commonLength]
  | cons a x ih =>
    cases y with
    | nil => simp [commonLength]
    | cons b y =>
      rw [commonLength]
      split
      · exact Nat.succ_le_succ (ih y)
      · exact Nat.zero_le _

/-- A log that keeps every common prefix with `y` shares no less with it. -/
theorem commonLength_mono {x' : List α} (h : ∀ p, p <+: x → p <+: y → p <+: x') :
    commonLength x y ≤ commonLength x' y := by
  have hx := commonLength_le_left x y
  have hy := commonLength_le_right x y
  have hp : x.take (commonLength x y) = y.take (commonLength x y) :=
    (le_commonLength hx hy).mp (Nat.le_refl _)
  have hx' := h _ (List.take_prefix (commonLength x y) x) (hp ▸ List.take_prefix _ _)
  have hlen := hx'.length_le
  rw [List.length_take, Nat.min_eq_left hx] at hlen
  rw [le_commonLength hlen hy, ← hp]
  have := take_prefix_eq hx' (k := commonLength x y) (by simp [hx])
  rw [this, List.take_take, Nat.min_self]

end Common

end Lineage
