import Mathlib.Data.List.Pairwise
import KvRaft.Lib.Numerals
import KvRaft.Store.Open

/-! The names of the files. `paths.go` writes an ID with twenty digits and reads it back from any
numeral, so every ID has one name that is written, while several are read. -/

namespace KvRaft.Store

open Std Numerals

def writerLockFileName : String := "bitcask.write.lock"

/-- What `validateLayout` takes a name for. -/
inductive NameClass
  | lock
  | tmp
  | data (fileID : Nat)
  | hint (fileID : Nat)
  | invalid
deriving DecidableEq

/-- The tests of the loop of `validateLayout`, in their order. -/
def classify (name : String) : NameClass :=
  if name = writerLockFileName then .lock
  else if hasSuffix name tmpFileSuffix then .tmp
  else if hasSuffix name dataFileExtension then
    match parseFileID name dataFileExtension with
    | some id => .data id
    | none => .invalid
  else if hasSuffix name hintFileExtension then
    match parseFileID name hintFileExtension with
    | some id => .hint id
    | none => .invalid
  else .invalid

/-- The names of the files of the directory. -/
def Disk.names (d : Disk) : List String := d.entries.map FileName.name

variable {name suffix : String} {id id' : Nat} {base : List Char}

theorem toList_padID (id : Nat) : (padID id).toList = pad 20 id := by
  rw [padID, String.toList_append, String.toList_ofList, ← String.length_toList,
    Nat.toString_eq_repr, Nat.toList_repr, pad]

/-! ### Names and their suffixes -/

theorem hasSuffix_append (name suffix : String) : hasSuffix (name ++ suffix) suffix = true := by
  simp [hasSuffix]

/-- A name ends in one way only. -/
theorem hasSuffix_other {ending : String} (h : hasSuffix ending suffix = false)
    (h' : hasSuffix suffix ending = false) : ¬ hasSuffix (name ++ ending) suffix := by
  intro hs
  have hending : ending.toList <:+ (name ++ ending).toList := by
    rw [String.toList_append]
    exact List.suffix_append _ _
  have hsuffix := List.isSuffixOf_iff_suffix.mp hs
  rcases Nat.le_total suffix.toList.length ending.toList.length with hle | hle
  · have := List.isSuffixOf_iff_suffix.mpr (List.suffix_of_suffix_length_le hsuffix hending hle)
    exact Bool.false_ne_true (h.symm.trans this)
  · have := List.isSuffixOf_iff_suffix.mpr (List.suffix_of_suffix_length_le hending hsuffix hle)
    exact Bool.false_ne_true (h'.symm.trans this)

theorem append_ne_of_hasSuffix {ending other : String} (h : hasSuffix other ending = false) :
    name ++ ending ≠ other := by
  rintro rfl
  exact Bool.false_ne_true (h.symm.trans (hasSuffix_append name ending))

theorem parseFileID_append (name suffix : String) :
    parseFileID (name ++ suffix) suffix = parseUint name.toList := by
  rw [parseFileID, if_pos (hasSuffix_append name suffix), String.toList_append,
    String.length_append, Nat.add_sub_cancel, ← String.length_toList, List.take_left]

theorem parseUint_eq_some : parseUint base = some id ↔
    base ≠ [] ∧ (∀ c ∈ base, c.isDigit) ∧ value base = id ∧ id < 2 ^ 64 := by
  rw [parseUint]
  split
  · next h =>
    have hall := List.all_eq_true.mp h.2
    change (if value base < 2 ^ 64 then some (value base) else none) = some id ↔ _
    split
    · next hlt =>
      simp only [Option.some.injEq]
      constructor
      · rintro rfl
        exact ⟨h.1, hall, rfl, hlt⟩
      · exact fun hs => hs.2.2.1
    · next hlt =>
      simp only [reduceCtorEq, false_iff]
      rintro ⟨-, -, rfl, hid⟩
      exact hlt hid
  · next h =>
    simp only [reduceCtorEq, false_iff]
    rintro ⟨hne, hall, -⟩
    exact h ⟨hne, List.all_eq_true.mpr hall⟩

/-- The names that are read as an ID: a numeral and the suffix. -/
theorem parseFileID_eq_some : parseFileID name suffix = some id ↔
    ∃ base, name = String.ofList base ++ suffix ∧ parseUint base = some id := by
  constructor
  · intro h
    have hsuffix : hasSuffix name suffix = true := by
      rw [parseFileID] at h
      split at h
      · assumption
      · cases h
    rw [hasSuffix, List.isSuffixOf_iff_suffix] at hsuffix
    obtain ⟨base, hbase⟩ := hsuffix
    have hname : name = String.ofList base ++ suffix := by
      rw [← String.toList_inj, String.toList_append, String.toList_ofList, hbase]
    rw [hname, parseFileID_append, String.toList_ofList] at h
    exact ⟨base, hname, h⟩
  · rintro ⟨base, rfl, h⟩
    rw [parseFileID_append, String.toList_ofList, h]

/-- What is written for an ID is read back. -/
theorem parseFileID_padID (h : id < 2 ^ 64) (suffix : String) :
    parseFileID (padID id ++ suffix) suffix = some id := by
  rw [parseFileID_append, toList_padID, parseUint_eq_some]
  exact ⟨pad_ne_nil, isDigit_pad, value_pad, h⟩

theorem parseFileID_dataFileName (h : id < 2 ^ 64) :
    parseFileID (dataFileName id) dataFileExtension = some id :=
  parseFileID_padID h dataFileExtension

theorem parseFileID_lt (h : parseFileID name suffix = some id) : id < 2 ^ 64 := by
  obtain ⟨base, -, hbase⟩ := parseFileID_eq_some.mp h
  exact (parseUint_eq_some.mp hbase).2.2.2

/-- Of the names that are read as an ID, the one with twenty digits is the one that is written. -/
theorem eq_padID_iff (h : parseFileID name suffix = some id) :
    name = padID id ++ suffix ↔ name.length = 20 + suffix.length := by
  obtain ⟨base, rfl, hbase⟩ := parseFileID_eq_some.mp h
  obtain ⟨-, hdigits, rfl, hlt⟩ := parseUint_eq_some.mp hbase
  have hwidth : 0 < 20 := by decide
  have hpad := eq_pad_iff hdigits hwidth (by omega)
  rw [← String.toList_inj, String.toList_append, String.toList_append, String.toList_ofList,
    toList_padID, List.append_cancel_right_eq, hpad, String.length_append, ← String.length_toList,
    String.toList_ofList]
  omega

theorem padID_append_lt_iff (h : id < 2 ^ 64) (h' : id' < 2 ^ 64) (suffix : String) :
    padID id ++ suffix < padID id' ++ suffix ↔ id < id' := by
  have hlen : (pad 20 id).length = (pad 20 id').length := by
    rw [length_pad (by omega) (by omega), length_pad (by omega) (by omega)]
  rw [String.lt_iff, String.toList_append, String.toList_append, toList_padID, toList_padID,
    append_lt_append_iff hlen, pad_lt_pad_iff (by omega) (by omega) (by omega)]

theorem dataFileName_inj (h : id < 2 ^ 64) (h' : id' < 2 ^ 64) :
    dataFileName id = dataFileName id' ↔ id = id' := by
  constructor
  · intro heq
    have hid := parseFileID_dataFileName h
    rw [heq, parseFileID_dataFileName h'] at hid
    exact (Option.some.inj hid).symm
  · rintro rfl
    rfl

/-! ### What `validateLayout` takes a name for -/

/-- The IDs fit the type of the source, and the lock is not among the other files. -/
def FileName.Proper : FileName → Prop
  | .data id | .hint id | .tmpData id | .tmpHint id => id < 2 ^ 64
  | .other name => name ≠ writerLockFileName

theorem classify_data (h : parseFileID name dataFileExtension = some id) :
    classify name = .data id := by
  obtain ⟨base, rfl, -⟩ := parseFileID_eq_some.mp h
  rw [classify, if_neg (append_ne_of_hasSuffix (by decide)),
    if_neg (hasSuffix_other (by decide) (by decide)), if_pos (hasSuffix_append _ _)]
  simp only [h]

theorem classify_eq_data_iff :
    classify name = .data id ↔ parseFileID name dataFileExtension = some id := by
  refine ⟨fun h => ?_, classify_data⟩
  cases hparse : parseFileID name dataFileExtension with
  | some id' =>
    rw [classify_data hparse] at h
    rw [NameClass.data.inj h]
  | none =>
    rw [classify, hparse] at h
    split at h
    · cases h
    · split at h
      · cases h
      · split at h
        · cases h
        · split at h
          · split at h
            · cases h
            · cases h
          · cases h

theorem classify_hint (h : parseFileID name hintFileExtension = some id) :
    classify name = .hint id := by
  obtain ⟨base, rfl, -⟩ := parseFileID_eq_some.mp h
  rw [classify, if_neg (append_ne_of_hasSuffix (by decide)),
    if_neg (hasSuffix_other (by decide) (by decide)),
    if_neg (hasSuffix_other (by decide) (by decide)), if_pos (hasSuffix_append _ _)]
  simp only [h]

theorem classify_tmp (name : String) : classify (name ++ tmpFileSuffix) = .tmp := by
  rw [classify, if_neg (append_ne_of_hasSuffix (by decide)), if_pos (hasSuffix_append _ _)]

/-- `validateEntry` treats a file as its name is read. -/
theorem validateEntry_eq (readWrite : Bool) {f : FileName} (hf : f.Proper) :
    validateEntry readWrite f =
      match classify f.name with
      | .lock | .data _ | .hint _ => return
      | .tmp => if readWrite then removeFile f else throw (.layout f.name)
      | .invalid => throw (.layout f.name) := by
  cases f with
  | data id =>
    have hname : classify (FileName.data id).name = .data id :=
      classify_data (parseFileID_padID hf dataFileExtension)
    rw [hname]
    rfl
  | hint id =>
    have hname : classify (FileName.hint id).name = .hint id :=
      classify_hint (parseFileID_padID hf hintFileExtension)
    rw [hname]
    rfl
  | tmpData id =>
    have hname : classify (FileName.tmpData id).name = .tmp := classify_tmp _
    rw [hname]
    rfl
  | tmpHint id =>
    have hname : classify (FileName.tmpHint id).name = .tmp := classify_tmp _
    rw [hname]
    rfl
  | other name =>
    have hlock : name ≠ writerLockFileName := hf
    change validateEntry readWrite (.other name) = match classify name with
      | .lock | .data _ | .hint _ => return
      | .tmp => if readWrite then removeFile (.other name) else throw (.layout name)
      | .invalid => throw (.layout name)
    rw [validateEntry, classify, if_neg hlock]
    split
    · rfl
    split
    · cases parseFileID name dataFileExtension with
      | none => rfl
      | some id => rfl
    split
    · cases parseFileID name hintFileExtension with
      | none => rfl
      | some id => rfl
    · rfl

/-! ### Listing the directory -/

theorem parseFileID_hint (id : Nat) : parseFileID (hintFileName id) dataFileExtension = none :=
  if_neg (hasSuffix_other (by decide) (by decide))

theorem parseFileID_tmp (name : String) :
    parseFileID (name ++ tmpFileSuffix) dataFileExtension = none :=
  if_neg (hasSuffix_other (by decide) (by decide))

theorem listDataFileIDs_ok {w w' : World} {ids : List Nat} (h : listDataFileIDs w = .ok ids w') :
    ids = (w.disk.other.filterMap (parseFileID · dataFileExtension)).foldr
      (List.orderedInsert (· ≤ ·)) w.disk.data.keys := by
  obtain ⟨d, db, os⟩ := w
  rcases call_cases d db os with hcall | hcall
  · simp only [listDataFileIDs, bind_apply, hcall, getDisk_apply, pure_apply] at h
    exact (EStateM.Result.ok.inj h).1.symm
  · simp only [listDataFileIDs, bind_apply, hcall] at h
    cases h

theorem foldr_orderedInsert_perm (as bs : List Nat) :
    (as.foldr (List.orderedInsert (· ≤ ·)) bs).Perm (as ++ bs) := by
  induction as with
  | nil => exact List.Perm.refl bs
  | cons a as ih => exact (List.perm_orderedInsert _ a _).trans (ih.cons a)

theorem Disk.entries_perm (d : Disk) : d.entries.Perm (d.data.keys.map FileName.data ++
    d.hint.keys.map FileName.hint ++ d.tmpData.keys.map FileName.tmpData ++
    d.tmpHint.keys.map FileName.tmpHint ++ d.other.map FileName.other) :=
  List.perm_insertionSort _ _

theorem filterMap_parseFileID {mk : Nat → FileName} {f : Nat → Option Nat} (ids : List Nat)
    (h : ∀ id ∈ ids, parseFileID (mk id).name dataFileExtension = f id) :
    (ids.map mk).filterMap (fun x => parseFileID x.name dataFileExtension) = ids.filterMap f := by
  rw [List.filterMap_map]
  exact List.filterMap_congr h

/-- `listDataFileIDs` reads every name of the directory. -/
theorem listDataFileIDs_perm {w w' : World} {ids : List Nat}
    (hids : ∀ id ∈ w.disk.data.keys, id < 2 ^ 64) (h : listDataFileIDs w = .ok ids w') :
    ids.Perm (w.disk.names.filterMap (parseFileID · dataFileExtension)) := by
  have hdata : (w.disk.data.keys.map FileName.data).filterMap
      (fun x => parseFileID x.name dataFileExtension) = w.disk.data.keys := by
    have hread : ∀ id ∈ w.disk.data.keys,
        parseFileID (FileName.data id).name dataFileExtension = some id :=
      fun id hid => parseFileID_dataFileName (hids id hid)
    rw [filterMap_parseFileID _ hread, List.filterMap_some]
  have hnone : ∀ (mk : Nat → FileName) (ids : List Nat),
      (∀ id, parseFileID (mk id).name dataFileExtension = none) →
      (ids.map mk).filterMap (fun x => parseFileID x.name dataFileExtension) = [] := by
    intro mk ids hmk
    rw [filterMap_parseFileID ids fun id _ => hmk id, List.filterMap_none]
  have hhint := hnone .hint w.disk.hint.keys parseFileID_hint
  have htmpData := hnone .tmpData w.disk.tmpData.keys fun id => parseFileID_tmp _
  have htmpHint := hnone .tmpHint w.disk.tmpHint.keys fun id => parseFileID_tmp _
  have hother : (w.disk.other.map FileName.other).filterMap
      (fun x => parseFileID x.name dataFileExtension) =
        w.disk.other.filterMap (parseFileID · dataFileExtension) := by
    rw [List.filterMap_map]
    rfl
  have hnames : (w.disk.names.filterMap (parseFileID · dataFileExtension)).Perm
      (w.disk.data.keys ++ w.disk.other.filterMap (parseFileID · dataFileExtension)) := by
    rw [Disk.names, List.filterMap_map]
    refine (w.disk.entries_perm.filterMap _).trans (List.Perm.of_eq ?_)
    change List.filterMap (fun x : FileName => parseFileID x.name dataFileExtension) _ = _
    rw [List.filterMap_append, List.filterMap_append, List.filterMap_append, List.filterMap_append,
      hdata, hhint, htmpData, htmpHint, hother, List.append_nil, List.append_nil, List.append_nil]
  rw [listDataFileIDs_ok h]
  exact (foldr_orderedInsert_perm _ _).trans (List.perm_append_comm.trans hnames.symm)

theorem filterMap_nodup {f : String → Option Nat} {names : List String} (hnodup : names.Nodup)
    (hinj : ∀ a ∈ names, ∀ b ∈ names, ∀ n, f a = some n → f b = some n → a = b) :
    (names.filterMap f).Nodup := by
  refine List.pairwise_filterMap.mpr (hnodup.imp_of_mem ?_)
  intro a b ha hb hne n hn m hm hnm
  subst hnm
  exact hne (hinj a ha b hb n hn hm)

/-- Of the names in a directory that are read as data files, each is the one that is written for its
ID exactly if no ID is listed twice or without its file. -/
theorem listed_iff {names : List String} (hnodup : names.Nodup) :
    ((names.filterMap (parseFileID · dataFileExtension)).Nodup ∧
      ∀ id ∈ names.filterMap (parseFileID · dataFileExtension), dataFileName id ∈ names) ↔
    ∀ name ∈ names, ∀ id, parseFileID name dataFileExtension = some id →
      name = dataFileName id := by
  constructor
  · rintro ⟨hids, hfiles⟩ name hname id hid
    by_contra hne
    have hfile := hfiles id (List.mem_filterMap.mpr ⟨name, hname, hid⟩)
    -- two names of the directory are read as the ID
    have hread := parseFileID_dataFileName (parseFileID_lt hid)
    let R (a b : String) := ∀ i, parseFileID a dataFileExtension = some i →
      ∀ j, parseFileID b dataFileExtension = some j → i ≠ j
    have : Std.Symm R := ⟨fun a b hab j hj i hi heq => hab i hi j hj heq.symm⟩
    have hpair : names.Pairwise R := List.pairwise_filterMap.mp hids
    exact hpair.forall hname hfile hne id hid id hread rfl
  · intro h
    refine ⟨filterMap_nodup hnodup fun a ha b hb n hn hm => ?_, fun id hid => ?_⟩
    · rw [h a ha n hn, h b hb n hm]
    · obtain ⟨name, hname, hparse⟩ := List.mem_filterMap.mp hid
      rwa [← h name hname id hparse]

/-- Every ID has its own name, which is read back and stands in the order of the IDs. A name that
`validateLayout` accepts as a data file is the one that is written for its ID exactly if it has
twenty digits; and if all data files of a directory have such names, and only then, every ID is
listed once and has its file. -/
theorem fileNames_correspond (w w' : World) (ids : List Nat) :
    (∀ id < 2 ^ 64, parseFileID (dataFileName id) dataFileExtension = some id) ∧
    (∀ id < 2 ^ 64, ∀ id' < 2 ^ 64, (dataFileName id = dataFileName id' ↔ id = id') ∧
      (dataFileName id < dataFileName id' ↔ id < id')) ∧
    (∀ name id, classify name = .data id →
      parseFileID name dataFileExtension = some id ∧
      (name = dataFileName id ↔ name.length = 25)) ∧
    (w.disk.names.Nodup → (∀ id ∈ w.disk.data.keys, id < 2 ^ 64) →
      listDataFileIDs w = .ok ids w' →
      ((ids.Nodup ∧ ∀ id ∈ ids, dataFileName id ∈ w.disk.names) ↔
        ∀ name ∈ w.disk.names, ∀ id, classify name = .data id → name.length = 25)) := by
  have hname : ∀ {name id}, parseFileID name dataFileExtension = some id →
      (name = dataFileName id ↔ name.length = 25) := fun h => eq_padID_iff h
  refine ⟨fun id h => parseFileID_dataFileName h, fun id h id' h' => ⟨dataFileName_inj h h',
    padID_append_lt_iff h h' dataFileExtension⟩, fun name id h => ?_, ?_⟩
  · have hparse := classify_eq_data_iff.mp h
    exact ⟨hparse, hname hparse⟩
  · intro hnodup hids hlist
    have hperm := listDataFileIDs_perm hids hlist
    rw [hperm.nodup_iff, show (∀ id ∈ ids, dataFileName id ∈ w.disk.names) ↔
      ∀ id ∈ w.disk.names.filterMap (parseFileID · dataFileExtension),
        dataFileName id ∈ w.disk.names by simp only [hperm.mem_iff], listed_iff hnodup]
    simp only [classify_eq_data_iff]
    exact ⟨fun h name hmem id hid => (hname hid).mp (h name hmem id hid),
      fun h name hmem id hid => (hname hid).mpr (h name hmem id hid)⟩

/-- A directory with the data files 1 and 2 under their names. -/
def padded : World := ⟨{ data := {(1, []), (2, [])} }, newDB { readWrite := true }, []⟩

theorem fileNames_correspond_padded :
    parseFileID (dataFileName (2 ^ 64 - 1)) dataFileExtension = some (2 ^ 64 - 1) ∧
    dataFileName 9 < dataFileName 10 ∧
    ∃ ids w, listDataFileIDs padded = .ok ids w ∧ ids.Nodup ∧
      ∀ id ∈ ids, dataFileName id ∈ padded.disk.names := by
  obtain ⟨hread, horder, -, hlist⟩ := fileNames_correspond padded padded [1, 2]
  refine ⟨hread _ (by decide), ((horder 9 (by decide) 10 (by decide)).2).mpr (by decide), ?_⟩
  have hnames : padded.disk.names = ["00000000000000000001.data", "00000000000000000002.data"] := by
    decide +kernel
  have hids : ∀ id ∈ padded.disk.data.keys, id < 2 ^ 64 := by decide +kernel
  refine ⟨[1, 2], padded, rfl, (hlist ?_ hids rfl).mpr ?_⟩
  · rw [hnames]
    decide
  · have hlengths : ∀ name ∈ padded.disk.names, name.length = 25 := by
      rw [hnames]
      decide
    exact fun name hname _ _ => hlengths name hname

/-- A directory with one file, whose name has one digit, and the same with the file that is written
for the ID beside it. -/
def unpadded : World := ⟨{ other := ["1.data"] }, newDB { readWrite := true }, []⟩

def unpaddedTwice : World :=
  ⟨{ data := {(1, [])}, other := ["1.data"] }, newDB { readWrite := true }, []⟩

/-- The layout of `unpadded` is accepted, and the directory cannot be opened; `unpaddedTwice` lists
its ID twice. -/
theorem not_fileNames_unpadded :
    (¬ ∀ name id, classify name = .data id → name = dataFileName id) ∧
    (validateLayout unpadded = .ok () unpadded ∧ listDataFileIDs unpadded = .ok [1] unpadded ∧
      dataFileName 1 ∉ unpadded.disk.names ∧
      ∃ w, openWithOptions { readWrite := true } unpadded = .error .notExist w) ∧
    unpaddedTwice.disk.names.Nodup ∧
      listDataFileIDs unpaddedTwice = .ok [1, 1] unpaddedTwice := by
  refine ⟨fun h => ?_, ⟨rfl, rfl, ?_, ?_⟩, ?_, rfl⟩
  · exact absurd (h "1.data" 1 (by decide +kernel)) (by decide +kernel)
  · decide +kernel
  · exact ⟨_, rfl⟩
  · decide +kernel

end KvRaft.Store
