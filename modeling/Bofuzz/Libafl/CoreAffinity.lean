import Bofuzz.Lib.Decimal
import Bofuzz.Lib.Result

/-! The list of cores on the command line (`Cores` of `libafl_bolts/src/core_affinity.rs`).

    `Lists` says which ids a list of items stands for. `fromCmdline` accepts what stands for some
    ids, except that it passes over an item of more than two parts. -/

namespace Bofuzz.CoreAffinity
open List Decimal Result

inductive Error where
  /-- A `ParseIntError`. -/
  | parse
  /-- `No cores specified! parsed: {args}`. -/
  | noCores (args : List Char)
  /-- `get_core_ids` failed. -/
  | coreIds

structure Cores where
  cmdline : List Char
  ids : List ℕ

/-- `str::parse::<usize>`. -/
def parseUsize (text : List Char) : Except Error ℕ :=
  match parseUnsigned (2 ^ 64 - 1) text with
  | some n => .ok n
  | none => .error .parse

/-- The cores that one item adds. -/
def itemCores (csv : List Char) : Except Error (List ℕ) :=
  match csv.splitOn '-' with
  | [n] => do return [← parseUsize n]
  | [low, high] => do
    let first ← parseUsize low
    let last ← parseUsize high
    return List.range' first (last + 1 - first)
  | _ => return []

def addItem (cores : List ℕ) (csv : List Char) : Except Error (List ℕ) := do
  let added ← itemCores csv
  return cores ++ added

/-- `from_cmdline`. -/
def fromCmdline (numCores : Except Error ℕ) (args : List Char) : Except Error Cores := do
  let cores ←
    if args = "all".toList then numCores.map List.range
    else (args.splitOn ',').foldlM addItem []
  if cores = [] then .error (.noCores args)
  else return ⟨args, cores⟩

/-- `From<&[usize]>`. -/
def fromIds (ids : List ℕ) : Cores := ⟨[','].intercalate (ids.map digits), ids⟩

/-- What an item stands for: a number, or the range between two numbers. -/
inductive Denotes : List Char → List ℕ → Prop
  | number {text : List Char} {n : ℕ} : parseUsize text = .ok n → Denotes text [n]
  | range {low high : List Char} {first last : ℕ} : parseUsize low = .ok first → parseUsize high = .ok last →
      Denotes (low ++ '-' :: high) (List.range' first (last + 1 - first))

/-- All items stand for ids, and these are all of them, in order. -/
def Lists (items : List (List Char)) (ids : List ℕ) : Prop :=
  ids ≠ [] ∧ ∃ groups, List.Forall₂ Denotes items groups ∧ ids = groups.flatten

/-- An item with one dash at most. -/
def Short (item : List Char) : Prop := (item.splitOn '-').length ≤ 2

instance decidableShort : DecidablePred Short := fun _ => inferInstanceAs (Decidable (_ ≤ _))

/-! ### One item -/

variable {item text args : List Char} {ids : List ℕ} {n : ℕ} {numCores : Except Error ℕ}

theorem splitOn_of_parse (h : parseUsize text = .ok n) : text.splitOn '-' = [text] := by
  refine splitOn_eq_singleton fun hdash => ?_
  unfold parseUsize at h
  split at h
  · next hparse => exact absurd (chars_of_parseUnsigned hparse '-' hdash) (by decide)
  · cases h

theorem denotes_iff : Denotes item ids ↔ Short item ∧ itemCores item = .ok ids := by
  constructor
  · intro h
    cases h with
    | number hn => simp [Short, itemCores, splitOn_of_parse hn, hn]
    | range hlow hhigh =>
      simp [Short, itemCores, splitOn_append_cons_self, splitOn_of_parse hlow, splitOn_of_parse hhigh, hlow, hhigh]
  · rintro ⟨hshort, h⟩
    have hitem : ['-'].intercalate (item.splitOn '-') = item := intercalate_splitOn '-'
    unfold Short at hshort
    unfold itemCores at h
    rcases hparts : item.splitOn '-' with _ | ⟨low, _ | ⟨high, _ | ⟨third, rest⟩⟩⟩
    · exact absurd hparts (splitOn_ne_nil _ _)
    · simp only [hparts, bind_eq_ok, pure_eq_ok] at hitem h
      obtain ⟨n, hn, rfl⟩ := h
      rw [← hitem, intercalate_singleton]
      exact .number hn
    · simp only [hparts, bind_eq_ok, pure_eq_ok] at hitem h
      obtain ⟨first, hfirst, last, hlast, rfl⟩ := h
      rw [← hitem, intercalate_cons_cons, intercalate_singleton, append_assoc]
      exact .range hfirst hlast
    · simp [hparts] at hshort

theorem itemCores_of_long (h : ¬ Short item) : itemCores item = .ok [] := by
  unfold Short at h
  unfold itemCores
  split <;> simp_all

/-! ### The whole list -/

variable {items : List (List Char)}

/-- The loop passes over the items that are not short. -/
theorem pushed_eq_ok {cores : List ℕ} : items.foldlM addItem cores = .ok ids ↔
      ∃ groups, List.Forall₂ Denotes (items.filter Short) groups ∧ ids = cores ++ groups.flatten := by
  induction items generalizing cores with
  | nil => simp [eq_comm (a := cores)]
  | cons item items ih =>
    simp only [foldlM_cons, bind_eq_ok, addItem, pure_eq_ok, ih]
    by_cases hshort : Short item
    · simp only [filter_cons, hshort, decide_true, if_true, forall₂_cons_left_iff, denotes_iff, true_and]
      constructor
      · rintro ⟨_, ⟨added, hadded, rfl⟩, groups, hgroups, rfl⟩
        exact ⟨added :: groups, ⟨added, groups, hadded, hgroups, rfl⟩, append_assoc ..⟩
      · rintro ⟨_, ⟨added, groups, hadded, hgroups, rfl⟩, rfl⟩
        exact ⟨_, ⟨added, hadded, rfl⟩, groups, hgroups, (append_assoc ..).symm⟩
    · simp [hshort, itemCores_of_long hshort]

theorem fromCmdline_eq_ok (hall : args ≠ "all".toList) {cores : Cores} :
    fromCmdline numCores args = .ok cores ↔
      cores.cmdline = args ∧ Lists ((args.splitOn ',').filter Short) cores.ids := by
  simp only [fromCmdline, if_neg hall, bind_eq_ok, pushed_eq_ok, nil_append]
  constructor
  · rintro ⟨ids, hids, h⟩
    split at h
    · cases h
    · next hne =>
      cases h
      exact ⟨rfl, hne, hids⟩
  · rintro ⟨rfl, hne, hids⟩
    exact ⟨cores.ids, hids, if_neg hne⟩

theorem lists_iff :
    Lists items ids ↔ (∀ item ∈ items, Short item) ∧ Lists (items.filter Short) ids := by
  have hfilter : ∀ h : ∀ item ∈ items, Short item, items.filter Short = items := fun h =>
    filter_eq_self.mpr fun item hitem => decide_eq_true (h item hitem)
  constructor
  · intro h
    have hshort : ∀ item ∈ items, Short item := by
      intro item hitem
      obtain ⟨group, hgroup⟩ := exists_of_forall₂ h.2.choose_spec.1 item hitem
      exact (denotes_iff.mp hgroup).1
    exact ⟨hshort, (hfilter hshort).symm ▸ h⟩
  · rintro ⟨hshort, h⟩
    exact hfilter hshort ▸ h

theorem lists_digits (hne : ids ≠ []) (hbound : ∀ id ∈ ids, id < 2 ^ 64) :
    Lists (ids.map digits) ids := by
  refine ⟨hne, ids.map ([·]), ?_, by simp [← flatMap_def]⟩
  rw [forall₂_map_left_iff, forall₂_map_right_iff, forall₂_same]
  intro id hid
  exact .number (by rw [parseUsize, parseUnsigned_digits (Nat.le_sub_one_of_lt (hbound id hid))])

/-- The list is accepted exactly if it stands for some ids, and as these, unless an item with two
    dashes is passed over; what is printed for a list of ids is read back. -/
theorem core_list_iff (numCores : Except Error ℕ) :
    (∀ args, args ≠ "all".toList → ((∀ cores, fromCmdline numCores args = .ok cores ↔
          cores.cmdline = args ∧ Lists (args.splitOn ',') cores.ids) ↔
        (∀ item ∈ args.splitOn ',', Short item) ∨ ∀ ids, ¬ Lists ((args.splitOn ',').filter Short) ids)) ∧
    ∀ ids, ids ≠ [] → (∀ id ∈ ids, id < 2 ^ 64) →
      fromCmdline numCores (fromIds ids).cmdline = .ok (fromIds ids) := by
  refine ⟨fun args hall => ?_, fun ids hne hbound => ?_⟩
  · have hlists : ∀ ids, Lists (args.splitOn ',') ids ↔ _ := fun _ => lists_iff
    simp only [fromCmdline_eq_ok hall, hlists]
    constructor
    · intro h
      by_cases hshort : ∀ item ∈ args.splitOn ',', Short item
      · exact .inl hshort
      · exact .inr fun ids hids => hshort ((h ⟨args, ids⟩).mp ⟨rfl, hids⟩).2.1
    · rintro (hshort | hnone) cores
      · rw [and_iff_right hshort]
      · simp [hnone]
  · have hsplit : (fromIds ids).cmdline.splitOn ',' = ids.map digits := by
      refine splitOn_intercalate ',' (forall_mem_map.mpr fun id _ hcomma => ?_) (by simpa using hne)
      exact absurd (isDigit_of_mem_digits hcomma) (by decide)
    have hall : (fromIds ids).cmdline ≠ "all".toList := by
      intro hall
      have hmem : "all".toList ∈ ids.map digits := by
        rw [← hsplit, hall]
        decide
      obtain ⟨id, -, hid⟩ := mem_map.mp hmem
      have hletter : 'a' ∈ digits id := by
        rw [hid]
        decide
      exact absurd (isDigit_of_mem_digits hletter) (by decide)
    rw [fromCmdline_eq_ok hall, hsplit]
    exact ⟨rfl, (lists_iff.mp (lists_digits hne hbound)).2⟩

/-- An item that is no range is passed over. -/
theorem malformed_item_ignored :
    (∃ cores, fromCmdline (.ok 1) "1,2-3-4".toList = .ok cores ∧ cores.ids = [1]) ∧
      ∀ ids, ¬ Lists ("1,2-3-4".toList.splitOn ',') ids := by
  refine ⟨⟨_, rfl, rfl⟩, fun ids h => ?_⟩
  exact absurd ((lists_iff.mp h).1 "2-3-4".toList (by decide)) (by decide)

end Bofuzz.CoreAffinity
