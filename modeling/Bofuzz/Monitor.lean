import Bofuzz.Config
import Bofuzz.Lib.Decimal

/-! The line that the accounting stage fires and the monitor reads
    (`feature_sched/accounting_stage.rs`, `custom_monitor.rs`).

    The stage writes fields `key=value` separated by commas; the monitor cuts the line at its
    commas. The weight vector is a value with commas of its own, and the weight is written under
    another key than the monitor looks for: `features_info_decodes_iff` says which lines survive. -/

namespace Bofuzz
open Text Decimal List

/-! ### The writer -/

def boolText (b : Bool) : List Char := (if b then "true" else "false").toList

/-- The name of a mode in debug output. -/
def modeText : WeightComputeMode → List Char
  | .frontier => "Frontier".toList
  | .path => "Path".toList

def fmtVecShort (v : List Exact) (maxn : ℕ) : List Char :=
  let take := min v.length maxn
  let s := [','].intercalate ((v.take take).map (fixedText 3))
  let s := if v.length > take then s ++ ",...".toList else s
  '[' :: s ++ "](len=".toList ++ digits v.length ++ [')']

/-- What the stage has at hand when it builds the line. -/
structure FeaturesSummary where
  enabled : Bool
  active : Bool
  featMode : UInt8
  featExists : Bool
  mode : WeightComputeMode
  params : FactorParams Exact
  activeDim : UInt64
  vCandidatesLen : UInt64
  vNow : List Exact
  feat0 : Exact
  weight : Exact
  factor : Exact

namespace FeaturesSummary

variable (e : FeaturesSummary)

def vStr : List Char := fmtVecShort e.vNow e.activeDim.toNat

/-- The keys and values before the vector. -/
def leading : List (String × List Char) :=
  [("enabled", boolText e.enabled), ("active", boolText e.active),
    ("feat_mode", digits e.featMode.toNat), ("feat_exists", boolText e.featExists),
    ("mode", modeText e.mode), ("alpha", fixedText 2 e.params.alpha),
    ("beta", fixedText 2 e.params.beta), ("gmin", fixedText 2 e.params.gmin),
    ("gmax", fixedText 2 e.params.gmax), ("use_tanh", boolText e.params.useTanh),
    ("active_dim", digits e.activeDim.toNat), ("v_candidates_len", digits e.vCandidatesLen.toNat)]

/-- The keys and values after the vector. -/
def trailing : List (String × List Char) :=
  [("simplex_sum", fixedText 6 (F64.sum e.vNow)), ("feat0", fixedText 3 e.feat0),
    ("weight", fixedText 3 e.weight), ("factor", fixedText 3 e.factor)]

def fields : List (String × List Char) :=
  e.leading ++ ("current_v", e.vStr) :: e.trailing

end FeaturesSummary

/-- `{key}={value}`. -/
def fieldText (field : String × List Char) : List Char := field.1.toList ++ '=' :: field.2

/-- The line: all fields, separated by a comma and a blank. -/
def FeaturesSummary.text (e : FeaturesSummary) : List Char :=
  [',', ' '].intercalate (e.fields.map fieldText)

/-! ### The reader -/

structure FeaturesInfo where
  enabled : Bool := false
  active : Bool := false
  featExists : Bool := false
  featMode : ℕ := 0
  alpha : Exact := .fin 0
  beta : Exact := .fin 0
  gmin : Exact := .fin 0
  gmax : Exact := .fin 0
  useTanh : Bool := false
  activeDim : ℕ := 0
  vCandidatesLen : ℕ := 0
  currentV : List Char := []
  feat0 : Exact := .fin 0
  pathW : Exact := .fin 0
  factor : Exact := .fin 0
  deriving DecidableEq

variable (s : List Char)

def stripPrefixBracket : Option (List Char) :=
  match s with
  | [] => none
  | c :: _ =>
    if c ≠ '[' then some s
    else
      match s.dropWhile (· ≠ ']') with
      | [] => none
      | _ :: rest => some (rest.dropWhile isWhitespace)

def splitKv (seg : List Char) : Option (List Char × List Char) :=
  match seg.dropWhile (· ≠ '=') with
  | [] => none
  | _ :: value => some (trim (seg.takeWhile (· ≠ '=')), trim value)

def parseBool : Bool :=
  ["1", "true", "True", "TRUE", "yes", "Yes", "on", "On"].any fun accepted => s = accepted.toList

def parseNum : Exact := (parseF64 (s.reverse.dropWhile (· = '%')).reverse).getD .nan

/-- `v.parse().ok().unwrap_or(0)` at `u64`. -/
def parseU64 : ℕ := (parseUnsigned (2 ^ 64 - 1) s).getD 0

/-- The keys that the monitor knows. -/
inductive FeaturesKey where
  | enabled | active | featExists | featMode | alpha | beta | gmin | gmax | useTanh | activeDim
  | vCandidatesLen | currentV | feat0 | pathW | factor
  deriving DecidableEq

namespace FeaturesKey

def name : FeaturesKey → String
  | enabled => "enabled"
  | active => "active"
  | featExists => "feat_exists"
  | featMode => "feat_mode"
  | alpha => "alpha"
  | beta => "beta"
  | gmin => "gmin"
  | gmax => "gmax"
  | useTanh => "use_tanh"
  | activeDim => "active_dim"
  | vCandidatesLen => "v_candidates_len"
  | currentV => "current_v"
  | feat0 => "feat0"
  | pathW => "path_w"
  | factor => "factor"

def all : List FeaturesKey :=
  [enabled, active, featExists, featMode, alpha, beta, gmin, gmax, useTanh, activeDim, vCandidatesLen,
    currentV, feat0, pathW, factor]

def ofText (k : List Char) : Option FeaturesKey := all.find? fun key => k = key.name.toList

end FeaturesKey

variable (out : FeaturesInfo)

/-- One arm of the `match`; a key that is not known changes nothing. -/
def FeaturesInfo.set (v : List Char) : Option FeaturesKey → FeaturesInfo
  | some .enabled => { out with enabled := parseBool v }
  | some .active => { out with active := parseBool v }
  | some .featExists => { out with featExists := parseBool v }
  | some .featMode => { out with featMode := parseU64 v }
  | some .alpha => { out with alpha := parseNum v }
  | some .beta => { out with beta := parseNum v }
  | some .gmin => { out with gmin := parseNum v }
  | some .gmax => { out with gmax := parseNum v }
  | some .useTanh => { out with useTanh := parseBool v }
  | some .activeDim => { out with activeDim := parseU64 v }
  | some .vCandidatesLen => { out with vCandidatesLen := parseU64 v }
  | some .currentV => { out with currentV := v }
  | some .feat0 => { out with feat0 := parseNum v }
  | some .pathW => { out with pathW := parseNum v }
  | some .factor => { out with factor := parseNum v }
  | none => out

def FeaturesInfo.assign (k v : List Char) : FeaturesInfo :=
  out.set v (FeaturesKey.ofText k)

def parseFeaturesInfo : Option FeaturesInfo := do
  let kvPart ← stripPrefixBracket s
  (kvPart.splitOn ',').foldlM (fun out seg => do
    let kv ← splitKv (trim seg)
    pure (out.assign kv.1 kv.2)) {}

/-! ### Pairs of a line -/

/-- The keys and values of a line. -/
def pairs : Option (List (List Char × List Char)) :=
  (s.splitOn ',').mapM fun seg => splitKv (trim seg)

theorem foldlM_assign (segs : List (List Char)) (out : FeaturesInfo) :
    segs.foldlM (fun out seg => do
        let kv ← splitKv (trim seg)
        pure (FeaturesInfo.assign out kv.1 kv.2)) out =
      (segs.mapM fun seg => splitKv (trim seg)).map fun kvs =>
        kvs.foldl (fun out kv => FeaturesInfo.assign out kv.1 kv.2) out := by
  induction segs generalizing out with
  | nil => rfl
  | cons seg segs ih =>
    rw [foldlM_cons, mapM_cons]
    cases splitKv (trim seg) with
    | none => rfl
    | some kv =>
      change segs.foldlM _ (out.assign kv.1 kv.2) = _
      rw [ih]
      cases segs.mapM fun seg => splitKv (trim seg) <;> rfl

theorem parseFeaturesInfo_eq {s : List Char} (hne : s ≠ []) (hbracket : s.head? ≠ some '[') :
    parseFeaturesInfo s = (pairs s).map fun kvs =>
      kvs.foldl (fun out kv => FeaturesInfo.assign out kv.1 kv.2) {} := by
  obtain ⟨c, cs, rfl⟩ := exists_cons_of_ne_nil hne
  have hstrip : stripPrefixBracket (c :: cs) = some (c :: cs) := by
    rw [stripPrefixBracket, if_pos (by simpa using hbracket)]
  rw [parseFeaturesInfo, hstrip]
  exact foldlM_assign _ _

theorem pairs_append (a b : List Char) : pairs (a ++ ',' :: b) =
    (pairs a).bind fun as => (pairs b).map fun bs => as ++ bs := by
  rw [pairs, splitOn_append_cons_self, mapM_append]
  congr 1
  funext as
  cases h : pairs b <;> rw [pairs] at h <;> rw [h] <;> rfl

theorem trim_cons_blank (cs : List Char) : trim (' ' :: cs) = trim cs := by
  rw [trim, dropWhile_cons_of_pos (by decide)]
  rfl

theorem pairs_cons_blank : pairs (' ' :: s) = pairs s := by
  rw [pairs, pairs, splitOn_cons_eq_if_modifyHead, if_neg (by decide)]
  obtain ⟨seg, segs, h⟩ := exists_cons_of_ne_nil (splitOn_ne_nil ',' s)
  rw [h, modifyHead_cons, mapM_cons, mapM_cons, trim_cons_blank]

theorem pairs_joined {fs : List (List Char)} (hne : fs ≠ []) :
    pairs ([',', ' '].intercalate fs) = (fs.mapM pairs).map List.flatten := by
  induction fs with
  | nil => exact absurd rfl hne
  | cons f fs ih =>
    rw [mapM_cons]
    obtain rfl | hfs := eq_or_ne fs []
    · rw [intercalate_singleton]
      cases pairs f <;> simp
    rw [intercalate_cons_of_ne_nil hfs, append_assoc]
    change pairs (f ++ ',' :: ' ' :: [',', ' '].intercalate fs) = _
    rw [pairs_append, pairs_cons_blank, ih hfs]
    cases pairs f with
    | none => rfl
    | some as => cases fs.mapM pairs <;> rfl

/-! ### Plain fields -/

/-- A key of the line. -/
def PlainKey (k : List Char) : Prop :=
  k ≠ [] ∧ ∀ c ∈ k, isWhitespace c = false ∧ c ≠ '=' ∧ c ≠ ','

/-- A value without blanks and commas. -/
def PlainValue (v : List Char) : Prop := v ≠ [] ∧ ∀ c ∈ v, isWhitespace c = false ∧ c ≠ ','

variable {cs : List Char}

theorem trim_solid (hne : cs ≠ []) (hsolid : ∀ c ∈ cs, isWhitespace c = false) : trim cs = cs :=
  strip_eq_self hne (fun c hc => hsolid c (mem_of_mem_head? hc))
    fun c hc => hsolid c (mem_of_mem_getLast? hc)

variable {k v : List Char}

theorem splitKv_plain (hk : PlainKey k) (hv : PlainValue v) :
    splitKv (k ++ '=' :: v) = some (k, v) := by
  have hkey : ∀ c ∈ k, decide (c ≠ '=') = true := fun c hc => decide_eq_true (hk.2 c hc).2.1
  have hdrop : (k ++ '=' :: v).dropWhile (· ≠ '=') = '=' :: v := by
    rw [dropWhile_append_of_pos hkey, dropWhile_cons_of_neg (by decide)]
  have htake : (k ++ '=' :: v).takeWhile (· ≠ '=') = k := by
    rw [takeWhile_append_of_pos hkey, takeWhile_cons_of_neg (by decide), append_nil]
  rw [splitKv, hdrop, htake, trim_solid hk.1 fun c hc => (hk.2 c hc).1]
  change some (k, trim v) = _
  rw [trim_solid hv.1 fun c hc => (hv.2 c hc).1]

theorem splitKv_none (h : '=' ∉ cs) : splitKv cs = none := by
  have hdrop : cs.dropWhile (· ≠ '=') = [] := by
    rw [dropWhile_eq_nil_iff]
    intro c hc
    exact decide_eq_true fun heq => h (heq ▸ hc)
  rw [splitKv, hdrop]

theorem plain_solid (hk : PlainKey k) (hv : PlainValue v) :
    ∀ c ∈ k ++ '=' :: v, isWhitespace c = false ∧ c ≠ ',' :=
  forall_mem_append.mpr ⟨fun c hc => ⟨(hk.2 c hc).1, (hk.2 c hc).2.2⟩, forall_mem_cons.mpr ⟨by decide, hv.2⟩⟩

theorem pairs_plain (hk : PlainKey k) (hv : PlainValue v) :
    pairs (k ++ '=' :: v) = some [(k, v)] := by
  have hsolid := plain_solid hk hv
  rw [pairs, splitOn_eq_singleton fun hcomma => (hsolid ',' hcomma).2 rfl, mapM_cons,
    trim_solid (by simp) fun c hc => (hsolid c hc).1, splitKv_plain hk hv]
  rfl

theorem pairs_none (hcomma : ',' ∉ cs) (heq : '=' ∉ cs) : pairs cs = none := by
  have htrim : '=' ∉ trim cs := by
    obtain ⟨before, after, -, -, h⟩ := exists_padding (p := isWhitespace) cs
    intro hmem
    apply heq
    rw [h]
    exact mem_append_left _ (mem_append_right _ hmem)
  rw [pairs, splitOn_eq_singleton hcomma, mapM_cons, splitKv_none htrim]
  rfl

/-! ### Values -/

theorem plainValue_boolText (b : Bool) : PlainValue (boolText b) := by
  unfold PlainValue boolText
  cases b <;> simp [isWhitespace]

theorem plainValue_modeText (mode : WeightComputeMode) : PlainValue (modeText mode) := by
  cases mode <;>
    · unfold PlainValue modeText
      simp [isWhitespace]

theorem isNumberChar_solid {c : Char} (h : isNumberChar c = true) :
    isWhitespace c = false ∧ c ≠ ',' ∧ c ≠ '=' ∧ c ≠ '%' ∧ c ≠ ']' := by
  have hcases : c.isDigit = true ∨ c ∈ ['.', '-', 'N', 'a', 'i', 'n', 'f'] := by
    simpa [isNumberChar] using h
  obtain hdigit | hmem := hcases
  · have hrange := isDigit_toNat hdigit
    have hspace : isWhitespace c = false := by
      simp only [isWhitespace, Bool.or_eq_false_iff, Bool.and_eq_false_iff, decide_eq_false_iff_not,
        beq_eq_false_iff_ne]
      omega
    refine ⟨hspace, ?_, ?_, ?_, ?_⟩ <;>
      · rintro rfl
        exact absurd hdigit (by decide)
  · have hall : ∀ c ∈ ['.', '-', 'N', 'a', 'i', 'n', 'f'],
        isWhitespace c = false ∧ c ≠ ',' ∧ c ≠ '=' ∧ c ≠ '%' ∧ c ≠ ']' := by simp [isWhitespace]
    exact hall c hmem

variable (n : ℕ)

theorem isNumberChar_digits : ∀ c ∈ digits n, isNumberChar c = true := by
  intro c hc
  rw [isNumberChar, isDigit_of_mem_digits hc, Bool.true_or]

theorem plainValue_of_number {v : List Char} (hne : v ≠ []) (h : ∀ c ∈ v, isNumberChar c = true) :
    PlainValue v :=
  ⟨hne, fun c hc => ⟨(isNumberChar_solid (h c hc)).1, (isNumberChar_solid (h c hc)).2.1⟩⟩

theorem plainValue_digits : PlainValue (digits n) :=
  plainValue_of_number (digits_ne_nil n) (isNumberChar_digits n)

theorem plainValue_fixedText (places : ℕ) (x : Exact) : PlainValue (fixedText places x) :=
  plainValue_of_number (fixedText_ne_nil places x) (isNumberChar_fixedText places x)

theorem parseBool_boolText (b : Bool) : parseBool (boolText b) = b := by
  unfold parseBool boolText
  cases b <;> simp

theorem parseU64_digits {n : ℕ} (h : n < 2 ^ 64) : parseU64 (digits n) = n := by
  rw [parseU64, parseUnsigned_digits (Nat.le_sub_one_of_lt h)]
  rfl

theorem parseNum_fixedText {places : ℕ} (hplaces : 0 < places) (x : Exact) :
    parseNum (fixedText places x) = atPlaces places x := by
  have hpercent : (fixedText places x).reverse.dropWhile (· = '%') = (fixedText places x).reverse := by
    obtain ⟨c, cs, h⟩ := exists_cons_of_ne_nil
      (reverse_ne_nil_iff.mpr (fixedText_ne_nil places x))
    have hc : c ∈ fixedText places x := mem_reverse.mp (h ▸ mem_cons_self)
    have hne := (isNumberChar_solid (isNumberChar_fixedText places x c hc)).2.2.2.1
    rw [h, dropWhile_cons_of_neg (by simpa using hne)]
  rw [parseNum, hpercent, reverse_reverse, parseF64_fixedText hplaces]
  rfl

/-! ### The vector -/

/-- The pieces of the vector's text between its commas. -/
def vecPieces (v : List Exact) (maxn : ℕ) : List (List Char) :=
  (if min v.length maxn = 0 then [[]] else (v.take (min v.length maxn)).map (fixedText 3)) ++
    if v.length > min v.length maxn then ["...".toList] else []

/-- What follows the entries. -/
def vecTail : List Char := "](len=".toList ++ digits n ++ [')']

variable (v : List Exact) (maxn : ℕ)

theorem length_vecPieces : (vecPieces v maxn).length =
    (if min v.length maxn = 0 then 1 else min v.length maxn) +
      if v.length > min v.length maxn then 1 else 0 := by
  unfold vecPieces
  rw [length_append]
  split_ifs <;> simp

theorem length_vecPieces_eq_one :
    (vecPieces v maxn).length = 1 ↔ v.length ≤ 1 ∧ v.length ≤ maxn := by
  rw [length_vecPieces]
  split_ifs <;> omega

theorem vecPieces_ne_nil : vecPieces v maxn ≠ [] := by
  intro h
  have hlength := length_vecPieces v maxn
  rw [h] at hlength
  split_ifs at hlength <;> simp at hlength
  omega

theorem fmtVecShort_eq :
    fmtVecShort v maxn = '[' :: ([','].intercalate (vecPieces v maxn) ++ vecTail v.length) := by
  obtain ⟨base, hbase⟩ : ∃ base, base = if min v.length maxn = 0 then [[]]
    else (v.take (min v.length maxn)).map (fixedText 3) := ⟨_, rfl⟩
  -- no entry and one empty piece have the same text
  have hempty : [','].intercalate ((v.take (min v.length maxn)).map (fixedText 3)) = [','].intercalate base := by
    rw [hbase]
    split_ifs with hzero
    · rw [hzero]
      rfl
    · rfl
  have hne : base ≠ [] := by
    rw [hbase]
    split_ifs with hzero
    · simp
    simp only [ne_eq, map_eq_nil_iff, take_eq_nil_iff]
    rintro (h | rfl)
    · exact hzero h
    · exact hzero (by simp)
  have hbody : [','].intercalate (vecPieces v maxn) = if v.length > min v.length maxn then
      [','].intercalate base ++ ",...".toList else [','].intercalate base := by
    unfold vecPieces
    rw [← hbase]
    split_ifs with hmore
    · rw [intercalate_concat hne]
      simp only [String.reduceToList, append_assoc, cons_append, nil_append]
    · rw [append_nil]
  rw [hbody, ← hempty]
  unfold fmtVecShort vecTail
  simp only [append_assoc, cons_append]

theorem vecPieces_chars : ∀ piece ∈ vecPieces v maxn, ∀ c ∈ piece,
    isWhitespace c = false ∧ c ≠ ',' ∧ c ≠ '=' ∧ c ≠ '%' ∧ c ≠ ']' := by
  intro piece hpiece c hc
  apply isNumberChar_solid
  unfold vecPieces at hpiece
  rw [mem_append] at hpiece
  obtain hpiece | hpiece := hpiece
  · split_ifs at hpiece
    · rw [mem_singleton.mp hpiece] at hc
      cases hc
    · obtain ⟨x, -, rfl⟩ := mem_map.mp hpiece
      exact isNumberChar_fixedText 3 x c hc
  · have hdots : ∀ c ∈ "...".toList, isNumberChar c = true := by simp [isNumberChar]
    split_ifs at hpiece
    · exact hdots c (mem_singleton.mp hpiece ▸ hc)
    · cases hpiece

theorem vecTail_eq : vecTail n = "](len".toList ++ '=' :: (digits n ++ [')']) := by
  unfold vecTail
  simp only [String.reduceToList, cons_append, nil_append]

theorem lenKey_chars : ∀ c ∈ "](len".toList, isWhitespace c = false ∧ c ≠ '=' ∧ c ≠ ',' := by
  simp [isWhitespace]

theorem plainValue_close : PlainValue (digits n ++ [')']) :=
  ⟨by simp, forall_mem_append.mpr ⟨(plainValue_digits n).2, forall_mem_singleton.mpr (by decide)⟩⟩

theorem vecTail_chars : ∀ c ∈ vecTail n, isWhitespace c = false ∧ c ≠ ',' := by
  rw [vecTail_eq]
  exact plain_solid ⟨by simp, lenKey_chars⟩ (plainValue_close n)

/-- The keys of a line: those before the vector, the vector's, and those behind. -/
def leadingKeys : List String :=
  ["enabled", "active", "feat_mode", "feat_exists", "mode", "alpha", "beta", "gmin", "gmax", "use_tanh",
    "active_dim", "v_candidates_len"]

def trailingKeys : List String := ["simplex_sum", "feat0", "weight", "factor"]

theorem plainKey_names : ∀ k ∈ leadingKeys ++ "current_v" :: trailingKeys, PlainKey k.toList := by
  intro k hk
  -- as a check by `all`: the characters are not searched through
  have hall : ∀ k ∈ leadingKeys ++ "current_v" :: trailingKeys,
      k.toList ≠ [] ∧ k.toList.all (fun c => !isWhitespace c && c != '=' && c != ',') = true := by
    decide +kernel
  refine ⟨(hall k hk).1, fun c hc => ?_⟩
  simpa [and_assoc] using all_eq_true.mp (hall k hk).2 c hc

theorem plainKey_currentV : PlainKey "current_v".toList := plainKey_names "current_v" (by simp)

section
variable {v : List Exact} {maxn : ℕ} {e f g : List Char} {more : List (List Char)}

theorem plainValue_open (he : ∀ c ∈ e, isWhitespace c = false ∧ c ≠ ',') : PlainValue ('[' :: e) :=
  ⟨by simp, forall_mem_cons.mpr ⟨by decide, he⟩⟩

/-- A vector in one piece is read as it was written. -/
theorem pairs_vec_single (h : vecPieces v maxn = [e]) :
    pairs (fieldText ("current_v", fmtVecShort v maxn)) =
      some [("current_v".toList, fmtVecShort v maxn)] := by
  refine pairs_plain plainKey_currentV ?_
  have he := vecPieces_chars v maxn e (by simp [h])
  rw [fmtVecShort_eq, h, intercalate_singleton]
  exact plainValue_open (forall_mem_append.mpr ⟨fun c hc => ⟨(he c hc).1, (he c hc).2.1⟩, vecTail_chars _⟩)

/-- The text of a vector with a comma in it: the first piece, and the rest. -/
theorem pairs_vec_cons (h : vecPieces v maxn = e :: f :: more) :
    pairs (fieldText ("current_v", fmtVecShort v maxn)) =
      (pairs ([','].intercalate (f :: more) ++ vecTail v.length)).map fun kvs =>
        ("current_v".toList, '[' :: e) :: kvs := by
  have he := vecPieces_chars v maxn e (by simp [h])
  have hsplit : fieldText ("current_v", fmtVecShort v maxn) =
      ("current_v".toList ++ '=' :: '[' :: e) ++ ',' :: ([','].intercalate (f :: more) ++ vecTail v.length) := by
    rw [fieldText, fmtVecShort_eq, h, intercalate_cons_of_ne_nil (cons_ne_nil f more)]
    simp only [append_assoc, cons_append, nil_append]
  rw [hsplit, pairs_append,
    pairs_plain plainKey_currentV (plainValue_open fun c hc => ⟨(he c hc).1, (he c hc).2.1⟩)]
  rfl

/-- The last piece is read as a pair of its own. -/
theorem pairs_vec_pair (h : vecPieces v maxn = [e, f]) :
    pairs (fieldText ("current_v", fmtVecShort v maxn)) =
      some [("current_v".toList, '[' :: e), (f ++ "](len".toList, digits v.length ++ [')'])] := by
  have hf := vecPieces_chars v maxn f (by simp [h])
  have hkey : PlainKey (f ++ "](len".toList) :=
    ⟨by simp, forall_mem_append.mpr ⟨fun c hc => ⟨(hf c hc).1, (hf c hc).2.2.1, (hf c hc).2.1⟩, lenKey_chars⟩⟩
  rw [pairs_vec_cons h, intercalate_singleton, vecTail_eq, ← append_assoc,
    pairs_plain hkey (plainValue_close _)]
  rfl

/-- A piece in the middle is no pair. -/
theorem pairs_vec_more (h : vecPieces v maxn = e :: f :: g :: more) :
    pairs (fieldText ("current_v", fmtVecShort v maxn)) = none := by
  have hf := vecPieces_chars v maxn f (by simp [h])
  have hnone : pairs f = none :=
    pairs_none (fun hc => (hf ',' hc).2.1 rfl) fun hc => (hf '=' hc).2.2.1 rfl
  rw [pairs_vec_cons h, intercalate_cons_of_ne_nil (cons_ne_nil g more), append_assoc,
    append_assoc, singleton_append, pairs_append, hnone]
  rfl

end

/-! ### The line -/

/-- The keys and values of fields. -/
def pairsOf (fields : List (String × List Char)) : List (List Char × List Char) :=
  fields.map fun field => (field.1.toList, field.2)

theorem mapM_plain {fields : List (String × List Char)}
    (h : ∀ field ∈ fields, PlainKey field.1.toList ∧ PlainValue field.2) :
    (fields.map fieldText).mapM pairs = some ((pairsOf fields).map fun kv => [kv]) := by
  induction fields with
  | nil => rfl
  | cons field fields ih =>
    obtain ⟨hfield, hfields⟩ := forall_mem_cons.mp h
    rw [map_cons, mapM_cons, fieldText, pairs_plain hfield.1 hfield.2, ih hfields]
    rfl

/-- A field with a value of its own kind stands between plain fields. -/
theorem pairs_between {before after : List (String × List Char)} {field : List Char}
    (hbefore : ∀ f ∈ before, PlainKey f.1.toList ∧ PlainValue f.2)
    (hafter : ∀ f ∈ after, PlainKey f.1.toList ∧ PlainValue f.2) :
    pairs ([',', ' '].intercalate (before.map fieldText ++ field :: after.map fieldText)) =
      (pairs field).map fun kvs => pairsOf before ++ kvs ++ pairsOf after := by
  have hflat : ∀ kvs : List (List Char × List Char), (kvs.map fun kv => [kv]).flatten = kvs := by
    intro kvs
    rw [← flatMap_def, flatMap_singleton']
  rw [pairs_joined (by simp), mapM_append, mapM_plain hbefore, mapM_cons, mapM_plain hafter]
  cases pairs field with
  | none => rfl
  | some kvs =>
    change some (List.flatten _) = some _
    rw [flatten_append, flatten_cons, hflat, hflat, ← append_assoc]

namespace FeaturesSummary
variable (e : FeaturesSummary)

theorem leading_plain : ∀ field ∈ e.leading, PlainKey field.1.toList ∧ PlainValue field.2 := by
  intro field hfield
  refine ⟨plainKey_names field.1 (mem_append_left _ (mem_map_of_mem hfield)), ?_⟩
  simp only [leading, mem_cons, not_mem_nil, or_false] at hfield
  rcases hfield with rfl | rfl | rfl | rfl | rfl | rfl | rfl | rfl | rfl | rfl | rfl | rfl <;>
    first
      | exact plainValue_boolText _
      | exact plainValue_digits _
      | exact plainValue_fixedText _ _
      | exact plainValue_modeText _

theorem trailing_plain : ∀ field ∈ e.trailing, PlainKey field.1.toList ∧ PlainValue field.2 := by
  intro field hfield
  refine ⟨plainKey_names field.1 (mem_append_right _ (mem_cons_of_mem _ (mem_map_of_mem hfield))), ?_⟩
  simp only [trailing, mem_cons, not_mem_nil, or_false] at hfield
  rcases hfield with rfl | rfl | rfl | rfl <;> exact plainValue_fixedText _ _

theorem pairs_text : pairs e.text = (pairs (fieldText ("current_v", e.vStr))).map fun kvs =>
    pairsOf e.leading ++ kvs ++ pairsOf e.trailing := by
  rw [text, fields, map_append, map_cons]
  exact pairs_between e.leading_plain e.trailing_plain

theorem text_head : e.text ≠ [] ∧ e.text.head? ≠ some '[' := by
  have hhead : e.text.head? = "enabled".toList.head? := by
    rw [text, fields, leading, cons_append, map_cons, fieldText, intercalate_cons_of_ne_nil (by simp)]
    simp only [append_assoc]
    exact head?_append_of_ne_nil _ (by simp)
  simp only [String.reduceToList, head?_cons] at hhead
  constructor
  · intro h
    rw [h] at hhead
    cases hhead
  · rw [hhead]
    decide

/-- The record of what was emitted, numbers at the printed precision. -/
def record : FeaturesInfo where
  enabled := e.enabled
  active := e.active
  featExists := e.featExists
  featMode := e.featMode.toNat
  alpha := atPlaces 2 e.params.alpha
  beta := atPlaces 2 e.params.beta
  gmin := atPlaces 2 e.params.gmin
  gmax := atPlaces 2 e.params.gmax
  useTanh := e.params.useTanh
  activeDim := e.activeDim.toNat
  vCandidatesLen := e.vCandidatesLen.toNat
  currentV := e.vStr
  feat0 := atPlaces 3 e.feat0
  pathW := atPlaces 3 e.weight
  factor := atPlaces 3 e.factor

/-- The keys of the fields as the monitor sees them. -/
theorem ofText_leading : (pairsOf e.leading).map (fun kv => (kv.2, FeaturesKey.ofText kv.1)) =
    (e.leading.map Prod.snd).zip [some .enabled, some .active, some .featMode, some .featExists, none,
      some .alpha, some .beta, some .gmin, some .gmax, some .useTanh, some .activeDim,
      some .vCandidatesLen] := by
  have hkeys : leadingKeys.map (fun k => FeaturesKey.ofText k.toList) =
      [some .enabled, some .active, some .featMode, some .featExists, none, some .alpha, some .beta,
        some .gmin, some .gmax, some .useTanh, some .activeDim, some .vCandidatesLen] := by
    decide +kernel
  rw [← hkeys]
  simp only [pairsOf, leading, leadingKeys, map_cons, map_nil, zip_cons_cons, zip_nil_right]

theorem ofText_trailing : (pairsOf e.trailing).map (fun kv => (kv.2, FeaturesKey.ofText kv.1)) =
    (e.trailing.map Prod.snd).zip [none, some .feat0, none, some .factor] := by
  have hkeys : trailingKeys.map (fun k => FeaturesKey.ofText k.toList) =
      [none, some .feat0, none, some .factor] := by
    decide +kernel
  rw [← hkeys]
  simp only [pairsOf, trailing, trailingKeys, map_cons, map_nil, zip_cons_cons, zip_nil_right]

theorem foldl_assign (kvs : List (List Char × List Char)) (out : FeaturesInfo) :
    kvs.foldl (fun out kv => FeaturesInfo.assign out kv.1 kv.2) out =
      (kvs.map fun kv => (kv.2, FeaturesKey.ofText kv.1)).foldl (fun out kv => out.set kv.1 kv.2) out := by
  rw [foldl_map]
  rfl

/-- Whatever the pairs of the vector make of `current_v`, the other fields are read as they were
    written, and the weight is not read at all. -/
theorem foldl_line {kvs : List (List Char × List Char)} {w : List Char}
    (hkvs : ∀ out : FeaturesInfo, kvs.foldl (fun out kv => FeaturesInfo.assign out kv.1 kv.2) out =
      { out with currentV := w }) :
    (pairsOf e.leading ++ kvs ++ pairsOf e.trailing).foldl
      (fun out kv => FeaturesInfo.assign out kv.1 kv.2) {} =
      { e.record with currentV := w, pathW := .fin 0 } := by
  rw [foldl_append, foldl_append, hkvs, foldl_assign, foldl_assign, ofText_leading, ofText_trailing]
  simp only [leading, trailing, map_cons, map_nil, zip_cons_cons, zip_nil_right,
    foldl_cons, foldl_nil, FeaturesInfo.set, parseBool_boolText, record]
  have h256 : e.featMode.toNat < 2 ^ 64 := lt_of_lt_of_le e.featMode.toNat_lt (by decide)
  rw [parseU64_digits h256, parseU64_digits e.activeDim.toNat_lt, parseU64_digits e.vCandidatesLen.toNat_lt]
  simp only [parseNum_fixedText (show 0 < 2 by decide), parseNum_fixedText (show 0 < 3 by decide)]

/-- The monitor's record of a line, by the number of pieces of the vector. -/
theorem parse_text :
    parseFeaturesInfo e.text = (pairs (fieldText ("current_v", e.vStr))).map fun kvs =>
      (pairsOf e.leading ++ kvs ++ pairsOf e.trailing).foldl
        (fun out kv => FeaturesInfo.assign out kv.1 kv.2) {} := by
  rw [parseFeaturesInfo_eq e.text_head.1 e.text_head.2, pairs_text, Option.map_map]
  rfl

theorem assign_currentV (w : List Char) :
    out.assign "current_v".toList w = { out with currentV := w } := by
  have hkey : FeaturesKey.ofText "current_v".toList = some .currentV := by decide +kernel
  rw [FeaturesInfo.assign, hkey]
  rfl

theorem ofText_bracket {k : List Char} (h : ']' ∈ k) : FeaturesKey.ofText k = none := by
  have hnames : ∀ key ∈ FeaturesKey.all, ']' ∉ key.name.toList := by
    simp [FeaturesKey.all, FeaturesKey.name]
  rw [FeaturesKey.ofText, find?_eq_none]
  intro key hkey heq
  exact hnames key hkey (of_decide_eq_true heq ▸ h)

/-- The vector in one piece: everything but the weight is read as it was written. -/
theorem parse_single {piece : List Char} (h : vecPieces e.vNow e.activeDim.toNat = [piece]) :
    parseFeaturesInfo e.text = some { e.record with pathW := .fin 0 } := by
  rw [parse_text, vStr, pairs_vec_single h, Option.map_some]
  exact congrArg some (e.foldl_line fun out => assign_currentV out _)

/-- Two pieces: the vector is cut after the first. -/
theorem parse_pair {piece last : List Char}
    (h : vecPieces e.vNow e.activeDim.toNat = [piece, last]) :
    parseFeaturesInfo e.text =
      some { e.record with currentV := '[' :: piece, pathW := .fin 0 } := by
  rw [parse_text, vStr, pairs_vec_pair h, Option.map_some]
  refine congrArg some (e.foldl_line fun out => ?_)
  have hlast : FeaturesKey.ofText (last ++ "](len".toList) = none :=
    ofText_bracket (mem_append_right _ (by simp))
  rw [foldl_cons, foldl_cons, foldl_nil, assign_currentV, FeaturesInfo.assign, hlast]
  rfl

/-- Three pieces or more: the line is not read. -/
theorem parse_more {p₁ p₂ p₃ : List Char} {more : List (List Char)}
    (h : vecPieces e.vNow e.activeDim.toNat = p₁ :: p₂ :: p₃ :: more) :
    parseFeaturesInfo e.text = none := by
  rw [parse_text, vStr, pairs_vec_more h, Option.map_none]

/-- What the accounting stage emits for a scheduled entry and the factor that it has just
    computed. -/
def ofState (s : State Exact) (entry : Testcase Exact) (factor : Exact) : FeaturesSummary where
  enabled := s.getFeaturesEnabled
  active := s.globals.featuresActive
  featMode := UInt8.ofNat s.getFeatMode
  featExists := s.globals.featExists
  mode := s.weightMode.getD .frontier
  params := s.globals.factorParams
  activeDim := UInt64.ofNat s.globals.featureDim
  vCandidatesLen := UInt64.ofNat s.globals.vCandidates.length
  vNow := s.globals.currentV
  feat0 := s.globals.featVal0
  weight := match s.weightMode.getD .frontier with
    | .frontier => (entry.featureWeight.map (·.weight)).getD (F64.lit 0)
    | .path => entry.pathWeight.getD (F64.lit 0)
  factor := factor

/-- With three features at work no line of the stage is read. -/
theorem three_features_unread {s : State Exact} (entry : Testcase Exact) (factor : Exact)
    (hvec : 3 ≤ s.globals.currentV.length) (hdim : 2 ≤ s.globals.featureDim)
    (husize : s.globals.featureDim < 2 ^ 64) :
    parseFeaturesInfo (ofState s entry factor).text = none := by
  have hactive : (ofState s entry factor).activeDim.toNat = s.globals.featureDim :=
    UInt64.toNat_ofNat_of_lt husize
  obtain ⟨p₁, p₂, p₃, more, hpieces⟩ : ∃ p₁ p₂ p₃ more, vecPieces (ofState s entry factor).vNow
      (ofState s entry factor).activeDim.toNat = p₁ :: p₂ :: p₃ :: more := by
    have hlength : 3 ≤ (vecPieces s.globals.currentV s.globals.featureDim).length := by
      rw [length_vecPieces]
      split_ifs <;> omega
    rw [hactive]
    change ∃ p₁ p₂ p₃ more, vecPieces s.globals.currentV s.globals.featureDim = _
    generalize vecPieces s.globals.currentV s.globals.featureDim = pieces at hlength ⊢
    obtain _ | ⟨p₁, _ | ⟨p₂, _ | ⟨p₃, more⟩⟩⟩ := pieces <;> simp at hlength ⊢
  exact parse_more _ hpieces

theorem three_equal_features_unread : parseFeaturesInfo (ofState
    { globals := { currentV := [.fin 1, .fin 1, .fin 1], featureDim := 3 } } {} (.fin 1)).text = none :=
  three_features_unread _ _ (by decide) (by decide) (by decide)

end FeaturesSummary

/-- The monitor reads what the stage wrote just when the vector is shown whole with at most one
    entry and the weight is printed as zero: the vector's commas cut the line, and the weight is
    looked up under a key that no line has. -/
theorem features_info_decodes_iff (e : FeaturesSummary) :
    parseFeaturesInfo e.text = some e.record ↔
      e.vNow.length ≤ 1 ∧ e.vNow.length ≤ e.activeDim.toNat ∧ ∃ q, e.weight = .fin q ∧ |q| ≤ 1 / 2000 := by
  have hweight : atPlaces 3 e.weight = .fin 0 ↔ ∃ q, e.weight = .fin q ∧ |q| ≤ 1 / 2000 := by
    rw [atPlaces_eq_zero]
    refine exists_congr fun q => and_congr_right fun _ => ?_
    constructor <;> intro h <;> linarith
  rw [← and_assoc, ← length_vecPieces_eq_one, ← hweight]
  obtain ⟨p₁, rest, hpieces⟩ := exists_cons_of_ne_nil (vecPieces_ne_nil e.vNow e.activeDim.toNat)
  obtain _ | ⟨p₂, _ | ⟨p₃, more⟩⟩ := rest
  · rw [e.parse_single hpieces, hpieces, Option.some.injEq]
    constructor
    · intro h
      exact ⟨rfl, (congrArg FeaturesInfo.pathW h).symm⟩
    · rintro ⟨-, h⟩
      rw [← h]
      rfl
  · rw [e.parse_pair hpieces, hpieces, Option.some.injEq]
    constructor
    · intro h
      -- the vector as it was written is longer
      have hvec : '[' :: p₁ = e.vStr := congrArg FeaturesInfo.currentV h
      have hlength := congrArg List.length hvec
      rw [FeaturesSummary.vStr, fmtVecShort_eq, hpieces] at hlength
      simp [intercalate_cons_of_ne_nil] at hlength
    · rintro ⟨h, -⟩
      cases h
  · rw [e.parse_more hpieces, hpieces]
    constructor
    · intro h
      cases h
    · rintro ⟨h, -⟩
      cases h

namespace Demo

/-- A line with the given vector and weight. -/
def summary (dim : UInt64) (vNow : List Exact) (weight : Exact) : FeaturesSummary where
  enabled := true
  active := true
  featMode := 1
  featExists := true
  mode := .frontier
  params := { alpha := .fin (17 / 20), beta := .fin (3 / 5), gmin := .fin (1 / 2), gmax := .fin 2, useTanh := false }
  activeDim := dim
  vCandidatesLen := 0
  vNow := vNow
  feat0 := .fin 1
  weight := weight
  factor := .fin 1

end Demo

/-- A vector of three entries is not read at all, one of two entries is cut, and a weight is
    lost. -/
theorem features_info_garbled :
    parseFeaturesInfo (Demo.summary 3 [.fin (1 / 2), .fin (1 / 4), .fin (1 / 4)] (.fin 0)).text = none ∧
    (parseFeaturesInfo (Demo.summary 2 [.fin (1 / 2), .fin (1 / 2)] (.fin 0)).text).map (·.currentV) =
      some "[0.500".toList ∧
    (parseFeaturesInfo (Demo.summary 1 [.fin 1] (.fin 2)).text).map (·.pathW) = some (.fin 0) := by
  decide +kernel

end Bofuzz
