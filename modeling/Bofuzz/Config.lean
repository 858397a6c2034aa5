import Bofuzz.FeaturesMap

/-! The command line's mask and the feature schema (`lib.rs`, `features_map.rs`).

    A mask is given as text (`parseVecMask`), as the word auto-credit, or not at all
    (`resolveVecMaskConfig`); the schema comes from a file whose parsed content is checked by
    `loadAndValidateSchema`. -/

namespace Bofuzz

/-! ### The feature schema -/

/-- Ids and names occur once each; `ids` and `names` are those seen so far. -/
def checkUnique : List FeatureSpec → List String → List String → Except String Unit
  | [], _, _ => .ok ()
  | f :: fs, ids, names =>
    if f.id ∈ ids then .error s!"BOFuzz feature schema error: duplicate feature id '{f.id}'"
    else if f.name ∈ names then
      .error s!"BOFuzz feature schema error: duplicate feature name '{f.name}'"
    else checkUnique fs (f.id :: ids) (f.name :: names)

/-- The first alias that is the name of another feature, with the id it was declared for. -/
def collidingAlias (canonical : List String) (features : List FeatureSpec) :
    Option (String × String) :=
  features.findSome? fun f =>
    ((f.aliases.getD []).find? fun a => decide (a ∈ canonical) && a != f.name).map fun a => (a, f.id)

/-- What `load_and_validate_schema` checks of the parsed file. -/
def loadAndValidateSchema (schema : FeatureSchemaFile) : Except String FeatureSchemaFile :=
  if schema.schemaVersion ≠ 4 then
    .error s!"BOFuzz feature schema error: schema_version must be 4, got {schema.schemaVersion}"
  else if schema.features = [] then .error "BOFuzz feature schema error: features list is empty"
  else
    match checkUnique schema.features [] [] with
    | .error e => .error e
    | .ok () =>
      match collidingAlias (schema.features.map (·.name)) schema.features with
      | some (other, id) => .error
          s!"BOFuzz feature schema error: alias '{other}' for {id} collides with canonical name"
      | none => .ok schema

/-! ### The mask -/

/-- The characters that `str::trim` strips. -/
def isWhitespace (c : Char) : Bool :=
  let n := c.toNat
  (9 ≤ n && n ≤ 13) || n == 0x20 || n == 0x85 || n == 0xA0 || n == 0x1680 ||
    (0x2000 ≤ n && n ≤ 0x200A) || n == 0x2028 || n == 0x2029 || n == 0x202F || n == 0x205F ||
    n == 0x3000

variable (cs : List Char)

def trim : List Char :=
  ((cs.dropWhile isWhitespace).reverse.dropWhile isWhitespace).reverse

/-- `str::parse::<u8>`: an optional plus sign and decimal digits whose value fits. -/
def parseU8 : Option ℕ :=
  let digits := if cs.head? = some '+' then cs.tail else cs
  if digits = [] ∨ ¬ digits.all Char.isDigit then none
  else
    let n := digits.foldl (fun n c => 10 * n + (c.toNat - '0'.toNat)) 0
    if n ≤ 255 then some n else none

def nonBinary : String := "BOFuzz vec-mask error: non-binary value in mask"

/-- The elements of a comma-separated list. -/
def parseList : Except String (List ℕ) :=
  (cs.splitOn ',').mapM fun element =>
    match parseU8 (trim element) with
    | some n => .ok n
    | none => .error nonBinary

/-- The elements of a plain string of zeros and ones. -/
def parseDigits : Except String (List ℕ) :=
  cs.mapM fun c =>
    if c = '0' then .ok 0
    else if c = '1' then .ok 1
    else .error s!"BOFuzz vec-mask error: non-binary value '{c}' in mask"

def parseVecMask (raw : String) (schemaLen : ℕ) : Except String (List Bool) :=
  let trimmed := trim raw.toList
  let values :=
    if trimmed.head? = some '[' ∧ trimmed.getLast? = some ']' then parseList trimmed.tail.dropLast
    else if ',' ∈ trimmed then parseList trimmed
    else parseDigits trimmed
  match values with
  | .error e => .error e
  | .ok values =>
    if values.any (1 < ·) then .error nonBinary
    else if values.length ≠ schemaLen then
      let len := values.length
      .error (s!"BOFuzz vec-mask error: mask length {len} != schema feature length {schemaLen} " ++
        "from features_schema.json")
    else
      let mask := values.map (· == 1)
      if mask.all (!·) then
        .error "BOFuzz vec-mask error: all-zero mask disables every schema feature"
      else .ok mask

structure VecMaskConfig where
  mode : VecMaskMode
  explicitMask : Option (List Bool)
  creditTopK : ℕ

def resolveVecMaskConfig (rawMask : Option String) (creditTopK schemaDim : ℕ) :
    Except String VecMaskConfig :=
  match rawMask with
  | none => .ok { mode := .full, explicitMask := none, creditTopK }
  | some mask =>
    if trim mask.toList = "auto-credit".toList then
      if creditTopK = 0 ∨ schemaDim < creditTopK then
        .error (s!"BOFuzz auto-credit error: --credit-top-k must be in 1..={schemaDim} " ++
          "when --vec-mask auto-credit is selected")
      else .ok { mode := .autoCredit, explicitMask := none, creditTopK }
    else
      match parseVecMask mask schemaDim with
      | .error e => .error e
      | .ok m => .ok { mode := .explicit, explicitMask := some m, creditTopK }

theorem parseVecMask_ok {raw : String} {schemaLen : ℕ} {mask : List Bool}
    (h : parseVecMask raw schemaLen = .ok mask) : mask.length = schemaLen ∧ true ∈ mask := by
  unfold parseVecMask at h
  simp only at h
  split at h
  · cases h
  · next values _ =>
    split_ifs at h with _ hlen hall
    obtain rfl := Except.ok.inj h
    refine ⟨by simpa using hlen, ?_⟩
    by_contra hno
    refine hall (List.all_eq_true.mpr fun b hb => ?_)
    cases b with
    | false => rfl
    | true => exact absurd hb hno

/-- What a resolved configuration guarantees about each mode. -/
theorem resolveVecMaskConfig_ok {rawMask : Option String} {creditTopK schemaDim : ℕ}
    {config : VecMaskConfig} (h : resolveVecMaskConfig rawMask creditTopK schemaDim = .ok config) :
    match config.mode with
    | .full => True
    | .explicit => ∃ m, config.explicitMask = some m ∧ m.length = schemaDim ∧ true ∈ m
    | .autoCredit => 0 < config.creditTopK ∧ config.creditTopK ≤ schemaDim := by
  unfold resolveVecMaskConfig at h
  split at h
  · cases h; trivial
  split_ifs at h with _ htop
  · cases h
    rw [not_or, not_lt] at htop
    exact ⟨Nat.pos_of_ne_zero htop.1, htop.2⟩
  · split at h
    · cases h
    · next m hm =>
      cases h
      exact ⟨m, rfl, parseVecMask_ok hm⟩

end Bofuzz
