import Bofuzz.Config
import Bofuzz.Lib.Result
import Bofuzz.Lib.Decimal
import Mathlib.Data.List.Induction

/-! The text of a mask (`features_map.rs`, `mask_selection.rs`,
    `static_analysis/features_extractor.py`).

    `MaskText` is the language of masks: zeros and ones in a row, or separated by commas, with or
    without brackets, an element of a list being written like a small number. The parser accepts
    just this language, and reads back what the two printers write. -/

namespace Bofuzz
open Text Decimal Result List

/-! ### The printers -/

/-- `1` or `0`. -/
def bitChar (b : Bool) : Char := if b then '1' else '0'

def maskToBitstring (mask : List Bool) : String := String.ofList (mask.map bitChar)

/-- The bits separated by commas. -/
def commaForm (mask : List Bool) : String :=
  String.ofList ([','].intercalate (mask.map fun b => [bitChar b]))

/-- The bits separated by commas, in brackets. -/
def bracketedForm (mask : List Bool) : String :=
  String.ofList ('[' :: ([','].intercalate (mask.map fun b => [bitChar b]) ++ [']']))

variable (schemaFeatures : List FeatureSpec) (selectedFeatureIds : List String)

/-- `vec_mask_from_feature_ids` of the extractor. -/
def vecMaskFromFeatureIds : String :=
  String.ofList (schemaFeatures.map fun spec => if spec.id ∈ selectedFeatureIds then '1' else '0')

/-- The line that the extractor writes. -/
def vecMaskLine : String :=
  vecMaskFromFeatureIds schemaFeatures selectedFeatureIds ++ "\n"

/-! ### The language -/

/-- A number of zero or one as `u8` reads it: a plus sign or none, zeros, and the last digit. -/
def BitNumber (cs : List Char) (b : Bool) : Prop :=
  ∃ sign zeros, (sign = [] ∨ sign = ['+']) ∧ (∀ c ∈ zeros, c = '0') ∧ cs = sign ++ zeros ++ [bitChar b]

/-- A number with white space around it. -/
def Element (cs : List Char) (b : Bool) : Prop :=
  ∃ before number after, (∀ c ∈ before, isWhitespace c = true) ∧ (∀ c ∈ after, isWhitespace c = true) ∧
    BitNumber number b ∧ cs = before ++ number ++ after

/-- The text of a mask. -/
inductive MaskText : List Char → List Bool → Prop
  | bracketed {elements mask} (h : List.Forall₂ Element elements mask) :
      MaskText ('[' :: ([','].intercalate elements ++ [']'])) mask
  | commas {elements mask} (h : List.Forall₂ Element elements mask) (hlen : 2 ≤ elements.length) :
      MaskText ([','].intercalate elements) mask
  | digits (mask) : MaskText (mask.map bitChar) mask

/-! ### Numbers -/

theorem eq_of_digit {c : Char} (h : c.isDigit = true) {n : ℕ} (hn : c.toNat - '0'.toNat = n) :
    c.toNat = 48 + n := by
  have hrange := isDigit_toNat h
  have hzero : '0'.toNat = 48 := rfl
  omega

variable {cs : List Char}

theorem value_eq_zero (hdigits : ∀ c ∈ cs, c.isDigit = true) :
    value cs = 0 ↔ ∀ c ∈ cs, c = '0' := by
  induction cs using List.reverseRecOn with
  | nil => simp [value]
  | append_singleton cs c ih =>
    have hc : c.isDigit = true := hdigits c (by simp)
    have hcs := ih fun d hd => hdigits d (by simp [hd])
    have hzero : c.toNat - '0'.toNat = 0 ↔ c = '0' := by
      constructor
      · intro h
        exact Char.toNat_inj.mp (eq_of_digit hc h)
      · rintro rfl
        rfl
    rw [value_concat, Nat.add_eq_zero_iff, hzero, mul_eq_zero, or_iff_right (by decide), hcs]
    simp [or_imp, forall_and]

/-- The value of a bit. -/
def bitValue (b : Bool) : ℕ := if b then 1 else 0

theorem bitChar_toNat (b : Bool) : (bitChar b).toNat - '0'.toNat = bitValue b := by
  cases b <;> rfl

theorem isDigit_bitChar (b : Bool) : (bitChar b).isDigit = true := by
  cases b <;> rfl

/-- Digits of value at most one: zeros and a last digit. -/
theorem value_le_one (hne : cs ≠ []) (hdigits : ∀ c ∈ cs, c.isDigit = true) (b : Bool) :
    value cs = bitValue b ↔ ∃ zeros, (∀ c ∈ zeros, c = '0') ∧ cs = zeros ++ [bitChar b] := by
  constructor
  · intro h
    obtain ⟨ds, d, rfl⟩ : ∃ ds d, cs = ds ++ [d] :=
      ⟨cs.dropLast, cs.getLast hne, (dropLast_append_getLast hne).symm⟩
    have hd : d.isDigit = true := hdigits d (by simp)
    rw [value_concat] at h
    have hle : bitValue b ≤ 1 := by cases b <;> decide
    have hzero : value ds = 0 := by omega
    refine ⟨ds, (value_eq_zero fun c hc => hdigits c (by simp [hc])).mp hzero, ?_⟩
    have hlast : d.toNat - '0'.toNat = bitValue b := by omega
    rw [← bitChar_toNat b] at hlast
    rw [Char.toNat_inj.mp ((eq_of_digit hd hlast).trans (eq_of_digit (isDigit_bitChar b) rfl).symm)]
  · rintro ⟨zeros, hzeros, rfl⟩
    have hzero : value zeros = 0 := (value_eq_zero fun c hc => hzeros c hc ▸ rfl).mpr hzeros
    rw [value_concat, hzero, bitChar_toNat, mul_zero, zero_add]

variable {b : Bool}

/-- A number is read as a bit just if it is written as one. -/
theorem parseU8_bit : parseU8 cs = some (bitValue b) ↔ BitNumber cs b := by
  have hsmall : bitValue b ≤ 255 := by cases b <;> decide
  have hread : ∀ digits : List Char, (if digits = [] ∨ ¬ digits.all Char.isDigit = true then none
      else if value digits ≤ 255 then some (value digits) else none) = some (bitValue b) ↔
      ∃ zeros, (∀ c ∈ zeros, c = '0') ∧ digits = zeros ++ [bitChar b] := by
    intro digits
    constructor
    · intro h
      split_ifs at h with hbad
      rw [not_or, not_not, all_eq_true] at hbad
      exact (value_le_one hbad.1 hbad.2 b).mp (Option.some.inj h)
    · rintro ⟨zeros, hzeros, rfl⟩
      have hdigits : ∀ c ∈ zeros ++ [bitChar b], c.isDigit = true := forall_mem_append.mpr
        ⟨fun c hc => hzeros c hc ▸ rfl, forall_mem_singleton.mpr (isDigit_bitChar b)⟩
      have hvalue := (value_le_one (by simp) hdigits b).mpr ⟨zeros, hzeros, rfl⟩
      rw [if_neg, hvalue, if_pos hsmall]
      rw [not_or, not_not, all_eq_true]
      exact ⟨by simp, hdigits⟩
  refine (hread _).trans ?_
  constructor
  · rintro ⟨zeros, hzeros, hcs⟩
    split_ifs at hcs with hplus
    · refine ⟨['+'], zeros, .inr rfl, hzeros, ?_⟩
      rw [append_assoc, ← hcs, singleton_append]
      exact (cons_head?_tail hplus).symm
    · exact ⟨[], zeros, .inl rfl, hzeros, hcs⟩
  · rintro ⟨sign, zeros, rfl | rfl, hzeros, rfl⟩
    · refine ⟨zeros, hzeros, if_neg ?_⟩
      cases zeros with
      | nil => cases b <;> decide
      | cons c zeros =>
        rw [hzeros c mem_cons_self]
        exact fun h => absurd (Option.some.inj h) (by decide)
    · exact ⟨zeros, hzeros, rfl⟩

/-! ### Elements -/

theorem bitNumber_chars (h : BitNumber cs b) : cs ≠ [] ∧ ∀ c ∈ cs, c = '+' ∨ c = '0' ∨ c = '1' := by
  obtain ⟨sign, zeros, hsign, hzeros, rfl⟩ := h
  simp only [forall_mem_append, forall_mem_singleton]
  refine ⟨by simp, ⟨?_, fun c hc => .inr (.inl (hzeros c hc))⟩, ?_⟩
  · rcases hsign with rfl | rfl <;> simp
  · cases b <;> simp [bitChar]

theorem bitNumber_solid (h : BitNumber cs b) : ∀ c ∈ cs, isWhitespace c = false := by
  intro c hc
  rcases (bitNumber_chars h).2 c hc with rfl | rfl | rfl <;> decide

theorem element_iff : parseU8 (trim cs) = some (bitValue b) ↔ Element cs b := by
  rw [parseU8_bit]
  constructor
  · intro h
    obtain ⟨before, after, hbefore, hafter, hcs⟩ := exists_padding (p := isWhitespace) cs
    exact ⟨before, trim cs, after, hbefore, hafter, h, hcs⟩
  · rintro ⟨before, number, after, hbefore, hafter, hnumber, rfl⟩
    have hsolid := bitNumber_solid hnumber
    have htrim : trim (before ++ number ++ after) = number :=
      strip_append hbefore hafter (bitNumber_chars hnumber).1
        (fun c hc => hsolid c (mem_of_mem_head? hc)) fun c hc => hsolid c (mem_of_getLast? hc)
    rwa [htrim]

/-- An element starts with no bracket and has no comma in it. -/
theorem element_chars (h : Element cs b) : cs ≠ [] ∧ ∀ c ∈ cs, c ≠ ',' ∧ c ≠ '[' := by
  obtain ⟨before, number, after, hbefore, hafter, hnumber, rfl⟩ := h
  obtain ⟨hne, hchars⟩ := bitNumber_chars hnumber
  have hspace : ∀ c, isWhitespace c = true → c ≠ ',' ∧ c ≠ '[' := by
    intro c hc
    constructor
    · rintro rfl
      revert hc
      decide
    · rintro rfl
      revert hc
      decide
  simp only [forall_mem_append]
  refine ⟨by simp [hne], ⟨fun c hc => hspace c (hbefore c hc), fun c hc => ?_⟩,
    fun c hc => hspace c (hafter c hc)⟩
  rcases hchars c hc with rfl | rfl | rfl <;> decide

/-! ### The parser -/

/-- The values that were read are the bits of the mask. -/
def Reads (values : Except String (List ℕ)) (mask : List Bool) : Prop :=
  values = .ok (mask.map bitValue)

variable {mask : List Bool}

theorem parseList_reads : Reads (parseList cs) mask ↔
    ∃ elements, elements ≠ [] ∧ cs = [','].intercalate elements ∧ List.Forall₂ Element elements mask := by
  rw [Reads, parseList, mapM_eq_ok, forall₂_map_right_iff]
  constructor
  · intro h
    refine ⟨cs.splitOn ',', splitOn_ne_nil _ _, (intercalate_splitOn ',').symm, h.imp fun e b hvalue => ?_⟩
    rw [← element_iff]
    cases hnumber : parseU8 (trim e) with
    | none => simp [hnumber] at hvalue
    | some number => simpa [hnumber] using hvalue
  · rintro ⟨elements, hne, rfl, h⟩
    rw [splitOn_intercalate ',' _ hne]
    · exact h.imp fun e b helement => by rw [element_iff.mpr helement]
    · intro e he hcomma
      obtain ⟨b, hb⟩ := exists_of_forall₂ h e he
      exact ((element_chars hb).2 ',' hcomma).1 rfl

theorem parseDigits_reads : Reads (parseDigits cs) mask ↔ cs = mask.map bitChar := by
  have hdigit : ∀ (c : Char) (b : Bool), (if c = '0' then Except.ok 0 else if c = '1' then .ok 1
      else .error s!"BOFuzz vec-mask error: non-binary value '{c}' in mask") = .ok (bitValue b) ↔
      c = bitChar b := by
    intro c b
    split_ifs with h0 h1
    · cases b <;> simp [h0, bitValue, bitChar]
    · cases b <;> simp [h1, bitValue, bitChar]
    · cases b <;> simp [h0, h1, bitChar]
  rw [Reads, parseDigits, mapM_eq_ok, forall₂_map_right_iff]
  simp only [hdigit]
  rw [← forall₂_eq_eq_eq, forall₂_map_right_iff]

/-- The values that are read of a trimmed text. -/
def readValues (trimmed : List Char) : Except String (List ℕ) :=
  if trimmed.head? = some '[' ∧ trimmed.getLast? = some ']' then parseList trimmed.tail.dropLast
  else if ',' ∈ trimmed then parseList trimmed
  else parseDigits trimmed

theorem parseVecMask_iff {raw : String} {n : ℕ} : parseVecMask raw n = .ok mask ↔
    Reads (readValues (trim raw.toList)) mask ∧ mask.length = n ∧ true ∈ mask := by
  have hbits : ∀ values : List ℕ, values.any (1 < ·) = false →
      (values.map (· == 1)).map bitValue = values := by
    intro values hvalues
    rw [map_map]
    refine (map_congr_left fun v hv => ?_).trans (map_id values)
    have hle : v ≤ 1 := by simpa using any_eq_false.mp hvalues v hv
    obtain rfl | rfl := Nat.le_one_iff_eq_zero_or_eq_one.mp hle <;> rfl
  have hback : ∀ m : List Bool, (m.map bitValue).any (1 < ·) = false ∧
      (m.map bitValue).map (· == 1) = m := by
    intro m
    constructor
    · rw [any_eq_false]
      intro v hv
      obtain ⟨b, -, rfl⟩ := mem_map.mp hv
      cases b <;> decide
    · rw [map_map]
      refine (map_congr_left fun b _ => ?_).trans (map_id m)
      cases b <;> rfl
  have hunfold : parseVecMask raw n = (readValues (trim raw.toList)).bind fun values =>
      if values.any (1 < ·) then .error nonBinary
      else if values.length ≠ n then
        .error (s!"BOFuzz vec-mask error: mask length {values.length} != schema feature length {n} " ++
          "from features_schema.json")
      else if (values.map (· == 1)).all (!·) then
        .error "BOFuzz vec-mask error: all-zero mask disables every schema feature"
      else .ok (values.map (· == 1)) := by
    cases hvalues : readValues (trim raw.toList) <;>
      · unfold readValues at hvalues
        simp only [parseVecMask, hvalues]
        rfl
  constructor
  · intro h
    obtain ⟨hlen, htrue⟩ := parseVecMask_ok h
    refine ⟨?_, hlen, htrue⟩
    rw [hunfold] at h
    cases hvalues : readValues (trim raw.toList) with
    | error e =>
      rw [hvalues] at h
      cases h
    | ok values =>
      rw [hvalues] at h
      dsimp only [Except.bind] at h
      split_ifs at h with hany
      rw [← Except.ok.inj h, Reads, hbits values (by simpa using hany)]
  · rintro ⟨hreads, hlen, htrue⟩
    obtain ⟨hany, hmask⟩ := hback mask
    have hall : ¬ (mask.all (!·)) = true := by
      intro hall
      exact absurd (all_eq_true.mp hall true htrue) (by decide)
    rw [hunfold, hreads]
    dsimp only [Except.bind]
    rw [hany, hmask, length_map, if_neg (by decide), if_neg (not_not.mpr hlen), if_neg hall]

theorem head_getLast_bracketed (inner : List Char) : ('[' :: (inner ++ [']'])).head? = some '[' ∧
    ('[' :: (inner ++ [']'])).getLast? = some ']' := by
  refine ⟨rfl, ?_⟩
  rw [← cons_append, getLast?_concat]

/-- The brackets are two characters, so that the text between them can be cut out. -/
theorem bracketed_iff : cs.head? = some '[' ∧ cs.getLast? = some ']' ↔
    cs = '[' :: (cs.tail.dropLast ++ [']']) := by
  constructor
  · rintro ⟨hhead, hlast⟩
    obtain ⟨rest, rfl⟩ := head?_eq_some_iff.mp hhead
    obtain rfl | hrest := eq_or_ne rest []
    · simp at hlast
    · rw [getLast?_cons_of_ne_nil hrest] at hlast
      obtain ⟨inner, rfl⟩ := getLast?_eq_some_iff.mp hlast
      simp
  · intro h
    rw [h]
    exact head_getLast_bracketed _

theorem readValues_reads (hmask : mask ≠ []) : Reads (readValues cs) mask ↔ MaskText cs mask := by
  constructor
  · intro h
    rw [readValues] at h
    split_ifs at h with hbracketed hcomma
    · obtain ⟨elements, -, hinner, hall⟩ := parseList_reads.mp h
      rw [bracketed_iff.mp hbracketed, hinner]
      exact .bracketed hall
    · obtain ⟨elements, hne, rfl, hall⟩ := parseList_reads.mp h
      refine .commas hall ?_
      -- a single element has no comma
      by_contra hlen
      obtain ⟨e, rfl⟩ : ∃ e, elements = [e] := by
        apply length_eq_one_iff.mp
        have := length_pos_iff.mpr hne
        omega
      obtain ⟨b, hb⟩ := exists_of_forall₂ hall e (by simp)
      rw [intercalate_singleton] at hcomma
      exact ((element_chars hb).2 ',' hcomma).1 rfl
    · rw [parseDigits_reads.mp h]
      exact .digits mask
  · intro h
    cases h with
    | bracketed h =>
      rename_i elements
      have hne : elements ≠ [] := by
        rintro rfl
        exact hmask (forall₂_nil_left_iff.mp h)
      rw [readValues, if_pos (head_getLast_bracketed _), tail_cons, dropLast_concat]
      exact parseList_reads.mpr ⟨elements, hne, rfl, h⟩
    | commas h hlen =>
      rename_i elements
      have hne : elements ≠ [] := ne_nil_of_length_pos (by omega)
      have hopen : '[' ∉ [','].intercalate elements := by
        intro hmem
        obtain hmem | ⟨e, he, hmem⟩ := mem_intercalate hmem
        · simp at hmem
        · obtain ⟨b, hb⟩ := exists_of_forall₂ h e he
          exact ((element_chars hb).2 '[' hmem).2 rfl
      rw [readValues, if_neg fun hb => hopen (mem_of_mem_head? hb.1),
        if_pos (separator_mem_intercalate hlen (by simp))]
      exact parseList_reads.mpr ⟨elements, hne, rfl, h⟩
    | digits =>
      have hchars : ∀ c ∈ mask.map bitChar, c ≠ ',' ∧ c ≠ '[' :=
        forall_mem_map.mpr fun b _ => by cases b <;> decide
      rw [readValues, if_neg fun hb => (hchars '[' (mem_of_mem_head? hb.1)).2 rfl,
        if_neg fun hcomma => (hchars ',' hcomma).1 rfl]
      exact parseDigits_reads.mpr rfl

/-! ### Printed masks -/

theorem parseVecMask_iff_maskText {raw : String} {n : ℕ} :
    parseVecMask raw n = .ok mask ↔ MaskText (trim raw.toList) mask ∧ mask.length = n ∧ true ∈ mask := by
  rw [parseVecMask_iff]
  apply and_congr_left
  rintro ⟨-, htrue⟩
  exact readValues_reads (ne_nil_of_mem htrue)

/-- Text without white space is read as it stands, also as a line. -/
theorem parseVecMask_solid (after : List Char) (h : MaskText cs mask) (htrue : true ∈ mask)
    (hne : cs ≠ []) (hsolid : ∀ c ∈ cs, isWhitespace c = false)
    (hafter : ∀ c ∈ after, isWhitespace c = true) :
    parseVecMask (String.ofList (cs ++ after)) mask.length = .ok mask := by
  have htrim : trim ([] ++ cs ++ after) = cs :=
    strip_append (by simp) hafter hne (fun c hc => hsolid c (mem_of_mem_head? hc))
      fun c hc => hsolid c (mem_of_mem_getLast? hc)
  rw [nil_append] at htrim
  rw [parseVecMask_iff_maskText, String.toList_ofList, htrim]
  exact ⟨h, rfl, htrue⟩

theorem isWhitespace_bitChar (b : Bool) : isWhitespace (bitChar b) = false := by
  cases b <;> rfl

theorem bits_solid (mask : List Bool) : ∀ c ∈ mask.map bitChar, isWhitespace c = false :=
  forall_mem_map.mpr fun b _ => isWhitespace_bitChar b

theorem commas_solid (mask : List Bool) :
    ∀ c ∈ [','].intercalate (mask.map fun b => [bitChar b]), isWhitespace c = false := by
  intro c hc
  obtain hc | ⟨piece, hpiece, hc⟩ := mem_intercalate hc
  · rw [mem_singleton.mp hc]
    rfl
  · obtain ⟨b, -, rfl⟩ := mem_map.mp hpiece
    rw [mem_singleton.mp hc]
    exact isWhitespace_bitChar b

theorem elements_bits (mask : List Bool) :
    List.Forall₂ Element (mask.map fun b => [bitChar b]) mask := by
  rw [forall₂_map_left_iff]
  refine forall₂_same.mpr fun b _ => ⟨[], [bitChar b], [], by simp, by simp, ?_, rfl⟩
  exact ⟨[], [], .inl rfl, by simp, rfl⟩

theorem maskText_commas (hne : mask ≠ []) :
    MaskText ([','].intercalate (mask.map fun b => [bitChar b])) mask := by
  obtain _ | ⟨b, _ | ⟨c, rest⟩⟩ := mask
  · exact absurd rfl hne
  -- one bit alone is also a string of digits
  · exact .digits [b]
  · exact .commas (elements_bits _) (by simp)

theorem bitstring_round_trip (after : List Char) (htrue : true ∈ mask)
    (hafter : ∀ c ∈ after, isWhitespace c = true) :
    parseVecMask (String.ofList (mask.map bitChar ++ after)) mask.length = .ok mask :=
  parseVecMask_solid after (.digits mask) htrue (by simpa using ne_nil_of_mem htrue) (bits_solid mask) hafter

theorem commaForm_round_trip (htrue : true ∈ mask) :
    parseVecMask (commaForm mask) mask.length = .ok mask := by
  have hne := ne_nil_of_mem htrue
  have htext := maskText_commas hne
  have hsome : [','].intercalate (mask.map fun b => [bitChar b]) ≠ [] := by
    obtain ⟨b, rest, rfl⟩ := exists_cons_of_ne_nil hne
    cases rest <;> simp [List.intercalate]
  have := parseVecMask_solid [] htext htrue hsome (commas_solid mask) (by simp)
  rwa [append_nil] at this

theorem bracketedForm_round_trip (htrue : true ∈ mask) :
    parseVecMask (bracketedForm mask) mask.length = .ok mask := by
  have hsolid : ∀ c ∈ '[' :: ([','].intercalate (mask.map fun b => [bitChar b]) ++ [']']),
      isWhitespace c = false :=
    forall_mem_cons.mpr ⟨rfl, forall_mem_append.mpr ⟨commas_solid mask, forall_mem_singleton.mpr rfl⟩⟩
  have := parseVecMask_solid [] (.bracketed (elements_bits mask)) htrue (cons_ne_nil _ _)
    hsolid (by simp)
  rwa [append_nil] at this

/-- The mask of a set of features of the schema. -/
def idMask : List Bool :=
  schemaFeatures.map fun spec => decide (spec.id ∈ selectedFeatureIds)

theorem vecMaskFromFeatureIds_eq :
    vecMaskFromFeatureIds schemaFeatures selectedFeatureIds =
      String.ofList ((idMask schemaFeatures selectedFeatureIds).map bitChar) := by
  rw [vecMaskFromFeatureIds, idMask, map_map]
  simp [Function.comp_def, bitChar]

/-- The parser accepts the texts of masks with a bit set, and reads their bits. So it reads back
    what is printed of a mask, and of a non-empty set of features of the schema. -/
theorem vec_mask_round_trip :
    (∀ raw n mask, parseVecMask raw n = .ok mask ↔
      MaskText (trim raw.toList) mask ∧ mask.length = n ∧ true ∈ mask) ∧
    (∀ mask : List Bool, true ∈ mask → parseVecMask (maskToBitstring mask) mask.length = .ok mask ∧
      parseVecMask (commaForm mask) mask.length = .ok mask ∧
      parseVecMask (bracketedForm mask) mask.length = .ok mask) ∧
    (∀ (schemaFeatures : List FeatureSpec) (ids : List String), (∃ spec ∈ schemaFeatures, spec.id ∈ ids) →
      parseVecMask (vecMaskFromFeatureIds schemaFeatures ids) schemaFeatures.length =
        .ok (schemaFeatures.map fun spec => decide (spec.id ∈ ids)) ∧
      parseVecMask (vecMaskLine schemaFeatures ids) schemaFeatures.length =
        .ok (schemaFeatures.map fun spec => decide (spec.id ∈ ids))) ∧
    ∀ cs : List Char, cs.head? = some '[' → cs.getLast? = some ']' → 2 ≤ cs.length := by
  refine ⟨fun raw n mask => parseVecMask_iff_maskText, ?_, ?_, ?_⟩
  · intro mask htrue
    have hbits := bitstring_round_trip [] htrue (by simp)
    rw [append_nil] at hbits
    exact ⟨hbits, commaForm_round_trip htrue, bracketedForm_round_trip htrue⟩
  · rintro schemaFeatures ids ⟨spec, hspec, hid⟩
    have htrue : true ∈ idMask schemaFeatures ids := mem_map.mpr ⟨spec, hspec, decide_eq_true hid⟩
    have hlength : (idMask schemaFeatures ids).length = schemaFeatures.length := length_map _
    have hbits := bitstring_round_trip [] htrue (by simp)
    have hline := bitstring_round_trip ['\n'] htrue (by simp [isWhitespace])
    rw [append_nil] at hbits
    rw [vecMaskLine, vecMaskFromFeatureIds_eq, ← hlength]
    refine ⟨hbits, ?_⟩
    rw [String.ofList_append] at hline
    exact hline
  · intro cs hhead hlast
    rw [bracketed_iff.mp ⟨hhead, hlast⟩]
    simp

example : parseVecMask " [0, +01,1 ] " 3 = .ok [false, true, true] := by decide +kernel

end Bofuzz
