import Bofuzz.Lib.Num
import Bofuzz.Lib.Text

/-! Numbers as text: integers, and doubles with a fixed number of places.

    `fixedText` rounds to the nearest number of the given places, ties to even, as exact printing of
    a double does; `parseF64` reads a sign, digits with an optional point and exponent, infinities
    and NaN. Reading what was printed gives the number rounded to the printed places
    (`parseF64_fixedText`). -/

namespace Decimal
open List Nat Char

/-! ### Integers -/

def digits (n : ℕ) : List Char := Nat.toDigits 10 n

variable (cs : List Char)

def value : ℕ := Nat.ofDigitChars 10 cs 0

theorem value_digits (n : ℕ) : value (digits n) = n := ofDigitChars_ten_toDigits

theorem isDigit_of_mem_digits {n : ℕ} {c : Char} (h : c ∈ digits n) : c.isDigit = true :=
  isDigit_of_mem_toDigits (by decide) (by decide) h

theorem digits_ne_nil (n : ℕ) : digits n ≠ [] := toDigits_ne_nil

theorem value_append (cs ds : List Char) :
    value (cs ++ ds) = 10 ^ ds.length * value cs + value ds := by
  rw [value, ofDigitChars_append, ofDigitChars_eq_ofDigitChars_zero]
  rfl

theorem value_concat (c : Char) : value (cs ++ [c]) = 10 * value cs + (c.toNat - '0'.toNat) := by
  rw [value, ofDigitChars_append]
  rfl

theorem isDigit_toNat {c : Char} (h : c.isDigit = true) : 48 ≤ c.toNat ∧ c.toNat ≤ 57 := by
  simp only [isDigit, Bool.and_eq_true, decide_eq_true_eq, UInt32.le_iff_toNat_le] at h
  exact h

/-- An unsigned integer of a bounded type: a plus sign or none, and digits. -/
def parseUnsigned (max : ℕ) (cs : List Char) : Option ℕ :=
  let ds := if cs.head? = some '+' then cs.tail else cs
  if ds = [] ∨ ¬ ds.all Char.isDigit then none
  else if value ds ≤ max then some (value ds)
  else none

theorem parseUnsigned_digits {max n : ℕ} (h : n ≤ max) : parseUnsigned max (digits n) = some n := by
  have hsign : (digits n).head? ≠ some '+' := by
    intro hplus
    exact absurd (isDigit_of_mem_digits (mem_of_mem_head? hplus)) (by decide)
  have hall : (digits n).all isDigit = true :=
    all_eq_true.mpr fun c hc => isDigit_of_mem_digits hc
  rw [parseUnsigned]
  simp [hsign, hall, digits_ne_nil, value_digits, h]

theorem chars_of_parseUnsigned {max n : ℕ} {cs : List Char} (h : parseUnsigned max cs = some n) :
    ∀ c ∈ cs, c = '+' ∨ c.isDigit = true := by
  unfold parseUnsigned at h
  cases cs with
  | nil => simp
  | cons c cs =>
    by_cases hplus : c = '+'
    · simp_all
    · simp_all

/-! ### A fixed number of places -/

/-- The digits of a number, filled up with zeros. -/
def padded (width n : ℕ) : List Char := List.replicate (width - (digits n).length) '0' ++ digits n

theorem value_padded (width n : ℕ) : value (padded width n) = n := by
  rw [padded, value_append, value_digits, value, ofDigitChars_replicate_zero]
  simp

theorem length_padded {width n : ℕ} (hwidth : 0 < width) (hn : n < 10 ^ width) :
    (padded width n).length = width := by
  have hlen : (digits n).length ≤ width := (length_toDigits_le_iff (by decide) hwidth).mpr hn
  rw [padded, length_append, length_replicate]
  omega

theorem isDigit_of_mem_padded {width n : ℕ} {c : Char} (h : c ∈ padded width n) :
    c.isDigit = true := by
  rw [padded, mem_append, mem_replicate] at h
  obtain ⟨-, rfl⟩ | h := h
  · rfl
  · exact isDigit_of_mem_digits h

variable (places : ℕ)

/-- The text of `scaled / 10 ^ places`. -/
def placed (scaled : ℕ) : List Char :=
  digits (scaled / 10 ^ places) ++ '.' :: padded places (scaled % 10 ^ places)

/-- The nearest integer to a number that is not negative, the even one of two. -/
def roundTiesEven (q : ℚ) : ℕ :=
  let n := ⌊q⌋₊
  if q - n < 1 / 2 ∨ q - n = 1 / 2 ∧ n % 2 = 0 then n else n + 1

theorem roundTiesEven_eq_zero {q : ℚ} : roundTiesEven q = 0 ↔ q ≤ 1 / 2 := by
  rw [roundTiesEven]
  constructor
  · intro h
    split_ifs at h with hround
    rw [h] at hround
    obtain hlt | ⟨heq, -⟩ := hround
    · push_cast at hlt
      linarith
    · push_cast at heq
      linarith
  · intro h
    have hfloor : ⌊q⌋₊ = 0 := floor_eq_zero.mpr (by linarith)
    rw [hfloor, if_pos]
    push_cast
    obtain hlt | heq := h.lt_or_eq
    · exact .inl (by linarith)
    · exact .inr ⟨by linarith, trivial⟩

/-- A double as `{:.places}` prints it, for one place or more. -/
def fixedText : Exact → List Char
  | .nan => ['N', 'a', 'N']
  | .inf negative => (if negative then ['-'] else []) ++ ['i', 'n', 'f']
  | .fin q => (if q < 0 then ['-'] else []) ++ placed places (roundTiesEven (|q| * 10 ^ places))

/-- A double at the precision of a number of places. -/
def atPlaces : Exact → Exact
  | .fin q =>
    let magnitude : ℚ := roundTiesEven (|q| * 10 ^ places) / 10 ^ places
    .fin (if q < 0 then -magnitude else magnitude)
  | x => x

/-- The characters of a printed number. -/
def isNumberChar (c : Char) : Bool := c.isDigit || ['.', '-', 'N', 'a', 'i', 'n', 'f'].contains c

theorem isNumberChar_fixedText (x : Exact) : ∀ c ∈ fixedText places x, isNumberChar c = true := by
  intro c hc
  cases x with
  | nan =>
    have hall : ∀ c ∈ ['N', 'a', 'N'], isNumberChar c = true := by simp [isNumberChar]
    exact hall c hc
  | inf negative =>
    have hall : ∀ negative : Bool, ∀ c ∈ (if negative then ['-'] else []) ++ ['i', 'n', 'f'],
        isNumberChar c = true := by simp [isNumberChar]
    exact hall negative c hc
  | fin q =>
    rw [fixedText, placed, mem_append, mem_append, mem_cons] at hc
    obtain hc | hc | rfl | hc := hc
    · split_ifs at hc
      · rw [mem_singleton.mp hc]
        rfl
      · exact absurd hc not_mem_nil
    · simp [isNumberChar, isDigit_of_mem_digits hc]
    · rfl
    · simp [isNumberChar, isDigit_of_mem_padded hc]

theorem fixedText_ne_nil (x : Exact) : fixedText places x ≠ [] := by
  cases x <;> simp [fixedText, placed]

/-! ### Reading a double -/

/-- Digits after the letter of an exponent. -/
def parseExponent : List Char → Option ℤ
  | '-' :: ds => if ds ≠ [] ∧ ds.all Char.isDigit then some (-(value ds : ℤ)) else none
  | '+' :: ds => if ds ≠ [] ∧ ds.all Char.isDigit then some (value ds) else none
  | ds => if ds ≠ [] ∧ ds.all Char.isDigit then some (value ds) else none

/-- Digits with a point somewhere or none: the digits, and how many of them are behind the point. -/
def parseMantissa : Option (List Char × ℕ) :=
  let whole := cs.takeWhile Char.isDigit
  match cs.dropWhile Char.isDigit with
  | [] => if whole = [] then none else some (whole, 0)
  | c :: frac =>
    if c = '.' ∧ frac.all Char.isDigit ∧ whole ++ frac ≠ [] then some (whole ++ frac, frac.length)
    else none

def isExponentLetter (c : Char) : Bool := c = 'e' || c = 'E'

/-- A double without its sign. -/
def parseMagnitude : Option Exact :=
  let lower := cs.map Char.toLower
  if lower = ['i', 'n', 'f'] ∨ lower = ['i', 'n', 'f', 'i', 'n', 'i', 't', 'y'] then some (.inf false)
  else if lower = ['n', 'a', 'n'] then some .nan
  else
    let exponent := match cs.dropWhile (!isExponentLetter ·) with
      | [] => some 0
      | _ :: ds => parseExponent ds
    match parseMantissa (cs.takeWhile (!isExponentLetter ·)), exponent with
    | some (ds, places), some e => some (.fin (value ds / 10 ^ places * 10 ^ e))
    | _, _ => none

/-- `str::parse::<f64>`. -/
def parseF64 : List Char → Option Exact
  | '-' :: cs => (parseMagnitude cs).map Exact.neg
  | '+' :: cs => parseMagnitude cs
  | cs => parseMagnitude cs

section
variable {whole frac : List Char} (hwhole : ∀ c ∈ whole, c.isDigit = true) (hne : whole ≠ [])
  (hfrac : ∀ c ∈ frac, c.isDigit = true)
include hwhole hne hfrac

theorem parseMantissa_placed :
    parseMantissa (whole ++ '.' :: frac) = some (whole ++ frac, frac.length) := by
  have htake : (whole ++ '.' :: frac).takeWhile isDigit = whole := by
    rw [takeWhile_append_of_pos hwhole, takeWhile_cons_of_neg (by decide), append_nil]
  have hdrop : (whole ++ '.' :: frac).dropWhile isDigit = '.' :: frac := by
    rw [dropWhile_append_of_pos hwhole, dropWhile_cons_of_neg (by decide)]
  have hall : frac.all isDigit = true := all_eq_true.mpr hfrac
  rw [parseMantissa, htake, hdrop]
  simp [hall, hne]

/-- A text of digits and a point that starts with a digit is read by its mantissa. -/
theorem parseMagnitude_placed :
    parseMagnitude (whole ++ '.' :: frac) =
      some (.fin (value (whole ++ frac) / 10 ^ frac.length)) := by
  have hpoint : '.' ∈ (whole ++ '.' :: frac).map toLower :=
    mem_map.mpr ⟨'.', by simp, rfl⟩
  have hplain : ∀ c ∈ whole ++ '.' :: frac, (!isExponentLetter c) = true := by
    intro c hc
    have hdigit : c.isDigit = true → (!isExponentLetter c) = true := by
      intro hd
      by_contra hletter
      have hcases : c = 'e' ∨ c = 'E' := by simpa [isExponentLetter, or_iff_not_imp_left] using hletter
      obtain rfl | rfl := hcases <;> exact absurd hd (by decide)
    rw [mem_append, mem_cons] at hc
    obtain hc | rfl | hc := hc
    · exact hdigit (hwhole c hc)
    · rfl
    · exact hdigit (hfrac c hc)
  rw [parseMagnitude, if_neg, if_neg]
  · rw [takeWhile_eq_self_iff.mpr hplain, dropWhile_eq_nil_iff.mpr hplain,
      parseMantissa_placed hwhole hne hfrac]
    simp
  · intro hnan
    rw [hnan] at hpoint
    exact absurd hpoint (by decide)
  · rintro (hinf | hinf)
    · rw [hinf] at hpoint
      exact absurd hpoint (by decide)
    · rw [hinf] at hpoint
      exact absurd hpoint (by decide)

end

theorem parseF64_of_head {cs : List Char} (hminus : cs.head? ≠ some '-')
    (hplus : cs.head? ≠ some '+') :
    parseF64 cs = parseMagnitude cs := by
  rw [parseF64.eq_def]
  split <;> simp_all

variable {places : ℕ}

theorem parseMagnitude_scaled (hplaces : 0 < places) (scaled : ℕ) :
    parseMagnitude (placed places scaled) = some (.fin (scaled / 10 ^ places)) := by
  have hlength : (padded places (scaled % 10 ^ places)).length = places :=
    length_padded hplaces (mod_lt _ (by positivity))
  rw [placed, parseMagnitude_placed (fun c => isDigit_of_mem_digits) (digits_ne_nil _)
    fun c => isDigit_of_mem_padded]
  rw [value_append, value_digits, value_padded, hlength, div_add_mod]

/-- What was printed is read as the number at the printed precision. -/
theorem parseF64_fixedText (hplaces : 0 < places) (x : Exact) :
    parseF64 (fixedText places x) = some (atPlaces places x) := by
  cases x with
  | nan => rfl
  | inf negative => cases negative <;> rfl
  | fin q =>
    have hread := parseMagnitude_scaled hplaces (roundTiesEven (|q| * 10 ^ places))
    rw [fixedText, atPlaces]
    split_ifs with hneg
    · rw [singleton_append, parseF64, hread]
      rfl
    have hhead : ∀ c ∈ (placed places (roundTiesEven (|q| * 10 ^ places))).head?, c.isDigit = true := by
      intro c hc
      rw [placed, head?_append_of_ne_nil _ (digits_ne_nil _)] at hc
      exact isDigit_of_mem_digits (mem_of_mem_head? hc)
    rw [nil_append, parseF64_of_head, hread]
    · intro h
      exact absurd (hhead _ h) (by decide)
    · intro h
      exact absurd (hhead _ h) (by decide)

theorem atPlaces_eq_zero (x : Exact) :
    atPlaces places x = .fin 0 ↔ ∃ q, x = .fin q ∧ |q| * 10 ^ places ≤ 1 / 2 := by
  cases x with
  | nan | inf => simp [atPlaces]
  | fin q =>
    have hzero : ((roundTiesEven (|q| * 10 ^ places) : ℚ) / 10 ^ places = 0) ↔ |q| * 10 ^ places ≤ 1 / 2 := by
      rw [← roundTiesEven_eq_zero]
      simp
    rw [atPlaces, Exact.fin.injEq]
    split_ifs with hneg
    · rw [neg_eq_zero, hzero]
      simp
    · rw [hzero]
      simp

end Decimal
