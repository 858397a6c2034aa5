import Bofuzz.Libafl.Rand
import Mathlib.Algebra.Order.BigOperators.Group.List
import Mathlib.Algebra.Order.Group.Nat

/-! Strings for the regular expressions of a grammar (`common/nautilus/regex_mutator/mod.rs`).

    `generate` walks an expression with a stack and draws at each choice. A character of a class is
    drawn between the UTF-8 encodings of the bounds of a range, read as little-endian numbers, and
    is then taken for a code point. So a class is `Safe` only if all these numbers are code points,
    and `generate` returns for all draws exactly if every class of the expression is. -/

namespace Bofuzz.Nautilus
open Bofuzz.Rand List Nat Drawing Leads

/-- How the code of the grammar fails. Arithmetic is that of a build with overflow checks. -/
inductive Panic where
  /-- `attempt to add with overflow`, or to subtract. -/
  | overflow
  /-- `index out of bounds`. -/
  | index
  /-- `unwrap` of `char::from_u32`. -/
  | noChar
  /-- `unwrap` of `i32::try_from`. -/
  | tooManyChildren
  /-- A key that is not in a hash map. -/
  | noEntry
  /-- `Broken Grammar`. -/
  | brokenGrammar
  /-- `there is no way to derive {} within {} steps`. -/
  | noWayToDerive
  /-- `unwrap` of `partial_cmp`. -/
  | noOrder
  /-- `attempt to divide by zero`. -/
  | divideByZero
  /-- An assertion. -/
  | assertion
  /-- `Not a valid tree for unparsing!`. -/
  | invalidTree
  /-- A loop has not come to its end yet. -/
  | unfinished
  deriving DecidableEq

namespace Regex

variable {R : Type} [Rand R]

/-- `a - b`. -/
def checkedSub (a b : ℕ) : Except Panic ℕ := if b ≤ a then .ok (a - b) else .error .overflow

theorem checkedSub_of_le {a b : ℕ} (h : b ≤ a) : checkedSub a b = .ok (a - b) := if_pos h

/-- A range of characters. -/
structure ClassUnicodeRange where
  start : Char
  stop : Char
  ordered : start ≤ stop

structure ClassBytesRange where
  start : UInt8
  stop : UInt8
  ordered : start ≤ stop

/-- An expression as the parser leaves it. The length of a vector is a `usize`, an alternation is
    never empty, and the bounds of a repetition are in order. -/
inductive Hir where
  | empty
  | literal (bytes : List UInt8)
  | unicode (len : ℕ) (fits : len < 2 ^ 64) (ranges : Fin len → ClassUnicodeRange)
  | bytes (len : ℕ) (fits : len < 2 ^ 64) (ranges : Fin len → ClassBytesRange)
  | repetition (min : ℕ) (max : Option ℕ) (ordered : ∀ b ∈ max, min ≤ b) (sub : Hir)
  | capture (sub : Hir)
  | concat (len : ℕ) (hirs : Fin len → Hir)
  | alternation (len : ℕ) (pos : 0 < len) (fits : len < 2 ^ 64) (hirs : Fin len → Hir)
  | look

/-! ### The generator -/

/-- `RegexScript::new`: the number of choices that are left. -/
def newScript : StateM R ℕ := do
  if (← draw).toNat % 256 = 0 then
    return (← draw).toNat % 0xffff
  else
    let len := 2 ^ ((← draw).toNat % 8)
    return (← draw).toNat % len

variable (remaining : ℕ)

/-- `get_mod`. -/
def getMod (val : ℕ) : StateM R ℕ :=
  if remaining = 0 ∨ val = 0 then pure 0 else below val

/-- `get_range`. -/
def getRange (min max : ℕ) : Drawing R Panic ℕ := do
  let span ← ofResult (checkedSub max min)
  return (← draw (getMod remaining span)) + min

/-- The bytes of a character in four bytes, as `u32::from_le_bytes` reads them. -/
def leBytes (c : Char) : ℕ := (String.utf8EncodeChar c).foldr (fun b n => b.toNat + 256 * n) 0

/-- `append_unicode_range`. -/
def unicodeRange (cls : ClassUnicodeRange) : Drawing R Panic (List UInt8) := do
  let c ← getRange remaining (leBytes cls.start) (leBytes cls.stop + 1)
  if c.isValidChar then return String.utf8EncodeChar (Char.ofNat c) else throw .noChar

/-- `append_byte_range`. The end of the range is an `u8`. -/
def byteRange (cls : ClassBytesRange) : Drawing R Panic (List UInt8) := do
  if cls.stop = 255 then throw .overflow
  else return [UInt8.ofNat (← getRange remaining cls.start.toNat (cls.stop.toNat + 1))]

variable {α : Type} {len : ℕ}

/-- An element of a vector that is drawn. -/
def pick (xs : Fin len → α) : Drawing R Panic α := do
  let i ← draw (getMod remaining len)
  if h : i < len then return xs ⟨i, h⟩ else throw .index

def getLength : StateM R ℕ := do
  let bits ← getMod remaining 8
  getMod remaining (2 * 2 ^ bits)

/-- `get_repetition_range`. -/
def getRepetitionRange (min : ℕ) : Option ℕ → Drawing R Panic ℕ
  | none => do return (← draw (getLength remaining)) + min
  | some max => if min = max then return min else getRange remaining min max

/-- `get_repetitions`. -/
def getRepetitions (min : ℕ) (max : Option ℕ) : Drawing R Panic ℕ :=
  match min, max with
  | 0, some 1 => draw (getMod remaining 2)
  | 0, _ => draw (getLength remaining)
  | 1, _ => do return 1 + (← draw (getLength remaining))
  | min, max => getRepetitionRange remaining min max

/-- One arm of the loop: what is pushed, the top of the stack first, and what is appended. -/
def visit : Hir → Drawing R Panic (List Hir × List UInt8)
  | .empty => pure ([], [])
  | .literal bytes => pure ([], bytes)
  | .unicode _ _ ranges => do return ([], ← unicodeRange remaining (← pick remaining ranges))
  | .bytes _ _ ranges => do return ([], ← byteRange remaining (← pick remaining ranges))
  | .repetition min max _ sub => do
    return (List.replicate (← getRepetitions remaining min max) sub, [])
  | .capture sub => pure ([sub], [])
  | .concat _ hirs => pure (List.ofFn hirs, [])
  | .alternation _ _ _ hirs => do return ([← pick remaining hirs], [])
  | .look => pure ([], [])

/-- The loop over the stack, with a bound on its rounds. -/
def generateFrom : ℕ → List Hir → List UInt8 → Drawing R Panic (List UInt8)
  | _, [], res => pure res
  | 0, _ :: _, _ => throw .unfinished
  | n + 1, hir :: stack, res => do
    let out ← visit remaining hir
    generateFrom n (out.1 ++ stack) (res ++ out.2)

def generate (rounds : ℕ) (hir : Hir) : Drawing R Panic (List UInt8) := do
  let remaining ← draw newScript
  generateFrom remaining rounds [hir] []

/-! ### Expressions that are safe -/

/-- No repetition is taken more often. -/
def maxRepetitions (min : ℕ) (max : Option ℕ) : ℕ := 256 + min + max.getD 0

/-- The rounds that an expression may take. -/
def Hir.rounds : Hir → ℕ
  | .repetition min max _ sub => maxRepetitions min max * sub.rounds + 1
  | .capture sub => sub.rounds + 1
  | .concat _ hirs => (List.ofFn fun i => (hirs i).rounds).sum + 1
  | .alternation _ _ _ hirs => (List.ofFn fun i => (hirs i).rounds).sum + 1
  | _ => 1

/-- Every number between the encodings of the bounds is a code point. -/
def ClassUnicodeRange.Safe (cls : ClassUnicodeRange) : Prop :=
  leBytes cls.start ≤ leBytes cls.stop + 1 ∧ (leBytes cls.start).isValidChar ∧
    ∀ c, leBytes cls.start ≤ c → c ≤ leBytes cls.stop → c.isValidChar

/-- Every class has a range, and all ranges can be drawn from. -/
def Hir.Safe : Hir → Prop
  | .unicode len _ ranges => 0 < len ∧ ∀ i, (ranges i).Safe
  | .bytes len _ ranges => 0 < len ∧ ∀ i, (ranges i).stop ≠ 255
  | .repetition _ _ _ sub => sub.Safe
  | .capture sub => sub.Safe
  | .concat _ hirs => ∀ i, (hirs i).Safe
  | .alternation _ _ _ hirs => ∀ i, (hirs i).Safe
  | _ => True

/-- The expressions that a visit may push. -/
def Hir.Child (h : Hir) : Hir → Prop
  | .repetition _ _ _ sub => h = sub
  | .capture sub => h = sub
  | .concat _ hirs => ∃ i, h = hirs i
  | .alternation _ _ _ hirs => ∃ i, h = hirs i
  | _ => False

theorem Hir.child_induction {motive : Hir → Prop}
    (step : ∀ hir, (∀ h, h.Child hir → motive h) → motive hir) (hir : Hir) : motive hir := by
  induction hir with
  | repetition _ _ _ _ ih | capture _ ih => exact step _ fun h hchild => hchild ▸ ih
  | concat _ _ ih | alternation _ _ _ _ ih =>
    refine step _ fun h hchild => ?_
    obtain ⟨i, rfl⟩ := hchild
    exact ih i
  | _ => exact step _ fun _ hchild => hchild.elim

variable {hir : Hir}

theorem Hir.Safe.child {h : Hir} (hsafe : hir.Safe) (hchild : h.Child hir) : h.Safe := by
  cases hir with
  | repetition | capture => exact hchild ▸ hsafe
  | concat | alternation =>
    obtain ⟨i, rfl⟩ := hchild
    exact hsafe i
  | _ => exact hchild.elim

/-! ### Safe expressions never fail -/

section
variable {remaining}

theorem yields_getMod (val : ℕ) :
    Yields (getMod remaining val : StateM R ℕ) fun i => i = 0 ∨ i < val := by
  unfold getMod
  split
  · exact .pure (.inl rfl)
  · next h =>
    exact (Yields.below (by omega)).mono fun _ => .inr

theorem returns_getRange {min max : ℕ} (h : min ≤ max) :
    (getRange remaining min max : Drawing R Panic ℕ).Returns fun c => min ≤ c ∧ (c = min ∨ c < max) := by
  refine .ofResult_bind (checkedSub_of_le h) ?_
  refine (Drawing.Returns.draw (yields_getMod _)).bind fun i hi => .pure ?_
  omega

variable {α : Type}

theorem returns_pick (remaining : ℕ) (hlen : 0 < len) (xs : Fin len → α) :
    (pick remaining xs : Drawing R Panic α).Returns fun x => ∃ i, x = xs i := by
  refine (Drawing.Returns.draw (yields_getMod len)).bind fun i hi => ?_
  rw [dif_pos (by omega)]
  exact .pure ⟨_, rfl⟩

theorem returns_unicodeRange {cls : ClassUnicodeRange} (h : cls.Safe) :
    (unicodeRange remaining cls : Drawing R Panic _).Returns fun _ => True := by
  obtain ⟨hle, hstart, hbetween⟩ := h
  refine (returns_getRange hle).bind fun c hc => ?_
  have hvalid : c.isValidChar := by
    rcases hc with ⟨hmin, rfl | hmax⟩
    · exact hstart
    · exact hbetween c hmin (by omega)
  rw [if_pos hvalid]
  exact .pure trivial

theorem returns_byteRange {cls : ClassBytesRange} (h : cls.stop ≠ 255) :
    (byteRange remaining cls : Drawing R Panic _).Returns fun _ => True := by
  unfold byteRange
  rw [if_neg h]
  have hle : cls.start.toNat ≤ cls.stop.toNat + 1 :=
    le_succ_of_le (UInt8.le_iff_toNat_le.mp cls.ordered)
  exact (returns_getRange hle).bind fun _ _ => .pure trivial

theorem yields_getLength : Yields (getLength remaining : StateM R ℕ) (· < 256) := by
  refine (yields_getMod 8).bind fun bits hbits => (yields_getMod _).mono fun n hn => ?_
  have hpow : 2 ^ bits ≤ 2 ^ 7 := Nat.pow_le_pow_right (by decide) (by omega)
  omega

theorem returns_getRepetitions {min : ℕ} {max : Option ℕ} (h : ∀ b ∈ max, min ≤ b) :
    (getRepetitions remaining min max : Drawing R Panic ℕ).Returns (· ≤ maxRepetitions min max) := by
  have hlength : (draw (getLength remaining) : Drawing R Panic ℕ).Returns (· < 256) :=
    .draw yields_getLength
  unfold getRepetitions maxRepetitions
  split
  · refine (Drawing.Returns.draw (yields_getMod 2)).mono fun n hn => ?_
    omega
  · exact hlength.mono fun n hn => by omega
  · exact hlength.bind fun n hn => .pure (by omega)
  · unfold getRepetitionRange
    split
    · exact hlength.bind fun n hn => .pure (by omega)
    split
    · exact .pure (by omega)
    · refine (returns_getRange (h _ rfl)).mono fun n hn => ?_
      rw [Option.getD_some]
      omega

theorem returns_visit (remaining : ℕ) (h : hir.Safe) :
    (visit remaining hir : Drawing R Panic _).Returns fun _ => True := by
  cases hir with
  | empty | literal | capture | concat | look => exact .pure trivial
  | unicode len fits ranges =>
    refine (returns_pick remaining h.1 ranges).bind ?_
    rintro _ ⟨i, rfl⟩
    exact (returns_unicodeRange (h.2 i)).bind fun _ _ => .pure trivial
  | bytes len fits ranges =>
    refine (returns_pick remaining h.1 ranges).bind ?_
    rintro _ ⟨i, rfl⟩
    exact (returns_byteRange (h.2 i)).bind fun _ _ => .pure trivial
  | repetition min max ordered sub =>
    exact (returns_getRepetitions ordered).bind fun _ _ => .pure trivial
  | alternation len pos fits hirs =>
    exact (returns_pick remaining pos hirs).bind fun _ _ => .pure trivial

variable {out : List Hir × List UInt8}

/-- A visit pushes only expressions inside, and what is pushed takes fewer rounds. -/
theorem visit_pushes {r r' : R} (hvisit : visit remaining hir r = .ok (out, r')) :
    (∀ h ∈ out.1, h.Child hir) ∧ (out.1.map Hir.rounds).sum < hir.rounds := by
  cases hir with
  | empty | literal | look =>
    cases hvisit
    exact ⟨by simp, one_pos⟩
  | unicode | bytes =>
    obtain ⟨cls, r₁, -, hrest⟩ := bind_eq_ok.mp hvisit
    obtain ⟨piece, r₂, -, hpure⟩ := bind_eq_ok.mp hrest
    cases hpure
    exact ⟨by simp, one_pos⟩
  | repetition min max ordered sub =>
    obtain ⟨n, r₁, hn, hpure⟩ := bind_eq_ok.mp hvisit
    cases hpure
    have hle := (returns_getRepetitions ordered).of_eq_ok hn
    refine ⟨fun h hh => (mem_replicate.mp hh).2, ?_⟩
    rw [map_replicate, sum_replicate_nat, Hir.rounds]
    exact lt_succ_of_le (mul_le_mul_right _ hle)
  | capture sub =>
    cases hvisit
    exact ⟨fun h hh => mem_singleton.mp hh, by simp [Hir.rounds]⟩
  | concat len hirs =>
    cases hvisit
    refine ⟨fun h hh => ?_, ?_⟩
    · obtain ⟨i, rfl⟩ := mem_ofFn.mp hh
      exact ⟨i, rfl⟩
    · rw [map_ofFn, Hir.rounds]
      exact lt_succ_self _
  | alternation len pos fits hirs =>
    obtain ⟨x, r₁, hpick, hpure⟩ := bind_eq_ok.mp hvisit
    cases hpure
    obtain ⟨i, rfl⟩ := (returns_pick remaining pos hirs).of_eq_ok hpick
    have hle : (hirs i).rounds ≤ (List.ofFn fun i => (hirs i).rounds).sum :=
      le_sum_of_mem (mem_ofFn.mpr ⟨i, rfl⟩)
    refine ⟨fun h hh => ⟨i, mem_singleton.mp hh⟩, ?_⟩
    simpa [Hir.rounds] using lt_succ_of_le hle

theorem generateFrom_succ {n : ℕ} {stack : List Hir} {res : List UInt8} {r r' : R}
    (h : visit remaining hir r = .ok (out, r')) :
    generateFrom remaining (n + 1) (hir :: stack) res r =
      generateFrom remaining n (out.1 ++ stack) (res ++ out.2) r' :=
  bind_ok h

/-- After at most as many rounds as they take, the expressions are gone from the stack. -/
def Clears (R : Type) [Rand R] (remaining : ℕ) (hirs : List Hir) : Prop :=
  ∀ (stack : List Hir) (res : List UInt8) (r : R), ∃ k ≤ (hirs.map Hir.rounds).sum, ∃ res' r', ∀ n,
    generateFrom remaining (k + n) (hirs ++ stack) res r = generateFrom remaining n stack res' r'

theorem Clears.append {hirs hirs' : List Hir} (h : Clears R remaining hirs)
    (h' : Clears R remaining hirs') : Clears R remaining (hirs ++ hirs') := by
  intro stack res r
  obtain ⟨k, hle, res₁, r₁, hk⟩ := h (hirs' ++ stack) res r
  obtain ⟨k', hle', res₂, r₂, hk'⟩ := h' stack res₁ r₁
  refine ⟨k + k', ?_, res₂, r₂, fun n => ?_⟩
  · rw [map_append, List.sum_append]
    exact Nat.add_le_add hle hle'
  · rw [append_assoc, Nat.add_assoc, hk, hk']

theorem Clears.all :
    ∀ {hirs : List Hir}, (∀ h ∈ hirs, Clears R remaining [h]) → Clears R remaining hirs
  | [], _ => fun _ res r => ⟨0, le_refl 0, res, r, fun n => by rw [zero_add, nil_append]⟩
  | hir :: hirs, h => by
    have hrest : Clears R remaining hirs := .all fun h' hmem => h h' (mem_cons_of_mem _ hmem)
    exact (h hir mem_cons_self).append hrest

theorem clears_of_safe (remaining : ℕ) (hir : Hir) (hsafe : hir.Safe) :
    Clears R remaining [hir] := by
  induction hir using Hir.child_induction with
  | step hir ih =>
    intro stack res r
    obtain ⟨out, r₁, hvisit, -⟩ := returns_visit remaining hsafe r
    have hchildren := (visit_pushes hvisit).1
    have hpushed : Clears R remaining out.1 :=
      .all fun h hh => ih h (hchildren h hh) (hsafe.child (hchildren h hh))
    obtain ⟨k, hle, res', r', hk⟩ := hpushed stack (res ++ out.2) r₁
    refine ⟨k + 1, ?_, res', r', fun n => ?_⟩
    · rw [map_singleton, sum_singleton]
      exact lt_of_le_of_lt hle (visit_pushes hvisit).2
    · rw [add_right_comm, singleton_append, generateFrom_succ hvisit]
      exact hk n

theorem generate_of_safe (hsafe : hir.Safe) {rounds : ℕ} (hrounds : hir.rounds ≤ rounds) :
    (generate rounds hir : Drawing R Panic _).Returns fun _ => True := by
  refine (Drawing.Returns.draw (P := fun _ => True) fun _ => trivial).bind fun remaining _ r => ?_
  obtain ⟨k, hle, bytes, r', hk⟩ := clears_of_safe remaining hir hsafe [] [] r
  rw [map_singleton, sum_singleton] at hle
  refine ⟨bytes, r', ?_, trivial⟩
  obtain ⟨n, rfl⟩ := Nat.exists_eq_add_of_le (Nat.le_trans hle hrounds)
  rw [← append_nil [hir], hk n]
  cases n <;> rfl

end

/-! ### Unsafe expressions can fail

    Given draws `ds`, the expressions `hirs` pass if a run that returns has come to what lies below
    them on the stack. Any expression can be passed with some draws, and an unsafe one can fail. -/

section
open Drawing
variable {remaining}

/-- Drawings from a list of numbers. -/
abbrev Replay (α : Type) : Type := Drawing (List UInt64) Panic α

theorem exists_leads_zero (remaining val : ℕ) :
    ∃ ds, Leads (draw (getMod remaining val) : Replay ℕ) ds 0 := by
  unfold getMod
  split
  · exact ⟨[], fun _ => rfl⟩
  · exact ⟨[0], leads_below_zero val⟩

theorem exists_leads_getMod (hrem : remaining ≠ 0) (val i : ℕ) (hval : val ≤ 2 ^ 64)
    (hi : i < val) :
    ∃ ds, Leads (draw (getMod remaining val) : Replay ℕ) ds i := by
  unfold getMod
  rw [if_neg (by omega)]
  exact exists_leads_below hval hi

theorem settles_getMod (val : ℕ) : Settles (draw (getMod remaining val) : Replay ℕ) := by
  obtain ⟨ds, hlead⟩ := exists_leads_zero remaining val
  exact hlead.settles

theorem settles_getLength : Settles (draw (getLength remaining) : Replay ℕ) :=
  Settles.bind (f := fun bits => draw (getMod remaining (2 * 2 ^ bits))) (settles_getMod 8)
    fun _ => settles_getMod _

theorem settles_getRange (min max : ℕ) : Settles (getRange remaining min max) := by
  refine Settles.bind ?_ fun span => (settles_getMod span).bind fun _ => pure.settles
  rcases lt_or_ge max min with h | h
  · exact (Fails.ofResult (if_neg (by omega))).settles
  · exact (ofResult (checkedSub_of_le h)).settles

theorem settles_pick (xs : Fin len → α) : Settles (pick remaining xs) := by
  refine (settles_getMod len).bind fun i => ?_
  split
  · exact pure.settles
  · exact Fails.throw.settles

theorem settles_visit (remaining : ℕ) (hir : Hir) : Settles (visit remaining hir) := by
  cases hir with
  | empty | literal | capture | concat | look => exact pure.settles
  | unicode len fits ranges =>
    refine (settles_pick ranges).bind fun cls => Settles.bind ?_ fun _ => pure.settles
    refine (settles_getRange _ _).bind fun c => ?_
    split
    · exact pure.settles
    · exact Fails.throw.settles
  | bytes len fits ranges =>
    refine (settles_pick ranges).bind fun cls => Settles.bind ?_ fun _ => pure.settles
    unfold byteRange
    split
    · exact Fails.throw.settles
    · exact (settles_getRange _ _).bind fun _ => pure.settles
  | repetition min max ordered sub =>
    refine Settles.bind ?_ fun _ => pure.settles
    unfold getRepetitions
    split
    · exact settles_getMod 2
    · exact settles_getLength
    · exact settles_getLength.bind fun _ => pure.settles
    · unfold getRepetitionRange
      split
      · exact settles_getLength.bind fun _ => pure.settles
      · split
        · exact pure.settles
        · exact settles_getRange _ _
  | alternation len pos fits hirs => exact (settles_pick hirs).bind fun _ => pure.settles

/-- With the draws `ds`, a run that returns has come to what is below `hirs`. -/
def Passes (remaining : ℕ) (hirs : List Hir) (ds : List UInt64) : Prop :=
  ∀ n stack res rest out, generateFrom remaining n (hirs ++ stack) res (ds ++ rest) = .ok out →
    ∃ n' res', generateFrom remaining n' stack res' rest = .ok out

/-- With the draws `ds`, a run does not return. -/
def FailsAt (remaining : ℕ) (hirs : List Hir) (ds : List UInt64) : Prop :=
  ∀ n stack res rest out, generateFrom remaining n (hirs ++ stack) res (ds ++ rest) ≠ .ok out

/-- With the draws `ds`, a run that returns has `K` of what is below `hirs`; the two are cases of
    it. -/
def Ends (remaining : ℕ) (hirs : List Hir) (ds : List UInt64)
    (K : List Hir → List UInt64 → List UInt8 × List UInt64 → Prop) : Prop :=
  ∀ n stack res rest out, generateFrom remaining n (hirs ++ stack) res (ds ++ rest) = .ok out → K stack rest out

variable {K : List Hir → List UInt64 → List UInt8 × List UInt64 → Prop}

theorem Passes.append {hirs hirs' : List Hir} {ds ds' : List UInt64} (h : Passes remaining hirs ds)
    (h' : Ends remaining hirs' ds' K) : Ends remaining (hirs ++ hirs') (ds ++ ds') K := by
  intro n stack res rest out hok
  rw [append_assoc, append_assoc] at hok
  obtain ⟨n₁, res₁, hok₁⟩ := h n _ res _ out hok
  exact h' n₁ stack res₁ rest out hok₁

variable {ds : List UInt64}

theorem FailsAt.append_right {hirs : List Hir} (h : FailsAt remaining hirs ds) (hirs' : List Hir) :
    FailsAt remaining (hirs ++ hirs') ds := by
  intro n stack res rest out
  rw [append_assoc]
  exact h n _ res rest out

/-- A run that returns has visited the expression on top of the stack. -/
theorem generateFrom_cons_ok {n : ℕ} {stack : List Hir} {res : List UInt8}
    {r : List UInt64} {out : List UInt8 × List UInt64}
    (h : generateFrom remaining n (hir :: stack) res r = .ok out) :
    ∃ n' visited r', visit remaining hir r = .ok (visited, r') ∧
      generateFrom remaining n' (visited.1 ++ stack) (res ++ visited.2) r' = .ok out := by
  cases n with
  | zero => cases h
  | succ n =>
    obtain ⟨visited, r', hvisit, hrest⟩ := bind_eq_ok.mp h
    exact ⟨n, visited, r', hvisit, hrest⟩

theorem failsAt_of_visit (h : Fails (visit remaining hir) ds) : FailsAt remaining [hir] ds := by
  intro n stack res rest out hok
  obtain ⟨_, visited, r', hvisit, -⟩ := generateFrom_cons_ok hok
  exact h rest visited r' hvisit

theorem ends_of_visit {ds' : List UInt64} {visited : List Hir × List UInt8}
    (h : Leads (visit remaining hir) ds visited)
    (h' : Ends remaining visited.1 ds' K) : Ends remaining [hir] (ds ++ ds') K := by
  intro n stack res rest out hok
  obtain ⟨n', _, r', hvisit, hrest⟩ := generateFrom_cons_ok hok
  rw [append_assoc, h] at hvisit
  cases hvisit
  exact h' n' stack _ rest out hrest

theorem exists_passes_all : ∀ (hirs : List Hir), (∀ h ∈ hirs, ∃ ds, Passes remaining [h] ds) →
    ∃ ds, Passes remaining hirs ds
  | [], _ => ⟨[], fun n _ res _ _ hok => ⟨n, res, hok⟩⟩
  | hir :: hirs, h => by
    obtain ⟨ds, hfirst⟩ := h hir mem_cons_self
    obtain ⟨ds', hrest⟩ := exists_passes_all hirs fun h' hmem => h h' (mem_cons_of_mem _ hmem)
    exact ⟨ds ++ ds', hfirst.append hrest⟩

theorem exists_passes (remaining : ℕ) (hir : Hir) : ∃ ds, Passes remaining [hir] ds := by
  induction hir using Hir.child_induction with
  | step hir ih =>
    obtain ⟨ds, ⟨visited, hlead⟩ | hfail⟩ := settles_visit remaining hir
    · obtain ⟨ds', hpushed⟩ := exists_passes_all _ fun h hh => ih h ((visit_pushes (hlead [])).1 h hh)
      exact ⟨ds ++ ds', ends_of_visit hlead hpushed⟩
    · exact ⟨ds, fun n stack res rest out hok => absurd hok (failsAt_of_visit hfail n stack res rest out)⟩

theorem leBytes_lt (c : Char) : leBytes c < 2 ^ 32 := by
  have hfold : ∀ bytes : List UInt8, bytes.foldr (fun b n => b.toNat + 256 * n) 0 < 256 ^ bytes.length := by
    intro bytes
    induction bytes with
    | nil => decide
    | cons b bytes ih =>
      have hb : b.toNat < 256 := b.toNat_lt
      simp only [foldr_cons, length_cons, pow_succ]
      omega
  refine lt_of_lt_of_le (hfold _) ?_
  rw [String.length_utf8EncodeChar]
  exact Nat.pow_le_pow_right (by decide) c.utf8Size_le_four

theorem leads_getRange {min max i : ℕ} (h : min ≤ max)
    (hlead : Leads (draw (getMod remaining (max - min)) : Replay ℕ) ds i) :
    Leads (getRange remaining min max) ds (i + min) := by
  have hspan : Leads (ofResult (checkedSub max min) : Replay ℕ) [] (max - min) :=
    ofResult (checkedSub_of_le h)
  exact hspan.bind (hlead.map (· + min))

theorem exists_fails_unicodeRange (hrem : remaining ≠ 0) {cls : ClassUnicodeRange}
    (h : ¬ cls.Safe) :
    ∃ ds, Fails (unicodeRange remaining cls) ds := by
  have hstop := leBytes_lt cls.stop
  rcases lt_or_ge (leBytes cls.stop + 1) (leBytes cls.start) with hlt | hge
  · exact ⟨[], (Fails.ofResult (if_neg (by omega))).bind.bind⟩
  -- some number that can be drawn is not a code point
  have hbad : ∃ i, (i = 0 ∨ i < leBytes cls.stop + 1 - leBytes cls.start) ∧
      ¬ (i + leBytes cls.start).isValidChar := by
    by_contra hall
    push Not at hall
    refine h ⟨hge, ?_, fun c hmin hmax => ?_⟩
    · simpa using hall 0 (.inl rfl)
    · have hc := hall (c - leBytes cls.start) (.inr (by omega))
      rwa [Nat.sub_add_cancel hmin] at hc
  obtain ⟨i, hi, hinvalid⟩ := hbad
  obtain ⟨ds, hlead⟩ : ∃ ds, Leads (draw (getMod remaining
      (leBytes cls.stop + 1 - leBytes cls.start)) : Replay ℕ) ds i := by
    rcases hi with rfl | hi
    · exact exists_leads_zero _ _
    · exact exists_leads_getMod hrem _ i (by omega) hi
  refine ⟨ds ++ [], (leads_getRange hge hlead).fails ?_⟩
  rw [if_neg hinvalid]
  exact Fails.throw

theorem exists_leads_pick (hrem : remaining ≠ 0) (fits : len < 2 ^ 64)
    (xs : Fin len → α) (i : Fin len) : ∃ ds, Leads (pick remaining xs) ds (xs i) := by
  obtain ⟨ds, hlead⟩ := exists_leads_getMod hrem len i (le_of_lt fits) i.isLt
  refine ⟨ds ++ [], hlead.bind ?_⟩
  rw [dif_pos i.isLt]
  exact pure

theorem fails_pick_nil (xs : Fin 0 → α) : Fails (pick remaining xs) [] := by
  have hlead : Leads (draw (getMod remaining 0) : Replay ℕ) [] 0 := by
    unfold getMod
    rw [if_pos (.inr rfl)]
    exact fun _ => rfl
  exact hlead.fails Fails.throw

theorem exists_leads_getLength (hrem : remaining ≠ 0) :
    ∃ ds, Leads (draw (getLength remaining) : Replay ℕ) ds 1 := by
  obtain ⟨ds, hbits⟩ := exists_leads_zero remaining 8
  obtain ⟨ds', hlength⟩ := exists_leads_getMod hrem (2 * 2 ^ 0) 1 (by decide) (by decide)
  exact ⟨_, hbits.bind (f := fun bits => draw (getMod remaining (2 * 2 ^ bits))) hlength⟩

theorem exists_leads_getRepetitions (hrem : remaining ≠ 0) {min : ℕ} {max : Option ℕ}
    (ordered : ∀ b ∈ max, min ≤ b) :
    ∃ ds k, Leads (getRepetitions remaining min max) ds (k + 1) := by
  obtain ⟨ds, hlength⟩ := exists_leads_getLength hrem
  match min with
  | 0 =>
    unfold getRepetitions
    split
    · obtain ⟨ds, hlead⟩ := exists_leads_getMod hrem 2 1 (by decide) (by decide)
      exact ⟨ds, 0, hlead⟩
    · exact ⟨ds, 0, hlength⟩
    · contradiction
    · contradiction
  | 1 => exact ⟨ds, 1, hlength.map (1 + ·)⟩
  | min + 2 =>
    have hrange : (getRepetitions remaining (min + 2) max : Replay ℕ) =
        getRepetitionRange remaining (min + 2) max := rfl
    rw [hrange]
    cases max with
    | none =>
      have hmore := hlength.map (· + (min + 2))
      rw [add_comm 1] at hmore
      exact ⟨ds, min + 2, hmore⟩
    | some max =>
      unfold getRepetitionRange
      simp only
      split
      · exact ⟨[], min + 1, pure⟩
      obtain ⟨ds, hzero⟩ := exists_leads_zero remaining (max - (min + 2))
      have hrange := leads_getRange (ordered max rfl) hzero
      rw [zero_add] at hrange
      exact ⟨ds, min + 1, hrange⟩

theorem exists_failsAt (hrem : remaining ≠ 0) (hir : Hir) (hnotSafe : ¬ hir.Safe) :
    ∃ ds, FailsAt remaining [hir] ds := by
  induction hir with
  | empty | literal | look => exact absurd trivial hnotSafe
  | unicode len fits ranges =>
    cases len with
    | zero => exact ⟨[], failsAt_of_visit (fails_pick_nil ranges).bind⟩
    | succ len =>
      obtain ⟨i, hi⟩ := not_forall.mp (not_and.mp hnotSafe (succ_pos _))
      obtain ⟨ds, hlead⟩ := exists_leads_pick hrem fits ranges i
      obtain ⟨ds', hfail⟩ := exists_fails_unicodeRange hrem hi
      exact ⟨ds ++ ds', failsAt_of_visit (hlead.fails hfail.bind)⟩
  | bytes len fits ranges =>
    cases len with
    | zero => exact ⟨[], failsAt_of_visit (fails_pick_nil ranges).bind⟩
    | succ len =>
      obtain ⟨i, hi⟩ := not_forall_not.mp (not_and.mp hnotSafe (succ_pos _))
      obtain ⟨ds, hlead⟩ := exists_leads_pick hrem fits ranges i
      have hfail : Fails (byteRange remaining (ranges i)) [] := by
        unfold byteRange
        rw [if_pos hi]
        exact Fails.throw
      exact ⟨ds ++ [], failsAt_of_visit (hlead.fails hfail.bind)⟩
  | repetition min max ordered sub ih =>
    obtain ⟨ds, k, hlead⟩ := exists_leads_getRepetitions hrem ordered
    obtain ⟨ds', hfail⟩ := ih hnotSafe
    have hpushed := hfail.append_right (List.replicate k sub)
    exact ⟨_, ends_of_visit (hlead.map _) hpushed⟩
  | capture sub ih =>
    obtain ⟨ds, hfail⟩ := ih hnotSafe
    exact ⟨_, ends_of_visit pure hfail⟩
  | concat len hirs ih =>
    obtain ⟨i, hi⟩ := not_forall.mp hnotSafe
    obtain ⟨ds, hfail⟩ := ih i hi
    obtain ⟨before, after, hsplit⟩ := append_of_mem (mem_ofFn.mpr ⟨i, rfl⟩ : hirs i ∈ List.ofFn hirs)
    obtain ⟨ds', hpass⟩ := exists_passes_all before fun h _ => exists_passes remaining h
    have hpushed := FailsAt.append_right (hpass.append hfail) after
    rw [append_assoc, singleton_append, ← hsplit] at hpushed
    exact ⟨_, ends_of_visit pure hpushed⟩
  | alternation len pos fits hirs ih =>
    obtain ⟨i, hi⟩ := not_forall.mp hnotSafe
    obtain ⟨ds, hlead⟩ := exists_leads_pick hrem fits hirs i
    obtain ⟨ds', hfail⟩ := ih i hi
    exact ⟨_, ends_of_visit (hlead.map _) hfail⟩

/-- With some draws no string comes out of an unsafe expression, however many rounds there are. -/
theorem exists_fails_generate (hnotSafe : ¬ hir.Safe) : ∃ ds, ∀ n, Fails (generate n hir) ds := by
  obtain ⟨ds, hfail⟩ := exists_failsAt one_ne_zero hir hnotSafe
  have hscript : Leads (draw newScript : Replay ℕ) [0, 1] 1 := fun _ => rfl
  refine ⟨[0, 1] ++ ds, fun n => hscript.fails fun rest out r => ?_⟩
  have hnot := hfail n [] [] rest (out, r)
  rwa [append_nil] at hnot

end

end Regex

end Bofuzz.Nautilus
