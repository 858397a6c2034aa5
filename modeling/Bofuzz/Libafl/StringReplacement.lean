import Bofuzz.Lib.Loop
import Bofuzz.Libafl.InsertMutators

/-! Replacement of a token in a generalized input (`GrimoireStringReplacementMutator` of
    `libafl/src/mutators/grimoire.rs`).

    An item is scanned while more bytes are left than the token has. What is left gets shorter by
    the token with every replacement, so that only the empty token is replaced for ever. An
    occurrence at the end of the item is not seen. -/

namespace Bofuzz.StringReplacement
open BytesSwap Loop Bofuzz.Rand List

inductive GeneralizedItem where
  | bytes (bytes : Bytes)
  | gap
  deriving DecidableEq

/-- What is drawn. -/
structure Draws where
  token1 : Bytes
  token2 : Bytes
  stopAtFirst : Bool
  randIdx : UInt64

/-- The variables of the scan of an item. -/
structure Scan where
  bytes : Bytes
  i : ℕ
  mutated : MutationResult

section
variable {R : Type} [Rand R]

/-- `coinflip(0.5)`: the lower 53 bits, as a fraction of `2 ^ 53`. -/
def coinflipHalf : StateM R Bool := do return (← draw).toNat % 2 ^ 53 < 2 ^ 52

def drawTokens (tokens : List Bytes) : StateM R Draws := do
  let tokenFind ← below tokens.length
  let mut tokenReplace ← below tokens.length
  if tokenFind = tokenReplace then tokenReplace ← below tokens.length
  let stopAtFirst ← coinflipHalf
  return ⟨tokens.getD tokenFind [], tokens.getD tokenReplace [], stopAtFirst, ← draw⟩

end

namespace Draws
variable (d : Draws)

/-- The inner loop goes on. The `break` out of both loops is taken after the first replacement. -/
def more (s : Scan) : Bool :=
  ¬ (d.stopAtFirst ∧ s.mutated = .mutated) ∧
    d.token1.length ≤ s.bytes.length ∧ s.i < s.bytes.length - d.token1.length

def round (s : Scan) : Scan :=
  if d.token1 <+: s.bytes.drop s.i then
    { bytes := s.bytes.take s.i ++ d.token2 ++ s.bytes.drop (s.i + d.token1.length)
      i := s.i + d.token2.length, mutated := .mutated }
  else { s with i := s.i + 1 }

def scanItem (s : MutationResult × List GeneralizedItem) :
    GeneralizedItem → Prog (MutationResult × List GeneralizedItem)
  | .gap => pure (s.1, s.2 ++ [.gap])
  | .bytes bytes => do
    let t ← whileLoop d.more d.round ⟨bytes, 0, s.1⟩
    return (t.mutated, s.2 ++ [.bytes t.bytes])

/-- The two loops over the items. -/
def replace (gen : List GeneralizedItem) : Prog (MutationResult × List GeneralizedItem) := do
  let randIdx := fastBound d.randIdx gen.length
  let s ← (gen.take randIdx).foldlM d.scanItem (.skipped, [])
  if s.1 = .skipped ∨ ¬ d.stopAtFirst then (gen.drop randIdx).foldlM d.scanItem s
  else return (s.1, s.2 ++ gen.drop randIdx)

end Draws

/-- `GrimoireStringReplacementMutator::mutate`. -/
def mutate {R : Type} [Rand R] (tokens : Option (List Bytes)) (gen : List GeneralizedItem)
    (rand : R) :
    Prog (Except Error MutationResult × List GeneralizedItem) := do
  if tokens.getD [] = [] then return (.ok .skipped, gen)
  else if gen = [] then return (.error (.illegalState .noGeneralized), gen)
  else
    let out ← (drawTokens (tokens.getD []) rand).1.replace gen
    return (.ok out.1, out.2)

/-- The bytes of an item, none for a gap. -/
def GeneralizedItem.toBytes : GeneralizedItem → Bytes
  | .bytes b => b
  | .gap => []

namespace Draws
variable {d : Draws} {s : Scan}

theorem more_iff : d.more s = true ↔ (d.stopAtFirst = true → s.mutated = .skipped) ∧
    s.i + d.token1.length < s.bytes.length := by
  have hmutated : ¬ s.mutated = .mutated ↔ s.mutated = .skipped := by cases s.mutated <;> simp
  rw [more, decide_eq_true_iff, not_and, hmutated]
  refine and_congr_right fun _ => ?_
  omega

/-- What is left to scan, nothing once the loop is left. -/
def size (d : Draws) (s : Scan) : ℕ := if d.more s then s.bytes.length - s.i else 0

theorem size_round (hmore : d.more s = true) (h : d.token1 = [] → d.stopAtFirst = true) :
    d.size (d.round s) < d.size s := by
  have hlt := (more_iff.mp hmore).2
  rw [size, size, if_pos hmore]
  split_ifs with hmore'
  · obtain ⟨hstop, hlt'⟩ := more_iff.mp hmore'
    unfold round at hstop hlt' ⊢
    split_ifs at hstop hlt' ⊢ with htoken
    · have hpos : 0 < d.token1.length := by
        refine length_pos_iff.mpr fun hnil => ?_
        cases hstop (h hnil)
      simp only [length_append, length_take, length_drop]
      omega
    · change s.bytes.length - (s.i + 1) < _
      omega
  · omega

/-- The scan of the item goes on for ever. -/
def Endless (d : Draws) (item : GeneralizedItem) : Prop :=
  d.token1 = [] ∧ d.stopAtFirst = false ∧ item.toBytes ≠ []

variable {item : GeneralizedItem}

theorem ends_scanItem (h : ¬ d.Endless item) (s) : Ends (d.scanItem s item) fun _ => True := by
  cases item with
  | gap => exact .pure trivial
  | bytes bytes =>
    refine Ends.bind (Q := fun _ => True) ?_ fun _ _ => .pure trivial
    refine (Ends.whileLoop (I := fun t => d.token1 = [] → d.stopAtFirst = false → t.bytes = []) d.size
      (fun h1 h2 => ?_) fun t hI hmore => ?_).mono fun _ _ => trivial
    · by_contra hne
      exact h ⟨h1, h2, hne⟩
    · have hlt := (more_iff.mp hmore).2
      have hok : d.token1 = [] → d.stopAtFirst = true := by
        intro h1
        by_contra h2
        rw [hI h1 (Bool.eq_false_of_not_eq_true h2)] at hlt
        simp at hlt
      refine ⟨fun h1 h2 => ?_, size_round hmore hok⟩
      rw [hok h1] at h2
      cases h2

theorem replace_of_not_stop (h : d.stopAtFirst = false) (gen : List GeneralizedItem) :
    d.replace gen = gen.foldlM d.scanItem (.skipped, []) := by
  rw [← take_append_drop (fastBound d.randIdx gen.length) gen, foldlM_append]
  simp [replace, h]

variable {gen : List GeneralizedItem}

theorem ends_replace (h : ∀ item ∈ gen, ¬ d.Endless item) : Ends (d.replace gen) fun _ => True := by
  have hloop : ∀ items ⊆ gen, ∀ s, Ends (items.foldlM d.scanItem s) fun _ => True := by
    intro items hsub s
    refine Ends.foldlM (I := fun _ _ => True) trivial fun done item hitem s _ => ?_
    exact ends_scanItem (h item (hsub hitem)) s
  refine (hloop _ (take_subset _ _) _).bind fun s _ => ?_
  split_ifs
  · exact hloop _ (drop_subset _ _) s
  · exact .pure trivial

theorem scanItem_of_endless (h : d.Endless item) (s) (bound : ℕ) :
    d.scanItem s item bound = none := by
  obtain ⟨h1, h2, h3⟩ := h
  cases item with
  | gap => exact absurd rfl h3
  | bytes bytes =>
    have hstep : ∀ t : Scan, t.i < t.bytes.length →
        d.more t = true ∧ (d.round t).i < (d.round t).bytes.length := by
      intro t hlt
      refine ⟨more_iff.mpr ⟨by simp [h2], by simpa [h1] using hlt⟩, ?_⟩
      simp only [round, h1, nil_prefix, if_true, length_append, length_take, length_drop, length_nil]
      omega
    rw [scanItem, bind_apply, whileLoop, rounds_eq_none hstep (length_pos_iff.mpr h3)]
    rfl

theorem foldlM_of_endless (hitem : item ∈ gen) (h : d.Endless item) (s)
    (bound : ℕ) : gen.foldlM d.scanItem s bound = none := by
  induction gen generalizing s with
  | nil => cases hitem
  | cons a gen ih =>
    rw [foldlM_cons, bind_apply]
    rcases mem_cons.mp hitem with rfl | hmem
    · rw [scanItem_of_endless h]
      rfl
    · cases d.scanItem s a bound with
      | none => rfl
      | some s' => exact ih hmem s'

end Draws

section
variable {R : Type} [Rand R] {tokens : Option (List Bytes)} {gen : List GeneralizedItem} {rand : R}

theorem not_ends_mutate (item : GeneralizedItem) (htokens : tokens.getD [] ≠ [])
    (hitem : item ∈ gen) (h : (drawTokens (tokens.getD []) rand).1.Endless item) :
    ¬ Ends (mutate tokens gen rand) fun _ => True := by
  rintro ⟨out, -, -, n, hn⟩
  have hsome := hn n le_rfl
  rw [mutate, if_neg htokens, if_neg (ne_nil_of_mem hitem), bind_apply,
    Draws.replace_of_not_stop h.2.1, Draws.foldlM_of_endless hitem h] at hsome
  cases hsome

/-- The mutator comes to an end exactly if it did not draw the empty token to replace it everywhere
    in an input with bytes. -/
theorem mutate_ends_iff (tokens : Option (List Bytes)) (gen : List GeneralizedItem) (rand : R) :
    Ends (mutate tokens gen rand) (fun _ => True) ↔
      tokens.getD [] = [] ∨ ∀ item ∈ gen, ¬ (drawTokens (tokens.getD []) rand).1.Endless item := by
  constructor
  · intro h
    by_contra hstuck
    push Not at hstuck
    obtain ⟨htokens, item, hitem, hendless⟩ := hstuck
    exact not_ends_mutate item htokens hitem hendless h
  · intro h
    unfold mutate
    split_ifs with htokens hgen
    · exact .pure trivial
    · exact .pure trivial
    · exact (Draws.ends_replace (h.resolve_left htokens)).bind fun _ _ => .pure trivial

end

/-- The line `a="\"` is the empty token. -/
theorem empty_token_never_replaced :
    InsertMutators.addFromFile [] ["a=\"\\\"".toList] = .ok [[]] ∧
      ¬ Ends (mutate (some [[]]) [.gap, .bytes [1], .gap] ([0, 0, 0, 4503599627370496] : List UInt64)) fun _ => True := by
  refine ⟨by decide +kernel, not_ends_mutate (.bytes [1]) (by decide) (by decide) ?_⟩
  exact ⟨by decide +kernel, by decide +kernel, by decide⟩

end Bofuzz.StringReplacement
