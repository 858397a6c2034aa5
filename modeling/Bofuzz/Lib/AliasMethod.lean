import Mathlib.MeasureTheory.Measure.Lebesgue.Basic
import Mathlib.Probability.Distributions.Uniform

/-! The alias method for sampling from a finite distribution.

    A table gives every item a probability and a partner; a sample draws an item uniformly and takes
    it with its probability, or its partner otherwise. `Loop` is the construction of such a table
    from masses that are one on average: an item of less than one unit is placed together with an
    item of at least one unit, which fills it up and keeps the rest of its own mass. What the loop
    does to its work lists holds for any arithmetic (`Covers`); over an ordered field the table
    gives each item exactly its mass (`Balanced`), and sampling draws it in proportion
    (`draw_pick`). -/

namespace AliasMethod
open List Function
open Option hiding mem_toFinset

section
variable {ι F : Type} [DecidableEq ι]

/-- The items not placed yet with their masses, and the table of those that are. -/
structure Loop (ι F : Type) where
  mass : ι → F
  small : List ι
  large : List ι
  prob : ι → Option F
  partner : ι → Option ι

namespace Loop

/-- The items that are not placed yet. -/
def rest (w : Loop ι F) : List ι := w.small ++ w.large

variable (isSmall : F → Bool) (give : F → F → F)

/-- Place `a`, filled up by `g`, and put `g` back to the list its mass belongs to. -/
def pair (w : Loop ι F) (a g : ι) (small large : List ι) : Loop ι F :=
  let m := give (w.mass g) (w.mass a)
  { mass := Function.update w.mass g m
    small := if isSmall m then g :: small else small
    large := if isSmall m then large else g :: large
    prob := Function.update w.prob a (some (w.mass a))
    partner := Function.update w.partner a (some g) }

/-- Place items until one of the two lists is empty. -/
def run : ℕ → Loop ι F → Loop ι F
  | 0, w => w
  | fuel + 1, w =>
    match w.small, w.large with
    | a :: small, g :: large => run fuel (pair isSmall give w a g small large)
    | _, _ => w

/-- The probabilities once the items that are left get one unit each. -/
def finish (one : F) (w : Loop ι F) : ι → Option F :=
  fun i => if i ∈ w.rest then some one else w.prob i

variable {isSmall give} {w : Loop ι F}

theorem run_induct {P : Loop ι F → Prop}
    (hpair : ∀ w a small g large, w.small = a :: small → w.large = g :: large → P w →
      P (pair isSmall give w a g small large)) :
    ∀ (fuel : ℕ) (w : Loop ι F), P w → P (run isSmall give fuel w)
  | 0, _, h => h
  | fuel + 1, w, h => by
    unfold run
    split
    · next hs hl => exact run_induct hpair fuel _ (hpair _ _ _ _ _ hs hl h)
    · exact h

theorem pair_rest_perm (w : Loop ι F) (a g : ι) (small large : List ι) :
    (pair isSmall give w a g small large).rest.Perm (g :: (small ++ large)) := by
  unfold pair rest
  dsimp only
  split_ifs
  · exact List.Perm.refl _
  · exact perm_middle

omit [DecidableEq ι] in
theorem rest_perm {a g : ι} {small large : List ι} (hs : w.small = a :: small)
    (hl : w.large = g :: large) : w.rest.Perm (a :: g :: (small ++ large)) := by
  rw [rest, hs, hl, cons_append]
  exact perm_middle.cons a

/-- Every placement uses up one item, so that as many rounds as items are enough. -/
theorem run_done : ∀ (fuel : ℕ) (w : Loop ι F), w.rest.length ≤ fuel →
    (run isSmall give fuel w).small = [] ∨ (run isSmall give fuel w).large = []
  | 0, w, h => by
    have hempty : w.small = [] := by
      refine length_eq_zero_iff.mp ?_
      rw [rest, length_append] at h
      omega
    exact .inl hempty
  | fuel + 1, w, h => by
    unfold run
    split
    · next a small g large hs hl =>
      refine run_done fuel _ ?_
      rw [(pair_rest_perm w a g small large).length_eq]
      simp only [rest, hs, hl, length_append, length_cons] at h ⊢
      omega
    · next hnot =>
      cases hs : w.small with
      | nil => exact .inl rfl
      | cons a small =>
        cases hl : w.large with
        | nil => exact .inr rfl
        | cons g large => exact absurd hl (hnot a small g large hs)

/-! ### The work lists -/

/-- Every item is either placed, with a partner among the items, or on one of the lists. -/
structure Covers (items : Finset ι) (w : Loop ι F) : Prop where
  nodup : w.rest.Nodup
  placed : ∀ i, (w.prob i).isSome ↔ i ∈ items ∧ i ∉ w.rest
  rest : ∀ i ∈ w.rest, i ∈ items
  partnered : ∀ i, (w.partner i).isSome ↔ (w.prob i).isSome
  partner : ∀ i j, w.partner i = some j → j ∈ items

variable {items : Finset ι}

omit [DecidableEq ι] in
theorem Covers.prob_none (h : Covers items w) {i : ι} (hi : i ∈ w.rest) : w.prob i = none := by
  rw [← not_isSome_iff_eq_none, h.placed]
  exact fun hplaced => hplaced.2 hi

omit [DecidableEq ι] in
theorem Covers.partner_none (h : Covers items w) {i : ι} (hi : i ∈ w.rest) :
    w.partner i = none := by
  rw [← not_isSome_iff_eq_none, h.partnered, h.prob_none hi]
  exact Bool.false_ne_true

theorem Covers.pair (h : Covers items w) {a g : ι} {small large : List ι}
    (hs : w.small = a :: small) (hl : w.large = g :: large) :
    Covers items (pair isSmall give w a g small large) := by
  have hperm : (Loop.pair isSmall give w a g small large).rest.Perm (g :: (small ++ large)) :=
    pair_rest_perm w a g small large
  have hold := rest_perm hs hl
  obtain ⟨hane, hnodup⟩ := nodup_cons.mp (hold.nodup_iff.mp h.nodup)
  have hmem : ∀ i, i ∈ w.rest ↔ i = a ∨ i ∈ (Loop.pair isSmall give w a g small large).rest := by
    intro i
    rw [hold.mem_iff, hperm.mem_iff, mem_cons]
  have ha : a ∈ items := h.rest a ((hmem a).mpr (.inl rfl))
  have hg : g ∈ items := h.rest g ((hmem g).mpr (.inr (hperm.mem_iff.mpr mem_cons_self)))
  refine ⟨hperm.nodup_iff.mpr hnodup, fun i => ?_, fun i hi => h.rest i ((hmem i).mpr (.inr hi)),
    fun i => ?_, ?_⟩
  · show (update w.prob a (some (w.mass a)) i).isSome ↔ _
    by_cases hi : i = a
    · subst hi
      rw [hperm.mem_iff]
      simp [ha, hane]
    · rw [update_of_ne hi, h.placed, hmem]
      simp [hi]
  · show (update w.partner a (some g) i).isSome ↔
      (update w.prob a (some (w.mass a)) i).isSome
    by_cases hi : i = a
    · subst hi
      simp
    · rw [update_of_ne hi, update_of_ne hi, h.partnered]
  · exact (forall_update_iff w.partner fun _ o => ∀ j, o = some j → j ∈ items).mpr
      ⟨fun j hj => Option.some.inj hj ▸ hg, fun i _ => h.partner i⟩

theorem Covers.run (h : Covers items w) (fuel : ℕ) : Covers items (run isSmall give fuel w) :=
  run_induct (fun _ _ _ _ _ hs hl h => h.pair hs hl) fuel w h

/-- In the end exactly the items have a probability. -/
theorem Covers.finish (h : Covers items w) (one : F) (i : ι) :
    (w.finish one i).isSome ↔ i ∈ items := by
  unfold Loop.finish
  split_ifs with hi
  · simp [h.rest i hi]
  · rw [h.placed]
    simp [hi]

/-- The start: every item is on the list its mass belongs to. -/
def start (isSmall : F → Bool) (items : List ι) (mass : ι → F) : Loop ι F where
  mass
  small := items.filter fun i => isSmall (mass i)
  large := items.filter fun i => !isSmall (mass i)
  prob _ := none
  partner _ := none

omit [DecidableEq ι] in
theorem start_rest_perm (items : List ι) (mass : ι → F) :
    (start isSmall items mass).rest.Perm items :=
  filter_append_perm _ _

theorem start_covers {items : List ι} (hnodup : items.Nodup) (mass : ι → F) :
    Covers items.toFinset (start isSmall items mass) := by
  have hperm : (start isSmall items mass).rest.Perm items := start_rest_perm items mass
  refine ⟨hperm.nodup_iff.mpr hnodup, fun i => ?_, fun i hi => ?_, fun i => Iff.rfl, fun i j h => ?_⟩
  · rw [hperm.mem_iff, mem_toFinset]
    simp [start]
  · exact mem_toFinset.mpr (hperm.mem_iff.mp hi)
  · cases h

/-- The loop does not look at the values beyond the two operations. -/
def map {F' : Type} (f : F → F') (w : Loop ι F) : Loop ι F' where
  mass i := f (w.mass i)
  small := w.small
  large := w.large
  prob i := (w.prob i).map f
  partner := w.partner

theorem finish_map {F' : Type} (f : F → F') (one : F) (w : Loop ι F) :
    (w.map f).finish (f one) = fun i => (w.finish one i).map f := by
  funext i
  show (if i ∈ w.rest then some (f one) else (w.prob i).map f) = (w.finish one i).map f
  unfold finish
  by_cases hi : i ∈ w.rest
  · rw [if_pos hi, if_pos hi, map_some]
  · rw [if_neg hi, if_neg hi]

theorem run_map {F' : Type} {f : F → F'} {isSmall' : F' → Bool} {give' : F' → F' → F'}
    (hsmall : ∀ x, isSmall' (f x) = isSmall x) (hgive : ∀ x y, give' (f x) (f y) = f (give x y)) :
    ∀ (fuel : ℕ) (w : Loop ι F), run isSmall' give' fuel (w.map f) = (run isSmall give fuel w).map f
  | 0, _ => rfl
  | fuel + 1, w => by
    have hpair : ∀ a g small large, pair isSmall' give' (w.map f) a g small large
        = (pair isSmall give w a g small large).map f := by
      intro a g small large
      simp only [pair, map, hgive, hsmall]
      congr 1
      · exact (comp_update f w.mass g _).symm
      · exact (comp_update (Option.map f) w.prob a (some (w.mass a))).symm
    cases hs : w.small with
    | nil => simp only [run, map, hs]
    | cons a small =>
      cases hl : w.large with
      | nil => simp only [run, map, hs, hl]
      | cons g large =>
        have ih := run_map hsmall hgive fuel (pair isSmall give w a g small large)
        rw [← hpair] at ih
        simpa only [run, map, hs, hl] using ih

end Loop
end

/-! ### Masses in an ordered field -/

namespace Loop
variable {ι K : Type} [DecidableEq ι] [Field K] [LinearOrder K]

/-- Less than one unit. -/
def isSmall (m : K) : Bool := decide (m < 1)

/-- What is left of the mass `g` after it has filled `a` up to one unit. -/
def give (g a : K) : K := g + (a - 1)

/-- The probability that placed items leave to their partner `i`. -/
def given (items : Finset ι) (w : Loop ι K) (i : ι) : K :=
  ∑ d ∈ items, if w.partner d = some i then 1 - (w.prob d).getD 1 else 0

/-- The masses on the lists are one on average, and with what the placed items leave they are the
    shares that were asked for. -/
structure Balanced (items : Finset ι) (share : ι → K) (w : Loop ι K) : Prop
    extends Covers items w where
  small : ∀ i ∈ w.small, 0 ≤ w.mass i ∧ w.mass i < 1
  large : ∀ i ∈ w.large, 1 ≤ w.mass i
  prob : ∀ i q, w.prob i = some q → 0 ≤ q ∧ q < 1
  total : (w.rest.map w.mass).sum = w.rest.length
  account : ∀ i ∈ items, share i = (w.prob i).getD (w.mass i) + given items w i

variable {items : Finset ι} {share : ι → K} {w : Loop ι K} {a g : ι} {small large : List ι}

/-- A placement leaves the rest of `a` to `g`, and nothing to anyone else. -/
theorem given_pair (h : Covers items w) (hs : w.small = a :: small) (i : ι) :
    given items (pair isSmall give w a g small large) i
      = given items w i + if g = i then 1 - w.mass a else 0 := by
  have hrest : a ∈ w.rest := mem_append_left _ (hs ▸ mem_cons_self)
  have ha := h.rest a hrest
  unfold given
  rw [← Finset.add_sum_erase items _ ha, ← Finset.add_sum_erase items _ ha, h.partner_none hrest]
  have hsame : ∀ d ∈ items.erase a,
      (if (pair isSmall give w a g small large).partner d = some i then
        1 - ((pair isSmall give w a g small large).prob d).getD 1 else 0)
      = if w.partner d = some i then 1 - (w.prob d).getD 1 else 0 := by
    intro d hd
    have hne := Finset.ne_of_mem_erase hd
    simp only [pair, update_of_ne hne]
  rw [Finset.sum_congr rfl hsame]
  simp only [pair, update_self, Option.some.injEq, getD_some, reduceCtorEq, if_false]
  ring

variable [IsStrictOrderedRing K]

theorem Balanced.pair (h : Balanced items share w) (hs : w.small = a :: small)
    (hl : w.large = g :: large) : Balanced items share (pair isSmall give w a g small large) := by
  set w' := Loop.pair isSmall give w a g small large
  have hold := rest_perm hs hl
  obtain ⟨haside, hnodup⟩ := nodup_cons.mp (hold.nodup_iff.mp h.nodup)
  obtain ⟨hgside, _⟩ := nodup_cons.mp hnodup
  have hag : a ≠ g := fun hag => haside (hag ▸ mem_cons_self)
  have hne : ∀ i ∈ small ++ large, i ≠ g := fun i hi hig => hgside (hig ▸ hi)
  have ha := h.small a (hs ▸ mem_cons_self)
  have hg := h.large g (hl ▸ mem_cons_self)
  have hm : 0 ≤ give (w.mass g) (w.mass a) := by
    unfold give
    linarith
  have hmass : ∀ i, w'.mass i = if i = g then give (w.mass g) (w.mass a) else w.mass i :=
    fun i => update_apply _ _ _ _
  have hself : w'.mass g = give (w.mass g) (w.mass a) := (hmass g).trans (if_pos rfl)
  have hkept : ∀ i ∈ small ++ large, w'.mass i = w.mass i :=
    fun i hi => (hmass i).trans (if_neg (hne i hi))
  refine { toCovers := h.toCovers.pair hs hl, small := ?_, large := ?_, prob := ?_, total := ?_,
           account := ?_ }
  · have hsmall : ∀ i ∈ small, 0 ≤ w'.mass i ∧ w'.mass i < 1 := fun i hi => by
      rw [hkept i (mem_append_left _ hi)]
      exact h.small i (hs ▸ .tail _ hi)
    show ∀ i ∈ if isSmall (give (w.mass g) (w.mass a)) then g :: small else small, _
    split_ifs with hlt
    · exact forall_mem_cons.mpr ⟨hself ▸ ⟨hm, of_decide_eq_true hlt⟩, hsmall⟩
    · exact hsmall
  · have hlarge : ∀ i ∈ large, 1 ≤ w'.mass i := fun i hi => by
      rw [hkept i (mem_append_right _ hi)]
      exact h.large i (hl ▸ .tail _ hi)
    show ∀ i ∈ if isSmall (give (w.mass g) (w.mass a)) then large else g :: large, _
    split_ifs with hlt
    · exact hlarge
    · exact forall_mem_cons.mpr ⟨hself ▸ not_lt.mp fun hsmall => hlt (decide_eq_true hsmall), hlarge⟩
  · exact (forall_update_iff w.prob fun _ o => ∀ q, o = some q → 0 ≤ q ∧ q < 1).mpr
      ⟨fun q hq => Option.some.inj hq ▸ ha, fun i _ => h.prob i⟩
  · have hperm : w'.rest.Perm (g :: (small ++ large)) := pair_rest_perm w a g small large
    have htotal := h.total
    have hsame : (small ++ large).map w'.mass = (small ++ large).map w.mass := map_congr_left hkept
    rw [(hold.map _).sum_eq, hold.length_eq, map_cons, map_cons, sum_cons,
      sum_cons, length_cons, length_cons] at htotal
    rw [(hperm.map _).sum_eq, hperm.length_eq, map_cons, sum_cons, hself, hsame, length_cons, give]
    push_cast at htotal ⊢
    linarith
  · intro i hi
    have hprob : w'.prob i = if i = a then some (w.mass a) else w.prob i := update_apply _ _ _ _
    rw [h.account i hi, given_pair h.toCovers hs, hprob, hmass]
    -- the placed item, the one that filled it up, and the others
    by_cases hia : i = a
    · subst hia
      rw [h.prob_none (hold.mem_iff.mpr mem_cons_self), if_pos rfl, if_neg hag.symm]
      simp
    · rw [if_neg hia]
      by_cases hig : i = g
      · subst hig
        rw [h.prob_none (hold.mem_iff.mpr (.tail _ mem_cons_self)), if_pos rfl, if_pos rfl,
          getD_none, getD_none, give]
        ring
      · rw [if_neg hig, if_neg (Ne.symm hig), add_zero]

omit [IsStrictOrderedRing K] in
/-- Non-negative masses that are one on average. -/
theorem balanced_start {items : List ι} (hnodup : items.Nodup) {mass : ι → K}
    (hnonneg : ∀ i ∈ items, 0 ≤ mass i) (htotal : (items.map mass).sum = items.length) :
    Balanced items.toFinset mass (start isSmall items mass) := by
  have hperm : (start isSmall items mass).rest.Perm items := start_rest_perm items mass
  refine { toCovers := start_covers hnodup mass, small := ?_, large := ?_, prob := ?_, total := ?_,
           account := ?_ }
  · intro i hi
    obtain ⟨hmem, hlt⟩ := mem_filter.mp hi
    exact ⟨hnonneg i hmem, of_decide_eq_true hlt⟩
  · intro i hi
    obtain ⟨_, hlt⟩ := mem_filter.mp hi
    simpa [isSmall, start] using hlt
  · intro i q hq
    cases hq
  · rw [(hperm.map _).sum_eq, hperm.length_eq]
    exact htotal
  · intro i _
    simp [start, given]

theorem Balanced.run (h : Balanced items share w) (fuel : ℕ) :
    Balanced items share (run isSmall give fuel w) :=
  run_induct (fun _ _ _ _ _ hs hl h => h.pair hs hl) fuel w h

omit [DecidableEq ι] in
theorem sum_lt_length {f : ι → K} :
    ∀ {l : List ι}, l ≠ [] → (∀ i ∈ l, f i < 1) → (l.map f).sum < l.length
  | [i], _, h => by simpa using h i
  | i :: j :: l, _, h => by
    have ih := sum_lt_length (cons_ne_nil j l) fun k hk => h k (.tail _ hk)
    have hi := h i mem_cons_self
    rw [map_cons, sum_cons, length_cons]
    push_cast at ih ⊢
    linarith

omit [DecidableEq ι] in
theorem eq_one_of_sum_eq {f : ι → K} : ∀ {l : List ι}, (∀ i ∈ l, 1 ≤ f i) →
    (l.map f).sum = l.length → ∀ i ∈ l, f i = 1
  | [], _, _ => by simp
  | j :: l, h, hsum => by
    have hj := h j mem_cons_self
    have hl : ∀ i ∈ l, 1 ≤ f i := fun i hi => h i (.tail _ hi)
    have hle : (l.length : K) ≤ (l.map f).sum := by
      have := card_nsmul_le_sum (l.map f) 1 (by simpa using hl)
      simpa using this
    rw [map_cons, sum_cons, length_cons] at hsum
    push_cast at hsum
    have hsum' : (l.map f).sum = l.length := by linarith
    intro i hi
    rcases mem_cons.mp hi with rfl | hi
    · linarith
    · exact eq_one_of_sum_eq hl hsum' i hi

/-- Once a list is empty, the items that are left have one unit each. -/
theorem Balanced.rest_eq_one (h : Balanced items share w) (hdone : w.small = [] ∨ w.large = []) :
    ∀ i ∈ w.rest, w.mass i = 1 := by
  have htotal := h.total
  rcases hdone with hnil | hnil
  · rw [Loop.rest, hnil, nil_append] at htotal ⊢
    exact eq_one_of_sum_eq h.large htotal
  rw [Loop.rest, hnil, append_nil] at htotal ⊢
  have hempty : w.small = [] := by
    by_contra hne
    exact absurd htotal (sum_lt_length hne fun i hi => (h.small i hi).2).ne
  simp [hempty]

end Loop

/-! ### Tables -/

section
variable {ι K : Type} [DecidableEq ι] [Field K] [LinearOrder K]

/-- Each item gets its share: with its own probability, or as the partner of another item. -/
structure IsTable (items : Finset ι) (share : ι → K) (prob : ι → Option K)
    (partner : ι → Option ι) :
    Prop where
  unit : ∀ i ∈ items, ∃ q, prob i = some q ∧ 0 ≤ q ∧ q ≤ 1 ∧ (q < 1 → ∃ j ∈ items, partner i = some j)
  account : ∀ i ∈ items, share i = (prob i).getD 1
    + ∑ d ∈ items, if partner d = some i then 1 - (prob d).getD 1 else 0

variable {items : Finset ι}

/-- The loop ends with a table of the shares. -/
theorem Loop.Balanced.isTable [IsStrictOrderedRing K] {share : ι → K}
    {w : Loop ι K} (h : Balanced items share w) (hdone : w.small = [] ∨ w.large = []) :
    IsTable items share (w.finish 1) w.partner := by
  constructor
  · intro i hi
    by_cases hrest : i ∈ w.rest
    · exact ⟨1, if_pos hrest, zero_le_one, le_refl 1, fun hlt => absurd hlt (lt_irrefl 1)⟩
    obtain ⟨q, hq⟩ := isSome_iff_exists.mp ((h.placed i).mpr ⟨hi, hrest⟩)
    obtain ⟨hnonneg, hlt⟩ := h.prob i q hq
    refine ⟨q, (if_neg hrest).trans hq, hnonneg, hlt.le, fun _ => ?_⟩
    obtain ⟨j, hj⟩ := isSome_iff_exists.mp ((h.partnered i).mpr (hq ▸ rfl))
    exact ⟨j, h.partner i j hj, hj⟩
  · intro i hi
    have hown : (w.prob i).getD (w.mass i) = (w.finish 1 i).getD 1 := by
      unfold Loop.finish
      split_ifs with hrest
      · rw [h.prob_none hrest, getD_none, getD_some, h.rest_eq_one hdone i hrest]
      · obtain ⟨q, hq⟩ := isSome_iff_exists.mp ((h.placed i).mpr ⟨hi, hrest⟩)
        rw [hq, getD_some, getD_some]
    rw [h.account i hi, hown, Loop.given]
    congr 1
    refine Finset.sum_congr rfl fun d _ => ?_
    unfold Loop.finish
    split_ifs with hpartner hrest
    · rw [h.partner_none hrest] at hpartner
      cases hpartner
    · rfl
    · rfl

theorem IsTable.map {L : Type} [Field L] [LinearOrder L] {share : ι → K}
    {prob : ι → Option K} {partner : ι → Option ι} (h : IsTable items share prob partner)
    (f : K →+* L) (hf : StrictMono f) :
    IsTable items (fun i => f (share i)) (fun i => (prob i).map f) partner := by
  have hgetD : ∀ i, ((prob i).map f).getD 1 = f ((prob i).getD 1) := by
    intro i
    cases prob i <;> simp
  constructor
  · intro i hi
    obtain ⟨q, hq, hnonneg, hle, hpartner⟩ := h.unit i hi
    refine ⟨f q, by rw [hq]; rfl, ?_, ?_, fun hlt => hpartner ?_⟩
    · rw [← map_zero f]
      exact hf.monotone hnonneg
    · rw [← map_one f]
      exact hf.monotone hle
    · rw [← map_one f] at hlt
      exact hf.lt_iff_lt.mp hlt
  · intro i hi
    simp only [h.account i hi, hgetD, map_add, map_sum, apply_ite f, map_sub, map_one, map_zero]

end

/-! ### Sampling -/

section
open MeasureTheory

variable {ι : Type} [DecidableEq ι]

/-- The item that a table answers for a drawn item and a drawn number. -/
noncomputable def pick (prob : ι → Option ℝ) (partner : ι → Option ι) (s : ι) (p : ℝ) : Option ι :=
  (prob s).bind fun q => if p < q then some s else partner s

/-- An item drawn uniformly and, independently, a number drawn uniformly from `[0, 1)`. -/
noncomputable def draw [MeasurableSpace ι] (items : Finset ι) (hne : items.Nonempty) :
    Measure (ι × ℝ) :=
  (PMF.uniformOfFinset items hne).toMeasure.prod (volume.restrict (Set.Ico 0 1))

theorem volume_choice {q : ℝ} (h0 : 0 ≤ q) (h1 : q ≤ 1) (A B : Prop) [Decidable A] [Decidable B] :
    volume.restrict (Set.Ico (0 : ℝ) 1) {p | if p < q then A else B}
      = ENNReal.ofReal ((if A then q else 0) + if B then 1 - q else 0) := by
  by_cases hA : A <;> by_cases hB : B <;> simp only [hA, hB, if_true, if_false]
  · simp
  · have hset : {p : ℝ | if p < q then True else False} = Set.Iio q := by
      ext p
      simp
    rw [hset, Measure.restrict_apply measurableSet_Iio, Set.inter_comm, Set.Ico_inter_Iio,
      min_eq_right h1, Real.volume_Ico]
    simp
  · have hset : {p : ℝ | if p < q then False else True} = Set.Ici q := by
      ext p
      simp
    rw [hset, Measure.restrict_apply measurableSet_Ici, Set.inter_comm, Set.Ico_inter_Ici,
      max_eq_right h0, Real.volume_Ico]
    simp
  · simp

variable [MeasurableSpace ι] [DiscreteMeasurableSpace ι] [Countable ι]

omit [DecidableEq ι] in
/-- The probability of an event is the mean of its probabilities for the items. -/
theorem draw_apply {items : Finset ι} (hne : items.Nonempty) {E : ι → ℝ → Prop}
    (hE : ∀ s, MeasurableSet {p | E s p}) :
    draw items hne {sp | E sp.1 sp.2}
      = (∑ s ∈ items, volume.restrict (Set.Ico (0 : ℝ) 1) {p | E s p}) / items.card := by
  have hmeas : MeasurableSet {sp : ι × ℝ | E sp.1 sp.2} := by
    have hunion : {sp : ι × ℝ | E sp.1 sp.2} = ⋃ s, {s} ×ˢ {p | E s p} := by
      ext ⟨s, p⟩
      simp
    rw [hunion]
    exact MeasurableSet.iUnion fun s => (MeasurableSet.of_discrete).prod (hE s)
  rw [draw, Measure.prod_apply hmeas, lintegral_countable', tsum_eq_sum (s := items)]
  · rw [ENNReal.div_eq_inv_mul, Finset.mul_sum]
    refine Finset.sum_congr rfl fun s hs => ?_
    rw [PMF.toMeasure_apply_singleton _ _ (measurableSet_singleton s),
      PMF.uniformOfFinset_apply_of_mem hne hs, mul_comm]
    rfl
  · intro s hs
    rw [PMF.toMeasure_apply_singleton _ _ (measurableSet_singleton s),
      PMF.uniformOfFinset_apply_of_notMem hne hs, mul_zero]

theorem measurable_choice (q : ℝ) (A B : Prop) :
    MeasurableSet {p : ℝ | if p < q then A else B} := by
  have hset : {p : ℝ | if p < q then A else B}
      = (Set.Iio q ∩ {_p : ℝ | A}) ∪ (Set.Ici q ∩ {_p : ℝ | B}) := by
    ext p
    by_cases hp : p < q
    · simp [hp]
    · simp [hp, not_lt.mp hp]
  rw [hset]
  exact (measurableSet_Iio.inter (.const A)).union (measurableSet_Ici.inter (.const B))

/-- Sampling from a table draws each item in proportion to its share. -/
theorem draw_pick {items : Finset ι} (hne : items.Nonempty) {share : ι → ℝ} {prob : ι → Option ℝ}
    {partner : ι → Option ι} (h : IsTable items share prob partner) {i : ι} (hi : i ∈ items) :
    draw items hne {sp | pick prob partner sp.1 sp.2 = some i} =
      ENNReal.ofReal (share i / items.card) := by
  have hset : ∀ s q, prob s = some q → {p : ℝ | pick prob partner s p = some i}
      = {p | if p < q then s = i else partner s = some i} := by
    intro s q hq
    ext p
    simp only [pick, hq, bind_some, Set.mem_ofPred_eq]
    split_ifs <;> simp
  have hmeas : ∀ s, MeasurableSet {p : ℝ | pick prob partner s p = some i} := by
    intro s
    cases hq : prob s with
    | none => simp [pick, hq]
    | some q =>
      rw [hset s q hq]
      exact measurable_choice q _ _
  have hvolume : ∀ s ∈ items, volume.restrict (Set.Ico (0 : ℝ) 1)
      {p | pick prob partner s p = some i} = ENNReal.ofReal ((if s = i then (prob s).getD 1 else 0)
        + if partner s = some i then 1 - (prob s).getD 1 else 0) := by
    intro s hs
    obtain ⟨q, hq, h0, h1, _⟩ := h.unit s hs
    rw [hset s q hq, volume_choice h0 h1, hq, getD_some]
  have hnonneg : ∀ s ∈ items, 0 ≤ (if s = i then (prob s).getD 1 else 0)
      + if partner s = some i then 1 - (prob s).getD 1 else 0 := by
    intro s hs
    obtain ⟨q, hq, h0, h1, _⟩ := h.unit s hs
    rw [hq, getD_some]
    split_ifs <;> linarith
  have hcard : (0 : ℝ) < items.card := Nat.cast_pos.mpr hne.card_pos
  rw [draw_apply hne hmeas, Finset.sum_congr rfl hvolume, ← ENNReal.ofReal_sum_of_nonneg hnonneg,
    Finset.sum_add_distrib, Finset.sum_ite_eq' items i, if_pos hi, ← h.account i hi,
    ENNReal.ofReal_div_of_pos hcard, ENNReal.ofReal_natCast]

end

end AliasMethod
