import Bofuzz.Libafl.Nautilus.Evaluations
import Bofuzz.Libafl.Nautilus.Generate

/-! When generation returns (`context.rs`, `rule.rs`, `tree.rs`).

    With the sizes that `initialize` computes, each child of a rule can be given its minimum, some
    rule is short enough for it, and no assertion fails. There remain three ways to panic that
    depend on the grammar alone: sizes that overflow, a rule with more children than an `i32` can
    count, and a regular expression that is not safe. -/

namespace Bofuzz.Nautilus
open Bofuzz.Rand Result Preorder List Nat Regex Option

variable {G : Grammar} {R C : Type} [Rand R] [Rand C]

/-- The steps of `Regex.generate` that a rule asks for. -/
def Rule.rounds : Rule → ℕ
  | .regExp _ hir => hir.rounds
  | _ => 0

/-- A regular expression has to be safe. -/
def Rule.Safe : Rule → Prop
  | .regExp _ hir => hir.Safe
  | _ => True

/-- Enough steps for the expressions of all rules. -/
def Grammar.regexRounds (G : Grammar) : ℕ := (G.rules.map Rule.rounds).sum

/-- In a sorted list everything up to the bound is in front. -/
theorem mem_takeWhile_of_sorted {α : Type} {f : α → ℕ} {bound : ℕ} {x : α} : ∀ {xs : List α},
    xs.Pairwise (f · ≤ f ·) → x ∈ xs → f x ≤ bound → x ∈ xs.takeWhile fun a => f a ≤ bound
  | [], _, hx, _ => absurd hx not_mem_nil
  | a :: xs, hsorted, hx, hle => by
    obtain ⟨hfirst, hrest⟩ := pairwise_cons.mp hsorted
    rcases mem_cons.mp hx with rfl | hx
    · rw [takeWhile_cons, if_pos (decide_eq_true hle)]
      exact mem_cons_self
    · have ha : f a ≤ bound := le_trans (hfirst x hx) hle
      rw [takeWhile_cons, if_pos (decide_eq_true ha)]
      exact mem_cons_of_mem _ (mem_takeWhile_of_sorted hrest hx hle)

section
variable {withSeed : UInt64 → C} {ctx : Context G} {rounds : ℕ}

theorem checkedAdd_of_lt {a b : ℕ} (h : a + b < 2 ^ 64) : checkedAdd a b = .ok (a + b) := if_pos h

theorem check_of {p : Prop} [Decidable p] (h : p) : check p = .ok () := if_pos h

theorem yields_proposals (total : ℕ) :
    ∀ n res : ℕ, Yields (proposals total n res : StateM R ℕ) (· ≤ res)
  | 0, _ => .pure (le_refl _)
  | n + 1, res => by
    refine (Yields.between (zero_le total)).bind fun proposal _ =>
      (yields_proposals total n _).mono fun out hout => ?_
    split at hout <;> omega

theorem returns_simpleGetRandomLen {n : ℕ} (hn : n < 2 ^ 31) (total : ℕ) :
    (simpleGetRandomLen n total : Drawing R Panic ℕ).Returns (· ≤ total) := by
  rw [simpleGetRandomLen, if_pos hn]
  exact .draw (yields_proposals total _ total)

theorem returns_keepRule (hoptions : ∀ r, (ctx.rulesToNumOptions r).isSome) (r : G.RuleId) :
    (keepRule ctx 100 r : Drawing R Panic Bool).Returns (· = true) := by
  obtain ⟨options, hr⟩ := isSome_iff_exists.mp (hoptions r)
  refine .ofResult_bind (entry_eq_ok.mpr hr) ?_
  split
  · exact .pure rfl
  · refine (Drawing.Returns.draw (Yields.below (by decide : 0 < 100))).bind fun n hn => .pure ?_
    exact decide_eq_true (le_of_lt hn)

/-- All candidates in front of the first one that is too long are applicable. -/
theorem returns_applicableRules (hready : ctx.Ready) (maxLen : ℕ) : ∀ candidates : List G.RuleId,
    (applicableRules ctx maxLen 100 candidates : Drawing R Panic _).Returns
      (· = candidates.takeWhile fun r => (ctx.rulesToMinSize r).getD 0 ≤ maxLen)
  | [] => .pure rfl
  | c :: candidates => by
    obtain ⟨m, hm, -⟩ := hready.rules c
    refine .ofResult_bind (entry_eq_ok.mpr hm) ?_
    rw [takeWhile_cons, hm, getD_some]
    split
    · next hle =>
      refine (returns_keepRule hready.options c).bind ?_
      rintro _ rfl
      refine (returns_applicableRules hready maxLen candidates).bind ?_
      rintro _ rfl
      rw [if_pos (decide_eq_true hle)]
      exact .pure rfl
    · next hle =>
      rw [if_neg (by simpa using hle)]
      exact .pure rfl

variable {nt : NTermId}

theorem exists_min_rule (hready : ctx.Ready) {min : ℕ} (hnt : G.HasNonterminal nt)
    (hmin : ctx.ntsToMinSize nt = some min) : ∃ r, ctx.Fits nt min r := by
  obtain ⟨m, hm, ⟨w, hw, hlen⟩, -⟩ := hready.nts nt hnt
  cases hm.symm.trans hmin
  cases w with
  | nil => cases hw
  | cons r w =>
    obtain ⟨hsort, hw⟩ := hw
    rw [append_nil] at hw
    obtain ⟨k, hk, -, hleast⟩ := hready.rules r
    have hle := hleast w hw
    rw [length_cons] at hlen
    exact ⟨r, hsort, k + 1, by omega, hk⟩

theorem returns_chooseApplicableRule (hready : ctx.Ready) {maxLen : ℕ} {r : G.RuleId}
    (hfits : ctx.Fits nt maxLen r) :
    (chooseApplicableRule withSeed ctx maxLen nt 100 : Drawing R Panic _).Returns (·.isSome) := by
  obtain ⟨hnt, m, hle, hm⟩ := hfits
  obtain ⟨ids, hids, hmem⟩ := (hready.filed nt r).mpr hnt
  refine (Drawing.Returns.draw (P := fun _ => True) fun _ => trivial).bind fun seed _ => ?_
  refine .ofResult_bind (entry_eq_ok.mpr hids) ?_
  refine (returns_applicableRules hready maxLen ids).bind ?_
  rintro _ rfl
  refine .pure ?_
  rcases yields_chooseFiltered (ids.takeWhile fun r => (ctx.rulesToMinSize r).getD 0 ≤ maxLen)
    (withSeed seed) with ⟨-, hnil⟩ | ⟨x, -, hsome⟩
  · have hsize : (ctx.rulesToMinSize r).getD 0 ≤ maxLen := by rwa [hm, getD_some]
    have hr := mem_takeWhile_of_sorted (hready.sorted nt _ hids) hmem hsize
    rw [hnil] at hr
    cases hr
  · rw [hsome]
    rfl

theorem returns_getRandomRuleForNt (hready : ctx.Ready) {maxLen : ℕ} {r : G.RuleId}
    (hfits : ctx.Fits nt maxLen r) :
    (getRandomRuleForNt withSeed ctx nt maxLen : Drawing R Panic _).Returns (ctx.Fits nt maxLen) := by
  have hreturns : (getRandomRuleForNt withSeed ctx nt maxLen : Drawing R Panic _).Returns fun _ => True := by
    refine (returns_chooseApplicableRule hready hfits).bind fun out hout => ?_
    obtain ⟨rule, rfl⟩ := isSome_iff_exists.mp hout
    exact .pure trivial
  exact (hreturns.and fun _ _ _ h => getRandomRuleForNt_fits hready.filed h).mono fun _ h => h.2

theorem minimalNeededLen_eq {nts : List NTermId} {ms : List ℕ}
    (hsized : Sized ctx.ntsToMinSize nts ms) :
    ∀ {sum : ℕ}, sum + ms.sum < 2 ^ 64 → minimalNeededLen ctx nts sum = .ok (sum + ms.sum) := by
  induction hsized with
  | nil => exact fun _ => rfl
  | @cons nt m nts ms hnt _ ih =>
    intro sum hlt
    rw [sum_cons] at hlt ⊢
    have hadd := checkedAdd_of_lt (show sum + m < 2 ^ 64 by omega)
    rw [← add_assoc] at hlt ⊢
    exact bind_eq_ok.mpr ⟨m, entry_eq_ok.mpr hnt, bind_eq_ok.mpr ⟨_, hadd, ih hlt⟩⟩

theorem encodes_map_id :
    ∀ {w : List (RuleIdOrCustom G)} {nts : List NTermId}, Encodes G.nodes nts w →
    Encodes G.signature nts (w.map RuleIdOrCustom.id)
  | [], nts, h => by
    rw [encodes_nil] at h
    rw [h]
    rfl
  | _ :: _, [], h => h.elim
  | a :: w, nt :: nts, ⟨hsort, h⟩ => ⟨hsort, encodes_map_id h⟩

/-- The sizes in an exact table add up to the minimum size of a list of nonterminals. -/
theorem exists_sized (hexact : ctx.Exact) :
    ∀ {nts : List NTermId}, (∀ nt ∈ nts, G.HasNonterminal nt) →
    ∃ ms, Sized ctx.ntsToMinSize nts ms ∧ ∀ w, Encodes G.signature nts w → ms.sum ≤ w.length
  | [], _ => ⟨[], .nil, fun _ _ => zero_le _⟩
  | nt :: nts, h => by
    obtain ⟨m, hm, -, hleast⟩ := hexact.nts nt (h nt mem_cons_self)
    obtain ⟨ms, hms, hrest⟩ := exists_sized hexact fun nt hnt => h nt (mem_cons_of_mem _ hnt)
    refine ⟨m :: ms, .cons hm hms, fun w hw => ?_⟩
    have hw : Encodes G.signature ([nt] ++ nts) w := hw
    obtain ⟨u, v, rfl, hu, hv⟩ := hw.split
    have hu := hleast u hu
    have hv := hrest v hv
    rw [sum_cons, length_append]
    omega

variable {rid : G.RuleId} {len : ℕ}

theorem Context.Fits.exists_succ (hready : ctx.Ready)
    (hfits : ctx.Fits nt len rid) : ∃ below, len = below + 1 := by
  obtain ⟨-, m, hle, hm⟩ := hfits
  obtain ⟨k, hk, -⟩ := hready.rules rid
  cases hm.symm.trans hk
  exact ⟨len - 1, by omega⟩

/-- A rule that fits leaves room for the minimum sizes of its nonterminals. -/
theorem Context.Fits.sized (hready : ctx.Ready)
    (hfits : ctx.Fits nt (len + 1) rid) :
    ∃ ms, Sized ctx.ntsToMinSize (G.getRule rid).nonterms ms ∧ ms.sum ≤ len := by
  obtain ⟨-, m, hle, hm⟩ := hfits
  obtain ⟨k, hk, ⟨w, hw, hlen⟩, -⟩ := hready.rules rid
  obtain ⟨ms, hsized, hleast⟩ := exists_sized hready.toExact fun nt hnt => ⟨rid, .inr hnt⟩
  cases hm.symm.trans hk
  have hsum := hleast w hw
  exact ⟨ms, hsized, by omega⟩

theorem getRule_mem (rid : G.RuleId) : G.getRule rid ∈ G.rules := get_mem _ _

theorem rounds_le (rid : G.RuleId) : (G.getRule rid).rounds ≤ G.regexRounds :=
  le_sum_of_mem (mem_map_of_mem (getRule_mem rid))

theorem returns_ruleOrCustom (hsafe : (G.getRule rid).Safe)
    (hrounds : G.regexRounds ≤ rounds) :
    (ruleOrCustom rounds rid : Drawing R Panic _).Returns fun node => node.id = rid := by
  have hle := le_trans (rounds_le rid) hrounds
  have hreturns : (ruleOrCustom rounds rid : Drawing R Panic _).Returns fun _ => True := by
    cases hrule : G.getRule rid with
    | regExp nonterm hir =>
      rw [hrule] at hsafe hle
      simp only [ruleOrCustom, hrule]
      exact (generate_of_safe hsafe hle).bind fun _ _ => .pure trivial
    | plain | script =>
      simp only [ruleOrCustom, hrule]
      exact .pure trivial
  exact (hreturns.and fun _ _ _ h => ruleOrCustom_id h).mono fun _ h => h.2

variable {node : RuleIdOrCustom G}

theorem Grown.exists_setAt {tree below : Tree G} (haligned : tree.Aligned)
    {p count : ℕ} {nts : List NTermId} (hgrown : Grown p nts (tree.push node) below count)
    (x y : ℕ) :
    ∃ sizes parents, setAt below.sizes tree.rules.length x = .ok sizes ∧
      setAt below.paren tree.rules.length y = .ok parents := by
  obtain ⟨w, z, q, -, rfl, -⟩ := hgrown
  exact ⟨_, _, setAt_append haligned.sizes, setAt_append haligned.paren⟩

/-- A child has at least the minimum size of its nonterminal. -/
theorem Grown.min_le (hexact : ctx.Exact) {tree below : Tree G}
    {p count min : ℕ} (hgrown : Grown p node.nonterms tree below count)
    (hnonterm : node.nonterm = nt) (hnt : G.HasNonterminal nt)
    (hmin : ctx.ntsToMinSize nt = some min) : min ≤ 1 + count := by
  obtain ⟨w, z, q, hnodes, -, rfl⟩ := hgrown
  obtain ⟨m, hm, -, hleast⟩ := hexact.nts nt hnt
  cases hm.symm.trans hmin
  have hterm : Encodes G.nodes [nt] (node :: w) := by
    refine ⟨hnonterm, ?_⟩
    rw [append_nil]
    exact hnodes.encodes
  have hle := hleast _ (encodes_map_id hterm)
  rw [length_map, length_cons] at hle
  omega

/-- The children of a rule are generated within what is left for them: each one takes at least its
    minimum, and at most that and what remains. -/
theorem returns_generateChildren (hready : ctx.Ready) (hsafe : ∀ rid, (G.getRule rid).Safe)
    (hrounds : G.regexRounds ≤ rounds) {gen : Rule → Tree G → ℕ → Drawing R Panic (ℕ × Tree G)}
    (hbelow : GeneratesBelow gen) {bound : ℕ}
    (hgen : ∀ (rid : G.RuleId) (nt : NTermId) (tree : Tree G) (len : ℕ), ctx.Fits nt (len + 1) rid →
      len < bound → tree.rules ≠ [] → tree.Aligned →
      (gen (G.getRule rid) tree len).Returns fun out => out.1 ≤ len + 1) {paren : ℕ} :
    ∀ {nts : List NTermId} {ms : List ℕ} {tree : Tree G} {remainingLen totalSize : ℕ}, tree.Aligned →
      nts.length < 2 ^ 31 → (∀ nt ∈ nts, G.HasNonterminal nt) → Sized ctx.ntsToMinSize nts ms →
      remainingLen + ms.sum ≤ bound → totalSize + (remainingLen + ms.sum) < 2 ^ 64 →
      (generateChildren withSeed ctx rounds gen paren nts tree remainingLen totalSize).Returns
        fun out => out.1 ≤ totalSize + (remainingLen + ms.sum)
  | [], _, _, _, _, _, _, _, _, _, _ => .pure (le_add_right _ _)
  | nt :: nts, ms, tree, remainingLen, totalSize, haligned, hlen, hnts, hsized, hbound, hlt => by
    obtain ⟨min, ms, hmin, hms, rfl⟩ := forall₂_cons_left_iff.mp hsized
    rw [sum_cons] at hbound hlt ⊢
    rw [length_cons] at hlen
    have hnt := hnts nt mem_cons_self
    obtain ⟨first, hfirst⟩ := exists_min_rule hready hnt hmin
    refine (returns_simpleGetRandomLen hlen remainingLen).bind fun share hshare => ?_
    refine .ofResult_bind (entry_eq_ok.mpr hmin) ?_
    refine .ofResult_bind (checkedAdd_of_lt (by omega)) ?_
    refine (returns_getRandomRuleForNt hready (hfirst.mono (le_add_left _ _))).bind
      fun rid hfits => ?_
    refine (returns_ruleOrCustom (hsafe rid) hrounds).bind fun node hid => ?_
    refine .ofResult_bind (check_of haligned.sizes.symm) ?_
    refine .ofResult_bind (check_of (haligned.sizes.trans haligned.paren.symm)) ?_
    -- the rule that is chosen has at least one node
    obtain ⟨childLen, hchild⟩ := hfits.exists_succ hready
    refine .ofResult_bind (checkedSub_of_le (by omega)) ?_
    rw [hchild] at hfits ⊢
    rw [Nat.add_sub_cancel]
    refine ((hgen rid nt (tree.push node) childLen hfits (by omega) (by simp [Tree.push])
      (haligned.push node)).and fun _ _ _ h => hbelow _ _ _ _ _ _ (haligned.push node) h).bind ?_
    rintro ⟨size, below⟩ ⟨hsize, count, rfl, hgrown⟩
    have hgrown := grown_below hid hgrown
    have hnonterm : node.nonterm = nt := by rw [RuleIdOrCustom.nonterm, hid, hfits.1]
    obtain ⟨sizes, parents, hsizes, hparents⟩ := hgrown.exists_setAt haligned (1 + count) paren
    obtain ⟨haligned', -⟩ := grown_child nts haligned hnonterm hgrown hsizes hparents
    have hleast := hgrown.min_le hready.toExact hnonterm hnt hmin
    refine .ofResult_bind hsizes (.ofResult_bind hparents ?_)
    refine .ofResult_bind (check_of (by omega)) (.ofResult_bind (check_of hleast) ?_)
    refine .ofResult_bind (checkedAdd_of_lt (by omega)) ?_
    refine .ofResult_bind (checkedSub_of_le (by omega)) ?_
    refine .ofResult_bind (checkedAdd_of_lt (by omega)) ?_
    refine (returns_generateChildren hready hsafe hrounds hbelow hgen haligned' (by omega)
      (fun nt hnt => hnts nt (mem_cons_of_mem _ hnt)) hms (by omega) (by omega)).mono ?_
    intro out hout
    omega

theorem returns_generate (withSeed : UInt64 → C) (hready : ctx.Ready)
    (hsafe : ∀ rid, (G.getRule rid).Safe)
    (hchildren : ∀ rid, (G.getRule rid).nonterms.length < 2 ^ 31)
    (hrounds : G.regexRounds ≤ rounds) :
    ∀ (n : ℕ) (rid : G.RuleId) (nt : NTermId) (tree : Tree G) (len : ℕ), ctx.Fits nt (len + 1) rid →
      len < n → len + 1 < 2 ^ 64 → tree.rules ≠ [] → tree.Aligned →
      ((G.getRule rid).generate withSeed ctx rounds n tree len : Drawing R Panic _).Returns
        fun out => out.1 ≤ len + 1
  | 0, _, _, _, _, _, hn, _, _, _ => absurd hn (not_lt_zero _)
  | n + 1, rid, nt, tree, len, hfits, hn, hlt, hne, haligned => by
    obtain ⟨ms, hsized, hsum⟩ := hfits.sized hready
    have hpos := length_pos_iff.mpr hne
    refine .ofResult_bind (minimalNeededLen_eq hsized (by omega)) ?_
    refine .ofResult_bind (check_of (by omega)) ?_
    refine .ofResult_bind (checkedSub_of_le (by omega)) ?_
    refine .ofResult_bind (checkedSub_of_le (by omega)) ?_
    have hgen : ∀ (rid : G.RuleId) (nt : NTermId) (tree : Tree G) (len' : ℕ),
        ctx.Fits nt (len' + 1) rid → len' < len → tree.rules ≠ [] → tree.Aligned →
        ((G.getRule rid).generate withSeed ctx rounds n tree len' : Drawing R Panic _).Returns
          fun out => out.1 ≤ len' + 1 := fun rid nt tree len' hfits hlen =>
      returns_generate withSeed hready hsafe hchildren hrounds n rid nt tree len' hfits (by omega) (by omega)
    refine (returns_generateChildren hready hsafe hrounds (generate_grown hready.filed n) hgen haligned
      (hchildren rid) (fun nt hnt => ⟨rid, .inr hnt⟩) hsized (by omega) (by omega)).mono ?_
    intro out hout
    omega

/-- Generation returns a tree that fits into the length. -/
theorem returns_generateFromNt (hready : ctx.Ready) (hsafe : ∀ rid, (G.getRule rid).Safe)
    (hchildren : ∀ rid, (G.getRule rid).nonterms.length < 2 ^ 31) {start : NTermId} {min : ℕ}
    (hnt : G.HasNonterminal start) (hmin : ctx.ntsToMinSize start = some min) (hle : min ≤ len)
    (hlt : len < 2 ^ 64) (hregex : G.regexRounds ≤ rounds) (hrounds : len ≤ rounds) :
    (generateFromNt withSeed ctx rounds start len : Drawing R Panic _).Returns
      fun tree => tree.rules.length ≤ len := by
  obtain ⟨first, hfirst⟩ := exists_min_rule hready hnt hmin
  refine (returns_getRandomRuleForNt hready (hfirst.mono hle)).bind fun rid hfits => ?_
  obtain ⟨maxLen, rfl⟩ := hfits.exists_succ hready
  refine .ofResult_bind (checkedSub_of_le (by omega)) ?_
  rw [Nat.add_sub_cancel]
  refine (returns_ruleOrCustom (hsafe rid) hregex).bind fun node hid => ?_
  have haligned : Tree.Aligned (⟨[node], [0], [0]⟩ : Tree G) := ⟨rfl, rfl⟩
  have hgenerate := (returns_generate (R := R) withSeed hready hsafe hchildren hregex rounds rid start
    ⟨[node], [0], [0]⟩ maxLen hfits (by omega) hlt (cons_ne_nil _ _) haligned).and
      fun _ _ _ h => generate_grown hready.filed rounds _ _ _ _ _ _ haligned h
  have hrest : ((do
      let out ← (G.getRule rid).generate withSeed ctx rounds rounds ⟨[node], [0], [0]⟩ maxLen
      let sizes ← Drawing.ofResult (setAt out.2.sizes 0 out.2.rules.length)
      return ⟨out.2.rules, sizes, out.2.paren⟩ : Drawing R Panic (Tree G))).Returns
        fun tree => tree.rules.length ≤ maxLen + 1 := by
    refine hgenerate.bind ?_
    rintro ⟨size, below⟩ ⟨hsize, count, rfl, w, z, q, -, rfl, rfl⟩
    have hset : setAt ([] ++ [0] ++ z) 0 ([node] ++ w).length = .ok ([] ++ ([node] ++ w).length :: z) :=
      setAt_append rfl
    refine .ofResult_bind hset (.pure ?_)
    simp only [Tree.grow, length_append, length_singleton]
    omega
  cases hrule : G.getRule rid with
  | regExp nonterm hir => exact .pure (le_add_left _ _)
  | plain nonterm nonterms | script nonterm nonterms =>
    rw [hrule] at hrest
    exact hrest

end

/-! ### Draws that reach a rule -/

section
variable {ctx : Context G}

theorem exists_leads_applicableRules (hready : ctx.Ready) (maxLen : ℕ) :
    ∀ candidates : List G.RuleId,
    ∃ ds, Drawing.Leads (applicableRules ctx maxLen 100 candidates) ds
      (candidates.takeWhile fun r => (ctx.rulesToMinSize r).getD 0 ≤ maxLen)
  | [] => ⟨[], .pure⟩
  | c :: candidates => by
    obtain ⟨m, hm, -⟩ := hready.rules c
    obtain ⟨options, hoptions⟩ := isSome_iff_exists.mp (hready.options c)
    obtain ⟨ds', hrest⟩ := exists_leads_applicableRules hready maxLen candidates
    have hkeep : ∃ ds, Drawing.Leads (keepRule ctx 100 c) ds true := by
      by_cases hone : 1 < options
      · refine ⟨[], .ofResult_bind (entry_eq_ok.mpr hoptions) ?_⟩
        rw [if_pos hone]
        exact .pure
      · refine ⟨[0], .ofResult_bind (entry_eq_ok.mpr hoptions) ?_⟩
        rw [if_neg hone]
        exact (Drawing.leads_below_zero 100).map fun n => decide (n ≤ 100)
    obtain ⟨ds, hkeep⟩ := hkeep
    rw [takeWhile_cons, hm, getD_some]
    by_cases hle : m + 1 ≤ maxLen
    · refine ⟨ds ++ (ds' ++ []), .ofResult_bind (entry_eq_ok.mpr hm) ?_⟩
      rw [if_pos hle, if_pos (decide_eq_true hle)]
      exact hkeep.bind (hrest.bind .pure)
    · refine ⟨[], .ofResult_bind (entry_eq_ok.mpr hm) ?_⟩
      rw [if_neg hle, if_neg (by simpa using hle)]
      exact .pure

variable {rid : G.RuleId}

/-- A rule is chosen by some draws if its own size is the length. -/
theorem exists_leads_getRandomRuleForNt (hready : ctx.Ready) {len : ℕ}
    (hsize : ctx.rulesToMinSize rid = some len) :
    ∃ (withSeed : UInt64 → List UInt64) (ds : List UInt64),
      Drawing.Leads (getRandomRuleForNt withSeed ctx (G.getRule rid).nonterm len) ds rid := by
  obtain ⟨ids, hids, hmem⟩ := (hready.filed _ rid).mpr rfl
  obtain ⟨ds, hrules⟩ := exists_leads_applicableRules hready len ids
  have hchosen : rid ∈ ids.takeWhile fun r => (ctx.rulesToMinSize r).getD 0 ≤ len := by
    refine mem_takeWhile_of_sorted (hready.sorted _ ids hids) hmem ?_
    rw [hsize, getD_some]
  obtain ⟨choice, hchoice⟩ := exists_chooseFiltered_eq hchosen
  have happlicable : Drawing.Leads (chooseApplicableRule (fun _ => choice) ctx len (G.getRule rid).nonterm 100)
      ([0] ++ (ds ++ [])) (some rid) := by
    refine (Drawing.Leads.draw 0).bind (.ofResult_bind (entry_eq_ok.mpr hids) (hrules.bind ?_))
    rw [← hchoice]
    exact .pure
  exact ⟨fun _ => choice, _, happlicable.bind .pure⟩

theorem generate_fails {withSeed : UInt64 → C} {rounds : ℕ} {rule : Rule}
    (hmany : 2 ^ 31 ≤ rule.nonterms.length) :
    ∀ (n : ℕ) (tree : Tree G) (len : ℕ) (out : ℕ × Tree G) (r r' : R),
      rule.generate withSeed ctx rounds n tree len r ≠ .ok (out, r')
  | 0, _, _, _, _, _, h => Drawing.throw_eq_ok h
  | n + 1, tree, len, out, r, r', h => by
    simp only [Rule.generate, Drawing.bind_eq_ok] at h
    obtain ⟨_, r₁, -, _, r₂, -, remaining, r₃, -, paren, r₄, -, hchildren⟩ := h
    cases hnts : rule.nonterms with
    | nil =>
      rw [hnts] at hmany
      exact absurd hmany (by decide)
    | cons nt nts =>
      rw [hnts] at hchildren hmany
      rw [generateChildren] at hchildren
      obtain ⟨share, r₅, hshare, -⟩ := Drawing.bind_eq_ok.mp hchildren
      rw [length_cons] at hmany
      rw [simpleGetRandomLen, if_neg (not_lt.mpr hmany)] at hshare
      exact Drawing.throw_eq_ok hshare

/-- From a rule that has too many children or an unsafe expression, some draws lead to no tree. -/
theorem exists_fails_generateFromRule (ctx : Context G) (withSeed : UInt64 → List UInt64)
    (h : ¬ (G.getRule rid).Safe ∨ 2 ^ 31 ≤ (G.getRule rid).nonterms.length) (maxLen : ℕ) :
    ∃ ds, ∀ rounds, Drawing.Fails (generateFromRule withSeed ctx rounds rid maxLen) ds := by
  cases hrule : G.getRule rid with
  | regExp nonterm hir =>
    rw [hrule] at h
    obtain hnotSafe | hmany := h
    · obtain ⟨ds, hfails⟩ := exists_fails_generate hnotSafe
      refine ⟨ds, fun rounds => ?_⟩
      have hnode : Drawing.Fails (ruleOrCustom (G := G) rounds rid) ds := by
        simp only [ruleOrCustom, hrule]
        exact (hfails rounds).bind
      exact hnode.bind
    · exact absurd hmany (by simp [Rule.nonterms])
  | plain nonterm nonterms | script nonterm nonterms =>
    refine ⟨[], fun rounds rest tree r hok => ?_⟩
    obtain ⟨node, r₁, -, hok⟩ := Drawing.bind_eq_ok.mp hok
    simp only [hrule] at hok
    obtain ⟨out, r₂, hgenerate, -⟩ := Drawing.bind_eq_ok.mp hok
    rw [hrule] at h
    rcases h with hnotSafe | hmany
    · exact hnotSafe trivial
    · exact generate_fails hmany _ _ _ _ _ _ hgenerate

theorem exists_fails_generateFromNt (hready : ctx.Ready) {len : ℕ}
    (hsize : ctx.rulesToMinSize rid = some len)
    (h : ¬ (G.getRule rid).Safe ∨ 2 ^ 31 ≤ (G.getRule rid).nonterms.length) :
    ∃ (withSeed : UInt64 → List UInt64) (ds : List UInt64), ∀ rounds,
      Drawing.Fails (generateFromNt withSeed ctx rounds (G.getRule rid).nonterm len) ds := by
  obtain ⟨withSeed, ds, hleads⟩ := exists_leads_getRandomRuleForNt hready hsize
  obtain ⟨k, hk, -⟩ := hready.rules rid
  cases hsize.symm.trans hk
  obtain ⟨ds', hfails⟩ := exists_fails_generateFromRule ctx withSeed h (k + 1 - 1)
  refine ⟨withSeed, ds ++ ds', fun rounds => hleads.fails ?_⟩
  exact .ofResult_bind (checkedSub_of_le (le_add_left _ _)) (hfails rounds)

end

/-! ### The property -/

/-- `initialize` computes the minimum sizes. From then on, a tree is generated for every nonterminal
    and every length from its minimum on, and is a derivation of a size in between, with the sizes
    and parents that `from_rule_vec` finds. -/
def Grammar.Generates (G : Grammar) : Prop :=
  ∃ ctx, (∃ N, ∀ rounds > N, G.context.initializeTables rounds = .ok ctx) ∧ ctx.Exact ∧
    ∀ (R C : Type) [Rand R] [Rand C] (withSeed : UInt64 → C) (nt : NTermId) (min len : ℕ) (r : R),
      G.HasNonterminal nt → ctx.ntsToMinSize nt = some min → min ≤ len → len < 2 ^ 64 →
      ∃ N, ∀ rounds > N, ∃ tree r', generateFromNt withSeed ctx rounds nt len r = .ok (tree, r') ∧
        tree.Valid nt ∧ min ≤ tree.rules.length ∧ tree.rules.length ≤ len ∧
        fromRuleVec tree.rules = .ok tree

/-- What the code takes for granted: sums of sizes fit into 64 bits, the children of a rule can be
    counted with an `i32`, and every regular expression is safe. -/
structure Grammar.Sane (G : Grammar) : Prop where
  sizes : G.SizesFit
  children : ∀ rid, (G.getRule rid).nonterms.length < 2 ^ 31
  regexes : ∀ rid, (G.getRule rid).Safe

theorem generates_of_sane (hproductive : G.Productive) (hsane : G.Sane) : G.Generates := by
  rcases initialize_cases hproductive with ⟨hover, -⟩ | ⟨-, ctx, N, hinit, hready⟩
  · exact absurd hsane.sizes hover
  refine ⟨ctx, ⟨N, hinit⟩, hready.toExact, ?_⟩
  intro R C _ _ withSeed nt min len r hnt hmin hle hlt
  refine ⟨G.regexRounds + len, fun rounds hrounds => ?_⟩
  have hreturns : (generateFromNt withSeed ctx rounds nt len : Drawing R Panic _).Returns
      fun tree => tree.rules.length ≤ len :=
    returns_generateFromNt hready hsane.regexes hsane.children hnt hmin hle hlt (by omega) (by omega)
  obtain ⟨tree, r', hok, hlen⟩ := hreturns r
  have hvalid := generateFromNt_valid hready.filed hok
  obtain ⟨m, hm, -, hleast⟩ := hready.nts nt hnt
  cases hm.symm.trans hmin
  have hmin_le := hleast _ (encodes_map_id hvalid.encodes)
  rw [length_map] at hmin_le
  exact ⟨tree, r', hok, hvalid, hmin_le, hlen, fromRuleVec_nodes hvalid⟩

theorem sane_of_generates (hproductive : G.Productive) (h : G.Generates) : G.Sane := by
  obtain ⟨ctx, ⟨N, hinit⟩, -, hgenerates⟩ := h
  rcases initialize_cases hproductive with ⟨-, M, hover⟩ | ⟨hsizes, ctx', M, hinit', hready⟩
  · cases (hover (N + M + 1) (by omega)).symm.trans (hinit (N + M + 1) (by omega))
  cases (hinit' (N + M + 1) (by omega)).symm.trans (hinit (N + M + 1) (by omega))
  have hgood : ∀ rid, ¬ (¬ (G.getRule rid).Safe ∨ 2 ^ 31 ≤ (G.getRule rid).nonterms.length) := by
    intro rid hbad
    obtain ⟨k, hk, ⟨w, hw, hlen⟩, -⟩ := hready.rules rid
    have hnt : G.HasNonterminal (G.getRule rid).nonterm := ⟨rid, .inl rfl⟩
    obtain ⟨min, hmin, -, hleast⟩ := hready.nts _ hnt
    have hterm : Encodes G.signature [(G.getRule rid).nonterm] (rid :: w) := by
      refine ⟨rfl, ?_⟩
      rw [append_nil]
      exact hw
    have hle := hleast _ hterm
    rw [length_cons, hlen] at hle
    obtain ⟨withSeed, ds, hfails⟩ := exists_fails_generateFromNt hready hk hbad
    obtain ⟨L, hL⟩ := hgenerates _ _ withSeed _ min (k + 1) ds hnt hmin hle (hready.small rid _ hk)
    obtain ⟨tree, r', hok, -⟩ := hL (L + 1) (lt_succ_self L)
    have hfail := hfails (L + 1) [] tree r'
    rw [append_nil] at hfail
    exact hfail hok
  refine ⟨hsizes, fun rid => ?_, fun rid => ?_⟩
  · exact not_le.mp fun hmany => hgood rid (.inr hmany)
  · exact Classical.byContradiction fun hnotSafe => hgood rid (.inl hnotSafe)

/-- If every nonterminal has a derivation, `initialize` and the generation of trees do what they are
    for exactly on sane grammars. -/
theorem nautilus_generation_iff (hproductive : G.Productive) : G.Generates ↔ G.Sane :=
  ⟨sane_of_generates hproductive, generates_of_sane hproductive⟩

/-- `S → a S | b`. -/
def listGrammar : Grammar := ⟨[.plain 0 [0], .plain 0 []]⟩

theorem listGrammar_productive : listGrammar.Productive := by
  rintro nt ⟨r, hr⟩
  have hrule := getRule_mem r
  have hzero : nt = 0 := by
    generalize listGrammar.getRule r = rule at hr hrule
    simp only [listGrammar, mem_cons, not_mem_nil, or_false] at hrule
    rcases hrule with rfl | rfl
    · simpa [Rule.nonterm, Rule.nonterms, eq_comm] using hr
    · simpa [Rule.nonterm, Rule.nonterms, eq_comm] using hr
  subst hzero
  exact ⟨[⟨1, by decide⟩], by decide⟩

theorem nautilus_generation_list :
    listGrammar.Productive ∧ (listGrammar.Generates ↔ listGrammar.Sane) ∧
    listGrammar.Sane := by
  refine ⟨listGrammar_productive, nautilus_generation_iff listGrammar_productive, ?_⟩
  have hok : ∃ ctx, calcMinLen 3 listGrammar.context = .ok ctx := ⟨_, rfl⟩
  obtain ⟨ctx, hok⟩ := hok
  have hrules : ∀ rule ∈ listGrammar.rules, rule.nonterms.length < 2 ^ 31 ∧ rule.Safe := by
    simp [listGrammar, Rule.nonterms, Rule.Safe]
  exact ⟨sizesFit_of_ok hok, fun rid => (hrules _ (getRule_mem rid)).1,
    fun rid => (hrules _ (getRule_mem rid)).2⟩

/-- `S → [一-龥]`, all of the common Chinese characters. -/
def hanGrammar : Grammar :=
  ⟨[.regExp 0 (.unicode 1 (by decide) fun _ => ⟨'一', '龥', by decide⟩)]⟩

/-- The encoding of the first character, read as a number, is not a code point: the generation
    panics, here with all draws zero. -/
theorem han_class_panics : hanGrammar.Productive ∧
    (do generateFromNt (fun seed => [seed]) (← hanGrammar.context.initializeTables 3) 9 0 1 ([] : List UInt64)) =
      .error .noChar ∧ ¬ hanGrammar.Generates := by
  have hproductive : hanGrammar.Productive := by
    rintro nt ⟨r, hr⟩
    have hrule := getRule_mem r
    have hzero : nt = 0 := by
      rw [mem_singleton.mp hrule] at hr
      simpa [Rule.nonterm, Rule.nonterms, eq_comm] using hr
    subst hzero
    exact ⟨[⟨0, by decide⟩], by decide⟩
  refine ⟨hproductive, rfl, fun h => ?_⟩
  have hsafe := (sane_of_generates hproductive h).regexes ⟨0, by decide⟩
  have hvalid : (leBytes '一').isValidChar := (hsafe.2 0).2.1
  exact absurd hvalid (by decide)

end Bofuzz.Nautilus
