import Bofuzz.Lib.Improve
import Bofuzz.Lib.Preorder
import Bofuzz.Lib.Result
import Bofuzz.Lib.Run
import Bofuzz.Libafl.Nautilus.Regex
import Mathlib.Data.List.Sort

/-! Grammars and what is computed of them in advance (`common/nautilus/grammartec/context.rs`,
    `rule.rs`).

    `calc_min_len` passes over the rules until nothing gets smaller any more. It is described by the
    evaluations of rules that it makes, one after another: every entry is the size of some
    derivation, and the entries that a last pass leaves alone are the least ones. -/

namespace Bofuzz.Nautilus
open Result Preorder Improve List Nat Function

abbrev NTermId := ℕ

/-- A rule: its nonterminal and the nonterminals of its right side. -/
inductive Rule where
  | plain (nonterm : NTermId) (nonterms : List NTermId)
  | script (nonterm : NTermId) (nonterms : List NTermId)
  | regExp (nonterm : NTermId) (hir : Regex.Hir)

def Rule.nonterm : Rule → NTermId
  | .plain nonterm _ => nonterm
  | .script nonterm _ => nonterm
  | .regExp nonterm _ => nonterm

def Rule.nonterms : Rule → List NTermId
  | .plain _ nonterms => nonterms
  | .script _ nonterms => nonterms
  | .regExp _ _ => []

structure Grammar where
  rules : List Rule

/-- The position of a rule. -/
abbrev Grammar.RuleId (G : Grammar) := Fin G.rules.length

variable (G : Grammar)

def Grammar.getRule (r : G.RuleId) : Rule := G.rules.get r

/-- The ids of all rules, `0..self.rules.len()`. -/
def Grammar.ruleIds (G : Grammar) : List G.RuleId := List.finRange G.rules.length

/-- The nodes of a derivation are rules. -/
def Grammar.signature : Signature NTermId G.RuleId where
  sort r := (G.getRule r).nonterm
  args r := (G.getRule r).nonterms

abbrev HashMap (κ α : Type) := κ → Option α

/-- The tables of a context. The names of the nonterminals are left out. -/
structure Context where
  ntsToRules : HashMap NTermId (List G.RuleId) := fun _ => none
  rulesToMinSize : HashMap G.RuleId ℕ := fun _ => none
  ntsToMinSize : HashMap NTermId ℕ := fun _ => none
  rulesToNumOptions : HashMap G.RuleId ℕ := fun _ => none
  ntsToNumOptions : HashMap NTermId ℕ := fun _ => none

variable {G : Grammar} (ctx : Context G)

/-- `add_rule`, `add_script`, `add_regex` and `add_term_rule` enter the new rule the same way. -/
def Context.addRule (rid : G.RuleId) : Context G :=
  let nt := (G.getRule rid).nonterm
  { ctx with ntsToRules := Function.update ctx.ntsToRules nt (some ((ctx.ntsToRules nt).getD [] ++ [rid])) }

/-- The context once all rules are added. -/
def Grammar.context (G : Grammar) : Context G := G.ruleIds.foldl Context.addRule {}

variable (a b : ℕ)

/-- `a + b`. -/
def checkedAdd : Except Panic ℕ := if a + b < 2 ^ 64 then .ok (a + b) else .error .overflow

/-! ### Minimum sizes -/

/-- The loop of `calc_min_len_for_rule`, begun with `res = 1`. -/
def calcMinLenForRule (ntsToMinSize : HashMap NTermId ℕ) :
    List NTermId → ℕ → Except Panic (Option ℕ)
  | [], res => .ok (some res)
  | nt :: nts, res =>
    match ntsToMinSize nt with
    | some min => do calcMinLenForRule ntsToMinSize nts (← checkedAdd res min)
    | none => .ok none

/-- The variables of `calc_min_len`: the sizes of the nonterminals with `something_changed`, and the
    sizes of the rules. -/
structure MinSizes (G : Grammar) where
  nts : Table NTermId ℕ
  rules : HashMap G.RuleId ℕ

def smaller : Bool := a < b

/-- A rule whose size is known. -/
def MinSizes.record (s : MinSizes G) (rule : G.RuleId) (min : ℕ) : MinSizes G where
  nts := s.nts.offer smaller (G.getRule rule).nonterm min
  rules := Function.update s.rules rule (some min)

/-- `unknown_rules.retain(..)`: the rules whose size is still unknown, and the new tables. -/
def retain : List G.RuleId → MinSizes G → Except Panic (List G.RuleId × MinSizes G)
  | [], s => .ok ([], s)
  | rule :: rules, s => do
    match ← calcMinLenForRule s.nts.entries (G.getRule rule).nonterms 1 with
    | some min => retain rules (s.record rule min)
    | none =>
      let out ← retain rules s
      return (rule :: out.1, out.2)

/-- `while !unknown_rules.is_empty()`. Each round leaves fewer rules or panics, so that their number
    bounds the rounds. -/
def resolve : ℕ → List G.RuleId → MinSizes G → Except Panic (MinSizes G)
  | _, [], s => .ok s
  | 0, _ :: _, _ => .error .unfinished
  | n + 1, rule :: rules, s => do
    let out ← retain (rule :: rules) s
    if out.1.length = (rule :: rules).length then .error .brokenGrammar else resolve n out.1 out.2

/-- The body of `while something_changed`. -/
def minSizePass (s : MinSizes G) : Except Panic (MinSizes G) :=
  resolve G.ruleIds.length G.ruleIds { s with nts.changed := false }

/-- `calc_rule_order`. All rules have a size by then, and the sort is stable. -/
def calcRuleOrder : Context G :=
  let size (r : G.RuleId) : ℕ := (ctx.rulesToMinSize r).getD 0
  { ctx with ntsToRules := fun nt => (ctx.ntsToRules nt).map (List.insertionSort (size · ≤ size ·)) }

def calcMinLen (rounds : ℕ) (ctx : Context G) : Except Panic (Context G) := do
  let s ← whileChanged .unfinished (·.nts.changed) minSizePass rounds
    { nts := ⟨ctx.ntsToMinSize, true⟩, rules := ctx.rulesToMinSize }
  return calcRuleOrder { ctx with ntsToMinSize := s.nts.entries, rulesToMinSize := s.rules }

/-! ### Numbers of options -/

def saturatingMul : ℕ := min (a * b) (2 ^ 64 - 1)

/-- The variables of `calc_num_options`. -/
structure NumOptions (G : Grammar) where
  nts : Table NTermId ℕ
  rules : HashMap G.RuleId ℕ

def larger : Bool := b < a

def calcNumOptionsForRule (ntsToNumOptions : HashMap NTermId ℕ) (nonterms : List NTermId) : ℕ :=
  nonterms.foldl (fun res nt => saturatingMul res ((ntsToNumOptions nt).getD 1)) 1

def NumOptions.record (s : NumOptions G) (rid : G.RuleId) : NumOptions G :=
  let num := calcNumOptionsForRule s.nts.entries (G.getRule rid).nonterms
  { nts := s.nts.offer larger (G.getRule rid).nonterm num
    rules := Function.update s.rules rid (some num) }

def numOptionPass (s : NumOptions G) : Except Panic (NumOptions G) :=
  .ok (G.ruleIds.foldl NumOptions.record { s with nts.changed := false })

def calcNumOptions (rounds : ℕ) (ctx : Context G) : Except Panic (Context G) := do
  let nts (nt : NTermId) : Option ℕ := ctx.ntsToNumOptions nt <|> (ctx.ntsToRules nt).map List.length
  let s ← whileChanged .unfinished (·.nts.changed) numOptionPass rounds
    { nts := ⟨nts, true⟩, rules := ctx.rulesToNumOptions }
  return { ctx with ntsToNumOptions := s.nts.entries, rulesToNumOptions := s.rules }

/-- `initialize`. -/
def Context.initializeTables (rounds : ℕ) : Except Panic (Context G) := do
  calcNumOptions rounds (← calcMinLen rounds ctx)

/-! ### The property -/

/-- `m` is the least number of rules in derivations from the nonterminals. -/
def Grammar.IsMinSize (nts : List NTermId) (m : ℕ) : Prop :=
  (∃ w, Encodes G.signature nts w ∧ w.length = m) ∧ ∀ w, Encodes G.signature nts w → m ≤ w.length

/-- The nonterminal stands on a side of some rule. -/
def Grammar.HasNonterminal (G : Grammar) (nt : NTermId) : Prop :=
  ∃ r, (G.getRule r).nonterm = nt ∨ nt ∈ (G.getRule r).nonterms

/-- Every nonterminal has a finite derivation. -/
def Grammar.Productive (G : Grammar) : Prop :=
  ∀ nt, G.HasNonterminal nt → ∃ w, Encodes G.signature [nt] w

/-- The tables hold the minimum sizes of all nonterminals and rules. -/
structure Context.Exact : Prop where
  nts : ∀ nt, G.HasNonterminal nt → ∃ m, ctx.ntsToMinSize nt = some m ∧ G.IsMinSize [nt] m
  rules : ∀ r, ∃ m, ctx.rulesToMinSize r = some (m + 1) ∧ G.IsMinSize (G.getRule r).nonterms m

/-! ### Evaluations -/

/-- The table has the given sizes for the nonterminals. -/
def Sized (nts : HashMap NTermId ℕ) (nonterms : List NTermId) (ms : List ℕ) : Prop :=
  List.Forall₂ (fun nt m => nts nt = some m) nonterms ms

variable {T : HashMap NTermId ℕ} {nts : List NTermId}

theorem calcMinLenForRule_cons {nt : NTermId} {res min : ℕ} (h : T nt = some min) :
    calcMinLenForRule T (nt :: nts) res =
      if res + min < 2 ^ 64 then calcMinLenForRule T nts (res + min) else .error .overflow := by
  rw [calcMinLenForRule, h]
  simp only [checkedAdd]
  split <;> rfl

/-- The size of a rule is the sum of the sizes of its nonterminals; there is none if one of them has
    none, or if the sum overflows. -/
theorem calcMinLenForRule_cases (T : HashMap NTermId ℕ) :
    ∀ (nts : List NTermId) (res : ℕ), res < 2 ^ 64 →
    (∃ ms, Sized T nts ms ∧ res + ms.sum < 2 ^ 64 ∧ calcMinLenForRule T nts res = .ok (some (res + ms.sum))) ∨
      (∃ nt ∈ nts, T nt = none ∧ calcMinLenForRule T nts res = .ok none) ∨
      calcMinLenForRule T nts res = .error .overflow
  | [], res, hres => .inl ⟨[], .nil, hres, rfl⟩
  | nt :: nts, res, _ => by
    cases hmin : T nt with
    | none =>
      rw [calcMinLenForRule, hmin]
      exact .inr (.inl ⟨nt, mem_cons_self, hmin, rfl⟩)
    | some min =>
      rw [calcMinLenForRule_cons hmin]
      split
      · next hlt =>
        rcases calcMinLenForRule_cases T nts _ hlt with ⟨ms, hsized, hms⟩ | ⟨nt', hmem, hnone⟩ | hover
        · rw [add_assoc, ← sum_cons] at hms
          exact .inl ⟨min :: ms, .cons hmin hsized, hms⟩
        · exact .inr (.inl ⟨nt', .tail _ hmem, hnone⟩)
        · exact .inr (.inr hover)
      · exact .inr (.inr rfl)

theorem calcMinLenForRule_some {m : ℕ} (h : calcMinLenForRule T nts 1 = .ok (some m)) :
    ∃ ms, Sized T nts ms ∧ m = 1 + ms.sum ∧ m < 2 ^ 64 := by
  rcases calcMinLenForRule_cases T nts 1 (by decide) with ⟨ms, hsized, hsmall, hok⟩ | ⟨_, _, _, hok⟩ | hover
  · cases hok.symm.trans h
    exact ⟨ms, hsized, rfl, hsmall⟩
  · cases hok.symm.trans h
  · cases hover.symm.trans h

theorem calcMinLenForRule_none (h : calcMinLenForRule T nts 1 = .ok none) :
    ∃ nt ∈ nts, T nt = none := by
  rcases calcMinLenForRule_cases T nts 1 (by decide) with ⟨_, _, _, hok⟩ | ⟨nt, hnt, hnone, _⟩ | hover
  · cases hok.symm.trans h
  · exact ⟨nt, hnt, hnone⟩
  · cases hover.symm.trans h

/-- The rules are evaluated one after another, each with the sizes that are known then. -/
inductive Evaluated : List G.RuleId → MinSizes G → MinSizes G → Prop
  | nil {s : MinSizes G} : Evaluated [] s s
  | cons {rule : G.RuleId} {rules : List G.RuleId} {s s' : MinSizes G} {ms : List ℕ}
    (sized : Sized s.nts.entries (G.getRule rule).nonterms ms) (small : 1 + ms.sum < 2 ^ 64)
    (rest : Evaluated rules (s.record rule (1 + ms.sum)) s') : Evaluated (rule :: rules) s s'

theorem Evaluated.append {rules rules' : List G.RuleId} {s s' s'' : MinSizes G}
    (h : Evaluated rules s s') (h' : Evaluated rules' s' s'') :
    Evaluated (rules ++ rules') s s'' := by
  induction h with
  | nil => exact h'
  | cons sized small _ ih => exact .cons sized small (ih h')

theorem retain_evaluated : ∀ {rules kept : List G.RuleId} {s s' : MinSizes G},
    retain rules s = .ok (kept, s') →
      ∃ done, Evaluated done s s' ∧ (∀ r ∈ rules, r ∈ done ∨ r ∈ kept) ∧ kept.length ≤ rules.length
  | [], kept, s, s', h => by
    cases h
    exact ⟨[], .nil, by simp, le_refl _⟩
  | rule :: rules, kept, s, s', h => by
    obtain ⟨out, hcalc, hrest⟩ := bind_eq_ok.mp h
    cases out with
    | some min =>
      obtain ⟨ms, hsized, rfl, hsmall⟩ := calcMinLenForRule_some hcalc
      obtain ⟨done, hdone, hcover, hlen⟩ := retain_evaluated hrest
      exact ⟨rule :: done, .cons hsized hsmall hdone, forall_mem_cons.mpr ⟨.inl mem_cons_self,
        fun r hr => (hcover r hr).imp_left (mem_cons_of_mem _)⟩, le_succ_of_le hlen⟩
    | none =>
      obtain ⟨out, hretain, hpure⟩ := bind_eq_ok.mp hrest
      cases hpure
      obtain ⟨done, hdone, hcover, hlen⟩ := retain_evaluated hretain
      exact ⟨done, hdone, forall_mem_cons.mpr ⟨.inr mem_cons_self,
        fun r hr => (hcover r hr).imp_right (mem_cons_of_mem _)⟩, succ_le_succ hlen⟩

theorem resolve_evaluated : ∀ {n : ℕ} {rules : List G.RuleId} {s s' : MinSizes G},
    resolve n rules s = .ok s' → ∃ done, Evaluated done s s' ∧ ∀ r ∈ rules, r ∈ done
  | n, [], s, s', h => by
    rw [resolve] at h
    cases h
    exact ⟨[], .nil, by simp⟩
  | 0, _ :: _, s, s', h => by cases h
  | n + 1, rule :: rules, s, s', h => by
    obtain ⟨out, hretain, hrest⟩ := bind_eq_ok.mp h
    split at hrest
    · cases hrest
    obtain ⟨done, hdone, hcover, -⟩ := retain_evaluated hretain
    obtain ⟨done', hdone', hcover'⟩ := resolve_evaluated hrest
    refine ⟨done ++ done', hdone.append hdone', fun r hr => mem_append.mpr ?_⟩
    exact (hcover r hr).imp_right (hcover' r)

/-! ### What evaluations keep -/

/-- Every size of a nonterminal is that of a derivation. -/
def Sound (G : Grammar) (nts : HashMap NTermId ℕ) : Prop :=
  ∀ nt m, nts nt = some m → ∃ w, Encodes G.signature [nt] w ∧ w.length = m

variable {ms : List ℕ}

theorem Sound.derives (hsound : Sound G T) (hsized : Sized T nts ms) :
    ∃ w, Encodes G.signature nts w ∧ w.length = ms.sum := by
  induction hsized with
  | nil => exact ⟨[], rfl, rfl⟩
  | @cons nt m nts ms hnt _ ih =>
    obtain ⟨u, hu, hulen⟩ := hsound nt m hnt
    obtain ⟨v, hv, hvlen⟩ := ih
    exact ⟨u ++ v, hu.append hv, by rw [length_append, hulen, hvlen, sum_cons]⟩

theorem Sound.record {s : MinSizes G} (hsound : Sound G s.nts.entries) {rule : G.RuleId}
    (hsized : Sized s.nts.entries (G.getRule rule).nonterms ms) :
    Sound G (s.record rule (1 + ms.sum)).nts.entries := by
  intro nt m hm
  by_cases hnt : nt = (G.getRule rule).nonterm
  · subst hnt
    obtain ⟨w, hw, hlen⟩ := hsound.derives hsized
    have hrule : ∃ w, Encodes G.signature [(G.getRule rule).nonterm] w ∧ w.length = 1 + ms.sum := by
      refine ⟨rule :: w, ⟨rfl, ?_⟩, by rw [length_cons, hlen, add_comm]⟩
      rw [append_nil]
      exact hw
    rw [MinSizes.record, offer_self, Option.some.injEq] at hm
    subst hm
    cases hold : s.nts.entries (G.getRule rule).nonterm with
    | none => simpa using hrule
    | some e =>
      simp only [Option.getD_some]
      split
      · exact hrule
      · exact hsound _ e hold
  · rw [MinSizes.record, offer_of_ne hnt] at hm
    exact hsound nt m hm

/-- The nonterminals of rules. -/
def Offered (G : Grammar) (nt : NTermId) (_ : ℕ) : Prop :=
  ∃ r : G.RuleId, (G.getRule r).nonterm = nt

theorem smaller_trans (a b c : ℕ) (h : smaller a b) (h' : smaller b c) : smaller a c := by
  simp only [smaller, decide_eq_true_eq] at h h' ⊢
  omega

/-- The entry of the rule's nonterminal after the rule has been evaluated. -/
theorem record_entry (s : MinSizes G) (rule : G.RuleId) (min : ℕ) :
    ∃ e ≤ min, (s.record rule min).nts.entries (G.getRule rule).nonterm = some e := by
  rw [MinSizes.record, offer_self]
  split
  · exact ⟨min, le_refl _, rfl⟩
  · next h =>
    simp only [smaller, decide_eq_true_eq] at h
    exact ⟨_, Nat.le_of_not_lt h, rfl⟩

variable {s s' : MinSizes G} {rules : List G.RuleId}

theorem Evaluated.sound (h : Evaluated rules s s') (hsound : Sound G s.nts.entries) :
    Sound G s'.nts.entries := by
  induction h with
  | nil => exact hsound
  | cons sized _ _ ih => exact ih (hsound.record sized)

theorem Evaluated.improves (h : Evaluated rules s s') :
    Improves smaller (Offered G) s.nts s'.nts := by
  induction h with
  | nil => exact .refl _
  | @cons rule _ _ _ _ _ _ _ ih => exact (Improves.offer ⟨rule, rfl⟩).trans smaller_trans ih

/-- The entries of the rule fit together. -/
def Settled (s : MinSizes G) (rule : G.RuleId) : Prop :=
  ∃ ms, Sized s.nts.entries (G.getRule rule).nonterms ms ∧ s.rules rule = some (1 + ms.sum) ∧
    1 + ms.sum < 2 ^ 64 ∧ ∃ e ≤ 1 + ms.sum, s.nts.entries (G.getRule rule).nonterm = some e

theorem Sized.mono {T' : HashMap NTermId ℕ} (h : ∀ nt m, T nt = some m → T' nt = some m)
    (hsized : Sized T nts ms) : Sized T' nts ms :=
  List.Forall₂.imp (fun nt m => h nt m) hsized

variable {s : MinSizes G}

theorem settled_record {rule : G.RuleId} (hsized : Sized s.nts.entries (G.getRule rule).nonterms ms)
    (hsmall : 1 + ms.sum < 2 ^ 64) (hflag : (s.record rule (1 + ms.sum)).nts.changed = false) :
    Settled (s.record rule (1 + ms.sum)) rule ∧
      ∀ rule', Settled s rule' → Settled (s.record rule (1 + ms.sum)) rule' := by
  have himproves : Improves smaller (Offered G) s.nts (s.record rule (1 + ms.sum)).nts :=
    .offer ⟨rule, rfl⟩
  have hkept := (himproves.kept hflag).2
  have hself : Settled (s.record rule (1 + ms.sum)) rule :=
    ⟨ms, hsized.mono hkept, update_self _ _ _, hsmall, record_entry s rule _⟩
  refine ⟨hself, fun rule' hsettled => ?_⟩
  by_cases heq : rule' = rule
  · exact heq ▸ hself
  · obtain ⟨ms', hsized', hrule', hsmall', e, he, hentry⟩ := hsettled
    refine ⟨ms', hsized'.mono hkept, ?_, hsmall', e, he, hkept _ e hentry⟩
    exact (update_of_ne heq _ _).trans hrule'

/-- If no entry got smaller, all rules that were evaluated are settled. -/
theorem Evaluated.settled (h : Evaluated rules s s') (hflag : s'.nts.changed = false) :
    ∀ r, r ∈ rules ∨ Settled s r → Settled s' r := by
  induction h with
  | nil =>
    rintro r (hr | hr)
    · cases hr
    · exact hr
  | @cons rule rules s s' ms sized small rest ih =>
    obtain ⟨hself, hothers⟩ := settled_record sized small (rest.improves.kept hflag).1
    rintro r (hr | hr)
    · rcases mem_cons.mp hr with rfl | hr
      · exact ih hflag r (.inr hself)
      · exact ih hflag r (.inl hr)
    · exact ih hflag r (.inr (hothers r hr))

theorem Evaluated.known (h : Evaluated rules s s') :
    ∀ r ∈ rules, (s'.nts.entries (G.getRule r).nonterm).isSome := by
  induction h with
  | nil => simp
  | @cons rule rules s s' ms sized _ rest ih =>
    obtain ⟨e, -, he⟩ := record_entry s rule (1 + ms.sum)
    exact forall_mem_cons.mpr ⟨rest.improves.isSome (Option.isSome_of_eq_some he), ih⟩

/-- The sizes of settled rules are the least ones. -/
theorem sum_le_length (hsettled : ∀ r, Settled s r) : ∀ {w : List G.RuleId}
    {nts : List NTermId}
    {ms : List ℕ}, Encodes G.signature nts w → Sized s.nts.entries nts ms → ms.sum ≤ w.length
  | [], nts, ms, hw, hsized => by
    rw [encodes_nil] at hw
    subst hw
    cases hsized
    exact le_refl 0
  | _ :: _, [], _, hw, _ => hw.elim
  | a :: w, nt :: nts, ms, ⟨hsort, hw⟩, hsized => by
    obtain ⟨ks, hks, -, -, e, hle, he⟩ := hsettled a
    obtain ⟨m, ms, hnt, hrest, rfl⟩ := forall₂_cons_left_iff.mp hsized
    have hle' := sum_le_length hsettled hw (rel_append hks hrest)
    rw [← hsort] at hnt
    cases he.symm.trans hnt
    rw [List.sum_append] at hle'
    rw [sum_cons, length_cons]
    omega

/-! ### The rounds come to an end -/

theorem retain_total : ∀ (rules : List G.RuleId) (s : MinSizes G),
    (∃ out, retain rules s = .ok out) ∨ retain rules s = .error .overflow
  | [], s => .inl ⟨_, rfl⟩
  | rule :: rules, s => by
    rw [retain]
    rcases calcMinLenForRule_cases s.nts.entries (G.getRule rule).nonterms 1 (by decide) with
      ⟨ms, -, -, hout⟩ | ⟨_, -, -, hout⟩ | hover
    · rw [hout]
      exact retain_total rules _
    · rw [hout]
      rcases retain_total rules s with ⟨out, hout⟩ | hover
      · exact .inl ⟨(rule :: out.1, out.2), by rw [hout]; rfl⟩
      · exact .inr (by rw [hover]; rfl)
    · exact .inr (by rw [hover]; rfl)

/-- A rule whose nonterminals are known is taken out. -/
theorem retain_shortens {r : G.RuleId} :
    ∀ {rules kept : List G.RuleId} {s s' : MinSizes G}, r ∈ rules →
    (∀ nt ∈ (G.getRule r).nonterms, (s.nts.entries nt).isSome) → retain rules s = .ok (kept, s') →
      kept.length < rules.length
  | [], _, _, _, hr, _, _ => absurd hr not_mem_nil
  | rule :: rules, kept, s, s', hr, hknown, h => by
    obtain ⟨out, hcalc, hrest⟩ := bind_eq_ok.mp h
    cases out with
    | some min =>
      obtain ⟨_, -, -, hlen⟩ := retain_evaluated hrest
      exact lt_succ_of_le hlen
    | none =>
      obtain ⟨out, hretain, hpure⟩ := bind_eq_ok.mp hrest
      cases hpure
      rcases mem_cons.mp hr with rfl | hr
      · obtain ⟨nt, hnt, hnone⟩ := calcMinLenForRule_none hcalc
        cases hnone ▸ hknown nt hnt
      · exact succ_lt_succ (retain_shortens hr hknown hretain)

/-- While rules are unknown, there is one whose nonterminals are all known. -/
theorem exists_known_rule (hproductive : G.Productive) {unknown : List G.RuleId}
    (hcover : ∀ r, r ∈ unknown ∨ (s.nts.entries (G.getRule r).nonterm).isSome)
    (hne : unknown ≠ []) :
    ∃ r ∈ unknown, ∀ nt ∈ (G.getRule r).nonterms, (s.nts.entries nt).isSome := by
  by_contra hstuck
  push Not at hstuck
  -- a derivation has only known nonterminals: look at its last node first
  have hknown : ∀ (w : List G.RuleId) (nts : List NTermId), Encodes G.signature nts w →
      ∀ nt ∈ nts, (s.nts.entries nt).isSome := by
    intro w
    induction w with
    | nil =>
      intro nts hw nt hnt
      rw [encodes_nil] at hw
      simp [hw] at hnt
    | cons a w ih =>
      intro nts hw nt hnt
      cases nts with
      | nil => exact hw.elim
      | cons n nts =>
        obtain ⟨hsort, hw⟩ := hw
        have hrest := ih _ hw
        rcases mem_cons.mp hnt with rfl | hnt
        · rcases hcover a with ha | ha
          · obtain ⟨nt', hnt', hnone⟩ := hstuck a ha
            exact absurd (hrest nt' (mem_append_left _ hnt')) hnone
          · exact hsort ▸ ha
        · exact hrest nt (mem_append_right _ hnt)
  obtain ⟨r, hr⟩ := exists_mem_of_ne_nil _ hne
  obtain ⟨nt, hnt, hnone⟩ := hstuck r hr
  obtain ⟨w, hw⟩ := hproductive nt ⟨r, .inr hnt⟩
  exact hnone (hknown w [nt] hw nt mem_cons_self)

theorem resolve_total (hproductive : G.Productive) :
    ∀ {n : ℕ} {unknown : List G.RuleId} {s : MinSizes G},
    unknown.length ≤ n → (∀ r, r ∈ unknown ∨ (s.nts.entries (G.getRule r).nonterm).isSome) →
      (∃ s', resolve n unknown s = .ok s') ∨ resolve n unknown s = .error .overflow
  | n, [], s, _, _ => by
    rw [resolve]
    exact .inl ⟨s, rfl⟩
  | 0, _ :: _, _, hn, _ => absurd hn (not_succ_le_zero _)
  | n + 1, rule :: rules, s, hn, hcover => by
    rw [resolve]
    rcases retain_total (rule :: rules) s with ⟨out, hout⟩ | hover
    · obtain ⟨r, hr, hknown⟩ := exists_known_rule hproductive hcover (cons_ne_nil _ _)
      have hshort := retain_shortens hr hknown hout
      obtain ⟨done, hdone, hrules, -⟩ := retain_evaluated hout
      rw [hout]
      simp only [Except.bind, bind, if_neg (Nat.ne_of_lt hshort)]
      refine resolve_total hproductive (by omega) fun r => ?_
      rcases hcover r with hr | hr
      · rcases hrules r hr with hr | hr
        · exact .inr (hdone.known r hr)
        · exact .inl hr
      · exact .inr (hdone.improves.isSome hr)
    · exact .inr (by rw [hover]; rfl)

theorem mem_ruleIds (r : G.RuleId) : r ∈ G.ruleIds := mem_finRange r

/-- What a pass leaves: all nonterminals are known, and all rules are settled if nothing changed. -/
structure Passed (s : MinSizes G) : Prop where
  sound : Sound G s.nts.entries
  known : ∀ r, (s.nts.entries (G.getRule r).nonterm).isSome
  settled : s.nts.changed = false → ∀ r, Settled s r

theorem minSizePass_ok (hsound : Sound G s.nts.entries) (h : minSizePass s = .ok s') :
    Passed s' ∧ Improves smaller (Offered G) ⟨s.nts.entries, false⟩ s'.nts := by
  obtain ⟨done, hdone, hall⟩ := resolve_evaluated h
  have hmem : ∀ r, r ∈ done := fun r => hall r (mem_ruleIds r)
  exact ⟨⟨hdone.sound hsound, fun r => hdone.known r (hmem r),
    fun hflag r => hdone.settled hflag r (.inl (hmem r))⟩, hdone.improves⟩

theorem minSizePass_error (hproductive : G.Productive) {e : Panic} (h : minSizePass s = .error e) :
    e = .overflow := by
  rcases resolve_total hproductive (le_refl _) (fun r => .inl (mem_ruleIds r)) with ⟨s', hok⟩ | hover
  · cases hok.symm.trans h
  · cases hover.symm.trans h
    rfl

/-- Enough rounds of `calc_min_len` always give the same result: an overflow, or settled rules. -/
theorem minSizes_end (hproductive : G.Productive) (s₀ : MinSizes G)
    (hchanged : s₀.nts.changed = true) (hsound : Sound G s₀.nts.entries) : ∃ res N,
    (∀ n > N, whileChanged .unfinished (·.nts.changed) minSizePass n s₀ = res) ∧
    (res = .error .overflow ∨ ∃ s, res = .ok s ∧ Sound G s.nts.entries ∧ ∀ r, Settled s r) := by
  cases hfirst : minSizePass s₀ with
  | error e =>
    cases minSizePass_error hproductive hfirst
    refine ⟨_, 0, fun n hn => ?_, .inl rfl⟩
    obtain ⟨m, rfl⟩ : ∃ m, n = m + 1 := ⟨n - 1, by omega⟩
    exact whileChanged_error hfirst hchanged m
  | ok s₁ =>
    -- from the second pass on every nonterminal has a size, which cannot get smaller for ever
    have hpass : ∀ s s' : MinSizes G, Passed s → s.nts.changed = true → minSizePass s = .ok s' →
        Passed s' ∧ (s'.nts.changed = true →
          s'.nts.cost G.signature.sort id < s.nts.cost G.signature.sort id) := by
      intro s s' hs _ hok
      obtain ⟨hs', himproves⟩ := minSizePass_ok hs.sound hok
      refine ⟨hs', fun hflag => himproves.cost_lt hs.known ?_ ?_ ?_ rfl hflag⟩
      · exact fun _ _ h => h
      · exact fun a b h => le_of_lt (of_decide_eq_true h)
      · exact fun _ a b _ h => of_decide_eq_true h
    obtain ⟨res, hres, hend⟩ := whileChanged_ends .unfinished hpass _ s₁
      (minSizePass_ok hsound hfirst).1 (le_refl _)
    refine ⟨res, s₁.nts.cost G.signature.sort id + 1, fun n hn => ?_, ?_⟩
    · obtain ⟨m, rfl⟩ : ∃ m, n = m + 1 := ⟨n - 1, by omega⟩
      rw [whileChanged_ok hfirst hchanged]
      exact hres m (by omega)
    · rcases hend with ⟨s, e, -, herror, rfl⟩ | ⟨s, hs, hflag, rfl⟩
      · rw [minSizePass_error hproductive herror]
        exact .inl rfl
      · exact .inr ⟨s, rfl, hs.sound, hs.settled hflag⟩

/-- Settled sizes that are sound are exact. -/
theorem isMinSize_of_settled (hsound : Sound G s.nts.entries) (hsettled : ∀ r, Settled s r)
    (hsized : Sized s.nts.entries nts ms) : G.IsMinSize nts ms.sum := by
  obtain ⟨w, hw, hlen⟩ := hsound.derives hsized
  exact ⟨⟨w, hw, hlen⟩, fun w' hw' => sum_le_length hsettled hw' hsized⟩

theorem exists_size (hsettled : ∀ r, Settled s r) {nt : NTermId} (hnt : G.HasNonterminal nt) :
    ∃ m, s.nts.entries nt = some m := by
  obtain ⟨r, rfl | hr⟩ := hnt
  · obtain ⟨_, _, _, _, e, _, he⟩ := hsettled r
    exact ⟨e, he⟩
  · obtain ⟨ms, hsized, -⟩ := hsettled r
    exact exists_of_forall₂ hsized nt hr

/-! ### Numbers of options -/

/-- The values that `calc_num_options` enters. -/
def OptionOffered (G : Grammar) (nt : NTermId) (num : ℕ) : Prop :=
  (∃ r : G.RuleId, (G.getRule r).nonterm = nt) ∧ num < 2 ^ 64

theorem larger_trans (a b c : ℕ) (h : larger a b) (h' : larger b c) : larger a c := by
  simp only [larger, decide_eq_true_eq] at h h' ⊢
  omega

theorem calcNumOptionsForRule_lt (T : HashMap NTermId ℕ) (nonterms : List NTermId) :
    calcNumOptionsForRule T nonterms < 2 ^ 64 := by
  refine foldlRecOn (motive := (· < 2 ^ 64)) nonterms _ (by decide) fun _ _ _ _ => ?_
  exact lt_of_le_of_lt (min_le_right _ _) (by decide)

theorem foldl_record_improves : ∀ (rules : List G.RuleId) (s : NumOptions G),
    Improves larger (OptionOffered G) s.nts (rules.foldl NumOptions.record s).nts
  | [], s => .refl _
  | rid :: rules, s => by
    have hfirst : Improves larger (OptionOffered G) s.nts (s.record rid).nts :=
      .offer ⟨⟨rid, rfl⟩, calcNumOptionsForRule_lt _ _⟩
    exact hfirst.trans larger_trans (foldl_record_improves rules _)

theorem foldl_record_rules (r : G.RuleId) (rules : List G.RuleId) (s : NumOptions G) :
    ((rules.foldl NumOptions.record s).rules r).isSome ↔ (s.rules r).isSome ∨ r ∈ rules := by
  have hstep : ∀ (s : NumOptions G) (rid : G.RuleId),
      ((s.record rid).rules r).isSome ↔ (s.rules r).isSome ∨ rid = r := by
    intro s rid
    by_cases hr : r = rid
    · simp [NumOptions.record, hr]
    · simp [NumOptions.record, hr, Ne.symm hr]
  simpa using Run.foldl_iff (P := fun s : NumOptions G => (s.rules r).isSome) hstep rules s

/-- Enough rounds of `calc_num_options` always give the same tables, with an entry for every
    rule. -/
theorem numOptions_end (s₀ : NumOptions G) (hchanged : s₀.nts.changed = true)
    (hknown : ∀ r, (s₀.nts.entries (G.getRule r).nonterm).isSome) : ∃ s N,
    (∀ n > N, whileChanged .unfinished (·.nts.changed) numOptionPass n s₀ = .ok s) ∧
      ∀ r, (s.rules r).isSome := by
  have hpass : ∀ s s' : NumOptions G,
      ((∀ r, (s.nts.entries (G.getRule r).nonterm).isSome) ∧
        (s.nts.changed = false → ∀ r, (s.rules r).isSome)) →
      s.nts.changed = true → numOptionPass s = .ok s' →
      ((∀ r, (s'.nts.entries (G.getRule r).nonterm).isSome) ∧
        (s'.nts.changed = false → ∀ r, (s'.rules r).isSome)) ∧
      (s'.nts.changed = true →
        s'.nts.cost G.signature.sort (2 ^ 64 - ·) < s.nts.cost G.signature.sort (2 ^ 64 - ·)) := by
    intro s s' hs _ hok
    cases hok
    have himproves := foldl_record_improves G.ruleIds { s with nts.changed := false }
    refine ⟨⟨fun r => himproves.isSome (hs.1 r), fun _ r => ?_⟩,
      fun hflag => himproves.cost_lt hs.1 ?_ ?_ ?_ rfl hflag⟩
    · exact (foldl_record_rules r _ _).mpr (.inr (mem_ruleIds r))
    · exact fun _ _ h => h.1
    · intro a b h
      simp only [larger, decide_eq_true_eq] at h
      omega
    · rintro _ a b ⟨-, ha⟩ h
      simp only [larger, decide_eq_true_eq] at h
      omega
  obtain ⟨res, hres, hend⟩ := whileChanged_ends .unfinished hpass _ s₀
    ⟨hknown, fun hflag => absurd (hflag.symm.trans hchanged) Bool.false_ne_true⟩ (le_refl _)
  rcases hend with ⟨s, e, -, herror, -⟩ | ⟨s, hs, hflag, rfl⟩
  · cases herror
  · exact ⟨s, _, hres, hs.2 hflag⟩

/-! ### The context -/

/-- The rules of a nonterminal are entered under it. -/
def Context.Filed : Prop :=
  ∀ nt r, (∃ ids, ctx.ntsToRules nt = some ids ∧ r ∈ ids) ↔ (G.getRule r).nonterm = nt

/-- What the code relies on after `initialize`. -/
structure Context.Ready : Prop extends ctx.Exact where
  filed : ctx.Filed
  sorted : ∀ nt ids, ctx.ntsToRules nt = some ids →
    ids.Pairwise fun r r' => (ctx.rulesToMinSize r).getD 0 ≤ (ctx.rulesToMinSize r').getD 0
  options : ∀ r, (ctx.rulesToNumOptions r).isSome
  small : ∀ r m, ctx.rulesToMinSize r = some m → m < 2 ^ 64

theorem context_ntsToMinSize : G.context.ntsToMinSize = fun _ => none :=
  foldlRecOn (motive := fun ctx : Context G => ctx.ntsToMinSize = fun _ => none) G.ruleIds Context.addRule rfl
    fun _ h _ _ => h

theorem context_filed (G : Grammar) : G.context.Filed := by
  intro nt r
  have hstep : ∀ (ctx : Context G) (rid : G.RuleId),
      (∃ ids, (ctx.addRule rid).ntsToRules nt = some ids ∧ r ∈ ids) ↔
        (∃ ids, ctx.ntsToRules nt = some ids ∧ r ∈ ids) ∨ (rid = r ∧ (G.getRule r).nonterm = nt) := by
    intro ctx rid
    by_cases hnt : nt = (G.getRule rid).nonterm
    · subst hnt
      cases hids : ctx.ntsToRules (G.getRule rid).nonterm <;>
        simp [Context.addRule, hids, eq_comm] <;> grind
    · simp only [Context.addRule, update_of_ne hnt]
      grind
  have hfold := Run.foldl_iff (P := fun ctx : Context G => ∃ ids, ctx.ntsToRules nt = some ids ∧ r ∈ ids)
    hstep G.ruleIds {}
  rw [Grammar.context, hfold]
  simp [mem_ruleIds]

variable {ctx : Context G}

theorem filed_calcRuleOrder (h : ctx.Filed) : (calcRuleOrder ctx).Filed := by
  intro nt r
  rw [← h nt r]
  cases hids : ctx.ntsToRules nt with
  | none | some => simp [calcRuleOrder, hids]

theorem sorted_calcRuleOrder (ctx : Context G) (nt : NTermId) (ids : List G.RuleId)
    (h : (calcRuleOrder ctx).ntsToRules nt = some ids) :
    ids.Pairwise fun r r' => (ctx.rulesToMinSize r).getD 0 ≤ (ctx.rulesToMinSize r').getD 0 := by
  obtain ⟨ids', -, rfl⟩ := Option.map_eq_some_iff.mp h
  have : Std.Total fun r r' : G.RuleId =>
      (ctx.rulesToMinSize r).getD 0 ≤ (ctx.rulesToMinSize r').getD 0 := ⟨fun _ _ => le_total _ _⟩
  have : IsTrans G.RuleId fun r r' =>
      (ctx.rulesToMinSize r).getD 0 ≤ (ctx.rulesToMinSize r').getD 0 := ⟨fun _ _ _ => le_trans⟩
  exact pairwise_insertionSort _ _

/-- `calc_num_options` comes to an end, and changes only its own tables. -/
theorem calcNumOptions_ends (hfiled : ctx.Filed) : ∃ nts rules N,
    (∀ rounds > N, calcNumOptions rounds ctx =
      .ok { ctx with ntsToNumOptions := nts, rulesToNumOptions := rules }) ∧
    ∀ r, (rules r).isSome := by
  let start : NumOptions G :=
    { nts := ⟨fun nt => ctx.ntsToNumOptions nt <|> (ctx.ntsToRules nt).map List.length, true⟩
      rules := ctx.rulesToNumOptions }
  have hknown : ∀ r, (start.nts.entries (G.getRule r).nonterm).isSome := by
    intro r
    obtain ⟨ids, hids, -⟩ := (hfiled (G.getRule r).nonterm r).mpr rfl
    cases hopt : ctx.ntsToNumOptions (G.getRule r).nonterm <;> simp [start, hopt, hids]
  obtain ⟨s, N, hs, hrules⟩ := numOptions_end start rfl hknown
  refine ⟨s.nts.entries, s.rules, N, fun rounds hrounds => ?_, hrules⟩
  rw [calcNumOptions, hs rounds hrounds]
  rfl

/-- Enough rounds of `calc_min_len` give exact sizes, unless they overflow. -/
theorem calcMinLen_ends (hproductive : G.Productive) : ∃ N,
    (∀ rounds > N, calcMinLen rounds G.context = .error .overflow) ∨
      ∃ ctx, (∀ rounds > N, calcMinLen rounds G.context = .ok (calcRuleOrder ctx)) ∧
        ctx.Exact ∧ ctx.ntsToRules = G.context.ntsToRules ∧
        ∀ r m, ctx.rulesToMinSize r = some m → m < 2 ^ 64 := by
  have hsound : Sound G G.context.ntsToMinSize := by
    rw [context_ntsToMinSize]
    exact fun _ _ h => by cases h
  obtain ⟨res, N, hres, hend⟩ := minSizes_end hproductive
    { nts := ⟨G.context.ntsToMinSize, true⟩, rules := G.context.rulesToMinSize } rfl hsound
  refine ⟨N, ?_⟩
  rcases hend with rfl | ⟨s, rfl, hsound, hsettled⟩
  · left
    intro rounds hrounds
    rw [calcMinLen, hres rounds hrounds]
    rfl
  · right
    refine ⟨{ G.context with ntsToMinSize := s.nts.entries, rulesToMinSize := s.rules },
      fun rounds hrounds => ?_, ⟨fun nt hnt => ?_, fun r => ?_⟩, rfl, fun r m hm => ?_⟩
    · rw [calcMinLen, hres rounds hrounds]
      rfl
    · obtain ⟨m, hm⟩ := exists_size hsettled hnt
      have hmin := isMinSize_of_settled hsound hsettled (.cons hm .nil)
      rw [sum_singleton] at hmin
      exact ⟨m, hm, hmin⟩
    · obtain ⟨ms, hsized, hrule, -⟩ := hsettled r
      exact ⟨ms.sum, hrule.trans (congrArg some (add_comm _ _)), isMinSize_of_settled hsound hsettled hsized⟩
    · obtain ⟨ms, -, hrule, hsmall, -⟩ := hsettled r
      cases hrule.symm.trans hm
      exact hsmall

theorem initialize_filed {rounds : ℕ} (h : G.context.initializeTables rounds = .ok ctx) :
    ctx.Filed := by
  obtain ⟨mid, hmid, h⟩ := bind_eq_ok.mp h
  obtain ⟨s, -, hmid⟩ := bind_eq_ok.mp hmid
  obtain ⟨s', -, h⟩ := bind_eq_ok.mp h
  cases hmid
  cases h
  have hfiled : Context.Filed (G := G)
      { G.context with ntsToMinSize := s.nts.entries, rulesToMinSize := s.rules } := context_filed G
  exact filed_calcRuleOrder hfiled

/-- Enough rounds of `initialize` give the same context, unless sizes overflow. -/
theorem initialize_ends (hproductive : G.Productive) : ∃ N,
    (calcMinLen (N + 1) G.context = .error .overflow ∧
      ∀ rounds > N, G.context.initializeTables rounds = .error .overflow) ∨
    ((∃ ctx, calcMinLen (N + 1) G.context = .ok ctx) ∧
      ∃ ctx, (∀ rounds > N, G.context.initializeTables rounds = .ok ctx) ∧ ctx.Ready) := by
  obtain ⟨N, hover | ⟨ctx, hctx, hexact, hsame, hsmall⟩⟩ := calcMinLen_ends hproductive
  · refine ⟨N, .inl ⟨hover _ (lt_succ_self N), fun rounds hrounds => ?_⟩⟩
    rw [Context.initializeTables, hover rounds hrounds]
    rfl
  · have hfiled : ctx.Filed := by
      have hfiled := context_filed G
      rwa [Context.Filed, ← hsame] at hfiled
    obtain ⟨nts, rules, N', hoptions, hrules⟩ := calcNumOptions_ends (filed_calcRuleOrder hfiled)
    refine ⟨N + N', .inr ⟨⟨_, hctx _ (by omega)⟩,
      { calcRuleOrder ctx with ntsToNumOptions := nts, rulesToNumOptions := rules },
      fun rounds hrounds => ?_, ?_⟩⟩
    · rw [Context.initializeTables, hctx rounds (by omega)]
      exact hoptions rounds (by omega)
    · exact { nts := hexact.nts
              rules := hexact.rules
              filed := filed_calcRuleOrder hfiled
              sorted := sorted_calcRuleOrder ctx
              options := hrules
              small := hsmall }

end Bofuzz.Nautilus
