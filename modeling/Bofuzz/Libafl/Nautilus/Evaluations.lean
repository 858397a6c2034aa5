import Bofuzz.Libafl.Nautilus.Grammar

/-! When `calc_min_len` overflows (`common/nautilus/grammartec/context.rs`).

    The sizes are added with `+`. `Reaches` is the run of the loops with exact numbers, one rule at
    a time, and `SizesFit` says that no rule it comes to has sizes that add up to `2 ^ 64`. The code
    follows that run up to the first sum that does not fit. -/

namespace Bofuzz.Nautilus
open Result Improve List

variable {G : Grammar}

/-- The run reaches these tables, in a round that has `kept` rules whose size is unknown and still
    has to look at `rules`. -/
inductive Reaches (G : Grammar) : (kept rules : List G.RuleId) → MinSizes G → Prop
  | start : Reaches G [] G.ruleIds ⟨⟨G.context.ntsToMinSize, false⟩, G.context.rulesToMinSize⟩
  | known {kept rules : List G.RuleId} {rule : G.RuleId} {s : MinSizes G} {ms : List ℕ}
    (before : Reaches G kept (rule :: rules) s)
    (sized : Sized s.nts.entries (G.getRule rule).nonterms ms) :
    Reaches G kept rules (s.record rule (1 + ms.sum))
  | unknown {kept rules : List G.RuleId} {rule : G.RuleId} {s : MinSizes G} {nt : NTermId}
    (before : Reaches G kept (rule :: rules) s) (mem : nt ∈ (G.getRule rule).nonterms)
    (none : s.nts.entries nt = none) : Reaches G (kept ++ [rule]) rules s
  | round {kept : List G.RuleId} {s : MinSizes G} (before : Reaches G kept [] s) : Reaches G [] kept s
  | pass {s : MinSizes G} (before : Reaches G [] [] s) (changed : s.nts.changed = true) :
    Reaches G [] G.ruleIds { s with nts.changed := false }

/-- The sizes that are added for a rule, up to its first nonterminal without one, fit into 64
    bits. -/
def Grammar.SizesFit (G : Grammar) : Prop :=
  ∀ (kept rules : List G.RuleId) (rule : G.RuleId) (s : MinSizes G), Reaches G kept (rule :: rules) s →
    ∀ nts ms, nts <+: (G.getRule rule).nonterms → Sized s.nts.entries nts ms → 1 + ms.sum < 2 ^ 64

variable {T : HashMap NTermId ℕ}

theorem calcMinLenForRule_overflow_iff : ∀ {nts : List NTermId} {res : ℕ},
    res < 2 ^ 64 → (calcMinLenForRule T nts res = .error .overflow ↔
      ∃ pre ms, pre <+: nts ∧ Sized T pre ms ∧ 2 ^ 64 ≤ res + ms.sum)
  | [], res, hres => by
    constructor
    · intro h
      cases h
    · rintro ⟨pre, ms, hpre, hsized, hle⟩
      rw [prefix_nil] at hpre
      subst hpre
      cases hsized
      rw [sum_nil] at hle
      omega
  | nt :: nts, res, hres => by
    cases hmin : T nt with
    | none =>
      rw [calcMinLenForRule, hmin]
      constructor
      · intro h
        cases h
      · rintro ⟨pre, ms, hpre, hsized, hle⟩
        rcases prefix_cons_iff.mp hpre with rfl | ⟨pre, rfl, -⟩
        · cases hsized
          rw [sum_nil] at hle
          omega
        · obtain ⟨m, _, hm, -⟩ := forall₂_cons_left_iff.mp hsized
          cases hmin.symm.trans hm
    | some min =>
      rw [calcMinLenForRule_cons hmin]
      split
      · next hlt =>
        rw [calcMinLenForRule_overflow_iff hlt]
        constructor
        · rintro ⟨pre, ms, hpre, hsized, hle⟩
          refine ⟨nt :: pre, min :: ms, cons_prefix_cons.mpr ⟨rfl, hpre⟩, .cons hmin hsized, ?_⟩
          rwa [sum_cons, ← Nat.add_assoc]
        · rintro ⟨pre, ms, hpre, hsized, hle⟩
          rcases prefix_cons_iff.mp hpre with rfl | ⟨pre', rfl, hpre'⟩
          · cases hsized
            rw [sum_nil] at hle
            omega
          · obtain ⟨m, ms', hm, hsized', rfl⟩ := forall₂_cons_left_iff.mp hsized
            cases hmin.symm.trans hm
            rw [sum_cons, ← Nat.add_assoc] at hle
            exact ⟨pre', ms', hpre', hsized', hle⟩
      · next hge =>
        refine ⟨fun _ => ⟨[nt], [min], ?_, .cons hmin .nil, ?_⟩, fun _ => rfl⟩
        · exact cons_prefix_cons.mpr ⟨rfl, nil_prefix⟩
        · rw [sum_singleton]
          omega

theorem Sized.isSome {nts : List NTermId} {ms : List ℕ} (h : Sized T nts ms) :
    ∀ nt ∈ nts, (T nt).isSome := by
  induction h with
  | nil => simp
  | cons hnt _ ih => exact forall_mem_cons.mpr ⟨by rw [hnt]; rfl, ih⟩

theorem Sized.unique {nts : List NTermId} {ms ms' : List ℕ} (h : Sized T nts ms)
    (h' : Sized T nts ms') : ms = ms' := by
  induction h generalizing ms' with
  | nil =>
    cases h'
    rfl
  | cons hnt _ ih =>
    obtain ⟨m', ms', hnt', hrest', rfl⟩ := forall₂_cons_left_iff.mp h'
    cases hnt.symm.trans hnt'
    rw [ih hrest']

variable {kept rules : List G.RuleId}

theorem not_sizesFit {rule : G.RuleId} {s : MinSizes G} (h : Reaches G kept (rule :: rules) s)
    (hover : calcMinLenForRule s.nts.entries (G.getRule rule).nonterms 1 = .error .overflow) :
    ¬ G.SizesFit := by
  intro hfit
  obtain ⟨pre, ms, hpre, hsized, hle⟩ := (calcMinLenForRule_overflow_iff (by decide)).mp hover
  exact absurd (hfit kept rules rule s h pre ms hpre hsized) (by omega)

section
variable {rule : G.RuleId} {rules : List G.RuleId} {s : MinSizes G}

theorem retain_known {m : ℕ}
    (h : calcMinLenForRule s.nts.entries (G.getRule rule).nonterms 1 = .ok (some m)) :
    retain (rule :: rules) s = retain rules (s.record rule m) := by
  rw [retain, h]
  rfl

theorem retain_unknown
    (h : calcMinLenForRule s.nts.entries (G.getRule rule).nonterms 1 = .ok none) :
    retain (rule :: rules) s = do
      let out ← retain rules s
      return (rule :: out.1, out.2) := by
  rw [retain, h]
  rfl

theorem retain_error {e : Panic}
    (h : calcMinLenForRule s.nts.entries (G.getRule rule).nonterms 1 = .error e) :
    retain (rule :: rules) s = .error e := by
  rw [retain, h]
  rfl

end

/-! ### The code follows the run -/

/-- The passes over the rules. -/
def passes (n : ℕ) (s : MinSizes G) : Except Panic (MinSizes G) :=
  whileChanged .unfinished (·.nts.changed) minSizePass n s

theorem retain_reaches : ∀ {rules kept : List G.RuleId} {s : MinSizes G}, Reaches G kept rules s →
    (∀ out, retain rules s = .ok out → Reaches G (kept ++ out.1) [] out.2) ∧
      (retain rules s = .error .overflow → ¬ G.SizesFit)
  | [], kept, s, h => by
    refine ⟨fun out hout => ?_, fun hover => by cases hover⟩
    cases hout
    rwa [append_nil]
  | rule :: rules, kept, s, h => by
    rcases calcMinLenForRule_cases s.nts.entries (G.getRule rule).nonterms 1 (by decide) with
      ⟨ms, hsized, -, hout⟩ | ⟨nt, hmem, hnone, hout⟩ | hover
    · rw [retain_known hout]
      exact retain_reaches (h.known hsized)
    · obtain ⟨hok, herror⟩ := retain_reaches (h.unknown hmem hnone)
      rw [retain_unknown hout]
      cases hrest : retain rules s with
      | error e =>
        refine ⟨fun out hout => ?_, fun hover => herror ?_⟩
        · cases hout
        · cases hover
          exact hrest
      | ok rest =>
        refine ⟨fun out hout => ?_, fun hover => ?_⟩
        · cases hout
          have hreaches := hok rest hrest
          rwa [append_assoc] at hreaches
        · cases hover
    · rw [retain_error hover]
      refine ⟨fun out hout => ?_, fun _ => not_sizesFit h hover⟩
      cases hout

theorem resolve_reaches : ∀ {n : ℕ} {rules : List G.RuleId} {s : MinSizes G}, Reaches G [] rules s →
    (∀ s', resolve n rules s = .ok s' → Reaches G [] [] s') ∧
      (resolve n rules s = .error .overflow → ¬ G.SizesFit)
  | n, [], s, h => by
    rw [resolve]
    refine ⟨fun s' hs' => ?_, fun hover => by cases hover⟩
    cases hs'
    exact h
  | 0, _ :: _, s, h => ⟨fun _ hs' => (by cases hs'), fun hover => (by cases hover)⟩
  | n + 1, rule :: rules, s, h => by
    obtain ⟨hok, herror⟩ := retain_reaches h
    rw [resolve]
    cases hout : retain (rule :: rules) s with
    | error e =>
      refine ⟨fun s' hs' => ?_, fun hover => herror ?_⟩
      · cases hs'
      · cases hover
        exact hout
    | ok out =>
      simp only [bind, Except.bind]
      split
      · exact ⟨fun _ hs' => (by cases hs'), fun hover => (by cases hover)⟩
      · exact resolve_reaches (hok out hout).round

theorem whileChanged_reaches : ∀ {n : ℕ} {s : MinSizes G},
    Reaches G [] G.ruleIds { s with nts.changed := false } → s.nts.changed = true →
      passes n s = .error .overflow → ¬ G.SizesFit
  | 0, s, _, hchanged, h => by
    rw [passes, whileChanged, if_pos hchanged] at h
    cases h
  | n + 1, s, hreaches, hchanged, h => by
    obtain ⟨hok, herror⟩ := resolve_reaches (n := G.ruleIds.length) hreaches
    cases hpass : minSizePass s with
    | error e =>
      rw [passes, whileChanged_error hpass hchanged] at h
      cases h
      exact herror hpass
    | ok s' =>
      rw [passes, whileChanged_ok hpass hchanged] at h
      have hreaches' := hok s' hpass
      cases hchanged' : s'.nts.changed with
      | false =>
        have hstop : passes n s' = .ok s' := by
          apply whileChanged_stop
          exact hchanged'
        cases hstop.symm.trans h
      | true => exact whileChanged_reaches (hreaches'.pass hchanged') hchanged' h

/-! ### The run follows the code -/

/-- The code comes to an end from these tables on. -/
def Ends (kept rules : List G.RuleId) (s : MinSizes G) : Prop :=
  ∃ out, retain rules s = .ok out ∧ ∃ n s', resolve n (kept ++ out.1) out.2 = .ok s' ∧
    ∃ m s'', passes m s' = .ok s''

theorem ends_of_resolve {n m : ℕ} {rules : List G.RuleId} {s s' s'' : MinSizes G}
    (h : resolve n rules s = .ok s') (hrest : passes m s' = .ok s'') : Ends [] rules s := by
  cases rules with
  | nil =>
    rw [resolve] at h
    cases h
    exact ⟨([], s), rfl, 0, s, by rw [append_nil, resolve], m, s'', hrest⟩
  | cons rule rules =>
    cases n with
    | zero => cases h
    | succ n =>
      obtain ⟨out, hout, h⟩ := bind_eq_ok.mp h
      split at h
      · cases h
      · exact ⟨out, hout, n, s', h, m, s'', hrest⟩

theorem ends_of_whileChanged {m : ℕ} {s s'' : MinSizes G} (hchanged : s.nts.changed = true)
    (h : passes m s = .ok s'') : Ends [] G.ruleIds { s with nts.changed := false } := by
  cases m with
  | zero =>
    rw [passes, whileChanged, if_pos hchanged] at h
    cases h
  | succ m =>
    cases hpass : minSizePass s with
    | error e =>
      rw [passes, whileChanged_error hpass hchanged] at h
      cases h
    | ok s' =>
      rw [passes, whileChanged_ok hpass hchanged] at h
      exact ends_of_resolve hpass h

theorem Reaches.ends {m : ℕ} {s' : MinSizes G}
    (h : passes m ⟨⟨G.context.ntsToMinSize, true⟩, G.context.rulesToMinSize⟩ = .ok s')
    {s : MinSizes G} (hreaches : Reaches G kept rules s) :
    Ends kept rules s := by
  induction hreaches with
  | start => exact ends_of_whileChanged rfl h
  | @known kept rules rule s ms _ sized ih =>
    obtain ⟨out, hout, hrest⟩ := ih
    rcases calcMinLenForRule_cases s.nts.entries (G.getRule rule).nonterms 1 (by decide) with
      ⟨ms', hsized', -, hm⟩ | ⟨nt, hmem, hnone, -⟩ | hover
    · rw [retain_known hm, hsized'.unique sized] at hout
      exact ⟨out, hout, hrest⟩
    · cases hnone ▸ sized.isSome nt hmem
    · rw [retain_error hover] at hout
      cases hout
  | @unknown kept rules rule s nt _ mem none ih =>
    obtain ⟨out, hout, hrest⟩ := ih
    rcases calcMinLenForRule_cases s.nts.entries (G.getRule rule).nonterms 1 (by decide) with
      ⟨ms, hsized, -, -⟩ | ⟨-, -, -, hm⟩ | hover
    · cases none ▸ hsized.isSome nt mem
    · rw [retain_unknown hm] at hout
      obtain ⟨out', hretain, hpure⟩ := bind_eq_ok.mp hout
      cases hpure
      refine ⟨out', hretain, ?_⟩
      rwa [append_assoc]
    · rw [retain_error hover] at hout
      cases hout
  | round _ ih =>
    obtain ⟨out, hout, n, s', hresolve, m, s'', hrest⟩ := ih
    cases hout
    rw [append_nil] at hresolve
    exact ends_of_resolve hresolve hrest
  | pass _ changed ih =>
    obtain ⟨out, hout, n, s', hresolve, m, s'', hrest⟩ := ih
    cases hout
    rw [append_nil, resolve] at hresolve
    cases hresolve
    exact ends_of_whileChanged changed hrest

theorem not_sizesFit_of_overflow {rounds : ℕ} (h : calcMinLen rounds G.context = .error .overflow) :
    ¬ G.SizesFit := by
  rw [calcMinLen] at h
  cases hres : whileChanged .unfinished (·.nts.changed) minSizePass rounds
      (⟨⟨G.context.ntsToMinSize, true⟩, G.context.rulesToMinSize⟩ : MinSizes G) with
  | ok s =>
    rw [hres] at h
    cases h
  | error e =>
    rw [hres] at h
    cases h
    exact whileChanged_reaches .start rfl hres

theorem sizesFit_of_ok {rounds : ℕ} {ctx : Context G} (h : calcMinLen rounds G.context = .ok ctx) :
    G.SizesFit := by
  obtain ⟨s, hs, -⟩ := bind_eq_ok.mp h
  intro kept rules rule t hreaches nts ms hpre hsized
  obtain ⟨out, hout, -⟩ := hreaches.ends hs
  by_contra hge
  have hover : calcMinLenForRule t.nts.entries (G.getRule rule).nonterms 1 = .error .overflow :=
    (calcMinLenForRule_overflow_iff (by decide)).mpr ⟨nts, ms, hpre, hsized, by omega⟩
  rw [retain_error hover] at hout
  cases hout

/-- `initialize` ends with the tables that the code relies on exactly if the sizes fit. -/
theorem initialize_cases (hproductive : G.Productive) :
    (¬ G.SizesFit ∧ ∃ N, ∀ rounds > N, G.context.initializeTables rounds = .error .overflow) ∨
    (G.SizesFit ∧ ∃ ctx N, (∀ rounds > N, G.context.initializeTables rounds = .ok ctx) ∧ ctx.Ready) := by
  obtain ⟨N, ⟨hover, hinit⟩ | ⟨⟨_, hok⟩, ctx, hinit, hready⟩⟩ := initialize_ends hproductive
  · exact .inl ⟨not_sizesFit_of_overflow hover, N, hinit⟩
  · exact .inr ⟨sizesFit_of_ok hok, ctx, N, hinit, hready⟩

end Bofuzz.Nautilus
