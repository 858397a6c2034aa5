import Bofuzz.Protocol

/-! The vector in force while the best one is locked.

    Locking fixes the best recorded vector in the optimizer and leaves the vector in force as it
    is, the one whose window was just closed. A trial records its vector normalized once more. So
    the two agree when that window is the best on record and normalizing leaves its vector alone. -/

namespace Bofuzz
open F64 Effect TpeStage Relation LawfulF64 List

variable {F G : Type} [F64 F]

/-! ### The best trial -/

theorem bestTrial_concat (ts : List (TpeTrial F)) (t : TpeTrial F) :
    bestTrial (ts ++ [t]) = some (((bestTrial ts).map fun a =>
      if partialCmp a.reward t.reward = some .gt then a else t).getD t) := by
  cases ts with
  | nil => rfl
  | cons u us => simp [bestTrial]

theorem lt_of_partialCmp_gt {x y : F} (h : partialCmp x y = some .gt) : lt y x := by
  unfold partialCmp at h
  split_ifs at h with hlt hgt
  · cases h
  · exact hgt
  · cases h

section
variable [LawfulF64 F]

theorem not_lt_of_le {x y : F} (h : le x y) : ¬ lt y x :=
  fun hlt => ((lt_iff y x).mp hlt).2.2 h

/-- A trial that no earlier one beats is the best. -/
theorem bestTrial_last {ts : List (TpeTrial F)} {t : TpeTrial F}
    (h : ∀ u ∈ ts, le u.reward t.reward) : bestTrial (ts ++ [t]) = some t := by
  rw [bestTrial_concat]
  cases hb : bestTrial ts with
  | none => rfl
  | some a =>
    rw [Option.map_some, Option.getD_some, if_neg]
    exact fun hgt => not_lt_of_le (h a (bestTrial_mem hb)) (lt_of_partialCmp_gt hgt)

end

/-- `w` is the vector of the best trial, and no trial earned more. -/
def IsBest (trials : List (TpeTrial F)) (w : List F) : Prop :=
  ∃ t ∈ trials, bestTrial trials = some t ∧ t.vector = w ∧ ∀ u ∈ trials, F64.le u.reward t.reward

theorem IsBest.bestByReward {trials : List (TpeTrial F)} {w : List F} (h : IsBest trials w) :
    bestByReward trials = some w := by
  obtain ⟨t, _, ht, rfl, _⟩ := h
  rw [Bofuzz.bestByReward, ht]
  rfl

theorem IsBest.of_last [LawfulF64 F] {ts : List (TpeTrial F)} {t : TpeTrial F}
    (hnum : isNum t.reward) (h : ∀ u ∈ ts, le u.reward t.reward) : IsBest (ts ++ [t]) t.vector := by
  refine ⟨t, mem_append_right _ mem_cons_self, bestTrial_last h, rfl, fun u hu => ?_⟩
  rcases mem_append.mp hu with hu | hu
  · exact h u hu
  · rw [mem_singleton.mp hu]
    exact hnum

/-- Recording a trial that no earlier one beats makes it the best, also where it is merged. -/
theorem observeTrial_isBest [LawfulF64 F] {o : TpeState F} {v w : List F} {reward : F}
    {iteration : ℕ} (startMs now : ℕ) (hw : normalizeSimplexEps v = .ok w) (hnum : isNum reward)
    (hmax : ∀ t ∈ o.trials, le t.reward reward)
    (hmerge : ∀ last ∈ o.trials.getLast?, last.iteration = iteration ∨
      vecnEq last.vector w (lit (1 / 1000000)) → last.vector = w) :
    IsBest (o.observeTrial iteration v reward startMs now).trials w := by
  have hpush : ∀ t : TpeTrial F, t.reward = reward → t.vector = w →
      IsBest ((o.trials ++ [t]).drop ((o.trials ++ [t]).length - maxTrials)) w := by
    rintro t rfl rfl
    have hkeep : (o.trials ++ [t]).length - maxTrials ≤ o.trials.length := by
      have hpos : 0 < maxTrials := by decide
      rw [length_append, length_singleton]
      omega
    rw [drop_append_of_le_length hkeep]
    exact IsBest.of_last hnum fun u hu => hmax u (mem_of_mem_drop hu)
  simp only [TpeState.observeTrial, hw]
  split
  · dsimp only
    exact hpush ⟨iteration, w, reward, startMs, now⟩ rfl rfl
  · next last hlast =>
    obtain ⟨ts, hts⟩ := getLast?_eq_some_iff.mp hlast
    split_ifs with hsame hgreater
    · -- merged, and better than the trial it is merged into
      rw [hts, dropLast_concat, ← hmerge last hlast hsame]
      exact IsBest.of_last (t := { last with reward, activeEndMs := now }) hnum
        fun u hu => hmax u (hts ▸ mem_append_left _ hu)
    · -- merged into a trial that is as good, hence as good as all of them
      have hlastMax := hmax last (hts ▸ mem_append_right _ mem_cons_self)
      have hlastNum := (isNum_of_le _ _ hlastMax).1
      have hge : le reward last.reward := by
        by_contra hnot
        exact hgreater ((lt_iff _ _).mpr ⟨hlastNum, hnum, hnot⟩)
      rw [hts, ← hmerge last hlast hsame]
      exact IsBest.of_last hlastNum
        fun u hu => le_trans _ _ _ (hmax u (hts ▸ mem_append_left _ hu)) hge
    · dsimp only
      exact hpush ⟨iteration, w, reward, startMs, now⟩ rfl rfl

/-! ### The lock -/

/-- The vector in force is that of the best trial, and the optimizer has fixed it. -/
def BestInForce (c : Control F) : Prop :=
  IsBest c.opt.trials c.currentV ∧ c.opt.bestFixed = c.currentV

structure LockedOnBest (c : Control F) : Prop extends Linked c where
  locked : c.phase = .lockedBest → c.opt.restoredOnce ∧ BestInForce c

theorem BestInForce.lock {c : Control F} (h : IsBest c.opt.trials c.currentV) :
    BestInForce { c with opt := c.opt.lock } := by
  refine ⟨h, ?_⟩
  simp [TpeState.lock, h.bestByReward]

theorem LockedOnBest.step {R : Control F → Prop} {c d : Control F}
    (h : Control.Step R IsBest c d) (hI : LockedOnBest c) : LockedOnBest d := by
  refine ⟨hI.toLinked.step h, fun hd => ?_⟩
  cases h with
  | restore =>
    obtain ⟨honce, hbest⟩ := hI.locked hd
    have hkeep : c.opt.restoreOnce c.history = c.opt := by
      unfold TpeState.restoreOnce
      rw [if_pos honce]
    rw [hkeep]
    exact ⟨honce, hbest⟩
  | repairExplore | repairActive => cases hd
  | commit names dim matrix hphase =>
    rw [show c.phase = .lockedBest from hd] at hphase
    cases hphase
  | start | publish => cases hd
  | missing => cases hd
  | observe startMs now edges hphase =>
    rw [show c.phase = .lockedBest from hd] at hphase
    cases hphase
  | lockOptimizer =>
    obtain ⟨honce, hbest, _⟩ := hI.locked hd
    exact ⟨honce, .lock hbest⟩
  | lock hphase hrestored hL => exact ⟨hrestored, .lock hL⟩
  | _ => exact hI.locked hd

/-- The reward of the window that a call in `p` would close. -/
def windowReward (p : Proc F G) : F :=
  F64.ofNat (currentEdges p.state - p.state.iter.activeStartEdges.getD (currentEdges p.state))

/-- The window that a call in `p` would close is the best on record, and its trial records the
    vector in force, also where it is merged into the last one. -/
structure ClosesBest (p : Proc F G) : Prop where
  smooth : (normalizeSimplexEps p.state.globals.currentV).toOption = some p.state.globals.currentV
  best : ∀ t ∈ p.stage.opt.state.trials, F64.le t.reward (windowReward p)
  merged : ∀ last ∈ p.stage.opt.state.trials.getLast?,
    last.iteration = p.state.iter.activeIteration.getD p.state.iter.currentIteration ∨
      vecnEq last.vector p.state.globals.currentV (F64.lit (1 / 1000000)) →
    last.vector = p.state.globals.currentV

theorem closeWindow_isBest [LawfulF64 F] {p : Proc F G} (startMs now : ℕ)
    (hv : p.state.globals.currentV ≠ []) (h : ClosesBest p) :
    IsBest (closeWindow p startMs now).stage.opt.state.trials p.state.globals.currentV := by
  have hbest := observeTrial_isBest startMs now (toOption_eq_some.mp h.smooth) (isNum_lit _) h.best
    h.merged
  unfold closeWindow
  dsimp only
  rw [if_neg hv]
  split_ifs <;> exact hbest

instance [DecidableEq F] (p : Proc F G) : Decidable (ClosesBest p) :=
  decidable_of_iff (_ ∧ _ ∧ _) ⟨fun h => ⟨h.1, h.2.1, h.2.2⟩, fun h => ⟨h.smooth, h.best, h.merged⟩⟩

section
variable [Draw F G]

/-- A call locks only at the end of the best window on record, and the process is not restarted
    while the optimizer is locked. -/
def LocksBest (w : World F G) : Act F G → Prop
  | .perform env => ∀ startMs ∈ w.proc.restore.repair.state.iter.activeStartMs,
      Locks w.proc env startMs → ClosesBest w.proc.restore.repair
  | .restart _ _ => w.proc.state.phase ≠ .lockedBest
  | _ => True

instance [DecidableEq F] (w : World F G) : (a : Act F G) → Decidable (LocksBest w a)
  | .perform _ => inferInstanceAs (Decidable (∀ startMs ∈ _, _ ∧ _ ∧ _ ∧ _ ∧ _ → _))
  | .append _ => .isTrue trivial
  | .outside _ => .isTrue trivial
  | .restart _ _ => inferInstanceAs (Decidable (¬ _))

/-- In every state of a campaign that meets the condition, if the phase is LockedBest then the
    vector in force is that of a recorded trial with maximal reward, which is the vector the
    optimizer has fixed. -/
theorem locked_best_in_force [LawfulF64 F] {setup : Setup F} {now : ℕ} {s : State F}
    (hs : startup setup now none = .ok s) (rng : G) (acts : List (Act F G))
    (hacts : Run.Along (World.step (keepMetadata setup.tpeParams)) LocksBest
      (World.start setup rng s) acts) (p : Proc F G)
    (hp : p = (Run.run (World.step (keepMetadata setup.tpeParams)) (World.start setup rng s) acts).proc)
    (hphase : p.state.phase = .lockedBest) :
    ∃ t ∈ p.stage.opt.state.trials, (∀ u ∈ p.stage.opt.state.trials, le u.reward t.reward) ∧
      p.stage.opt.state.bestFixed = t.vector ∧ p.state.globals.currentV = t.vector := by
  have hinv := (World.run_inv (keepMetadata setup.tpeParams) (C := LocksBest) (R := fun _ => True)
    (L := IsBest) (I := LockedOnBest) (J := LockedOnBest) (fun _ h => h)
    (fun _ h => ⟨h.toLinked.join, h.locked⟩) (fun _ _ => LockedOnBest.step)
    (fun _ _ _ _ _ => trivial) ?_ ?_ (World.start setup rng s) ?_ acts hacts).2
  · rw [← hp] at hinv
    obtain ⟨_, ⟨t, ht, _, hvector, hmax⟩, hfixed⟩ := hinv.locked hphase
    exact ⟨t, ht, hmax, hfixed.trans hvector.symm, hvector.symm⟩
  · intro p env hI hc startMs hlocks
    have ⟨hgate, hwindow, hstart, _⟩ := hlocks
    obtain ⟨_, _, hglob, _⟩ := repair_frame p
    rw [← hglob]
    refine closeWindow_isBest startMs env.now ?_ (hc startMs hstart hlocks)
    refine (hI.toLinked.repair hgate).inForce ?_
    rw [show p.restore.repair.control.phase = .activeWindow from hwindow]
    exact TpePhase.noConfusion
  · rintro p rng _ _ _ hI hc ⟨⟩
    exact ⟨hI.toLinked.restart _ rng, fun h => absurd h hc⟩
  · refine ⟨.start hs rng, fun h => ?_⟩
    have h : s.iter.phase = .lockedBest := h
    rw [(startup_fresh hs).iter] at h
    cases h

end

namespace Demo

variable (v w : List Exact)

/-- Two candidates, and density estimates from the second trial on. -/
def pair : Setup Exact :=
  { setup with candidateFile := .parsed [v, w], trialsThreshold := 2 }

def pairState : State Exact := (startup (pair v w) 1000 none).toOption.getD {}

/-- Both windows are run to their ends, with these edge counts. -/
def bothWindows (first second : ℕ) : List (Act Exact (List ℚ)) :=
  [progress 3, call 12000 .empty, call 12500 .ready, progress first, call 18000 .empty,
    call 18500 .ready, progress second, call 24000 .empty]

def afterPair (first second : ℕ) : Proc Exact (List ℚ) :=
  (Run.run (World.step (keepMetadata (pair v w).tpeParams)) (.start (pair v w) [] (pairState v w))
    (bothWindows first second)).proc

end Demo

/-- The second window is the better one and the optimizer is locked at its end. -/
theorem locked_best_demo :
    let p := Demo.afterPair [.fin (2 / 5), .fin (3 / 5)] [.fin (1 / 2), .fin (1 / 2)] 4 9
    p.state.phase = .lockedBest ∧ ∃ t ∈ p.stage.opt.state.trials,
      (∀ u ∈ p.stage.opt.state.trials, le u.reward t.reward) ∧
      p.stage.opt.state.bestFixed = t.vector ∧ p.state.globals.currentV = t.vector := by
  intro p
  have hphase : p.state.phase = .lockedBest := by decide +kernel
  exact ⟨hphase, locked_best_in_force
    (eq_ok_of_isSome (startup (Demo.pair [.fin (2 / 5), .fin (3 / 5)] [.fin (1 / 2), .fin (1 / 2)])
      1000 none) {} (by decide +kernel)) [] (Demo.bothWindows 4 9) (by decide +kernel) p rfl hphase⟩

/-- The first window is the better one; the optimizer fixes its vector when it is locked, but the
    second one stays in force. -/
theorem locked_on_worse_vector :
    let p := Demo.afterPair [.fin (3 / 5), .fin (2 / 5)] [.fin (2 / 5), .fin (3 / 5)] 8 9
    p.state.phase = .lockedBest ∧ p.stage.opt.state.bestFixed ≠ p.state.globals.currentV ∧
      ∀ t ∈ p.stage.opt.state.trials, t.vector = p.state.globals.currentV ∨
        (normalizeSimplexEps p.state.globals.currentV).toOption = some t.vector →
        ∃ u ∈ p.stage.opt.state.trials, lt t.reward u.reward := by
  decide +kernel

end Bofuzz
