import Bofuzz.Protocol

/-! Whose reward a trial records.

    A trial pairs the vector in force with the edges found since its window was opened. It is
    attributed correctly when the weights published last were computed from that vector and the
    edges are counted from that publication. The history decides: `lastPublished` is the last
    publication, `lastStarted` the worker started last before it. -/

namespace Bofuzz
open F64 Effect TpeStage Relation

/-- The worker started last: the vector put in force, the matrix and names it was weighed with,
    and the snapshot. -/
def lastStarted {F : Type} : List (Event F) →
    Option (List F × Option (FeaturesMatrixMeta F) × List String × CorpusWeightSnapshot F)
  | [] => none
  | .started v m names snapshot :: _ => some (v, m, names, snapshot)
  | _ :: before => lastStarted before

/-- The last publication, with the edge count recorded and what happened before it. -/
def lastPublished {F : Type} :
    List (Event F) → Option (WeightRecomputeResult F × ℕ × List (Event F))
  | [] => none
  | .published result edges :: before => some (result, edges, before)
  | _ :: before => lastPublished before

variable {F G : Type} [F64 F] {L : List (TpeTrial F) → List F → Prop}

/-- The weights in force are those of `v`, published when the edge count was `start`. -/
def InForce (v : List F) (start : ℕ) (before : List (Event F)) : Prop :=
  ∃ earlier m names snapshot,
    lastPublished before = some (computeWeights snapshot, start, earlier) ∧
    lastStarted earlier = some (v, some m, names, snapshot) ∧
    snapshot.featureWeightsBySancov = scalarWeights m v names

/-- The reward is what `v` earned: its weights are in force and the edges are counted from their
    publication. -/
def Attributed (v : List F) (reward : F) (edges : ℕ) (before : List (Event F)) : Prop :=
  ∃ start, InForce v start before ∧ reward = F64.ofNat (edges - start)

/-- Every trial of the history is attributed by what happened before it. -/
def AllAttributed : List (Event F) → Prop
  | [] => True
  | .observed _ v reward _ _ edges :: before => Attributed v reward edges before ∧ AllAttributed before
  | _ :: before => AllAttributed before

/-- Some trial of the history has the given property. -/
def SomeTrial (P : List F → F → ℕ → List (Event F) → Prop) (trace : List (Event F)) : Prop :=
  ∃ later before iteration startMs closedMs edges, ∃ v : List F, ∃ reward : F,
    trace = later ++ .observed iteration v reward startMs closedMs edges :: before ∧
      P v reward edges before

omit [F64 F] in
theorem SomeTrial.cons {P : List F → F → ℕ → List (Event F) → Prop} {trace : List (Event F)}
    (h : SomeTrial P trace) (e : Event F) : SomeTrial P (e :: trace) := by
  obtain ⟨later, before, i, s, n, edges, v, reward, rfl, hP⟩ := h
  exact ⟨e :: later, before, i, s, n, edges, v, reward, rfl, hP⟩

def Event.isTrial : Event F → Bool
  | .observed .. => true
  | _ => false

omit [F64 F] in
theorem SomeTrial.of_any {t : List (Event F)} (h : t.any Event.isTrial) :
    SomeTrial (fun _ _ _ _ => True) t := by
  induction t with
  | nil => cases h
  | cons e before ih =>
    cases e with
    | observed i v r s n edges => exact ⟨[], before, i, s, n, edges, v, r, rfl, trivial⟩
    | _ => exact (ih h).cons _

theorem AllAttributed.of_append {iteration startMs now edges : ℕ} {v : List F} {reward : F}
    {later before : List (Event F)}
    (h : AllAttributed (later ++ .observed iteration v reward startMs now edges :: before)) :
    Attributed v reward edges before := by
  induction later with
  | nil => exact h.1
  | cons e later ih =>
    cases e with
    | observed => exact ih h.2
    | _ => exact ih h

/-- A pending worker computes the weights of the vector in force, and an open window belongs to
    the weights published last. -/
structure Tracked (c : Control F) : Prop extends Linked c where
  pending : ∀ snapshot, c.rx = some snapshot → ∃ m names,
    lastStarted c.trace = some (c.currentV, some m, names, snapshot) ∧
    snapshot.featureWeightsBySancov = scalarWeights m c.currentV names
  window : c.phase = .activeWindow → c.iter.activeStartMs ≠ none →
    ∃ start, c.iter.activeStartEdges = some start ∧ InForce c.currentV start c.trace
  trials : AllAttributed c.trace

/-- The repair that takes an interrupted recompute for published does no harm as long as no window
    was ever open. -/
theorem Tracked.step {c d : Control F}
    (h : Control.Step (fun c => c.iter.activeStartMs = none) L c d) (hI : Tracked c) :
    Tracked d := by
  have hlinked := hI.toLinked.step h
  cases h with
  | repairExplore => exact ⟨hlinked, hI.pending, (fun h => nomatch h), hI.trials⟩
  | repairActive hphase hworker hv hR =>
    exact ⟨hlinked, hI.pending, fun _ hms => absurd hR hms, hI.trials⟩
  | commit names dim matrix hphase hdim hmatrix =>
    refine ⟨hlinked, fun snapshot hrx => ?_, fun h => ?_, hI.trials⟩
    · have hbusy := hI.busy (by rw [show c.rx = some snapshot from hrx]; exact Option.some_ne_none _)
      rw [hphase] at hbusy
      cases hbusy
    · rw [show c.phase = .activeWindow from h] at hphase
      cases hphase
  | start v w snapshot hgate hphase hworker hlen hw hiter hmode hweights hnodup =>
    obtain ⟨m, hm⟩ := Option.isSome_iff_exists.mp (hI.space hgate).2
    refine ⟨hlinked, ?_, (fun h => nomatch h), hI.trials⟩
    rintro _ ⟨⟩
    refine ⟨m, c.names, by rw [← hm]; rfl, ?_⟩
    rw [hweights, Control.siteWeights, hm]
    rfl
  | publish snapshot now edges persistNow hphase hrx hiter =>
    obtain ⟨m, names, hstarted, hweights⟩ := hI.pending snapshot hrx
    exact ⟨hlinked, (fun _ h => nomatch h),
      fun _ _ => ⟨edges, rfl, c.trace, m, names, snapshot, rfl, hstarted, hweights⟩, hI.trials⟩
  | stale snapshot hphase hrx hiter =>
    refine ⟨hlinked, (fun _ h => nomatch h), fun h => ?_, hI.trials⟩
    rw [show c.phase = .activeWindow from h] at hphase
    cases hphase
  | missing hphase hworker hrx => exact absurd (hI.channel.trans hrx) hworker
  | observe startMs now edges hphase hstart hv =>
    have hms : c.iter.activeStartMs ≠ none := by rw [hstart]; exact Option.some_ne_none _
    obtain ⟨start, hedges, hforce⟩ := hI.window hphase hms
    refine ⟨hlinked, hI.pending, fun _ _ => ⟨start, hedges, hforce⟩, ⟨start, hforce, ?_⟩, hI.trials⟩
    rw [hedges]
    rfl
  | lock => exact ⟨hlinked, hI.pending, (fun h => nomatch h), hI.trials⟩
  | raise edges hphase =>
    refine ⟨hlinked, hI.pending, fun h => ?_, hI.trials⟩
    rw [show c.phase = .activeWindow from h] at hphase
    cases hphase
  | _ => exact ⟨hlinked, hI.pending, hI.window, hI.trials⟩

/-- A worker lost with its process, or at its end, takes nothing back. -/
theorem Tracked.join {c : Control F} (hI : Tracked c) : Tracked c.join :=
  ⟨hI.toLinked.join, (fun _ h => nomatch h), hI.window, hI.trials⟩

theorem Tracked.start {setup : Setup F} {now : ℕ} {s : State F}
    (hs : startup setup now none = .ok s) (rng : G) :
    Tracked (World.start setup rng s).proc.control := by
  refine ⟨.start hs rng, (fun _ h => nomatch h), fun h => ?_, trivial⟩
  have h : s.iter.phase = .activeWindow := h
  rw [(startup_fresh hs).iter] at h
  cases h

/-- No call takes an interrupted recompute for published once a window was open. -/
def RepairsEarly (w : World F G) : Act F G → Prop
  | .perform _ => Repairs w.proc → w.proc.state.iter.activeStartMs = none
  | _ => True

instance (w : World F G) : (a : Act F G) → Decidable (RepairsEarly w a)
  | .perform _ => inferInstanceAs (Decidable (_ → _))
  | .append _ => .isTrue trivial
  | .outside _ => .isTrue trivial
  | .restart _ _ => .isTrue trivial

/-- Every trial records the reward of its own vector, in every campaign whose calls never take a
    recompute that a restart interrupted for published while an earlier window is on record. -/
theorem reward_attribution [Draw F G] {setup : Setup F} {now : ℕ} {s : State F}
    (hs : startup setup now none = .ok s) (rng : G) (acts : List (Act F G))
    (hacts : Run.Along (World.step (keepMetadata setup.tpeParams)) RepairsEarly
      (World.start setup rng s) acts)
    (later before : List (Event F)) (iteration startMs closedMs edges : ℕ) (v : List F) (reward : F)
    (htrial : (Run.run (World.step (keepMetadata setup.tpeParams)) (World.start setup rng s)
      acts).proc.trace = later ++ .observed iteration v reward startMs closedMs edges :: before) :
    Attributed v reward edges before := by
  have hinv := (World.run_inv (keepMetadata setup.tpeParams) (C := RepairsEarly)
    (R := fun c => c.iter.activeStartMs = none) (L := fun _ _ => True) (I := Tracked) (J := Tracked)
    (fun _ h => h) (fun _ h => h.join) (fun _ _ => Tracked.step)
    (fun p env _ hc hr => hc hr) (fun _ _ _ _ _ _ => trivial)
    (fun p rng _ _ _ hI _ h => by
      cases h
      exact ⟨hI.toLinked.restart _ rng, (fun _ h => nomatch h), hI.window, hI.trials⟩)
    (World.start setup rng s) (.start hs rng) acts hacts).2
  have htrials : AllAttributed (Run.run (World.step (keepMetadata setup.tpeParams))
    (World.start setup rng s) acts).proc.trace := hinv.trials
  rw [htrial] at htrials
  exact htrials.of_append

/-- The first trial of a campaign that restarts inside its window. -/
theorem reward_attribution_demo :
    SomeTrial Attributed (Demo.reached (Demo.publishedThenRestarted ++
      [Demo.progress 8, Demo.call 18000 .empty])).proc.trace := by
  obtain ⟨later, before, i, s, n, edges, v, reward, htrace, _⟩ := SomeTrial.of_any
    (t := (Demo.reached (Demo.publishedThenRestarted ++
      [Demo.progress 8, Demo.call 18000 .empty])).proc.trace) (by decide +kernel)
  exact ⟨later, before, i, s, n, edges, v, reward, htrace,
    reward_attribution Demo.startup_eq [] _ (by decide +kernel) later before i s n edges v reward
      htrace⟩

/-- Some trial's vector is not the one whose weights were published last. -/
def foreignTrial [DecidableEq F] : List (Event F) → Bool
  | [] => false
  | .observed _ v _ _ _ _ :: before =>
    ((lastPublished before).bind fun p => (lastStarted p.2.2).map (·.1)) ≠ some v ||
      foreignTrial before
  | _ :: before => foreignTrial before

theorem misattributed_of_foreign [DecidableEq F] {trace : List (Event F)}
    (h : foreignTrial trace = true) :
    SomeTrial (fun v reward edges before => ¬ Attributed v reward edges before) trace := by
  induction trace with
  | nil => cases h
  | cons e before ih =>
    cases e with
    | observed i v r s n ed =>
      rcases Bool.or_eq_true_iff.mp h with hne | hrec
      · refine ⟨[], before, i, s, n, ed, v, r, rfl, ?_⟩
        rintro ⟨start, ⟨earlier, m, names, snapshot, hpub, hstarted, _⟩, _⟩
        rw [hpub, Option.bind_some, hstarted] at hne
        simp at hne
      · exact (ih hrec).cons _
    | _ => exact (ih h).cons _

/-- The second candidate is pending when the process is restarted; the repair takes it for
    published and closes the window of the first one with its reward. -/
theorem interrupted_recompute_misattributed :
    SomeTrial (fun v reward edges before => ¬ Attributed v reward edges before)
      (Demo.reached (Demo.firstWindow ++ [.restart [] 18500, Demo.progress 9,
        Demo.call 19000 .empty])).proc.trace :=
  misattributed_of_foreign (by decide +kernel)

end Bofuzz
