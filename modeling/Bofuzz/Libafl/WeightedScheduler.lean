import Bofuzz.Libafl.AliasTable
import Bofuzz.Libafl.Corpus
import Bofuzz.Control
import Mathlib.Data.List.GetD

/-! The weighted scheduler at work (`libafl/src/schedulers/weighted.rs`, `schedulers/mod.rs`).

    The alias table is rebuilt lazily: a change of the corpus sets a flag of the scheduler, a
    publication of weights sets a flag in the metadata, and `next` looks at both. The events of a
    fuzzer (`Event`) may come in any order; the history variable `log` notes what makes a table
    outdated and when a table is built. -/

namespace Bofuzz.Weighted
open F64 Effect Run

variable {F : Type}

/-- The metadata of an entry, as far as the scheduler reads it. -/
structure SchedulerTestcaseMetadata where
  handicap : ℕ := 0
  depth : ℕ
  nFuzzEntry : ℕ

structure Entry where
  schedulerMeta : Option SchedulerTestcaseMetadata := none
  parentId : Option CorpusId := none

inductive BaseSchedule where | explore | exploit | fast | coe | lin | quad

structure PowerSchedule where
  base : BaseSchedule
  avoidCrash : Bool := false

inductive Mark where | changed | built
  deriving DecidableEq

/-- The scheduler and the parts of the state that it reads and writes. -/
structure World (F : Type) where
  tableInvalidated : Bool := true
  lastHash : ℕ := 0
  queueCycles : ℕ := 0
  cycleSchedules : Bool := false
  corpus : InMemoryCorpus Entry := {}
  aliasDirty : Option WeightedAliasTableDirtyMeta := none
  runsInCurrentCycle : ℕ := 0
  tables : Tables F := {}
  strat : Option PowerSchedule := none
  metaQueueCycles : ℕ := 0
  log : List Mark := []

variable (w : World F)

/-- A change after which a table is outdated. -/
def World.change : World F := { w with log := .changed :: w.log }

/-! ### The callbacks -/

variable (id : CorpusId)

/-- `state.testcase(id)?.metadata::<SchedulerTestcaseMetadata>()?`. -/
def schedulerMeta : EStateM Error (World F) SchedulerTestcaseMetadata := do
  let w ← get
  let entry ← ofResult (w.corpus.get id)
  match entry.schedulerMeta with
  | some m => pure m
  | none => throw (.keyNotFound (.typeNotFound "libafl::corpus::testcase::SchedulerTestcaseMetadata"))

/-- The depth of the entry being fuzzed. -/
def parentDepth : EStateM Error (World F) ℕ := do
  match (← get).corpus.current with
  | some parent => do
    let m ← schedulerMeta parent
    pure m.depth
  | none => pure 0

def onAddMetadataDefault : EStateM Error (World F) Unit := do
  let w ← get
  let depth ← parentDepth
  let _ ← ofResult (w.corpus.get id)
  set { w with corpus := w.corpus.modify id fun entry => { entry with
    schedulerMeta := some { depth := depth + 1, nFuzzEntry := w.lastHash }
    parentId := w.corpus.current } }

def onAdd : EStateM Error (World F) Unit := do
  onAddMetadataDefault id
  modify fun w => { w with tableInvalidated := true }

/-- `on_remove` and `on_replace`. -/
def invalidate : World F := { w with tableInvalidated := true }

def SchedulerTestcaseMetadata.ease (m : SchedulerTestcaseMetadata) : SchedulerTestcaseMetadata :=
  if 4 ≤ m.handicap then { m with handicap := m.handicap - 4 }
  else if 0 < m.handicap then { m with handicap := m.handicap - 1 }
  else m

def onNextMetadataDefault : EStateM Error (World F) Unit := do
  let w ← get
  match w.corpus.current with
  | none => pure ()
  | some id =>
    let m ← schedulerMeta id
    set { w with corpus := w.corpus.modify id fun entry =>
      { entry with schedulerMeta := some m.ease } }

def setCurrentScheduled (nextId : Option CorpusId) : EStateM Error (World F) Unit := do
  onNextMetadataDefault
  modify fun w => { w with corpus := { w.corpus with current := nextId } }

def BaseSchedule.cycled : BaseSchedule → BaseSchedule
  | .explore => .exploit
  | .coe => .lin
  | .lin => .quad
  | .fast => .coe
  | .quad => .fast
  | .exploit => .explore

def cycleSchedule : EStateM Error (World F) Unit := do
  let w ← get
  match w.strat with
  | none => throw (.illegalArgument .noStrategy)
  | some ps =>
    set { w with strat := some { ps with base := ps.base.cycled }, tableInvalidated := true }.change

/-- The flag of the metadata is taken over by the scheduler. -/
def World.noteDirty : World F :=
  match w.aliasDirty with
  | some m => if m.dirty then
      { w with tableInvalidated := true, aliasDirty := some { m with dirty := false } } else w
  | none => w

/-! ### What the callbacks do -/

/-- The scheduler metadata of an entry. -/
def World.metaAt : Option SchedulerTestcaseMetadata :=
  (w.corpus.enabled.get id).bind (·.schedulerMeta)

/-- A rebuild is due. -/
def Pending : Prop :=
  w.tableInvalidated = true ∨ ∃ d, w.aliasDirty = some d ∧ d.dirty = true

/-- The table is one of the present entries, and nothing has changed since it was built. -/
structure Fresh : Prop where
  keys : ∀ i, (w.tables.aliasProbability i).isSome ↔ i ∈ w.corpus.ids
  partner : ∀ i j, w.tables.aliasTable i = some j → j ∈ w.corpus.ids
  built : w.log.head? = some .built

/-- The entry being fuzzed has gone or has lost its metadata: `on_add` fails before it sets the
    flag, and so does every call of `next`. -/
def Stuck : Prop := ∃ id, w.corpus.current = some id ∧ w.metaAt id = none

variable (w : World F)

theorem noteDirty_corpus : w.noteDirty.corpus = w.corpus := by
  unfold World.noteDirty
  split
  · split_ifs <;> rfl
  · rfl

theorem noteDirty_cases :
    Pending w ∧ w.noteDirty.tableInvalidated = true ∨ ¬Pending w ∧ w.noteDirty = w := by
  unfold World.noteDirty Pending
  rcases w.aliasDirty with _ | ⟨iteration, _ | _⟩ <;> cases h : w.tableInvalidated <;> simp [h]

/-- Nothing but the cycle counters, the schedule and the flag may differ; with another history a
    rebuild is due. -/
structure Frame (w v : World F) : Prop where
  corpus : v.corpus = w.corpus
  tables : v.tables = w.tables
  aliasDirty : v.aliasDirty = w.aliasDirty
  log : v.tableInvalidated = true ∨ v.tableInvalidated = w.tableInvalidated ∧ v.log = w.log

theorem cycleSchedule_frame {w v : World F} (h : Frame w v) :
    Spec cycleSchedule v (fun _ u => Frame w u) (fun _ u => Frame w u) := by
  simp only [cycleSchedule, spec_bind, spec_get]
  cases v.strat with
  | none => exact h
  | some ps => exact ⟨h.corpus, h.tables, h.aliasDirty, .inl rfl⟩

theorem schedulerMeta_spec (id : CorpusId) : Spec (schedulerMeta id) w
    (fun m v => v = w ∧ w.metaAt id = some m) (fun _ v => v = w ∧ w.metaAt id = none) := by
  simp only [schedulerMeta, spec_bind, spec_get, spec_ofResult, World.metaAt, InMemoryCorpus.get]
  cases hget : w.corpus.enabled.get id with
  | none => simp
  | some entry =>
    simp only [Except.ok.injEq, forall_eq', reduceCtorEq, false_implies, implies_true, and_true,
      Option.bind_some]
    cases hmeta : entry.schedulerMeta <;> simp

/-- The entry being fuzzed must still be there for another one to take its place. -/
theorem setCurrentScheduled_spec (idx : CorpusId) :
    Spec (setCurrentScheduled (some idx)) w
      (fun _ v => ¬Stuck w ∧ ∃ c : InMemoryCorpus Entry, v = { w with corpus := c } ∧ c.ids = w.corpus.ids)
      (fun _ v => v = w) := by
  simp only [setCurrentScheduled, onNextMetadataDefault, spec_bind, spec_get, spec_modify]
  cases hcur : w.corpus.current with
  | none =>
    refine ⟨?_, _, rfl, rfl⟩
    rintro ⟨id, hid, _⟩
    rw [hcur] at hid
    cases hid
  | some id =>
    simp only [spec_bind, spec_set]
    refine (schedulerMeta_spec w id).mono (fun m v hm => ⟨?_, _, rfl, ?_⟩) (fun _ v h => h.1)
    · rintro ⟨id', hid', hnone⟩
      rw [hcur] at hid'
      cases hid'
      rw [hm.2] at hnone
      cases hnone
    · exact w.corpus.ids_modify _

theorem parentDepth_spec : Spec parentDepth w (fun _ v => v = w) (fun _ v => v = w ∧ Stuck w) := by
  simp only [parentDepth, spec_bind, spec_get]
  cases hcur : w.corpus.current with
  | none => rfl
  | some parent =>
    rw [spec_bind]
    exact (schedulerMeta_spec w parent).mono (fun _ v h => h.1) (fun _ v h => ⟨h.1, parent, hcur, h.2⟩)

theorem onAdd_spec : Spec (onAdd id) w (fun _ v => v.tableInvalidated = true)
    (fun e v => v = w ∧ (Stuck w ∨ w.corpus.get id = .error e)) := by
  simp only [onAdd, onAddMetadataDefault, spec_bind, spec_get, spec_modify, spec_ofResult, spec_set]
  refine (parentDepth_spec w).mono (fun depth v hv => ?_) (fun _ v hv => ⟨hv.1, .inl hv.2⟩)
  exact ⟨fun _ _ => trivial, fun e he => ⟨hv, .inr he⟩⟩

/-! ### Between the calls -/

/-- What holds between two calls: a table that is out of date will be rebuilt, or the next call
    fails before it returns an entry. -/
def Inv (w : World F) : Prop := Pending w ∨ Fresh w ∨ Stuck w

theorem Fresh.of_eq {w v : World F} (h : Fresh w) (hids : v.corpus.ids = w.corpus.ids)
    (htables : v.tables = w.tables) (hlog : v.log = w.log) : Fresh v := by
  refine ⟨fun i => ?_, fun i j => ?_, ?_⟩
  · rw [htables, hids]
    exact h.keys i
  · rw [htables, hids]
    exact h.partner i j
  · rw [hlog]
    exact h.built

theorem Stuck.of_eq {w v : World F} (h : Stuck w) (hcorpus : v.corpus = w.corpus) : Stuck v := by
  obtain ⟨id, hid, hmeta⟩ := h
  unfold Stuck World.metaAt
  rw [hcorpus]
  exact ⟨id, hid, hmeta⟩

theorem Inv.frame {w v : World F} (h : Inv w) (hf : Frame w v) : Inv v := by
  rcases hf.log with hinv | ⟨hinv, hlog⟩
  · exact .inl (.inl hinv)
  rcases h with hpending | hfresh | hstuck
  · left
    unfold Pending
    rw [hinv, hf.aliasDirty]
    exact hpending
  · exact .inr (.inl (hfresh.of_eq (congrArg _ hf.corpus) hf.tables hlog))
  · exact .inr (.inr (hstuck.of_eq hf.corpus))

theorem pick_mem {w : World F} (h : Fresh w) {s idx : CorpusId} {below : F → Bool}
    (hs : s ∈ w.corpus.ids) (hpick : pick w.tables s below = .ok idx) : idx ∈ w.corpus.ids := by
  unfold pick at hpick
  cases hprob : w.tables.aliasProbability s with
  | none => rw [hprob] at hpick; cases hpick
  | some p =>
    simp only [hprob, unwrap, bind, Except.bind] at hpick
    split_ifs at hpick
    · cases hpick
      exact hs
    cases htable : w.tables.aliasTable s with
    | none => rw [htable] at hpick; cases hpick
    | some j =>
      rw [htable] at hpick
      exact Except.ok.inj hpick ▸ h.partner s j htable

variable [F64 F]

/-! ### The next entry -/

variable (compute : CorpusId → Except Error F)

/-- The beginning of `next`: the flags are read and the table is rebuilt if one is set. -/
def refresh : EStateM Error (World F) Unit := do
  modify World.noteDirty
  let w ← get
  if w.tableInvalidated then
    let tables ← ofResult (createAliasTable w.corpus.ids compute)
    set { w with tables, tableInvalidated := false, log := .built :: w.log }
  else pure ()

variable (draw : ℕ) (probability : F)

/-- The middle of `next`: draw an entry and count the cycle. -/
def choose : EStateM Error (World F) CorpusId := do
  let w ← get
  let corpusCounts := w.corpus.count
  if corpusCounts = 0 then throw (.empty .noEntries)
  else
    let s := w.corpus.ids.getD (draw % corpusCounts) 0
    let runs := w.runsInCurrentCycle
    set { w with runsInCurrentCycle := if corpusCounts ≤ runs then 0 else runs + 1 }
    let idx ← ofResult (pick w.tables s (F64.lt probability))
    if corpusCounts ≤ runs then
      modify fun w => { w with queueCycles := w.queueCycles + 1, metaQueueCycles := w.queueCycles + 1 }
      if w.cycleSchedules then cycleSchedule
    pure idx

/-- `WeightedScheduler::next`, with the scores of the entries and the two numbers drawn. -/
def next : EStateM Error (World F) CorpusId := do
  refresh compute
  let idx ← choose draw probability
  setCurrentScheduled (some idx)
  pure idx

theorem refresh_spec (w : World F) : Spec (refresh compute) w
    (fun _ v => v.corpus = w.corpus ∧ (Fresh v ∨ ¬Pending w ∧ v = w))
    (fun _ v => v.corpus = w.corpus ∧ v.tableInvalidated = true) := by
  simp only [refresh, spec_bind, spec_modify, spec_get]
  split_ifs with hinv
  · simp only [spec_bind, spec_ofResult, spec_set]
    refine ⟨fun tables htables => ⟨noteDirty_corpus w, .inl ?_⟩, fun _ _ => ⟨noteDirty_corpus w, hinv⟩⟩
    obtain ⟨hkeys, hpartner⟩ := createAliasTable_keys (w.noteDirty.corpus.ids_nodup) htables
    exact ⟨hkeys, hpartner, rfl⟩
  · rcases noteDirty_cases w with ⟨_, h⟩ | ⟨hpending, h⟩
    · exact absurd h hinv
    · exact ⟨noteDirty_corpus w, .inr ⟨hpending, h⟩⟩

theorem choose_spec : Spec (choose draw probability) w
      (fun idx v => Frame w v ∧ ∃ s ∈ w.corpus.ids, pick w.tables s (F64.lt probability) = .ok idx)
      (fun _ v => Frame w v) := by
  simp only [choose, spec_bind, spec_get]
  by_cases hcount : w.corpus.count = 0
  · rw [if_pos hcount]
    exact ⟨rfl, rfl, rfl, .inr ⟨rfl, rfl⟩⟩
  rw [if_neg hcount]
  have hlt : draw % w.corpus.count < w.corpus.ids.length :=
    Nat.mod_lt _ (Nat.pos_of_ne_zero hcount)
  have hs : w.corpus.ids.getD (draw % w.corpus.count) 0 ∈ w.corpus.ids := by
    rw [List.getD_eq_getElem _ _ hlt]
    exact List.getElem_mem hlt
  simp only [spec_bind, spec_set, spec_ofResult]
  refine ⟨fun idx hidx => ?_, fun e _ => ⟨rfl, rfl, rfl, .inr ⟨rfl, rfl⟩⟩⟩
  by_cases hcycle : w.corpus.count ≤ w.runsInCurrentCycle
  · simp only [if_pos hcycle, spec_bind, spec_modify]
    split_ifs with hschedules
    · rw [spec_bind]
      refine (cycleSchedule_frame (w := w) ?_).mono (fun _ v hv => ?_) (fun _ v hv => hv)
      · exact ⟨rfl, rfl, rfl, .inr ⟨rfl, rfl⟩⟩
      · exact ⟨hv, _, hs, hidx⟩
    · exact ⟨⟨rfl, rfl, rfl, .inr ⟨rfl, rfl⟩⟩, _, hs, hidx⟩
  · rw [if_neg hcycle]
    exact ⟨⟨rfl, rfl, rfl, .inr ⟨rfl, rfl⟩⟩, _, hs, hidx⟩

theorem next_spec {w : World F} (h : Inv w) : Spec (next compute draw probability) w
      (fun idx u => Inv u ∧ ∃ v, refresh compute w = .ok () v ∧ v.corpus = w.corpus ∧ Fresh v ∧
        ∃ s ∈ v.corpus.ids, pick v.tables s (F64.lt probability) = .ok idx)
      (fun _ u => Inv u) := by
  simp only [next, spec_bind]
  refine (refresh_spec compute w).returned.mono (fun _ v hv => ?_) (fun _ v hv => .inl (.inl hv.2.2))
  obtain ⟨hrefresh, hcorpus, htable⟩ := hv
  have htable : Fresh v ∨ Stuck v := by
    rcases htable with hfresh | ⟨hnot, rfl⟩
    · exact .inl hfresh
    · exact h.resolve_left hnot
  have hinv : Inv v := .inr htable
  refine (choose_spec v draw probability).mono (fun idx u hu => ?_) (fun _ u hu => hinv.frame hu)
  obtain ⟨hframe, s, hs, hpick⟩ := hu
  refine (setCurrentScheduled_spec u idx).mono (fun _ t ht => ?_) (fun _ t ht => ht ▸ hinv.frame hframe)
  obtain ⟨hnot, c, rfl, hids⟩ := ht
  -- the entry that was being fuzzed is still there, so the table is not behind the corpus
  have hfresh : Fresh v := htable.resolve_right fun hstuck => hnot (hstuck.of_eq hframe.corpus)
  refine ⟨?_, v, hrefresh, hcorpus, hfresh, s, hs, hpick⟩
  rcases hframe.log with hinv | ⟨_, hlog⟩
  · exact .inl (.inl hinv)
  · exact .inr (.inl (hfresh.of_eq (hids.trans (congrArg _ hframe.corpus)) hframe.tables hlog))

/-! ### Events -/

/-- What happens to the scheduler, in any order. A poll of the TPE stage meets the flag of the
    metadata and any other state of its process. -/
inductive Event (F G : Type) [F64 F] where
  | add (testcase : Entry)
  | remove (id : CorpusId)
  | replace (id : CorpusId) (testcase : Entry)
  | evaluation (hash : ℕ)
  | poll (env : Env) (p : Proc F G)
  | next (compute : CorpusId → Except Error F) (draw : ℕ) (probability : F)

variable {G : Type} (env : Env) (p : Proc F G)

/-- `poll_pending` in the process that holds the scheduler, and whether weights were published. -/
def poll (w : World F) : World F :=
  match TpeStage.pollPending env { p with state := { p.state with aliasDirty := w.aliasDirty } } with
  | .ok published q =>
    let w := { w with aliasDirty := q.state.aliasDirty }
    if published then w.change else w
  | .error _ q => { w with aliasDirty := q.state.aliasDirty }

def step (w : World F) : Event F G → World F
  | .add testcase =>
    let (id, corpus) := w.corpus.add testcase
    finalState (onAdd id) { w with corpus }.change
  | .remove id =>
    match w.corpus.remove id with
    | .ok (_, corpus) => invalidate { w with corpus }.change
    | .error _ => w
  | .replace id testcase =>
    match w.corpus.replace id testcase with
    | .ok (_, corpus) => invalidate { w with corpus }.change
    | .error _ => w
  | .evaluation hash => { w with lastHash := hash }
  | .poll env p => poll env p w
  | .next compute draw probability => finalState (next compute draw probability) w

/-! ### Every interleaving -/

/-- A publication sets the flag of the metadata, and nothing else in a poll touches it. -/
theorem pollPending_aliasDirty :
    Spec (TpeStage.pollPending env) p (fun published q => match published with
      | true => ∃ d, q.state.aliasDirty = some d ∧ d.dirty = true
      | false => q.state.aliasDirty = p.state.aliasDirty)
    (fun _ q => q.state.aliasDirty = p.state.aliasDirty) := by
  simp only [TpeStage.pollPending, spec_bind, spec_get]
  cases p.stage.resultRx with
  | none => rfl
  | some snapshot =>
    cases env.recv with
    | empty | disconnected => rfl
    | ready =>
      simp only [spec_bind, spec_set]
      split_ifs
      · rfl
      simp only [spec_bind, spec_onState, spec_modify, spec_pure]
      refine (publish_corpusOnly p.state _).mono (fun _ t _ => ⟨_, rfl, rfl⟩) (fun _ t ht => ?_)
      obtain ⟨⟨_, _, rfl⟩, _⟩ := ht
      rfl

theorem poll_inv {w : World F} (h : Inv w) : Inv (poll env p w) := by
  have hpoll := pollPending_aliasDirty env { p with state := { p.state with aliasDirty := w.aliasDirty } }
  unfold poll
  split
  · next published q hq =>
    have hq := hpoll.ok hq
    cases published with
    | true => exact .inl (.inr hq)
    | false => exact h.frame ⟨rfl, rfl, hq, .inr ⟨rfl, rfl⟩⟩
  · next e q hq => exact h.frame ⟨rfl, rfl, hpoll.error hq, .inr ⟨rfl, rfl⟩⟩

theorem step_inv (e : Event F G) (h : Inv w) : Inv (step w e) := by
  cases e with
  | add testcase =>
    refine finalState_of_spec ((onAdd_spec _ _).mono (fun _ v hv => .inl (.inl hv)) fun e v hv => ?_)
    obtain ⟨rfl, hstuck | herr⟩ := hv
    · exact .inr (.inr hstuck)
    · cases herr.symm.trans (w.corpus.get_new testcase)
  | remove | replace =>
    simp only [step]
    split
    · exact .inl (.inl rfl)
    · exact h
  | evaluation hash => exact h.frame ⟨rfl, rfl, rfl, .inr ⟨rfl, rfl⟩⟩
  | poll env p => exact poll_inv env p h
  | next compute draw probability =>
    exact finalState_of_spec ((next_spec compute draw probability h).imp fun _ _ hu => hu.1)

/-- Whatever happened to a scheduler since it was created, the table that a call of `next` draws its
    entry from has exactly the entries of the corpus and is newer than the last change; a rebuild
    that fails is still due. -/
theorem no_stale_alias_table (w₀ : World F) (hnew : w₀.tableInvalidated = true)
    (events : List (Event F G)) (compute : CorpusId → Except Error F) (draw : ℕ) (probability : F) :
    (∀ idx u, next compute draw probability (run step w₀ events) = .ok idx u →
      ∃ v, refresh compute (run step w₀ events) = .ok () v ∧ v.corpus = (run step w₀ events).corpus ∧
        (∀ i, (v.tables.aliasProbability i).isSome ↔ i ∈ v.corpus.ids) ∧
        v.log.head? = some .built ∧
        (∃ s ∈ v.corpus.ids, pick v.tables s (F64.lt probability) = .ok idx) ∧
        idx ∈ v.corpus.ids) ∧
    ∀ e u, refresh compute (run step w₀ events) = .error e u →
      next compute draw probability (run step w₀ events) = .error e u ∧ u.tableInvalidated = true := by
  have hinv : Inv (run step w₀ events) :=
    along_induct (C := fun _ _ => True) (fun w e h _ => step_inv w e h) events w₀ (.inl (.inl hnew))
      (along_of_forall fun _ _ _ => trivial)
  refine ⟨fun idx u hnext => ?_, fun e u hrefresh => ⟨?_, ?_⟩⟩
  · obtain ⟨_, v, hrefresh, hcorpus, hfresh, s, hs, hpick⟩ :=
      (next_spec compute draw probability hinv).ok hnext
    exact ⟨v, hrefresh, hcorpus, hfresh.keys, hfresh.built, ⟨s, hs, hpick⟩, pick_mem hfresh hs hpick⟩
  · simp only [next, bind, EStateM.bind, hrefresh]
  · exact ((refresh_spec compute _).error hrefresh).2

/-- Two entries are added and one of them is fuzzed, then the other one is removed. -/
def demoEvents : List (Event Exact Unit) :=
  [.add {}, .add {}, .next (fun _ => .ok (.fin 1)) 0 (.fin 0), .remove 1]

/-- The table is rebuilt for the entry that is left. -/
theorem no_stale_alias_table_demo :
    ∃ idx u v, next (fun _ => .ok (.fin 1)) 0 (.fin 0) (run step {} demoEvents) = .ok idx u ∧
      refresh (fun _ => .ok (.fin 1)) (run step {} demoEvents) = .ok () v ∧
      v.corpus.ids = [0] ∧ (∀ i, (v.tables.aliasProbability i).isSome ↔ i ∈ v.corpus.ids) ∧
      v.log.head? = some .built := by
  have hok : (match next (fun _ => .ok (.fin 1)) 0 (.fin 0) (run step {} demoEvents) with
      | .ok _ _ => true
      | .error _ _ => false) = true := by decide +kernel
  have hids : (run step {} demoEvents).corpus.ids = [0] := by decide +kernel
  cases hnext : next (fun _ => .ok (.fin 1)) 0 (.fin 0) (run step {} demoEvents) with
  | error e u => rw [hnext] at hok; cases hok
  | ok idx u =>
    obtain ⟨v, hrefresh, hcorpus, hkeys, hbuilt, _⟩ :=
      (no_stale_alias_table {} rfl demoEvents (fun _ => .ok (.fin 1)) 0 (.fin 0)).1 idx u hnext
    exact ⟨idx, u, v, rfl, hrefresh, hcorpus ▸ hids, hkeys, hbuilt⟩

end Bofuzz.Weighted
