import Bofuzz.FeaturesMap
import Bofuzz.Lib.Baseline
import Bofuzz.Lib.Effect
import Bofuzz.Lib.Run

/-! The map feedback and its coverage counter (`libafl/src/feedbacks/map.rs`,
    `stages/calibrate.rs`).

    The history keeps one reduced value for every place of the map, and a counter of the places that
    have left the initial value. Two pieces of code write to both: `append_metadata`, which folds an
    observed map into the history, and the calibration, which raises unstable places to the maximum.
    Neither ever lowers the counter. -/

namespace Bofuzz
open Baseline Effect Run List

/-- Map entries: integers with a comparison and bitwise operations. -/
class MapEntry (T : Type) extends OrOp T, AndOp T where
  lt : T → T → Bool
  zero : T
  maxValue : T
  or_assoc : ∀ a b c : T, (a ||| b) ||| c = a ||| (b ||| c)
  or_comm : ∀ a b : T, a ||| b = b ||| a
  or_self : ∀ a : T, a ||| a = a
  and_assoc : ∀ a b c : T, (a &&& b) &&& c = a &&& (b &&& c)
  and_comm : ∀ a b : T, a &&& b = b &&& a
  and_self : ∀ a : T, a &&& a = a
  zero_or : ∀ a : T, zero ||| a = a
  maxValue_ne_zero : maxValue ≠ zero

open MapEntry (maxValue zero maxValue_ne_zero)

instance : MapEntry UInt8 where
  lt a b := decide (a < b)
  zero := 0
  maxValue := 255
  or_assoc := UInt8.or_assoc
  or_comm := UInt8.or_comm
  or_self _ := UInt8.or_self
  and_assoc := UInt8.and_assoc
  and_comm := UInt8.and_comm
  and_self _ := UInt8.and_self
  zero_or _ := UInt8.zero_or
  maxValue_ne_zero := by decide

namespace MapFeedback

/-! ### Reducers -/

variable {T : Type} [MapEntry T]

inductive Reducer where | or | and | nop | max | min

/-- The values that an entry of the history can have. -/
def Reducer.Admits (initial h : T) : Reducer → Prop
  | .or => initial ||| h = h
  | .and => initial &&& h = h
  | _ => True

theorem Reducer.admits_initial (r : Reducer) (initial : T) : r.Admits initial initial := by
  cases r with
  | or => exact MapEntry.or_self initial
  | and => exact MapEntry.and_self initial
  | nop | max | min => trivial

def Reducer.reduce : Reducer → T → T → T
  | .or, history, new => history ||| new
  | .and, history, new => history &&& new
  | .nop, _, new => new
  | .max, first, second => if MapEntry.lt second first then first else second
  | .min, first, second => if MapEntry.lt first second then first else second

theorem Reducer.admits_reduce (r : Reducer) {initial h : T} (v : T) (hh : r.Admits initial h) :
    r.Admits initial (r.reduce h v) := by
  cases r with
  | or => exact (MapEntry.or_assoc initial h v).symm.trans (congrArg (· ||| v) hh)
  | and => exact (MapEntry.and_assoc initial h v).symm.trans (congrArg (· &&& v) hh)
  | nop | max | min => trivial

/-- An entry that has left the initial value does not come back. The bitwise reducers move in one
    direction only; the others return one of two values that both differ from the initial one. -/
theorem Reducer.reduce_ne (r : Reducer) {initial h v : T} (hh : r.Admits initial h)
    (hne : h ≠ initial) (hv : v ≠ initial) : r.reduce h v ≠ initial := by
  cases r with
  | or =>
    intro heq
    have heq : h ||| v = initial := heq
    apply hne
    calc h = initial ||| h := hh.symm
      _ = h ||| (h ||| v) := by rw [MapEntry.or_comm, heq]
      _ = h ||| v := by rw [← MapEntry.or_assoc, MapEntry.or_self]
      _ = initial := heq
  | and =>
    intro heq
    have heq : h &&& v = initial := heq
    apply hne
    calc h = initial &&& h := hh.symm
      _ = h &&& (h &&& v) := by rw [MapEntry.and_comm, heq]
      _ = h &&& v := by rw [← MapEntry.and_assoc, MapEntry.and_self]
      _ = initial := heq
  | nop => exact hv
  | max | min =>
    rw [reduce]
    split_ifs
    · exact hne
    · exact hv

/-! ### The feedback -/

variable [DecidableEq T]

/-- A feedback with the parts that its type parameters fix and the initial value of its observer. -/
structure Feedback (T : Type) where
  reducer : Reducer
  isNovel : T → T → Bool
  indices : Bool
  initial : T

structure MapFeedbackMetadata (T : Type) where
  historyMap : List T := []
  numCoveredMapIndexes : ℕ := 0

/-- The novelties that the feedback holds and the metadata of the state. -/
structure World (T : Type) where
  novelties : Option (List ℕ) := none
  mapState : MapFeedbackMetadata T := {}

/-- The history reaches as far as a map of length `len`. -/
def MapFeedbackMetadata.grow (s : MapFeedbackMetadata T) (len : ℕ) (value : T) :
    MapFeedbackMetadata T :=
  if s.historyMap.length < len then { s with historyMap := resizeWith s.historyMap len value } else s

variable (fb : Feedback T)

/-- The entries of a map that differ from the initial value, with their places. -/
def Feedback.hits (map : List T) : List (T × ℕ) := map.zipIdx.filter fun v => v.1 ≠ fb.initial

/-! ### Novelty -/

/-- The history has a value for every hit, so that the default is never used. -/
def novel (history : List T) (v : T × ℕ) : Bool :=
  let existing := history.getD v.2 fb.initial
  fb.isNovel existing (fb.reducer.reduce existing v.1)

def isInterestingDefault (map : List T) (w : World T) : Bool × World T :=
  let mapState := w.mapState.grow map.length fb.initial
  match w.novelties with
  | some _ =>
    let found := (fb.hits map).filter (novel fb mapState.historyMap)
    (!found.isEmpty, { novelties := some (found.map Prod.snd), mapState })
  | none => ((fb.hits map).any (novel fb mapState.historyMap), { w with mapState })

/-! ### Metadata -/

/-- One round of the loop of `append_metadata`. -/
def absorb (value : T) (i : ℕ) : EStateM Error (MapFeedbackMetadata T) Unit := do
  let s ← get
  match s.historyMap[i]? with
  | none => throw .indexPanic
  | some history =>
    let val := fb.reducer.reduce history value
    set { historyMap := s.historyMap.set i val
          numCoveredMapIndexes := s.numCoveredMapIndexes +
            if history = fb.initial ∧ val ≠ fb.initial then 1 else 0 : MapFeedbackMetadata T }

def absorbAll : List (T × ℕ) → EStateM Error (MapFeedbackMetadata T) Unit
  | [] => pure ()
  | v :: vs => do
    absorb fb v.1 v.2
    absorbAll vs

/-- The entries that differ from the initial value, as the assertion counts them. -/
def countFilled (initial : T) (history : List T) : ℕ :=
  history.foldl (fun acc x => acc + if x ≠ initial then 1 else 0) 0

/-- What a testcase gets, and the ratio that is reported. -/
structure Appended where
  novelties : Option (List ℕ)
  indexes : Option (List ℕ)
  covered : ℕ
  len : ℕ

/-- `append_metadata` for an observed map; the event manager may refuse the report. -/
def appendMetadata (map : List T) (fireFails : Bool) : EStateM Error (World T) Appended := do
  let w ← get
  set { novelties := w.novelties.map fun _ => []
        mapState := w.mapState.grow map.length fb.initial : World T }
  zoom World.mapState (fun w mapState => { w with mapState }) (absorbAll fb (fb.hits map))
  let s := (← get).mapState
  if countFilled fb.initial s.historyMap ≠ s.numCoveredMapIndexes then throw .assertPanic
  else if fireFails then throw .event
  else
    pure { novelties := w.novelties
           indexes := if fb.indices then some ((fb.hits map).map Prod.snd) else none
           covered := s.numCoveredMapIndexes
           len := s.historyMap.length }

/-! ### Calibration -/

/-- The loop of the calibration over the first run's map, the present one and the history, with the
    number of entries it covers and the places it finds unstable. -/
def raiseUnstable (idx : ℕ) : List T → List T → List T → List T × ℕ × List ℕ
  | first :: firsts, cur :: curs, history :: histories =>
    let (raised, added, unstable) := raiseUnstable (idx + 1) firsts curs histories
    if first ≠ cur ∧ history ≠ maxValue then
      (maxValue :: raised, added + if history = zero then 1 else 0, idx :: unstable)
    else (history :: raised, added, unstable)
  | _, _, histories => (histories, 0, [])

/-- A round of the calibration that compares a run with the first one. -/
def calibrate (firsts curs : List T) (s : MapFeedbackMetadata T) : MapFeedbackMetadata T × List ℕ :=
  let s := s.grow firsts.length zero
  let (historyMap, added, unstable) := raiseUnstable 0 firsts curs s.historyMap
  ({ historyMap, numCoveredMapIndexes := s.numCoveredMapIndexes + added }, unstable)

/-! ### Events -/

inductive Event (T : Type) where
  | interesting (map : List T)
  | append (map : List T) (fireFails : Bool)
  | calibration (firsts curs : List T)

def Event.isCalibration : Event T → Bool
  | .calibration .. => true
  | _ => false

def step (w : World T) : Event T → World T
  | .interesting map => (isInterestingDefault fb map w).2
  | .append map fireFails => finalState (appendMetadata fb map fireFails) w
  | .calibration firsts curs => { w with mapState := (calibrate firsts curs w.mapState).1 }

/-! ### The counter -/

/-- The counter is the number of entries that have left the initial value, and all of them have
    values that the reducer leads to. -/
structure Counts (s : MapFeedbackMetadata T) : Prop where
  admits : ∀ h ∈ s.historyMap, fb.reducer.Admits fb.initial h
  count : s.numCoveredMapIndexes = departed fb.initial s.historyMap

/-- What a piece of code that starts in `s` makes of it. -/
structure Later (s t : MapFeedbackMetadata T) : Prop extends Counts fb t where
  advances : Advances fb.initial s.historyMap t.historyMap

variable {fb} {s t u : MapFeedbackMetadata T}

theorem Later.trans (h : Later fb s t) (h' : Later fb t u) : Later fb s u :=
  ⟨h'.toCounts, h.advances.trans h'.advances⟩

theorem Counts.refl (h : Counts fb s) : Later fb s s := ⟨h, .refl _⟩

omit [MapEntry T] [DecidableEq T] in
theorem grow_length (s : MapFeedbackMetadata T) (len : ℕ) (value : T) :
    len ≤ (s.grow len value).historyMap.length := by
  unfold MapFeedbackMetadata.grow
  split_ifs with h
  · exact (resizeWith_length _ _ _).ge
  · exact not_lt.mp h

theorem Counts.grow (h : Counts fb s) (len : ℕ) : Later fb s (s.grow len fb.initial) := by
  unfold MapFeedbackMetadata.grow
  split_ifs with hlt
  · have heq : resizeWith s.historyMap len fb.initial
        = s.historyMap ++ List.replicate (len - s.historyMap.length) fb.initial := by
      rw [resizeWith, take_of_length_le hlt.le]
    refine ⟨⟨fun x hx => ?_, ?_⟩, ?_⟩
    · rw [heq] at hx
      rcases mem_append.mp hx with hx | hx
      · exact h.admits x hx
      · rw [eq_of_mem_replicate hx]
        exact fb.reducer.admits_initial fb.initial
    · rw [heq, departed_append_base]
      exact h.count
    · rw [heq]
      exact .append _ _
  · exact h.refl

theorem absorb_spec (h : Counts fb s) {value : T} {i : ℕ} (hv : value ≠ fb.initial)
    (hi : i < s.historyMap.length) : Spec (absorb fb value i) s
      (fun _ t => Later fb s t ∧ t.historyMap.length = s.historyMap.length) (fun _ _ => False) := by
  have hx : s.historyMap[i]? = some s.historyMap[i] := getElem?_eq_getElem hi
  have hadmits := h.admits _ (getElem_mem hi)
  have hne := fun hne => fb.reducer.reduce_ne hadmits hne hv
  simp only [absorb, spec_bind, spec_get, hx, spec_set]
  refine ⟨⟨⟨fun y hy => ?_, ?_⟩, .set hx hne⟩, length_set⟩
  · rcases mem_or_eq_of_mem_set hy with hy | rfl
    · exact h.admits y hy
    · exact fb.reducer.admits_reduce value hadmits
  · rw [departed_set hx hne, h.count]

theorem absorbAll_spec : ∀ (vs : List (T × ℕ)) {s : MapFeedbackMetadata T}, Counts fb s →
    (∀ v ∈ vs, v.1 ≠ fb.initial ∧ v.2 < s.historyMap.length) →
    Spec (absorbAll fb vs) s (fun _ t => Later fb s t) (fun _ _ => False)
  | [], _, h, _ => h.refl
  | v :: vs, s, h, hvs => by
    obtain ⟨hv, hi⟩ := hvs v mem_cons_self
    simp only [absorbAll, spec_bind]
    refine (absorb_spec h hv hi).imp fun _ t ht => ?_
    obtain ⟨hlater, hlen⟩ := ht
    have hrest : ∀ v ∈ vs, v.1 ≠ fb.initial ∧ v.2 < t.historyMap.length := by
      intro v hv
      rw [hlen]
      exact hvs v (.tail _ hv)
    exact (absorbAll_spec vs hlater.toCounts hrest).imp fun _ u hu => hlater.trans hu

omit [MapEntry T] in
theorem countFilled_eq (initial : T) (history : List T) :
    countFilled initial history = departed initial history := by
  have hfold : ∀ (l : List T) (n : ℕ),
      l.foldl (fun acc x => acc + if x ≠ initial then 1 else 0) n = n + departed initial l := by
    intro l
    induction l with
    | nil => intro n; rfl
    | cons x l ih =>
      intro n
      rw [foldl_cons, ih, departed_cons]
      omega
  rw [countFilled, hfold, Nat.zero_add]

variable {w : World T}

/-- The index and the assertion of `append_metadata` never fail. -/
theorem appendMetadata_spec (h : Counts fb w.mapState) (map : List T) (fireFails : Bool) :
    Spec (appendMetadata fb map fireFails) w (fun _ t => Later fb w.mapState t.mapState)
      (fun e t => e = .event ∧ Later fb w.mapState t.mapState) := by
  have hgrow := h.grow map.length
  have hhits : ∀ v ∈ fb.hits map, v.1 ≠ fb.initial ∧
      v.2 < (w.mapState.grow map.length fb.initial).historyMap.length := by
    intro v hv
    obtain ⟨hmem, hne⟩ := mem_filter.mp hv
    obtain ⟨hi, _⟩ := mem_zipIdx' hmem
    exact ⟨of_decide_eq_true hne, hi.trans_le (grow_length _ _ _)⟩
  simp only [appendMetadata, spec_bind, spec_get, spec_set, spec_zoom]
  refine (absorbAll_spec _ hgrow.toCounts hhits).total fun _ t ht => ?_
  have hlater := hgrow.trans ht
  rw [if_neg (not_not.mpr ((countFilled_eq _ _).trans hlater.count.symm))]
  cases fireFails with
  | true => exact ⟨rfl, hlater⟩
  | false => exact hlater

theorem any_eq_not_isEmpty {β : Type} (xs : List β) (p : β → Bool) :
    xs.any p = !(xs.filter p).isEmpty := by
  rw [Bool.eq_iff_iff, any_eq_true, Bool.not_eq_true', isEmpty_eq_false_iff_exists_mem]
  simp only [mem_filter]

theorem isInterestingDefault_later (h : Counts fb w.mapState) (map : List T) :
    Later fb w.mapState (isInterestingDefault fb map w).2.mapState := by
  unfold isInterestingDefault
  cases w.novelties with
  | none | some => exact h.grow map.length

/-- What the loop of the calibration does to the history `hs`. -/
structure Raised (hs raised : List T) (added : ℕ) : Prop where
  mem : ∀ x ∈ raised, x ∈ hs ∨ x = maxValue
  count : departed zero raised = departed zero hs + added
  advances : Advances zero hs raised

theorem Raised.refl (hs : List T) : Raised hs hs 0 := ⟨fun _ => .inl, rfl, .refl hs⟩

theorem Raised.keep {hs raised : List T} {added : ℕ} (h : T) (hraised : Raised hs raised added) :
    Raised (h :: hs) (h :: raised) added := by
  refine ⟨fun x hx => ?_, ?_, .cons id hraised.advances⟩
  · rcases mem_cons.mp hx with rfl | hx
    · exact .inl mem_cons_self
    · exact (hraised.mem x hx).imp_left (.tail _)
  · rw [departed_cons, departed_cons, hraised.count]
    omega

theorem Raised.raise {hs raised : List T} {added : ℕ} (h : T) (hraised : Raised hs raised added) :
    Raised (h :: hs) (maxValue :: raised) (added + if h = zero then 1 else 0) := by
  refine ⟨fun x hx => ?_, ?_, .cons (fun _ => maxValue_ne_zero) hraised.advances⟩
  · rcases mem_cons.mp hx with rfl | hx
    · exact .inr rfl
    · exact (hraised.mem x hx).imp_left (.tail _)
  · rw [departed_cons, departed_cons, hraised.count, if_pos maxValue_ne_zero]
    by_cases hh : h = zero
    · rw [if_pos hh, if_neg (not_not.mpr hh)]
      omega
    · rw [if_neg hh, if_pos hh]
      omega

theorem raiseUnstable_raised (firsts curs hs : List T) (idx : ℕ) :
    Raised hs (raiseUnstable idx firsts curs hs).1 (raiseUnstable idx firsts curs hs).2.1 := by
  fun_induction raiseUnstable idx firsts curs hs with
  | case1 idx first firsts cur curs h hs raised added unstable heq hraise ih =>
    rw [heq] at ih
    exact ih.raise h
  | case2 idx first firsts cur curs h hs raised added unstable heq hraise ih =>
    rw [heq] at ih
    exact ih.keep h
  | case3 idx firsts curs hs => exact .refl hs

/-- A calibration keeps the count if it agrees with the feedback on the initial value and the raised
    entries are ones that the reducer does not bring back. -/
theorem Counts.calibrate (h : Counts fb s) (hzero : fb.initial = zero)
    (hmax : fb.reducer.Admits fb.initial maxValue) (firsts curs : List T) :
    Later fb s (calibrate firsts curs s).1 := by
  have hgrow := h.grow firsts.length
  rw [hzero] at hgrow
  have hraised := raiseUnstable_raised firsts curs
    (s.grow firsts.length zero).historyMap 0
  refine hgrow.trans ⟨⟨fun x hx => ?_, ?_⟩, ?_⟩
  · rcases hraised.mem x hx with hx | rfl
    · exact hgrow.admits x hx
    · exact hmax
  · have hcount := hgrow.count
    rw [hzero] at hcount ⊢
    exact (congrArg (· + _) hcount).trans hraised.count.symm
  · rw [hzero]
    exact hraised.advances

/-! ### Every sequence of calls -/

variable (fb) in
/-- Calibrations work on maps of the maximum and the `or` feedback that start at zero. -/
def Calibrates : Prop := (fb.reducer = .max ∨ fb.reducer = .or) ∧ fb.initial = zero

omit [DecidableEq T] in
theorem Calibrates.admits_maxValue (h : Calibrates fb) : fb.reducer.Admits fb.initial maxValue := by
  obtain ⟨hred | hred, hzero⟩ := h
  · rw [hred]
    trivial
  · rw [hred, hzero]
    exact MapEntry.zero_or _

theorem step_later (h : Counts fb w.mapState) (e : Event T)
    (hcal : e.isCalibration = true → Calibrates fb) :
    Later fb w.mapState (step fb w e).mapState := by
  cases e with
  | interesting map => exact isInterestingDefault_later h map
  | append map fireFails =>
    exact finalState_of_spec ((appendMetadata_spec h map fireFails).mono (fun _ _ ht => ht)
      fun _ _ ht => ht.2)
  | calibration firsts curs =>
    have hcal := hcal rfl
    exact h.calibrate hcal.2 hcal.admits_maxValue firsts curs

theorem run_later (h : Counts fb w.mapState) (events : List (Event T))
    (hcal : ∀ e ∈ events, e.isCalibration = true → Calibrates fb) :
    Later fb w.mapState (run (step fb) w events).mapState :=
  along_induct (I := fun v => Later fb w.mapState v.mapState)
    (C := fun _ e => e.isCalibration = true → Calibrates fb)
    (fun _ e hv hc => hv.trans (step_later hv.toCounts e hc)) events w h.refl
    (along_of_forall fun e he _ => hcal e he)

/-- Whatever maps are observed, in whatever order, the counter is the number of entries of the
    history that have left the initial value, the assertion on it holds, and no entry ever
    returns. -/
theorem coverage_counter (fb : Feedback T) (w₀ : World T)
    (hstart : ∀ h ∈ w₀.mapState.historyMap, h = fb.initial)
    (hzero : w₀.mapState.numCoveredMapIndexes = 0) (events : List (Event T))
    (hcal : ∀ e ∈ events, e.isCalibration = true →
      (fb.reducer = .max ∨ fb.reducer = .or) ∧ fb.initial = MapEntry.zero) :
    (run (step fb) w₀ events).mapState.numCoveredMapIndexes
        = departed fb.initial (run (step fb) w₀ events).mapState.historyMap ∧
      (∀ map fireFails, Spec (appendMetadata fb map fireFails) (run (step fb) w₀ events)
        (fun _ _ => True) (fun e _ => e = .event)) ∧
      ∀ k, Advances fb.initial (run (step fb) w₀ (events.take k)).mapState.historyMap
        (run (step fb) w₀ events).mapState.historyMap := by
  have hcounts : Counts fb w₀.mapState := by
    refine ⟨fun h hh => ?_, ?_⟩
    · rw [hstart h hh]
      exact fb.reducer.admits_initial fb.initial
    · rw [hzero, departed_of_all hstart]
  have hlater := run_later hcounts events hcal
  refine ⟨hlater.count, fun map fireFails => ?_, fun k => ?_⟩
  · exact (appendMetadata_spec hlater.toCounts map fireFails).mono (fun _ _ _ => trivial)
      fun _ _ h => h.1
  · have hfirst := run_later hcounts (events.take k) fun e he => hcal e (mem_of_mem_take he)
    have hrest := run_later hfirst.toCounts (events.drop k) fun e he => hcal e (mem_of_mem_drop he)
    have happend : run (step fb) (run (step fb) w₀ (events.take k)) (events.drop k)
        = run (step fb) w₀ events := by
      unfold run
      rw [← foldl_append, take_append_drop]
    rw [← happend]
    exact hrest.advances

/-- A map of bytes: an `or` feedback sees two places, and a calibration finds a third one
    unstable. -/
theorem coverage_counter_demo :
    let fb : Feedback UInt8 := ⟨.or, fun a b => a != b, true, 0⟩
    let events := [.interesting [0, 3], .append [0, 3, 8] false, .calibration [1, 3, 8] [2, 3, 8]]
    (run (step fb) {} events).mapState.numCoveredMapIndexes = 3 ∧
      departed 0 (run (step fb) {} events).mapState.historyMap = 3 := by
  intro fb events
  have hcount : (run (step fb) {} events).mapState.numCoveredMapIndexes = 3 := by decide
  have h := (coverage_counter fb {} (by simp) rfl events (fun _ _ _ => ⟨.inr rfl, rfl⟩)).1
  exact ⟨hcount, h.symm.trans hcount⟩

end MapFeedback

end Bofuzz
