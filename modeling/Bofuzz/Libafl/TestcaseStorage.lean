import Bofuzz.Libafl.Storage

/-! Histories of a corpus storage (`TestcaseStorage` of `libafl/src/corpus/inmemory.rs`).

    A `TestcaseStorage` holds the enabled and the disabled entries and the next free id. `Store` is
    what it stands for: two sorted maps without a common id, all ids below the free one. Every call
    does to a storage of either variant what it does to the store (`step_represents`), so after any
    history both variants are well linked and answer alike. -/

namespace Bofuzz.Storage
open SortedKeys StorageMap LawfulStorageMap Function

variable {M : Type → Type} {T : Type}

/-- `TestcaseStorage`, over a variant of the map. -/
structure TestcaseStorage (M : Type → Type) (T : Type) where
  enabled : M T
  disabled : M T
  progressiveId : ℕ

/-- The calls that change a storage. Both maps are public, so that a call names the one it is
    for. -/
inductive Call (T : Type) where
  | insert (testcase : T)
  | insertDisabled (testcase : T)
  | remove (isDisabled : Bool) (id : CorpusId)
  | replace (isDisabled : Bool) (id : CorpusId) (testcase : T)

/-- What a call returns: a new id, or the entry that was there. -/
inductive Answer (T : Type) where
  | inserted (id : CorpusId)
  | old (testcase : Option T)

namespace TestcaseStorage

def new [StorageMap M] : TestcaseStorage M T := ⟨StorageMap.new, StorageMap.new, 0⟩

def map (s : TestcaseStorage M T) (isDisabled : Bool) : M T :=
  if isDisabled then s.disabled else s.enabled

def setMap (s : TestcaseStorage M T) (isDisabled : Bool) (m : M T) : TestcaseStorage M T :=
  if isDisabled then { s with disabled := m } else { s with enabled := m }

/-- `insert_inner`. -/
def insertInner [StorageMap M] (s : TestcaseStorage M T) (testcase : T) (isDisabled : Bool) :
    Except Error (CorpusId × TestcaseStorage M T) := do
  let id := s.progressiveId
  let s := { s with progressiveId := s.progressiveId + 1 }
  let m ← insert (s.map isDisabled) id testcase
  pure (id, s.setMap isDisabled m)

def step [StorageMap M] (s : TestcaseStorage M T) :
    Call T → Except Error (Answer T × TestcaseStorage M T)
  | .insert testcase => do
    let (id, s) ← s.insertInner testcase false
    pure (.inserted id, s)
  | .insertDisabled testcase => do
    let (id, s) ← s.insertInner testcase true
    pure (.inserted id, s)
  | .remove isDisabled id => do
    let (old, m) ← remove (s.map isDisabled) id
    pure (.old old, s.setMap isDisabled m)
  | .replace isDisabled id testcase =>
    let (old, m) := replace (s.map isDisabled) id testcase
    .ok (.old old, s.setMap isDisabled m)

/-- A history of calls and what they return. -/
def run [StorageMap M] (s : TestcaseStorage M T) :
    List (Call T) → Except Error (List (Answer T) × TestcaseStorage M T)
  | [] => .ok ([], s)
  | call :: calls => do
    let (answer, s) ← s.step call
    let (answers, s) ← s.run calls
    pure (answer :: answers, s)

end TestcaseStorage

/-! ### The store -/

/-- The enabled (`map false`) and the disabled entries. They share their ids, which are handed out
    in increasing order. -/
structure Store (T : Type) where
  map : Bool → SortedMap CorpusId T
  free : ℕ
  lt_free : ∀ isDisabled, ∀ id ∈ (map isDisabled).keys, id < free
  disjoint : ∀ id ∈ (map false).keys, id ∉ (map true).keys

namespace Store

def empty : Store T where
  map _ := .empty
  free := 0
  lt_free := by simp [SortedMap.keys, SortedMap.empty]
  disjoint := by simp [SortedMap.keys, SortedMap.empty]

/-- Another map in the place of one; its ids are old ones or taken from the free ones. -/
def update (s : Store T) (isDisabled : Bool) (m : SortedMap CorpusId T) (free : ℕ)
    (hfree : s.free ≤ free)
    (hkeys : ∀ id ∈ m.keys, id ∈ (s.map isDisabled).keys ∨ s.free ≤ id ∧ id < free) : Store T where
  map := Function.update s.map isDisabled m
  free
  lt_free b id hid := by
    by_cases hb : b = isDisabled
    · subst hb
      rw [update_self] at hid
      rcases hkeys id hid with hold | ⟨_, hlt⟩
      · exact (s.lt_free b id hold).trans_le hfree
      · exact hlt
    · rw [update_of_ne hb] at hid
      exact (s.lt_free b id hid).trans_le hfree
  disjoint id henabled hdisabled := by
    cases isDisabled with
    | false =>
      rw [update_self] at henabled
      rw [update_of_ne (by decide)] at hdisabled
      rcases hkeys id henabled with hold | ⟨hle, _⟩
      · exact s.disjoint id hold hdisabled
      · exact absurd (s.lt_free true id hdisabled) (not_lt.mpr hle)
    | true =>
      rw [Function.update_of_ne (by decide)] at henabled
      rw [update_self] at hdisabled
      rcases hkeys id hdisabled with hold | ⟨hle, _⟩
      · exact s.disjoint id henabled hold
      · exact absurd (s.lt_free false id henabled) (not_lt.mpr hle)

/-- A new entry gets the free id. -/
def insert (s : Store T) (testcase : T) (isDisabled : Bool) : Store T :=
  s.update isDisabled ((s.map isDisabled).insert s.free testcase) (s.free + 1) (Nat.le_succ _)
    fun id hid => by
      rw [SortedMap.keys_insert_of_lt _ testcase (s.lt_free isDisabled), List.mem_append,
        List.mem_singleton] at hid
      rcases hid with hid | rfl
      · exact .inl hid
      · exact .inr ⟨le_rfl, Nat.lt_succ_self _⟩

def remove (s : Store T) (isDisabled : Bool) (id : CorpusId) : Store T :=
  s.update isDisabled ((s.map isDisabled).erase id) s.free le_rfl fun j hj => by
    rw [SortedMap.keys_erase] at hj
    exact .inl (List.mem_of_mem_erase hj)

def replace (s : Store T) (isDisabled : Bool) (id : CorpusId) (testcase : T) : Store T :=
  s.update isDisabled ((s.map isDisabled).replace id testcase) s.free le_rfl fun j hj => by
    rw [SortedMap.keys_replace] at hj
    exact .inl hj

def step (s : Store T) : Call T → Answer T × Store T
  | .insert testcase => (.inserted s.free, s.insert testcase false)
  | .insertDisabled testcase => (.inserted s.free, s.insert testcase true)
  | .remove isDisabled id => (.old ((s.map isDisabled).get id), s.remove isDisabled id)
  | .replace isDisabled id testcase =>
    (.old ((s.map isDisabled).get id), s.replace isDisabled id testcase)

def run (s : Store T) : List (Call T) → List (Answer T) × Store T
  | [] => ([], s)
  | call :: calls =>
    let rest := (s.step call).2.run calls
    ((s.step call).1 :: rest.1, rest.2)

end Store

/-! ### Both variants hold the store -/

section
variable [StorageMap M] [LawfulStorageMap M]

structure Represents (t : TestcaseStorage M T) (s : Store T) : Prop where
  map : ∀ isDisabled, LawfulStorageMap.Represents (t.map isDisabled) (s.map isDisabled)
  progressiveId : t.progressiveId = s.free

theorem new_represents : Represents (TestcaseStorage.new : TestcaseStorage M T) Store.empty := by
  refine ⟨fun isDisabled => ?_, rfl⟩
  cases isDisabled <;> exact new

variable {t : TestcaseStorage M T}

theorem Represents.setMap {s s' : Store T} (h : Represents t s) {isDisabled : Bool} {m : M T}
    {m' : SortedMap CorpusId T} (hm : LawfulStorageMap.Represents m m')
    (hmap : s'.map = update s.map isDisabled m') (progressiveId : ℕ)
    (hfree : progressiveId = s'.free) :
    Represents ({ t with progressiveId }.setMap isDisabled m) s' := by
  constructor
  · intro b
    rw [hmap]
    by_cases hb : b = isDisabled
    · subst hb
      rw [update_self]
      cases b <;> exact hm
    · rw [update_of_ne hb]
      have hb' := h.map b
      cases b <;> cases isDisabled
      · exact absurd rfl hb
      · exact hb'
      · exact hb'
      · exact absurd rfl hb
  · cases isDisabled <;> exact hfree

variable {s : Store T}

theorem insertInner_represents (h : Represents t s) (testcase : T) (isDisabled : Bool) :
    ∃ t', t.insertInner testcase isDisabled = .ok (s.free, t') ∧
      Represents t' (s.insert testcase isDisabled) := by
  obtain ⟨m, hm, hrep⟩ := insert testcase (h.map isDisabled) (s.lt_free isDisabled)
  refine ⟨_, ?_, h.setMap hrep rfl (t.progressiveId + 1) (by rw [h.progressiveId]; rfl)⟩
  have hmap : ∀ progressiveId, { t with progressiveId }.map isDisabled = t.map isDisabled := by
    intro _
    cases isDisabled <;> rfl
  simp only [TestcaseStorage.insertInner, hmap, h.progressiveId, hm, bind, Except.bind]
  rfl

theorem step_represents (h : Represents t s) (call : Call T) :
    ∃ t', t.step call = .ok ((s.step call).1, t') ∧ Represents t' (s.step call).2 := by
  cases call with
  | insert testcase =>
    obtain ⟨t', ht', hrep⟩ := insertInner_represents h testcase false
    exact ⟨t', by simp only [TestcaseStorage.step, ht', bind, Except.bind]; rfl, hrep⟩
  | insertDisabled testcase =>
    obtain ⟨t', ht', hrep⟩ := insertInner_represents h testcase true
    exact ⟨t', by simp only [TestcaseStorage.step, ht', bind, Except.bind]; rfl, hrep⟩
  | remove isDisabled id =>
    obtain ⟨m, hm, hrep⟩ := remove id (h.map isDisabled)
    exact ⟨_, by simp only [TestcaseStorage.step, hm, bind, Except.bind]; rfl,
      h.setMap hrep rfl t.progressiveId h.progressiveId⟩
  | replace isDisabled id testcase =>
    obtain ⟨m, hm, hrep⟩ := replace id testcase (h.map isDisabled)
    exact ⟨_, by simp only [TestcaseStorage.step, hm]; rfl,
      h.setMap hrep rfl t.progressiveId h.progressiveId⟩

theorem run_represents (h : Represents t s) (calls : List (Call T)) :
    ∃ t', t.run calls = .ok ((s.run calls).1, t') ∧ Represents t' (s.run calls).2 := by
  induction calls generalizing t s with
  | nil => exact ⟨t, rfl, h⟩
  | cons call calls ih =>
    obtain ⟨t₁, ht₁, hrep₁⟩ := step_represents h call
    obtain ⟨t₂, ht₂, hrep₂⟩ := ih hrep₁
    exact ⟨t₂, by simp only [TestcaseStorage.run, ht₁, ht₂, bind, Except.bind]; rfl, hrep₂⟩

/-! ### What follows for the queries -/

/-- The redundant parts of a map agree: the vector of keys, the map, the ends and the links. -/
structure WellLinked (m : M T) : Prop where
  increasing : (keys m).Pairwise (· < ·)
  mapKeys : (mapKeys m).Perm (keys m)
  walk : ∀ fuel, (keys m).length ≤ fuel →
    follow (next m) fuel (first m) = keys m
  last : last m = (keys m).getLast?
  inverse : ∀ j k, next m j = some k ↔ prev m k = some j
  absent : ∀ id, id ∉ keys m → next m id = none ∧ prev m id = none

omit [LawfulStorageMap M] in
theorem Answers.wellLinked {m : M T} {s : SortedMap CorpusId T} (h : Answers m s) :
    WellLinked m := by
  have hinc := s.keys_increasing
  refine ⟨?_, ?_, fun fuel hfuel => ?_, ?_, fun j k => ?_, fun id hid => ?_⟩
  · rw [h.keys]
    exact hinc
  · rw [h.keys]
    exact h.mapKeys
  · rw [h.keys] at hfuel ⊢
    rw [funext h.next, h.first, follow_after hinc hfuel]
  · rw [h.last, h.keys]
  · rw [h.next, h.prev, after_iff_before hinc]
  · rw [h.keys] at hid
    rw [h.next, h.prev]
    exact ⟨after_of_notMem hid, before_of_notMem hid⟩

end

/-- Two maps, of whatever variants, that answer every query alike. -/
structure SameAnswers {M N : Type → Type} [StorageMap M] [StorageMap N] (m : M T) (n : N T) :
    Prop where
  get : ∀ id, get m id = get n id
  next : ∀ id, next m id = next n id
  prev : ∀ id, prev m id = prev n id
  first : first m = first n
  last : last m = last n
  keys : keys m = keys n
  count : (mapKeys m).length = (mapKeys n).length

theorem Answers.same {N : Type → Type} [StorageMap M] [StorageMap N] {m : M T} {n : N T}
    {s : SortedMap CorpusId T} (hm : Answers m s) (hn : Answers n s) : SameAnswers m n where
  get id := (hm.get id).trans (hn.get id).symm
  next id := (hm.next id).trans (hn.next id).symm
  prev id := (hm.prev id).trans (hn.prev id).symm
  first := hm.first.trans hn.first.symm
  last := hm.last.trans hn.last.symm
  keys := hm.keys.trans hn.keys.symm
  count := hm.mapKeys.length_eq.trans hn.mapKeys.length_eq.symm

/-- The id that an insertion hands out. -/
def Answer.newId : Answer T → Option CorpusId
  | .inserted id => some id
  | .old _ => none

theorem Store.free_le_step (s : Store T) (call : Call T) : s.free ≤ (s.step call).2.free := by
  cases call
  · exact Nat.le_succ _
  · exact Nat.le_succ _
  · exact le_rfl
  · exact le_rfl

/-- The ids that a history hands out were free before it, and they increase. -/
theorem Store.run_newIds (calls : List (Call T)) (s : Store T) :
    (∀ id ∈ (s.run calls).1.filterMap Answer.newId, s.free ≤ id) ∧
      ((s.run calls).1.filterMap Answer.newId).Pairwise (· < ·) := by
  induction calls generalizing s with
  | nil => simp [Store.run]
  | cons call calls ih =>
    obtain ⟨hle, hpairwise⟩ := ih (s.step call).2
    have hlater : ∀ id ∈ ((s.step call).2.run calls).1.filterMap Answer.newId, s.free ≤ id :=
      fun id hid => (s.free_le_step call).trans (hle id hid)
    rw [Store.run, List.filterMap_cons]
    cases hnew : (s.step call).1.newId with
    | none => exact ⟨hlater, hpairwise⟩
    | some new =>
      have hfree : new = s.free ∧ (s.step call).2.free = s.free + 1 := by
        cases call with
        | insert | insertDisabled => exact ⟨(Option.some.inj hnew).symm, rfl⟩
        | remove | replace => cases hnew
      refine ⟨fun id hid => ?_, List.pairwise_cons.mpr ⟨fun id hid => ?_, hpairwise⟩⟩
      · rcases List.mem_cons.mp hid with rfl | hid
        · exact hfree.1.ge
        · exact hlater id hid
      · rw [hfree.1]
        exact Nat.lt_of_succ_le (hfree.2.symm.trans_le (hle id hid))

/-- Corpus storage: after any history neither variant has panicked, both have returned the same,
    both are well linked, enabled and disabled ids are disjoint, and no id was handed out twice. -/
theorem corpus_storage (T : Type) (calls : List (Call T)) :
    ∃ (answers : List (Answer T)) (linked : TestcaseStorage LinkedMap T)
      (btree : TestcaseStorage BTreeStorageMap T),
      TestcaseStorage.new.run calls = .ok (answers, linked) ∧
      TestcaseStorage.new.run calls = .ok (answers, btree) ∧
      linked.progressiveId = btree.progressiveId ∧
      (∀ isDisabled, WellLinked (linked.map isDisabled) ∧ WellLinked (btree.map isDisabled) ∧
        SameAnswers (linked.map isDisabled) (btree.map isDisabled)) ∧
      (∀ id ∈ keys linked.enabled, id ∉ keys linked.disabled) ∧
      (answers.filterMap Answer.newId).Nodup := by
  obtain ⟨linked, hlinked, hrep⟩ := run_represents (M := LinkedMap) (T := T) new_represents calls
  obtain ⟨btree, hbtree, hrep'⟩ := run_represents (M := BTreeStorageMap) (T := T) new_represents calls
  refine ⟨_, linked, btree, hlinked, hbtree, hrep.progressiveId.trans hrep'.progressiveId.symm,
    fun isDisabled => ?_, ?_, ?_⟩
  · have h := answers (hrep.map isDisabled)
    have h' := answers (hrep'.map isDisabled)
    exact ⟨h.wellLinked, h'.wellLinked, h.same h'⟩
  · have henabled : keys linked.enabled = _ :=
      (answers (hrep.map false)).keys
    have hdisabled : keys linked.disabled = _ :=
      (answers (hrep.map true)).keys
    rw [henabled, hdisabled]
    exact (Store.run _ calls).2.disjoint
  · exact (Store.run_newIds calls _).2.imp ne_of_lt

end Bofuzz.Storage
