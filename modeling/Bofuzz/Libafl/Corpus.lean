import Bofuzz.Libafl.TestcaseStorage

/-! The in-memory corpus (`InMemoryCorpus` of `libafl/src/corpus/inmemory.rs`).

    The corpus is a storage and the entry that is being fuzzed. It is written over `Store`, which
    both variants of the storage represent. -/

namespace Bofuzz
open SortedMap

structure InMemoryCorpus (T : Type) where
  storage : Storage.Store T := .empty
  current : Option CorpusId := none

namespace InMemoryCorpus
variable {T : Type} (c : InMemoryCorpus T)

def enabled : SortedMap CorpusId T := c.storage.map false

/-- The ids of the enabled entries, in order. -/
def ids : List CorpusId := c.enabled.keys

def count : ℕ := c.ids.length

def peekFreeId : CorpusId := c.storage.free

def add (testcase : T) : CorpusId × InMemoryCorpus T :=
  (c.storage.free, { c with storage := c.storage.insert testcase false })

variable (id : CorpusId)

def get : Except Error T :=
  match c.enabled.get id with
  | some testcase => .ok testcase
  | none => .error (.keyNotFound (.indexNotFound id))

def replace (testcase : T) : Except Error (T × InMemoryCorpus T) :=
  match c.enabled.get id with
  | some old => .ok (old, { c with storage := c.storage.replace false id testcase })
  | none => .error (.keyNotFound (.indexNotReplaced id))

/-- An enabled entry is removed, or else a disabled one; what is fuzzed stays as it is. -/
def remove : Except Error (T × InMemoryCorpus T) :=
  match c.enabled.get id with
  | some old => .ok (old, { c with storage := c.storage.remove false id })
  | none =>
    match (c.storage.map true).get id with
    | some old => .ok (old, { c with storage := c.storage.remove true id })
    | none => .error (.keyNotFound (.indexNotFound id))

/-- Writing to an entry through its cell. -/
def modify (f : T → T) : InMemoryCorpus T :=
  match c.enabled.get id with
  | some old => { c with storage := c.storage.replace false id (f old) }
  | none => c

variable {id : CorpusId}

theorem mem_ids : id ∈ c.ids ↔ (c.enabled.get id).isSome :=
  (get_isSome_iff _).symm

theorem lt_free (h : id ∈ c.ids) : id < c.peekFreeId := c.storage.lt_free false id h

theorem ids_nodup : c.ids.Nodup := (keys_increasing _).nodup

theorem get_add (testcase : T) (id : CorpusId) : (c.add testcase).2.enabled.get id =
    if id = c.peekFreeId then some testcase else c.enabled.get id :=
  get_insert _ _ _ _

theorem get_new (testcase : T) : (c.add testcase).2.get c.peekFreeId = .ok testcase := by
  rw [InMemoryCorpus.get, get_add, if_pos rfl]

theorem get_modify (f : T → T) (j : CorpusId) : (c.modify id f).enabled.get j =
    if j = id then (c.enabled.get j).map f else c.enabled.get j := by
  unfold modify
  cases h : c.enabled.get id with
  | none =>
    split_ifs with hj
    · rw [hj, h]
      rfl
    · rfl
  | some old =>
    refine (get_replace _ _ _ _).trans ?_
    split_ifs with hj
    · subst hj
      rw [show (c.storage.map false).get j = some old from h, h]
      rfl
    · rfl

theorem get_remove {c' : InMemoryCorpus T} {old : T} (h : c.remove id = .ok (old, c'))
    (j : CorpusId) :
    c'.enabled.get j = if j = id then none else c.enabled.get j := by
  unfold remove at h
  cases henabled : c.enabled.get id with
  | some testcase =>
    rw [henabled] at h
    cases h
    exact get_erase _ _ _
  | none =>
    -- a disabled entry goes, so that the enabled ones stay as they are
    rw [henabled] at h
    have hsame : c'.enabled = c.enabled := by
      cases hdisabled : (c.storage.map true).get id with
      | some testcase => rw [hdisabled] at h; cases h; rfl
      | none => rw [hdisabled] at h; cases h
    rw [hsame]
    split_ifs with hj
    · rw [hj, henabled]
    · rfl

theorem get_replaced {c' : InMemoryCorpus T} {old testcase : T}
    (h : c.replace id testcase = .ok (old, c')) (j : CorpusId) :
    c'.enabled.get j = if j = id then some testcase else c.enabled.get j := by
  unfold replace at h
  cases henabled : c.enabled.get id with
  | none => rw [henabled] at h; cases h
  | some old =>
    rw [henabled] at h
    cases h
    refine (get_replace _ _ _ _).trans ?_
    split_ifs with hj
    · rw [hj, show (c.storage.map false).get id = some old from henabled]
      rfl
    · rfl

theorem ids_modify (f : T → T) : (c.modify id f).ids = c.ids := by
  unfold modify
  cases c.enabled.get id with
  | none => rfl
  | some old => exact keys_replace _ _ _

end InMemoryCorpus

end Bofuzz
