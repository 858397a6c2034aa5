import Bofuzz.Error
import Bofuzz.Lib.SortedMap
import Mathlib.Data.List.AList
import Mathlib.Data.List.TakeWhile

/-! The storage of the corpus (`libafl/src/corpus/inmemory.rs`).

    A `TestcaseStorageMap` exists in two compile-time variants: a hash map whose items are linked in
    the order of their ids, and a B-tree map that is asked for ranges. Both keep a sorted vector of
    the keys beside the map. `StorageMap` lists the operations, `Represents` says that a variant
    holds the entries of a `SortedMap`, and every operation of either variant does to those entries
    what the sorted map does. -/

namespace Bofuzz.Storage
open SortedKeys List Option AList

/-! ### The vector of keys -/

variable (keys : List CorpusId) (id : CorpusId)

/-- `Vec::binary_search` on a sorted vector: where the id is, or where it belongs. -/
def binarySearch : Except ℕ ℕ :=
  let idx := (keys.takeWhile (· < id)).length
  if keys[idx]? = some id then .ok idx else .error idx

/-- `insert_key`. -/
def insertKey : List CorpusId :=
  match binarySearch keys id with
  | .ok _ => keys
  | .error idx => keys.insertIdx idx id

/-- `remove_key`. -/
def removeKey : List CorpusId :=
  match binarySearch keys id with
  | .ok idx => keys.eraseIdx idx
  | .error _ => keys

variable {keys id}

theorem insertKey_of_lt (h : ∀ k ∈ keys, k < id) : insertKey keys id = keys ++ [id] := by
  have htake : keys.takeWhile (· < id) = keys := takeWhile_eq_self_iff.mpr (by simpa using h)
  simp [insertKey, binarySearch, htake]

theorem removeKey_eq_erase (h : Increasing keys) : removeKey keys id = keys.erase id := by
  by_cases hid : id ∈ keys
  · obtain ⟨pre, post, rfl⟩ := append_of_mem hid
    obtain ⟨_, _, hpre⟩ := pairwise_append.mp h
    have hlt : ∀ k ∈ pre, k < id := fun k hk => hpre k hk id mem_cons_self
    have hnot : id ∉ pre := fun hmem => lt_irrefl id (hlt id hmem)
    have htake : (pre ++ id :: post).takeWhile (· < id) = pre := by
      rw [takeWhile_append_of_pos (by simpa using hlt), takeWhile_cons_of_neg (by simp), append_nil]
    simp only [removeKey, binarySearch, htake, getElem?_append_right le_rfl, Nat.sub_self,
      getElem?_cons_zero, if_true]
    rw [eraseIdx_append_of_length_le le_rfl, Nat.sub_self, eraseIdx_cons_zero,
      erase_append_right _ hnot, erase_cons_head]
  · have hno : ¬ keys[(keys.takeWhile (· < id)).length]? = some id := fun hsome =>
      hid (mem_of_getElem? hsome)
    rw [erase_of_not_mem hid]
    simp only [removeKey, binarySearch, if_neg hno]

/-! ### The operations -/

/-- The operations of a variant of `TestcaseStorageMap`; a relinking that meets a missing entry
    panics. -/
class StorageMap (M : Type → Type) where
  new {T : Type} : M T
  /-- What `insert_inner` does to the map it selects. -/
  insert {T : Type} : M T → CorpusId → T → Except Error (M T)
  remove {T : Type} : M T → CorpusId → Except Error (Option T × M T)
  replace {T : Type} : M T → CorpusId → T → Option T × M T
  get {T : Type} : M T → CorpusId → Option T
  next {T : Type} : M T → CorpusId → Option CorpusId
  prev {T : Type} : M T → CorpusId → Option CorpusId
  first {T : Type} : M T → Option CorpusId
  last {T : Type} : M T → Option CorpusId
  keys {T : Type} : M T → List CorpusId
  /-- The keys and the number of entries of the map itself. -/
  mapKeys {T : Type} : M T → List CorpusId

/-! ### Linked entries in a hash map -/

structure TestcaseStorageItem (T : Type) where
  testcase : T
  prev : Option CorpusId
  next : Option CorpusId

abbrev ItemMap (T : Type) := AList fun _ : CorpusId => TestcaseStorageItem T

structure LinkedMap (T : Type) where
  map : ItemMap T := ∅
  keys : List CorpusId := []
  firstId : Option CorpusId := none
  lastId : Option CorpusId := none

namespace LinkedMap
variable {T : Type} (map : ItemMap T)

/-- `self.map.get_mut(&id).unwrap()`, written to. -/
def modify (id : CorpusId) (f : TestcaseStorageItem T → TestcaseStorageItem T) :
    Except Error (ItemMap T) :=
  match map.lookup id with
  | some item => .ok (map.insert id (f item))
  | none => .error .unwrapPanic

/-- Write to a neighbour, if there is one. -/
def relink (neighbour : Option CorpusId) (f : TestcaseStorageItem T → TestcaseStorageItem T) :
    Except Error (ItemMap T) :=
  match neighbour with
  | some id => modify map id f
  | none => .ok map

def setNext (prev next : Option CorpusId) : Except Error (ItemMap T) :=
  relink map prev fun item => { item with next }

def setPrev (next prev : Option CorpusId) : Except Error (ItemMap T) :=
  relink map next fun item => { item with prev }

variable (m : LinkedMap T) (id : CorpusId) (testcase : T)

def insert : Except Error (LinkedMap T) := do
  let prev := m.lastId
  let map ← setNext m.map prev (some id)
  let firstId := if m.firstId.isNone then some id else m.firstId
  pure { map := map.insert id { testcase, prev, next := none }
         keys := insertKey m.keys id
         firstId
         lastId := some id }

def remove : Except Error (Option T × LinkedMap T) :=
  match m.map.lookup id with
  | none => .ok (none, m)
  | some item => do
    let map := m.map.erase id
    let keys := removeKey m.keys id
    let map ← setNext map item.prev item.next
    let firstId := if item.prev.isNone then item.next else m.firstId
    let map ← setPrev map item.next item.prev
    let lastId := if item.next.isNone then item.prev else m.lastId
    pure (some item.testcase, { map, keys, firstId, lastId })

def replace : Option T × LinkedMap T :=
  match m.map.lookup id with
  | some entry => (some entry.testcase, { m with map := m.map.insert id { entry with testcase } })
  | none => (none, m)

instance : StorageMap LinkedMap where
  new := {}
  insert := insert
  remove := remove
  replace := replace
  get m id := (m.map.lookup id).map (·.testcase)
  next m id := (m.map.lookup id).bind (·.next)
  prev m id := (m.map.lookup id).bind (·.prev)
  first m := m.firstId
  last m := m.lastId
  keys m := m.keys
  mapKeys m := m.map.keys

end LinkedMap

/-! ### Entries in a B-tree map -/

structure BTreeStorageMap (T : Type) where
  map : SortedMap CorpusId T := .empty
  keys : List CorpusId := []

namespace BTreeStorageMap
variable {T : Type}

/-- The ids of `map.range(id..)`. -/
def rangeFrom (m : BTreeStorageMap T) (id : CorpusId) : List CorpusId := m.map.keys.filter (id ≤ ·)

/-- The ids of `map.range(..=id)`, from the back. -/
def rangeTo (m : BTreeStorageMap T) (id : CorpusId) : List CorpusId :=
  (m.map.keys.filter (· ≤ id)).reverse

/-- The second id of a range that starts with the given one. -/
def second (id : CorpusId) : List CorpusId → Option CorpusId
  | [] => none
  | thisId :: range => if id ≠ thisId then none else range.head?

instance : StorageMap BTreeStorageMap where
  new := {}
  insert m id testcase := .ok { map := m.map.insert id testcase, keys := insertKey m.keys id }
  remove m id := .ok (m.map.get id, { map := m.map.erase id, keys := removeKey m.keys id })
  replace m id testcase := (m.map.get id, { m with map := m.map.replace id testcase })
  get m id := m.map.get id
  next m id := second id (m.rangeFrom id)
  prev m id := second id (m.rangeTo id)
  first m := m.map.keys.head?
  last m := m.map.keys.getLast?
  keys m := m.keys
  mapKeys m := m.map.keys

end BTreeStorageMap

/-! ### What a variant holds -/

/-- All queries of a variant answer what the sorted map says. -/
structure Answers {M : Type → Type} [StorageMap M] {T : Type} (m : M T) (s : SortedMap CorpusId T) :
    Prop where
  get : ∀ id, StorageMap.get m id = s.get id
  next : ∀ id, StorageMap.next m id = after s.keys id
  prev : ∀ id, StorageMap.prev m id = before s.keys id
  first : StorageMap.first m = s.keys.head?
  last : StorageMap.last m = s.keys.getLast?
  keys : StorageMap.keys m = s.keys
  mapKeys : (StorageMap.mapKeys m).Perm s.keys

/-- A variant in which the entries of a sorted map can be represented, and whose operations do to
    them what the sorted map does. Ids are only ever appended. -/
class LawfulStorageMap (M : Type → Type) [StorageMap M] where
  Represents {T : Type} : M T → SortedMap CorpusId T → Prop
  new {T : Type} : Represents (StorageMap.new : M T) .empty
  insert {T : Type} {m : M T} {s : SortedMap CorpusId T} {id : CorpusId} (testcase : T) :
    Represents m s → (∀ k ∈ s.keys, k < id) →
      ∃ m', StorageMap.insert m id testcase = .ok m' ∧ Represents m' (s.insert id testcase)
  remove {T : Type} {m : M T} {s : SortedMap CorpusId T} (id : CorpusId) : Represents m s →
    ∃ m', StorageMap.remove m id = .ok (s.get id, m') ∧ Represents m' (s.erase id)
  replace {T : Type} {m : M T} {s : SortedMap CorpusId T} (id : CorpusId) (testcase : T) :
    Represents m s → ∃ m', StorageMap.replace m id testcase = (s.get id, m') ∧
      Represents m' (s.replace id testcase)
  answers {T : Type} {m : M T} {s : SortedMap CorpusId T} : Represents m s → Answers m s

/-! ### The linked variant -/

namespace LinkedMap
variable {T : Type} {m : LinkedMap T} {s : SortedMap CorpusId T}

/-- The entry of an id together with its neighbours. -/
def item (s : SortedMap CorpusId T) (id : CorpusId) : Option (TestcaseStorageItem T) :=
  (s.get id).map fun testcase => { testcase, prev := before s.keys id, next := after s.keys id }

structure Represents (m : LinkedMap T) (s : SortedMap CorpusId T) : Prop where
  map : ∀ id, m.map.lookup id = item s id
  keys : m.keys = s.keys
  firstId : m.firstId = s.keys.head?
  lastId : m.lastId = s.keys.getLast?

/-- Relinking reaches exactly the neighbour. -/
theorem relink_spec {map : ItemMap T} {neighbour : Option CorpusId}
    (h : ∀ n, neighbour = some n → (map.lookup n).isSome)
    (f : TestcaseStorageItem T → TestcaseStorageItem T) :
    ∃ map', relink map neighbour f = .ok map' ∧ ∀ j, map'.lookup j =
      if neighbour = some j then (map.lookup j).map f else map.lookup j := by
  cases neighbour with
  | none => exact ⟨map, rfl, fun j => by simp⟩
  | some n =>
    obtain ⟨i, hi⟩ := isSome_iff_exists.mp (h n rfl)
    refine ⟨map.insert n (f i), by rw [relink, modify, hi], fun j => ?_⟩
    by_cases hj : j = n
    · subst hj
      rw [lookup_insert, if_pos rfl, hi, map_some]
    · rw [lookup_insert_ne hj, if_neg fun heq => hj (Option.some.inj heq).symm]

theorem item_isSome : (item s id).isSome ↔ id ∈ s.keys := by
  rw [item, isSome_map, s.get_isSome_iff]

theorem insert_represents (h : Represents m s) (hid : ∀ k ∈ s.keys, k < id) (testcase : T) :
    ∃ m', m.insert id testcase = .ok m' ∧ Represents m' (s.insert id testcase) := by
  have hinc := s.keys_increasing
  have hlast : ∀ p, m.lastId = some p → (m.map.lookup p).isSome := by
    intro p hp
    rw [h.lastId, getLast?_eq_some_iff hinc] at hp
    rw [h.map, item_isSome]
    exact hp.1
  obtain ⟨map', hmap', hlookup⟩ := relink_spec hlast fun i => { i with next := some id }
  refine ⟨_, by rw [insert, setNext, hmap']; rfl, ?_, ?_, ?_, ?_⟩
  · intro j
    rw [item, s.keys_insert_of_lt testcase hid, s.get_insert, after_concat hinc hid, before_concat hinc hid]
    by_cases hj : j = id
    · subst hj
      have hno : j ∉ s.keys := fun hmem => lt_irrefl j (hid j hmem)
      have hne : s.keys.getLast? ≠ some j := fun heq =>
        hno ((getLast?_eq_some_iff hinc).mp heq).1
      rw [lookup_insert, if_pos rfl, if_pos rfl, if_neg hne, after_of_notMem hno, h.lastId, map_some]
    · rw [lookup_insert_ne hj, hlookup, if_neg hj, if_neg hj, h.lastId, h.map, item]
      split_ifs
      · rw [Option.map_map]
        rfl
      · rfl
  · rw [h.keys, insertKey_of_lt hid, s.keys_insert_of_lt testcase hid]
  · rw [s.keys_insert_of_lt testcase hid, h.firstId]
    cases s.keys <;> rfl
  · rw [s.keys_insert_of_lt testcase hid, getLast?_concat]

theorem remove_represents (h : Represents m s) (id : CorpusId) :
    ∃ m', m.remove id = .ok (s.get id, m') ∧ Represents m' (s.erase id) := by
  have hinc := s.keys_increasing
  have hitem := h.map id
  cases hget : s.get id with
  | none =>
    rw [item, hget, map_none] at hitem
    refine ⟨m, by rw [remove, hitem], ?_⟩
    rw [s.erase_of_notMem (s.get_eq_none_iff.mp hget)]
    exact h
  | some testcase =>
    have hid : id ∈ s.keys := s.get_isSome_iff.mp (by rw [hget]; rfl)
    rw [item, hget, map_some] at hitem
    have herase : ∀ j, (m.map.erase id).lookup j = if j = id then none else item s j := by
      intro j
      split_ifs with hj
      · rw [hj, lookup_erase]
      · rw [lookup_erase_ne hj, h.map]
    -- the neighbours are still there when they are relinked
    have hprev : ∀ p, before s.keys id = some p → ((m.map.erase id).lookup p).isSome := by
      intro p hp
      obtain ⟨hmem, _, hlt, _⟩ := (before_eq_some_iff hinc).mp hp
      rw [herase, if_neg hlt.ne, item_isSome]
      exact hmem
    obtain ⟨map₁, hmap₁, hlookup₁⟩ := relink_spec hprev fun i => { i with next := after s.keys id }
    have hnext : ∀ n, after s.keys id = some n → (map₁.lookup n).isSome := by
      intro n hn
      obtain ⟨_, hmem, hlt, _⟩ := (after_eq_some_iff hinc).mp hn
      rw [hlookup₁, herase, if_neg hlt.ne']
      split_ifs
      · rw [isSome_map, item_isSome]
        exact hmem
      · rw [item_isSome]
        exact hmem
    obtain ⟨map₂, hmap₂, hlookup₂⟩ := relink_spec hnext fun i => { i with prev := before s.keys id }
    refine ⟨_, by simp only [remove, hitem, setNext, setPrev, hmap₁, hmap₂, bind, Except.bind]; rfl,
      ?_, ?_, ?_, ?_⟩
    · intro j
      rw [hlookup₂, hlookup₁, herase]
      simp only [item, s.get_erase, s.keys_erase, after_erase hinc, before_erase hinc]
      by_cases hj : j = id
      · simp [hj]
      · simp only [hj, if_false]
        cases s.get j <;> split_ifs <;> rfl
    · rw [h.keys, removeKey_eq_erase hinc, s.keys_erase]
    · rw [h.firstId, s.keys_erase, head?_erase hinc hid]
      cases before s.keys id <;> rfl
    · rw [h.lastId, s.keys_erase, getLast?_erase hinc hid]
      cases after s.keys id <;> rfl

theorem replace_represents (h : Represents m s) (id : CorpusId) (testcase : T) :
    ∃ m', m.replace id testcase = (s.get id, m') ∧ Represents m' (s.replace id testcase) := by
  have hitem := h.map id
  cases hget : s.get id with
  | none =>
    rw [item, hget, map_none] at hitem
    refine ⟨m, by rw [replace, hitem], ?_⟩
    rw [s.replace_of_notMem (s.get_eq_none_iff.mp hget)]
    exact h
  | some old =>
    rw [item, hget, map_some] at hitem
    refine ⟨_, by rw [replace, hitem], ?_, ?_, ?_, ?_⟩
    · intro j
      rw [item, s.get_replace, s.keys_replace]
      by_cases hj : j = id
      · subst hj
        rw [lookup_insert, if_pos rfl, hget]
        rfl
      · rw [lookup_insert_ne hj, if_neg hj, h.map, item]
    · rw [s.keys_replace]
      exact h.keys
    · rw [s.keys_replace]
      exact h.firstId
    · rw [s.keys_replace]
      exact h.lastId

theorem represents_answers (h : Represents m s) : Answers m s := by
  refine ⟨fun id => ?_, fun id => ?_, fun id => ?_, h.firstId, h.lastId, h.keys, ?_⟩
  · show (m.map.lookup id).map (·.testcase) = s.get id
    rw [h.map, item, Option.map_map]
    exact Option.map_id'
  · show (m.map.lookup id).bind (·.next) = after s.keys id
    rw [h.map, item]
    cases hget : s.get id with
    | none => rw [after_of_notMem (s.get_eq_none_iff.mp hget)]; rfl
    | some _ => rfl
  · show (m.map.lookup id).bind (·.prev) = before s.keys id
    rw [h.map, item]
    cases hget : s.get id with
    | none => rw [before_of_notMem (s.get_eq_none_iff.mp hget)]; rfl
    | some _ => rfl
  · refine (perm_ext_iff_of_nodup m.map.keys_nodup s.keys_increasing.nodup).mpr fun id => ?_
    rw [← item_isSome, ← h.map, lookup_isSome]
    exact mem_keys.symm

instance : LawfulStorageMap LinkedMap where
  Represents := Represents
  new := ⟨fun _ => rfl, rfl, rfl, rfl⟩
  insert testcase h hid := insert_represents h hid testcase
  remove id h := remove_represents h id
  replace id testcase h := replace_represents h id testcase
  answers := represents_answers

end LinkedMap

/-! ### The B-tree variant -/

namespace BTreeStorageMap
variable {T : Type} {m : BTreeStorageMap T} {s : SortedMap CorpusId T}

theorem second_of_notMem {range : List CorpusId} (h : id ∉ range) : second id range = none := by
  cases range with
  | nil => rfl
  | cons x range => exact if_pos fun hid : id = x => h (hid ▸ mem_cons_self)

theorem second_rangeFrom (m : BTreeStorageMap T) (id : CorpusId) :
    second id (m.rangeFrom id) = after m.map.keys id := by
  unfold rangeFrom
  by_cases hid : id ∈ m.map.keys
  · have hinc := m.map.keys_increasing
    obtain ⟨pre, post, hkeys⟩ := append_of_mem hid
    rw [hkeys] at hinc ⊢
    obtain ⟨hpre, hpost⟩ := lt_of_append hinc
    have hpre' : pre.filter (id ≤ ·) = [] := by simpa using hpre
    rw [after_append hinc rfl, filter_append, hpre', filter_cons_of_pos (by simp),
      filter_eq_self.mpr (by simpa using fun i hi => (hpost i hi).le), nil_append, second,
      if_neg (not_not.mpr rfl)]
  · rw [after_of_notMem hid, second_of_notMem fun hmem => hid (mem_of_mem_filter hmem)]

theorem second_rangeTo (m : BTreeStorageMap T) (id : CorpusId) :
    second id (m.rangeTo id) = before m.map.keys id := by
  unfold rangeTo
  by_cases hid : id ∈ m.map.keys
  · have hinc := m.map.keys_increasing
    obtain ⟨pre, post, hkeys⟩ := append_of_mem hid
    rw [hkeys] at hinc ⊢
    obtain ⟨hpre, hpost⟩ := lt_of_append hinc
    have hpost' : post.filter (· ≤ id) = [] := by simpa using hpost
    rw [before_append hinc rfl, filter_append, filter_cons_of_pos (by simp), hpost',
      filter_eq_self.mpr (by simpa using fun i hi => (hpre i hi).le), reverse_append,
      reverse_singleton, singleton_append, second, if_neg (not_not.mpr rfl),
      head?_reverse]
  · rw [before_of_notMem hid, second_of_notMem]
    exact fun hmem => hid (mem_of_mem_filter (mem_reverse.mp hmem))

structure Represents (m : BTreeStorageMap T) (s : SortedMap CorpusId T) : Prop where
  map : m.map = s
  keys : m.keys = s.keys

instance : LawfulStorageMap BTreeStorageMap where
  Represents := Represents
  new := ⟨rfl, rfl⟩
  insert testcase h hid := by
    refine ⟨_, rfl, by rw [h.map], ?_⟩
    rw [h.keys, insertKey_of_lt hid, SortedMap.keys_insert_of_lt _ testcase hid]
  remove id h := by
    refine ⟨_, by rw [← h.map]; rfl, by rw [h.map], ?_⟩
    rw [h.keys, removeKey_eq_erase (SortedMap.keys_increasing _), SortedMap.keys_erase]
  replace id testcase h := by
    refine ⟨_, by rw [← h.map]; rfl, by rw [h.map], ?_⟩
    rw [SortedMap.keys_replace]
    exact h.keys
  answers h := by
    obtain ⟨rfl, hkeys⟩ := h
    exact ⟨fun _ => rfl, second_rangeFrom _, second_rangeTo _, rfl, rfl, hkeys, .refl _⟩

end BTreeStorageMap

end Bofuzz.Storage
