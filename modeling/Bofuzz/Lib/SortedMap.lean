import Mathlib.Order.Lattice
import Mathlib.Data.List.Induction

/-! Finite maps with ordered keys.

    The keys of such a map are a strictly increasing list. Two of them are adjacent if no key lies
    between them; `after` and `before` give the adjacent keys, and how they change when a key is
    appended or erased is what a doubly linked list has to update. `follow` walks from key to
    key. -/

namespace SortedKeys
open List

variable {κ : Type*} [LinearOrder κ] (ks : List κ)

def Increasing : Prop := ks.Pairwise (· < ·)

/-- `j` is the next key after `k`. -/
def Adjacent (k j : κ) : Prop := k ∈ ks ∧ j ∈ ks ∧ k < j ∧ ∀ i ∈ ks, i ≤ k ∨ j ≤ i

def after (k : κ) : Option κ := if k ∈ ks then ks.find? (k < ·) else none

def before (k : κ) : Option κ := if k ∈ ks then (ks.filter (· < k)).getLast? else none

/-- The keys met from `start` on, `next` leading from one to the next. -/
def follow (next : κ → Option κ) : ℕ → Option κ → List κ
  | 0, _ => []
  | _, none => []
  | fuel + 1, some k => k :: follow next fuel (next k)

variable {ks pre post : List κ} {k j id : κ}

theorem after_of_notMem (h : k ∉ ks) : after ks k = none := if_neg h

theorem before_of_notMem (h : k ∉ ks) : before ks k = none := if_neg h

/-- A key in the middle of the list, with the keys on its two sides. -/
theorem lt_of_append (h : Increasing (pre ++ k :: post)) :
    (∀ i ∈ pre, i < k) ∧ ∀ i ∈ post, k < i := by
  obtain ⟨_, hpost, hpre⟩ := pairwise_append.mp h
  exact ⟨fun i hi => hpre i hi k mem_cons_self, (pairwise_cons.mp hpost).1⟩

theorem erase_append (h : Increasing (pre ++ id :: post)) :
    (pre ++ id :: post).erase id = pre ++ post := by
  have hpre : id ∉ pre := fun hmem => lt_irrefl id ((lt_of_append h).1 id hmem)
  rw [erase_append_right _ hpre, erase_cons_head]

section
variable (h : Increasing ks)
include h

theorem Increasing.nodup : ks.Nodup := h.imp ne_of_lt

theorem head?_eq_some_iff : ks.head? = some k ↔ k ∈ ks ∧ ∀ i ∈ ks, k ≤ i := by
  cases ks with
  | nil => simp
  | cons x xs =>
    obtain ⟨hx, _⟩ := pairwise_cons.mp h
    rw [head?_cons, Option.some.injEq]
    constructor
    · rintro rfl
      exact ⟨mem_cons_self, forall_mem_cons.mpr ⟨le_rfl, fun i hi => (hx i hi).le⟩⟩
    · rintro ⟨hk, hle⟩
      rcases mem_cons.mp hk with rfl | hk
      · rfl
      · exact absurd (hle x mem_cons_self) (not_le.mpr (hx k hk))

theorem getLast?_eq_some_iff : ks.getLast? = some k ↔ k ∈ ks ∧ ∀ i ∈ ks, i ≤ k := by
  induction ks using reverseRecOn with
  | nil => simp
  | append_singleton xs x _ =>
    obtain ⟨_, _, hx⟩ := pairwise_append.mp h
    have hx : ∀ i ∈ xs, i < x := fun i hi => hx i hi x mem_cons_self
    rw [getLast?_concat, Option.some.injEq]
    constructor
    · rintro rfl
      exact ⟨by simp, forall_mem_append.mpr ⟨fun i hi => (hx i hi).le, forall_mem_singleton.mpr le_rfl⟩⟩
    · rintro ⟨hk, hle⟩
      rcases mem_append.mp hk with hk | hk
      · exact absurd (hle x (by simp)) (not_le.mpr (hx k hk))
      · exact (mem_singleton.mp hk).symm

theorem Increasing.filter (p : κ → Bool) : Increasing (ks.filter p) :=
  List.Pairwise.filter p h

theorem after_eq_some_iff : after ks k = some j ↔ Adjacent ks k j := by
  unfold after
  split_ifs with hk
  · rw [← head?_filter, head?_eq_some_iff (h.filter _)]
    simp only [mem_filter, decide_eq_true_eq, Adjacent, hk, true_and, and_imp]
    constructor
    · rintro ⟨⟨hj, hlt⟩, hle⟩
      refine ⟨hj, hlt, fun i hi => ?_⟩
      rcases le_or_gt i k with hik | hik
      · exact .inl hik
      · exact .inr (hle i hi hik)
    · rintro ⟨hj, hlt, hgap⟩
      exact ⟨⟨hj, hlt⟩, fun i hi hik => (hgap i hi).resolve_left (not_le.mpr hik)⟩
  · simp [Adjacent, hk]

theorem before_eq_some_iff : before ks j = some k ↔ Adjacent ks k j := by
  unfold before
  split_ifs with hj
  · rw [getLast?_eq_some_iff (h.filter _)]
    simp only [mem_filter, decide_eq_true_eq, Adjacent, hj, true_and, and_imp]
    constructor
    · rintro ⟨⟨hk, hlt⟩, hle⟩
      refine ⟨hk, hlt, fun i hi => ?_⟩
      rcases le_or_gt j i with hij | hij
      · exact .inr hij
      · exact .inl (hle i hi hij)
    · rintro ⟨hk, hlt, hgap⟩
      exact ⟨⟨hk, hlt⟩, fun i hi hij => (hgap i hi).resolve_right (not_le.mpr hij)⟩
  · simp [Adjacent, hj]

theorem after_iff_before : after ks k = some j ↔ before ks j = some k := by
  rw [after_eq_some_iff h, before_eq_some_iff h]

/-! ### Appending and erasing a key -/

theorem after_append (hks : ks = pre ++ k :: post) : after ks k = post.head? := by
  subst hks
  obtain ⟨hpre, hpost⟩ := lt_of_append h
  have hnone : pre.find? (k < ·) = none := by
    simpa using fun i hi => (hpre i hi).le
  rw [after, if_pos (by simp), find?_append, hnone, Option.none_or, find?_cons_of_neg (by simp)]
  cases post with
  | nil => rfl
  | cons y post => rw [find?_cons_of_pos (by simpa using hpost y mem_cons_self), head?_cons]

theorem before_append (hks : ks = pre ++ k :: post) : before ks k = pre.getLast? := by
  subst hks
  obtain ⟨hpre, hpost⟩ := lt_of_append h
  have hpost' : post.filter (· < k) = [] := by
    simpa using fun i hi => (hpost i hi).le
  rw [before, if_pos (by simp), filter_append, filter_eq_self.mpr (by simpa using hpre),
    filter_cons_of_neg (by simp), hpost', append_nil]

theorem increasing_concat (hid : ∀ i ∈ ks, i < id) : Increasing (ks ++ [id]) :=
  pairwise_append.mpr ⟨h, pairwise_singleton _ _, fun i hi _ hj =>
    mem_singleton.mp hj ▸ hid i hi⟩

theorem Increasing.erase (id : κ) : Increasing (ks.erase id) :=
  h.sublist erase_sublist

theorem after_concat (hid : ∀ i ∈ ks, i < id) :
    after (ks ++ [id]) k = if ks.getLast? = some k then some id else after ks k := by
  have hinc := increasing_concat h hid
  split_ifs with hlast
  · obtain ⟨pre, rfl⟩ := List.getLast?_eq_some_iff.mp hlast
    exact after_append hinc (append_assoc ..)
  by_cases hk : k ∈ ks
  · obtain ⟨pre, post, hks⟩ := append_of_mem hk
    rw [after_append h hks, after_append hinc (show _ = pre ++ k :: (post ++ [id]) by simp [hks])]
    cases post with
    | nil => simp [hks] at hlast
    | cons y post => rfl
  · rw [after_of_notMem hk, after]
    simp only [mem_append, hk, false_or, mem_singleton, ite_eq_right_iff]
    rintro rfl
    simpa using fun i hi => (hid i hi).le

theorem before_concat (hid : ∀ i ∈ ks, i < id) :
    before (ks ++ [id]) j = if j = id then ks.getLast? else before ks j := by
  have hinc := increasing_concat h hid
  split_ifs with hj
  · subst hj
    exact before_append hinc rfl
  by_cases hmem : j ∈ ks
  · obtain ⟨pre, post, hks⟩ := append_of_mem hmem
    rw [before_append h hks, before_append hinc (show _ = pre ++ j :: (post ++ [id]) by simp [hks])]
  · rw [before_of_notMem hmem, before_of_notMem (by simp [hmem, hj])]

/-- Without `id` the key before it leads to the key after it. -/
theorem after_erase : after (ks.erase id) k =
    if k = id then none else if before ks id = some k then after ks id else after ks k := by
  by_cases hid : id ∈ ks
  swap
  · rw [erase_of_not_mem hid, before_of_notMem hid]
    rw [if_neg (Option.some_ne_none k).symm]
    split_ifs with hk
    · exact hk ▸ after_of_notMem hid
    · rfl
  obtain ⟨pre, post, rfl⟩ := append_of_mem hid
  have hinc := h.erase id
  rw [before_append h rfl, after_append h rfl]
  split_ifs with hk hlast
  · rw [hk]
    exact after_of_notMem h.nodup.not_mem_erase
  · rw [erase_append h] at hinc ⊢
    obtain ⟨pre, rfl⟩ := List.getLast?_eq_some_iff.mp hlast
    exact after_append hinc (append_assoc ..)
  by_cases hmem : k ∈ pre ++ id :: post
  swap
  · rw [after_of_notMem hmem, after_of_notMem fun hmem' => hmem (mem_of_mem_erase hmem')]
  rw [erase_append h] at hinc ⊢
  rcases mem_append.mp hmem with hmem | hmem
  · obtain ⟨before, between, rfl⟩ := append_of_mem hmem
    rw [after_append h (append_assoc ..), after_append hinc (append_assoc ..)]
    cases between with
    | nil => simp at hlast
    | cons y between => rfl
  · obtain ⟨between, after, rfl⟩ := append_of_mem ((mem_cons.mp hmem).resolve_left hk)
    rw [after_append h (append_assoc pre (id :: between) _).symm, after_append hinc (append_assoc ..).symm]

theorem before_erase : before (ks.erase id) j =
    if j = id then none else if after ks id = some j then before ks id else before ks j := by
  refine Option.ext fun k => ?_
  rw [← after_iff_before (h.erase id), after_erase h]
  have hkj := after_iff_before h (k := k) (j := j)
  have hki := after_iff_before h (k := k) (j := id)
  have hij := after_iff_before h (k := id) (j := j)
  grind

/-- Without `id` the first key is the one after it, if `id` was the first. -/
theorem head?_erase (hid : id ∈ ks) :
    (ks.erase id).head? = if before ks id = none then after ks id else ks.head? := by
  obtain ⟨pre, post, rfl⟩ := append_of_mem hid
  rw [erase_append h, before_append h rfl, after_append h rfl]
  cases pre with
  | nil => rfl
  | cons x pre => simp

theorem getLast?_erase (hid : id ∈ ks) :
    (ks.erase id).getLast? = if after ks id = none then before ks id else ks.getLast? := by
  obtain ⟨pre, post, rfl⟩ := append_of_mem hid
  rw [erase_append h, before_append h rfl, after_append h rfl]
  cases post with
  | nil | cons => simp

/-! ### Walking along the keys -/

/-- Following `after` from the first key visits the keys in their order, and then ends. -/
theorem follow_after {fuel : ℕ} (hfuel : ks.length ≤ fuel) :
    follow (after ks) fuel ks.head? = ks := by
  -- the walk from any suffix gives that suffix
  suffices hsuffix : ∀ (pre post : List κ), ks = pre ++ post → ∀ fuel, post.length ≤ fuel →
      follow (after ks) fuel post.head? = post from hsuffix [] ks rfl fuel hfuel
  intro pre post
  induction post generalizing pre with
  | nil =>
    intro _ fuel _
    cases fuel <;> rfl
  | cons x post ih =>
    intro hks fuel hfuel
    cases fuel with
    | zero => simp at hfuel
    | succ fuel =>
      rw [head?_cons, follow, after_append h hks, ih (pre ++ [x]) (by rw [hks]; simp) fuel (by simpa using hfuel)]

end

end SortedKeys

open SortedKeys

/-- A finite map, its entries in the order of their keys. -/
@[ext] structure SortedMap (κ : Type) (α : Type) [LinearOrder κ] where
  entries : List (κ × α)
  increasing : Increasing (entries.map Prod.fst)

namespace SortedMap
open List

variable {κ α : Type} [LinearOrder κ]

def empty : SortedMap κ α := ⟨[], Pairwise.nil⟩

variable (m : SortedMap κ α)

def keys : List κ := m.entries.map Prod.fst

def get (k : κ) : Option α := m.entries.lookup k

/-- Insert an entry in its place; an entry with the same key is replaced. -/
def insertEntry (k : κ) (v : α) : List (κ × α) → List (κ × α)
  | [] => [(k, v)]
  | e :: es =>
    if k < e.1 then (k, v) :: e :: es
    else if k = e.1 then (k, v) :: es
    else e :: insertEntry k v es

variable {k : κ}

theorem mem_keys_insertEntry {v : α} {j : κ} : ∀ {es : List (κ × α)},
    j ∈ (insertEntry k v es).map Prod.fst ↔ j = k ∨ j ∈ es.map Prod.fst
  | [] => by simp [insertEntry]
  | e :: es => by
    have ih : j ∈ (insertEntry k v es).map Prod.fst ↔ j = k ∨ j ∈ es.map Prod.fst :=
      mem_keys_insertEntry
    unfold insertEntry
    split_ifs with hlt heq
    · simp
    · simp [heq]
    · rw [map_cons, mem_cons, ih, map_cons, mem_cons]
      tauto

theorem insertEntry_increasing (k : κ) (v : α) : ∀ {es : List (κ × α)},
    Increasing (es.map Prod.fst) → Increasing ((insertEntry k v es).map Prod.fst)
  | [], _ => pairwise_singleton _ _
  | e :: es, h => by
    obtain ⟨he, hes⟩ := pairwise_cons.mp h
    unfold insertEntry
    split_ifs with hlt heq
    · exact pairwise_cons.mpr ⟨forall_mem_cons.mpr ⟨hlt, fun j hj => hlt.trans (he j hj)⟩, h⟩
    · exact pairwise_cons.mpr ⟨fun j hj => heq ▸ he j hj, hes⟩
    · refine pairwise_cons.mpr ⟨fun j hj => ?_, insertEntry_increasing k v hes⟩
      rcases mem_keys_insertEntry.mp hj with rfl | hj
      · exact lt_of_le_of_ne (not_lt.mp hlt) (Ne.symm heq)
      · exact he j hj

def insert (k : κ) (v : α) : SortedMap κ α :=
  ⟨insertEntry k v m.entries, insertEntry_increasing k v m.increasing⟩

def erase (k : κ) : SortedMap κ α where
  entries := m.entries.filter fun e => e.1 ≠ k
  increasing := m.increasing.sublist (filter_sublist.map _)

/-- Put another value in the place of an entry. -/
def replace (k : κ) (v : α) : SortedMap κ α where
  entries := m.entries.map fun e => if e.1 = k then (e.1, v) else e
  increasing := by
    have hkeys : (m.entries.map fun e => if e.1 = k then (e.1, v) else e).map Prod.fst
        = m.entries.map Prod.fst := by
      rw [map_map]
      refine map_congr_left fun e _ => ?_
      by_cases he : e.1 = k <;> simp [he]
    rw [hkeys]
    exact m.increasing

variable (m : SortedMap κ α)

theorem keys_increasing : Increasing m.keys := m.increasing

omit [LinearOrder κ] in
theorem lookup_cons_eq [DecidableEq κ] (e : κ × α) (es : List (κ × α)) (j : κ) :
    (e :: es).lookup j = if j = e.1 then some e.2 else es.lookup j := by
  rw [lookup_cons]
  by_cases hj : j = e.1
  · simp [hj]
  · rw [beq_eq_false_iff_ne.mpr hj, if_neg hj]

theorem get_isSome_iff : (m.get k).isSome ↔ k ∈ m.keys := by
  unfold get keys
  induction m.entries with
  | nil => simp
  | cons e es ih =>
    rw [lookup_cons_eq, map_cons, mem_cons]
    split_ifs with hk
    · simp [hk]
    · simp [hk, ih]

theorem get_eq_none_iff : m.get k = none ↔ k ∉ m.keys := by
  rw [← get_isSome_iff, Option.not_isSome_iff_eq_none]

theorem get_insert (k : κ) (v : α) (j : κ) :
    (m.insert k v).get j = if j = k then some v else m.get j := by
  unfold get insert
  dsimp only
  induction m.entries with
  | nil => rw [insertEntry, lookup_cons_eq]
  | cons e es ih =>
    rw [insertEntry, lookup_cons_eq]
    by_cases hlt : k < e.1
    · rw [if_pos hlt, lookup_cons_eq, lookup_cons_eq]
    rw [if_neg hlt]
    by_cases heq : k = e.1
    · rw [if_pos heq, lookup_cons_eq]
      by_cases hj : j = k
      · rw [if_pos hj, if_pos hj]
      · rw [if_neg hj, if_neg hj, if_neg (heq ▸ hj)]
    · rw [if_neg heq, lookup_cons_eq, ih]
      by_cases hj : j = k
      · rw [if_neg (hj ▸ heq), if_pos hj, if_pos hj]
      · rw [if_neg hj, if_neg hj]

theorem keys_insert_of_lt (v : α) (h : ∀ j ∈ m.keys, j < k) :
    (m.insert k v).keys = m.keys ++ [k] := by
  unfold keys at h
  unfold keys insert
  dsimp only
  revert h
  induction m.entries with
  | nil => intro _; rfl
  | cons e es ih =>
    intro h
    have he : e.1 < k := h e.1 mem_cons_self
    rw [insertEntry, if_neg he.asymm, if_neg he.ne', map_cons, map_cons, cons_append,
      ih fun j hj => h j (.tail _ hj)]

theorem get_erase (k j : κ) : (m.erase k).get j = if j = k then none else m.get j := by
  unfold get erase
  dsimp only
  induction m.entries with
  | nil => simp
  | cons e es ih =>
    by_cases he : e.1 = k
    · rw [filter_cons_of_neg (by simpa using he), ih, lookup_cons_eq]
      split_ifs with hj hje
      · rfl
      · exact absurd (hje.trans he) hj
      · rfl
    · rw [filter_cons_of_pos (by simpa using he), lookup_cons_eq, lookup_cons_eq, ih]
      split_ifs with hje hj hj
      · exact absurd (hje.symm.trans hj) he
      · rfl
      · rfl
      · rfl

theorem keys_erase (k : κ) : (m.erase k).keys = m.keys.erase k := by
  have hnodup : m.keys.Nodup := m.keys_increasing.nodup
  rw [hnodup.erase_eq_filter]
  unfold keys erase
  rw [filter_map]
  congr 1
  refine filter_congr fun e _ => ?_
  by_cases he : e.1 = k <;> simp [he]

theorem erase_of_notMem (h : k ∉ m.keys) : m.erase k = m := by
  refine SortedMap.ext (filter_eq_self.mpr fun e he => ?_)
  exact decide_eq_true fun hek => h (hek ▸ mem_map_of_mem he)

theorem replace_of_notMem (h : k ∉ m.keys) (v : α) : m.replace k v = m := by
  refine SortedMap.ext ?_
  have hsame : ∀ e ∈ m.entries, (if e.1 = k then (e.1, v) else e) = e := fun e he =>
    if_neg fun hek : e.1 = k => h (hek ▸ mem_map_of_mem he)
  exact (map_congr_left hsame).trans (map_id _)

theorem get_replace (k : κ) (v : α) (j : κ) :
    (m.replace k v).get j = if j = k then (m.get j).map fun _ => v else m.get j := by
  unfold get replace
  dsimp only
  induction m.entries with
  | nil => simp
  | cons e es ih =>
    rw [map_cons, lookup_cons_eq, lookup_cons_eq, ih]
    by_cases he : e.1 = k
    · simp only [he, if_true]
      split_ifs <;> rfl
    split_ifs with hje hj hj
    · exact absurd (hje.symm.trans hj) he
    · rfl
    · rfl
    · rfl

theorem keys_replace (k : κ) (v : α) : (m.replace k v).keys = m.keys := by
  unfold keys replace
  rw [map_map]
  refine map_congr_left fun e _ => ?_
  by_cases he : e.1 = k <;> simp [he]

end SortedMap
