import Mathlib.Data.List.TakeWhile

/-! Text as a list of characters: padding and separated fields. -/

namespace Text
open List

variable {α : Type} (p : α → Bool)

/-- Drop the padding at both ends. -/
def strip (cs : List α) : List α := ((cs.dropWhile p).reverse.dropWhile p).reverse

variable {p}

theorem exists_padding (cs : List α) : ∃ before after, (∀ c ∈ before, p c = true) ∧
    (∀ c ∈ after, p c = true) ∧ cs = before ++ strip p cs ++ after := by
  refine ⟨cs.takeWhile p, ((cs.dropWhile p).reverse.takeWhile p).reverse, ?_, ?_, ?_⟩
  · exact fun c hc => mem_takeWhile_imp hc
  · exact fun c hc => mem_takeWhile_imp (mem_reverse.mp hc)
  · rw [strip, append_assoc, ← reverse_append, takeWhile_append_dropWhile,
      reverse_reverse, takeWhile_append_dropWhile]

theorem dropWhile_append_of_head {before cs : List α} (hbefore : ∀ c ∈ before, p c = true)
    (hhead : ∀ c ∈ cs.head?, p c = false) : (before ++ cs).dropWhile p = cs := by
  rw [dropWhile_append_of_pos hbefore]
  cases cs with
  | nil => rfl
  | cons c cs => rw [dropWhile_cons_of_neg (by simp [hhead c rfl])]

/-- Text that starts and ends with no padding is what is left when its padding is dropped. -/
theorem strip_append {before cs after : List α} (hbefore : ∀ c ∈ before, p c = true)
    (hafter : ∀ c ∈ after, p c = true) (hne : cs ≠ []) (hhead : ∀ c ∈ cs.head?, p c = false)
    (hlast : ∀ c ∈ cs.getLast?, p c = false) : strip p (before ++ cs ++ after) = cs := by
  have hhead' : ∀ c ∈ (cs ++ after).head?, p c = false := by
    cases cs with
    | nil => exact absurd rfl hne
    | cons c cs => exact hhead
  rw [strip, append_assoc, dropWhile_append_of_head hbefore hhead', reverse_append,
    dropWhile_append_of_head (by simpa using hafter) (by simpa using hlast), reverse_reverse]

theorem strip_eq_self {cs : List α} (hne : cs ≠ []) (hhead : ∀ c ∈ cs.head?, p c = false)
    (hlast : ∀ c ∈ cs.getLast?, p c = false) : strip p cs = cs := by
  have h : strip p ([] ++ cs ++ []) = cs := strip_append (by simp) (by simp) hne hhead hlast
  rwa [nil_append, append_nil] at h

/-! ### Joined pieces -/

variable {pieces : List (List α)} {sep : List α}

theorem mem_intercalate {c : α} (h : c ∈ sep.intercalate pieces) :
    c ∈ sep ∨ ∃ piece ∈ pieces, c ∈ piece := by
  induction pieces with
  | nil => simp at h
  | cons piece rest ih =>
    by_cases hrest : rest = []
    · rw [hrest, intercalate_singleton] at h
      exact .inr ⟨piece, by simp, h⟩
    rw [intercalate_cons_of_ne_nil hrest, mem_append, mem_append] at h
    obtain (h | h) | h := h
    · exact .inr ⟨piece, by simp, h⟩
    · exact .inl h
    · exact (ih h).imp id fun hpiece => by
        obtain ⟨p, hp, hc⟩ := hpiece
        exact ⟨p, mem_cons_of_mem _ hp, hc⟩

theorem separator_mem_intercalate (h : 2 ≤ pieces.length) {c : α} (hc : c ∈ sep) :
    c ∈ sep.intercalate pieces := by
  obtain _ | ⟨p, _ | ⟨q, rest⟩⟩ := pieces
  · simp at h
  · simp at h
  · simp [hc]

theorem intercalate_concat (h : pieces ≠ []) (last : List α) :
    sep.intercalate (pieces ++ [last]) = sep.intercalate pieces ++ sep ++ last := by
  induction pieces with
  | nil => exact absurd rfl h
  | cons piece rest ih =>
    obtain rfl | hrest := eq_or_ne rest []
    · rw [singleton_append, intercalate_cons_of_ne_nil (cons_ne_nil _ _),
        intercalate_singleton, intercalate_singleton]
    · rw [cons_append, intercalate_cons_of_ne_nil (by simp), ih hrest, intercalate_cons_of_ne_nil hrest]
      simp only [append_assoc]

end Text
