import Bofuzz.Lib.Loop

/-! `BBCache.find_block`: the basic block that contains an address, by bisection in the blocks of
    all functions sorted by their start. -/

namespace Bofuzz.Extractor
open Loop List

/-- A basic block of a flow chart, the addresses from `start_ea` up to `end_ea`. -/
structure BasicBlock where
  startEa : ℕ
  endEa : ℕ
deriving DecidableEq

def BasicBlock.Contains (b : BasicBlock) (ea : ℕ) : Prop := b.startEa ≤ ea ∧ ea < b.endEa

instance (b : BasicBlock) (ea : ℕ) : Decidable (b.Contains ea) := inferInstanceAs (Decidable (_ ∧ _))

variable (arr : List BasicBlock) (ea : ℕ)

/-- The body of the loop, from `(lo, hi)`; an index past the end has no result. -/
def halve (w : ℕ × ℕ) : Prog (ℕ × ℕ) := do
  let mid := (w.1 + w.2) / 2
  let wrapper ← ofOption arr[mid]?
  if ea < wrapper.startEa then return (w.1, mid) else return (mid + 1, w.2)

def findBlock : Prog (Option BasicBlock) := do
  let w ← whileLoopM (fun w => w.1 < w.2) (halve arr ea) (0, arr.length)
  if w.1 = 0 then return none
  else
    let cand ← ofOption arr[w.1 - 1]?
    if cand.Contains ea then return some cand else return none

/-- A block that contains the address if there is one, and `None` otherwise. -/
def Finds : Option BasicBlock → Prop
  | some b => b ∈ arr ∧ b.Contains ea
  | none => ∀ b ∈ arr, ¬b.Contains ea

/-- The last block that starts at or before the address. -/
def lastBefore : Option BasicBlock :=
  (arr.filter (·.startEa ≤ ea)).getLast?

/-- The blocks before `lo` start at or before the address, those from `hi` on after it. -/
structure Brackets (w : ℕ × ℕ) : Prop where
  le : w.1 ≤ w.2 ∧ w.2 ≤ arr.length
  low : ∀ b ∈ arr.take w.1, b.startEa ≤ ea
  high : ∀ b ∈ arr.drop w.2, ea < b.startEa

section
variable {arr : List BasicBlock} {ea : ℕ} (hsorted : arr.Pairwise (·.startEa ≤ ·.startEa))
include hsorted

theorem halve_brackets {w : ℕ × ℕ} (h : Brackets arr ea w) (hlt : w.1 < w.2) :
    Ends (halve arr ea w) fun t => Brackets arr ea t ∧ t.2 - t.1 < w.2 - w.1 := by
  have hle := h.le
  have hmid : (w.1 + w.2) / 2 < arr.length := by omega
  refine .bind (.ofOption (getElem?_eq_getElem hmid) rfl) fun b hb => ?_
  split_ifs with hea
  · refine .pure ⟨⟨⟨?_, ?_⟩, h.low, ?_⟩, ?_⟩ <;> dsimp only <;> try omega
    have hdrop := hsorted.drop (i := (w.1 + w.2) / 2)
    rw [drop_eq_getElem_cons hmid, hb] at hdrop ⊢
    rw [pairwise_cons] at hdrop
    exact forall_mem_cons.mpr ⟨hea, fun c hc => hea.trans_le (hdrop.1 c hc)⟩
  · refine .pure ⟨⟨⟨?_, ?_⟩, ?_, h.high⟩, ?_⟩ <;> dsimp only <;> try omega
    have htake := hsorted.take (i := (w.1 + w.2) / 2 + 1)
    rw [take_succ_eq_append_getElem hmid, hb] at htake ⊢
    have hlast := (pairwise_append.mp htake).2.2
    refine forall_mem_append.mpr ⟨fun c hc => ?_, forall_mem_singleton.mpr (not_lt.mp hea)⟩
    exact (hlast c hc b (mem_singleton_self b)).trans (not_lt.mp hea)

/-- The search ends at the last block that starts at or before the address. -/
theorem findBlock_ends :
    Ends (findBlock arr ea) (· = (lastBefore arr ea).filter (·.Contains ea)) := by
  have hstart : Brackets arr ea (0, arr.length) := ⟨⟨Nat.zero_le _, le_rfl⟩, by simp, by simp⟩
  refine .bind (.whileLoopM (fun w => w.2 - w.1) hstart fun w h hlt => ?_) fun w hw => ?_
  · exact halve_brackets hsorted h (of_decide_eq_true hlt)
  obtain ⟨h, hend⟩ := hw
  have hle := h.le
  have heq : w.2 = w.1 := by have := of_decide_eq_false hend; omega
  have hprefix : arr.filter (·.startEa ≤ ea) = arr.take w.1 := by
    conv => lhs; rw [← take_append_drop w.1 arr]
    rw [filter_append, filter_eq_self.mpr (by simpa using h.low), filter_eq_nil_iff.mpr, append_nil]
    simpa [heq] using h.high
  rw [lastBefore, hprefix, getLast?_take]
  split_ifs with hzero
  · exact .pure rfl
  have hlast : w.1 - 1 < arr.length := by omega
  refine .bind (.ofOption (getElem?_eq_getElem hlast) rfl) fun cand hcand => ?_
  rw [getElem?_eq_getElem hlast, hcand, Option.some_or, Option.filter_some]
  simp only [decide_eq_true_eq]
  split_ifs <;> exact .pure rfl

variable (hdisjoint : arr.Pairwise fun b c => b = c ∨ ∀ a, b.Contains a → ¬c.Contains a)
include hdisjoint

/-- The last block that starts at or before an address, if not empty, is the one around it. -/
theorem eq_of_lastBefore {b c : BasicBlock} (hc : lastBefore arr ea = some c)
    (hne : c.startEa < c.endEa) (hb : b ∈ arr) (hin : b.Contains ea) : b = c := by
  obtain ⟨before, hsplit⟩ := getLast?_eq_some_iff.mp hc
  have hmem : b ∈ arr.filter (·.startEa ≤ ea) := mem_filter.mpr ⟨hb, decide_eq_true hin.1⟩
  have hcmem : c ∈ arr.filter (·.startEa ≤ ea) := mem_of_getLast? hc
  have hpairs := (hsorted.and hdisjoint).filter (·.startEa ≤ ea)
  rw [hsplit] at hmem hpairs
  rcases mem_append.mp hmem with hbefore | hlast
  · obtain ⟨hle, heq | hapart⟩ := (pairwise_append.mp hpairs).2.2 b hbefore c (mem_singleton_self c)
    · exact heq
    · have hcea : c.startEa ≤ ea := of_decide_eq_true (mem_filter.mp hcmem).2
      exact absurd ⟨le_rfl, hne⟩ (hapart c.startEa ⟨hle, hcea.trans_lt hin.2⟩)
  · exact mem_singleton.mp hlast

end

/-- In blocks sorted by their start that, but for copies, are disjoint, the search always ends. It
    finds a block that contains the address if there is one exactly if then the last block that
    starts at or before the address is not empty. -/
theorem find_block_iff (arr : List BasicBlock) (ea : ℕ)
    (hsorted : arr.Pairwise (·.startEa ≤ ·.startEa))
    (hdisjoint : arr.Pairwise fun b c => b = c ∨ ∀ a, b.Contains a → ¬c.Contains a) :
    Ends (findBlock arr ea) fun r => Finds arr ea r ↔
      ((∃ b ∈ arr, b.Contains ea) → ∀ c ∈ lastBefore arr ea, c.startEa < c.endEa) := by
  refine (findBlock_ends hsorted).mono fun r hr => ?_
  subst hr
  cases hc : lastBefore arr ea with
  | none =>
    refine iff_of_true (fun b hb hin => ?_) fun _ c hc' => absurd hc' (Option.not_mem_none c)
    have hnil : arr.filter (·.startEa ≤ ea) = [] := getLast?_eq_none_iff.mp hc
    exact filter_eq_nil_iff.mp hnil b hb (decide_eq_true hin.1)
  | some c =>
    simp only [Option.mem_some_iff, forall_eq', Option.filter_some]
    by_cases hin : c.Contains ea
    · rw [if_pos (decide_eq_true hin)]
      have hmem := (mem_filter.mp (mem_of_getLast? hc)).1
      exact iff_of_true ⟨hmem, hin⟩ fun _ => hin.1.trans_lt hin.2
    · rw [if_neg (by simpa using hin)]
      constructor
      · rintro hnone ⟨b, hb, hbin⟩
        exact absurd hbin (hnone b hb)
      · intro hne b hb hbin
        have heq := eq_of_lastBefore hsorted hdisjoint hc (hne ⟨b, hb, hbin⟩) hb hbin
        exact hin (heq ▸ hbin)

/-- Two blocks, the second one right after the first. -/
def adjacent : List BasicBlock := [⟨0, 5⟩, ⟨5, 9⟩]

theorem find_block_adjacent : Ends (findBlock adjacent 7) fun r => Finds adjacent 7 r ↔
    ((∃ b ∈ adjacent, b.Contains 7) → ∀ c ∈ lastBefore adjacent 7, c.startEa < c.endEa) :=
  find_block_iff adjacent 7 (by decide) (by simp [adjacent, BasicBlock.Contains]; omega)

/-- A list with an empty block at the start of another one and after it. -/
def hidden : List BasicBlock := [⟨5, 9⟩, ⟨5, 5⟩]

/-- The empty block hides the other one. -/
theorem empty_block_hides : hidden.Pairwise (·.startEa ≤ ·.startEa) ∧
    (hidden.Pairwise fun b c => b = c ∨ ∀ a, b.Contains a → ¬c.Contains a) ∧
    (∃ b ∈ hidden, b.Contains 7) ∧ findBlock hidden 7 2 = some none := by
  refine ⟨by decide, ?_, by decide, by decide⟩
  simp [hidden, BasicBlock.Contains]

end Bofuzz.Extractor
