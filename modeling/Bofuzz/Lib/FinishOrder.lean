import Mathlib.Logic.Relation

/-! The order in which a depth-first search finishes the vertices of a graph.

    A vertex is finished when all that it leads to is visited. An edge from a finished vertex to one
    that is not finished yet leads to a vertex that is still open, and the open vertices reach the
    one that is finished next. `Finishes` says this of a list of vertices, the one finished last
    first. Taken in this order, the vertices that reach the next one, apart from those of components
    met before, are exactly its strongly connected component (`component_iff`). -/

namespace FinishOrder
open Relation List

variable {κ : Type*} {R : κ → κ → Prop}

/-- Each reaches the other. -/
def Mutual (R : κ → κ → Prop) (u v : κ) : Prop := ReflTransGen R u v ∧ ReflTransGen R v u

namespace Mutual
variable {u v w : κ}

theorem refl (u : κ) : Mutual R u u := ⟨.refl, .refl⟩

theorem symm (h : Mutual R u v) : Mutual R v u := ⟨h.2, h.1⟩

theorem trans (h : Mutual R u v) (h' : Mutual R v w) : Mutual R u w :=
  ⟨h.1.trans h'.1, h'.2.trans h.2⟩

end Mutual

/-- The list has the vertices in the order in which they are finished, the last one first. -/
def Finishes (R : κ → κ → Prop) : List κ → Prop
  | [] => True
  | u :: before =>
    (∀ b ∈ u :: before, ∀ c, R b c → c ∈ u :: before ∨ ReflTransGen R c u) ∧ Finishes R before

theorem Finishes.of_append :
    ∀ {later before : List κ}, Finishes R (later ++ before) → Finishes R before
  | [], _, h => h
  | _ :: _, _, h => of_append h.2

/-- What a vertex reaches is finished before it, or is reached by a vertex of its component that is
    finished after it. -/
theorem Finishes.reaches {u v : κ} {before : List κ} (h : Finishes R (u :: before))
    (hreach : ReflTransGen R u v) :
    v ∈ u :: before ∨ ∃ g, g ∉ u :: before ∧ Mutual R u g ∧ ReflTransGen R g v := by
  induction hreach with
  | refl => exact .inl mem_cons_self
  | @tail b c hub hbc ih =>
    rcases ih with hb | ⟨g, hg, hmutual, hgb⟩
    · by_cases hc : c ∈ u :: before
      · exact .inl hc
      · have hback := (h.1 b hb c hbc).resolve_left hc
        exact .inr ⟨c, hc, ⟨hub.tail hbc, hback⟩, .refl⟩
    · exact .inr ⟨g, hg, hmutual, hgb.tail hbc⟩

section
variable {W : κ → Prop} {done rest : List κ} {start x : κ}
  (hall : ∀ a b, R a b → a ∈ done ++ start :: rest ∧ b ∈ done ++ start :: rest)
  (hnodup : (done ++ start :: rest).Nodup) (h : Finishes R (done ++ start :: rest))
  (hdone : ∀ x ∈ done, W x) (hclosed : ∀ x y, W x → Mutual R x y → W y)
include hall hnodup h hdone hclosed

/-- The vertices that reach `start`, apart from components that have all the later vertices. -/
theorem Finishes.reaches_back (hx : x ∈ start :: rest) (hW : ¬ W x)
    (hreach : ReflTransGen R x start) :
    ReflTransGen R start x := by
  obtain ⟨mid, tail, hsplit⟩ := append_of_mem hx
  -- a vertex that `x` sends us to lies nearer to `start`
  induction hlen : mid.length using Nat.strongRecOn generalizing mid x tail with
  | ind len ih =>
    have hfinish : Finishes R (x :: tail) := by
      rw [hsplit] at h
      exact h.of_append.of_append
    rcases hfinish.reaches hreach with hstart | ⟨g, hg, hmutual, hgstart⟩
    · cases mid with
      | nil =>
        cases hsplit
        exact .refl
      | cons m mid =>
        cases hsplit
        have hmem : start ∈ mid ++ x :: tail := mem_append_right mid hstart
        exact absurd hmem (nodup_cons.mp (nodup_append.mp hnodup).2.1).1
    · have hgW : ¬ W g := fun hg' => hW (hclosed g x hg' hmutual.symm)
      have hgmem : g ∈ done ++ start :: rest := by
        rcases hmutual.1.cases_tail with heq | ⟨b, -, hstep⟩
        · exact heq ▸ mem_append_right done hx
        · exact (hall b g hstep).2
      have hgmid : g ∈ mid := by
        rcases mem_append.mp hgmem with hgdone | hgrest
        · exact absurd (hdone g hgdone) hgW
        · rw [hsplit] at hgrest
          exact (mem_append.mp hgrest).resolve_right hg
      obtain ⟨mid₁, mid₂, rfl⟩ := append_of_mem hgmid
      have hshort : mid₁.length < len := by
        rw [← hlen, length_append, length_cons]
        omega
      have hsplit' : start :: rest = mid₁ ++ g :: (mid₂ ++ x :: tail) := by
        rw [hsplit, append_assoc, cons_append]
      have hgrest : g ∈ start :: rest := hsplit' ▸ mem_append_right mid₁ mem_cons_self
      have hback := ih mid₁.length hshort hgrest hgW hgstart mid₁ (mid₂ ++ x :: tail) hsplit' rfl
      exact hback.trans hmutual.2

/-- Going backwards from `start` along vertices that belong to no component met before gives the
    component of `start`. -/
theorem Finishes.component_iff (hstart : ¬ W start) :
    ReflTransGen (fun a b => R b a ∧ b ≠ start ∧ ¬ W b) start x ↔ Mutual R start x := by
  constructor
  · intro hpath
    have hback : ReflTransGen R x start := by
      induction hpath with
      | refl => exact .refl
      | tail _ hstep ih => exact .head hstep.1 ih
    have hx : ¬ W x ∧ x ∈ done ++ start :: rest := by
      rcases hpath.cases_tail with rfl | ⟨b, -, hstep⟩
      · exact ⟨hstart, mem_append_right done mem_cons_self⟩
      · exact ⟨hstep.2.2, (hall x b hstep.1).1⟩
    have hxrest : x ∈ start :: rest :=
      (mem_append.mp hx.2).resolve_left fun hxdone => hx.1 (hdone x hxdone)
    exact ⟨h.reaches_back hall hnodup hdone hclosed hxrest hx.1 hback, hback⟩
  · rintro ⟨hto, hback⟩
    induction hback using ReflTransGen.head_induction_on with
    | refl => exact .refl
    | @head a b hab hback ih =>
      have ha : Mutual R start a := ⟨hto, .head hab hback⟩
      by_cases heq : a = start
      · rw [heq]
      · exact (ih (hto.tail hab)).tail
          ⟨hab, heq, fun hWa => hstart (hclosed a start hWa ha.symm)⟩

end

end FinishOrder
