import Mathlib.Data.List.Basic

/-! Terms in pre-order.

    A node has a sort and asks for children of given sorts. `Encodes sorts w` says that `w` is a
    list of terms of these sorts in pre-order, one after another: the first node must have the first
    sort, and puts the sorts of its children in front of the others. A `Hole` is what is left of
    such a list when one term is taken out. `Nodes` also says what the size and the parent of every
    node are. -/

namespace Preorder
open List

/-- The sort of a node, and the sorts of its children. -/
structure Signature (S α : Type) where
  sort : α → S
  args : α → List S

variable {S α : Type} {sig : Signature S α} {s t : S} {ss ts : List S} {a : α} {u u' v v' w : List α}

/-- The list is made of terms of the given sorts. -/
def Encodes (sig : Signature S α) : List S → List α → Prop
  | ss, [] => ss = []
  | [], _ :: _ => False
  | s :: ss, a :: w => sig.sort a = s ∧ Encodes sig (sig.args a ++ ss) w

@[simp] theorem encodes_nil : Encodes sig ss [] ↔ ss = [] := by
  cases ss <;> simp [Encodes]

@[simp] theorem encodes_nil_left : Encodes sig [] w ↔ w = [] := by
  cases w <;> simp [Encodes]

@[simp] theorem encodes_cons_cons :
    Encodes sig (s :: ss) (a :: w) ↔ sig.sort a = s ∧ Encodes sig (sig.args a ++ ss) w := Iff.rfl

instance Encodes.decidable [DecidableEq S] : (ss : List S) → (w : List α) → Decidable (Encodes sig ss w)
  | ss, [] => decidable_of_iff (ss = []) encodes_nil.symm
  | [], _ :: _ => .isFalse fun h => h
  | s :: ss, a :: w =>
    haveI := Encodes.decidable (sig.args a ++ ss) w
    inferInstanceAs (Decidable (sig.sort a = s ∧ Encodes sig (sig.args a ++ ss) w))

namespace Encodes

theorem append : ∀ {u : List α} {ss : List S}, Encodes sig ss u → Encodes sig ts v →
    Encodes sig (ss ++ ts) (u ++ v)
  | [], ss, hu, hv => by
    rwa [hu]
  | _ :: _, [], hu, _ => hu.elim
  | a :: u, s :: ss, ⟨hsort, hrest⟩, hv => by
    refine ⟨hsort, ?_⟩
    have happend := append hrest hv
    rwa [append_assoc] at happend

/-- Terms of more sorts are terms of the first ones and terms of the others. -/
theorem split : ∀ {w : List α} {ss : List S}, Encodes sig (ss ++ ts) w →
    ∃ u v, w = u ++ v ∧ Encodes sig ss u ∧ Encodes sig ts v
  | w, [], h => ⟨[], w, rfl, rfl, h⟩
  | [], _ :: _, h => by simp at h
  | a :: w, s :: ss, h => by
    rw [cons_append, encodes_cons_cons, ← append_assoc] at h
    obtain ⟨u, v, rfl, hu, hv⟩ := split h.2
    exact ⟨a :: u, v, rfl, ⟨h.1, hu⟩, hv⟩

/-- Where a list of terms ends is determined by its sorts. -/
theorem eq_of_append_eq : ∀ {u u' : List α} {ss : List S}, Encodes sig ss u → Encodes sig ss u' →
    u ++ v = u' ++ v' → u = u'
  | [], u', ss, hu, hu', _ => by
    rw [hu, encodes_nil_left] at hu'
    exact hu'.symm
  | _ :: _, [], ss, hu, hu', _ => by
    rw [hu'] at hu
    exact hu.elim
  | _ :: _, _ :: _, [], hu, _, _ => hu.elim
  | a :: u, b :: u', s :: ss, ⟨_, hu⟩, ⟨_, hu'⟩, heq => by
    obtain ⟨rfl, hrest⟩ := cons.inj heq
    rw [eq_of_append_eq hu hu' hrest]

theorem length_le : ∀ {w : List α} {ss : List S}, Encodes sig ss w → ss.length ≤ w.length
  | [], ss, h => by
    exact Nat.le_of_eq (congrArg length h)
  | _ :: _, [], h => h.elim
  | a :: w, s :: ss, ⟨_, h⟩ => by
    have hlen := length_le h
    rw [length_append] at hlen
    simp only [length_cons]
    omega

end Encodes

/-! ### Terms with a hole -/

/-- A term of sort `s` between `pre` and `post` makes terms of the sorts `ss`. -/
def Hole (sig : Signature S α) (ss : List S) (pre post : List α) (s : S) : Prop :=
  ∀ u, Encodes sig [s] u → Encodes sig ss (pre ++ (u ++ post))

namespace Hole
variable {pre pre' post post' : List α}

theorem refl : Hole sig [s] [] [] s := by
  intro u hu
  simpa using hu

theorem comp (h : Hole sig ss pre post s) (h' : Hole sig [s] pre' post' t) :
    Hole sig ss (pre ++ pre') (post' ++ post) t := by
  intro u hu
  have hcomp := h _ (h' u hu)
  simpa using hcomp

/-- A hole of the sort of the term itself can be filled with the term again and again. -/
theorem iterate (h : Hole sig [s] pre post s) :
    ∀ n, Hole sig [s] (replicate n pre).flatten (replicate n post).flatten s
  | 0 => refl
  | n + 1 => by
    have hcomp := h.comp (h.iterate n)
    rwa [replicate_succ, flatten_cons, replicate_succ', flatten_append, flatten_singleton]

end Hole

/-! ### Sizes and parents -/

/-- The nodes of terms of the given sorts, with the sizes of their terms and with their parents. The
    first node has the index `offset`, and `parent` is the parent of the terms. -/
inductive Nodes (sig : Signature S α) :
    (offset parent : ℕ) → List S → List α → (sizes parents : List ℕ) → Prop
  | nil {offset parent : ℕ} : Nodes sig offset parent [] [] [] []
  | cons {offset parent : ℕ} {a : α} {ss : List S} {u v : List α} {z z' q q' : List ℕ}
    (children : Nodes sig (offset + 1) offset (sig.args a) u z q)
    (rest : Nodes sig (offset + 1 + u.length) parent ss v z' q') :
    Nodes sig offset parent (sig.sort a :: ss) (a :: (u ++ v)) ((u.length + 1) :: (z ++ z'))
      (parent :: (q ++ q'))

namespace Nodes
variable {offset parent : ℕ} {z z' q q' : List ℕ}

section
variable (h : Nodes sig offset parent ss w z q)
include h

theorem encodes : Encodes sig ss w := by
  induction h with
  | nil => rfl
  | cons _ _ ihc ihr => exact ⟨rfl, ihc.append ihr⟩

theorem length_sizes : z.length = w.length := by
  induction h with
  | nil => rfl
  | cons _ _ ihc ihr => simp [ihc, ihr]

theorem length_parents : q.length = w.length := by
  induction h with
  | nil => rfl
  | cons _ _ ihc ihr => simp [ihc, ihr]

end

/-- The terms of a list have sizes and parents. -/
theorem exists_of_encodes : ∀ (n : ℕ) {w : List α} {ss : List S} (offset parent : ℕ), w.length ≤ n →
    Encodes sig ss w → ∃ z q, Nodes sig offset parent ss w z q
  | _, [], ss, _, _, _, h => by
    subst h
    exact ⟨[], [], .nil⟩
  | _, _ :: _, [], _, _, _, h => h.elim
  | n + 1, a :: w, s :: ss, offset, parent, hn, h => by
    obtain ⟨hsort, hrest⟩ := h
    obtain ⟨u, v, rfl, hu, hv⟩ := hrest.split
    subst hsort
    simp only [length_cons, length_append] at hn
    obtain ⟨z, q, hchildren⟩ := exists_of_encodes n (offset + 1) offset (by omega) hu
    obtain ⟨z', q', hothers⟩ :=
      exists_of_encodes n (offset + 1 + u.length) parent (by omega) hv
    exact ⟨_, _, hchildren.cons hothers⟩

/-- The term of a node: its size is the stored one, and the rest is a hole of its sort. -/
theorem subterm
    (h : Nodes sig offset parent ss w z q) : ∀ {n : ℕ} {a : α}, w[n]? = some a →
      ∃ pre u post, w = pre ++ (u ++ post) ∧ pre.length = n ∧ z[n]? = some u.length ∧
        Encodes sig [sig.sort a] u ∧ Hole sig ss pre post (sig.sort a) := by
  induction h with
  | nil =>
    intro n a ha
    cases ha
  | @cons offset parent b ss u v z z' q q' hchildren hrest ihc ihr =>
    intro n a ha
    have hz := hchildren.length_sizes
    cases n with
    | zero =>
      obtain rfl : b = a := Option.some.inj ha
      refine ⟨[], b :: u, v, rfl, rfl, rfl, ⟨rfl, ?_⟩, fun u' hu' => hu'.append hrest.encodes⟩
      rw [append_nil]
      exact hchildren.encodes
    | succ n =>
      rw [getElem?_cons_succ] at ha ⊢
      by_cases hn : n < u.length
      · rw [getElem?_append_left hn] at ha
        rw [getElem?_append_left (hz ▸ hn)]
        obtain ⟨pre, t, post, rfl, hlen, hsize, ht, hhole⟩ := ihc ha
        refine ⟨b :: pre, t, post ++ v, by simp, by simp [hlen], hsize, ht, fun t' ht' => ?_⟩
        have happend := (hhole t' ht').append hrest.encodes
        exact ⟨rfl, by simpa using happend⟩
      · rw [getElem?_append_right (Nat.not_lt.mp hn)] at ha
        rw [getElem?_append_right (hz ▸ Nat.not_lt.mp hn), hz]
        obtain ⟨pre, t, post, rfl, hlen, hsize, ht, hhole⟩ := ihr ha
        refine ⟨b :: (u ++ pre), t, post, by simp, ?_, hsize, ht, fun t' ht' => ?_⟩
        · simp only [length_cons, length_append]
          omega
        · have happend := hchildren.encodes.append (hhole t' ht')
          exact ⟨rfl, by simpa using happend⟩

/-- A node among the others of a term: the term is that of the node and a hole around it. -/
theorem nested
    (h : Nodes sig offset parent ss w z q) {m n size : ℕ} {b : α} (ha : w[m]? = some a)
    (hb : w[n]? = some b) (hsize : z[m]? = some size) (hmn : m ≤ n) (hn : n < m + size) :
    ∃ pre left u right post, w = pre ++ (left ++ (u ++ (right ++ post))) ∧ pre.length = m ∧
      m + left.length = n ∧ size = left.length + u.length + right.length ∧ z[n]? = some u.length ∧
      Encodes sig [sig.sort b] u ∧ Hole sig [sig.sort a] left right (sig.sort b) ∧
      Hole sig ss (pre ++ left) (right ++ post) (sig.sort b) := by
  obtain ⟨pre, t, post, rfl, hpre, hlen, ht, hhole⟩ := h.subterm ha
  cases hlen.symm.trans hsize
  obtain ⟨k, rfl⟩ := Nat.exists_eq_add_of_le hmn
  -- the node inside the term
  have hbt : t[k]? = some b := by
    rwa [getElem?_append_right (by omega), hpre, Nat.add_sub_cancel_left,
      getElem?_append_left (by omega)] at hb
  obtain ⟨z', q', hnodes⟩ := Nodes.exists_of_encodes t.length 0 0 (Nat.le_refl _) ht
  obtain ⟨left, u, right, rfl, hleft, -, hu, hinner⟩ := hnodes.subterm hbt
  -- the stored size of the node is that of the same term
  obtain ⟨pre', u', post', heq, hpre', hlen', hu', hhole'⟩ := h.subterm hb
  have hsplit : pre ++ left = pre' ∧ u ++ (right ++ post) = u' ++ post' := by
    apply append_inj
    · simpa using heq
    · rw [length_append, hpre, hleft, hpre']
  obtain ⟨rfl, hrest⟩ := hsplit
  obtain rfl := hu.eq_of_append_eq hu' hrest
  rw [← append_cancel_left hrest] at hhole'
  refine ⟨pre, left, u, right, post, by simp, hpre, by omega, ?_, hlen', hu, hinner, hhole'⟩
  simp only [length_append]
  omega

end Nodes

end Preorder
