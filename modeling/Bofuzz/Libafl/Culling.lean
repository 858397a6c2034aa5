import Bofuzz.Libafl.Minimizer

/-! The favoured entries of the minimizer scheduler (`cull` of
    `libafl/src/schedulers/minimizer.rs`).

    Each `next` first marks entries until the marked ones cover every index that has an owner. A
    mark is never taken back: an entry that has lost its last index to a better one stays
    favoured. -/

namespace Bofuzz.Minimizer
open Effect Run SortedKeys SortedMap

variable {α : Type} [LT α] [DecidableLT α]

/-! ### The calls -/

/-- A testcase as the scheduler finds it: with the indexes it covers, or without any. -/
structure Testcase extends Entry where
  increasing : ∀ m ∈ indexes, Increasing m.list

/-- The order in which a hash map yields its entries. -/
structure HashOrder where
  order : SortedMap ℕ CorpusId → List (ℕ × CorpusId)
  perm : ∀ m, (order m).Perm m.entries

/-- A call of the scheduler, the changes of the corpus included, and the scores at that time. -/
inductive Call (α : Type) where
  | add (compute : World → CorpusId → α) (testcase : Testcase)
  | remove (compute : World → CorpusId → α) (id : CorpusId)
  | next (hashOrder : HashOrder)

/-- What a call does to the entries and the owners. After its `cull`, `next` only draws. -/
def perform (removeMetadata : Bool) (w : World) : Call α → World
  | .add compute testcase =>
    let (id, corpus) := w.corpus.add testcase.toEntry
    finalState (updateScore compute removeMetadata id) { w with corpus }
  | .remove compute id => step removeMetadata w (.remove compute id)
  | .next hashOrder =>
    match w.topRateds with
    | none => w
    | some top => finalState (cull (hashOrder.order top) []) w

/-- The favoured entries cover all the indexes, and each of them is the top-rated one of some
    index. -/
structure Culled (w : World) : Prop where
  covers : ∀ k id, w.top.get k = some id → w.Covers k
  owns : ∀ id, w.isFavored id → w.Owns id

/-! ### One `next` -/

/-- `next` marks entries that own an index until all the indexes are covered. -/
theorem next_marks (removeMetadata : Bool) (hashOrder : HashOrder) {w : World} (h : Bookkept w) :
    Marks w.top.entries [] w (perform (α := α) removeMetadata w (.next hashOrder)) := by
  rw [perform]
  cases htop : w.topRateds with
  | none =>
    have hempty : w.top = .empty := by rw [World.top, htop, Option.getD_none]
    exact ⟨rfl, rfl, fun _ h => h, fun _ h => .inl h, by simp [hempty, empty]⟩
  | some top =>
    have heq : top = w.top := by rw [World.top, htop, Option.getD_some]
    have hperm := hashOrder.perm top
    have horder : ∀ e ∈ hashOrder.order top, w.top.get e.1 = some e.2 := fun e he => by
      rw [← heq]
      exact (get_eq_some_iff _).mpr (hperm.mem_iff.mp he)
    have hmarks := finalState_of_spec ((cull_marks _ [] h.toRated horder).mono
      (fun _ _ hv => hv) fun _ _ hf => hf.elim)
    refine ⟨hmarks.top, hmarks.indexes, hmarks.kept, hmarks.owners, fun e he => ?_⟩
    exact hmarks.covers e (hperm.mem_iff.mpr (heq ▸ he))

/-! ### Every sequence of calls -/

/-- When `next` is called, every entry that is favoured already still is the top-rated one of some
    index. -/
def Current (w : World) : Call α → Prop
  | .next _ => ∀ id, w.isFavored id → w.Owns id
  | _ => True

variable (removeMetadata : Bool)

theorem next_culled_iff (hashOrder : HashOrder) {w : World} (h : Bookkept w) :
    Culled (perform (α := α) removeMetadata w (.next hashOrder)) ↔
      ∀ id, w.isFavored id → w.Owns id := by
  have hmarks := next_marks (α := α) removeMetadata hashOrder h
  set v := perform (α := α) removeMetadata w (.next hashOrder)
  have howns : ∀ id, v.Owns id ↔ w.Owns id := fun id => by rw [World.Owns, World.Owns, hmarks.top]
  constructor
  · intro hculled id hid
    exact (howns id).mp (hculled.owns id (hmarks.kept id hid))
  · intro hcurrent
    refine ⟨fun k id hk => ?_, fun id hid => (howns id).mpr ?_⟩
    · rw [hmarks.top] at hk
      rcases hmarks.covers (k, id) ((get_eq_some_iff _).mp hk) with hnil | hcover
      · cases hnil
      · exact hcover
    · rcases hmarks.owners id hid with hid | hid
      · exact hcurrent id hid
      · exact hid

/-- A testcase without indexes joins the corpus, and the call fails before any index changes
    hands. -/
theorem add_bare_bookkept (compute : World → CorpusId → α) {entry : Entry}
    (hnone : entry.indexes = none) {w : World} (h : Bookkept w) :
    Bookkept (finalState (updateScore compute removeMetadata (w.corpus.add entry).1)
      { w with corpus := (w.corpus.add entry).2 }) := by
  have hget := w.corpus.get_add entry
  have hsame : World.indexes { w with corpus := (w.corpus.add entry).2 } = w.indexes := by
    funext j
    rw [World.indexes, hget]
    split_ifs with hj
    · rw [Option.bind_some, hnone, eq_comm, Option.eq_none_iff_forall_ne_some]
      exact fun m hm => ne_free_of_indexes hm hj
    · rfl
  have hrated : Rated w.top (World.indexes { w with corpus := (w.corpus.add entry).2 }) := by
    rw [hsame]
    exact h.toRated
  have hnew : (w.corpus.add entry).2.get (w.corpus.add entry).1 = .ok entry := w.corpus.get_new entry
  refine finalState_of_spec ?_
  simp only [updateScore, spec_bind, spec_modify, spec_get, hnew, spec_ofResult_ok, hnone, spec_throw]
  exact Rated.bookkept hrated

theorem perform_bookkept (w : World) (call : Call α) (h : Bookkept w) :
    Bookkept (perform removeMetadata w call) := by
  cases call with
  | add compute testcase =>
    cases hm : testcase.indexes with
    | none => exact add_bare_bookkept removeMetadata compute hm h
    | some m =>
      have hentry : testcase.toEntry =
          Tracked.entry ⟨m, testcase.increasing m hm, testcase.isFavored⟩ := by
        rw [Tracked.entry, ← hm]
      rw [perform, hentry]
      exact add_bookkept compute _ h
  | remove compute id =>
    rw [perform]
    exact remove_bookkept compute id h
  | next hashOrder =>
    have hmarks := next_marks (α := α) removeMetadata hashOrder h
    refine Rated.bookkept ?_
    rw [hmarks.top, hmarks.indexes]
    exact h.toRated

theorem run_bookkept (calls : List (Call α)) :
    Bookkept (run (perform removeMetadata) {} calls) := by
  have hstep : ∀ (w : World) (call : Call α), Bookkept w → True →
      Bookkept (perform removeMetadata w call) :=
    fun w call h _ => perform_bookkept removeMetadata w call h
  exact along_induct hstep calls {} bookkept_empty (along_of_forall fun _ _ _ => trivial)

/-- In every sequence of calls, the favoured entries are the right ones after each `cull` exactly if
    no entry that was favoured before has lost all its indexes by the time of a later `next`. -/
theorem culls_favor_owners_iff (removeMetadata : Bool) (calls : List (Call α)) :
    (∀ n hashOrder, calls[n]? = some (.next hashOrder) →
      Culled (run (perform removeMetadata) {} (calls.take (n + 1)))) ↔
    Along (perform removeMetadata) Current {} calls := by
  rw [along_iff_forall_getElem?]
  refine forall_congr' fun n => ?_
  have hnext : ∀ hashOrder, calls[n]? = some (.next hashOrder) →
      (Culled (run (perform removeMetadata) {} (calls.take (n + 1))) ↔
        Current (run (perform removeMetadata) {} (calls.take n)) (.next (α := α) hashOrder)) := by
    intro hashOrder hcall
    rw [run_take_succ hcall]
    exact next_culled_iff (α := α) removeMetadata hashOrder (run_bookkept removeMetadata _)
  constructor
  · intro h call hcall
    cases call with
    | next hashOrder => exact (hnext hashOrder hcall).mp (h hashOrder hcall)
    | add | remove => trivial
  · intro h hashOrder hcall
    exact (hnext hashOrder hcall).mpr (h _ hcall)

/-- The second entry is better at the only index there is. -/
def overtaken : List (Call ℕ) :=
  let score : World → CorpusId → ℕ := fun _ id => 5 - id
  let testcase : Testcase := ⟨{ indexes := some ⟨[1], 0⟩ }, by simp [Increasing]⟩
  let next : Call ℕ := .next ⟨SortedMap.entries, fun _ => .refl _⟩
  [.add score testcase, next, .add score testcase, next]

/-- After the second `cull` the first entry is favoured still, though it owns nothing. -/
theorem overtaken_stays_favored :
    (run (perform true) {} overtaken).isFavored 0 ∧ (run (perform true) {} overtaken).top.keys = [1] ∧
      (run (perform true) {} overtaken).top.get 1 = some 1 ∧
      ¬Culled (run (perform true) {} overtaken) := by
  have hfav : (run (perform true) {} overtaken).isFavored 0 := by decide +kernel
  have hown : (run (perform true) {} overtaken).top.owned 0 = ∅ := by decide +kernel
  refine ⟨hfav, by decide +kernel, by decide +kernel, fun hculled => ?_⟩
  obtain ⟨k, hk⟩ := hculled.owns 0 hfav
  have hmem := (mem_owned _).mpr hk
  rw [hown] at hmem
  cases hmem

end Bofuzz.Minimizer
