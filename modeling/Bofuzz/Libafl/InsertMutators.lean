import Bofuzz.Config
import Bofuzz.Lib.Result
import Bofuzz.Libafl.RandRange

/-! The mutators that insert bytes (`libafl/src/mutators/mutations.rs`, `token_mutations.rs`).

    Each of them draws where and what to insert, makes the input longer, moves the end of it out of
    the way and fills the gap. `bufferSelfCopy_resize` says what the move leaves, for all of them.
    The copying functions assert that they have something to copy; tokens, which come from files,
    can be empty. -/

namespace Bofuzz.InsertMutators
open Bofuzz.Rand BytesSwap List Result

/-! ### Tokens -/

def fromHex (hex : UInt8) : Except Error UInt8 :=
  if 48 ≤ hex ∧ hex ≤ 57 then .ok (hex - 48)
  else if 65 ≤ hex ∧ hex ≤ 70 then .ok (hex - 55)
  else if 97 ≤ hex ∧ hex ≤ 102 then .ok (hex - 87)
  else .error (.illegalArgument .invalidHex)

/-- The variables of `str_decode`. -/
structure Decoder where
  token : Bytes := []
  takeNext : Bool := false
  takeNextTwo : ℕ := 0
  decoded : UInt8 := 0

def backslash : UInt8 := 92

/-- One round of the loop of `str_decode`. -/
def Decoder.step (d : Decoder) (c : UInt8) : Except Error Decoder := do
  if d.takeNextTwo = 1 then return { d with decoded := (← fromHex c) <<< 4, takeNextTwo := 2 }
  else if d.takeNextTwo = 2 then
    let decoded := d.decoded + (← fromHex c)
    return { d with decoded, token := d.token ++ [decoded], takeNextTwo := 0 }
  else if c ≠ backslash ∨ d.takeNext then
    if d.takeNext ∧ (c = 120 ∨ c = 88) then return { d with takeNextTwo := 1, takeNext := false }
    else return { d with token := d.token ++ [c], takeNext := false }
  else return { d with takeNext := true }

/-- `str_decode`. -/
def strDecode (item : Bytes) : Except Error Bytes := do
  return (← item.foldlM Decoder.step {}).token

variable (tokens : List Bytes)

/-- `add_token`; the set of the tokens has the same elements as the vector. -/
def addToken (token : Bytes) : List Bytes :=
  if tokens.any fun t => t = token then tokens else tokens ++ [token]

/-- The number of bytes of a text. -/
def byteLen (cs : List Char) : ℕ := (cs.map Char.utf8Size).sum

/-- The item between the quotes of a line without blanks around it, if it has one. The last
    character stands where the number of bytes says, so that every character is one byte. -/
def lineItem (text : List Char) : Except Error (Option Bytes) :=
  if text = [] ∨ text.head? = some '#' then .ok none
  else if '"' ∉ text ∨ text[byteLen text - 1]? ≠ some '"' then
    .error (.illegalArgument (.illegalLine (String.ofList text)))
  else
    let start := text.idxOf '"' + 1
    let stop := text.length - 1
    if stop < start then .error (.illegalArgument (.illegalLine (String.ofList text)))
    else
      let item := (text.drop start).take (stop - start)
      .ok (if item = [] then none else some (item.map fun c => UInt8.ofNat c.toNat))

/-- What a line of a file adds to the tokens. -/
def addLine (line : List Char) : Except Error (List Bytes) := do
  match ← lineItem (trim line) with
  | none => return tokens
  | some item =>
    match strDecode item with
    | .ok token => return addToken tokens token
    | .error _ => throw (.illegalArgument (.illegalHexLine (String.ofList (trim line))))

/-- `add_from_file`, for the lines of the file. -/
def addFromFile (lines : List (List Char)) : Except Error (List Bytes) :=
  lines.foldlM addLine tokens

/-! ### Empty tokens -/

/-- What is decoded is never taken back. -/
theorem Decoder.step_token {d d' : Decoder} {c : UInt8} (h : d.step c = .ok d') :
    d.token <+: d'.token := by
  unfold Decoder.step at h
  split at h
  · obtain ⟨v, -, h⟩ := bind_eq_ok.mp h
    cases h
    exact prefix_rfl
  split at h
  · obtain ⟨v, -, h⟩ := bind_eq_ok.mp h
    cases h
    exact prefix_append _ _
  split at h
  · split at h
    · cases h
      exact prefix_rfl
    · cases h
      exact prefix_append _ _
  · cases h
    exact prefix_rfl

theorem Decoder.foldlM_token {item : Bytes} {d d' : Decoder}
    (h : item.foldlM Decoder.step d = .ok d') :
    d.token <+: d'.token := by
  induction item generalizing d with
  | nil =>
    cases h
    exact prefix_rfl
  | cons c item ih =>
    obtain ⟨d₁, hstep, hrest⟩ := bind_eq_ok.mp ((foldlM_cons ..).symm.trans h)
    exact (Decoder.step_token hstep).trans (ih hrest)

/-- An escape sequence that the item ends in the middle of. -/
inductive Unfinished : Bytes → Prop
  | escape : Unfinished [backslash]
  | hex {x : UInt8} (hx : x = 120 ∨ x = 88) : Unfinished [backslash, x]
  | digit {x c v : UInt8} (hx : x = 120 ∨ x = 88) (hc : fromHex c = .ok v) : Unfinished [backslash, x, c]

/-- The item is decoded from this state on and leaves an empty token. -/
def Decoder.Empties (d : Decoder) (item : Bytes) : Prop :=
  ∃ d', item.foldlM Decoder.step d = .ok d' ∧ d'.token = []

namespace Decoder
variable {d : Decoder} {c v : UInt8} {item : Bytes}

theorem empties_nil : d.Empties [] ↔ d.token = [] := by
  simp [Empties]

theorem empties_cons : d.Empties (c :: item) ↔ ∃ d₁, d.step c = .ok d₁ ∧ d₁.Empties item := by
  simp only [Empties, foldlM_cons, bind_eq_ok]
  tauto

theorem not_empties (hd : d.token ≠ []) : ¬ d.Empties item := by
  rintro ⟨d', hfold, hnil⟩
  have htoken := foldlM_token hfold
  rw [hnil, prefix_nil] at htoken
  exact hd htoken

/-- The second digit completes a byte. -/
theorem empties_second : Empties ⟨[], false, 2, v⟩ item ↔ item = [] := by
  cases item with
  | nil => simp [empties_nil]
  | cons c item =>
    rw [empties_cons]
    refine iff_of_false ?_ (cons_ne_nil _ _)
    rintro ⟨d₁, hstep, hempties⟩
    obtain ⟨w, -, heq⟩ := bind_eq_ok.mp hstep
    cases heq
    exact not_empties (cons_ne_nil _ _) hempties

theorem empties_first :
    Empties ⟨[], false, 1, v⟩ item ↔ item = [] ∨ ∃ c w, fromHex c = .ok w ∧ item = [c] := by
  cases item with
  | nil => simp [empties_nil]
  | cons c item =>
    simp only [empties_cons, cons_ne_nil, false_or, cons.injEq]
    constructor
    · rintro ⟨d₁, hstep, hempties⟩
      obtain ⟨w, hw, heq⟩ := bind_eq_ok.mp hstep
      cases heq
      exact ⟨c, w, hw, rfl, empties_second.mp hempties⟩
    · rintro ⟨c', w, hw, rfl, hitem⟩
      exact ⟨_, bind_eq_ok.mpr ⟨w, hw, rfl⟩, empties_second.mpr hitem⟩

/-- Nothing is decoded as long as the next byte meets `P`; another one is decoded to a byte. -/
theorem empties_iff {d' : Decoder} {P : UInt8 → Prop} (hd : d.token = [])
    (h : ∀ c, P c → d.step c = .ok d')
    (h' : ∀ c, ¬ P c → ∃ d₁, d.step c = .ok d₁ ∧ d₁.token = [c]) :
    d.Empties item ↔ item = [] ∨ ∃ c rest, P c ∧ item = c :: rest ∧ d'.Empties rest := by
  cases item with
  | nil => simp [empties_nil, hd]
  | cons c item =>
    simp only [empties_cons, cons_ne_nil, false_or, cons.injEq]
    by_cases hc : P c
    · simp [h c hc, hc]
    obtain ⟨d₁, hstep, htoken⟩ := h' c hc
    simp only [hstep, Except.ok.injEq, exists_eq_left']
    refine iff_of_false (not_empties (htoken ▸ cons_ne_nil _ _)) ?_
    rintro ⟨x, rest, hx, ⟨rfl, -⟩, -⟩
    exact hc hx

theorem empties_escape : Empties ⟨[], true, 0, v⟩ item ↔
    item = [] ∨ ∃ x rest, (x = 120 ∨ x = 88) ∧ item = x :: rest ∧ Empties ⟨[], false, 1, v⟩ rest :=
  empties_iff rfl (fun c hc => by simp [step, hc, pure, Except.pure])
    fun c hc => ⟨⟨[c], false, 0, v⟩, by simp [step, hc, pure, Except.pure], rfl⟩

theorem empties_start : Empties {} item ↔
    item = [] ∨ ∃ c rest, c = backslash ∧ item = c :: rest ∧ Empties ⟨[], true, 0, 0⟩ rest :=
  empties_iff rfl (fun c hc => by simp [step, hc, pure, Except.pure])
    fun c hc => ⟨⟨[c], false, 0, 0⟩, by simp [step, hc, pure, Except.pure], rfl⟩

end Decoder

/-- An item leaves an empty token exactly if it ends in the middle of its first escape sequence. -/
theorem strDecode_eq_nil_iff (item : Bytes) :
    strDecode item = .ok [] ↔ item = [] ∨ Unfinished item := by
  have hempties : strDecode item = .ok [] ↔ Decoder.Empties {} item := by
    simp only [strDecode, Decoder.Empties, bind_eq_ok, pure_eq_ok]
  simp only [hempties, Decoder.empties_start, Decoder.empties_escape, Decoder.empties_first]
  refine or_congr Iff.rfl ⟨?_, ?_⟩
  · rintro ⟨_, _, rfl, rfl, rfl | ⟨x, _, hx, rfl, rfl | ⟨c, w, hw, rfl⟩⟩⟩
    · exact .escape
    · exact .hex hx
    · exact .digit hx hw
  · intro h
    cases h with
    | escape => exact ⟨_, _, rfl, rfl, .inl rfl⟩
    | hex hx => exact ⟨_, _, rfl, rfl, .inr ⟨_, _, hx, rfl, .inl rfl⟩⟩
    | digit hx hc => exact ⟨_, _, rfl, rfl, .inr ⟨_, _, hx, rfl, .inr ⟨_, _, hc, rfl⟩⟩⟩

variable {tokens : List Bytes}

theorem mem_addToken {token t : Bytes} : t ∈ addToken tokens token ↔ t ∈ tokens ∨ t = token := by
  unfold addToken
  split
  · next hany =>
    have hmem : token ∈ tokens := by simpa using hany
    exact (or_iff_left_of_imp (· ▸ hmem)).symm
  · simp

theorem mem_addLine {tokens' : List Bytes} {line : List Char}
    (h : addLine tokens line = .ok tokens') (t : Bytes) :
    t ∈ tokens' ↔ t ∈ tokens ∨ ∃ item, lineItem (trim line) = .ok (some item) ∧
      strDecode item = .ok t := by
  obtain ⟨found, hitem, h⟩ := bind_eq_ok.mp h
  rw [hitem]
  cases found with
  | none =>
    cases h
    simp
  | some item =>
    simp only at h
    split at h
    · next token hdecode =>
      cases h
      simp [mem_addToken, hdecode, eq_comm]
    · cases h

/-- The tokens of a file are what the items of its lines are decoded to. -/
theorem mem_addFromFile {lines : List (List Char)} {tokens' : List Bytes}
    (h : addFromFile tokens lines = .ok tokens') (t : Bytes) : t ∈ tokens' ↔ t ∈ tokens ∨
      ∃ line ∈ lines, ∃ item, lineItem (trim line) = .ok (some item) ∧ strDecode item = .ok t := by
  induction lines generalizing tokens with
  | nil =>
    cases h
    simp
  | cons line lines ih =>
    obtain ⟨tokens₁, hline, hrest⟩ := bind_eq_ok.mp ((foldlM_cons ..).symm.trans h)
    rw [ih hrest, mem_addLine hline]
    simp only [exists_mem_cons_iff, or_assoc]

theorem lineItem_ne_nil {line : List Char} {item : Bytes} (h : lineItem line = .ok (some item)) :
    item ≠ [] := by
  simp only [lineItem] at h
  split_ifs at h with _ _ _ hitem
  · cases h
  · cases h
  · cases h
    exact fun hnil => hitem (map_eq_nil_iff.mp hnil)

/-- A file gives the empty token exactly if one of its items is an unfinished escape sequence. -/
theorem nil_mem_addFromFile_iff {lines : List (List Char)}
    (h : addFromFile [] lines = .ok tokens) : [] ∈ tokens ↔
      ∃ line ∈ lines, ∃ item, lineItem (trim line) = .ok (some item) ∧ Unfinished item := by
  simp only [mem_addFromFile h, not_mem_nil, false_or, strDecode_eq_nil_iff]
  refine exists_congr fun line => and_congr_right fun _ => exists_congr fun item =>
    and_congr_right fun hitem => or_iff_right (lineItem_ne_nil hitem)

theorem backslash_gives_nil : [] ∈ ([[]] : List Bytes) ↔ ∃ line ∈ ["\"\\\"".toList], ∃ item,
    lineItem (trim line) = .ok (some item) ∧ Unfinished item :=
  nil_mem_addFromFile_iff (by decide)

/-! ### The mutators -/

def asserted {α : Type} : Except Panic α → Except Error α := Except.mapError fun _ => .assertPanic

/-- `buffer_set`. -/
def bufferSet (data : Bytes) (start len : ℕ) (val : UInt8) : Except Panic Bytes :=
  if start + len ≤ data.length then
    .ok (data.take start ++ List.replicate len val ++ data.drop (start + len))
  else .error .bounds

/-- How many of `len` bytes fit, if any do. -/
def fitting (maxSize size len : ℕ) : Option ℕ :=
  if maxSize < size + len then if size < maxSize then some (maxSize - size) else none else some len

section
variable {R : Type} [Rand R] (maxSize : ℕ)

/-- `BytesExpandMutator::mutate`. -/
def bytesExpand (data : Bytes) (rand : R) : Except Error (MutationResult × Bytes) := do
  let size := data.length
  if size = 0 ∨ maxSize ≤ size then return (.skipped, data)
  else
    let range := (randRange size (min 16 (maxSize - size)) rand).1
    let data := BytesSwap.resize data (size + range.len)
    let data ← asserted (bufferSelfCopy data range.start (range.start + range.len) (size - range.start))
    return (.mutated, data)

/-- The draws of `BytesInsertMutator`: how many bytes are inserted, where, and where the byte
    stands. -/
def drawInsert (size : ℕ) : StateM R (ℕ × ℕ × ℕ) := do
  let amount := 1 + (← below 16)
  let offset ← below (size + 1)
  let index ← below size
  return (amount, offset, index)

/-- `BytesInsertMutator::mutate`. -/
def bytesInsert (data : Bytes) (rand : R) : Except Error (MutationResult × Bytes) := do
  let size := data.length
  if size = 0 ∨ maxSize ≤ size then return (.skipped, data)
  else
    let (amount, offset, index) := (drawInsert size rand).1
    match fitting maxSize size amount, data[index]? with
    | none, _ => return (.skipped, data)
    | some _, none => throw .indexPanic
    | some amount, some val =>
      let data := BytesSwap.resize data (size + amount)
      let data ← asserted (bufferSelfCopy data offset (offset + amount) (size - offset))
      let data ← asserted (bufferSet data offset amount val)
      return (.mutated, data)

/-- The draws of `BytesInsertCopyMutator`: where to insert, and which range. -/
def drawInsertCopy (maxSize size : ℕ) : StateM R (ℕ × Range) := do
  let target ← below size
  let range ← randRange size (min 16 (min (size - target) (maxSize - size)))
  return (target, range)

/-- `BytesInsertCopyMutator::mutate`, with the buffer of the mutator. -/
def bytesInsertCopy (tmpBuf data : Bytes) (rand : R) :
    Except Error (MutationResult × Bytes × Bytes) := do
  let size := data.length
  if size ≤ 1 ∨ maxSize ≤ size then return (.skipped, tmpBuf, data)
  else
    let (target, range) := (drawInsertCopy maxSize size rand).1
    let data := BytesSwap.resize data (size + range.len)
    let tmpBuf := BytesSwap.resize tmpBuf range.len
    let tmpBuf ← asserted (bufferCopy tmpBuf data range.start 0 range.len)
    let data ← asserted (bufferSelfCopy data target (target + range.len) (size - target))
    let data ← asserted (bufferCopy data tmpBuf 0 target range.len)
    return (.mutated, tmpBuf, data)

/-- `random_corpus_id_with_disabled` and the input of that entry. -/
def drawOther (corpus : List (ℕ × Bytes)) : StateM R (Option (ℕ × Bytes)) := do
  return corpus[← below corpus.length]?

/-- The draws of `CrossoverInsertMutator` when it has found another input. -/
def drawCrossover (maxSize size otherSize : ℕ) : StateM R (Range × ℕ) := do
  let range ← randRange otherSize (min otherSize (maxSize - size))
  let target ← below size
  return (range, target)

/-- `crossover_insert`. -/
def crossoverInsertAt (data : Bytes) (target : ℕ) (range : Range) (other : Bytes) :
    Except Error (MutationResult × Bytes) := do
  let size := data.length
  let data := BytesSwap.resize data (size + range.len)
  let data ← asserted (bufferSelfCopy data target (target + range.len) (size - target))
  let data ← asserted (bufferCopy data other range.start target range.len)
  return (.mutated, data)

/-- `CrossoverInsertMutator::mutate` for a corpus, given by the identifiers and the inputs of all
    its entries. -/
def crossoverInsert (corpus : List (ℕ × Bytes)) (current : Option ℕ) (maxSize : ℕ) (data : Bytes)
    (rand : R) : Except Error (MutationResult × Bytes) := do
  let size := data.length
  if size = 0 ∨ maxSize ≤ size then return (.skipped, data)
  else
    match drawOther corpus rand with
    | (none, _) => throw .unwrapPanic
    | (some (id, other), rand) =>
      if current = some id ∨ other.length < 2 then return (.skipped, data)
      else
        let (range, target) := (drawCrossover maxSize size other.length rand).1
        crossoverInsertAt data target range other

/-- The draws of `TokenInsert`: which token, and where it is inserted. -/
def drawToken (tokensLen size : ℕ) : StateM R (ℕ × ℕ) := do
  let tokenIdx ← below tokensLen
  let off ← below (size + 1)
  return (tokenIdx, off)

/-- The part of `TokenInsert::mutate` behind the draws. -/
def tokenInsertAt (data : Bytes) (off : ℕ) (token : Bytes) :
    Except Error (MutationResult × Bytes) := do
  let size := data.length
  match fitting maxSize size token.length with
  | none => return (.skipped, data)
  | some len =>
    let data := BytesSwap.resize data (size + len)
    let data ← asserted (bufferSelfCopy data off (off + len) (size - off))
    let data ← asserted (bufferCopy data token 0 off len)
    return (.mutated, data)

/-- `TokenInsert::mutate`. -/
def tokenInsert (tokens : Option (List Bytes)) (maxSize : ℕ) (data : Bytes) (rand : R) :
    Except Error (MutationResult × Bytes) := do
  let size := data.length
  match tokens with
  | none => return (.skipped, data)
  | some tokens =>
    if tokens.length = 0 then return (.skipped, data)
    else
      let (tokenIdx, off) := (drawToken tokens.length size rand).1
      match tokens[tokenIdx]? with
      | none => throw .indexPanic
      | some token => tokenInsertAt maxSize data off token

end

/-! ### Filling a gap -/

/-- The input is skipped, or the piece that was chosen is inserted where it was chosen to be, and
    the result is no longer than allowed. -/
def Splices (maxSize : ℕ) (data : Bytes) (chosen : ℕ → Bytes → Prop)
    (out : Except Error (MutationResult × Bytes)) : Prop :=
  out = .ok (.skipped, data) ∨
    ∃ before inserted after, data = before ++ after ∧ chosen before.length inserted ∧
      (before ++ inserted ++ after).length ≤ maxSize ∧
      out = .ok (.mutated, before ++ inserted ++ after)

section
variable {maxSize offset len : ℕ} {data : Bytes} {chosen : ℕ → Bytes → Prop}
  {out : Except Error (MutationResult × Bytes)}

theorem Splices.of_ok {inserted : Bytes} (hoff : offset ≤ data.length)
    (hchosen : chosen offset inserted) (hsize : data.length + inserted.length ≤ maxSize)
    (hout : out = .ok (.mutated, data.take offset ++ inserted ++ data.drop offset)) :
    Splices maxSize data chosen out := by
  refine .inr ⟨_, inserted, _, (take_append_drop offset data).symm, ?_, ?_, hout⟩
  · rwa [length_take_of_le hoff]
  have htotal : (data.take offset ++ inserted ++ data.drop offset).length =
      data.length + inserted.length := by
    simp only [length_append, length_take_of_le hoff, length_drop]
    omega
  omega

theorem Splices.error {e : Error} : ¬ Splices maxSize data chosen (.error e) := by
  rintro (h | ⟨_, _, _, _, _, _, h⟩) <;> cases h

/-- The gap holds what the bytes behind it were, and then zeros. -/
def gap (data : Bytes) (offset len : ℕ) : Bytes :=
  (data.drop offset ++ List.replicate len 0).take len

theorem gap_length : (gap data offset len).length = len := by
  rw [gap, length_take_of_le]
  simp

/-- Making room: the input gets longer, and what stands behind `offset` moves to its new end. -/
theorem bufferSelfCopy_resize (hoff : offset ≤ data.length) (hne : 0 < data.length + len) :
    bufferSelfCopy (BytesSwap.resize data (data.length + len)) offset (offset + len)
      (data.length - offset) = .ok (data.take offset ++ gap data offset len ++ data.drop offset) := by
  have hresize : BytesSwap.resize data (data.length + len) = data ++ replicate len 0 := by
    rw [BytesSwap.resize, take_of_length_le (Nat.le_add_right _ _), Nat.add_sub_cancel_left]
  have hsplit : data ++ replicate len 0 =
      data.take offset ++ (data.drop offset ++ replicate len 0) := by
    rw [← append_assoc, take_append_drop]
  have hbefore : (data.take offset).length = offset := length_take_of_le hoff
  rw [hresize, ← append_nil (_ ++ data.drop offset)]
  apply bufferSelfCopy_pieces ((data.drop offset ++ replicate len 0).drop len)
  · rw [hsplit, gap, append_nil, append_assoc, take_append_drop]
  · apply ne_nil_of_length_pos
    simpa using hne
  · rw [length_append, hbefore, gap_length]
  · simp
  · simp only [length_append, length_replicate]
    omega
  · rw [hsplit, drop_left' hbefore, take_left' (by simp)]

theorem bufferCopy_gap {src : Bytes} {source : ℕ} (hpos : 0 < len) (hoff : offset ≤ data.length)
    (hsource : source + len ≤ src.length) :
    bufferCopy (data.take offset ++ gap data offset len ++ data.drop offset) src source offset len =
      .ok (data.take offset ++ (src.drop source).take len ++ data.drop offset) := by
  have hbefore : (data.take offset).length = offset := length_take_of_le hoff
  have hgap : (gap data offset len).length = len := gap_length
  rw [bufferCopy_ok hpos hsource, copy_pieces _ _ _ hbefore.symm hgap.symm rfl]
  simp only [length_append]
  omega

theorem bufferSet_gap (hoff : offset ≤ data.length) (val : UInt8) :
    bufferSet (data.take offset ++ gap data offset len ++ data.drop offset) offset len val =
      .ok (data.take offset ++ replicate len val ++ data.drop offset) := by
  have hbefore : (data.take offset).length = offset := length_take_of_le hoff
  have hgap : (gap data offset len).length = len := gap_length
  have hcopy := copy_pieces (data.take offset) (gap data offset len) (data.drop offset) hbefore.symm
    hgap.symm (show ((replicate len val).drop 0).take len = replicate len val by simp)
  rw [← hcopy, bufferSet, if_pos (by simp only [length_append]; omega), copy]
  simp

theorem fitting_eq_some {size : ℕ} (hsize : size < maxSize) :
    fitting maxSize size len = some (min len (maxSize - size)) := by
  rw [fitting, if_pos hsize]
  split
  · rw [Nat.min_eq_right (by omega)]
  · rw [Nat.min_eq_left (by omega)]

end

/-! ### The results -/

@[simp] theorem asserted_ok {α : Type} (a : α) : asserted (.ok a) = .ok a := rfl

/-- Copying nothing out of an empty buffer is not allowed, whatever was done before. -/
theorem asserted_bufferCopy_nil {α : Type} (x : Except Panic Bytes) (source target len : ℕ)
    (f : Bytes → Except Error α) :
    (asserted x >>= fun data => asserted (bufferCopy data [] source target len) >>= f) =
      .error .assertPanic := by
  have hcopy : ∀ data, bufferCopy data [] source target len = .error .bounds := by
    intro data
    simp [bufferCopy]
  cases x with
  | error e => rfl
  | ok data =>
    simp only [asserted_ok, bind, Except.bind, hcopy]
    rfl

section
variable {R : Type} [Rand R] (maxSize : ℕ) (data : Bytes) (rand : R)

/-- The range that is duplicated. -/
def expandRange : Range := (randRange data.length (min 16 (maxSize - data.length)) rand).1

/-- The range is inserted in front of itself. -/
def ExpandChoice (offset : ℕ) (inserted : Bytes) : Prop :=
  offset = (expandRange maxSize data rand).start ∧ inserted = slice data (expandRange maxSize data rand)

theorem bytesExpand_splices :
    Splices maxSize data (ExpandChoice maxSize data rand) (bytesExpand maxSize data rand) := by
  by_cases hskip : data.length = 0 ∨ maxSize ≤ data.length
  · exact .inl (if_pos hskip)
  rw [bytesExpand, if_neg hskip, ← expandRange]
  have hsize : 1 ≤ data.length := by omega
  have hmax : 1 ≤ min 16 (maxSize - data.length) := by omega
  obtain ⟨hlt, hstop, hlen⟩ := yields_randRange hsize hmax rand
  rw [← expandRange] at hlt hstop hlen
  unfold ExpandChoice
  generalize expandRange maxSize data rand = range at hlt hstop hlen ⊢
  have hslice := slice_length hstop
  have hgap : gap data range.start range.len = slice data range := by
    rw [gap, slice, take_append_of_le_length]
    rw [length_drop, Range.len]
    omega
  refine .of_ok (by omega) ⟨rfl, rfl⟩ (by omega) ?_
  simp only [bufferSelfCopy_resize (by omega : range.start ≤ data.length)
    (by omega : 0 < data.length + range.len), hgap]
  rfl

theorem yields_drawInsert {size : ℕ} (hsize : 0 < size) :
    Yields (drawInsert size : StateM R (ℕ × ℕ × ℕ)) fun drawn =>
      0 < drawn.1 ∧ drawn.2.1 ≤ size ∧ drawn.2.2 < size := by
  refine (Yields.below (by decide)).bind fun amount _ => ?_
  refine (Yields.below (Nat.succ_pos _)).bind fun offset hoffset => ?_
  refine (Yields.below hsize).bind fun index hindex => Yields.pure ?_
  exact ⟨Nat.lt_add_right _ Nat.one_pos, Nat.le_of_lt_succ hoffset, hindex⟩

/-- One byte of the input, as often as it was drawn and fits. -/
def InsertChoice (offset : ℕ) (inserted : Bytes) : Prop :=
  ∃ amount index val, (drawInsert data.length rand).1 = (amount, offset, index) ∧
    data[index]? = some val ∧ inserted = List.replicate (min amount (maxSize - data.length)) val

theorem bytesInsert_splices :
    Splices maxSize data (InsertChoice maxSize data rand) (bytesInsert maxSize data rand) := by
  by_cases hskip : data.length = 0 ∨ maxSize ≤ data.length
  · exact .inl (if_pos hskip)
  obtain ⟨hamount, hoffset, hindex⟩ := yields_drawInsert (by omega : 0 < data.length) rand
  rw [bytesInsert, if_neg hskip]
  unfold InsertChoice
  generalize (drawInsert data.length rand).1 = drawn at hamount hoffset hindex ⊢
  obtain ⟨amount, offset, index⟩ := drawn
  simp only at hamount hoffset hindex ⊢
  rw [fitting_eq_some (by omega), getElem?_eq_getElem hindex]
  refine .of_ok hoffset ⟨amount, index, _, rfl, getElem?_eq_getElem hindex, rfl⟩ ?_ ?_
  · rw [length_replicate]
    omega
  · have hpos : 0 < data.length + min amount (maxSize - data.length) := by omega
    simp only [bufferSelfCopy_resize hoffset hpos, asserted_ok, bind, Except.bind, bufferSet_gap hoffset]
    rfl

theorem yields_drawInsertCopy (hsize : 0 < data.length) (hmax : data.length < maxSize) :
    Yields (drawInsertCopy maxSize data.length : StateM R (ℕ × Range)) fun drawn =>
      drawn.1 < data.length ∧ drawn.2.start < drawn.2.stop ∧ drawn.2.stop ≤ data.length ∧
        drawn.2.len ≤ maxSize - data.length := by
  refine (Yields.below hsize).bind fun target htarget => ?_
  refine (yields_randRange hsize (by omega)).bind fun range hrange => Yields.pure ?_
  obtain ⟨hlt, hstop, hlen⟩ := hrange
  exact ⟨htarget, hlt, hstop, hlen.trans (by omega)⟩

/-- A range of the input as it was. -/
def InsertCopyChoice (offset : ℕ) (inserted : Bytes) : Prop :=
  ∃ range, (drawInsertCopy maxSize data.length rand).1 = (offset, range) ∧ inserted = slice data range

theorem bytesInsertCopy_splices (tmpBuf : Bytes) (rand : R) :
    Splices maxSize data (InsertCopyChoice maxSize data rand)
      ((bytesInsertCopy maxSize tmpBuf data rand).map fun out => (out.1, out.2.2)) := by
  by_cases hskip : data.length ≤ 1 ∨ maxSize ≤ data.length
  · rw [bytesInsertCopy, if_pos hskip]
    exact .inl rfl
  obtain ⟨htarget, hlt, hstop, hlen⟩ :=
    yields_drawInsertCopy maxSize data (by omega) (by omega) rand
  rw [bytesInsertCopy, if_neg hskip]
  unfold InsertCopyChoice
  generalize (drawInsertCopy maxSize data.length rand).1 = drawn at htarget hlt hstop hlen ⊢
  obtain ⟨target, range⟩ := drawn
  simp only at htarget hlt hstop hlen ⊢
  have hslice := slice_length hstop
  have hpos : 0 < range.len := Nat.sub_pos_of_lt hlt
  have hsum : range.start + range.len = range.stop := Nat.add_sub_cancel' hlt.le
  -- the range is saved before anything moves
  have hsave : bufferCopy (BytesSwap.resize tmpBuf range.len)
      (BytesSwap.resize data (data.length + range.len)) range.start 0 range.len =
        .ok (slice data range) := by
    have hpiece : ((BytesSwap.resize data (data.length + range.len)).drop range.start).take range.len =
        slice data range := by
      rw [BytesSwap.resize, take_of_length_le (Nat.le_add_right _ _), drop_append_of_le_length
        (by omega), take_append_of_le_length (by rw [length_drop]; omega), slice]
    have hcopy := copy_pieces [] (BytesSwap.resize tmpBuf range.len) [] rfl (resize_length _ _).symm hpiece
    rw [bufferCopy_ok hpos (by rw [resize_length]; omega) (by rw [resize_length]; omega)]
    simpa using hcopy
  have hfill := bufferCopy_gap hpos htarget.le (by omega : 0 + range.len ≤ (slice data range).length)
  rw [drop_zero, take_of_length_le hslice.le] at hfill
  refine .of_ok htarget.le ⟨range, rfl, rfl⟩ (by omega) ?_
  simp only [hsave, asserted_ok, bind, Except.bind,
    bufferSelfCopy_resize htarget.le (by omega : 0 < data.length + range.len), hfill]
  rfl

theorem crossoverInsertAt_eq {target : ℕ} {range : Range} {other : Bytes}
    (htarget : target ≤ data.length) (hlt : range.start < range.stop)
    (hstop : range.stop ≤ other.length) :
    crossoverInsertAt data target range other =
      .ok (.mutated, data.take target ++ slice other range ++ data.drop target) := by
  have hpos : 0 < range.len := Nat.sub_pos_of_lt hlt
  have hsum : range.start + range.len = range.stop := Nat.add_sub_cancel' hlt.le
  have hfill := bufferCopy_gap hpos htarget (by omega : range.start + range.len ≤ other.length)
  simp only [crossoverInsertAt, asserted_ok, bind, Except.bind,
    bufferSelfCopy_resize htarget (by omega : 0 < data.length + range.len), hfill]
  rfl

/-- A range of the other input. -/
def CrossoverChoice (corpus : List (ℕ × Bytes)) (rand : R) (offset : ℕ) (inserted : Bytes) : Prop :=
  ∃ id other range, (drawOther corpus rand).1 = some (id, other) ∧
    (drawCrossover maxSize data.length other.length (drawOther corpus rand).2).1 = (range, offset) ∧
    inserted = slice other range

theorem yields_drawCrossover {otherSize : ℕ} (hsize : 0 < data.length)
    (hmax : data.length < maxSize) (hother : 0 < otherSize) :
    Yields (drawCrossover maxSize data.length otherSize : StateM R (Range × ℕ)) fun drawn =>
      drawn.1.start < drawn.1.stop ∧ drawn.1.stop ≤ otherSize ∧ drawn.1.len ≤ maxSize - data.length ∧
        drawn.2 < data.length := by
  refine (yields_randRange hother (by omega)).bind fun range hrange => ?_
  refine (Yields.below hsize).bind fun target htarget => Yields.pure ?_
  obtain ⟨hlt, hstop, hlen⟩ := hrange
  exact ⟨hlt, hstop, hlen.trans (by omega), htarget⟩

/-- Only an empty corpus stops this mutator. -/
theorem crossoverInsert_splices_iff (corpus : List (ℕ × Bytes)) (current : Option ℕ) (rand : R) :
    Splices maxSize data (CrossoverChoice maxSize data corpus rand)
        (crossoverInsert corpus current maxSize data rand) ↔
      (corpus = [] → data.length = 0 ∨ maxSize ≤ data.length) := by
  by_cases hskip : data.length = 0 ∨ maxSize ≤ data.length
  · exact iff_of_true (.inl (if_pos hskip)) fun _ => hskip
  rw [crossoverInsert, if_neg hskip]
  unfold CrossoverChoice
  by_cases hne : corpus = []
  · subst hne
    exact iff_of_false Splices.error fun h => hskip (h rfl)
  obtain ⟨⟨id, other⟩, hdrawn⟩ : ∃ entry, (drawOther corpus rand).1 = some entry :=
    ⟨_, getElem?_eq_getElem (Yields.below (length_pos_iff.mpr hne) rand)⟩
  generalize drawOther corpus rand = outcome at hdrawn ⊢
  obtain ⟨drawn, rest⟩ := outcome
  subst hdrawn
  simp only [hne, false_implies, iff_true]
  by_cases hcurrent : current = some id ∨ other.length < 2
  · exact .inl (if_pos hcurrent)
  rw [if_neg hcurrent]
  obtain ⟨hlt, hstop, hlen, htarget⟩ :=
    yields_drawCrossover maxSize data (by omega) (by omega) (by omega : 0 < other.length) rest
  rcases hcross : (drawCrossover maxSize data.length other.length rest).1 with ⟨range, target⟩
  simp only [hcross] at hlt hstop hlen htarget ⊢
  have hslice := slice_length hstop
  exact .of_ok htarget.le ⟨id, other, range, rfl, hcross, rfl⟩ (by omega)
    (crossoverInsertAt_eq data htarget.le hlt hstop)

/-- The token that is drawn. -/
def drawnToken (tokens : Option (List Bytes)) (rand : R) : Option Bytes :=
  tokens.bind fun tokens => tokens[(drawToken tokens.length data.length rand).1.1]?

/-- A token, as much of it as fits. -/
def TokenChoice (tokens : Option (List Bytes)) (rand : R) (offset : ℕ) (inserted : Bytes) : Prop :=
  ∃ toks token, tokens = some toks ∧ (drawToken toks.length data.length rand).1.2 = offset ∧
    drawnToken data tokens rand = some token ∧ inserted = token.take (maxSize - data.length)

theorem yields_drawToken {tokensLen : ℕ} (hlen : 0 < tokensLen) (size : ℕ) :
    Yields (drawToken tokensLen size : StateM R (ℕ × ℕ)) fun drawn => drawn.1 < tokensLen ∧ drawn.2 ≤ size := by
  refine (Yields.below hlen).bind fun tokenIdx hidx => ?_
  refine (Yields.below (Nat.succ_pos _)).bind fun off hoff => Yields.pure ?_
  exact ⟨hidx, Nat.le_of_lt_succ hoff⟩

/-- An empty token is what the copying functions reject, unless the input is too long already. -/
theorem tokenInsertAt_nil (off : ℕ) : tokenInsertAt maxSize data off [] =
    if data.length ≤ maxSize then .error .assertPanic else .ok (.skipped, data) := by
  split
  · next hle =>
    have hfit : fitting maxSize data.length ([] : Bytes).length = some 0 := if_neg (Nat.not_lt.mpr hle)
    rw [tokenInsertAt, hfit]
    exact asserted_bufferCopy_nil _ _ _ _ _
  · next hle =>
    have hfit : fitting maxSize data.length ([] : Bytes).length = none := by
      rw [fitting, length_nil, Nat.add_zero, if_pos (Nat.not_le.mp hle), if_neg (by omega)]
    rw [tokenInsertAt, hfit]
    rfl

theorem tokenInsertAt_of_ne_nil {off : ℕ} {token : Bytes} (hoff : off ≤ data.length)
    (hne : token ≠ []) :
    tokenInsertAt maxSize data off token = .ok (
      if data.length < maxSize then
        (.mutated, data.take off ++ token.take (maxSize - data.length) ++ data.drop off)
      else (.skipped, data)) := by
  have hpos : 0 < token.length := length_pos_iff.mpr hne
  split
  · next hmax =>
    obtain ⟨len, hlen⟩ : ∃ len, len = min token.length (maxSize - data.length) := ⟨_, rfl⟩
    have htake : token.take (maxSize - data.length) = (token.drop 0).take len := by
      rw [drop_zero, hlen, Nat.min_comm, ← take_take, take_length]
    simp only [tokenInsertAt, fitting_eq_some hmax, ← hlen, asserted_ok, bind, Except.bind, htake,
      bufferSelfCopy_resize hoff (by omega : 0 < data.length + len),
      bufferCopy_gap (by omega : 0 < len) hoff (by omega : 0 + len ≤ token.length)]
    rfl
  · next hmax =>
    have hfit : fitting maxSize data.length token.length = none := by
      rw [fitting, if_pos (by omega), if_neg hmax]
    rw [tokenInsertAt, hfit]
    rfl

theorem tokenInsert_splices_iff (tokens : Option (List Bytes)) (rand : R) :
    Splices maxSize data (TokenChoice maxSize data tokens rand) (tokenInsert tokens maxSize data rand) ↔
      ¬ (drawnToken data tokens rand = some [] ∧ data.length ≤ maxSize) := by
  cases tokens with
  | none => exact iff_of_true (.inl rfl) fun h => by cases h.1
  | some tokens =>
    by_cases hempty : tokens.length = 0
    · refine iff_of_true (.inl (if_pos hempty)) fun h => ?_
      rw [length_eq_zero_iff.mp hempty] at h
      cases h.1
    obtain ⟨hidx, hoff⟩ := yields_drawToken (by omega : 0 < tokens.length) data.length rand
    rw [tokenInsert, if_neg hempty]
    unfold TokenChoice
    have htoken : drawnToken data (some tokens) rand =
        tokens[(drawToken tokens.length data.length rand).1.1]? := rfl
    rw [htoken]
    generalize hdrawn : (drawToken tokens.length data.length rand).1 = drawn at hidx hoff ⊢
    obtain ⟨tokenIdx, off⟩ := drawn
    simp only at hidx hoff ⊢
    rw [getElem?_eq_getElem hidx]
    generalize tokens[tokenIdx] = token
    simp only
    by_cases hnil : token = []
    · subst hnil
      rw [tokenInsertAt_nil]
      split
      · next hle => exact iff_of_false Splices.error (not_not_intro ⟨rfl, hle⟩)
      · next hle => exact iff_of_true (.inl rfl) fun h => hle h.2
    · rw [tokenInsertAt_of_ne_nil maxSize data hoff hnil]
      refine iff_of_true ?_ fun h => hnil (Option.some.inj h.1)
      split
      · refine .of_ok hoff ⟨tokens, token, rfl, by rw [hdrawn], rfl, rfl⟩ ?_ rfl
        rw [length_take]
        omega
      · exact .inl rfl

/-- For every generator, each mutator skips or inserts what was drawn where it was drawn, and no
    assertion fails. The exceptions are a corpus without entries and, for tokens, the empty one. -/
theorem insertion_mutators_splice_iff (tmpBuf : Bytes) (corpus : List (ℕ × Bytes))
    (current : Option ℕ) (tokens : Option (List Bytes)) (rand : R) :
    Splices maxSize data (ExpandChoice maxSize data rand) (bytesExpand maxSize data rand) ∧
    Splices maxSize data (InsertChoice maxSize data rand) (bytesInsert maxSize data rand) ∧
    Splices maxSize data (InsertCopyChoice maxSize data rand)
      ((bytesInsertCopy maxSize tmpBuf data rand).map fun out => (out.1, out.2.2)) ∧
    (Splices maxSize data (CrossoverChoice maxSize data corpus rand)
        (crossoverInsert corpus current maxSize data rand) ↔
      (corpus = [] → data.length = 0 ∨ maxSize ≤ data.length)) ∧
    (Splices maxSize data (TokenChoice maxSize data tokens rand) (tokenInsert tokens maxSize data rand) ↔
      ¬ (drawnToken data tokens rand = some [] ∧ data.length ≤ maxSize)) :=
  ⟨bytesExpand_splices maxSize data rand, bytesInsert_splices maxSize data rand,
    bytesInsertCopy_splices maxSize data tmpBuf rand,
    crossoverInsert_splices_iff maxSize data corpus current rand,
    tokenInsert_splices_iff maxSize data tokens rand⟩

end

/-- A file whose only line is an escape sequence without digits is loaded, as one empty token, and
    the mutator then fails an assertion on an input of two bytes. -/
theorem unfinished_escape_fails_assertion :
    addFromFile [] ["\"\\x\"".toList] = .ok [[]] ∧
      tokenInsert (some [[]]) 8 [1, 2] ([] : List UInt64) = .error .assertPanic ∧
      ¬ Splices 8 [1, 2] (TokenChoice 8 [1, 2] (some [[]]) ([] : List UInt64))
        (tokenInsert (some [[]]) 8 [1, 2] ([] : List UInt64)) := by
  have hload : addFromFile [] ["\"\\x\"".toList] = .ok [[]] := by decide +kernel
  have hfails : tokenInsert (some [[]]) 8 [1, 2] ([] : List UInt64) = .error .assertPanic := by
    decide +kernel
  refine ⟨hload, hfails, ?_⟩
  exact Splices.error

end Bofuzz.InsertMutators
