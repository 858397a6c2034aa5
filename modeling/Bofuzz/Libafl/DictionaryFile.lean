import Bofuzz.Libafl.InsertMutators

/-! Dictionary files, written and read back (`libafl/src/mutators/token_mutations.rs`).

    A token is spelled with characters that stand for their own bytes and with escape sequences. The
    reader looks for the closing quote at the character whose number is the number of bytes before
    the end, so that it rejects every line with a character of more than one byte. -/

namespace Bofuzz.InsertMutators
open BytesSwap List Result UInt8

/-! ### Writing -/

/-- A printable character that needs no escape. -/
def isLiteral (c : Char) : Bool := 32 ≤ c.toNat ∧ c.toNat ≠ 127 ∧ c ≠ '"' ∧ c ≠ '\\'

/-- A part of the spelling of a token. -/
inductive Piece where
  | literal (c : Char) (h : isLiteral c)
  | quote
  | backslash
  | hex (b : UInt8)

namespace Piece

def chars : Piece → List Char
  | literal c _ => [c]
  | quote => ['\\', '"']
  | backslash => ['\\', '\\']
  | hex b => ['\\', 'x', Nat.digitChar (b.toNat / 16), Nat.digitChar (b.toNat % 16)]

def bytes : Piece → Bytes
  | literal c _ => String.utf8EncodeChar c
  | quote => [34]
  | backslash => [92]
  | hex b => [b]

end Piece

/-- A token with its name, in some spelling. -/
structure DictionaryEntry where
  name : List Char
  pieces : List Piece
  name_ok : ∀ c ∈ name, c ≠ '"' ∧ c ≠ '#' ∧ isWhitespace c = false
  nonempty : pieces ≠ []

namespace DictionaryEntry

variable (e : DictionaryEntry)

def token : Bytes := e.pieces.flatMap Piece.bytes

def text : List Char := e.pieces.flatMap Piece.chars

/-- `name="text"`. -/
def line : List Char := e.name ++ '=' :: '"' :: (e.text ++ ['"'])

/-- Every character of the line is one byte. -/
def OneByte : Prop := ∀ c ∈ e.line, c.utf8Size = 1

end DictionaryEntry

/-! ### The line -/

theorem byteLen_spec (cs : List Char) :
    cs.length ≤ byteLen cs ∧ (byteLen cs = cs.length ↔ ∀ c ∈ cs, c.utf8Size = 1) := by
  induction cs with
  | nil => simp [byteLen]
  | cons c cs ih =>
    have hpos := c.utf8Size_pos
    have hsum : byteLen (c :: cs) = c.utf8Size + byteLen cs := by simp [byteLen]
    rw [hsum, length_cons, forall_mem_cons, ← ih.2]
    omega

namespace DictionaryEntry
variable (e : DictionaryEntry)

theorem line_eq_cons :
    ∃ a rest, e.line = a :: (rest ++ ['"']) ∧ a ≠ '#' ∧ isWhitespace a = false := by
  cases hname : e.name with
  | nil => exact ⟨'=', '"' :: e.text, by simp [line, hname], by decide, by decide⟩
  | cons a rest =>
    have ha := e.name_ok a (hname ▸ mem_cons_self)
    exact ⟨a, rest ++ '=' :: '"' :: e.text, by simp [line, hname], ha.2.1, ha.2.2⟩

theorem trim_line : trim e.line = e.line := by
  obtain ⟨a, rest, heq, -, ha⟩ := e.line_eq_cons
  have hquote : isWhitespace '"' = false := by decide
  simp [heq, trim, ha, hquote]

theorem text_ne_nil : e.text ≠ [] := by
  obtain ⟨p, ps, hp⟩ := exists_cons_of_ne_nil e.nonempty
  cases p <;> simp [text, hp, Piece.chars]

theorem last_line : e.line[byteLen e.line - 1]? = some '"' ↔ e.OneByte := by
  obtain ⟨hle, hiff⟩ := byteLen_spec e.line
  obtain ⟨a, rest, heq, -⟩ := e.line_eq_cons
  rw [OneByte, ← hiff]
  constructor
  · intro h
    have hlt := (List.getElem?_eq_some_iff.mp h).1
    omega
  · intro h
    rw [h, heq]
    simp

theorem lineItem_line [Decidable e.OneByte] : lineItem e.line =
    if e.OneByte then .ok (some (e.text.map fun c => ofNat c.toNat))
    else .error (.illegalArgument (.illegalLine (String.ofList e.line))) := by
  have hnot : '"' ∉ e.name := fun h => (e.name_ok _ h).1 rfl
  have hidx : e.line.idxOf '"' = e.name.length + 1 := by
    rw [line, idxOf_append_of_notMem hnot]
    rfl
  have hlen : e.line.length = e.name.length + (e.text.length + 3) := by simp [line]
  have hitem : (e.line.drop (e.name.length + 1 + 1)).take (e.line.length - 1 - (e.name.length + 1 + 1)) =
      e.text := by
    rw [hlen, Nat.add_assoc, line, ← drop_drop, drop_left]
    exact take_left' (by omega)
  obtain ⟨a, rest, heq, ha, -⟩ := e.line_eq_cons
  have hfirst : ¬ (e.line = [] ∨ e.line.head? = some '#') := by simp [heq, ha]
  have hmem : '"' ∈ e.line := by simp [heq]
  unfold lineItem
  rw [if_neg hfirst, hidx]
  simp only [hmem, not_true_eq_false, false_or, ne_eq, last_line, hitem, e.text_ne_nil, if_false]
  split_ifs
  · omega
  all_goals rfl

end DictionaryEntry

/-! ### Decoding -/

theorem hex_digits (n : Fin 256) :
    fromHex (ofNat (Nat.digitChar (n / 16)).toNat) = .ok (ofNat (n / 16)) ∧
    fromHex (ofNat (Nat.digitChar (n % 16)).toNat) = .ok (ofNat (n % 16)) ∧
    ofNat (n / 16) <<< 4 + ofNat (n % 16) = ofNat n := by
  decide +revert +kernel

/-- A character of one byte that needs no escape is not taken for a backslash. -/
theorem ofNat_ne_backslash {c : Char} (h : isLiteral c) (hone : c.utf8Size = 1) :
    ofNat c.toNat ≠ backslash := by
  intro heq
  have hle : c.toNat ≤ 127 := Char.utf8Size_eq_one_iff.mp hone
  have hval : c.toNat = 92 := by
    have hmod := congrArg toNat heq
    simp only [toNat_ofNat', backslash, reduceToNat] at hmod
    omega
  obtain rfl : c = '\\' := Char.toNat_inj.mp hval
  exact absurd h (by decide)

/-- A piece whose characters are one byte each is decoded to its bytes. -/
theorem foldlM_piece (p : Piece) (hp : ∀ c ∈ p.chars, c.utf8Size = 1) (token : Bytes) (d : UInt8) :
    ∃ d', (p.chars.map fun c => ofNat c.toNat).foldlM Decoder.step ⟨token, false, 0, d⟩ =
      .ok ⟨token ++ p.bytes, false, 0, d'⟩ := by
  cases p with
  | literal c h =>
    have hone : c.utf8Size = 1 := hp c mem_cons_self
    have hstep : Decoder.step ⟨token, false, 0, d⟩ (ofNat c.toNat) =
        .ok ⟨token ++ [ofNat c.toNat], false, 0, d⟩ := by
      simp [Decoder.step, ofNat_ne_backslash h hone]
    refine ⟨d, bind_eq_ok.mpr ⟨_, hstep, ?_⟩⟩
    rw [Piece.bytes, String.utf8EncodeChar_eq_singleton hone]
    rfl
  | quote | backslash => exact ⟨d, rfl⟩
  | hex b =>
    obtain ⟨hhigh, hlow, hsum⟩ := hex_digits ⟨b.toNat, b.toNat_lt⟩
    rw [UInt8.ofNat_toNat] at hsum
    refine ⟨b, ?_⟩
    have hstart : Decoder.step ⟨token, false, 0, d⟩ 92 = .ok ⟨token, true, 0, d⟩ := rfl
    have hx : Decoder.step ⟨token, true, 0, d⟩ 120 = .ok ⟨token, false, 1, d⟩ := rfl
    have hfirst : Decoder.step ⟨token, false, 1, d⟩ (ofNat (Nat.digitChar (b.toNat / 16)).toNat) =
        .ok ⟨token, false, 2, ofNat (b.toNat / 16) <<< 4⟩ := bind_eq_ok.mpr ⟨_, hhigh, rfl⟩
    have hsecond : Decoder.step ⟨token, false, 2, ofNat (b.toNat / 16) <<< 4⟩
        (ofNat (Nat.digitChar (b.toNat % 16)).toNat) = .ok ⟨token ++ [b], false, 0, b⟩ :=
      bind_eq_ok.mpr ⟨_, hlow, by rw [hsum]; rfl⟩
    refine bind_eq_ok.mpr ⟨_, hstart, bind_eq_ok.mpr ⟨_, hx, ?_⟩⟩
    exact bind_eq_ok.mpr ⟨_, hfirst, bind_eq_ok.mpr ⟨_, hsecond, rfl⟩⟩

theorem foldlM_pieces : ∀ (ps : List Piece) (token : Bytes) (d : UInt8),
    (∀ c ∈ ps.flatMap Piece.chars, c.utf8Size = 1) →
    ∃ d', ((ps.flatMap Piece.chars).map fun c => ofNat c.toNat).foldlM Decoder.step
      ⟨token, false, 0, d⟩ = .ok ⟨token ++ ps.flatMap Piece.bytes, false, 0, d'⟩
  | [], token, d, _ => ⟨d, by simp⟩
  | p :: ps, token, d, h => by
    rw [flatMap_cons, forall_mem_append] at h
    obtain ⟨d₁, hfirst⟩ := foldlM_piece p h.1 token d
    obtain ⟨d₂, hrest⟩ := foldlM_pieces ps (token ++ p.bytes) d₁ h.2
    refine ⟨d₂, ?_⟩
    rw [flatMap_cons, map_append, foldlM_append, hfirst, flatMap_cons, ← append_assoc]
    exact hrest

/-- A line is read back exactly if its characters are one byte each. -/
theorem addLine_line (e : DictionaryEntry) (tokens out : List Bytes) :
    addLine tokens e.line = .ok out ↔ e.OneByte ∧ out = addToken tokens e.token := by
  classical
  rw [addLine, e.trim_line, e.lineItem_line]
  split_ifs with hone
  · have htext : ∀ c ∈ e.text, c.utf8Size = 1 := fun c hc => hone c (by simp [DictionaryEntry.line, hc])
    obtain ⟨d, hfold⟩ := foldlM_pieces e.pieces [] 0 htext
    have hdecode : strDecode (e.text.map fun c => ofNat c.toNat) = .ok e.token :=
      bind_eq_ok.mpr ⟨_, hfold, rfl⟩
    simp only [bind_eq_ok, Except.ok.injEq, exists_eq_left', hdecode, pure_eq_ok, hone, true_and]
    exact eq_comm
  · exact iff_of_false (by rintro ⟨⟩) fun h => hone h.1

/-! ### The file -/

theorem addFromFile_lines : ∀ (entries : List DictionaryEntry) (tokens out : List Bytes),
    addFromFile tokens (entries.map DictionaryEntry.line) = .ok out ↔
      (∀ e ∈ entries, e.OneByte) ∧ out = (entries.map DictionaryEntry.token).foldl addToken tokens
  | [], tokens, out => by
    simp only [addFromFile, map_nil, foldlM_nil, pure_eq_ok]
    simp [eq_comm]
  | e :: entries, tokens, out => by
    have ih := addFromFile_lines entries
    unfold addFromFile at ih ⊢
    simp only [map_cons, foldlM_cons, bind_eq_ok, addLine_line, ih, foldl_cons,
      forall_mem_cons]
    aesop

theorem foldl_addToken : ∀ (ts tokens : List Bytes),
    ts.foldl addToken tokens = tokens ++ (ts.filter fun t => t ∉ tokens).eraseDups
  | [], tokens => by simp
  | t :: ts, tokens => by
    rw [foldl_cons, foldl_addToken ts]
    by_cases ht : t ∈ tokens
    · simp [addToken, ht]
    have hrest : (ts.filter fun u => u ∉ tokens ++ [t]) =
        (ts.filter fun u => u ∉ tokens).filter fun u => !u == t := by
      rw [filter_filter]
      refine filter_congr fun u _ => ?_
      by_cases hu : u = t <;> simp [hu]
    have hadd : addToken tokens t = tokens ++ [t] := by simp [addToken, ht]
    rw [hadd, hrest, filter_cons_of_pos (by simpa using ht), eraseDups_cons, append_assoc]
    rfl

/-- A dictionary is read back as its tokens, each once and in the order of their first occurrence,
    exactly if no name and no spelling has a character of more than one byte. -/
theorem dictionary_round_trip_iff (entries : List DictionaryEntry) :
    addFromFile [] (entries.map DictionaryEntry.line) =
      .ok (entries.map DictionaryEntry.token).eraseDups ↔
      ∀ e ∈ entries, e.OneByte := by
  rw [addFromFile_lines, foldl_addToken]
  simp

/-- The token `é`, spelled as it is. -/
theorem accented_token_rejected :
    addFromFile [] [DictionaryEntry.line ⟨['a'], [.literal 'é' (by decide)],
      forall_mem_singleton.mpr (by decide), by simp⟩] =
      .error (.illegalArgument (.illegalLine "a=\"é\"")) := by
  decide +kernel

end Bofuzz.InsertMutators
