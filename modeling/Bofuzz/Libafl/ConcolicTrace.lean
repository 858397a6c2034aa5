import Bofuzz.Lib.Effect
import Bofuzz.Lib.Result
import Mathlib.Data.Nat.Digits.Defs
import Mathlib.Logic.Equiv.List
import Mathlib.Tactic.DeriveCountable

/-! The trace of symbolic expressions (`libafl/src/observers/concolic/serialization_format.rs`).

    A message refers to earlier ones by ids, and the ids of the messages are not written: writer and
    reader count. References are written relative to the counter of the writer and made
    absolute with that of the reader. `nextMessage_written` says that one message is read back as
    it was written if the counters agree; the two sides count alike except for `Ite`. -/

namespace Bofuzz.Concolic
open Effect Result List

abbrev Bytes := List UInt8

/-- `SymExprRef`, a `NonZeroUsize`. -/
abbrev SymExprRef := { n : ℕ // 0 < n }

abbrev Location := ℕ

/-! ### Messages -/

instance countableUInt8 : Countable UInt8 := Function.Injective.countable (f := UInt8.toNat) fun _ _ => UInt8.toNat_inj.mp

instance countableUInt64 : Countable UInt64 :=
  Function.Injective.countable (f := UInt64.toNat) fun _ _ => UInt64.toNat_inj.mp

/-- The expressions without operands. The bits of a float stand for it. -/
inductive Leaf where
  | inputByte (offset : ℕ) (value : UInt8)
  | integer (value : UInt64) (bits : UInt8)
  | integer128 (high low : UInt64)
  | integerFromBuffer
  | float (value : UInt64) (isDouble : Bool)
  | nullPointer
  | true
  | false
  | bool (value : Bool)
  deriving DecidableEq, Countable

/-- The expressions with one operand. -/
inductive Unary where
  | neg | floatAbs | floatNeg | not
  | sext (bits : UInt8)
  | zext (bits : UInt8)
  | trunc (bits : UInt8)
  | intToFloat (isDouble isSigned : Bool)
  | floatToFloat (toDouble : Bool)
  | bitsToFloat (toDouble : Bool)
  | floatToBits
  | floatToSignedInteger (bits : UInt8)
  | floatToUnsignedInteger (bits : UInt8)
  | boolToBit
  | extract (firstBit lastBit : ℕ)
  deriving DecidableEq, Countable

/-- The expressions with two operands. -/
inductive Binary where
  | add | sub | mul | unsignedDiv | signedDiv | unsignedRem | signedRem
  | shiftLeft | logicalShiftRight | arithmeticShiftRight
  | signedLessThan | signedLessEqual | signedGreaterThan | signedGreaterEqual
  | unsignedLessThan | unsignedLessEqual | unsignedGreaterThan | unsignedGreaterEqual
  | equal | notEqual | boolAnd | boolOr | boolXor | and | or | xor
  | floatOrdered | floatOrderedGreaterThan | floatOrderedGreaterEqual | floatOrderedLessThan
  | floatOrderedLessEqual | floatOrderedEqual | floatOrderedNotEqual
  | floatUnordered | floatUnorderedGreaterThan | floatUnorderedGreaterEqual | floatUnorderedLessThan
  | floatUnorderedLessEqual | floatUnorderedEqual | floatUnorderedNotEqual
  | floatAdd | floatSub | floatMul | floatDiv | floatRem
  | concat
  | insert (offset : UInt64) (littleEndian : Bool)
  deriving DecidableEq, Countable

/-- `SymExpr`, with the kinds that the source treats alike put together. -/
inductive SymExpr where
  | leaf (kind : Leaf)
  | unary (kind : Unary) (op : SymExprRef)
  | binary (kind : Binary) (a b : SymExprRef)
  | pathConstraint (constraint : SymExprRef) (taken : Bool) (location : Location)
  | expressionsUnreachable (exprs : List SymExprRef)
  | call (location : Location)
  | ret (location : Location)
  | basicBlock (location : Location)
  | ite (cond a b : SymExprRef)
  deriving DecidableEq, Countable

inductive Failure where
  /-- A subtraction below zero. -/
  | overflow
  /-- `unwrap` of `SymExprRef::new(0)`. -/
  | zeroRef
  /-- The header promises more bytes than there are. -/
  | splitAt
  /-- An error of `bincode` that is handed on. -/
  | bincode
  deriving DecidableEq

def SymExprRef.new (n : ℕ) : Except Failure SymExprRef :=
  if h : 0 < n then .ok ⟨n, h⟩ else .error .zeroRef

/-- `make_relative` and `make_absolute`: the distance of a reference from a counter. Below zero is a
    panic of a dev build; a release build wraps, so that only the distance zero panics there. -/
def distance (counter : ℕ) (expr : SymExprRef) : Except Failure SymExprRef :=
  if expr.val ≤ counter then SymExprRef.new (counter - expr.val) else .error .overflow

/-- What the two big matches do to the operands of a message. -/
def SymExpr.mapRefs (f : SymExprRef → Except Failure SymExprRef) : SymExpr → Except Failure SymExpr
  | .leaf kind => return .leaf kind
  | .unary kind op => return .unary kind (← f op)
  | .binary kind a b => return .binary kind (← f a) (← f b)
  | .pathConstraint constraint taken location => return .pathConstraint (← f constraint) taken location
  | .expressionsUnreachable exprs => return .expressionsUnreachable (← exprs.mapM f)
  | .call location => return .call location
  | .ret location => return .ret location
  | .basicBlock location => return .basicBlock location
  | .ite cond a b => return .ite (← f cond) (← f a) (← f b)

/-- The operands of a message. -/
def SymExpr.refs : SymExpr → List SymExprRef
  | .unary _ op => [op]
  | .binary _ a b => [a, b]
  | .pathConstraint constraint _ _ => [constraint]
  | .expressionsUnreachable exprs => exprs
  | .ite cond a b => [cond, a, b]
  | _ => []

open SymExpr (mapRefs refs)

inductive DecodeError where
  | unexpectedEof
  | other
  deriving DecidableEq

/-- `bincode`: a message is read back whatever follows it, and a stream that is used up is noticed.
    Beside the answer stand the bytes that are left, since an attempt that fails has read some
    too. -/
structure Codec where
  encode : SymExpr → Bytes
  decode : Bytes → Except DecodeError SymExpr × Bytes
  decode_encode : ∀ message rest, decode (encode message ++ rest) = (.ok message, rest)
  decode_nil : decode [] = (.error .unexpectedEof, [])

/-! ### The writer -/

/-- A trace: the length that stands in its header, and the messages. -/
structure Trace where
  length : ℕ := 0
  body : Bytes := []
  deriving DecidableEq

/-- `MessageFileWriter`. -/
structure Writer where
  idCounter : ℕ := 1
  trace : Trace := {}
  deriving DecidableEq

/-- The arms of `write_message` that increment `id_counter`. -/
def Writer.counts : SymExpr → Bool
  | .leaf _ | .unary .. | .binary .. => true
  | .pathConstraint .. | .expressionsUnreachable _ => false
  | .call _ | .ret _ | .basicBlock _ => false
  | .ite .. => false

/-- `write_trace_size` and `update_trace_header`. -/
def Writer.writeTraceSize (w : Writer) : Writer :=
  { w with trace := { w.trace with length := w.trace.body.length } }

variable (codec : Codec)

def writeMessage (message : SymExpr) : EStateM Failure Writer SymExprRef := do
  let w ← get
  let relative ← ofResult (message.mapRefs (distance w.idCounter))
  set { idCounter := w.idCounter + (Writer.counts message).toNat
        trace := { w.trace with body := w.trace.body ++ codec.encode relative } : Writer }
  match message with
  | .pathConstraint .. => modify Writer.writeTraceSize
  | _ => pure ()
  ofResult (SymExprRef.new w.idCounter)

def writeMessages : List SymExpr → EStateM Failure Writer (List SymExprRef)
  | [] => pure []
  | message :: rest => do
    let id ← writeMessage codec message
    let ids ← writeMessages rest
    return id :: ids

/-! ### The reader -/

/-- `MessageFileReader` over a buffer. -/
structure Reader where
  currentId : ℕ := 1
  buffer : Bytes

/-- The arms of `transform_message` that increment `current_id`. -/
def Reader.counts : SymExpr → Bool
  | .leaf _ | .unary .. | .binary .. => true
  | .pathConstraint .. | .expressionsUnreachable _ => false
  | .call _ | .ret _ | .basicBlock _ => false
  | .ite .. => true

/-- `transform_message`. -/
def transformMessage (currentId : ℕ) (message : SymExpr) :
    Except Failure (SymExprRef × SymExpr) := do
  let absolute ← message.mapRefs (distance currentId)
  let id ← SymExprRef.new currentId
  return (id, absolute)

/-- `next_message`: `none` at the end of the stream. What the decoder has read is gone in any
    case. -/
def Reader.nextMessage (r : Reader) : Option (Except Failure (SymExprRef × SymExpr)) × Reader :=
  match codec.decode r.buffer with
  | (.error .unexpectedEof, rest) => (none, ⟨r.currentId, rest⟩)
  | (.error .other, rest) => (some (.error .bincode), ⟨r.currentId, rest⟩)
  | (.ok message, rest) =>
    (some (transformMessage r.currentId message),
      ⟨r.currentId + (Reader.counts message).toNat, rest⟩)

/-- `from_length_prefixed_buffer`. -/
def Reader.fromLengthPrefixedBuffer (trace : Trace) : Except Failure Reader :=
  if trace.length ≤ trace.body.length then .ok { buffer := trace.body.take trace.length }
  else .error .splitAt

/-- What the next `n` calls of `next_message` return. -/
def Reader.read : ℕ → Reader → List (Option (Except Failure (SymExprRef × SymExpr)))
  | 0, _ => []
  | n + 1, r => (r.nextMessage codec).1 :: Reader.read n (r.nextMessage codec).2

/-! ### One message -/

section
variable {codec : Codec} {counter : ℕ} {message relative : SymExpr} {w w' : Writer}

theorem SymExprRef.new_eq_ok {n : ℕ} {r : SymExprRef} : SymExprRef.new n = .ok r ↔ n = r.val := by
  unfold SymExprRef.new
  split
  · next hpos => simp [Subtype.ext_iff]
  · next hzero =>
    have := r.property
    simp only [reduceCtorEq, false_iff]
    omega

/-- Distances are symmetric, which is why they can be undone. -/
theorem distance_eq_ok {a b : SymExprRef} :
    distance counter a = .ok b ↔ a.val + b.val = counter := by
  unfold distance
  split
  · rw [SymExprRef.new_eq_ok]
    omega
  · simp only [reduceCtorEq, false_iff]
    omega

theorem distance_comm {a b : SymExprRef} (h : distance counter a = .ok b) :
    distance counter b = .ok a := by
  rw [distance_eq_ok] at h ⊢
  omega

theorem exists_distance_iff {a : SymExprRef} :
    (∃ b, distance counter a = .ok b) ↔ a.val < counter := by
  simp only [distance_eq_ok]
  constructor
  · rintro ⟨b, hb⟩
    have := b.property
    omega
  · intro hlt
    exact ⟨⟨counter - a.val, by omega⟩, by simp only; omega⟩

variable {f : SymExprRef → Except Failure SymExprRef}

theorem mapRefs_inverse {g : SymExprRef → Except Failure SymExprRef}
    (hinv : ∀ a b, f a = .ok b → g b = .ok a) (h : message.mapRefs f = .ok relative) :
    relative.mapRefs g = .ok message := by
  cases message with
  | expressionsUnreachable exprs =>
    simp only [mapRefs, bind_eq_ok, pure_eq_ok, mapM_eq_ok] at h
    obtain ⟨exprs', hall, rfl⟩ := h
    simp only [mapRefs, bind_eq_ok, pure_eq_ok, mapM_eq_ok]
    exact ⟨exprs, (hall.imp fun a b => hinv a b).flip, rfl⟩
  | _ =>
    grind [mapRefs, bind_eq_ok, pure_eq_ok]

theorem mapRefs_counts (h : message.mapRefs f = .ok relative) :
    Reader.counts relative = Reader.counts message := by
  cases message <;> simp only [mapRefs, bind_eq_ok, pure_eq_ok] at h <;> grind [Reader.counts]

theorem exists_mapRefs_iff :
    (∃ relative, message.mapRefs f = .ok relative) ↔ ∀ a ∈ message.refs, ∃ b, f a = .ok b := by
  cases message with
  | expressionsUnreachable exprs =>
    simp only [mapRefs, refs, exists_bind_eq_ok, exists_pure_eq_ok, and_true,
      exists_mapM_eq_ok]
  | _ =>
    simp [mapRefs, refs, exists_bind_eq_ok, exists_pure_eq_ok, -bind_eq_ok,
      -pure_eq_ok, -bind_pure_comp]

/-- What a write leaves. -/
def Writer.after (codec : Codec) (w : Writer) (message relative : SymExpr) : Writer :=
  let w' : Writer :=
    ⟨w.idCounter + (Writer.counts message).toNat,
      { w.trace with body := w.trace.body ++ codec.encode relative }⟩
  match message with
  | .pathConstraint .. => w'.writeTraceSize
  | _ => w'

@[simp] theorem after_idCounter (codec : Codec) (w : Writer) (message relative : SymExpr) :
    (w.after codec message relative).idCounter = w.idCounter + (Writer.counts message).toNat := by
  cases message <;> rfl

@[simp] theorem after_body :
    (w.after codec message relative).trace.body = w.trace.body ++ codec.encode relative := by
  cases message <;> rfl

theorem writeMessage_of_relative (hpos : 0 < w.idCounter)
    (h : message.mapRefs (distance w.idCounter) = .ok relative) :
    writeMessage codec message w = .ok ⟨w.idCounter, hpos⟩ (w.after codec message relative) := by
  have hid : SymExprRef.new w.idCounter = .ok ⟨w.idCounter, hpos⟩ := SymExprRef.new_eq_ok.mpr rfl
  have hspec : Spec (writeMessage codec message) w
      (fun id w' => id = ⟨w.idCounter, hpos⟩ ∧ w' = w.after codec message relative)
      (fun _ _ => False) := by
    simp only [writeMessage, spec_bind, spec_get, h, hid, spec_ofResult_ok, spec_set]
    cases message <;> simp [Writer.after]
  obtain ⟨id, w', hrun, rfl, rfl⟩ := spec_iff_exists_ok.mp hspec
  exact hrun

theorem writeMessage_of_error {e : Failure}
    (h : message.mapRefs (distance w.idCounter) = .error e) :
    writeMessage codec message w = .error e w := by
  rw [writeMessage, get_bind, h]
  rfl

/-- A message that was written is read as it was, if the counters agree. -/
theorem nextMessage_written {rest : Bytes} (hpos : 0 < counter)
    (h : message.mapRefs (distance counter) = .ok relative) :
    Reader.nextMessage codec ⟨counter, codec.encode relative ++ rest⟩ =
      (some (.ok (⟨counter, hpos⟩, message)), ⟨counter + (Reader.counts message).toNat, rest⟩) := by
  have htransform : transformMessage counter relative = .ok (⟨counter, hpos⟩, message) := by
    simp only [transformMessage, bind_eq_ok, pure_eq_ok]
    exact ⟨message, mapRefs_inverse (fun _ _ => distance_comm) h, _, SymExprRef.new_eq_ok.mpr rfl, rfl⟩
  simp only [Reader.nextMessage, codec.decode_encode, htransform, mapRefs_counts h]

theorem nextMessage_id {r : Reader} {id : SymExprRef} {absolute : SymExpr}
    (h : (r.nextMessage codec).1 = some (.ok (id, absolute))) : id.val = r.currentId := by
  unfold Reader.nextMessage at h
  split at h
  · cases h
  · cases h
  · have hok := Option.some.inj h
    simp only [transformMessage, bind_eq_ok, pure_eq_ok, SymExprRef.new_eq_ok] at hok
    obtain ⟨_, -, _, hid, heq⟩ := hok
    cases heq
    exact hid.symm

/-! ### Whole traces -/

variable {ids : List SymExprRef} {rest : List SymExpr}

theorem writeMessages_cons (hpos : 0 < w.idCounter) :
    writeMessages codec (message :: rest) w = .ok ids w' ↔
      ∃ relative ids', message.mapRefs (distance w.idCounter) = .ok relative ∧
        writeMessages codec rest (w.after codec message relative) = .ok ids' w' ∧
        ids = ⟨w.idCounter, hpos⟩ :: ids' := by
  cases hrel : message.mapRefs (distance w.idCounter) with
  | error e => simp [writeMessages, bind_error (writeMessage_of_error hrel)]
  | ok relative =>
    rw [writeMessages, bind_ok (writeMessage_of_relative hpos hrel)]
    cases hrest : writeMessages codec rest (w.after codec message relative) with
    | error e w'' => simp [bind_error hrest, hrest]
    | ok ids' w'' =>
      rw [bind_ok hrest]
      constructor
      · intro h
        cases h
        exact ⟨relative, ids', rfl, hrest, rfl⟩
      · rintro ⟨relative', ids'', heq, hrest', rfl⟩
        cases heq
        rw [hrest] at hrest'
        cases hrest'
        rfl

variable {messages : List SymExpr}

theorem writeMessages_body (hpos : 0 < w.idCounter)
    (h : writeMessages codec messages w = .ok ids w') :
    ∃ bytes, w'.trace.body = w.trace.body ++ bytes := by
  induction messages generalizing w ids with
  | nil =>
    cases h
    exact ⟨[], (append_nil _).symm⟩
  | cons message rest ih =>
    obtain ⟨relative, ids', -, hrest, -⟩ := (writeMessages_cons hpos).mp h
    obtain ⟨bytes, hbytes⟩ := ih (by simp only [after_idCounter]; omega) hrest
    exact ⟨codec.encode relative ++ bytes, by rw [hbytes, after_body, append_assoc]⟩

/-- What is read from `bytes` is what was written, and then the stream ends. -/
def ReadBack (codec : Codec) (counter : ℕ) (bytes : Bytes) (ids : List SymExprRef)
    (messages : List SymExpr) : Prop :=
  ids.length = messages.length ∧
    Reader.read codec (messages.length + 1) ⟨counter, bytes⟩ =
      (ids.zip messages).map (fun item => some (.ok item)) ++ [none]

/-- The messages can be written, and are read back. -/
def RoundTripsFrom (codec : Codec) (w : Writer) (messages : List SymExpr) : Prop :=
  ∃ ids w' bytes, writeMessages codec messages w = .ok ids w' ∧
    w'.trace.body = w.trace.body ++ bytes ∧ ReadBack codec w.idCounter bytes ids messages

def SymExpr.isIte : SymExpr → Bool
  | .ite .. => true
  | _ => false

theorem counts_eq_of_not_ite (h : message.isIte = false) :
    Writer.counts message = Reader.counts message := by
  cases message with
  | ite => cases h
  | _ => rfl

/-- Every operand is less than the counter of the writer, and nothing is written after an `Ite`. -/
def Readable : ℕ → List SymExpr → Prop
  | _, [] => True
  | counter, message :: rest =>
    (∀ a ∈ message.refs, a.val < counter) ∧ (message.isIte → rest = []) ∧
      Readable (counter + (Writer.counts message).toNat) rest

instance decidableReadable : (counter : ℕ) → (messages : List SymExpr) →
    Decidable (Readable counter messages)
  | _, [] => .isTrue trivial
  | counter, message :: rest =>
    haveI := decidableReadable (counter + (Writer.counts message).toNat) rest
    inferInstanceAs (Decidable (_ ∧ _ ∧ _))

theorem readBack_cons {bytes : Bytes} (hpos : 0 < counter)
    (h : message.mapRefs (distance counter) = .ok relative) :
    ReadBack codec counter (codec.encode relative ++ bytes) (⟨counter, hpos⟩ :: ids) (message :: rest) ↔
      ReadBack codec (counter + (Reader.counts message).toNat) bytes ids rest := by
  simp [ReadBack, Reader.read, nextMessage_written hpos h]

theorem readBack_nil : ReadBack codec counter [] [] [] := by
  simp [ReadBack, Reader.read, Reader.nextMessage, codec.decode_nil]

theorem readBack_id {id : SymExprRef} {bytes : Bytes}
    (h : ReadBack codec counter bytes (id :: ids) (message :: rest)) : id.val = counter := by
  have hread := h.2
  simp only [Reader.read, zip_cons_cons, map_cons, cons_append, List.cons.injEq] at hread
  exact nextMessage_id hread.1

/-- The writer gives the message behind an `Ite` the number of the `Ite`, the reader another one. -/
theorem nil_of_ite {bytes : Bytes} (hpos : 0 < (w.after codec message relative).idCounter)
    (hite : message.isIte = true)
    (hwrite : writeMessages codec rest (w.after codec message relative) = .ok ids w')
    (hread : ReadBack codec (w.idCounter + (Reader.counts message).toNat) bytes ids rest) :
    rest = [] := by
  cases rest with
  | nil => rfl
  | cons second rest =>
    obtain ⟨_, ids', -, -, rfl⟩ := (writeMessages_cons hpos).mp hwrite
    have hid := readBack_id hread
    cases message with
    | ite => simp [Writer.counts, Reader.counts] at hid
    | _ => cases hite

theorem roundTripsFrom_iff (hpos : 0 < w.idCounter) :
    RoundTripsFrom codec w messages ↔ Readable w.idCounter messages := by
  induction messages generalizing w with
  | nil =>
    simp only [Readable, iff_true]
    exact ⟨[], w, [], rfl, (append_nil _).symm, readBack_nil⟩
  | cons message rest ih =>
    have hafter : ∀ relative, 0 < (w.after codec message relative).idCounter := by
      intro relative
      rw [after_idCounter]
      omega
    constructor
    · rintro ⟨ids, w', bytes, hwrite, hbody, hread⟩
      obtain ⟨relative, ids', hrel, hrest, rfl⟩ := (writeMessages_cons hpos).mp hwrite
      obtain ⟨bytes', hbytes'⟩ := writeMessages_body (hafter relative) hrest
      have hsplit : bytes = codec.encode relative ++ bytes' := by
        rw [hbody, after_body, append_assoc] at hbytes'
        exact append_cancel_left hbytes'
      rw [hsplit, readBack_cons hpos hrel] at hread
      have hrefs : ∀ a ∈ message.refs, a.val < w.idCounter := by
        intro a ha
        exact exists_distance_iff.mp (exists_mapRefs_iff.mp ⟨relative, hrel⟩ a ha)
      cases hite : message.isIte with
      | false =>
        -- the counters go on together
        rw [← counts_eq_of_not_ite hite, ← after_idCounter codec w message relative] at hread
        have htail := (ih (hafter relative)).mp ⟨ids', w', bytes', hrest, hbytes', hread⟩
        rw [after_idCounter] at htail
        exact ⟨hrefs, by simp [hite], htail⟩
      | true =>
        obtain rfl := nil_of_ite (hafter relative) hite hrest hread
        exact ⟨hrefs, fun _ => rfl, trivial⟩
    · rintro ⟨hrefs, hite, htail⟩
      have hexists : ∃ relative, message.mapRefs (distance w.idCounter) = .ok relative :=
        exists_mapRefs_iff.mpr fun a ha => exists_distance_iff.mpr (hrefs a ha)
      obtain ⟨relative, hrel⟩ := hexists
      rw [← after_idCounter codec w message relative] at htail
      obtain ⟨ids', w', bytes', hrest, hbytes', hread⟩ := (ih (hafter relative)).mpr htail
      refine ⟨⟨w.idCounter, hpos⟩ :: ids', w', codec.encode relative ++ bytes',
        (writeMessages_cons hpos).mpr ⟨relative, ids', hrel, hrest, rfl⟩,
        by rw [hbytes', after_body, append_assoc], ?_⟩
      rw [readBack_cons hpos hrel]
      cases hcase : message.isIte with
      | false => rwa [← counts_eq_of_not_ite hcase, ← after_idCounter]
      | true =>
        have hnil := hite hcase
        subst hnil
        cases hrest
        rw [self_eq_append_right] at hbytes'
        subst hbytes'
        exact readBack_nil

end

/-- A trace that was written and whose header was updated is read back. -/
def RoundTrips (messages : List SymExpr) : Prop :=
  ∃ ids w r, writeMessages codec messages {} = .ok ids w ∧
    Reader.fromLengthPrefixedBuffer w.writeTraceSize.trace = .ok r ∧
    ids.length = messages.length ∧
    r.read codec (messages.length + 1) = (ids.zip messages).map (fun item => some (.ok item)) ++ [none]

/-- With the header updated, the reader sees all that was written. -/
theorem roundTrips_iff_from {messages : List SymExpr} :
    RoundTrips codec messages ↔ RoundTripsFrom codec {} messages := by
  have hreader : ∀ w : Writer, Reader.fromLengthPrefixedBuffer w.writeTraceSize.trace =
      .ok ⟨1, w.trace.body⟩ := by
    intro w
    simp [Reader.fromLengthPrefixedBuffer, Writer.writeTraceSize]
  constructor
  · rintro ⟨ids, w, r, hwrite, hr, hread⟩
    rw [hreader] at hr
    cases hr
    exact ⟨ids, w, w.trace.body, hwrite, rfl, hread⟩
  · rintro ⟨ids, w, bytes, hwrite, hbody, hread⟩
    refine ⟨ids, w, ⟨1, w.trace.body⟩, hwrite, hreader w, ?_⟩
    rw [hbody]
    exact hread

/-- A trace is read back exactly if its operands are less than the counter of the writer, and no
    message but the last one is an `Ite`. -/
theorem trace_round_trip_iff (messages : List SymExpr) :
    RoundTrips codec messages ↔ Readable 1 messages :=
  (roundTrips_iff_from codec).trans (roundTripsFrom_iff Nat.one_pos)

/-- Every operand of a message is an id that an earlier call returned. -/
def RefersBack : Writer → List SymExprRef → List SymExpr → Prop
  | _, _, [] => True
  | w, ids, message :: rest =>
    (∀ a ∈ message.refs, a ∈ ids) ∧
      ∀ id w', writeMessage codec message w = .ok id w' → RefersBack w' (id :: ids) rest

/-- A codec that writes a message as its number in an enumeration of all messages, in ones and a
    zero. -/
noncomputable def enumerating : Codec :=
  let index : SymExpr → ℕ := (exists_injective_nat SymExpr).choose
  have hindex : Function.Injective index := (exists_injective_nat SymExpr).choose_spec
  have htake : ∀ (n : ℕ) (rest : Bytes),
      (List.replicate n 1 ++ 0 :: rest).takeWhile (· = (1 : UInt8)) = List.replicate n 1 := by
    intro n rest
    rw [List.takeWhile_append_of_pos (by simp), List.takeWhile_cons_of_neg (by decide), List.append_nil]
  { encode := fun message => List.replicate (index message) 1 ++ [0]
    decode := fun bytes =>
      let n := (bytes.takeWhile (· = 1)).length
      match bytes.drop n with
      | [] => (.error .unexpectedEof, [])
      | 0 :: rest => ((Function.partialInv index n).elim (.error .other) .ok, rest)
      | _ :: rest => (.error .other, rest)
    decode_encode := by
      intro message rest
      have hsplit : List.replicate (index message) (1 : UInt8) ++ [0] ++ rest =
          List.replicate (index message) 1 ++ 0 :: rest := by simp
      have hdrop : (List.replicate (index message) (1 : UInt8) ++ 0 :: rest).drop (index message) =
          0 :: rest := List.drop_left' (List.length_replicate ..)
      simp only [hsplit, htake, List.length_replicate, hdrop, Function.partialInv_left hindex,
        Option.elim_some]
    decode_nil := rfl }

/-- The message after an `Ite` is read with another id than it was written with. -/
theorem ite_shifts_ids :
    let one : SymExprRef := ⟨1, Nat.one_pos⟩
    let messages := [.leaf .true, .ite one one one, .leaf .true]
    RefersBack enumerating {} [] messages ∧ ¬ RoundTrips enumerating messages := by
  intro one messages
  refine ⟨⟨by simp [SymExpr.refs], ?_⟩, ?_⟩
  · intro id w hwrite
    cases hwrite
    refine ⟨?_, fun _ _ _ => ⟨by simp [SymExpr.refs], fun _ _ _ => trivial⟩⟩
    intro a ha
    simp only [SymExpr.refs, mem_cons, not_mem_nil, or_false, or_self] at ha
    exact mem_singleton.mpr ha
  · rw [roundTrips_iff_from, roundTripsFrom_iff Nat.one_pos]
    decide

/-! ### Traces that were cut off, and buffers that hold none

    The header is written again after every path constraint, so what a crash leaves can be read up
    to there. The reader checks neither the length in the header nor the distances in the
    messages. -/

/-- `from_length_prefixed_buffer` on the bytes of a buffer: it panics, or returns a reader or an
    error. -/
def Reader.fromBytes (buffer : Bytes) : Except Failure (Except DecodeError Reader) :=
  if buffer.length < 8 then .ok (.error .unexpectedEof)
  else do
    let length := Nat.ofDigits 256 ((buffer.take 8).map UInt8.toNat)
    let r ← Reader.fromLengthPrefixedBuffer ⟨length, buffer.drop 8⟩
    return .ok r

/-- The reader after `n` calls of `next_message`, whatever they returned. -/
def Reader.after (n : ℕ) (r : Reader) : Reader := (fun r => (r.nextMessage codec).2)^[n] r

/-- Opening the buffer does not panic, and no call of `next_message` fails but with an error of the
    decoder, also after calls that failed so. -/
def NeverPanics (buffer : Bytes) : Prop :=
  ∃ opened, Reader.fromBytes buffer = .ok opened ∧
    ∀ start, opened = .ok start → ∀ n e, ((start.after codec n).nextMessage codec).1 = some (.error e) →
      (codec.decode (start.after codec n).buffer).1 = .error .other

/-- The header promises no more bytes than follow it, and wherever a call finds a message, behind
    bytes that could not be decoded too, its distances are less than the counter of the reader. -/
def WellFormed (buffer : Bytes) : Prop :=
  let length := Nat.ofDigits 256 ((buffer.take 8).map UInt8.toNat)
  let start : Reader := { buffer := (buffer.drop 8).take length }
  8 ≤ buffer.length →
    length ≤ buffer.length - 8 ∧ ∀ n message, (codec.decode (start.after codec n).buffer).1 = .ok message →
      ∀ a ∈ message.refs, a.val < (start.after codec n).currentId

section
variable {codec} {messages : List SymExpr} {ids : List SymExprRef} {w w' : Writer} {r start : Reader}

/-- The header is up to date after a path constraint. -/
theorem writeTraceSize_of_constraint {constraint : SymExprRef} {taken : Bool} {location : Location}
    (hpos : 0 < w.idCounter) (h : writeMessages codec messages w = .ok ids w')
    (hlast : messages.getLast? = some (.pathConstraint constraint taken location)) :
    w'.writeTraceSize = w' := by
  induction messages generalizing w ids with
  | nil => cases hlast
  | cons message rest ih =>
    obtain ⟨relative, ids', -, hrest, -⟩ := (writeMessages_cons hpos).mp h
    cases rest with
    | nil =>
      cases hrest
      cases hlast
      rfl
    | cons second rest =>
      exact ih (by simp only [after_idCounter]; omega) hrest hlast

/-- A trace that was written is read back exactly if it is readable. -/
theorem readBack_iff_readable (h : writeMessages codec messages {} = .ok ids w) :
    ReadBack codec 1 w.trace.body ids messages ↔ Readable 1 messages := by
  rw [← roundTripsFrom_iff (w := {}) Nat.one_pos]
  constructor
  · intro hread
    exact ⟨ids, w, w.trace.body, h, rfl, hread⟩
  · rintro ⟨ids', w', bytes, hwrite, hbody, hread⟩
    rw [h] at hwrite
    cases hwrite
    rwa [hbody]

/-- A call panics exactly on a message with a distance that is not less than the counter. -/
theorem nextMessage_error_iff (hpos : 0 < r.currentId) :
    (∀ e, (r.nextMessage codec).1 = some (.error e) → (codec.decode r.buffer).1 = .error .other) ↔
      ∀ message, (codec.decode r.buffer).1 = .ok message → ∀ a ∈ message.refs, a.val < r.currentId := by
  unfold Reader.nextMessage
  obtain ⟨answer, rest⟩ := codec.decode r.buffer
  cases answer with
  | error e => cases e <;> simp
  | ok message =>
    have hid : ∃ id, SymExprRef.new r.currentId = .ok id :=
      ⟨⟨_, hpos⟩, SymExprRef.new_eq_ok.mpr rfl⟩
    have hok : (∀ a ∈ message.refs, a.val < r.currentId) ↔
        ∃ item, transformMessage r.currentId message = .ok item := by
      simp only [transformMessage, exists_bind_eq_ok, exists_pure_eq_ok, and_true, hid,
        ← exists_distance_iff, ← exists_mapRefs_iff]
    simp only [Except.ok.injEq, forall_eq', hok]
    cases transformMessage r.currentId message with
    | ok | error => simp

theorem currentId_le_nextMessage : r.currentId ≤ (r.nextMessage codec).2.currentId := by
  unfold Reader.nextMessage
  split
  · exact le_rfl
  · exact le_rfl
  · exact Nat.le_add_right _ _

theorem currentId_le_after (n : ℕ) : r.currentId ≤ (r.after codec n).currentId := by
  induction n generalizing r with
  | zero => exact le_rfl
  | succ n ih => exact currentId_le_nextMessage.trans ih

theorem neverPanics_iff {buffer : Bytes} : NeverPanics codec buffer ↔ WellFormed codec buffer := by
  unfold NeverPanics WellFormed Reader.fromBytes Reader.fromLengthPrefixedBuffer
  generalize Nat.ofDigits 256 ((buffer.take 8).map UInt8.toNat) = length
  by_cases hshort : buffer.length < 8
  · simp [hshort, Nat.not_le.mpr hshort]
  by_cases hlen : length ≤ buffer.length - 8
  · simp only [hshort, hlen, not_lt.mp hshort, length_drop, bind_eq_ok, pure_eq_ok, Except.ok.injEq,
      if_false, if_true, true_and, forall_const, exists_eq_left', forall_eq']
    exact forall_congr' fun n => nextMessage_error_iff (currentId_le_after (r := ⟨1, _⟩) n)
  · simp [hshort, hlen, not_lt.mp hshort]

end

/-- After a path constraint the header counts the bytes of the messages so far, whatever follows
    them in the buffer, and they are read exactly if they are readable; a buffer is read without a
    panic exactly if it is well formed. -/
theorem partial_traces_iff :
    (∀ messages ids w constraint taken location, writeMessages codec messages {} = .ok ids w →
      messages.getLast? = some (.pathConstraint constraint taken location) →
      w.trace.length = w.trace.body.length ∧
        ∀ rest, (∃ r, Reader.fromLengthPrefixedBuffer ⟨w.trace.length, w.trace.body ++ rest⟩ = .ok r ∧
            ReadBack codec r.currentId r.buffer ids messages) ↔ Readable 1 messages) ∧
    ∀ buffer, NeverPanics codec buffer ↔ WellFormed codec buffer := by
  refine ⟨fun messages ids w constraint taken location hwrite hlast => ?_, fun buffer => neverPanics_iff⟩
  have hlength : w.trace.length = w.trace.body.length :=
    congrArg (·.trace.length) (writeTraceSize_of_constraint Nat.one_pos hwrite hlast).symm
  refine ⟨hlength, fun rest => ?_⟩
  rw [← readBack_iff_readable hwrite]
  simp [Reader.fromLengthPrefixedBuffer, hlength]

/-- A header that promises a byte which is not there, a message that refers to itself, and the same
    message behind a byte that no message begins with. -/
theorem malformed_buffers_panic :
    let self : SymExpr := .unary .neg ⟨1, Nat.one_pos⟩
    let skipping : Reader := { buffer := 2 :: enumerating.encode self }
    Reader.fromBytes [1, 0, 0, 0, 0, 0, 0, 0] = .error .splitAt ∧
      (Reader.nextMessage enumerating { buffer := enumerating.encode self }).1
        = some (.error .zeroRef) ∧
      (skipping.nextMessage enumerating).1 = some (.error .bincode) ∧
      ((skipping.after enumerating 1).nextMessage enumerating).1 = some (.error .zeroRef) := by
  intro self skipping
  have hself : (Reader.nextMessage enumerating { buffer := enumerating.encode self }).1
      = some (.error .zeroRef) := by
    have hdecode := enumerating.decode_encode self []
    rw [append_nil] at hdecode
    rw [Reader.nextMessage, hdecode]
    rfl
  exact ⟨rfl, hself, rfl, hself⟩

end Bofuzz.Concolic
