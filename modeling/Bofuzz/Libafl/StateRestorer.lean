import Bofuzz.Lib.Effect
import Bofuzz.Lib.Result
import Bofuzz.Lib.Run
import Mathlib.Algebra.Ring.Nat

/-! The state restorer (`libafl_bolts/src/staterestore.rs`).

    The map that a restarted process finds again holds a flag, a length and a buffer. The state of
    the fuzzer is stored in the buffer if it fits, and otherwise in a file whose name is stored; the
    wish to exit is a magic text in the same buffer. `restore` looks at the length before it looks
    at the buffer, and `wants_to_exit` looks at the buffer alone, so that a magic text that
    is no longer in use still counts. `restorer_protocol_iff` says in which runs this never
    shows. -/

namespace Bofuzz.StateRestorer
open Effect Result Run List

abbrev Bytes := List UInt8

/-- `EXITING_MAGIC`, the text `LIBAFL_EXIT_NOW` and a zero. -/
def exitingMagic : Bytes := [76, 73, 66, 65, 70, 76, 95, 69, 88, 73, 84, 95, 78, 79, 87, 0]

/-- `size_of::<StateShMemContent>()`. -/
def headerSize : ℕ := 16

/-- `StateShMemContent` and the bytes of the map behind it. -/
structure Content where
  isDisk : Bool
  bufLen : ℕ
  buf : Bytes

/-- The map and the directory of the temporary files. -/
structure Restorer where
  content : Content
  files : Bytes → Option Bytes := fun _ => none

inductive Failure where
  /-- "Trying to save state to a non-empty state map". -/
  | notEmpty
  /-- "The state restorer map is too small to fit anything, even the filename!" -/
  | mapTooSmall (len : ℕ) (filename : Bytes)
  /-- "Stored buf_len is larger than the shared map! Shared data corrupted?" -/
  | bufLenTooLarge (mapsize bufLen : ℕ)
  /-- "Trying to restore a state after send_exiting was called." -/
  | exiting
  /-- "Could not restore state from file". -/
  | fileEmpty (filename : Bytes)
  /-- The bytes are not those of a value. -/
  | postcard
  /-- The file is not there. -/
  | file
  /-- The map has no room for the magic text. -/
  | assertPanic
  deriving DecidableEq

/-- How a state is turned into bytes by `postcard`. -/
structure Codec (S : Type) where
  encode : S → Bytes
  decode : Bytes → Option S
  decode_encode : ∀ state, decode (encode state) = some state

/-! ### The names of the temporary files -/

def hexDigit (n : ℕ) : UInt8 := if n < 10 then .ofNat (48 + n) else .ofNat (87 + n)

/-- `format!("{:016x}.libafl_state", hash)`. -/
def filename (hash : UInt64) : Bytes :=
  (List.range 16).map (fun i => hexDigit (hash.toNat / 16 ^ (15 - i) % 16)) ++
    [46, 108, 105, 98, 97, 102, 108, 95, 115, 116, 97, 116, 101]

/-- A string as `postcard` writes it, if its length takes one byte. -/
def encodeName (name : Bytes) : Bytes := .ofNat name.length :: name

def decodeName : Bytes → Except Failure Bytes
  | [] => .error .postcard
  | len :: rest =>
    if len.toNat < 128 ∧ len.toNat ≤ rest.length then .ok (rest.take len.toNat) else .error .postcard

theorem filename_length (hash : UInt64) : (filename hash).length = 29 := by
  simp [filename]

theorem encodeName_filename (hash : UInt64) : encodeName (filename hash) = 29 :: filename hash := by
  rw [encodeName, filename_length]
  rfl

theorem encodeName_ne_nil (name : Bytes) : encodeName name ≠ [] := cons_ne_nil _ _

theorem decodeName_filename (hash : UInt64) :
    decodeName (encodeName (filename hash)) = .ok (filename hash) := by
  have hlen := filename_length hash
  have htake : (filename hash).take 29 = filename hash := take_of_length_le (by omega)
  simp [encodeName_filename, decodeName, hlen, htake]

/-! ### The calls -/

variable (r : Restorer)

def Restorer.mapsize : ℕ := headerSize + r.content.buf.length

/-- `ptr::copy_nonoverlapping` to the beginning of the buffer. -/
def write (bytes buf : Bytes) : Bytes := bytes ++ buf.drop bytes.length

def Content.bufLenChecked (c : Content) (shmemSize : ℕ) : Except Failure ℕ :=
  if shmemSize < headerSize + c.bufLen then .error (.bufLenTooLarge shmemSize c.bufLen)
  else .ok c.bufLen

def Content.tmpfile (c : Content) (shmemSize : ℕ) : Except Failure (Option Bytes) := do
  if c.isDisk then
    let len ← c.bufLenChecked shmemSize
    let name ← decodeName (c.buf.take len)
    return some name
  else return none

def Restorer.hasContent : Bool := 0 < r.content.bufLen

def Restorer.reset : Restorer where
  content := { r.content with isDisk := false, bufLen := 0 }
  files :=
    match r.content.tmpfile r.mapsize with
    | .ok (some name) => Function.update r.files name none
    | _ => r.files

/-- `StateRestorer::new`. -/
def Restorer.new : Restorer := r.reset

def sendExiting : EStateM Failure Restorer Unit := do
  modify Restorer.reset
  let r ← get
  if headerSize + exitingMagic.length ≤ r.mapsize then
    set { r with content :=
      { r.content with buf := write exitingMagic r.content.buf, bufLen := exitingMagic.length } }
  else throw .assertPanic

def Restorer.wantsToExit : Except Failure Bool :=
  if headerSize + exitingMagic.length ≤ r.mapsize then
    .ok (r.content.buf.take exitingMagic.length = exitingMagic)
  else .error .assertPanic

section
variable {S : Type} (codec : Codec S) (hash : Bytes → UInt64)

/-- `save`. The name of a file is a hash of the last bytes that go into it. -/
def save (state : S) : EStateM Failure Restorer Unit := do
  let r ← get
  if r.hasContent then throw .notEmpty
  else
    let serialized := codec.encode state
    if r.mapsize < headerSize + serialized.length then
      let name := filename (hash (serialized.drop (serialized.length - 4096)))
      set { r with files := Function.update r.files name (some serialized) }
      let nameBuf := encodeName name
      if r.mapsize < nameBuf.length then throw (.mapTooSmall nameBuf.length name)
      else
        modify fun r => { r with content :=
          { isDisk := true, bufLen := nameBuf.length, buf := write nameBuf r.content.buf } }
    else
      set { r with content :=
        { isDisk := false, bufLen := serialized.length, buf := write serialized r.content.buf } }

/-- The serialized state: the stored bytes themselves, or what is in the file they name. -/
def Restorer.serialized (bytes : Bytes) : Except Failure Bytes := do
  if r.content.isDisk then
    let name ← decodeName bytes
    match r.files name with
    | none => throw .file
    | some fileContent => if fileContent = [] then throw (.fileEmpty name) else return fileContent
  else return bytes

/-- `restore`, once there are stored bytes. -/
def Restorer.restoreBytes (bytes : Bytes) : Except Failure (Option S) := do
  if bytes = exitingMagic then throw .exiting
  else
    match codec.decode (← r.serialized bytes) with
    | none => throw .postcard
    | some state => return some state

def Restorer.restore : Except Failure (Option S) := do
  if r.hasContent then
    r.restoreBytes codec (r.content.buf.take (← r.content.bufLenChecked r.mapsize))
  else return none

/-! ### Histories -/

inductive Call (S : Type) where
  | reset
  | save (state : S)
  | sendExiting
  deriving DecidableEq

/-- A restorer with the last call on it that succeeded. -/
structure History (S : Type) where
  restorer : Restorer
  last : Call S

def perform : Call S → EStateM Failure Restorer Unit
  | .reset => modify Restorer.reset
  | .save state => save codec hash state
  | .sendExiting => sendExiting

def History.step (h : History S) (call : Call S) : History S :=
  match perform codec hash call h.restorer with
  | .ok () r => ⟨r, call⟩
  | .error _ r => ⟨r, h.last⟩

/-- A new restorer on a map with arbitrary contents. -/
def History.new : History S := ⟨r.new, .reset⟩

/-- `restore` and `wants_to_exit` report the last call. -/
def History.Reports (h : History S) : Prop :=
  (match h.last with
    | .reset => h.restorer.restore codec = .ok none
    | .save state => h.restorer.restore codec = .ok (some state)
    | .sendExiting => ∃ e, h.restorer.restore codec = .error e) ∧
  ∃ b, h.restorer.wantsToExit = .ok b ∧ (b = true ↔ h.last = .sendExiting)

/-- The map has room for the header, the magic text and the name of a file. -/
def Restorer.Enough : Prop := 30 ≤ r.content.buf.length

/-- The buffer begins with the magic text. -/
def Marked (buf : Bytes) : Prop := buf.take exitingMagic.length = exitingMagic

instance (buf : Bytes) : Decidable (Marked buf) := inferInstanceAs (Decidable (_ = _))

/-- What a call has to avoid: a reset leaves the buffer as it is, and a save covers only the
    beginning of it. A save that fails and one that goes to a file are always fine. -/
def Safe (h : History S) : Call S → Prop
  | .reset => ¬ Marked h.restorer.content.buf
  | .save state =>
    h.restorer.hasContent = false → headerSize + (codec.encode state).length ≤ h.restorer.mapsize →
      codec.encode state ≠ [] ∧ ¬ Marked (write (codec.encode state) h.restorer.content.buf)
  | .sendExiting => True

instance (h : History S) (call : Call S) : Decidable (Safe codec h call) :=
  match call with
  | .reset => inferInstanceAs (Decidable (¬ _))
  | .save _ => inferInstanceAs (Decidable (_ → _ → _))
  | .sendExiting => .isTrue trivial

end

/-! ### What each call leaves -/

section
variable {S : Type} {codec : Codec S} {hash : Bytes → UInt64} {r : Restorer} {h : History S}

@[simp] theorem reset_content : r.reset.content = ⟨false, 0, r.content.buf⟩ := rfl

@[simp] theorem reset_mapsize : r.reset.mapsize = r.mapsize := rfl

variable {bytes : Bytes}

theorem write_length {buf : Bytes} (hle : bytes.length ≤ buf.length) :
    (write bytes buf).length = buf.length := by
  simp only [write, length_append, length_drop]
  omega

theorem enough_write {isDisk : Bool} {len : ℕ} {files : Bytes → Option Bytes}
    (hroom : r.Enough) (hle : bytes.length ≤ r.content.buf.length) :
    (⟨⟨isDisk, len, write bytes r.content.buf⟩, files⟩ : Restorer).Enough := by
  simpa [Restorer.Enough, write_length hle] using hroom

theorem magic_fits (hroom : r.Enough) : exitingMagic.length ≤ r.content.buf.length :=
  Nat.le_trans (by decide) hroom

theorem name_fits {hash : UInt64} (hroom : r.Enough) :
    (encodeName (filename hash)).length ≤ r.content.buf.length := by
  rw [encodeName_filename, length_cons, filename_length]
  exact hroom

theorem bytes_fit (hfits : headerSize + bytes.length ≤ r.mapsize) :
    bytes.length ≤ r.content.buf.length := by
  rw [Restorer.mapsize] at hfits
  omega

theorem take_write (bytes buf : Bytes) : (write bytes buf).take bytes.length = bytes := by
  simp [write]

theorem marked_write_magic (buf : Bytes) : Marked (write exitingMagic buf) := take_write _ _

/-- No name of a file looks like the magic text. -/
theorem not_marked_write_name (hash : UInt64) (buf : Bytes) :
    ¬ Marked (write (encodeName (filename hash)) buf) := by
  rw [encodeName_filename]
  intro hmarked
  have hhead := congrArg List.head? hmarked
  simp [write, exitingMagic] at hhead

theorem magic_fits_map (hroom : r.Enough) : headerSize + exitingMagic.length ≤ r.mapsize :=
  Nat.add_le_add_left (magic_fits hroom) headerSize

theorem wantsToExit_eq (hroom : r.Enough) :
    r.wantsToExit = .ok (decide (Marked r.content.buf)) := by
  rw [Restorer.wantsToExit, if_pos (magic_fits_map hroom)]
  rfl

theorem reports_iff (hroom : h.restorer.Enough) :
    h.Reports codec ↔
      (match h.last with
        | .reset => h.restorer.restore codec = .ok none
        | .save state => h.restorer.restore codec = .ok (some state)
        | .sendExiting => ∃ e, h.restorer.restore codec = .error e) ∧
      (Marked h.restorer.content.buf ↔ h.last = .sendExiting) := by
  simp [History.Reports, wantsToExit_eq hroom]

theorem serialized_of_file {fileContent : Bytes} {name : Bytes} (hdisk : r.content.isDisk = true)
    (hname : decodeName bytes = .ok name) (hfile : r.files name = some fileContent)
    (hne : fileContent ≠ []) : r.serialized bytes = .ok fileContent := by
  rw [Restorer.serialized, if_pos hdisk]
  refine bind_eq_ok.mpr ⟨name, hname, ?_⟩
  simp only [hfile]
  exact if_neg hne

variable {state : S}

theorem restoreBytes_of_decode {serialized : Bytes} (hne : bytes ≠ exitingMagic)
    (hserialized : r.serialized bytes = .ok serialized)
    (hdecode : codec.decode serialized = some state) :
    r.restoreBytes codec bytes = .ok (some state) := by
  rw [Restorer.restoreBytes, if_neg hne]
  refine bind_eq_ok.mpr ⟨serialized, hserialized, ?_⟩
  simp only [hdecode]
  rfl

theorem restore_of_empty (hempty : r.content.bufLen = 0) : r.restore codec = .ok none := by
  have hno : r.hasContent = false := by simp [Restorer.hasContent, hempty]
  rw [Restorer.restore, hno]
  rfl

/-- What `restore` makes of bytes that were stored at the beginning of the buffer. -/
theorem restore_of_stored (hne : bytes ≠ [])
    (hlen : r.content.bufLen = bytes.length) (htake : r.content.buf.take bytes.length = bytes)
    (hle : bytes.length ≤ r.content.buf.length) : r.restore codec = r.restoreBytes codec bytes := by
  have hpos : 0 < bytes.length := length_pos_iff.mpr hne
  have hcontent : r.hasContent = true := by simp [Restorer.hasContent, hlen, hpos]
  have hchecked : r.content.bufLenChecked r.mapsize = .ok bytes.length := by
    rw [Content.bufLenChecked, hlen, if_neg]
    rw [Restorer.mapsize]
    omega
  simp only [Restorer.restore, hcontent, hchecked, if_true]
  simp only [bind, Except.bind, htake]

theorem reports_reset_iff (hroom : r.Enough) :
    (⟨r.reset, .reset⟩ : History S).Reports codec ↔ ¬ Marked r.content.buf := by
  have hempty : r.reset.restore codec = .ok none := restore_of_empty rfl
  rw [reports_iff (show r.reset.Enough from hroom)]
  simp [hempty]

theorem step_of_ok {call : Call S} (hrun : perform codec hash call h.restorer = .ok () r) :
    h.step codec hash call = ⟨r, call⟩ := by
  simp [History.step, hrun]

theorem step_sendExiting (hroom : h.restorer.Enough) :
    h.step codec hash .sendExiting =
      ⟨{ h.restorer.reset with content :=
          ⟨false, exitingMagic.length, write exitingMagic h.restorer.content.buf⟩ }, .sendExiting⟩ := by
  refine step_of_ok ?_
  rw [eq_ok_iff_spec]
  simp [perform, sendExiting, magic_fits_map hroom]

theorem reports_sendExiting (hroom : h.restorer.Enough) :
    (h.step codec hash .sendExiting).Reports codec := by
  have hlen := magic_fits hroom
  rw [step_sendExiting hroom, reports_iff]
  · refine ⟨⟨.exiting, ?_⟩, by simpa using marked_write_magic _⟩
    rw [restore_of_stored (by decide) rfl (take_write _ _)]
    · rfl
    · simpa [write_length hlen] using hlen
  · exact enough_write hroom hlen

theorem step_save_of_content (hcontent : h.restorer.hasContent = true) :
    h.step codec hash (.save state) = h := by
  have hsave : save codec hash state h.restorer = .error .notEmpty h.restorer := by
    rw [save, get_bind, if_pos hcontent]
    rfl
  simp [History.step, perform, hsave]

section
variable (hempty : h.restorer.hasContent = false)
  (hfits : headerSize + (codec.encode state).length ≤ h.restorer.mapsize)
include hempty hfits

theorem step_save_of_fits :
    h.step codec hash (.save state) =
      ⟨{ h.restorer with content := ⟨false, (codec.encode state).length,
          write (codec.encode state) h.restorer.content.buf⟩ }, .save state⟩ := by
  refine step_of_ok ?_
  rw [eq_ok_iff_spec]
  simp [perform, save, hempty, Nat.not_lt.mpr hfits]

theorem reports_save_of_fits_iff (hroom : h.restorer.Enough) :
    (h.step codec hash (.save state)).Reports codec ↔
      codec.encode state ≠ [] ∧ ¬ Marked (write (codec.encode state) h.restorer.content.buf) := by
  have hlen := bytes_fit hfits
  rw [step_save_of_fits hempty hfits, reports_iff]
  · by_cases hnil : codec.encode state = []
    · rw [restore_of_empty (by simpa using hnil)]
      simp [hnil]
    rw [restore_of_stored hnil rfl (take_write _ _) (by simpa [write_length hlen] using hlen)]
    by_cases hmarked : Marked (write (codec.encode state) h.restorer.content.buf)
    · simp [hmarked]
    -- the stored bytes are not the magic text, as the buffer would begin with it
    have hnot : codec.encode state ≠ exitingMagic := by
      intro heq
      rw [heq] at hmarked
      exact hmarked (marked_write_magic _)
    simp [hnil, hmarked, Restorer.restoreBytes, Restorer.serialized, hnot]
    simp [pure, Except.pure, codec.decode_encode]
  · exact enough_write hroom hlen

end

/-- The name of the file that a state goes to. -/
def nameOf (codec : Codec S) (hash : Bytes → UInt64) (state : S) : Bytes :=
  filename (hash ((codec.encode state).drop ((codec.encode state).length - 4096)))

/-- A map that names a file. -/
def naming (name buf : Bytes) : Content :=
  ⟨true, (encodeName name).length, write (encodeName name) buf⟩

theorem restore_naming (h : UInt64) (buf : Bytes) (files : Bytes → Option Bytes) :
    (files (filename h) = none →
      (⟨naming (filename h) buf, files⟩ : Restorer).restore codec = .error .file) ∧
    (files (filename h) = some (codec.encode state) → codec.encode state ≠ [] →
      (⟨naming (filename h) buf, files⟩ : Restorer).restore codec = .ok (some state)) := by
  have hnot : encodeName (filename h) ≠ exitingMagic := by
    rw [encodeName_filename]
    intro heq
    simp [exitingMagic] at heq
  rw [restore_of_stored (encodeName_ne_nil (filename h)) rfl (take_write _ _) (by simp [naming, write])]
  constructor
  · intro hnone
    simp only [Restorer.restoreBytes, if_neg hnot, Restorer.serialized, naming, if_true,
      decodeName_filename, bind, Except.bind, hnone]
    rfl
  · intro hsome hne
    exact restoreBytes_of_decode hnot (serialized_of_file rfl (decodeName_filename h) hsome hne)
      (codec.decode_encode state)

section
variable (hroom : h.restorer.Enough) (hempty : h.restorer.hasContent = false)
  (hlarge : h.restorer.mapsize < headerSize + (codec.encode state).length)
include hroom hempty hlarge

theorem step_save_of_large :
    h.step codec hash (.save state) =
      ⟨{ content := naming (nameOf codec hash state) h.restorer.content.buf
         files := Function.update h.restorer.files (nameOf codec hash state)
            (some (codec.encode state)) }, .save state⟩ := by
  unfold Restorer.Enough at hroom
  have hname : ¬ h.restorer.mapsize < (encodeName (nameOf codec hash state)).length := by
    rw [nameOf, encodeName_filename, length_cons, filename_length, Restorer.mapsize]
    omega
  refine step_of_ok ?_
  rw [eq_ok_iff_spec]
  rw [nameOf] at hname ⊢
  simp [perform, save, hempty, hlarge, hname, naming]

theorem reports_save_of_large : (h.step codec hash (.save state)).Reports codec := by
  have hlen : (encodeName (nameOf codec hash state)).length ≤ h.restorer.content.buf.length :=
    name_fits hroom
  have hnil : codec.encode state ≠ [] := by
    intro heq
    rw [heq, Restorer.mapsize, length_nil] at hlarge
    omega
  rw [step_save_of_large hroom hempty hlarge, reports_iff]
  · refine ⟨(restore_naming _ _ _).2 (Function.update_self ..) hnil, ?_⟩
    simpa [naming, nameOf] using not_marked_write_name _ h.restorer.content.buf
  · exact enough_write hroom hlen

end

/-! ### Runs -/

theorem enough_step (hroom : h.restorer.Enough) (call : Call S) :
    (h.step codec hash call).restorer.Enough := by
  cases call with
  | reset => exact hroom
  | sendExiting =>
    rw [step_sendExiting hroom]
    exact enough_write hroom (magic_fits hroom)
  | save state =>
    cases hcontent : h.restorer.hasContent with
    | true => rwa [step_save_of_content hcontent]
    | false =>
      rcases Nat.lt_or_ge h.restorer.mapsize (headerSize + (codec.encode state).length) with hlarge | hfits
      · rw [step_save_of_large hroom hcontent hlarge]
        exact enough_write hroom (name_fits hroom)
      · rw [step_save_of_fits hcontent hfits]
        exact enough_write hroom (bytes_fit hfits)

/-- One call is reported exactly if it is safe. -/
theorem reports_step_iff (hroom : h.restorer.Enough) (hreports : h.Reports codec) (call : Call S) :
    (h.step codec hash call).Reports codec ↔ Safe codec h call := by
  cases call with
  | reset => exact reports_reset_iff hroom
  | sendExiting => simpa [Safe] using reports_sendExiting hroom
  | save state =>
    cases hcontent : h.restorer.hasContent with
    | true => simpa [step_save_of_content hcontent, Safe, hcontent] using hreports
    | false =>
      rcases Nat.lt_or_ge h.restorer.mapsize (headerSize + (codec.encode state).length) with hlarge | hfits
      · simpa [Safe, Nat.not_le.mpr hlarge] using reports_save_of_large hroom hcontent hlarge
      · simpa [Safe, hcontent, hfits] using reports_save_of_fits_iff hcontent hfits hroom

/-- `restore` and `wants_to_exit` report the last call after every call of a run exactly if the
    buffer does not begin with the magic text when the restorer is created, and every call is
    safe. -/
theorem restorer_protocol_iff (codec : Codec S) (hash : Bytes → UInt64) (r : Restorer)
    (hroom : r.Enough) (calls : List (Call S)) :
    (∀ n, (run (History.step codec hash) (.new r) (calls.take n)).Reports codec) ↔
      ¬ Marked r.content.buf ∧ Along (History.step codec hash) (Safe codec) (.new r) calls := by
  have hroom' : (History.new r : History S).restorer.Enough := hroom
  have hnew : (History.new r : History S).Reports codec ↔ ¬ Marked r.content.buf :=
    reports_reset_iff hroom
  have hstep : ∀ (h : History S) call, h.restorer.Enough ∧ h.Reports codec →
      ((h.step codec hash call).restorer.Enough ∧ (h.step codec hash call).Reports codec ↔
        Safe codec h call) := by
    rintro h call ⟨henough, hreports⟩
    rw [and_iff_right (enough_step henough call), reports_step_iff henough hreports call]
  have hruns : ∀ n, (run (History.step codec hash) (.new r) (calls.take n)).restorer.Enough := by
    intro n
    exact along_induct (C := fun _ _ => True) (I := fun h : History S => h.restorer.Enough)
      (fun _ call henough _ => enough_step henough call) _ _ hroom'
      (along_of_forall fun _ _ _ => trivial)
  constructor
  · intro hall
    have hfirst := hnew.mp (hall 0)
    exact ⟨hfirst, (forall_take_iff hstep calls _ ⟨hroom', hnew.mpr hfirst⟩).mp
      fun n => ⟨hruns n, hall n⟩⟩
  · rintro ⟨hfirst, halong⟩ n
    exact ((forall_take_iff hstep calls _ ⟨hroom', hnew.mpr hfirst⟩).mpr halong n).2

end

/-- States of one byte. -/
def byteCodec : Codec UInt8 where
  encode state := [state]
  decode
    | [state] => some state
    | _ => none
  decode_encode _ := rfl

/-- A map of zeros. -/
def zeros : Restorer := ⟨⟨false, 0, List.replicate 30 0⟩, fun _ => none⟩

theorem restorer_protocol_save :
    (run (History.step byteCodec fun _ => 0) (.new zeros) [.save 7, .reset, .sendExiting]).Reports
      byteCodec :=
  (restorer_protocol_iff byteCodec (fun _ => 0) zeros (Nat.le_refl 30) [.save 7, .reset, .sendExiting]).mpr
    (by decide) 3

/-- The magic text outlives a reset. -/
theorem exit_survives_reset :
    let h := run (History.step byteCodec fun _ => 0) (.new zeros) [.sendExiting, .reset]
    h.last = .reset ∧ h.restorer.restore byteCodec = .ok none ∧ h.restorer.wantsToExit = .ok true ∧
      ¬ h.Reports byteCodec := by
  refine ⟨by decide, by decide, by decide, ?_⟩
  rintro ⟨-, b, hwants, hb⟩
  have htrue : b = true := by
    have : Except.ok b = (.ok true : Except Failure Bool) := hwants.symm.trans (by decide)
    exact Except.ok.inj this
  exact absurd (hb.mp htrue) (by decide)

end Bofuzz.StateRestorer
