import MatchingEngine.Fix.Frames

/-!
# Building frames

The writing half of `fix/parser.cpp`.  A `Builder` writes a frame from front to back, with six zeros
where the body length will be; `finalize` puts the length in its place and appends the checksum.

The `add_*` functions differ only in how they turn a value into text.  For `add_double` this is
libc's `snprintf`, a parameter: `snprintf decimals v` is what the call appends.

`finalize_roundtrip` is the round trip through `split_frame` and `parse_frame`, which come at it
from two sides.  The invariant of a builder under construction (`Builder.Open`) gives the bytes that
`split_frame` looks for by their positions, and the same bytes are, field by field, what
`parse_frame` takes off one after the other.
-/

set_option autoImplicit false

namespace MatchingEngine

namespace Fix

open Decimal Framing

/-- `std::to_chars` for integers. -/
def toChars (v : Int) : Bytes := if v < 0 then 45 :: render v.natAbs else render v.natAbs

structure Builder where
  buf : Bytes
  /-- The index of the first byte of the body. -/
  bodyStart : Nat
  /-- Where `finalize` writes the body length. -/
  bodyLenSlot : Nat

namespace Builder

def new : Builder := ⟨[], 0, 0⟩

/-- What the `add_*` functions have in common. -/
def addField (b : Builder) (tag : Int) (text : Bytes) : Builder :=
  { b with buf := b.buf ++ (toChars tag ++ equals :: (text ++ [SOH])) }

def addStr (b : Builder) (tag : Int) (v : Bytes) : Builder := b.addField tag v

def addInt (b : Builder) (tag : Int) (v : Int) : Builder := b.addField tag (toChars v)

def addChar (b : Builder) (tag : Int) (c : UInt8) : Builder := b.addField tag [c]

def addDouble (snprintf : Int → ℚ → Bytes) (b : Builder) (tag : Int) (v : ℚ) (decimals : Int) :
    Builder :=
  b.addField tag (snprintf decimals v)

/-- Start a message.  Whatever the builder held before is cleared. -/
def begin (_b : Builder) (msgType : UInt8) (senderComp targetComp : Bytes) (seqNum : Nat) :
    Builder :=
  let buf := ascii ['8', '=', 'F', 'I', 'X', '.', '4', '.', '4'] ++ [SOH] ++ ascii ['9', '=']
  let bodyLenSlot := buf.length
  let buf := buf ++ ascii ['0', '0', '0', '0', '0', '0'] ++ [SOH]
  let b : Builder := { buf, bodyStart := buf.length, bodyLenSlot }
  let b := b.addChar Tag.MsgType msgType
  let b := b.addStr Tag.SenderCompID senderComp
  let b := b.addStr Tag.TargetCompID targetComp
  b.addInt Tag.MsgSeqNum seqNum

/-- Patch the body length and append the checksum. -/
def finalize (b : Builder) : Builder :=
  let bodyLen := b.buf.length - b.bodyStart
  -- `snprintf` has room for six digits and the terminating zero
  let lenbuf := (pad 6 bodyLen).take 6
  let buf := b.buf.take b.bodyLenSlot ++ (lenbuf ++ b.buf.drop (b.bodyLenSlot + 6))
  { b with buf := buf ++ (ascii ['1', '0', '='] ++ (pad 3 (checksum buf).toNat ++ [SOH])) }

end Builder

/-- A call of one of the `add_*` functions. -/
inductive AddCall where
  | str (tag : Int) (v : Bytes)
  | int (tag : Int) (v : Int)
  | char (tag : Int) (c : UInt8)
  | double (tag : Int) (v : ℚ) (decimals : Int)

section Calls

variable (snprintf : Int → ℚ → Bytes)

def Builder.add (b : Builder) : AddCall → Builder
  | .str tag v => b.addStr tag v
  | .int tag v => b.addInt tag v
  | .char tag c => b.addChar tag c
  | .double tag v decimals => b.addDouble snprintf tag v decimals

/-- The field a call adds. -/
def AddCall.field : AddCall → Field
  | .str tag v => ⟨tag, v⟩
  | .int tag v => ⟨tag, toChars v⟩
  | .char tag c => ⟨tag, [c]⟩
  | .double tag v decimals => ⟨tag, snprintf decimals v⟩

/-- Start a message and add fields to it. -/
def Builder.build (b : Builder) (msgType : UInt8) (sender target : Bytes) (seq : Nat)
    (calls : List AddCall) : Builder :=
  calls.foldl (Builder.add snprintf) (b.begin msgType sender target seq)

end Calls

/-- The calls that add a field which can be read back: the tag is a non-negative `int`, and the
value does not contain the byte that ends it.  Numbers never do. -/
def AddCall.Clean : AddCall → Prop
  | .str tag v => 0 ≤ tag ∧ tag < 2 ^ 31 ∧ SOH ∉ v
  | .int tag _ => 0 ≤ tag ∧ tag < 2 ^ 31
  | .char tag c => 0 ≤ tag ∧ tag < 2 ^ 31 ∧ c ≠ SOH
  | .double tag _ _ => 0 ≤ tag ∧ tag < 2 ^ 31

/-! ## Fields on the wire -/

namespace Field

/-- The bytes of a field. -/
def encode (f : Field) : Bytes := toChars f.tag ++ equals :: (f.value ++ [SOH])

/-- The fields that can be read back. -/
structure Sound (f : Field) : Prop where
  nonneg : 0 ≤ f.tag
  lt : f.tag < 2 ^ 31
  clean : SOH ∉ f.value

theorem sound_mk {tag : Int} {text : Bytes} (htag : 0 ≤ tag ∧ tag < 2 ^ 31) (htext : SOH ∉ text) :
    Sound ⟨tag, text⟩ :=
  ⟨htag.1, htag.2, htext⟩

end Field

theorem toChars_of_nonneg {v : Int} (h : 0 ≤ v) : toChars v = render v.natAbs := by
  rw [toChars, if_neg (by omega)]

theorem soh_not_mem_render (n : Nat) : SOH ∉ render n :=
  soh_not_mem_of_isDigit isDigit_of_mem_render

theorem soh_not_mem_pad (width n : Nat) : SOH ∉ pad width n :=
  soh_not_mem_of_isDigit isDigit_of_mem_pad

theorem soh_not_mem_toChars (v : Int) : SOH ∉ toChars v := by
  rw [toChars]
  split
  · rw [List.mem_cons, not_or]
    exact ⟨by decide, soh_not_mem_render _⟩
  · exact soh_not_mem_render _

theorem AddCall.Clean.sound {snprintf : Int → ℚ → Bytes} {call : AddCall} (h : call.Clean)
    (hsnprintf : ∀ tag v decimals, call = .double tag v decimals → SOH ∉ snprintf decimals v) :
    (call.field snprintf).Sound := by
  cases call with
  | str tag v => exact ⟨h.1, h.2.1, h.2.2⟩
  | int tag v => exact ⟨h.1, h.2, soh_not_mem_toChars v⟩
  | char tag c => exact ⟨h.1, h.2.1, fun hc ↦ h.2.2 (List.mem_singleton.mp hc).symm⟩
  | double tag v decimals => exact ⟨h.1, h.2, hsnprintf tag v decimals rfl⟩

/-- **`parse_frame` reads back what was written**, whatever the fields. -/
theorem parseFields_encode {fields : List Field} (h : ∀ f ∈ fields, f.Sound) {fuel : Nat}
    (hfuel : fields.length ≤ fuel) :
    parseFields fuel (fields.flatMap Field.encode) = some fields := by
  induction fields generalizing fuel with
  | nil => cases fuel <;> rfl
  | cons f fields ih =>
    obtain ⟨hf, hfields⟩ := List.forall_mem_cons.mp h
    obtain ⟨fuel, rfl⟩ : ∃ k, fuel = k + 1 := ⟨fuel - 1, by rw [List.length_cons] at hfuel; omega⟩
    have htag : value (render f.tag.natAbs) < 2 ^ 31 := by
      have := hf.nonneg
      have := hf.lt
      rw [value_render]
      omega
    have hcons : (f :: fields).flatMap Field.encode
        = render f.tag.natAbs ++ equals :: (f.value ++ SOH :: fields.flatMap Field.encode) := by
      rw [List.flatMap_cons, Field.encode, toChars_of_nonneg hf.nonneg]
      simp
    rw [hcons, parseFields_field (render_ne_nil _) isDigit_of_mem_render htag hf.clean,
      ih hfields (by simpa using hfuel), value_render, Int.natAbs_of_nonneg hf.nonneg]
    rfl

theorem length_le_length_encode (fields : List Field) :
    fields.length ≤ (fields.flatMap Field.encode).length := by
  induction fields with
  | nil => exact Nat.zero_le _
  | cons f fields ih =>
    rw [List.flatMap_cons, List.length_append, List.length_cons]
    have hf : f.encode ≠ [] := by simp [Field.encode]
    have := List.length_pos_iff.mpr hf
    omega

/-! ## A builder under construction -/

/-- The builder has been started, and these are the fields of its body so far. -/
structure Builder.Open (b : Builder) (fields : List Field) : Prop where
  buf_eq : b.buf = headOf (ascii ['0', '0', '0', '0', '0', '0']) (fields.flatMap Field.encode)
  bodyStart_eq : b.bodyStart = beginString.length + lengthTag.length + 7
  bodyLenSlot_eq : b.bodyLenSlot = beginString.length + lengthTag.length

namespace Builder.Open

variable {b : Builder} {fields : List Field}

theorem addField (h : b.Open fields) (tag : Int) (text : Bytes) :
    (b.addField tag text).Open (fields ++ [⟨tag, text⟩]) where
  buf_eq := by simp [Builder.addField, h.buf_eq, headOf, Field.encode]
  bodyStart_eq := h.bodyStart_eq
  bodyLenSlot_eq := h.bodyLenSlot_eq

theorem add (snprintf : Int → ℚ → Bytes) (h : b.Open fields) (call : AddCall) :
    (b.add snprintf call).Open (fields ++ [call.field snprintf]) := by
  cases call <;> exact h.addField _ _

theorem foldl (snprintf : Int → ℚ → Bytes) (h : b.Open fields) (calls : List AddCall) :
    (calls.foldl (Builder.add snprintf) b).Open (fields ++ calls.map (AddCall.field snprintf)) := by
  induction calls generalizing b fields with
  | nil => simpa using h
  | cons call calls ih => simpa using ih (h.add snprintf call)

end Builder.Open

/-- The fields every message starts with. -/
def standardHeader (msgType : UInt8) (sender target : Bytes) (seq : Nat) : List Field :=
  [⟨Tag.MsgType, [msgType]⟩, ⟨Tag.SenderCompID, sender⟩, ⟨Tag.TargetCompID, target⟩,
    ⟨Tag.MsgSeqNum, toChars seq⟩]

theorem Builder.open_begin (b : Builder) (msgType : UInt8) (sender target : Bytes) (seq : Nat) :
    (b.begin msgType sender target seq).Open (standardHeader msgType sender target seq) := by
  have hstart : Builder.Open ⟨headOf (ascii ['0', '0', '0', '0', '0', '0']) [],
      beginString.length + lengthTag.length + 7, beginString.length + lengthTag.length⟩ [] :=
    ⟨rfl, rfl, rfl⟩
  exact (((hstart.addField _ _).addField _ _).addField _ _).addField _ _

/-! ## Frames of fields -/

/-- The checksum is written with three digits and read back with three. -/
theorem readChecksum_pad (c : UInt8) : readChecksum 0 (pad 3 c.toNat) = some c := by
  have key : ∀ n : Fin 256, readChecksum 0 (pad 3 n.val) = some (UInt8.ofNat n.val) := by
    decide +kernel
  have hc := key ⟨c.toNat, c.toNat_lt⟩
  rwa [UInt8.ofNat_toNat] at hc

theorem length_pad_checksum (c : UInt8) : (pad 3 c.toNat).length = 3 :=
  length_pad (by decide) (Nat.lt_trans c.toNat_lt (by decide))

/-- A frame with these fields in its body.  `digits` is what it says about the length of the
body. -/
def frameOf (digits : Bytes) (fields : List Field) : Bytes :=
  headOf digits (fields.flatMap Field.encode) ++
    trailerOf (pad 3 (checksum (headOf digits (fields.flatMap Field.encode))).toNat)

section FrameOf

variable {digits : Bytes} {fields : List Field}

/-- A frame that tells its length is recognised. -/
theorem splitFrame_frameOf (hne : digits ≠ []) (hdigits : ∀ c ∈ digits, isDigit c = true)
    (hvalue : value digits = (fields.flatMap Field.encode).length)
    (hcap : (fields.flatMap Field.encode).length ≤ 2 ^ 20) (rest : Bytes) :
    splitFrame (frameOf digits fields ++ rest)
      = .ok (frameOf digits fields) (frameOf digits fields).length :=
  splitFrame_eq_ok_iff.mpr
    ⟨_, _, _, rest, by rw [frameOf, List.append_assoc], rfl, rfl, hne, hdigits, hvalue, hcap,
      length_pad_checksum _, readChecksum_pad _⟩

/-- A frame is read back field by field. -/
theorem parseFrame_frameOf (hdigits : SOH ∉ digits) (hfields : ∀ f ∈ fields, f.Sound) :
    parseFrame (frameOf digits fields) = some ⟨
      ⟨Tag.BeginString, ascii ['F', 'I', 'X', '.', '4', '.', '4']⟩ :: ⟨Tag.BodyLength, digits⟩ ::
      fields ++ [⟨Tag.CheckSum,
        pad 3 (checksum (headOf digits (fields.flatMap Field.encode))).toNat⟩]⟩ := by
  rw [frameOf]
  generalize checksum (headOf digits (fields.flatMap Field.encode)) = check
  generalize hall : (⟨Tag.BeginString, ascii ['F', 'I', 'X', '.', '4', '.', '4']⟩ ::
      ⟨Tag.BodyLength, digits⟩ :: fields ++ [⟨Tag.CheckSum, pad 3 check.toNat⟩] : List Field) = all
  have hencode : headOf digits (fields.flatMap Field.encode) ++ trailerOf (pad 3 check.toNat)
      = all.flatMap Field.encode := by
    have hbegin : Field.encode ⟨Tag.BeginString, ascii ['F', 'I', 'X', '.', '4', '.', '4']⟩
        = beginString := by decide
    have hlength : toChars Tag.BodyLength = ascii ['9'] := by decide
    have hchecksum : toChars Tag.CheckSum = ascii ['1', '0'] := by decide
    rw [← hall]
    simp only [List.cons_append, List.flatMap_cons, List.flatMap_append, List.flatMap_nil, hbegin,
      List.append_nil]
    simp only [Field.encode, hlength, hchecksum, headOf, trailerOf]
    have hequals : '='.toUInt8 = equals := rfl
    simp [lengthTag, checksumTag, ascii, hequals]
  have hsound : ∀ f ∈ all, f.Sound := by
    rw [← hall]
    simp only [List.cons_append, List.forall_mem_cons, List.forall_mem_append]
    refine ⟨Field.sound_mk (by decide) (by decide), Field.sound_mk (by decide) hdigits,
      hfields, Field.sound_mk (by decide) (soh_not_mem_pad _ _), by simp⟩
  rw [parseFrame, hencode, parseFields_encode hsound (length_le_length_encode all)]
  rfl

theorem take_frameOf : (frameOf digits fields).take ((frameOf digits fields).length - 7)
    = headOf digits (fields.flatMap Field.encode) := by
  rw [frameOf, List.length_append, length_trailerOf (length_pad_checksum _), Nat.add_sub_cancel,
    List.take_left]

end FrameOf

/-! ## The round trip -/

namespace Builder.Open

variable {b : Builder} {fields : List Field}

theorem length_body (h : b.Open fields) :
    b.buf.length - b.bodyStart = (fields.flatMap Field.encode).length := by
  rw [h.buf_eq, length_headOf, h.bodyStart_eq]
  simp [ascii]

/-- The bytes `finalize` leaves.  There is room for six digits of the length. -/
theorem finalize (h : b.Open fields) :
    b.finalize.buf = frameOf ((pad 6 (fields.flatMap Field.encode).length).take 6) fields := by
  have hpatched : ∀ lenbuf : Bytes,
      b.buf.take b.bodyLenSlot ++ (lenbuf ++ b.buf.drop (b.bodyLenSlot + 6))
        = headOf lenbuf (fields.flatMap Field.encode) := by
    intro lenbuf
    have hsplit : b.buf = (beginString ++ lengthTag) ++ (ascii ['0', '0', '0', '0', '0', '0'] ++
        SOH :: fields.flatMap Field.encode) := by
      rw [h.buf_eq, headOf, List.append_assoc]
    rw [h.bodyLenSlot_eq, hsplit, ← List.length_append, List.take_left, List.drop_append]
    simp [headOf, ascii]
  simp only [Builder.finalize]
  rw [h.length_body, hpatched]
  rfl

theorem finalize_of_le (h : b.Open fields) (hlen : (fields.flatMap Field.encode).length ≤ 999999) :
    b.finalize.buf = frameOf (pad 6 (fields.flatMap Field.encode).length) fields := by
  have hpad : (pad 6 (fields.flatMap Field.encode).length).length = 6 :=
    length_pad (by decide) (by omega)
  rw [h.finalize, List.take_of_length_le (Nat.le_of_eq hpad)]

/-- A finished message is a frame. -/
theorem splitFrame_finalize (h : b.Open fields)
    (hlen : (fields.flatMap Field.encode).length ≤ 999999) (rest : Bytes) :
    splitFrame (b.finalize.buf ++ rest) = .ok b.finalize.buf b.finalize.buf.length := by
  rw [h.finalize_of_le hlen]
  refine splitFrame_frameOf ?_ isDigit_of_mem_pad (value_pad _ _) (by omega) rest
  exact List.ne_nil_of_length_pos (by rw [length_pad (by decide) (by omega)]; decide)

/-- A finished message, as a list of fields. -/
theorem parseFrame_finalize (h : b.Open fields)
    (hlen : (fields.flatMap Field.encode).length ≤ 999999) (hfields : ∀ f ∈ fields, f.Sound) :
    parseFrame b.finalize.buf = some ⟨
      ⟨Tag.BeginString, ascii ['F', 'I', 'X', '.', '4', '.', '4']⟩ ::
      ⟨Tag.BodyLength, pad 6 (b.buf.length - b.bodyStart)⟩ :: fields ++
      [⟨Tag.CheckSum,
        pad 3 (checksum (b.finalize.buf.take (b.finalize.buf.length - 7))).toNat⟩]⟩ := by
  rw [h.finalize_of_le hlen, parseFrame_frameOf (soh_not_mem_pad _ _) hfields, take_frameOf,
    h.length_body]

end Builder.Open

/-- The fields every message starts with can be read back, if the ones that vary can. -/
theorem sound_standardHeader {msgType : UInt8} {sender target : Bytes} (hmsgType : msgType ≠ SOH)
    (hsender : SOH ∉ sender) (htarget : SOH ∉ target) (seq : Nat) :
    ∀ f ∈ standardHeader msgType sender target seq, f.Sound := by
  simp only [standardHeader, List.forall_mem_cons]
  refine ⟨Field.sound_mk (by decide) ?_, Field.sound_mk (by decide) hsender,
    Field.sound_mk (by decide) htarget, Field.sound_mk (by decide) (soh_not_mem_toChars _), by simp⟩
  exact fun hc ↦ hmsgType (List.mem_singleton.mp hc).symm

/-- **The round trip.**  A message that has been built is recognised as one frame, whatever follows
it, and read back field by field. -/
theorem finalize_roundtrip (snprintf : Int → ℚ → Bytes)
    (hsnprintf : ∀ decimals v, SOH ∉ snprintf decimals v) (b : Builder) (msgType : UInt8)
    (sender target : Bytes) (seq : Nat) (calls : List AddCall) (hmsgType : msgType ≠ SOH)
    (hsender : SOH ∉ sender) (htarget : SOH ∉ target) (hcalls : ∀ call ∈ calls, call.Clean)
    (hlen : (b.build snprintf msgType sender target seq calls).buf.length
      - (b.build snprintf msgType sender target seq calls).bodyStart ≤ 999999) (rest : Bytes) :
    let m := b.build snprintf msgType sender target seq calls
    let out := m.finalize.buf
    splitFrame (out ++ rest) = .ok out out.length ∧
      parseFrame out = some ⟨
        ⟨Tag.BeginString, ascii ['F', 'I', 'X', '.', '4', '.', '4']⟩ ::
        ⟨Tag.BodyLength, pad 6 (m.buf.length - m.bodyStart)⟩ ::
        ⟨Tag.MsgType, [msgType]⟩ :: ⟨Tag.SenderCompID, sender⟩ :: ⟨Tag.TargetCompID, target⟩ ::
        ⟨Tag.MsgSeqNum, toChars seq⟩ :: calls.map (AddCall.field snprintf) ++
        [⟨Tag.CheckSum, pad 3 (checksum (out.take (out.length - 7))).toNat⟩]⟩ := by
  have hopen := (b.open_begin msgType sender target seq).foldl snprintf calls
  have hsound :
      ∀ f ∈ standardHeader msgType sender target seq ++ calls.map (AddCall.field snprintf),
        f.Sound := by
    rw [List.forall_mem_append]
    refine ⟨sound_standardHeader hmsgType hsender htarget seq, ?_⟩
    intro f hf
    obtain ⟨call, hcall, rfl⟩ := List.mem_map.mp hf
    exact (hcalls call hcall).sound fun _ v decimals _ ↦ hsnprintf decimals v
  rw [Builder.build, hopen.length_body] at hlen
  exact ⟨hopen.splitFrame_finalize hlen rest, hopen.parseFrame_finalize hlen hsound⟩

/-- A Heartbeat with a value that looks like a trailer, an empty one, and a price. -/
theorem finalize_roundtrip_heartbeat :
    let text := ascii ['1', '0', '=', '0', '0', '7']
    let snprintf : Int → ℚ → Bytes := fun _ _ ↦ ascii ['1', '.', '5', '0']
    let m := Builder.new.build snprintf 48 (ascii ['E']) (ascii ['C']) 7
      [.str Tag.Text text, .str Tag.Symbol [], .double Tag.LastPx (3 / 2) 2]
    splitFrame (m.finalize.buf ++ text) = .ok m.finalize.buf m.finalize.buf.length := by
  refine (finalize_roundtrip (fun _ _ ↦ ascii ['1', '.', '5', '0'])
    (fun _ _ ↦ by decide) Builder.new 48 (ascii ['E']) (ascii ['C']) 7 _ (by decide) (by decide)
    (by decide) ?_ (by decide +kernel) _).1
  simp only [List.forall_mem_cons, AddCall.Clean]
  refine ⟨by decide, by decide, by decide, ?_⟩
  simp

end Fix

end MatchingEngine
