import MatchingEngine.Fix.Frames

/-!
# Fields on the wire

What `parse_frame` accepts, and how it fits what `split_frame` accepts.

A `WireField` is a tag and a value as they are written: the digits of the tag, which may start with
zeros, and a text without `SOH`.  A list of them is written one after the other (`wire`), which
loses nothing (`wire_injective`), and `parse_frame` reads back exactly that
(`parseFields_eq_some_iff`).

`split_frame` cuts a frame by the number after `9=` and `parse_frame` by the bytes `SOH`.  The two
agree on where the trailer starts when the body is empty or ends in `SOH`; nothing in `split_frame`
asks for that, and on any other body the last field of the body swallows the trailer.
-/

set_option autoImplicit false

namespace MatchingEngine

namespace Fix

open Decimal Framing

/-! ## Writing fields -/

/-- One field as it is written. -/
@[ext]
structure WireField where
  digits : Bytes
  text : Bytes
  digits_ne_nil : digits ≠ []
  isDigit_digits : ∀ c ∈ digits, isDigit c = true
  tag_le : value digits ≤ 2147483647
  soh_not_mem : SOH ∉ text

namespace WireField

/-- The bytes of a field, up to its `SOH`. -/
def front (w : WireField) : Bytes := w.digits ++ equals :: w.text

/-- What a field says. -/
def field (w : WireField) : Field := ⟨value w.digits, w.text⟩

theorem soh_not_mem_front (w : WireField) : SOH ∉ w.front := by
  intro h
  rcases List.mem_append.mp h with h | h
  · exact soh_not_mem_of_isDigit w.isDigit_digits h
  · rcases List.mem_cons.mp h with h | h
    · exact absurd h (by decide)
    · exact w.soh_not_mem h

theorem front_injective {w w' : WireField} (h : w.front = w'.front) : w = w' := by
  have hscan := congrArg (scanDigits equals) h
  rw [front, front, scanDigits_append_cons isDigit_equals w.isDigit_digits,
    scanDigits_append_cons isDigit_equals w'.isDigit_digits, Option.some_inj, Prod.mk.injEq,
    List.cons.injEq] at hscan
  exact WireField.ext hscan.1 hscan.2.2

end WireField

/-- Fields one after the other. -/
def wire : List WireField → Bytes
  | [] => []
  | w :: ws => w.front ++ SOH :: wire ws

theorem wire_append (ws ws' : List WireField) : wire (ws ++ ws') = wire ws ++ wire ws' := by
  induction ws with
  | nil => rfl
  | cons w ws ih => rw [List.cons_append, wire, wire, ih, List.append_assoc, List.cons_append]

/-- Two ways of cutting a text at `SOH`: where the first part has none, the cut of the other is
there or further on. -/
theorem append_soh_eq {p b x y : Bytes} (hp : SOH ∉ p) (h : p ++ SOH :: x = b ++ SOH :: y) :
    (b = p ∧ x = y) ∨ ∃ b', b = p ++ SOH :: b' ∧ x = b' ++ SOH :: y := by
  rcases List.append_eq_append_iff.mp h with ⟨as, rfl, has⟩ | ⟨as, rfl, has⟩
  · cases as with
    | nil => exact .inl ⟨by simp, by simpa using has⟩
    | cons c as =>
      obtain ⟨rfl, rfl⟩ : SOH = c ∧ x = as ++ SOH :: y := by simpa using has
      exact .inr ⟨as, rfl, rfl⟩
  · cases as with
    | nil => exact .inl ⟨by simp, by simpa using has.symm⟩
    | cons c as =>
      obtain ⟨rfl, -⟩ : SOH = c ∧ y = as ++ SOH :: x := by simpa using has
      exact absurd (List.mem_append.mpr (.inr (List.mem_cons_self ..))) hp

/-- **A text is a list of fields in one way at most.** -/
theorem wire_injective {ws ws' : List WireField} (h : wire ws = wire ws') : ws = ws' := by
  induction ws generalizing ws' with
  | nil =>
    cases ws' with
    | nil => rfl
    | cons w' ws' => simp [wire] at h
  | cons w ws ih =>
    cases ws' with
    | nil => simp [wire] at h
    | cons w' ws' =>
      rw [wire, wire] at h
      rcases append_soh_eq w.soh_not_mem_front h with ⟨hfront, hrest⟩ | ⟨b, hfront, -⟩
      · rw [WireField.front_injective hfront, ih hrest]
      · refine absurd ?_ w'.soh_not_mem_front
        rw [hfront]
        simp

/-- Fields that are written across an `SOH` are cut there. -/
theorem exists_append_of_wire_eq {ws : List WireField} {b y : Bytes}
    (h : wire ws = b ++ SOH :: y) :
    ∃ ws₁ ws₂, ws = ws₁ ++ ws₂ ∧ wire ws₁ = b ++ [SOH] ∧ wire ws₂ = y := by
  induction ws generalizing b with
  | nil => simp [wire] at h
  | cons w ws ih =>
    rw [wire] at h
    rcases append_soh_eq w.soh_not_mem_front h with ⟨rfl, hrest⟩ | ⟨b', rfl, hrest⟩
    · exact ⟨[w], ws, rfl, rfl, hrest⟩
    · obtain ⟨ws₁, ws₂, rfl, h₁, h₂⟩ := ih hrest
      refine ⟨w :: ws₁, ws₂, rfl, ?_, h₂⟩
      rw [wire, h₁, List.append_assoc, List.cons_append]

theorem wire_eq_nil_or (ws : List WireField) : wire ws = [] ∨ ∃ b, wire ws = b ++ [SOH] := by
  rcases List.eq_nil_or_concat ws with rfl | ⟨ws, w, rfl⟩
  · exact .inl rfl
  · refine .inr ⟨wire ws ++ w.front, ?_⟩
    rw [List.concat_eq_append, wire_append, List.append_assoc]
    rfl

/-- Fields that start with some others. -/
theorem exists_append_of_wire_eq_append {ws us : List WireField} {y : Bytes}
    (h : wire ws = wire us ++ y) : ∃ ws', ws = us ++ ws' ∧ wire ws' = y := by
  rcases wire_eq_nil_or us with hus | ⟨b, hb⟩
  · obtain rfl : us = [] := wire_injective hus
    exact ⟨ws, rfl, h⟩
  · rw [hb, List.append_assoc] at h
    obtain ⟨ws₁, ws₂, rfl, h₁, h₂⟩ := exists_append_of_wire_eq h
    exact ⟨ws₂, by rw [wire_injective (h₁.trans hb.symm)], h₂⟩

/-! ## What `parse_frame` accepts -/

theorem parseFields_wire (ws : List WireField) {fuel : Nat} (hfuel : (wire ws).length ≤ fuel) :
    parseFields fuel (wire ws) = some (ws.map WireField.field) := by
  induction ws generalizing fuel with
  | nil => cases fuel <;> rfl
  | cons w ws ih =>
    simp only [wire, List.length_append, List.length_cons] at hfuel
    obtain ⟨fuel, rfl⟩ : ∃ k, fuel = k + 1 := ⟨fuel - 1, by omega⟩
    have hwire : wire (w :: ws) = w.digits ++ equals :: (w.text ++ SOH :: wire ws) := by
      rw [wire, WireField.front, List.append_assoc, List.cons_append]
    rw [hwire, parseFields_field w.digits_ne_nil w.isDigit_digits (by have := w.tag_le; omega)
      w.soh_not_mem, ih (by omega)]
    rfl

/-- One round of the loop, run backwards. -/
theorem exists_wire_of_parseFields {fuel : Nat} {b : Bytes} {fields : List Field}
    (h : parseFields fuel b = some fields) :
    ∃ ws, b = wire ws ∧ fields = ws.map WireField.field := by
  induction fuel generalizing b fields with
  | zero =>
    cases b with
    | nil => exact ⟨[], rfl, (Option.some.inj h).symm⟩
    | cons c cs => simp [parseFields] at h
  | succ fuel ih =>
    cases b with
    | nil => exact ⟨[], rfl, (Option.some.inj h).symm⟩
    | cons c cs =>
      rw [parseFields] at h
      split at h
      case h_1 => simp at h
      case h_2 => simp at h
      case h_3 digits e rest hscan =>
        split at h
        · simp at h
        rename_i tag htag
        split at h
        · simp at h
        rename_i s rest' hdrop
        obtain ⟨fields, hrest, rfl⟩ := Option.map_eq_some_iff.mp h
        obtain ⟨ws, rfl, rfl⟩ := ih hrest
        obtain ⟨hb, hdigits, he⟩ := scanDigits_eq_some hscan
        obtain rfl : e = equals := he e rfl
        obtain ⟨hne, rfl, hlt⟩ := fromChars_eq_some.mp htag
        have hs : s = SOH := by
          have := List.head?_dropWhile_not (fun c ↦ decide (c ≠ SOH)) rest
          rw [hdrop] at this
          simpa using this
        have hsoh : SOH ∉ rest.takeWhile (· ≠ SOH) := fun hmem ↦ by
          simpa using List.mem_takeWhile_imp hmem
        refine ⟨⟨digits, rest.takeWhile (· ≠ SOH), hne, hdigits, by omega, hsoh⟩ :: ws, ?_, rfl⟩
        have hsplit : rest = rest.takeWhile (· ≠ SOH) ++ SOH :: wire ws := by
          conv_lhs => rw [← List.takeWhile_append_dropWhile (p := (· ≠ SOH)) (l := rest), hdrop, hs]
        rw [wire, WireField.front, hb, List.append_assoc, List.cons_append, ← hsplit]

/-- **What the loop of `parse_frame` reads**: fields written one after the other. -/
theorem parseFields_eq_some_iff {b : Bytes} {fields : List Field} :
    parseFields b.length b = some fields ↔ ∃ ws, b = wire ws ∧ fields = ws.map WireField.field := by
  constructor
  · exact exists_wire_of_parseFields
  · rintro ⟨ws, rfl, rfl⟩
    exact parseFields_wire ws (Nat.le_refl _)

theorem parseFrame_eq_some_iff {frame : Bytes} {m : Message} :
    parseFrame frame = some m ↔ ∃ ws, frame = wire ws ∧ m = ⟨ws.map WireField.field⟩ := by
  rw [parseFrame, Option.map_eq_some_iff]
  simp only [parseFields_eq_some_iff]
  constructor
  · rintro ⟨fields, ⟨ws, hframe, rfl⟩, rfl⟩
    exact ⟨ws, hframe, rfl⟩
  · rintro ⟨ws, hframe, rfl⟩
    exact ⟨_, ⟨ws, hframe, rfl⟩, rfl⟩

/-- The loop that pushes the fields one by one, and the one that returns them. -/
theorem parseLoop_eq (fuel : Nat) (b : Bytes) (fields : List Field) :
    (parseLoop fuel b fields).1 = (parseFields fuel b).isSome ∧
      ∀ l ∈ parseFields fuel b, (parseLoop fuel b fields).2 = fields ++ l := by
  induction fuel generalizing b fields with
  | zero => cases b <;> simp [parseLoop, parseFields]
  | succ fuel ih =>
    cases b with
    | nil => simp [parseLoop, parseFields]
    | cons c cs =>
      rw [parseLoop, parseFields]
      -- the two go through the same tests
      split
      · simp
      · simp
      split
      · simp
      split
      · simp
      rename_i rest' _
      obtain ⟨hok, hfields⟩ := ih rest' _
      rw [hok, Option.isSome_map]
      refine ⟨rfl, fun l hl ↦ ?_⟩
      obtain ⟨l', hl', rfl⟩ := Option.map_eq_some_iff.mp hl
      rw [hfields l' hl', List.append_assoc]
      rfl

/-- What was in `*out` before makes no difference. -/
theorem parseFrame_eq_into (frame : Bytes) (out : Message) :
    parseFrame frame
      = if (parseFrameInto frame out).1 then some (parseFrameInto frame out).2 else none := by
  obtain ⟨hok, hfields⟩ := parseLoop_eq frame.length frame []
  simp only [parseFrame, parseFrameInto, hok]
  cases hp : parseFields frame.length frame with
  | none => rfl
  | some l =>
    rw [hfields l hp]
    rfl

/-- **`parse_frame` reads exactly the texts that are fields one after the other**, each in one way,
and leaves those fields and no others in `*out`. -/
theorem parseFrameInto_iff_wire (frame : Bytes) (out : Message) :
    ((parseFrameInto frame out).1 = true ↔ ∃ ws, frame = wire ws) ∧
      ∀ ws, frame = wire ws →
        (parseFrameInto frame out).2 = ⟨ws.map WireField.field⟩ ∧
          ∀ ws', frame = wire ws' → ws' = ws := by
  have hinto := parseFrame_eq_into frame out
  constructor
  · constructor
    · intro hok
      rw [if_pos hok] at hinto
      obtain ⟨ws, hws, -⟩ := parseFrame_eq_some_iff.mp hinto
      exact ⟨ws, hws⟩
    · rintro ⟨ws, hws⟩
      have hsome := parseFrame_eq_some_iff.mpr ⟨ws, hws, rfl⟩
      by_contra hok
      rw [hinto, if_neg hok] at hsome
      simp at hsome
  · intro ws hws
    refine ⟨?_, fun ws' hws' ↦ wire_injective (hws'.symm.trans hws)⟩
    have hsome := parseFrame_eq_some_iff.mpr ⟨ws, hws, rfl⟩
    rw [hinto] at hsome
    split at hsome
    · exact Option.some.inj hsome
    · simp at hsome

/-! ## Frames -/

/-- A frame, as `split_frame` takes it: what is written after `9=`, the body of that length, and the
digits of the trailer. -/
structure Frame where
  digits : Bytes
  body : Bytes
  check : Bytes
  digits_ne_nil : digits ≠ []
  isDigit_digits : ∀ c ∈ digits, isDigit c = true
  value_digits : value digits = body.length
  length_body_le : body.length ≤ 2 ^ 20
  length_check : check.length = 3
  readChecksum_check : readChecksum 0 check = some (checksum (headOf digits body))

namespace Frame

/-- The frame up to the end of its body. -/
def head (w : Frame) : Bytes := headOf w.digits w.body

def bytes (w : Frame) : Bytes := w.head ++ trailerOf w.check

end Frame

/-- **What `split_frame` accepts**: a frame, whatever follows it. -/
theorem splitFrame_eq_ok_iff_frame {buf f : Bytes} {n : Nat} :
    splitFrame buf = .ok f n ↔
      ∃ w : Frame, ∃ rest, buf = w.bytes ++ rest ∧ f = w.bytes ∧ n = w.bytes.length := by
  rw [splitFrame_eq_ok_iff]
  constructor
  · rintro ⟨digits, body, check, rest, rfl, rfl, rfl, hne, hdigits, hvalue, hcap, hcheck, hsum⟩
    refine ⟨⟨digits, body, check, hne, hdigits, hvalue, hcap, hcheck, hsum⟩, rest, ?_, rfl, rfl⟩
    rw [Frame.bytes, Frame.head, List.append_assoc]
  · rintro ⟨w, rest, rfl, rfl, rfl⟩
    refine ⟨w.digits, w.body, w.check, rest, ?_, rfl, rfl, w.digits_ne_nil, w.isDigit_digits,
      w.value_digits, w.length_body_le, w.length_check, w.readChecksum_check⟩
    rw [Frame.bytes, Frame.head, List.append_assoc]

/-! ### The parts of a frame -/

/-- `8=FIX.4.4|9=`, what every frame starts with. -/
def preamble : Bytes := beginString ++ lengthTag

/-- The digits after it. -/
def lengthDigits (frame : Bytes) : Bytes := (frame.drop preamble.length).takeWhile isDigit

/-- The bytes the number after `9=` counts. -/
def bodyOf (frame : Bytes) : Bytes :=
  (frame.drop (preamble.length + (lengthDigits frame).length + 1)).take (value (lengthDigits frame))

/-- The bytes between the last `=` and the last `SOH`. -/
def checkDigits (frame : Bytes) : Bytes := (frame.drop (frame.length - 4)).take 3

theorem length_preamble : preamble.length = 12 := rfl

theorem lengthDigits_preamble {digits : Bytes} (hdigits : ∀ c ∈ digits, isDigit c = true)
    (rest : Bytes) : lengthDigits (preamble ++ (digits ++ SOH :: rest)) = digits := by
  rw [lengthDigits, List.drop_left, List.takeWhile_append_of_pos hdigits,
    List.takeWhile_cons_of_neg (by decide), List.append_nil]

namespace Frame

theorem bytes_eq (w : Frame) :
    w.bytes = preamble ++ (w.digits ++ SOH :: (w.body ++ trailerOf w.check)) := by
  simp [bytes, head, headOf, preamble]

theorem length_bytes (w : Frame) :
    w.bytes.length = 12 + (w.digits.length + (value w.digits + 7 + 1)) := by
  rw [w.bytes_eq, w.value_digits]
  simp only [List.length_append, List.length_cons, length_preamble, length_trailerOf w.length_check]

theorem lengthDigits_append (w : Frame) (rest : Bytes) :
    lengthDigits (w.bytes ++ rest) = w.digits := by
  rw [bytes_eq, List.append_assoc, List.append_assoc, List.cons_append,
    lengthDigits_preamble w.isDigit_digits]

/-- What follows a frame does not change what its body is. -/
theorem bodyOf_append (w : Frame) (rest : Bytes) : bodyOf (w.bytes ++ rest) = w.body := by
  have hlen : preamble.length + w.digits.length + 1 = (headOf w.digits []).length := by
    rw [length_headOf, List.length_nil, Nat.add_zero, preamble, List.length_append]
  have hbytes : w.bytes ++ rest
      = headOf w.digits [] ++ (w.body ++ (trailerOf w.check ++ rest)) := by
    simp [bytes, head, headOf]
  rw [bodyOf, lengthDigits_append, hlen, hbytes, List.drop_left, w.value_digits, List.take_left]

@[simp] theorem lengthDigits_bytes (w : Frame) : lengthDigits w.bytes = w.digits := by
  simpa using w.lengthDigits_append []

@[simp] theorem bodyOf_bytes (w : Frame) : bodyOf w.bytes = w.body := by
  simpa using w.bodyOf_append []

@[simp] theorem checkDigits_bytes (w : Frame) : checkDigits w.bytes = w.check := by
  have hbytes : w.bytes = (w.head ++ checksumTag) ++ (w.check ++ [SOH]) := by
    simp [bytes, trailerOf]
  have hlen : w.bytes.length - 4 = (w.head ++ checksumTag).length := by
    simp only [hbytes, List.length_append, w.length_check, List.length_singleton]
    omega
  rw [checkDigits, hlen, hbytes, List.drop_left, ← w.length_check, List.take_left]

/-! ## Where the two cut a frame -/

/-- `8=FIX.4.4`, as a field. -/
def beginField : WireField where
  digits := ascii ['8']
  text := ascii ['F', 'I', 'X', '.', '4', '.', '4']
  digits_ne_nil := by decide
  isDigit_digits := List.all_eq_true.mp (by decide)
  tag_le := by decide
  soh_not_mem := by decide

theorem isDigit_of_readChecksum {l : Bytes} {got sum : UInt8} (h : readChecksum got l = some sum) :
    ∀ c ∈ l, isDigit c = true := by
  induction l generalizing got with
  | nil => simp
  | cons c l ih =>
    rw [readChecksum] at h
    split at h
    · rename_i hc
      exact List.forall_mem_cons.mpr ⟨hc, ih h⟩
    · simp at h

def lengthField (w : Frame) : WireField where
  digits := ascii ['9']
  text := w.digits
  digits_ne_nil := by decide
  isDigit_digits := List.all_eq_true.mp (by decide)
  tag_le := by decide
  soh_not_mem := soh_not_mem_of_isDigit w.isDigit_digits

def checkField (w : Frame) : WireField where
  digits := ascii ['1', '0']
  text := w.check
  digits_ne_nil := by decide
  isDigit_digits := List.all_eq_true.mp (by decide)
  tag_le := by decide
  soh_not_mem := soh_not_mem_of_isDigit (isDigit_of_readChecksum w.readChecksum_check)

/-- The frame as `parse_frame` sees it: two fields, the body, and one more. -/
theorem bytes_eq_wire (w : Frame) :
    w.bytes = wire [beginField, w.lengthField] ++ (w.body ++ wire [w.checkField]) := by
  rw [bytes_eq]
  simp [wire, WireField.front, beginField, lengthField, checkField, preamble,
    beginString, lengthTag, trailerOf, checksumTag, ascii, List.append_assoc]
  rfl

end Frame

/-- The two functions agree on a frame: the fields `parse_frame` finds are the two of the header,
those of the body, and the trailer. -/
def SameBoundaries (f : Bytes) (m : Message) : Prop :=
  ∃ mid, parseFrame (bodyOf f) = some mid ∧
    m.fields = ⟨Tag.BeginString, ascii ['F', 'I', 'X', '.', '4', '.', '4']⟩
      :: ⟨Tag.BodyLength, lengthDigits f⟩ :: (mid.fields ++ [⟨Tag.CheckSum, checkDigits f⟩])

/-- **When `split_frame` and `parse_frame` agree**: when the body is empty or its last byte is the
`SOH` that ends a field. -/
theorem sameBoundaries_iff {buf f : Bytes} {n : Nat} {m : Message}
    (hs : splitFrame buf = .ok f n) (hp : parseFrame f = some m) :
    SameBoundaries f m ↔ bodyOf buf = [] ∨ (bodyOf buf).getLast? = some SOH := by
  obtain ⟨w, rest, rfl, rfl, -⟩ := splitFrame_eq_ok_iff_frame.mp hs
  obtain ⟨ws, hws, rfl⟩ := parseFrame_eq_some_iff.mp hp
  rw [w.bytes_eq_wire] at hws
  obtain ⟨ws, rfl, hrest⟩ := exists_append_of_wire_eq_append hws.symm
  simp only [SameBoundaries, Frame.bodyOf_append, Frame.bodyOf_bytes, Frame.lengthDigits_bytes,
    Frame.checkDigits_bytes]
  constructor
  · rintro ⟨mid, hmid, -⟩
    obtain ⟨us, hus, -⟩ := parseFrame_eq_some_iff.mp hmid
    rcases wire_eq_nil_or us with hnil | ⟨b, hb⟩
    · exact .inl (hus.trans hnil)
    · exact .inr (by rw [hus, hb, List.getLast?_concat])
  · intro hbody
    -- a body that is empty or ends in `SOH` is cut off as a whole
    have hcut : ∃ us vs, ws = us ++ vs ∧ wire us = w.body ∧ wire vs = wire [w.checkField] := by
      rcases hbody with hnil | hlast
      · exact ⟨[], ws, rfl, hnil.symm, by rw [hrest, hnil, List.nil_append]⟩
      · obtain ⟨b, hb⟩ := List.getLast?_eq_some_iff.mp hlast
        rw [hb, List.append_assoc] at hrest
        obtain ⟨us, vs, he, hus, hvs⟩ := exists_append_of_wire_eq hrest
        exact ⟨us, vs, he, by rw [hus, hb], hvs⟩
    obtain ⟨us, vs, rfl, hus, hvs⟩ := hcut
    refine ⟨⟨us.map WireField.field⟩, parseFrame_eq_some_iff.mpr ⟨us, hus.symm, rfl⟩, ?_⟩
    rw [wire_injective hvs]
    simp only [List.map_append, List.map_cons, List.map_nil, List.cons_append, List.nil_append]
    rfl

/-- `8=FIX.4.4|9=5|35=0|10=163|`, a heartbeat. -/
def heartbeatFrame : Bytes :=
  headOf (ascii ['5']) (ascii ['3', '5', '=', '0'] ++ [SOH]) ++ trailerOf (ascii ['1', '6', '3'])

theorem heartbeatFrame_sameBoundaries :
    ∃ m, splitFrame heartbeatFrame = .ok heartbeatFrame heartbeatFrame.length ∧
      parseFrame heartbeatFrame = some m ∧ SameBoundaries heartbeatFrame m := by
  have hs : splitFrame heartbeatFrame
      = .ok heartbeatFrame heartbeatFrame.length := by decide +kernel
  have hp : parseFrame heartbeatFrame = some ⟨[⟨8, ascii ['F', 'I', 'X', '.', '4', '.', '4']⟩,
      ⟨9, ascii ['5']⟩, ⟨35, ascii ['0']⟩, ⟨10, ascii ['1', '6', '3']⟩]⟩ := by decide +kernel
  exact ⟨_, hs, hp, (sameBoundaries_iff hs hp).mpr (.inr (by decide +kernel))⟩

/-- The same without the `SOH` at the end of the body: `8=FIX.4.4|9=4|35=010=161|`. -/
def unendedBody : Bytes :=
  headOf (ascii ['4']) (ascii ['3', '5', '=', '0']) ++ trailerOf (ascii ['1', '6', '1'])

/-- Its trailer becomes a part of the message type. -/
theorem unendedBody_not_sameBoundaries :
    ∃ m, splitFrame unendedBody = .ok unendedBody unendedBody.length ∧
      parseFrame unendedBody = some m ∧ ¬SameBoundaries unendedBody m := by
  refine ⟨⟨[⟨8, ascii ['F', 'I', 'X', '.', '4', '.', '4']⟩, ⟨9, ascii ['4']⟩,
    ⟨35, ascii ['0', '1', '0', '=', '1', '6', '1']⟩]⟩, by decide +kernel, by decide +kernel, ?_⟩
  rintro ⟨mid, hmid, -⟩
  have hnone : parseFrame (bodyOf unendedBody) = none := by decide +kernel
  rw [hnone] at hmid
  simp at hmid

end Fix

end MatchingEngine
