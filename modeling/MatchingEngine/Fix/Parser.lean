import Mathlib.Data.Rat.Defs
import MatchingEngine.Util.Decimal
import MatchingEngine.Util.Framing

/-!
# FIX frames and messages

A transcription of the reading half of `fix/parser.h` and `fix/parser.cpp`: `split_frame`, which
looks for one complete frame at the front of a receive buffer, `parse_frame`, which takes a frame
apart into its fields, and the accessors of `Message`.

The two functions read a frame in different ways.  `split_frame` finds the end of the frame by the
number after `9=` and does not look at what is in between; `parse_frame` goes from `=` to `SOH` and
from `SOH` to `=`, and does not know which field is which.  `Fix.Frames` says what each of them
accepts.

A `std::string_view` is a list of bytes.  `std::from_chars` on unsigned digits is `fromChars`, and
`std::strtod` is a parameter: what the model needs of libc is in `Fix.Gateway`.
-/

set_option autoImplicit false

namespace MatchingEngine

namespace Fix

open Decimal Framing

abbrev Bytes := List UInt8

/-- The bytes of a text in ASCII. -/
def ascii (text : List Char) : Bytes := text.map Char.toUInt8

/-- The byte that ends a field. -/
def SOH : UInt8 := 1

/-- The byte between a tag and its value. -/
def equals : UInt8 := 61

/-! ## The tags in use -/

namespace Tag

def BeginString : Int := 8
def BodyLength : Int := 9
def MsgType : Int := 35
def SenderCompID : Int := 49
def TargetCompID : Int := 56
def MsgSeqNum : Int := 34
def CheckSum : Int := 10
def ClOrdID : Int := 11
def OrderID : Int := 37
def ExecID : Int := 17
def ExecType : Int := 150
def OrdStatus : Int := 39
def Symbol : Int := 55
def SideTag : Int := 54
def OrderQty : Int := 38
def CumQty : Int := 14
def LeavesQty : Int := 151
def LastQty : Int := 32
def LastPx : Int := 31
def PriceTag : Int := 44
def AvgPx : Int := 6
def MDReqID : Int := 262
def NoMDEntries : Int := 268
def MDEntryType : Int := 269
def MDEntryPx : Int := 270
def MDEntrySize : Int := 271
def EncryptMethod : Int := 98
def HeartBtInt : Int := 108
def Text : Int := 58

end Tag

/-! ## Numbers -/

/-- `std::from_chars` on a run of decimal digits, into an unsigned type with values below `bound` or
into the non-negative half of a signed one. -/
def fromChars (bound : Nat) (digits : Bytes) : Option Nat :=
  if digits = [] then none
  else if value digits < bound then some (value digits)
  else none

/-- `std::from_chars` into `long long`: an optional minus sign, and the digits up to the first byte
that is none. -/
def fromCharsInt64 (text : Bytes) : Option Int :=
  match text with
  | [] => none
  | c :: cs =>
    if c = 45 then (fromChars (2 ^ 63 + 1) (cs.takeWhile isDigit)).map fun n ↦ -(n : Int)
    else (fromChars (2 ^ 63) ((c :: cs).takeWhile isDigit)).map fun n ↦ (n : Int)

/-! ## Messages -/

/-- One tag with its value. -/
structure Field where
  tag : Int
  value : Bytes
  deriving DecidableEq

/-- A message: its fields, in the order of the wire. -/
structure Message where
  fields : List Field
  deriving DecidableEq

namespace Message

/-- The value of the first field with a tag; empty when there is none. -/
def get (m : Message) (tag : Int) : Bytes :=
  match m.fields.find? fun f ↦ f.tag = tag with
  | some f => f.value
  | none => []

def getInt (m : Message) (tag : Int) (default : Int) : Int :=
  if (m.get tag).isEmpty then default else (fromCharsInt64 (m.get tag)).getD default

/-- `get_double`.  `strtod` returns `none` when it converts nothing; a value of 64 bytes or more
does not fit the stack copy and is not looked at. -/
def getDouble (strtod : Bytes → Option ℚ) (m : Message) (tag : Int) (default : ℚ) : ℚ :=
  if (m.get tag).isEmpty then default
  else if (m.get tag).length ≥ 64 then default
  else (strtod (m.get tag)).getD default

/-- The first byte of tag 35, or `0`. -/
def msgType (m : Message) : UInt8 := (m.get Tag.MsgType).headD 0

end Message

/-! ## Splitting -/

/-- The sum of the bytes, modulo 256. -/
def checksum (bytes : Bytes) : UInt8 :=
  ((bytes.foldl (fun (sum : UInt32) c ↦ sum + c.toUInt32) 0) &&& 0xFF).toUInt8

/-- The loop over the digits of a number that ends at `stop`: the digits, and the buffer from `stop`
on, empty when the buffer ends first.  `none` is the early return for a byte that is no digit. -/
def scanDigits (stop : UInt8) : Bytes → Option (Bytes × Bytes)
  | [] => some ([], [])
  | c :: cs =>
    if c = stop then some ([], c :: cs)
    else if isDigit c then (scanDigits stop cs).map fun x ↦ (c :: x.1, x.2)
    else none

/-- The loop over the digits of the checksum.  `got` is a byte, and wraps. -/
def readChecksum (got : UInt8) : Bytes → Option UInt8
  | [] => some got
  | c :: cs => if isDigit c then readChecksum (got * 10 + (c - 48)) cs else none

/-- `kBegin`, the field every frame starts with. -/
def beginString : Bytes := ascii ['8', '=', 'F', 'I', 'X', '.', '4', '.', '4'] ++ [SOH]

/-- `9=`, the tag of the body length. -/
def lengthTag : Bytes := ascii ['9', '=']

/-- `10=`, the tag of the checksum. -/
def checksumTag : Bytes := ascii ['1', '0', '=']

/-- The last part of `split_frame`: the trailer, seven bytes from the end of the body on. -/
def splitTrailer (buf : Bytes) (bodyEnd : Nat) : Split UInt8 :=
  let total := bodyEnd + 7
  if buf.length < total then .incomplete
  else
    let trailer := (buf.drop bodyEnd).take 7
    if trailer.take 3 ≠ checksumTag ∨ trailer.drop 6 ≠ [SOH] then .malformed
    else
      match readChecksum 0 ((trailer.drop 3).take 3) with
      | none => .malformed
      | some got =>
        if got ≠ checksum (buf.take bodyEnd) then .malformed
        else .ok (buf.take total) total

/-- The middle part of `split_frame`: the body length.  `rest` is what follows `8=FIX.4.4`. -/
def splitLength (buf rest : Bytes) : Split UInt8 :=
  if rest.length < lengthTag.length then .incomplete
  else if rest.take lengthTag.length ≠ lengthTag then .malformed
  else
    match scanDigits SOH (rest.drop lengthTag.length) with
    | none => .malformed
    | some (_, []) => .incomplete
    | some (digits, _ :: _) =>
      match fromChars (2 ^ 64) digits with
      | none => .malformed
      | some bodyLen =>
        if bodyLen > 2 ^ 20 then .malformed
        else splitTrailer buf (beginString.length + lengthTag.length + digits.length + 1 + bodyLen)

/-- `split_frame`: look for one complete frame at the front of a buffer. -/
def splitFrame (buf : Bytes) : Split UInt8 :=
  if buf.length < beginString.length then .incomplete
  else if buf.take beginString.length ≠ beginString then .malformed
  else splitLength buf (buf.drop beginString.length)

/-! ## Parsing -/

/-- The loop of `parse_frame`.  An iteration takes two bytes at least, `=` and `SOH`, so that the
length of the frame is fuel enough. -/
def parseFields : Nat → Bytes → Option (List Field)
  | _, [] => some []
  | 0, _ :: _ => none
  | fuel + 1, c :: cs =>
    match scanDigits equals (c :: cs) with
    | none => none
    | some (_, []) => none
    | some (digits, _ :: rest) =>
      match fromChars (2 ^ 31) digits with
      | none => none
      | some tag =>
        match rest.dropWhile (· ≠ SOH) with
        | [] => none
        | _ :: rest' =>
          (parseFields fuel rest').map (⟨tag, rest.takeWhile (· ≠ SOH)⟩ :: ·)

/-- `parse_frame`: take a complete frame apart into its fields.  `none` is the return of `false`;
the fields read up to there are not used by any caller. -/
def parseFrame (frame : Bytes) : Option Message :=
  (parseFields frame.length frame).map Message.mk

/-- The loop of `parse_frame` with the fields it has pushed so far.  They stay in `*out` when the
loop gives up. -/
def parseLoop : Nat → Bytes → List Field → Bool × List Field
  | _, [], fields => (true, fields)
  | 0, _ :: _, fields => (false, fields)
  | fuel + 1, c :: cs, fields =>
    match scanDigits equals (c :: cs) with
    | none => (false, fields)
    | some (_, []) => (false, fields)
    | some (digits, _ :: rest) =>
      match fromChars (2 ^ 31) digits with
      | none => (false, fields)
      | some tag =>
        match rest.dropWhile (· ≠ SOH) with
        | [] => (false, fields)
        | _ :: rest' => parseLoop fuel rest' (fields ++ [⟨tag, rest.takeWhile (· ≠ SOH)⟩])

/-- `parse_frame` with its out parameter: what it returns, and what it leaves in `*out`. -/
def parseFrameInto (frame : Bytes) (out : Message) : Bool × Message :=
  let out := { out with fields := [] }
  let result := parseLoop frame.length frame out.fields
  (result.1, { out with fields := result.2 })

end Fix

end MatchingEngine
