import MatchingEngine.Backtest.Replay
import MatchingEngine.Util.Scanning

/-!
# Tick files

`save_csv` and `load_csv`.  A tick is a line of seven fields, and the first line is a header, which
the reader takes for one if it contains `ts_ns`.  Event and side are one character each, and a byte
that stands for neither of the characters is written like a zero.

What is saved is loaded again (`loadCsv_saveCsv`): the same ticks in the same order, but for those
bytes.
-/

set_option autoImplicit false

namespace MatchingEngine

namespace Backtest

open Decimal Scanning

/-! ## Saving -/

/-- The first line. -/
def csvHeader : List UInt8 :=
  bytes ['t', 's', '_', 'n', 's', ',', 's', 'y', 'm', 'b', 'o', 'l', ',', 'e', 'v', 'e',
    'n', 't', ',', 's', 'i', 'd', 'e', ',', 'p', 'r', 'i', 'c', 'e', ',', 'q', 't', 'y', ',', 'e',
    'x', 't', '_', 'i', 'd']

def Tick.eventChar (t : Tick) : UInt8 :=
  if t.event = 1 then 'C'.toUInt8 else if t.event = 2 then 'T'.toUInt8 else 'A'.toUInt8

def Tick.sideChar (t : Tick) : UInt8 := if t.side = 1 then 'S'.toUInt8 else 'B'.toUInt8

/-- The line of a tick. -/
def csvLine (t : Tick) : List UInt8 :=
  render t.tsNs ++ [44] ++ render t.symbol ++ [44] ++ [t.eventChar] ++ [44] ++ [t.sideChar] ++ [44]
    ++ renderInt t.price ++ [44] ++ renderInt t.qty ++ [44] ++ render t.extId

def saveCsv (ts : List Tick) : List UInt8 := csvHeader ++ 10 :: ts.flatMap fun t ↦ csvLine t ++ [10]

/-! ## Loading -/

/-- The format of a line: `%llu,%u,%c,%c,%lld,%lld,%llu`. -/
def csvFormat : List Directive :=
  [.int ⟨false, 64⟩, .byte 44, .int ⟨false, 32⟩, .byte 44, .char, .byte 44, .char, .byte 44,
    .int ⟨true, 64⟩, .byte 44, .int ⟨true, 64⟩, .byte 44, .int ⟨false, 64⟩]

/-- The tick in a line, if all seven fields are there. -/
def readTick (line : List UInt8) : Option (Option Tick) := do
  -- `sscanf` sees a C string
  let vs ← scan csvFormat (line.takeWhile (· ≠ 0))
  match vs with
  | [.int ts, .int sym, .char ev, .char sd, .int px, .int qy, .int ext] =>
    return some
      { tsNs := ts.toNat
        symbol := sym.toNat
        event := if ev = 'C'.toUInt8 then 1 else if ev = 'T'.toUInt8 then 2 else 0
        side := if sd = 'S'.toUInt8 then 1 else 0
        price := px
        qty := qy
        extId := ext.toNat }
  | _ => return none

def loadLines : List (List UInt8) → Option (List Tick)
  | [] => some []
  | line :: rest =>
    if line = [] then loadLines rest
    else do
      let t ← readTick line
      let ts ← loadLines rest
      return t.toList ++ ts

/-- `load_csv`.  Without a header the file is read from its beginning again. -/
def loadCsv (file : List UInt8) : Option (List Tick) :=
  match lines file with
  | [] => some []
  | line :: rest =>
    if bytes ['t', 's', '_', 'n', 's'] <:+: line then loadLines rest else loadLines (line :: rest)

/-! ## Saving and loading -/

/-- The fields are of their types. -/
structure Tick.InRange (t : Tick) : Prop where
  tsNs : t.tsNs < 2 ^ 64
  symbol : t.symbol < 2 ^ 32
  price : -2 ^ 63 ≤ t.price ∧ t.price < 2 ^ 63
  qty : -2 ^ 63 ≤ t.qty ∧ t.qty < 2 ^ 63
  extId : t.extId < 2 ^ 64

/-- An event that is none of the three becomes an `Add`, and a side that is neither a buy. -/
def Tick.normalised (t : Tick) : Tick :=
  { t with
    event := if t.event = 0 ∨ t.event = 1 ∨ t.event = 2 then t.event else 0
    side := if t.side = 0 ∨ t.side = 1 then t.side else 0 }

/-- What is printed of a tick. -/
def Tick.values (t : Tick) : List Value :=
  [.int t.tsNs, .int t.symbol, .char t.eventChar, .char t.sideChar, .int t.price, .int t.qty,
    .int t.extId]

theorem csvLine_eq_print (t : Tick) : csvLine t = print csvFormat t.values := by
  have hnat : ∀ n : Nat, renderInt n = render n := fun n ↦ if_neg (by omega)
  simp [csvLine, csvFormat, Tick.values, print, hnat]

theorem fits_values {t : Tick} (h : t.InRange) : Fits csvFormat t.values := by
  have hsigned : ∀ {n : Int}, -2 ^ 63 ≤ n ∧ n < 2 ^ 63 → IntType.Holds ⟨true, 64⟩ n := fun h ↦ h
  have hunsigned : ∀ {bits n : Nat}, n < 2 ^ bits → IntType.Holds ⟨false, bits⟩ n :=
    fun h ↦ ⟨Int.natCast_nonneg _, by simp only [IntType.bound]; exact_mod_cast h⟩
  exact ⟨hunsigned h.tsNs, hunsigned h.symbol, hsigned h.price, hsigned h.qty,
    hunsigned h.extId, rfl⟩

/-- The characters for event and side are letters. -/
theorem lt_eventChar (t : Tick) : 64 < t.eventChar ∧ 64 < t.sideChar := by
  rw [Tick.eventChar, Tick.sideChar]
  split_ifs <;> decide

/-- No line contains a newline, or ends early. -/
theorem not_mem_csvLine {c : UInt8} (hc : c = 10 ∨ c = 0) (t : Tick) : c ∉ csvLine t := by
  have hsmall : ¬64 < c := by rcases hc with rfl | rfl <;> decide
  have hvs : .char c ∉ t.values := by
    intro h
    simp only [Tick.values, List.mem_cons, reduceCtorEq, Value.char.injEq, List.not_mem_nil,
      false_or, or_false] at h
    rcases h with rfl | rfl
    · exact hsmall (lt_eventChar t).1
    · exact hsmall (lt_eventChar t).2
  rw [csvLine_eq_print]
  rcases hc with rfl | rfl <;>
    exact not_mem_print (by decide) (by decide) (by decide) (by decide) hvs

/-- The characters are read as they were written. -/
theorem event_of_eventChar (t : Tick) :
    (if t.eventChar = 'C'.toUInt8 then 1 else if t.eventChar = 'T'.toUInt8 then 2 else 0)
      = t.normalised.event := by
  rw [Tick.eventChar, Tick.normalised]
  by_cases h : t.event = 0 ∨ t.event = 1 ∨ t.event = 2
  · rcases h with h | h | h <;> rw [h] <;> rfl
  · rw [if_neg h, if_neg fun h₁ ↦ h (.inr (.inl h₁)), if_neg fun h₂ ↦ h (.inr (.inr h₂))]
    rfl

theorem side_of_sideChar (t : Tick) :
    (if t.sideChar = 'S'.toUInt8 then 1 else 0) = t.normalised.side := by
  rw [Tick.sideChar, Tick.normalised]
  by_cases h : t.side = 0 ∨ t.side = 1
  · rcases h with h | h <;> rw [h] <;> rfl
  · rw [if_neg h, if_neg fun h₁ ↦ h (.inr h₁)]
    rfl

/-- **A line is read back.** -/
theorem readTick_csvLine {t : Tick} (h : t.InRange) :
    readTick (csvLine t) = some (some t.normalised) := by
  have hcut : (csvLine t).takeWhile (· ≠ 0) = csvLine t :=
    List.takeWhile_eq_self_iff.mpr fun c hc ↦ by
      simpa using fun h : c = 0 ↦ not_mem_csvLine (.inr rfl) t (h ▸ hc)
  have hscan : scan csvFormat (csvLine t) = some t.values := by
    have hprint := scan_print (show separated csvFormat = true by decide) (fits_values h)
      (show Ends [] from fun c hc ↦ by simp at hc)
    rwa [List.append_nil, ← csvLine_eq_print] at hprint
  rw [readTick, hcut, hscan]
  simp only [Option.bind_eq_bind, Option.bind_some, Tick.values, event_of_eventChar,
    side_of_sideChar, Int.toNat_natCast]
  rfl

theorem lines_saveCsv (ts : List Tick) : lines (saveCsv ts) = csvHeader :: ts.map csvLine := by
  have hlines : lines (ts.flatMap fun t ↦ csvLine t ++ [10]) = ts.map csvLine := by
    induction ts with
    | nil => rfl
    | cons t ts ih =>
      rw [List.flatMap_cons, List.append_assoc, List.singleton_append,
        lines_append (not_mem_csvLine (.inl rfl) t), ih, List.map_cons]
  rw [saveCsv, lines_append (by decide), hlines]

/-- **What is saved is loaded again.** -/
theorem loadCsv_saveCsv (ts : List Tick) (h : ∀ t ∈ ts, t.InRange) :
    loadCsv (saveCsv ts) = some (ts.map Tick.normalised) := by
  have hheader : bytes ['t', 's', '_', 'n', 's'] <:+: csvHeader := ⟨[], csvHeader.drop 5, rfl⟩
  rw [loadCsv, lines_saveCsv]
  simp only [if_pos hheader]
  induction ts with
  | nil => rfl
  | cons t ts ih =>
    obtain ⟨ht, hts⟩ := List.forall_mem_cons.mp h
    have hne : csvLine t ≠ [] := by simp [csvLine]
    rw [List.map_cons, loadLines, if_neg hne, readTick_csvLine ht, ih hts]
    rfl

/-- A tick with the extremes of all fields. -/
def extremeTick : Tick :=
  { tsNs := 2 ^ 64 - 1, symbol := 2 ^ 32 - 1, event := 2, side := 1, price := -2 ^ 63
    qty := 2 ^ 63 - 1, extId := 2 ^ 64 - 1 }

/-- A tick whose event and side are none that there are. -/
def strangeTick : Tick := { extremeTick with event := 7, side := 255 }

theorem loadCsv_saveCsv_extremes :
    (∀ t ∈ [extremeTick, strangeTick], t.InRange) ∧
      loadCsv (saveCsv [extremeTick, strangeTick])
        = some [extremeTick, { extremeTick with event := 0, side := 0 }] := by
  have hrange : ∀ t ∈ [extremeTick, strangeTick], t.InRange := by
    intro t ht
    simp only [List.mem_cons, List.not_mem_nil, or_false] at ht
    rcases ht with rfl | rfl <;> exact ⟨by decide, by decide, by decide, by decide, by decide⟩
  exact ⟨hrange, loadCsv_saveCsv [extremeTick, strangeTick] hrange⟩

end Backtest

end MatchingEngine
