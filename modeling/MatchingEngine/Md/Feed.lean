import Mathlib.Tactic.Linarith
import MatchingEngine.Book.TopOfBook
import MatchingEngine.Fix.Orders

/-!
# The market data feed

A transcription of `md/feed.h` and `md/feed.cpp`.  `publish_l1` numbers an update and sends it as a
line of text in one datagram; what is handed to `sendto` counts as sent.

The gateway works with doubles and the line has two decimals, so that a price that started out as a
number of ticks goes through a division, a rounding and a decimal conversion.
`datagram_of_printable` says that it comes out as it went in: up to `2 ^ 52` ticks, and sizes up to
`2 ^ 53`, the line has the digits of the numbers in the book.
-/

set_option autoImplicit false

namespace MatchingEngine

namespace Md

open Decimal MatchingEngine.Fix

structure Feed where
  /-- Is `fd_` a socket? -/
  isOpen : Bool
  seq : Nat

/-- What `open` leaves. -/
def Feed.opened : Feed := { isOpen := true, seq := 0 }

/-- What is printed of a symbol: it is copied to a buffer of 32 bytes, and `%s` ends at a zero. -/
def symbolText (symbol : Bytes) : Bytes := (symbol.take 31).takeWhile fun c ↦ c ≠ 0

/-- The four numbers at the end of a line. -/
def numbers (bidPx bidSz askPx askSz : Bytes) : Bytes :=
  '|'.toUInt8 :: bidPx ++ '|'.toUInt8 :: bidSz ++ '|'.toUInt8 :: askPx ++ '|'.toUInt8 :: askSz ++
    ['\n'.toUInt8]

/-- The format `L1|%llu|%s|%.2f|%.0f|%.2f|%.0f\n`. -/
def line (seq : Nat) (symbol bidPx bidSz askPx askSz : Bytes) : Bytes :=
  ascii ['L', '1', '|'] ++ render seq ++ '|'.toUInt8 :: symbolText symbol ++
    numbers bidPx bidSz askPx askSz

/-- The line of an update. -/
def datagram (snprintf : Int → ℚ → Bytes) (seq : Nat) (l : L1) : Bytes :=
  line seq l.symbol (snprintf 2 l.bidPx) (snprintf 0 l.bidSz) (snprintf 2 l.askPx)
    (snprintf 0 l.askSz)

/-- `publish_l1`, and the datagram that is sent. -/
def Feed.publishL1 (snprintf : Int → ℚ → Bytes) (f : Feed) (l : L1) : Feed × Option Bytes :=
  if f.isOpen then
    let seq := (f.seq + 1) % 2 ^ 64
    ({ f with seq }, some (datagram snprintf seq l))
  else (f, none)

/-- The datagrams of one update after the other. -/
def Feed.datagrams (snprintf : Int → ℚ → Bytes) : Feed → List L1 → List Bytes
  | _, [] => []
  | f, l :: ls =>
    let (f, d) := f.publishL1 snprintf l
    d.toList ++ f.datagrams snprintf ls

/-- The datagrams of an open feed are numbered from one. -/
theorem Feed.datagrams_opened (snprintf : Int → ℚ → Bytes) (ls : List L1) :
    opened.datagrams snprintf ls
      = ls.mapIdx fun i l ↦ datagram snprintf ((i + 1) % 2 ^ 64) l := by
  have key : ∀ n, (⟨true, n⟩ : Feed).datagrams snprintf ls
      = ls.mapIdx fun i l ↦ datagram snprintf ((n + i + 1) % 2 ^ 64) l := by
    induction ls with
    | nil => exact fun n ↦ rfl
    | cons l ls ih =>
      intro n
      rw [List.mapIdx_cons, datagrams]
      simp only [publishL1, if_true, Option.toList_some, List.singleton_append, ih, Nat.add_zero]
      refine congrArg _ (congrArg (List.mapIdx · ls) (funext fun i ↦ funext fun l ↦ ?_))
      congr 1
      omega
  have hzero := key 0
  simp only [Nat.zero_add] at hzero
  exact hzero

theorem Feed.datagrams_concat (snprintf : Int → ℚ → Bytes) (ls : List L1) (l : L1) :
    opened.datagrams snprintf (ls ++ [l])
      = opened.datagrams snprintf ls ++ [datagram snprintf ((ls.length + 1) % 2 ^ 64) l] := by
  rw [datagrams_opened, datagrams_opened, List.mapIdx_concat]

/-! ## What a datagram says -/

/-- An empty side is shown as zeros. -/
def shown (side : Option (Int × Int)) : Int × Int := side.getD (0, 0)

/-- The update for a top: its numbers as doubles, and the prices divided by a hundred. -/
def L1.of (libc : Libc) (symbol : Bytes) (top : BookTop) : L1 :=
  { symbol, bidPx := libc.round (libc.toDouble (shown top.bid).1 / 100)
    bidSz := libc.toDouble (shown top.bid).2
    askPx := libc.round (libc.toDouble (shown top.ask).1 / 100)
    askSz := libc.toDouble (shown top.ask).2 }

/-- A division is rounded to the nearest double, in a range in which doubles have 53 bits. -/
def Rounds (libc : Libc) : Prop :=
  ∀ x : ℚ, 1 / 100 ≤ x → x ≤ 2 ^ 53 → x - x / 2 ^ 53 ≤ libc.round x ∧ libc.round x ≤ x + x / 2 ^ 53

/-- A double is printed as the nearest decimal. -/
def Prints (libc : Libc) : Prop :=
  ∀ (decimals n : Nat) (v : ℚ), 0 ≤ v → n - 1 / 2 < v * 10 ^ decimals →
    v * 10 ^ decimals < n + 1 / 2 → libc.snprintf decimals v = fixed decimals n

theorem textLibc_rounds : Rounds textLibc := by
  intro x hx _
  show x - x / 2 ^ 53 ≤ x ∧ x ≤ x + x / 2 ^ 53
  have : 0 ≤ x / 2 ^ 53 := div_nonneg (by linarith) (by norm_num)
  constructor <;> linarith

theorem textLibc_prints : Prints textLibc := by
  intro decimals n v hv hlow hhigh
  show printFixed decimals v = _
  rw [printFixed, if_neg (not_lt.mpr hv), abs_of_nonneg hv, nearest_eq hlow hhigh]
  rfl

/-- A price and a size that survive the way to the line. -/
def Printable (side : Option (Int × Int)) : Prop :=
  0 ≤ (shown side).1 ∧ (shown side).1 < 2 ^ 52 ∧ 0 ≤ (shown side).2 ∧ (shown side).2 ≤ 2 ^ 53

/-- Can this quantity be shown on a side at a price?  A bid at zero or below is taken for none. -/
def presentable (side : Side) (price qty : Int) : Bool :=
  (match side with
    | .Buy => decide (0 < price)
    | .Sell => decide (0 ≤ price)) && decide (price < 2 ^ 52) && decide (qty ≤ 2 ^ 53)

/-- Every level of the book can be shown. -/
def showable (b : OrderBook) : Bool :=
  [Side.Buy, Side.Sell].all fun side ↦ (b.prices side).all fun p ↦
    (b.totalAt side p).any (presentable side p)

/-- The line with the ticks of a top as prices, and its sizes. -/
def topLine (seq : Nat) (symbol : Bytes) (top : BookTop) : Bytes :=
  line seq symbol (fixed 2 (shown top.bid).1.toNat) (fixed 0 (shown top.bid).2.toNat)
    (fixed 2 (shown top.ask).1.toNat) (fixed 0 (shown top.ask).2.toNat)

/-- The numbers at the end of that line, which do not depend on the symbol. -/
def topNumbers (top : BookTop) : Bytes :=
  numbers (fixed 2 (shown top.bid).1.toNat) (fixed 0 (shown top.bid).2.toNat)
    (fixed 2 (shown top.ask).1.toNat) (fixed 0 (shown top.ask).2.toNat)

theorem topNumbers_suffix_topLine (seq : Nat) (symbol : Bytes) (top : BookTop) :
    topNumbers top <:+ topLine seq symbol top :=
  List.suffix_append _ _

theorem printable_none : Printable none := by
  rw [Printable]
  decide

section Printing

variable {libc : Libc} (hexact : libc.Exact) (hrounds : Rounds libc) (hprints : Prints libc)

include hexact hprints in
theorem snprintf_size {n : Nat} (h : n ≤ 2 ^ 53) :
    libc.snprintf 0 (libc.toDouble n) = fixed 0 n := by
  have hn : libc.toDouble n = n := hexact n (by simpa using h)
  rw [hn]
  refine hprints 0 n n (by positivity) ?_ ?_ <;> simp

include hexact hrounds hprints in
/-- A price in ticks, divided by a hundred and printed with two decimals. -/
theorem snprintf_price {n : Nat} (h : n < 2 ^ 52) :
    libc.snprintf 2 (libc.round (libc.toDouble n / 100)) = fixed 2 n := by
  have hn : libc.toDouble n = n := hexact n (by simp; omega)
  rw [hn]
  rcases Nat.eq_zero_or_pos n with rfl | hpos
  · have hzero : libc.round ((0 : Nat) / 100 : ℚ) = 0 := by simpa using hexact 0 (by simp)
    rw [hzero]
    refine hprints 2 0 0 le_rfl ?_ ?_ <;> norm_num
  · have hle : (1 : ℚ) ≤ n := by exact_mod_cast hpos
    have hlt : (n : ℚ) < 2 ^ 52 := by exact_mod_cast h
    obtain ⟨hlow, hhigh⟩ := hrounds (n / 100) (by linarith) (by linarith)
    -- an error of less than half a tick
    refine hprints 2 n _ ?_ ?_ ?_ <;> linarith

include hexact hrounds hprints in
/-- **The line says what is in the book.** -/
theorem datagram_of_printable {top : BookTop} (hbid : Printable top.bid) (hask : Printable top.ask)
    (seq : Nat) (symbol : Bytes) :
    datagram libc.snprintf seq (L1.of libc symbol top) = topLine seq symbol top := by
  have hprice : ∀ {side}, Printable side → libc.snprintf 2
      (libc.round (libc.toDouble (shown side).1 / 100)) = fixed 2 (shown side).1.toNat := by
    intro side h
    have := snprintf_price hexact hrounds hprints (n := (shown side).1.toNat)
        (by have := h.2.1; omega)
    rwa [Int.toNat_of_nonneg h.1] at this
  have hsize : ∀ {side}, Printable side → libc.snprintf 0
      (libc.toDouble (shown side).2) = fixed 0 (shown side).2.toNat := by
    intro side h
    have := snprintf_size hexact hprints (n := (shown side).2.toNat) (by have := h.2.2.2; omega)
    rwa [Int.toNat_of_nonneg h.2.2.1] at this
  rw [datagram, topLine]
  dsimp only [L1.of]
  rw [hprice hbid, hsize hbid, hprice hask, hsize hask]

end Printing

end Md

end MatchingEngine
