import MatchingEngine.Book.Capacity
import MatchingEngine.Book.Executions
import MatchingEngine.Fix.Orders

/-!
# Amounts on the way in and on the way out

`on_new_order` takes a quantity and a price as doubles, tests that they are positive, and only then
makes integers of them; the numbers in its reports go through `add_double`, which prints into an
array of 64 bytes and trusts the length that `snprintf` returns.

* On the way in, positive is not enough.  A quantity below 1 becomes 0, a price below half a tick
  becomes 0 ticks, and a number of `2 ^ 63` or more does not fit (`placed_converted_iff`).
* On the way out, whatever the engine has been given fits the array.  What has been refused is sent
  back as it came, and it does not have to fit (`fits_iff`).
-/

set_option autoImplicit false

namespace MatchingEngine

namespace Fix

open Decimal Program

/-- The arguments of a call are of their types. -/
def TypedCall : Call → Prop
  | .placeLimit _ price qty => IsInt64 price ∧ IsInt64 qty
  | .cancel _ => True

/-! ## On the way in -/

namespace NewOrder

/-- The integers an order is placed with are those meant: the quantity without its fraction and the
price in the nearest ticks, both positive and both in range. -/
structure Converted (o : NewOrder) (price qty : Int) : Prop where
  qty_eq : qty = o.orderQty.floor
  qty_pos : 1 ≤ qty
  qty_lt : o.orderQty.floor < 2 ^ 63
  price_eq : price = (100 * o.price + 1 / 2).floor
  price_pos : 1 ≤ price
  price_lt : (100 * o.price + 1 / 2).floor < 2 ^ 63

theorem one_le_floor_iff {x : ℚ} : 1 ≤ x.floor ↔ 1 ≤ x := by
  rw [Rat.le_floor_iff, Int.cast_one]

theorem floor_lt_iff {x : ℚ} : x.floor < 2 ^ 63 ↔ x < 2 ^ 63 := by
  rw [Rat.floor_lt_iff]
  norm_num

/-- A number in range is converted to its floor. -/
theorem toInt64_eq_floor {libc : Libc} (htruncates : libc.Truncates) {x : ℚ} (hpos : 1 ≤ x)
    (hlt : x < 2 ^ 63) : libc.toInt64 x = x.floor := by
  rw [htruncates x (by linarith) hlt, tdiv_eq_floor (by linarith)]

theorem converted_iff {libc : Libc} (htruncates : libc.Truncates) (hround : ∀ x, libc.round x = x)
    (o : NewOrder) :
    o.Converted (o.pxTicks libc) (o.qty libc) ↔
      1 ≤ o.orderQty ∧ o.orderQty < 2 ^ 63 ∧ 1 / 200 ≤ o.price ∧
      100 * o.price + 1 / 2 < 2 ^ 63 := by
  have hticks : o.pxTicks libc = libc.toInt64 (100 * o.price + 1 / 2) := by
    rw [pxTicks, hround, hround, mul_comm]
  constructor
  · intro h
    have hqty := h.qty_pos
    have hprice := h.price_pos
    rw [h.qty_eq, one_le_floor_iff] at hqty
    rw [h.price_eq, one_le_floor_iff] at hprice
    exact ⟨hqty, floor_lt_iff.mp h.qty_lt, by linarith, floor_lt_iff.mp h.price_lt⟩
  · rintro ⟨hqty, hqtyLt, hprice, hpriceLt⟩
    have hpx : 1 ≤ 100 * o.price + 1 / 2 := by linarith
    have hq : o.qty libc = o.orderQty.floor := toInt64_eq_floor htruncates hqty hqtyLt
    have hp := hticks.trans (toInt64_eq_floor htruncates hpx hpriceLt)
    exact ⟨hq, by rw [hq, one_le_floor_iff]; exact hqty, floor_lt_iff.mpr hqtyLt, hp,
      by rw [hp, one_le_floor_iff]; exact hpx, floor_lt_iff.mpr hpriceLt⟩

end NewOrder

namespace NewOrder

variable {libc : Libc} {o : NewOrder} {qty : Int} {orderId : Nat} {r : ExecReport}

theorem execType_of_mem_fillReports {cum : Int} {notional : ℚ} {ts : List Trade}
    (h : r ∈ o.fillReports libc qty orderId cum notional ts) : r.execType ≠ .new := by
  induction ts generalizing cum notional with
  | nil => simp [fillReports] at h
  | cons t ts ih =>
    rw [fillReports] at h
    rcases List.mem_cons.mp h with rfl | h
    · dsimp only
      split <;> simp
    · exact ih h

/-- A report of a new order is one of which something is left. -/
theorem left_of_new {ts : List Trade} (h : r ∈ o.reports libc qty orderId ts)
    (hnew : r.execType = .new) :
    r.orderId = orderId ∧ (ts = [] ∨ (ts.map Trade.qty).sum < qty) := by
  rw [reports] at h
  split at h
  · rw [List.mem_singleton.mp h]
    exact ⟨rfl, .inl (List.isEmpty_iff.mp ‹_›)⟩
  · rcases List.mem_append.mp h with h | h
    · exact absurd hnew (execType_of_mem_fillReports h)
    · split at h
      · rw [List.mem_singleton.mp h]
        exact ⟨rfl, .inr (by omega)⟩
      · simp at h

end NewOrder

/-- **What the engine has made of an order** is what the gateway says, and the book can be read: an
order that is acknowledged as new rests, if there was room for it, and if all orders so far were at
a positive price then nothing rests at 0 and `best_bid` says 0 only if there are no bids. -/
structure Taken (calls : List Call) (e e' : Engine) (side : Side) (price : Int)
    (reports : List ExecReport) : Prop where
  rests : ∀ r ∈ reports, r.execType = .new →
    (e.book.full = false ∨ e.book.crosses side price = true) → 0 < e'.book.restingQty r.orderId
  readable : (∀ side p qty, Call.placeLimit side p qty ∈ calls → 1 ≤ p) →
    (∀ side, (0 : Int) ∉ e'.book.prices side) ∧
      (e'.book.bestBid = 0 ↔ e'.book.prices .Buy = [])

/-- **What the test for garbage misses.**  Without rounding, an order that passes it reaches the
engine as it was meant, and is taken, exactly when its quantity is 1 or more, its price half a tick
or more, and both are below what an `int64_t` holds. -/
theorem placed_converted_iff (libc : Libc) (htruncates : libc.Truncates)
    (hround : ∀ x, libc.round x = x) (cfg : GatewayConfig) (N : Nat) (calls : List Call)
    (x : Exchange) (hx : x.engine.Reached N calls) (s : Session) (m : Message)
    (haccepted : ¬(NewOrder.of libc m).Rejected) :
    ∃ side price qty next x' s' messages,
      onNewOrder libc cfg s m = request (.placeLimit side price qty) >>= next ∧
      exec serve (onNewOrder libc cfg s m) x = some (x', s') ∧ x'.sent = x.sent ++ messages ∧
      ((NewOrder.of libc m).Converted price qty ∧
          Taken calls x.engine x'.engine side price (messages.filterMap Outbound.report?) ↔
        1 ≤ (NewOrder.of libc m).orderQty ∧ (NewOrder.of libc m).orderQty < 2 ^ 63 ∧
          1 / 200 ≤ (NewOrder.of libc m).price ∧
          100 * (NewOrder.of libc m).price + 1 / 2 < 2 ^ 63) := by
  obtain ⟨engine, hplace, husable, -⟩ := hx.usable.placeLimit (NewOrder.of libc m).side
    ((NewOrder.of libc m).pxTicks libc) ((NewOrder.of libc m).qty libc)
  obtain ⟨top, htop⟩ := Usable.topOf husable
  obtain ⟨x', s', messages, he, rfl, -, -, hsent, hreports, -⟩ :=
    exec_onNewOrder cfg haccepted (s := s) hplace htop
  have hconverted := NewOrder.converted_iff htruncates hround (NewOrder.of libc m)
  refine ⟨_, _, _, _, x', s', messages, by rw [onNewOrder, if_neg haccepted], he, hsent,
    fun h ↦ hconverted.mp h.1, fun h ↦ ⟨hconverted.mpr h, ?_, fun hpositive ↦ ?_⟩⟩
  · have hqty := (hconverted.mpr h).qty_pos
    intro r hr hnew hroom
    rw [hreports] at hr
    obtain ⟨hid, hleft⟩ := NewOrder.left_of_new hr hnew
    rw [hid]
    refine hx.usable.restingQty_pos hplace (by omega) hroom ?_
    rcases hleft with hnil | hlt
    · rw [hnil, List.map_nil, List.sum_nil]
      omega
    · exact hlt
  · have hpx := (hconverted.mpr h).price_pos
    refine (hx.placeLimit hplace).bestBid_eq_zero_iff fun side p qty hmem ↦ ?_
    rcases List.mem_append.mp hmem with hmem | hmem
    · have := hpositive side p qty hmem
      omega
    · obtain ⟨-, rfl, -⟩ := Call.placeLimit.inj (List.mem_singleton.mp hmem)
      omega

theorem placed_converted_buyFive :
    ¬(NewOrder.of textLibc buyFive).Rejected ∧
      ∃ side price qty next x' s' messages, onNewOrder textLibc ⟨ascii ['E'], true⟩ .new buyFive
          = request (.placeLimit side price qty) >>= next ∧
        exec serve (onNewOrder textLibc ⟨ascii ['E'], true⟩ .new buyFive) (.of (.new 1))
          = some (x', s') ∧ x'.sent = messages ∧
        (NewOrder.of textLibc buyFive).Converted price qty ∧
        Taken [] (.new 1) x'.engine side price (messages.filterMap Outbound.report?) := by
  have haccepted : ¬(NewOrder.of textLibc buyFive).Rejected := by decide +kernel
  obtain ⟨side, price, qty, next, x', s', messages, he, hexec, hsent, hiff⟩ :=
    placed_converted_iff textLibc textLibc_truncates (fun _ ↦ rfl) ⟨ascii ['E'], true⟩ 1 []
      (.of (.new 1)) ⟨[], rfl⟩ .new buyFive haccepted
  obtain ⟨hconverted, htaken⟩ := hiff.mpr (by decide +kernel)
  exact ⟨haccepted, side, price, qty, next, x', s', messages, he, hexec, hsent, hconverted, htaken⟩

/-- An order to buy. -/
def buyOrder (qty price : List Char) : Message :=
  ⟨[⟨Tag.MsgType, ascii ['D']⟩, ⟨Tag.SideTag, ascii ['1']⟩, ⟨Tag.OrderQty, ascii qty⟩,
    ⟨Tag.PriceTag, ascii price⟩]⟩

def halfUnit : Message := buyOrder ['0', '.', '5'] ['7']

def tenthOfTick : Message := buyOrder ['5'] ['0', '.', '0', '0', '1']

def tooManyUnits : Message := buyOrder ['1', 'e', '1', '9'] ['7']

/-- The quantity is a double: its odd part is `5 ^ 22`, and that is below `2 ^ 53`. -/
def tooFewUnits : Message := buyOrder ('-' :: Nat.toDigits 10 (2 ^ 140) ++ ['e', '2', '2']) ['7']

/-- The first order of an engine: what it does is what it does in a small one. -/
theorem exec_first_order (libc : Libc) (cfg : GatewayConfig) (s : Session) {m : Message}
    (haccepted : ¬(NewOrder.of libc m).Rejected) {e : Engine} {id : Nat}
    (hplace : (Engine.new 1).placeLimit (NewOrder.of libc m).side
      ((NewOrder.of libc m).pxTicks libc) ((NewOrder.of libc m).qty libc) = some (e, id)) {N :
        Nat} (hN : 1 ≤ N) :
    ∃ x' s' messages, exec serve (onNewOrder libc cfg s m) (.of (.new N)) = some (x', s') ∧
      x'.sent = messages ∧
      messages.filterMap Outbound.report?
        = (NewOrder.of libc m).reports libc ((NewOrder.of libc m).qty libc) id e.lastTrades ∧
      x'.engine.book.bestBid = e.book.bestBid ∧
      ∀ side, x'.engine.book.quotes side = e.book.quotes side := by
  obtain ⟨e', hplace', hfits⟩ := (Engine.fits_new hN).placeLimit hplace
  have hreached : (Engine.new N).Reached N [] := ⟨[], rfl⟩
  obtain ⟨e₁, he₁, husable, -⟩ := hreached.usable.placeLimit (NewOrder.of libc m).side
    ((NewOrder.of libc m).pxTicks libc) ((NewOrder.of libc m).qty libc)
  obtain ⟨rfl, -⟩ : e₁ = e' ∧ _ = id := by simpa [hplace'] using he₁.symm
  obtain ⟨top, htop⟩ := Usable.topOf husable
  obtain ⟨x', s', messages, he, rfl, -, -, hsent, hreports, -⟩ :=
    exec_onNewOrder cfg haccepted (x := .of (.new N)) (s := s) hplace' htop
  exact ⟨x', s', messages, he, hsent, by rw [hreports, hfits.lastTrades], hfits.bestBid,
    hfits.quotes⟩

/-- **Garbage that is not rejected.**  Half a unit is acknowledged, and the engine ignores it; an
order at a tenth of a tick rests at 0, where `best_bid` says that there are no bids; and a quantity
of `10 ^ 19` does not fit an `int64_t`. -/
theorem garbage_accepted :
    (¬(NewOrder.of textLibc halfUnit).Rejected ∧
      (NewOrder.of textLibc halfUnit).qty textLibc = 0 ∧
      ∃ x' s' messages r,
        exec serve (onNewOrder textLibc ⟨ascii ['E'], true⟩ .new halfUnit)
          (.of (.new Engine.defaultPoolCapacity)) = some (x', s') ∧ x'.sent = messages ∧
        messages.filterMap Outbound.report? = [r] ∧ r.execType = .new ∧ r.ordStatus = .new ∧
        ∀ side, x'.engine.book.quotes side = some []) ∧
    (¬(NewOrder.of textLibc tenthOfTick).Rejected ∧
      (NewOrder.of textLibc tenthOfTick).pxTicks textLibc = 0 ∧
      ∃ x' s',
        exec serve (onNewOrder textLibc ⟨ascii ['E'], true⟩ .new tenthOfTick)
          (.of (.new Engine.defaultPoolCapacity)) = some (x', s') ∧
        x'.engine.book.quotes .Buy = some [⟨0, 1, 5⟩] ∧ x'.engine.book.bestBid = 0) ∧
    ¬(NewOrder.of textLibc tooManyUnits).Rejected ∧
      2 ^ 63 ≤ (NewOrder.of textLibc tooManyUnits).orderQty := by
  have hN : 1 ≤ Engine.defaultPoolCapacity := by decide
  refine ⟨⟨by decide +kernel, by decide +kernel, ?_⟩, ⟨by decide +kernel, by decide +kernel, ?_⟩,
    by decide +kernel, by decide +kernel⟩
  · have hsmall : ((Engine.new 1).placeLimit (NewOrder.of textLibc halfUnit).side
        ((NewOrder.of textLibc halfUnit).pxTicks textLibc)
        ((NewOrder.of textLibc halfUnit).qty textLibc)).map
          (fun r ↦ (r.1.lastTrades, r.1.book.quotes .Buy, r.1.book.quotes .Sell))
        = some ([], some [], some []) := by decide +kernel
    obtain ⟨⟨e, id⟩, hplace, he⟩ := Option.map_eq_some_iff.mp hsmall
    simp only [Prod.mk.injEq] at he
    obtain ⟨x', s', messages, hexec, hsent, hreports, -, hquotes⟩ :=
      exec_first_order textLibc ⟨ascii ['E'], true⟩ .new (by decide +kernel) hplace hN
    rw [he.1] at hreports
    refine ⟨x', s', messages, _, hexec, hsent, hreports, rfl, rfl, fun side ↦ ?_⟩
    rw [hquotes]
    cases side
    · exact he.2.1
    · exact he.2.2
  · have hsmall : ((Engine.new 1).placeLimit
        (NewOrder.of textLibc tenthOfTick).side
        ((NewOrder.of textLibc tenthOfTick).pxTicks textLibc)
        ((NewOrder.of textLibc tenthOfTick).qty textLibc)).map
          (fun r ↦ (r.1.book.bestBid, r.1.book.quotes .Buy))
        = some (0, some [⟨0, 1, 5⟩]) := by decide +kernel
    obtain ⟨⟨e, id⟩, hplace, he⟩ := Option.map_eq_some_iff.mp hsmall
    simp only [Prod.mk.injEq] at he
    obtain ⟨x', s', messages, hexec, -, -, hbest, hquotes⟩ :=
      exec_first_order textLibc ⟨ascii ['E'], true⟩ .new (by decide +kernel) hplace hN
    exact ⟨x', s', hexec, by rw [hquotes, he.2], by rw [hbest, he.1]⟩

/-! ## On the way out -/

/-- Every number of a message is printed in 63 characters at most, which leaves one of the 64 for
the terminating zero. -/
def Outbound.Fits (o : Outbound) : Prop :=
  ∀ tag v decimals, AddCall.double tag v decimals ∈ o.body.calls →
    (printFixed decimals.toNat v).length ≤ 63

/-- The numbers of a report, with the decimals they are printed with. -/
def ExecReport.numbers (r : ExecReport) : List (Nat × ℚ) :=
  [(0, r.orderQty), (0, r.cumQty), (0, r.leavesQty), (0, r.lastQty), (2, r.lastPx), (4, r.avgPx)]

theorem fits_iff_numbers {o : Outbound} {r : ExecReport} (h : o.report? = some r) :
    o.Fits ↔ ∀ n ∈ r.numbers, (printFixed n.1 n.2).length ≤ 63 := by
  obtain ⟨id, hbody⟩ : ∃ id, o.body = .execReport id r := by
    rw [Outbound.report?] at h
    split at h
    · rename_i id r' hbody
      exact ⟨id, by rw [hbody, Option.some.inj h]⟩
    · simp at h
  rw [Outbound.Fits, hbody]
  constructor
  · intro hfits n hn
    simp only [ExecReport.numbers, List.mem_cons, List.not_mem_nil, or_false] at hn
    rcases hn with rfl | rfl | rfl | rfl | rfl | rfl
    · exact hfits Tag.OrderQty _ 0 (by simp [Body.calls])
    · exact hfits Tag.CumQty _ 0 (by simp [Body.calls])
    · exact hfits Tag.LeavesQty _ 0 (by simp [Body.calls])
    · exact hfits Tag.LastQty _ 0 (by simp [Body.calls])
    · exact hfits Tag.LastPx _ 2 (by simp [Body.calls])
    · exact hfits Tag.AvgPx _ 4 (by simp [Body.calls])
  · intro hnumbers tag v decimals hmem
    simp only [Body.calls, List.mem_cons, List.not_mem_nil, or_false, reduceCtorEq, false_or,
      AddCall.double.injEq] at hmem
    simp only [ExecReport.numbers, List.forall_mem_cons, List.not_mem_nil, false_implies,
      implies_true, and_true] at hnumbers
    obtain ⟨h₁, h₂, h₃, h₄, h₅, h₆⟩ := hnumbers
    rcases hmem with ⟨-, rfl, rfl⟩ | ⟨-, rfl, rfl⟩ | ⟨-, rfl, rfl⟩ | ⟨-, rfl, rfl⟩ | ⟨-, rfl, rfl⟩ |
      ⟨-, rfl, rfl⟩
    · exact h₁
    · exact h₂
    · exact h₃
    · exact h₄
    · exact h₅
    · exact h₆

/-! ### Numbers that went through the engine -/

section Bounds

variable {libc : Libc} (h : libc.Doubles)
include h

/-- What is no larger than a double is not after rounding. -/
theorem Libc.Doubles.abs_round_le {x : ℚ} {n k : Nat} (hn : n ≤ 2 ^ 53) (hk : k ≤ 900)
    (hx : |x| ≤ n * 2 ^ k) : |libc.round x| ≤ n * 2 ^ k := by
  obtain ⟨hlow, hhigh⟩ := abs_le.mp hx
  have hup := h.mono _ _ hhigh
  have hdown := h.mono _ _ hlow
  have he := h.exact n k (by simpa using hn) hk
  have he' := h.exact (-n) k (by simpa using hn) hk
  push_cast at he he'
  rw [he] at hup
  rw [← neg_mul, he', neg_mul] at hdown
  exact abs_le.mpr ⟨hdown, hup⟩

theorem Libc.Doubles.abs_toDouble_le {n : Int} (hn : |n| ≤ 2 ^ 63) :
    |libc.toDouble n| ≤ 2 ^ 63 := by
  have hle := h.abs_round_le (x := n) (n := 1) (k := 63) (by norm_num) (by norm_num)
    (by rw [← Int.cast_abs, Nat.cast_one, one_mul]; exact_mod_cast hn)
  simpa [Libc.toDouble] using hle

theorem Libc.Doubles.one_le_toDouble {n : Int} (hn : 1 ≤ n) : 1 ≤ libc.toDouble n := by
  have hle := h.mono 1 n (by exact_mod_cast hn)
  have he := h.exact 1 0 (by norm_num) (by norm_num)
  norm_num at he
  rwa [he] at hle

/-- A price that is sent. -/
theorem Libc.Doubles.abs_price_le {p : Int} (hp : |p| ≤ 2 ^ 63) :
    |libc.round (libc.toDouble p / 100)| ≤ 2 ^ 63 := by
  have hle : |libc.toDouble p / 100| ≤ ((1 : Nat) : ℚ) * 2 ^ 63 := by
    have := h.abs_toDouble_le hp
    rw [abs_div, abs_of_pos (by norm_num : (0 : ℚ) < 100), div_le_iff₀ (by norm_num)]
    push_cast
    linarith
  simpa using h.abs_round_le (by norm_num) (by norm_num) hle

/-- What one trade adds to the notional. -/
theorem Libc.Doubles.abs_product_le {x y : ℚ} (hx : |x| ≤ 2 ^ 63) (hy : |y| ≤ 2 ^ 63) :
    |libc.round (x * y)| ≤ 2 ^ 126 := by
  have hle : |x * y| ≤ ((1 : Nat) : ℚ) * 2 ^ 126 := by
    rw [abs_mul, Nat.cast_one, one_mul, show (2 : ℚ) ^ 126 = 2 ^ 63 * 2 ^ 63 by norm_num]
    exact mul_le_mul hx hy (abs_nonneg _) (by positivity)
  simpa using h.abs_round_le (by norm_num) (by norm_num) hle

end Bounds

/-- A report whose numbers are far from filling the array. -/
def ExecReport.Within (r : ExecReport) : Prop := ∀ n ∈ r.numbers, |n.2| ≤ 2 ^ 179

theorem ExecReport.Within.fits {r : ExecReport} (h : r.Within) :
    ∀ n ∈ r.numbers, (printFixed n.1 n.2).length ≤ 63 := by
  intro n hn
  have hle : |n.2| ≤ 10 ^ 54 := (h n hn).trans (by norm_num)
  have hlen : (printFixed n.1 n.2).length ≤ 54 + 3 + n.1 := length_printFixed_le hle
  have hd : n.1 ≤ 4 := by
    simp only [numbers, List.mem_cons, List.not_mem_nil, or_false] at hn
    rcases hn with rfl | rfl | rfl | rfl | rfl | rfl <;> simp
  omega

/-- The numbers in a rejection: only the quantity is not zero. -/
theorem fits_rejection_iff (o : NewOrder) :
    (∀ n ∈ o.rejection.numbers, (printFixed n.1 n.2).length ≤ 63) ↔
      -(10 ^ 62 - 1 / 2) < o.orderQty ∧ o.orderQty < 10 ^ 63 - 1 / 2 := by
  have hzero : (printFixed 0 0).length ≤ 63 ∧ (printFixed 2 0).length ≤ 63 ∧
      (printFixed 4 0).length ≤ 63 := by decide +kernel
  have hlen : (printFixed 0 o.orderQty).length ≤ 63 ↔
      -(10 ^ 62 - 1 / 2) < o.orderQty ∧ o.orderQty < 10 ^ 63 - 1 / 2 :=
    length_printFixed_zero_le_iff (k := 62) (by decide) o.orderQty
  rw [← hlen]
  simp only [ExecReport.numbers, NewOrder.rejection, List.forall_mem_cons, hzero, List.not_mem_nil,
    false_implies, implies_true, and_true]

theorem within_of_le {r : ExecReport} (hqty : |r.orderQty| ≤ 2 ^ 63) (hcum : |r.cumQty| ≤ 2 ^ 63)
    (hleaves : |r.leavesQty| ≤ 2 ^ 63) (hlast : |r.lastQty| ≤ 2 ^ 63) (hpx : |r.lastPx| ≤ 2 ^ 63)
    (havg : |r.avgPx| ≤ 2 ^ 179) : r.Within := by
  have hsmall : (2 : ℚ) ^ 63 ≤ 2 ^ 179 := by norm_num
  intro n hn
  simp only [ExecReport.numbers, List.mem_cons, List.not_mem_nil, or_false] at hn
  rcases hn with rfl | rfl | rfl | rfl | rfl | rfl
  · exact hqty.trans hsmall
  · exact hcum.trans hsmall
  · exact hleaves.trans hsmall
  · exact hlast.trans hsmall
  · exact hpx.trans hsmall
  · exact havg

section Loop

variable {libc : Libc} (h : libc.Doubles) (o : NewOrder) {qty : Int} (orderId : Nat)
include h

/-- **The loop over the trades.**  `i` counts the products in the sum, each of which is below `2 ^
126`; the sum stays exact enough as long as the count is a double. -/
theorem within_fillReports (hqty : qty ≤ 2 ^ 63) {ts : List Trade} (hpos : ∀ t ∈ ts, 1 ≤ t.qty)
    (hprice : ∀ t ∈ ts, |t.price| ≤ 2 ^ 63) {cum : Int} (hcum : 0 ≤ cum)
    (hsum : cum + (ts.map Trade.qty).sum ≤ qty) {notional : ℚ} {i : Nat}
    (hi : i + ts.length ≤ 2 ^ 53) (hnotional : |notional| ≤ i * 2 ^ 126) :
    ∀ r ∈ o.fillReports libc qty orderId cum notional ts, r.Within := by
  induction ts generalizing cum notional i with
  | nil => simp [NewOrder.fillReports]
  | cons t ts ih =>
    obtain ⟨ht, hts⟩ := List.forall_mem_cons.mp hpos
    obtain ⟨htp, htps⟩ := List.forall_mem_cons.mp hprice
    rw [List.map_cons, List.sum_cons] at hsum
    rw [List.length_cons] at hi
    have hrest := sum_qty_nonneg hts
    have hpx := h.abs_price_le htp
    have hq : |libc.toDouble t.qty| ≤ 2 ^ 63 := h.abs_toDouble_le (by rw [abs_of_nonneg] <;> omega)
    have hproduct := h.abs_product_le hpx hq
    have htotal : |libc.round (notional
        + libc.round (libc.round (libc.toDouble t.price / 100) * libc.toDouble t.qty))|
          ≤ ((i + 1 : Nat) : ℚ) * 2 ^ 126 := by
      refine h.abs_round_le (by omega) (by norm_num) ((abs_add_le _ _).trans ?_)
      push_cast
      linarith
    rw [NewOrder.fillReports]
    refine List.forall_mem_cons.mpr ⟨?_, ih hts htps (by omega) (by omega) (by omega) htotal⟩
    refine within_of_le (h.abs_toDouble_le (abs_le.mpr ⟨by omega, by omega⟩))
      (h.abs_toDouble_le (abs_le.mpr ⟨by omega, by omega⟩))
      (h.abs_toDouble_le (abs_le.mpr ⟨by omega, by omega⟩)) hq hpx ?_
    -- the average is no more than the sum, which is less than `2 ^ 53` products
    have hone := h.one_le_toDouble (n := cum + t.qty) (by omega)
    refine (h.abs_round_le (n := i + 1) (k := 126) (by omega) (by norm_num) ?_).trans ?_
    · rw [abs_div, abs_of_pos (by linarith : 0 < libc.toDouble (cum + t.qty))]
      exact (div_le_self (abs_nonneg _) hone).trans htotal
    · have hcount : ((i + 1 : Nat) : ℚ) ≤ 2 ^ 53 := by exact_mod_cast (by omega : i + 1 ≤ 2 ^ 53)
      rw [show (2 : ℚ) ^ 179 = 2 ^ 53 * 2 ^ 126 by norm_num]
      exact mul_le_mul_of_nonneg_right hcount (by positivity)

/-- The numbers in the reports on an order that the engine has taken. -/
theorem within_reports (hqty : IsInt64 qty) {N : Nat} (hN : N ≤ 2 ^ 53) {prices : List Int}
    (hprices : ∀ p ∈ prices, IsInt64 p) {ts : List Trade} (htraded : Traded N prices qty ts) :
    ∀ r ∈ o.reports libc qty orderId ts, r.Within := by
  have habs : ∀ {n : Int}, IsInt64 n → |n| ≤ 2 ^ 63 := fun hn ↦ abs_le.mpr ⟨hn.1, hn.2.le⟩
  have hsumNonneg := sum_qty_nonneg htraded.pos
  have hleaves : |qty - (ts.map Trade.qty).sum| ≤ 2 ^ 63 := by
    rcases Int.lt_or_le qty 0 with hneg | hnonneg
    · rw [htraded.eq_nil hneg.le, List.map_nil, List.sum_nil, Int.sub_zero]
      exact habs hqty
    · have := htraded.sum_le hnonneg
      have := hqty.2
      exact abs_le.mpr ⟨by omega, by omega⟩
  have hzero : |(0 : ℚ)| ≤ 2 ^ 63 := by norm_num
  have hzero' : |(0 : ℚ)| ≤ 2 ^ 179 := by norm_num
  rw [NewOrder.reports]
  split
  · intro r hr
    rw [List.mem_singleton.mp hr]
    exact within_of_le (h.abs_toDouble_le (habs hqty)) hzero (h.abs_toDouble_le hleaves) hzero hzero
      hzero'
  · rename_i hne
    have hpos : 0 < qty := by
      by_contra hle
      exact hne (by rw [htraded.eq_nil (by omega)]; rfl)
    have hle := htraded.sum_le hpos.le
    have hmax := hqty.2
    intro r hr
    rcases List.mem_append.mp hr with hr | hr
    · refine within_fillReports h o orderId (by omega) htraded.pos
        (fun t ht ↦ habs (hprices _ (htraded.price_mem t ht))) (le_refl 0) (by omega) (i := 0)
        (by have := htraded.length_le; omega) (by simp) r hr
    · split at hr
      · rw [List.mem_singleton.mp hr]
        exact within_of_le (h.abs_toDouble_le (habs hqty))
          (h.abs_toDouble_le (abs_le.mpr ⟨by omega, by omega⟩))
          (h.abs_toDouble_le hleaves) hzero hzero hzero'
      · simp at hr

end Loop

theorem typed_of_mem_pricesOn {N : Nat} {calls : List Call} (hcalls : ∀ c ∈ calls, TypedCall c)
    {side : Side} : ∀ p ∈ ((QueueBook.new N).run calls).1.pricesOn side, IsInt64 p := by
  intro p hp
  rcases QueueBook.exists_mem_of_mem_pricesOn_run hp with hnew | ⟨qty, hmem⟩
  · cases side <;> exact absurd hnew (List.not_mem_nil)
  · exact (hcalls _ hmem).1

/-- **When every number fits.**  An order that is taken is reported in numbers that `add_double` can
print; one that is rejected is reported with its quantity as it came, and then it depends on that
quantity alone. -/
theorem fits_iff (libc : Libc) (hdoubles : libc.Doubles) (htyped : libc.Typed) (cfg : GatewayConfig)
    (N : Nat) (hN : N ≤ 2 ^ 53) (calls : List Call) (hcalls : ∀ c ∈ calls, TypedCall c)
    (x : Exchange) (hx : x.engine.Reached N calls) (s : Session) (m : Message) :
    ∃ x' s' messages, exec serve (onNewOrder libc cfg s m) x = some (x', s') ∧
      x'.sent = x.sent ++ messages ∧
      ((∀ o ∈ messages, o.Fits) ↔ ¬(NewOrder.of libc m).Rejected ∨
        (-(10 ^ 62 - 1 / 2) < (NewOrder.of libc m).orderQty ∧
          (NewOrder.of libc m).orderQty < 10 ^ 63 - 1 / 2)) := by
  by_cases hrejected : (NewOrder.of libc m).Rejected
  · rw [onNewOrder, if_pos hrejected, exec_sendExecReport]
    refine ⟨_, _, [⟨cfg.compId, s.senderComp, s.outSeq,
      .execReport x.nextExecId (NewOrder.of libc m).rejection⟩], rfl, rfl, ?_⟩
    rw [List.forall_mem_singleton, fits_iff_numbers rfl, fits_rejection_iff]
    simp only [hrejected, not_true_eq_false, false_or]
  · obtain ⟨engine, hplace, husable, htraded⟩ := hx.usable.placeLimit (NewOrder.of libc m).side
      ((NewOrder.of libc m).pxTicks libc) ((NewOrder.of libc m).qty libc)
    obtain ⟨top, htop⟩ := Usable.topOf husable
    obtain ⟨x', s', messages, he, rfl, -, -, hsent, hreports, hall⟩ :=
      exec_onNewOrder cfg hrejected (s := s) hplace htop
    refine ⟨x', s', messages, he, hsent, iff_of_true (fun o ho ↦ ?_) (.inl hrejected)⟩
    obtain ⟨r, hr⟩ := hall o ho
    have hmem : r ∈ messages.filterMap Outbound.report? := List.mem_filterMap.mpr ⟨o, ho, hr⟩
    rw [hreports] at hmem
    exact (fits_iff_numbers hr).mpr (within_reports hdoubles _ _ (htyped _) hN
      (typed_of_mem_pricesOn hcalls) htraded r hmem).fits

theorem fits_buyFive :
    ∃ x' s' messages, exec serve (onNewOrder textLibc ⟨ascii ['E'], true⟩ .new buyFive)
        (.of (.new 1)) = some (x', s') ∧ x'.sent = messages ∧ ∀ o ∈ messages, o.Fits := by
  obtain ⟨x', s', messages, he, hsent, hiff⟩ := fits_iff textLibc textLibc_doubles textLibc_typed
    ⟨ascii ['E'], true⟩ 1 (by decide) [] (by simp) (.of (.new 1)) ⟨[], rfl⟩ .new buyFive
  exact ⟨x', s', messages, he, hsent, hiff.mpr (.inl (by decide +kernel))⟩

/-- **A number that does not fit.**  The order is rejected, and its quantity is sent back: a sign
and 65 digits. -/
theorem rejection_overflows :
    ∃ x' s' o, exec serve (onNewOrder textLibc ⟨ascii ['E'], true⟩ .new tooFewUnits)
        (.of (.new Engine.defaultPoolCapacity)) = some (x', s') ∧ x'.sent = [o] ∧
      AddCall.double Tag.OrderQty (-(2 ^ 140 * 10 ^ 22)) 0 ∈ o.body.calls ∧
      63 < (printFixed 0 (-(2 ^ 140 * 10 ^ 22))).length := by
  have hrejected : (NewOrder.of textLibc tooFewUnits).Rejected := by decide +kernel
  have hqty : (NewOrder.of textLibc tooFewUnits).orderQty
      = -(2 ^ 140 * 10 ^ 22) := by decide +kernel
  rw [onNewOrder, if_pos hrejected, exec_sendExecReport]
  refine ⟨_, _, _, rfl, rfl, ?_, by decide +kernel⟩
  simp only [Body.calls, NewOrder.rejection, hqty]
  simp

end Fix

end MatchingEngine
