import Mathlib.Tactic.Ring
import MatchingEngine.Book.Capacity
import MatchingEngine.Fix.Reports

/-!
# The average price

Every report has an `AvgPx`.  The loop over the trades keeps what has been paid so far, and divides
it by what has been bought; the report on a remainder, which comes after the loop, has a zero there
instead.  So the average is right in every report unless a remainder is left of an order that has
paid something (`averaged_iff`).

Doubles are taken to be exact here.
-/

set_option autoImplicit false

namespace MatchingEngine

namespace Fix

open Program

/-- What the reports on trades say has been paid. -/
def paid (rs : List ExecReport) : ℚ :=
  ((rs.filter fun r ↦ r.line.isFill).map fun r ↦ r.lastQty * r.lastPx).sum

/-- Every report that says that something has been filled has the average of the prices up to
there. -/
def Averaged (rs : List ExecReport) : Prop :=
  ∀ pre r post, rs = pre ++ r :: post → 0 < r.cumQty → r.avgPx = paid (pre ++ [r]) / r.cumQty

theorem paid_append (rs rs' : List ExecReport) : paid (rs ++ rs') = paid rs + paid rs' := by
  rw [paid, List.filter_append, List.map_append, List.sum_append]
  rfl

theorem paid_cons_of_fill {r : ExecReport} (h : r.execType = .partialFill ∨ r.execType = .fill)
    (rs : List ExecReport) : paid (r :: rs) = r.lastQty * r.lastPx + paid rs := by
  have hfill : r.line.isFill = true := by
    rcases h with h | h <;> simp [ExecReport.line, Line.isFill, h]
  rw [paid, List.filter_cons, if_pos hfill, List.map_cons, List.sum_cons]
  rfl

/-- A report without an average, at the end. -/
theorem averaged_append_iff {rs : List ExecReport} {new : ExecReport}
    (hrs : ∀ pre r post, rs = pre ++ r :: post → r.avgPx = paid (pre ++ [r]) / r.cumQty)
    (hnew : new.line.isFill = false) (havg : new.avgPx = 0) (hcum : 0 < new.cumQty) :
    Averaged (rs ++ [new]) ↔ paid rs = 0 := by
  have hpaid : paid (rs ++ [new]) = paid rs := by
    rw [paid_append, paid, paid, List.filter_cons, if_neg (by simp [hnew])]
    simp
  constructor
  · intro h
    have hlast := h rs new [] rfl hcum
    rw [havg, hpaid, eq_comm, div_eq_zero_iff] at hlast
    exact hlast.resolve_right hcum.ne'
  · intro hzero pre r post h _
    rcases append_singleton_eq_split h with ⟨rfl, rfl, -⟩ | ⟨post', -, he⟩
    · rw [havg, hpaid, hzero, zero_div]
    · exact hrs pre r post' he

section Loop

variable {libc : Libc} (hround : ∀ x, libc.round x = x) (o : NewOrder) (qty : Int) (orderId : Nat)

theorem execType_ite (final : Bool) :
    (if final then ExecType.fill else .partialFill) = .partialFill ∨
      (if final then ExecType.fill else .partialFill) = .fill := by
  cases final
  · exact .inl rfl
  · exact .inr rfl

include hround

/-- What has been paid in the loop. -/
theorem paid_fillReports (cum : Int) (notional : ℚ) (ts : List Trade) :
    paid (o.fillReports libc qty orderId cum notional ts)
      = ((ts.map fun t ↦ t.price * t.qty).sum : Int) / 100 := by
  induction ts generalizing cum notional with
  | nil => simp [NewOrder.fillReports, paid]
  | cons t ts ih =>
    rw [NewOrder.fillReports, paid_cons_of_fill (execType_ite _), ih, List.map_cons, List.sum_cons]
    simp only [Libc.toDouble, hround]
    push_cast
    ring

/-- **The loop keeps what has been paid.** -/
theorem avgPx_fillReports {cum : Int} {notional : ℚ} {ts : List Trade} {pre post : List ExecReport}
    {r : ExecReport}
    (h : o.fillReports libc qty orderId cum notional ts = pre ++ r :: post) :
    r.avgPx = (notional + paid (pre ++ [r])) / r.cumQty := by
  induction ts generalizing cum notional pre with
  | nil => simp [NewOrder.fillReports] at h
  | cons t ts ih =>
    rw [NewOrder.fillReports] at h
    cases pre with
    | nil =>
      obtain ⟨rfl, -⟩ := List.cons.inj h
      rw [List.nil_append, paid_cons_of_fill (execType_ite _)]
      simp only [Libc.toDouble, hround, paid, List.filter_nil, List.map_nil, List.sum_nil, add_zero]
      rw [mul_comm]
    | cons r' pre =>
      obtain ⟨rfl, hrest⟩ := List.cons.inj h
      rw [ih hrest, List.cons_append, paid_cons_of_fill (execType_ite _)]
      simp only [Libc.toDouble, hround]
      ring

/-- **When the average is right in all the reports**: not if a remainder is reported after something
has been paid. -/
theorem averaged_reports_iff {ts : List Trade} (hpos : ∀ t ∈ ts, 1 ≤ t.qty) :
    Averaged (o.reports libc qty orderId ts) ↔
      qty ≤ (ts.map Trade.qty).sum ∨ (ts.map fun t ↦ t.price * t.qty).sum = 0 := by
  have hloop : ∀ {pre post : List ExecReport} {r : ExecReport},
      o.fillReports libc qty orderId 0 0 ts = pre ++ r :: post →
        r.avgPx = paid (pre ++ [r]) / r.cumQty := by
    intro pre post r h
    rw [avgPx_fillReports hround o qty orderId h, zero_add]
  have hpaid := paid_fillReports hround o qty orderId 0 0 ts
  rw [NewOrder.reports]
  by_cases hnil : ts = []
  · subst hnil
    refine iff_of_true (fun pre r post h hcum ↦ ?_) (.inr rfl)
    have hr := List.mem_singleton.mp (h ▸ List.mem_append_right pre List.mem_cons_self)
    rw [hr] at hcum
    exact absurd hcum (lt_irrefl 0)
  rw [if_neg (by simpa using hnil)]
  by_cases hleaves : 0 < qty - (ts.map Trade.qty).sum
  · rw [if_pos hleaves, or_iff_right (by omega)]
    have hsum : 0 < (ts.map Trade.qty).sum := by
      obtain ⟨t, ts', rfl⟩ := List.exists_cons_of_ne_nil hnil
      have hrest := sum_qty_nonneg (List.forall_mem_cons.mp hpos).2
      have ht := hpos t List.mem_cons_self
      rw [List.map_cons, List.sum_cons]
      omega
    have hcum : 0 < libc.toDouble (ts.map Trade.qty).sum := by
      rw [Libc.toDouble, hround]
      exact_mod_cast hsum
    rw [averaged_append_iff (fun _ _ _ h ↦ hloop h) rfl rfl hcum, hpaid, div_eq_zero_iff,
      or_iff_left (by norm_num), Int.cast_eq_zero]
  · rw [if_neg hleaves, List.append_nil]
    exact iff_of_true (fun pre r post h _ ↦ hloop h) (.inl (by omega))

end Loop

/-- **The average price is right in every report if and only if** the orders that cross are enough
for the order, or nothing is paid for them. -/
theorem averaged_iff (libc : Libc) (hround : ∀ x, libc.round x = x) (cfg : GatewayConfig) (N : Nat)
    (calls : List Call) (x : Exchange) (hx : x.engine.Reached N calls) (s : Session) (m : Message)
    (haccepted : ¬(NewOrder.of libc m).Rejected) :
    ∃ x' s' messages makers, exec serve (onNewOrder libc cfg s m) x = some (x', s') ∧
      x'.sent = x.sent ++ messages ∧
      x.engine.book.crossing (NewOrder.of libc m).side ((NewOrder.of libc m).pxTicks libc)
        = some makers ∧
      (Averaged (messages.filterMap Outbound.report?) ↔
        (NewOrder.of libc m).qty libc ≤ (makers.map Quote.qty).sum ∨
          (makers.map fun q ↦ q.price * q.qty).sum = 0) := by
  have husable := hx.usable
  generalize ((QueueBook.new N).run calls).1 = mq at husable
  obtain ⟨engine, hplace, husable', htrades⟩ := husable.placeLimit_eq (NewOrder.of libc m).side
    ((NewOrder.of libc m).pxTicks libc) ((NewOrder.of libc m).qty libc)
  obtain ⟨top, htop⟩ := Usable.topOf husable'
  obtain ⟨x', s', messages, he, rfl, -, -, hsent, hreports, -⟩ :=
    exec_onNewOrder cfg haccepted hplace htop
  refine ⟨x', s', messages, _, he, hsent, husable.represents.crossing husable.valid _ _, ?_⟩
  have hpos := (husable.valid.traded (NewOrder.of libc m).side ((NewOrder.of libc m).pxTicks libc)
    ((NewOrder.of libc m).qty libc)).pos
  rw [hreports, htrades, averaged_reports_iff hround _ _ _ hpos]
  obtain ⟨hfilled, hall⟩ := husable.valid.trades_cases (NewOrder.of libc m).side
    ((NewOrder.of libc m).pxTicks libc) ((NewOrder.of libc m).qty libc)
  rw [List.map_map, List.map_map]
  rcases le_or_gt ((NewOrder.of libc m).qty libc) (((mq.makersFor (NewOrder.of libc m).side
    ((NewOrder.of libc m).pxTicks libc)).map fun x ↦ x.2.qty).sum) with hle | hlt
  · exact iff_of_true (.inl (hfilled hle)) (.inl hle)
  · rw [hall hlt, List.map_map, List.map_map]
    rfl

/-- Ten rest at the limit, and the order is filled. -/
theorem averaged_filled :
    ∃ engine : Engine, engine.Reached 2 [.placeLimit .Sell 700 10] ∧
      ¬(NewOrder.of textLibc buyFive).Rejected ∧
      ∃ x' s' messages,
        exec serve (onNewOrder textLibc ⟨ascii ['E'], true⟩ .new buyFive) (.of engine)
          = some (x', s') ∧
        x'.sent = messages ∧ Averaged (messages.filterMap Outbound.report?) := by
  obtain ⟨engine, id, hplace, hmakers⟩ : ∃ engine id,
      (Engine.new 2).placeLimit .Sell 700 10 = some (engine, id) ∧
        engine.book.crossing .Buy 700 = some [⟨700, 1, 10⟩] :=
    ⟨_, _, rfl, by decide +kernel⟩
  have hnew : (Engine.new 2).Reached 2 [] := ⟨[], rfl⟩
  have hreached := hnew.placeLimit hplace
  have haccepted : ¬(NewOrder.of textLibc buyFive).Rejected := by decide +kernel
  have hside : (NewOrder.of textLibc buyFive).side = .Buy := by decide +kernel
  have hpx : (NewOrder.of textLibc buyFive).pxTicks textLibc = 700 := by decide +kernel
  obtain ⟨x', s', messages, makers, he, hsent, hcrossing, hiff⟩ := averaged_iff textLibc
    (fun _ ↦ rfl) ⟨ascii ['E'], true⟩ 2 _ (.of engine) hreached .new buyFive haccepted
  rw [hside, hpx] at hcrossing
  obtain rfl : makers = [⟨700, 1, 10⟩] := Option.some.inj (hcrossing.symm.trans hmakers)
  exact ⟨engine, hreached, haccepted, x', s', messages, he, hsent,
    hiff.mpr (.inl (by decide +kernel))⟩

/-- **The average is lost when a remainder rests.**  One rests at 7.00, and the order is for five:
the report on the four that are left says that one has been filled, for nothing. -/
theorem exists_not_averaged :
    ∃ (engine : Engine) (x' : Exchange) (s' : Session) (messages : List Outbound),
      engine.Reached Engine.defaultPoolCapacity [.placeLimit .Sell 700 1] ∧
      ¬(NewOrder.of textLibc buyFive).Rejected ∧
      exec serve (onNewOrder textLibc ⟨ascii ['E'], true⟩ .new buyFive) (.of engine)
        = some (x', s') ∧
      x'.sent = messages ∧
      (messages.filterMap Outbound.report?).map
          (fun r ↦ (r.execType, r.lastQty, r.lastPx, r.cumQty, r.avgPx))
        = [(.partialFill, 1, 7, 1, 7), (.new, 0, 0, 1, 0)] ∧
      ¬Averaged (messages.filterMap Outbound.report?) := by
  obtain ⟨e₁, e₂, he₁, he₂, htrades⟩ : ∃ e₁ e₂,
      (Engine.new 2).placeLimit .Sell 700 1 = some (e₁, 1) ∧
      e₁.placeLimit .Buy 700 5 = some (e₂, 2) ∧ e₂.lastTrades = [⟨2, 1, 700, 1⟩] :=
    ⟨_, _, rfl, rfl, by decide +kernel⟩
  obtain ⟨engine, hengine, hfits⟩ :=
    (Engine.fits_new (show 2 ≤ Engine.defaultPoolCapacity by decide)).placeLimit he₁
  obtain ⟨engine', hplace, hfits'⟩ := hfits.placeLimit he₂
  have hnew : (Engine.new Engine.defaultPoolCapacity).Reached Engine.defaultPoolCapacity [] :=
    ⟨[], rfl⟩
  have hreached := hnew.placeLimit hengine
  obtain ⟨top, htop⟩ := Usable.topOf (hreached.placeLimit hplace).usable
  have haccepted : ¬(NewOrder.of textLibc buyFive).Rejected := by decide +kernel
  have hside : (NewOrder.of textLibc buyFive).side = .Buy := by decide +kernel
  have hpx : (NewOrder.of textLibc buyFive).pxTicks textLibc = 700 := by decide +kernel
  have hqty : (NewOrder.of textLibc buyFive).qty textLibc = 5 := by decide +kernel
  obtain ⟨x', s', messages, he, -, -, -, hsent, hreports, -⟩ :=
    exec_onNewOrder ⟨ascii ['E'], true⟩ haccepted (x := .of engine) (s := .new)
      (by rw [hside, hpx, hqty]; exact hplace) htop
  rw [hfits'.lastTrades, htrades, hqty] at hreports
  refine ⟨engine, x', s', messages, hreached, haccepted, he, hsent, ?_, ?_⟩
  · rw [hreports]
    decide +kernel
  · rw [hreports, averaged_reports_iff (fun _ ↦ rfl) _ _ _ (by decide)]
    decide +kernel

end Fix

end MatchingEngine
