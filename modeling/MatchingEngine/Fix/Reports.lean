import MatchingEngine.Book.Capacity
import MatchingEngine.Book.Executions
import MatchingEngine.Fix.Orders

/-!
# The reports on an order

`on_new_order` reports each trade of an order, and what is left of it, with running sums that it
works out on the way.  `lines` are those sums as the integers they are before they become doubles,
and `Settled` says what they come to: the reports account for the quantity of the order, one after
the other, and a fill is reported as complete when it is.

This holds for an order of any quantity, against an engine that has been used in any way.
-/

set_option autoImplicit false

namespace MatchingEngine

namespace Fix

open Program

/-! ## The quantities of a report -/

/-- What a report says about quantities. -/
structure Line (α : Type) where
  execType : ExecType
  ordStatus : OrdStatus
  lastQty : α
  cumQty : α
  leavesQty : α

def Line.map {α β : Type} (f : α → β) (l : Line α) : Line β :=
  { l with lastQty := f l.lastQty, cumQty := f l.cumQty, leavesQty := f l.leavesQty }

def ExecReport.line (r : ExecReport) : Line ℚ :=
  ⟨r.execType, r.ordStatus, r.lastQty, r.cumQty, r.leavesQty⟩

/-- Is this a report on a trade? -/
def Line.isFill {α : Type} (l : Line α) : Bool :=
  l.execType = .partialFill || l.execType = .fill

/-- The quantities in the loop over the trades. -/
def fillLines (qty : Int) : Int → List Trade → List (Line Int)
  | _, [] => []
  | cum, t :: ts =>
    let cum := cum + t.qty
    let lv := qty - cum
    let finalFill := ts.isEmpty && lv == 0
    { execType := if finalFill then .fill else .partialFill
      ordStatus := if finalFill then .filled else .partialFill
      lastQty := t.qty, cumQty := cum, leavesQty := lv } :: fillLines qty cum ts

/-- The quantities in all the reports. -/
def lines (qty : Int) (trades : List Trade) : List (Line Int) :=
  let filled := (trades.map Trade.qty).sum
  let leaves := qty - filled
  if trades.isEmpty then [⟨.new, .new, 0, 0, leaves⟩]
  else fillLines qty 0 trades ++
    if 0 < leaves then [⟨.new, .partialFill, 0, filled, leaves⟩] else []

section Lines

variable (libc : Libc) (o : NewOrder) (qty : Int) (orderId : Nat)

theorem line_fillReports (cum : Int) (notional : ℚ) (ts : List Trade) :
    (o.fillReports libc qty orderId cum notional ts).map ExecReport.line
      = (fillLines qty cum ts).map (Line.map libc.toDouble) := by
  induction ts generalizing cum notional with
  | nil => rfl
  | cons t ts ih =>
    rw [NewOrder.fillReports, fillLines, List.map_cons, List.map_cons, ih]
    rfl

/-- What goes out is what has been worked out, as doubles. -/
theorem line_reports (hexact : libc.Exact) (ts : List Trade) :
    (o.reports libc qty orderId ts).map ExecReport.line
      = (lines qty ts).map (Line.map libc.toDouble) := by
  have hzero : libc.toDouble 0 = 0 := hexact 0 (by decide)
  rw [NewOrder.reports, lines]
  split
  · simp [ExecReport.line, Line.map, hzero]
  · rw [List.map_append, List.map_append, line_fillReports]
    split
    · simp [ExecReport.line, Line.map, hzero]
    · rfl

end Lines

/-! ## The loop over the trades -/

theorem lastQty_fillLines (qty cum : Int) (ts : List Trade) :
    (fillLines qty cum ts).map Line.lastQty = ts.map Trade.qty := by
  induction ts generalizing cum with
  | nil => rfl
  | cons t ts ih => rw [fillLines, List.map_cons, List.map_cons, ih]

theorem length_fillLines (qty cum : Int) (ts : List Trade) :
    (fillLines qty cum ts).length = ts.length := by
  simpa using congrArg List.length (lastQty_fillLines qty cum ts)

section Loop

variable {qty : Int}

/-- A line of the loop: the trade it is about, and the sum up to there. -/
theorem fillLines_split {ts : List Trade} {cum : Int} {pre post : List (Line Int)} {l : Line Int}
    (h : fillLines qty cum ts = pre ++ l :: post) :
    ∃ ts₁ t ts₂, ts = ts₁ ++ t :: ts₂ ∧ pre.map Line.lastQty = ts₁.map Trade.qty ∧
      post.length = ts₂.length ∧ l.lastQty = t.qty ∧
      l.cumQty = cum + (ts₁.map Trade.qty).sum + t.qty ∧ l.leavesQty = qty - l.cumQty ∧
      (l.execType = .fill ↔ ts₂ = [] ∧ l.leavesQty = 0) := by
  induction ts generalizing cum pre with
  | nil => simp [fillLines] at h
  | cons t ts ih =>
    rw [fillLines] at h
    cases pre with
    | nil =>
      obtain ⟨rfl, rfl⟩ := List.cons.inj h
      refine ⟨[], t, ts, rfl, rfl, length_fillLines .., rfl, by simp, rfl, ?_⟩
      have hfinal : (ts.isEmpty && qty - (cum + t.qty) == 0) = true ↔
          ts = [] ∧ qty - (cum + t.qty) = 0 := by simp
      rw [← hfinal]
      dsimp only
      split <;> simp_all
    | cons l' pre =>
      obtain ⟨rfl, hrest⟩ := List.cons.inj h
      obtain ⟨ts₁, t', ts₂, rfl, hpre, hpost, hlast, hcum, hleaves, hfill⟩ := ih hrest
      refine ⟨t :: ts₁, t', ts₂, rfl, by rw [List.map_cons, List.map_cons, hpre], hpost, hlast, ?_,
        hleaves, hfill⟩
      rw [hcum, List.map_cons, List.sum_cons]
      omega

theorem isFill_of_mem_fillLines {ts : List Trade} {cum : Int} :
    ∀ l ∈ fillLines qty cum ts,
      l.isFill = true ∧ (l.execType = .fill ↔ l.ordStatus = .filled) := by
  induction ts generalizing cum with
  | nil => simp [fillLines]
  | cons t ts ih =>
    rw [fillLines]
    refine List.forall_mem_cons.mpr ⟨?_, ih⟩
    dsimp only [Line.isFill]
    split <;> simp

theorem cumQty_fillLines {ts : List Trade} (hpos : ∀ t ∈ ts, 1 ≤ t.qty) (cum : Int) :
    ((fillLines qty cum ts).map Line.cumQty).Pairwise (· < ·) ∧
      ∀ n ∈ (fillLines qty cum ts).map Line.cumQty, cum < n := by
  induction ts generalizing cum with
  | nil => simp [fillLines]
  | cons t ts ih =>
    obtain ⟨ht, hts⟩ := List.forall_mem_cons.mp hpos
    obtain ⟨hpairwise, habove⟩ := ih hts (cum + t.qty)
    rw [fillLines, List.map_cons]
    refine ⟨List.pairwise_cons.mpr ⟨habove, hpairwise⟩, List.forall_mem_cons.mpr ⟨?_, ?_⟩⟩
    · dsimp only
      omega
    · intro n hn
      have := habove n hn
      omega

/-- A line of the loop is a complete fill only if nothing is left after all the trades. -/
theorem sum_eq_of_fill {ts : List Trade} {cum : Int} {l : Line Int} (hl : l ∈ fillLines qty cum ts)
    (hfill : l.execType = .fill) : cum + (ts.map Trade.qty).sum = qty := by
  obtain ⟨pre, post, he⟩ := List.append_of_mem hl
  obtain ⟨ts₁, t, ts₂, rfl, -, -, -, hcum, hleaves, hiff⟩ := fillLines_split he
  obtain ⟨rfl, hzero⟩ := hiff.mp hfill
  simp only [List.map_append, List.map_cons, List.map_nil, List.sum_append, List.sum_cons,
    List.sum_nil]
  omega

/-- And then the last one is. -/
theorem exists_fill {ts : List Trade} (hne : ts ≠ []) {cum : Int}
    (hsum : cum + (ts.map Trade.qty).sum = qty) :
    ∃ l ∈ fillLines qty cum ts, l.execType = .fill := by
  have hnil : fillLines qty cum ts ≠ [] := by
    rw [← List.length_pos_iff, length_fillLines]
    exact List.length_pos_iff.mpr hne
  obtain ⟨pre, l, he⟩ : ∃ pre l, fillLines qty cum ts = pre ++ [l] :=
    ⟨_, _, (List.dropLast_append_getLast hnil).symm⟩
  obtain ⟨ts₁, t, ts₂, rfl, -, hpost, -, hcum, hleaves, hiff⟩ := fillLines_split he
  obtain rfl : ts₂ = [] := List.length_eq_zero_iff.mp hpost.symm
  simp only [List.map_append, List.map_cons, List.map_nil, List.sum_append, List.sum_cons,
    List.sum_nil] at hsum
  exact ⟨l, by rw [he]; simp, hiff.mpr ⟨rfl, by omega⟩⟩

end Loop

/-! ## What they come to -/

/-- What the lines on an order of a quantity say, with these trades. -/
structure Settled (qty : Int) (trades : List Trade) (ls : List (Line Int)) : Prop where
  /-- One line is about each trade, in their order. -/
  fills : (ls.filter Line.isFill).map Line.lastQty = trades.map Trade.qty
  /-- The others are about what is left: one, if anything is. -/
  kind : ∀ l ∈ ls, l.isFill = true ∨ l.execType = .new
  news : (ls.filter fun l ↦ l.execType = .new).length
    = if (trades.map Trade.qty).sum < qty then 1 else 0
  /-- Every line has the sum of what was reported so far, and what that leaves. -/
  running : ∀ pre l post, ls = pre ++ l :: post →
    l.cumQty = ((pre ++ [l]).map Line.lastQty).sum ∧ l.cumQty + l.leavesQty = qty ∧ 0 ≤ l.leavesQty
  increasing : ((ls.filter Line.isFill).map Line.cumQty).Pairwise (· < ·)
  /-- A complete fill is reported as such, in the last line. -/
  filled : ((∃ l ∈ ls, l.execType = .fill) ↔ (trades.map Trade.qty).sum = qty) ∧
    ∀ l ∈ ls, l.execType = .fill ↔ l.ordStatus = .filled
  last : ∀ pre l post, ls = pre ++ l :: post → l.execType = .fill → post = []

theorem filter_isFill_fillLines (qty cum : Int) (ts : List Trade) :
    (fillLines qty cum ts).filter Line.isFill = fillLines qty cum ts :=
  List.filter_eq_self.mpr fun l hl ↦ (isFill_of_mem_fillLines l hl).1

theorem filter_new_fillLines (qty cum : Int) (ts : List Trade) :
    (fillLines qty cum ts).filter (fun l ↦ l.execType = .new) = [] := by
  refine List.filter_eq_nil_iff.mpr fun l hl hnew ↦ ?_
  have hfill := (isFill_of_mem_fillLines l hl).1
  simp [Line.isFill, of_decide_eq_true hnew] at hfill

/-- The running sums of the loop, and of a line after it. -/
theorem running_fillLines {qty : Int} {ts : List Trade} (hpos : ∀ t ∈ ts, 1 ≤ t.qty)
    (hsum : (ts.map Trade.qty).sum ≤ qty) {pre post : List (Line Int)} {l : Line Int}
    (h : fillLines qty 0 ts = pre ++ l :: post) :
    l.cumQty = ((pre ++ [l]).map Line.lastQty).sum ∧ l.cumQty + l.leavesQty = qty ∧
      0 ≤ l.leavesQty := by
  obtain ⟨ts₁, t, ts₂, rfl, hpre, -, hlast, hcum, hleaves, -⟩ := fillLines_split h
  have hrest := sum_qty_nonneg fun u (hu : u ∈ ts₂) ↦ hpos u (by simp [hu])
  simp only [List.map_append, List.map_cons, List.map_nil, List.sum_append, List.sum_cons,
    List.sum_nil] at hsum ⊢
  rw [hpre]
  omega

/-- A list with one more element, cut at an element. -/
theorem append_singleton_eq_split {α : Type} {as pre post : List α} {a b : α}
    (h : as ++ [a] = pre ++ b :: post) :
    (pre = as ∧ b = a ∧ post = []) ∨ ∃ post', post = post' ++ [a] ∧ as = pre ++ b :: post' := by
  rcases List.eq_nil_or_concat post with rfl | ⟨post', c, rfl⟩
  · obtain ⟨rfl, hb⟩ := List.append_inj' h rfl
    exact .inl ⟨rfl, (List.cons.inj hb).1.symm, rfl⟩
  · rw [List.concat_eq_append, ← List.cons_append, ← List.append_assoc] at h
    obtain ⟨rfl, hc⟩ := List.append_inj' h rfl
    exact .inr ⟨post', by rw [List.concat_eq_append, (List.cons.inj hc).1], rfl⟩

section Settled

variable {qty : Int} {ts : List Trade}

/-- An order that is filled completely: the loop is all there is. -/
theorem settled_fillLines (hqty : 1 ≤ qty) (hpos : ∀ t ∈ ts, 1 ≤ t.qty)
    (hsum : (ts.map Trade.qty).sum = qty) : Settled qty ts (fillLines qty 0 ts) where
  fills := by rw [filter_isFill_fillLines, lastQty_fillLines]
  kind l hl := .inl (isFill_of_mem_fillLines l hl).1
  news := by rw [filter_new_fillLines, if_neg (by omega), List.length_nil]
  running pre l post h := running_fillLines hpos hsum.le h
  increasing := by
    rw [filter_isFill_fillLines]
    exact (cumQty_fillLines hpos 0).1
  filled := by
    have hne : ts ≠ [] := by
      rintro rfl
      simp at hsum
      omega
    refine ⟨⟨fun _ ↦ hsum, fun _ ↦ exists_fill hne (by omega)⟩, fun l hl ↦ ?_⟩
    exact (isFill_of_mem_fillLines l hl).2
  last pre l post h hl := by
    obtain ⟨ts₁, t, ts₂, -, -, hpost, -, -, -, hiff⟩ := fillLines_split h
    rw [(hiff.mp hl).1] at hpost
    exact List.length_eq_zero_iff.mp hpost

/-- An order of which something is left: one more line says so. -/
theorem settled_append_new (hpos : ∀ t ∈ ts, 1 ≤ t.qty) (hsum : (ts.map Trade.qty).sum < qty)
    {status : OrdStatus} (hstatus : status ≠ .filled) :
    Settled qty ts (fillLines qty 0 ts
      ++ [⟨.new, status, 0, (ts.map Trade.qty).sum, qty - (ts.map Trade.qty).sum⟩]) := by
  generalize hnew : (⟨.new, status, 0, (ts.map Trade.qty).sum, qty - (ts.map Trade.qty).sum⟩ :
    Line Int) = new
  have hisFill : new.isFill = false := by rw [← hnew]; rfl
  have htype : new.execType = .new := by rw [← hnew]
  have hnone : ∀ l ∈ fillLines qty 0 ts, l.execType ≠ .fill := fun l hl hfill ↦ by
    have := sum_eq_of_fill hl hfill
    omega
  have hfilter : (fillLines qty 0 ts ++ [new]).filter Line.isFill = fillLines qty 0 ts := by
    rw [List.filter_append, filter_isFill_fillLines, List.filter_cons_of_neg (by simp [hisFill]),
      List.filter_nil, List.append_nil]
  have hall : ∀ {P : Line Int → Prop}, (∀ l ∈ fillLines qty 0 ts, P l) → P new →
      ∀ l ∈ fillLines qty 0 ts ++ [new], P l := by
    intro P hloop hlast l hl
    rcases List.mem_append.mp hl with hl | hl
    · exact hloop l hl
    · rw [List.mem_singleton.mp hl]
      exact hlast
  constructor
  case fills => rw [hfilter, lastQty_fillLines]
  case kind => exact hall (fun l hl ↦ .inl (isFill_of_mem_fillLines l hl).1) (.inr htype)
  case news =>
    rw [List.filter_append, filter_new_fillLines, if_pos hsum]
    simp [htype]
  case running =>
    intro pre l post h
    rcases append_singleton_eq_split h with ⟨rfl, rfl, -⟩ | ⟨post', -, he⟩
    · rw [List.map_append, lastQty_fillLines, List.sum_append, ← hnew]
      simp only [List.map_cons, List.map_nil, List.sum_cons, List.sum_nil]
      omega
    · exact running_fillLines hpos hsum.le he
  case increasing =>
    rw [hfilter]
    exact (cumQty_fillLines hpos 0).1
  case filled =>
    refine ⟨⟨?_, fun h ↦ absurd h hsum.ne⟩, ?_⟩
    · rintro ⟨l, hl, hfill⟩
      exact absurd hfill (hall (P := fun l ↦ l.execType ≠ .fill) hnone (by simp [htype]) l hl)
    · refine hall (fun l hl ↦ (isFill_of_mem_fillLines l hl).2) ?_
      rw [← hnew]
      simp [hstatus]
  case last =>
    intro pre l post h hfill
    have hl : l ∈ fillLines qty 0 ts ++ [new] := by rw [h]; simp
    exact absurd hfill (hall (P := fun l ↦ l.execType ≠ .fill) hnone (by simp [htype]) l hl)

/-- **The reports on an order account for it.** -/
theorem settled_lines (hqty : 1 ≤ qty) (hpos : ∀ t ∈ ts, 1 ≤ t.qty)
    (hsum : (ts.map Trade.qty).sum ≤ qty) : Settled qty ts (lines qty ts) := by
  rw [lines]
  rcases hsum.lt_or_eq with hlt | heq
  · by_cases hts : ts = []
    · subst hts
      exact settled_append_new hpos hlt (by decide)
    · rw [if_neg (by simpa using hts), if_pos (by omega)]
      exact settled_append_new hpos hlt (by decide)
  · have hts : ts ≠ [] := by
      rintro rfl
      simp at heq
      omega
    rw [if_neg (by simpa using hts), if_neg (by omega), List.append_nil]
    exact settled_fillLines hqty hpos heq

end Settled

/-- **What is reported on an order.**  The engine may have been used in any way, and the order is of
any quantity: one report goes out on each trade and one on what is left, with the sums of `lines`,
and these account for the order. -/
theorem reports_settled (libc : Libc) (hexact : libc.Exact) (cfg : GatewayConfig) (N : Nat)
    (calls : List Call) (x : Exchange) (hx : x.engine.Reached N calls) (s : Session) (m : Message)
    (haccepted : ¬(NewOrder.of libc m).Rejected) (q : Int) (hq : (NewOrder.of libc m).qty libc = q)
    (hpos : 1 ≤ q) :
    ∃ x' s' messages, exec serve (onNewOrder libc cfg s m) x = some (x', s') ∧
      x'.sent = x.sent ++ messages ∧
      (messages.filterMap Outbound.report?).map ExecReport.line
        = (lines q x'.engine.lastTrades).map (Line.map libc.toDouble) ∧
      Settled q x'.engine.lastTrades (lines q x'.engine.lastTrades) := by
  obtain ⟨engine, hplace, husable, htraded⟩ := hx.usable.placeLimit (NewOrder.of libc m).side
    ((NewOrder.of libc m).pxTicks libc) ((NewOrder.of libc m).qty libc)
  obtain ⟨top, htop⟩ := Usable.topOf husable
  obtain ⟨x', s', messages, he, rfl, -, -, hsent, hreports, -⟩ :=
    exec_onNewOrder cfg haccepted hplace htop
  rw [hq] at htraded hreports
  refine ⟨x', s', messages, he, hsent, ?_,
    settled_lines hpos htraded.pos (htraded.sum_le (by omega))⟩
  rw [hreports, line_reports libc _ _ _ hexact]

/-- One rests at 6 and two at 7: the order for five takes both, and two are left. -/
theorem reports_settled_two_fills :
    ∃ engine x' s' messages,
      engine.Reached 4 [.placeLimit .Sell 700 2, .placeLimit .Sell 600 1] ∧
      exec serve (onNewOrder textLibc ⟨ascii ['E'], true⟩ .new buyFive) (.of engine)
        = some (x', s') ∧ x'.sent = messages ∧
      (messages.filterMap Outbound.report?).map ExecReport.line
        = [⟨.partialFill, .partialFill, 1, 1, 4⟩, ⟨.partialFill, .partialFill, 2, 3, 2⟩,
            ⟨.new, .partialFill, 0, 3, 2⟩] ∧
      Settled 5 x'.engine.lastTrades (lines 5 x'.engine.lastTrades) := by
  have hread : (((Engine.new 4).placeLimit .Sell 700 2).bind fun y ↦
      (y.1.placeLimit .Sell 600 1).bind fun z ↦
      (exec serve (onNewOrder textLibc ⟨ascii ['E'], true⟩ .new buyFive) (.of z.1)).map
        fun x ↦ x.1.engine.lastTrades) = some [⟨3, 2, 600, 1⟩, ⟨3, 1, 700, 2⟩] := by decide +kernel
  simp only [Option.bind_eq_some_iff, Option.map_eq_some_iff] at hread
  obtain ⟨⟨e₁, id₁⟩, h₁, ⟨engine, id₂⟩, h₂, ⟨x', s'⟩, he, htrades⟩ := hread
  have hnew : (Engine.new 4).Reached 4 [] := ⟨[], rfl⟩
  have hreached := (hnew.placeLimit h₁).placeLimit h₂
  obtain ⟨x'', s'', messages, he', hsent, hlines, hsettled⟩ :=
    reports_settled textLibc textLibc_exact ⟨ascii ['E'], true⟩ 4 _
      (.of engine) hreached .new buyFive (by decide +kernel) 5 (by decide +kernel) (by decide)
  obtain ⟨rfl, rfl⟩ := Prod.mk.inj (Option.some.inj (he'.symm.trans he))
  rw [htrades] at hlines
  refine ⟨engine, x'', s'', messages, hreached, he, hsent, hlines.trans ?_, hsettled⟩
  simp [lines, fillLines, Line.map, Libc.toDouble, textLibc]

end Fix

end MatchingEngine
