import Mathlib.Data.Rat.Cast.Order
import Mathlib.Tactic.NormNum
import MatchingEngine.Book.Executions
import MatchingEngine.Fix.Session

/-!
# Orders: what is reported and what rests

Here a session talks to an engine that nobody else uses in the meantime.  `serve` answers its
requests, and keeps what has been sent.

`on_new_order` never asks the book what has become of an order.  It works out `LeavesQty` from the
trades, and so reports as open whatever has not been traded.  `leavesQty_eq_resting_iff` compares
this with what does rest.  The two are the same unless the pool is full and nothing crosses, or the
quantity that is left is not a double, as quantities go out as doubles.
-/

set_option autoImplicit false

namespace MatchingEngine

namespace Fix

open Program

/-! ## The engine as seen by the gateway -/

/-- An L1 update, as `publish_l1` is given it. -/
structure L1 where
  symbol : Bytes
  bidPx : ℚ
  bidSz : ℚ
  askPx : ℚ
  askSz : ℚ

/-- What the sessions share. -/
structure Exchange where
  engine : Engine
  nextExecId : Nat
  sent : List Outbound
  published : List L1

/-- A quantity that is only read if there seems to be a best price. -/
def sizeAt (b : OrderBook) (side : Side) (price : Int) (present : Bool) : Option Int :=
  if present then b.qtyAt side price else some 0

/-- The top of the book, as it is read under the lock. -/
def topOf (e : Engine) : Option Top := do
  let bidPx := e.book.bestBid
  let askPx := e.book.bestAsk
  let bidSz ← sizeAt e.book .Buy bidPx (0 < bidPx)
  let askSz ← sizeAt e.book .Sell askPx (askPx < OrderBook.priceMax)
  return { bidPx, bidSz, askPx, askSz }

/-- How requests are answered.  Everything can be sent. -/
def serve : (e : Request) → Exchange → Option (Exchange × e.Answer)
  | .placeLimit side price qty, x => do
    let (engine, orderId) ← x.engine.placeLimit side price qty
    let top ← topOf engine
    return ({ x with engine }, { orderId, trades := engine.lastTrades, top })
  | .cancel id, x => do
    let (engine, ok) ← x.engine.cancel id
    return ({ x with engine }, ok)
  | .top, x => do
    let top ← topOf x.engine
    return (x, top)
  | .nextExecId, x => some ({ x with nextExecId := (x.nextExecId + 1) % 2 ^ 64 }, x.nextExecId)
  | .send o, x => some ({ x with sent := x.sent ++ [o] }, true)
  | .publishL1 symbol bidPx bidSz askPx askSz, x =>
    some ({ x with published := x.published ++ [{ symbol, bidPx, bidSz, askPx, askSz }] }, ())

/-- The report in a message. -/
def Outbound.report? (o : Outbound) : Option ExecReport :=
  match o.body with
  | .execReport _ report => some report
  | _ => none

/-! ## What is reported -/

namespace NewOrder

variable (libc : Libc) (o : NewOrder) (qty : Int) (orderId : Nat)

/-- The last report on the trades says what is left after all of them. -/
theorem getLast?_fillReports {ts : List Trade} (h : ts ≠ []) (cum : Int) (notional : ℚ) :
    ∃ r, (o.fillReports libc qty orderId cum notional ts).getLast? = some r ∧ r.orderId = orderId ∧
      r.leavesQty = libc.toDouble (qty - (cum + (ts.map Trade.qty).sum)) := by
  induction ts generalizing cum notional with
  | nil => exact absurd rfl h
  | cons t ts ih =>
    rw [fillReports]
    cases ts with
    | nil =>
      refine ⟨_, rfl, rfl, ?_⟩
      rw [List.map_singleton, List.sum_singleton]
      rfl
    | cons t' ts =>
      obtain ⟨r, hlast, hid, hleaves⟩ := ih (List.cons_ne_nil t' ts) (cum + t.qty)
        (libc.round (notional + libc.round
          (libc.round (libc.toDouble t.price / 100) * libc.toDouble t.qty)))
      refine ⟨r, ?_, hid, ?_⟩
      · rw [List.getLast?_cons, hlast]
        rfl
      · have hsum : ((t :: t' :: ts).map Trade.qty).sum
            = t.qty + ((t' :: ts).map Trade.qty).sum := rfl
        rw [hleaves, hsum, Int.add_assoc]

/-- **What the last report says**: all that has not been traded is left. -/
theorem getLast?_reports (ts : List Trade) :
    ∃ r, (o.reports libc qty orderId ts).getLast? = some r ∧ r.orderId = orderId ∧
      r.leavesQty = libc.toDouble (qty - (ts.map Trade.qty).sum) := by
  rw [reports]
  cases ts with
  | nil => exact ⟨_, rfl, rfl, rfl⟩
  | cons t ts =>
    rw [if_neg (by simp)]
    split
    · exact ⟨_, List.getLast?_concat, rfl, rfl⟩
    · rw [List.append_nil]
      obtain ⟨r, hlast, hid, hleaves⟩ :=
        getLast?_fillReports libc o qty orderId (List.cons_ne_nil t ts) 0 0
      exact ⟨r, hlast, hid, by rw [hleaves, Int.zero_add]⟩

end NewOrder

/-! ## What is sent -/

section Sent

variable {libc : Libc} (cfg : GatewayConfig)

theorem exec_sendExecReport (report : ExecReport) (s : Session) (x : Exchange) :
    exec serve (sendExecReport cfg s report) x = some
      ({ x with nextExecId := (x.nextExecId + 1) % 2 ^ 64, sent := x.sent ++
        [⟨cfg.compId, s.senderComp, s.outSeq, .execReport x.nextExecId report⟩] },
        { s with outSeq := (s.outSeq + 1) % 2 ^ 32 }) := rfl

/-- What sending reports comes to: they are sent in order, and nothing else is touched. -/
theorem exec_sendExecReports (reports : List ExecReport) (s : Session) (x : Exchange) :
    ∃ x' s' messages, exec serve (reports.foldlM (sendExecReport cfg) s) x = some (x', s') ∧
      x'.engine = x.engine ∧ x'.published = x.published ∧ s'.loggedOn = s.loggedOn ∧
      x'.sent = x.sent ++ messages ∧ messages.filterMap Outbound.report? = reports ∧
      ∀ o ∈ messages, ∃ r, o.report? = some r := by
  induction reports generalizing s x with
  | nil => exact ⟨x, s, [], rfl, rfl, rfl, rfl, by simp, rfl, by simp⟩
  | cons report reports ih =>
    let o : Outbound := ⟨cfg.compId, s.senderComp, s.outSeq, .execReport x.nextExecId report⟩
    obtain ⟨x', s', messages, he, hengine, hpublished, hlogged, hsent, hreports, hall⟩ :=
      ih { s with outSeq := (s.outSeq + 1) % 2 ^ 32 }
        { x with nextExecId := (x.nextExecId + 1) % 2 ^ 64, sent := x.sent ++ [o] }
    refine ⟨x', s', o :: messages, ?_, hengine, hpublished, hlogged, ?_, ?_,
      List.forall_mem_cons.mpr ⟨⟨report, rfl⟩, hall⟩⟩
    · rw [List.foldlM_cons, exec_bind, exec_sendExecReport]
      exact he
    · rw [hsent, List.append_assoc]
      rfl
    · rw [List.filterMap_cons, hreports]
      rfl

/-- The update that `publish` makes of a top. -/
def L1.ofTop (libc : Libc) (symbol : Bytes) (top : Top) : L1 :=
  { symbol, bidPx := libc.round (libc.toDouble top.bidPx / 100), bidSz := libc.toDouble top.bidSz
    askPx := askOut libc top.askPx, askSz := libc.toDouble top.askSz }

theorem exec_publish (libc : Libc) (symbol : Bytes) (top : Top) (x : Exchange) :
    exec serve (publish libc cfg symbol top) x = some ({ x with published :=
      x.published ++ if cfg.hasFeed then [L1.ofTop libc symbol top] else [] }, ()) := by
  rw [publish]
  split
  · rfl
  · rw [List.append_nil]
    rfl

/-- **A new order**, from the engine's answer to the reports and the update of the feed. -/
theorem exec_onNewOrder {s : Session} {m : Message} {x : Exchange} {engine : Engine} {orderId : Nat}
    {top : Top} (haccepted : ¬(NewOrder.of libc m).Rejected)
    (hplace : x.engine.placeLimit (NewOrder.of libc m).side ((NewOrder.of libc m).pxTicks libc)
      ((NewOrder.of libc m).qty libc) = some (engine, orderId))
    (htop : topOf engine = some top) :
    ∃ x' s' messages, exec serve (onNewOrder libc cfg s m) x = some (x', s') ∧ x'.engine = engine ∧
      x'.published = x.published ++ (if cfg.hasFeed then
        [L1.ofTop libc (NewOrder.of libc m).symbol top] else []) ∧ s'.loggedOn = s.loggedOn ∧
      x'.sent = x.sent ++ messages ∧
      messages.filterMap Outbound.report? = (NewOrder.of libc m).reports libc
        ((NewOrder.of libc m).qty libc) orderId engine.lastTrades ∧
      ∀ o ∈ messages, ∃ r, o.report? = some r := by
  obtain ⟨x', s', messages, he, hengine, hpublished, hlogged, hsent, hreports, hall⟩ :=
    exec_sendExecReports cfg ((NewOrder.of libc m).reports libc ((NewOrder.of libc m).qty libc)
      orderId engine.lastTrades) s { x with engine }
  refine ⟨{ x' with published := x.published ++ (if cfg.hasFeed then
      [L1.ofTop libc (NewOrder.of libc m).symbol top] else []) },
    s', messages, ?_, hengine, rfl, hlogged, hsent, hreports, hall⟩
  have hserve : serve (.placeLimit (NewOrder.of libc m).side ((NewOrder.of libc m).pxTicks libc)
      ((NewOrder.of libc m).qty libc)) x
        = some ({ x with engine }, ⟨orderId, engine.lastTrades, top⟩) := by
    simp only [serve, hplace, htop, Option.bind_eq_bind, Option.bind_some, Option.pure_def]
  rw [onNewOrder, if_neg haccepted, exec_bind, request, exec_perform, hserve, Option.bind_some,
    exec_bind, he, Option.bind_some, exec_bind, exec_publish, hpublished]
  rfl

theorem Usable.topOf {N : Nat} {e : Engine} {m : QueueBook} (h : e.Usable N m) :
    ∃ top, topOf e = some top := by
  have hread : ∀ side price present, ∃ q, sizeAt e.book side price present = some q := by
    intro side price present
    cases present with
    | false => exact ⟨0, rfl⟩
    | true => exact ⟨_, h.represents.qtyAt h.valid side price⟩
  obtain ⟨bidSz, hbid⟩ := hread .Buy e.book.bestBid (0 < e.book.bestBid)
  obtain ⟨askSz, hask⟩ := hread .Sell e.book.bestAsk (e.book.bestAsk < OrderBook.priceMax)
  exact ⟨⟨e.book.bestBid, bidSz, e.book.bestAsk, askSz⟩, by rw [Fix.topOf, hbid, hask]; rfl⟩

theorem Standing.topOf {N k : Nat} {e : Engine} {m : QueueBook} (h : e.Standing N k m) :
    ∃ top, topOf e = some top := Usable.topOf h.usable

/-- **What is reported as left of an order, and what rests of it.**  Left is what exceeds all that
crosses; it rests, unless the pool is full and nothing crosses. -/
theorem exec_onNewOrder_leavesQty {N : Nat} {calls : List Call} {s : Session} {m : Message}
    {x : Exchange} (hx : x.engine.Reached N calls) (hlt : placements calls + 1 < 2 ^ 64)
    (haccepted : ¬(NewOrder.of libc m).Rejected) {qty : Int}
    (hqty : (NewOrder.of libc m).qty libc = qty) :
    ∃ x' s' messages r makers, exec serve (onNewOrder libc cfg s m) x = some (x', s') ∧
      x'.sent = x.sent ++ messages ∧ (messages.filterMap Outbound.report?).getLast? = some r ∧
      r.orderId = placements calls + 1 ∧
      x.engine.book.crossing (NewOrder.of libc m).side ((NewOrder.of libc m).pxTicks libc)
        = some makers ∧
      (0 < qty → r.leavesQty = libc.toDouble (max 0 (qty - (makers.map Quote.qty).sum)) ∧
        if x.engine.book.full = false ∨ x.engine.book.crosses (NewOrder.of libc m).side
            ((NewOrder.of libc m).pxTicks libc) = true
        then x'.engine.book.restingQty r.orderId = max 0 (qty - (makers.map Quote.qty).sum)
        else max 0 (qty - (makers.map Quote.qty).sum) = qty ∧
          x'.engine.book.restingQty r.orderId = 0) := by
  subst hqty
  have hx₀ := hx.standing (by omega)
  obtain ⟨engine, hplace, hstanding, -, htrades, hsum⟩ := hx₀.placeLimit hlt
    (NewOrder.of libc m).side ((NewOrder.of libc m).pxTicks libc) ((NewOrder.of libc m).qty libc)
  obtain ⟨top, htop⟩ := Standing.topOf hstanding
  obtain ⟨x', s', messages, he, rfl, -, -, hsent, hreports, -⟩ :=
    exec_onNewOrder cfg haccepted hplace htop
  obtain ⟨r, hlast, hid, hleaves⟩ := NewOrder.getLast?_reports libc (NewOrder.of libc m)
    ((NewOrder.of libc m).qty libc) (placements calls + 1) x'.engine.lastTrades
  have hcrossing := hx₀.usable.represents.crossing hx₀.usable.valid (NewOrder.of libc m).side
    ((NewOrder.of libc m).pxTicks libc)
  refine ⟨x', s', messages, r, _, he, hsent, by rw [hreports, hlast], hid, hcrossing, fun hpos ↦ ?_⟩
  obtain ⟨makers, hmakers, htraded⟩ := hx₀.usable.sum_lastTrades hplace hpos.le
  obtain rfl := Option.some.inj (hmakers.symm.trans hcrossing)
  have hnonneg := sum_qty_nonneg fun t ht ↦ (htrades t ht).2
  have hresting := hstanding.restingQty_nonneg (placements calls + 1)
  have hqty := hsum hpos
  refine ⟨by rw [hleaves, htraded, Int.sub_sub_self], ?_⟩
  rw [hid]
  split
  · rename_i hroom
    rw [if_neg (by simpa [Classical.or_iff_not_imp_left] using hroom)] at hqty
    omega
  · rename_i hroom
    rw [if_pos (by simpa using hroom)] at hqty
    omega

end Sent

/-- What is read as a quantity and accepted is a double. -/
theorem Libc.ReadsDoubles.round_orderQty {libc : Libc} (h : libc.ReadsDoubles) {m : Message}
    (haccepted : ¬(NewOrder.of libc m).Rejected) :
    libc.round (NewOrder.of libc m).orderQty = (NewOrder.of libc m).orderQty := by
  have hpos : (NewOrder.of libc m).orderQty ≠ 0 := fun hzero ↦ haccepted (.inl hzero.le)
  simp only [NewOrder.of, Message.getDouble] at hpos ⊢
  split at hpos
  · exact absurd rfl hpos
  split at hpos
  · exact absurd rfl hpos
  rename_i hne hlt
  rw [if_neg hne, if_neg hlt]
  cases hx : libc.strtod (m.get Tag.OrderQty) with
  | none => exact absurd (by rw [hx]; rfl) hpos
  | some x => exact h _ _ hx

/-- **When `LeavesQty` is what rests** under the reported id.  The quantity fits its type; there is
a slot, or something crosses; and what exceeds all that crosses is a double, as `LeavesQty` goes out
as one. -/
theorem leavesQty_eq_resting_iff (libc : Libc) (htruncates : libc.Truncates)
    (hreads : libc.ReadsDoubles) (cfg : GatewayConfig) (N : Nat) (calls : List Call)
    (hlt : placements calls + 1 < 2 ^ 64) (x : Exchange) (hx : x.engine.Reached N calls)
    (s : Session) (m : Message) (haccepted : ¬(NewOrder.of libc m).Rejected) (q : Int)
    (hq : (NewOrder.of libc m).orderQty = q) :
    ∃ x' s' messages r makers, exec serve (onNewOrder libc cfg s m) x = some (x', s') ∧
      x'.sent = x.sent ++ messages ∧ (messages.filterMap Outbound.report?).getLast? = some r ∧
      r.orderId = placements calls + 1 ∧
      x.engine.book.crossing (NewOrder.of libc m).side ((NewOrder.of libc m).pxTicks libc)
        = some makers ∧
      (q < 2 ^ 63 ∧ r.leavesQty = x'.engine.book.restingQty r.orderId ↔
        q < 2 ^ 63 ∧
        (x.engine.book.full = false ∨ x.engine.book.crosses (NewOrder.of libc m).side
          ((NewOrder.of libc m).pxTicks libc) = true) ∧
        libc.toDouble (max 0 (q - (makers.map Quote.qty).sum))
          = (max 0 (q - (makers.map Quote.qty).sum) : Int)) := by
  have hpos : 0 < q := by
    by_contra hneg
    refine haccepted (.inl ?_)
    rw [hq]
    exact_mod_cast Int.not_lt.mp hneg
  have hdouble : libc.toDouble q = q := by
    have := hreads.round_orderQty haccepted
    rwa [hq] at this
  obtain ⟨x', s', messages, r, makers, he, hsent, hlast, hid, hmakers, hleft⟩ :=
    exec_onNewOrder_leavesQty cfg hx hlt haccepted (s := s) rfl
  refine ⟨x', s', messages, r, makers, he, hsent, hlast, hid, hmakers,
    and_congr_right fun hfits ↦ ?_⟩
  have hqty : (NewOrder.of libc m).qty libc = q := by
    rw [NewOrder.qty, hq, htruncates q (by norm_cast; omega) (by exact_mod_cast hfits)]
    simp
  rw [hqty] at hleft
  obtain ⟨hleaves, hresting⟩ := hleft hpos
  rw [hleaves]
  split at hresting
  · rename_i hroom
    rw [hresting]
    exact (and_iff_right hroom).symm
  · rename_i hfull
    -- all of it is reported as left, and that is not 0
    rw [hresting.1, hresting.2, hdouble]
    refine iff_of_false (fun hzero ↦ ?_) fun h ↦ hfull h.1
    exact hpos.ne' (by exact_mod_cast hzero)

/-- An order to buy 5 at 7. -/
def buyFive : Message :=
  ⟨[⟨Tag.MsgType, ascii ['D']⟩, ⟨Tag.SideTag, ascii ['1']⟩, ⟨Tag.OrderQty, ascii ['5']⟩,
    ⟨Tag.PriceTag, ascii ['7']⟩]⟩

/-- An exchange with nothing sent so far. -/
def Exchange.of (engine : Engine) : Exchange :=
  { engine, nextExecId := 1, sent := [], published := [] }

theorem leavesQty_eq_resting_buyFive :
    ¬(NewOrder.of textLibc buyFive).Rejected ∧ (NewOrder.of textLibc buyFive).orderQty = (5 : Int) ∧
    ∃ x' s' messages r, exec serve (onNewOrder textLibc ⟨ascii ['E'], true⟩ .new buyFive)
        (.of (.new 1)) = some (x', s') ∧ x'.sent = messages ∧
      (messages.filterMap Outbound.report?).getLast? = some r ∧
      r.leavesQty = x'.engine.book.restingQty r.orderId := by
  have haccepted : ¬(NewOrder.of textLibc buyFive).Rejected := by decide +kernel
  have hq : (NewOrder.of textLibc buyFive).orderQty = (5 : Int) := by decide +kernel
  obtain ⟨x', s', messages, r, makers, he, hsent, hlast, -, -, hiff⟩ :=
    leavesQty_eq_resting_iff textLibc textLibc_truncates textLibc_readsDoubles ⟨ascii ['E'], true⟩ 1
      [] (by decide) (.of (.new 1)) ⟨[], rfl⟩ .new buyFive haccepted 5 hq
  exact ⟨haccepted, hq, x', s', messages, r, he, hsent, hlast,
    (hiff.mpr ⟨by decide, .inl rfl, rfl⟩).2⟩

/-! ## A full pool -/

/-- Buys that rest, one after the other. -/
def restingBuys (n : Nat) : List Call := List.replicate n (.placeLimit .Buy 1000 1)

theorem placements_restingBuys (n : Nat) : placements (restingBuys n) = n := by
  simp [placements, restingBuys, List.countP_replicate]

/-- They take up one slot each, as long as there are slots, and no ask comes up. -/
theorem run_restingBuys (n : Nat) {m : QueueBook} (hasks : m.asks.begin? = none)
    (hn : n ≤ m.free.length) :
    (m.run (restingBuys n)).1.asks.begin? = none ∧
      (m.run (restingBuys n)).1.free.length = m.free.length - n := by
  induction n generalizing m with
  | zero => exact ⟨hasks, rfl⟩
  | succ n ih =>
    have hswept := LevelQueue.swept_of_refused (KeyCompare.less.cross · 1000) 1 (m := m.asks)
      (by simp [hasks])
    obtain ⟨p, free, hfree⟩ := List.exists_cons_of_length_pos (Nat.lt_of_lt_of_le n.succ_pos hn)
    have hafter : (LevelQueue.afterSweep (KeyCompare.less.cross · 1000) 1 m.asks).begin?
        = none := by
      show (LevelQueue.swept (KeyCompare.less.cross · 1000) 1 m.asks).rest.head? = none
      rw [hswept]
      exact hasks
    have hstep : (m.perform (.placeLimit .Buy 1000 1)).1.asks.begin? = none ∧
        (m.perform (.placeLimit .Buy 1000 1)).1.free = free := by
      simp only [QueueBook.perform, QueueBook.placeLimit, QueueBook.placeOn, QueueBook.matchQueues,
        QueueBook.settle, hswept, hfree]
      exact ⟨hafter, rfl⟩
    have := ih hstep.1 (by rw [hstep.2]; rw [hfree, List.length_cons] at hn; omega)
    rw [hstep.2] at this
    refine ⟨this.1, this.2.trans ?_⟩
    rw [hfree, List.length_cons]
    omega

/-- **An order is acknowledged and does not rest.**  The pool is full, and the last report on an
order of 5 says that 5 are left, but nothing rests under its id. -/
theorem exists_leavesQty_ne_resting :
    ∃ (libc : Libc) (cfg : GatewayConfig) (calls : List Call) (x x' : Exchange) (s s' : Session)
      (m : Message) (messages : List Outbound) (r : ExecReport),
      libc.Truncates ∧ libc.ReadsDoubles ∧ placements calls + 1 < 2 ^ 64 ∧
      x.engine.Reached Engine.defaultPoolCapacity calls ∧ ¬(NewOrder.of libc m).Rejected ∧
      (NewOrder.of libc m).orderQty = (5 : Int) ∧ (NewOrder.of libc m).pxTicks libc = 700 ∧
      exec serve (onNewOrder libc cfg s m) x = some (x', s') ∧ x'.sent = x.sent ++ messages ∧
      (messages.filterMap Outbound.report?).getLast? = some r ∧ r.leavesQty = 5 ∧
      x'.engine.book.restingQty r.orderId = 0 := by
  generalize hN : Engine.defaultPoolCapacity = N
  have hplacements : placements (restingBuys N) + 1 < 2 ^ 64 := by
    rw [placements_restingBuys, ← hN]
    decide
  obtain ⟨b, hrun, -, -⟩ := run_new N (restingBuys N)
  let x : Exchange := .of ⟨b, []⟩
  have hx : x.engine.Reached N (restingBuys N) := ⟨_, hrun⟩
  have hstanding := hx.standing (by omega)
  obtain ⟨hasks, hfree⟩ := run_restingBuys N (m := QueueBook.new N) rfl (by simp [QueueBook.new])
  have hfull : x.engine.book.full = true := by
    rw [hstanding.represents.full_eq, List.isEmpty_iff, ← List.length_eq_zero_iff, hfree]
    simp [QueueBook.new]
  have hcross : ∀ price, x.engine.book.crosses .Buy price = false := by
    intro price
    rw [hstanding.represents.crosses_buy, hasks]
    rfl
  have haccepted : ¬(NewOrder.of textLibc buyFive).Rejected := by decide +kernel
  have hside : (NewOrder.of textLibc buyFive).side = .Buy := rfl
  have hqty : (NewOrder.of textLibc buyFive).qty textLibc = 5 := by decide +kernel
  obtain ⟨x', s', messages, r, makers, he, hsent, hlast, -, -, hleft⟩ :=
    exec_onNewOrder_leavesQty ⟨ascii ['E'], true⟩ hx hplacements haccepted (s := .new) hqty
  obtain ⟨hleaves, hresting⟩ := hleft (by decide)
  rw [hside, if_neg (by simp [hfull, hcross])] at hresting
  refine ⟨textLibc, ⟨ascii ['E'], true⟩, restingBuys N, x, x', .new, s', buyFive, messages, r,
    textLibc_truncates, textLibc_readsDoubles, hplacements, hx, haccepted, by decide +kernel,
    by decide +kernel, he, hsent, hlast, ?_, hresting.2⟩
  rw [hleaves, hresting.1]
  rfl

end Fix

end MatchingEngine
