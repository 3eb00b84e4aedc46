import MatchingEngine.Book.Capacity
import MatchingEngine.Md.Feed

/-!
# Is the feed up to date?

A session with the engine and the feed to itself handles one message after the other.  The feed is
current if its last datagram, once there is one, shows the top of the book (`Exchange.Current`).

A new order always publishes, and what it publishes is the top right after the placement.  A cancel
never does.  So the feed falls behind when an order is cancelled at the best price of its side.  It
also goes wrong where the numbers do: at prices that `best_bid` and `best_ask` use for an empty
side, at prices and sizes that a double does not hold, and at levels of which `qty_at` overflows.
`Message.told` excludes all this, looking only at the message and the book before it, and then every
change of the top is published before the next message, digit by digit (`feed_current`).
-/

set_option autoImplicit false

namespace MatchingEngine

namespace Fix

open Program Md

/-! ## What the feed shows -/

/-- The datagrams of what has been published. -/
def Exchange.datagrams (libc : Libc) (x : Exchange) : List Bytes :=
  Feed.opened.datagrams libc.snprintf x.published

/-- The datagram has the ticks and the sizes of this top, digit by digit, and zeros for an empty
side. -/
def Shows (d : Bytes) (top : BookTop) : Prop := ∃ seq symbol, d = topLine seq symbol top

/-- The last datagram, if any, shows the top of the book. -/
def Exchange.Current (libc : Libc) (x : Exchange) : Prop :=
  ∀ d, (x.datagrams libc).getLast? = some d → ∃ top, x.engine.book.bookTop = some top ∧ Shows d top

/-! ## The messages -/

/-- The messages of a session that is logged on: orders, cancels, requests for market data and
heartbeats. -/
def Message.ordinary (m : Message) : Bool := m.trades || m.msgType == '0'.toUInt8

/-- Can the feed show what rests at a price when an order has come to it? -/
def fitsLevel (b : OrderBook) (side : Side) (price qty : Int) : Bool :=
  (b.totalAt side price).any fun total ↦ presentable side price (total + qty)

/-- Will the feed be told what this message changes?  An order can be shown together with what rests
at its price, and a cancelled order is not at the best price of its side. -/
def Message.told (libc : Libc) (b : OrderBook) (m : Message) : Bool :=
  if m.msgType = 'D'.toUInt8 then
    let o := NewOrder.of libc m
    decide o.Rejected || fitsLevel b o.side (o.pxTicks libc) (o.qty libc)
  else if m.msgType = 'F'.toUInt8 then !b.atTop (cancelledId m)
  else true

/-- All messages are of this kind, each in the state in which it is handled. -/
def allTold (libc : Libc) (cfg : GatewayConfig) : List Message → Session → Exchange → Bool
  | [], _, _ => true
  | m :: ms, s, x => m.told libc x.engine.book &&
    match exec serve (handleMessage libc cfg s m) x with
    | none => true
    | some (x, s) => allTold libc cfg ms s x

/-! ## What can be shown -/

theorem presentable_iff {side : Side} {price qty : Int} :
    presentable side price qty = true ↔
      (side = .Buy → 0 < price) ∧ 0 ≤ price ∧ price < 2 ^ 52 ∧ qty ≤ 2 ^ 53 := by
  cases side <;> simp [presentable] <;> omega

section Showable

variable {N k : Nat} {e e' : Engine} {q : QueueBook}

theorem showable_iff (h : e.Usable N q) :
    showable e.book = true ↔
      ∀ side, ∀ p ∈ q.pricesOn side, presentable side p (q.totalAt side p) = true := by
  have hside : ∀ side, ((e.book.prices side).all fun p ↦
      (e.book.totalAt side p).any (presentable side p)) = true ↔
      ∀ p ∈ q.pricesOn side, presentable side p (q.totalAt side p) = true := by
    intro side
    simp only [h.represents.prices_eq, h.represents.totalAt_eq h.valid, List.all_eq_true,
      Option.any_some]
  rw [showable, List.all_cons, List.all_cons, List.all_nil, Bool.and_true, Bool.and_eq_true, hside,
    hside]
  constructor
  · rintro ⟨hbuy, hsell⟩ side
    cases side with
    | Buy => exact hbuy
    | Sell => exact hsell
  · intro h
    exact ⟨h .Buy, h .Sell⟩

/-- No level of a book that can be shown is too large. -/
theorem totalAt_le (h : e.Usable N q) (hshow : showable e.book = true) (side : Side) (p : Int) :
    q.totalAt side p ≤ 2 ^ 53 := by
  by_cases hp : p ∈ q.pricesOn side
  · exact (presentable_iff.mp ((showable_iff h).mp hshow side p hp)).2.2.2
  · rw [QueueBook.totalAt_eq_zero hp]
    decide

/-- **An order that can be shown** leaves a book that can be shown. -/
theorem showable_placeLimit (h : e.Usable N q) (hshow : showable e.book = true) {side : Side}
    {price qty : Int} {id : Nat} (hfits : fitsLevel e.book side price qty = true)
    (he : e.placeLimit side price qty = some (e', id)) : showable e'.book = true := by
  obtain ⟨e₁, he₁, hu, -⟩ := h.placeLimit_eq side price qty
  obtain ⟨rfl, -⟩ := Prod.mk.inj (Option.some.inj (he.symm.trans he₁))
  rw [fitsLevel, h.represents.totalAt_eq h.valid, Option.any_some, presentable_iff] at hfits
  refine (showable_iff hu).mpr fun side' p hp ↦ presentable_iff.mpr ?_
  have htotal := totalAt_le h hshow side' p
  have hadded := h.valid.totalAt_placeLimit_le side price qty side' p
  by_cases hown : side' = side ∧ p = price
  · obtain ⟨rfl, rfl⟩ := hown
    rw [if_pos ⟨rfl, rfl⟩] at hadded
    exact ⟨hfits.1, hfits.2.1, hfits.2.2.1, by omega⟩
  · rw [if_neg hown] at hadded
    have hold := (QueueBook.mem_pricesOn_placeLimit hp).resolve_right hown
    obtain ⟨hbuy, hnonneg, hlt, -⟩ := presentable_iff.mp ((showable_iff h).mp hshow side' p hold)
    exact ⟨hbuy, hnonneg, hlt, by omega⟩

theorem showable_cancel (h : e.Usable N q) (hshow : showable e.book = true) {id : Nat} {ok : Bool}
    (he : e.cancel id = some (e', ok)) : showable e'.book = true := by
  refine (showable_iff (h.cancel he)).mpr fun side p hp ↦ presentable_iff.mpr ?_
  obtain ⟨hbuy, hnonneg, hlt, hle⟩ := presentable_iff.mp
    ((showable_iff h).mp hshow side p (QueueBook.mem_pricesOn_cancel hp))
  exact ⟨hbuy, hnonneg, hlt, (h.valid.totalAt_cancel_le id side p).trans hle⟩

/-- What can be shown survives the way to the line. -/
theorem printable_sideTop (h : e.Usable N q) (hshow : showable e.book = true) (side : Side) :
    Printable (q.sideTop side) := by
  rw [QueueBook.sideTop]
  cases hp : (q.pricesOn side).head? with
  | none => exact printable_none
  | some p =>
    have hmem := List.mem_of_head? hp
    obtain ⟨-, hnonneg, hlt, hle⟩ := presentable_iff.mp ((showable_iff h).mp hshow side p hmem)
    have hpos := (h.valid.totalAt_pos_iff side p).mpr (h.valid.queueAt_ne_nil hmem)
    exact ⟨hnonneg, hlt, hpos.le, hle⟩

end Showable

/-! ## Reading the top -/

section Top

variable {libc : Libc} {N k : Nat} {e : Engine} {q : QueueBook}

/-- The size read at the best price of a side, if the price for an empty side is not taken for
one. -/
theorem sizeAt_best (h : e.Usable N q) (hshow : showable e.book = true) (side : Side) (empty : Int)
    (present : Int → Bool) (hempty : present empty = false)
    (hpresent : ∀ p ∈ q.pricesOn side, present p = true) :
    sizeAt e.book side ((e.book.best side).getD empty) (present ((e.book.best side).getD empty))
      = some (shown (q.sideTop side)).2 := by
  rw [OrderBook.best, h.represents.prices_eq, QueueBook.sideTop]
  cases hp : (q.pricesOn side).head? with
  | none =>
    rw [Option.getD_none, sizeAt, if_neg (by simp [hempty])]
    rfl
  | some p =>
    have hmem := List.mem_of_head? hp
    have hpos := (h.valid.totalAt_pos_iff side p).mpr (h.valid.queueAt_ne_nil hmem)
    have hle := totalAt_le h hshow side p
    -- far from where adding up in 64 bits goes wrong
    rw [Option.getD_some, sizeAt, if_pos (hpresent p hmem), h.represents.qtyAt h.valid,
      QueueBook.qtyAt_eq_bmod, bmod_eq_self_iff.mpr (by omega)]
    rfl

/-- **What is published after a placement** is the top of the book. -/
theorem topOf_showable (hexact : libc.Exact) (h : e.Usable N q) (hshow : showable e.book = true) :
    ∃ top, topOf e = some top ∧
      ∀ symbol, L1.ofTop libc symbol top = Md.L1.of libc symbol q.bookTop := by
  have hprices := (showable_iff h).mp hshow
  have hbids : ∀ p ∈ q.pricesOn .Buy, 0 < p := fun p hp ↦
    (presentable_iff.mp (hprices .Buy p hp)).1 rfl
  have hasks : ∀ p ∈ q.pricesOn .Sell, p < OrderBook.priceMax := by
    intro p hp
    have hlt := (presentable_iff.mp (hprices .Sell p hp)).2.2.1
    rw [OrderBook.priceMax]
    omega
  have hbidSz := sizeAt_best h hshow .Buy 0 (fun p ↦ 0 < p) rfl fun p hp ↦ by simpa using hbids p hp
  have haskSz := sizeAt_best h hshow .Sell OrderBook.priceMax (fun p ↦ p < OrderBook.priceMax)
    (by simp) fun p hp ↦ by simpa using hasks p hp
  rw [← OrderBook.bestBid_eq] at hbidSz
  rw [← OrderBook.bestAsk_eq] at haskSz
  have hbidPx : e.book.bestBid = (shown (q.sideTop .Buy)).1 := by
    rw [OrderBook.bestBid_eq, OrderBook.best, h.represents.prices_eq, QueueBook.sideTop]
    cases (q.pricesOn .Buy).head? <;> rfl
  have haskPx : askOut libc e.book.bestAsk
      = libc.round (libc.toDouble (shown (q.sideTop .Sell)).1 / 100) := by
    rw [OrderBook.bestAsk_eq, OrderBook.best, h.represents.prices_eq, QueueBook.sideTop]
    cases hp : (q.pricesOn .Sell).head? with
    | none =>
      have hround : libc.round 0 = 0 := by simpa using hexact 0 (by simp)
      have hzero : libc.toDouble 0 = 0 := by simpa [Libc.toDouble] using hround
      rw [askOut, Option.getD_none, if_neg (lt_irrefl _)]
      show 0 = libc.round (libc.toDouble 0 / 100)
      rw [hzero, zero_div, hround]
    | some p =>
      rw [askOut, Option.getD_some, if_pos (hasks p (List.mem_of_head? hp))]
      rfl
  refine ⟨⟨e.book.bestBid, _, e.book.bestAsk, _⟩, by rw [topOf, hbidSz, haskSz]; rfl,
    fun symbol ↦ ?_⟩
  rw [L1.ofTop, Md.L1.of, haskPx, hbidPx]
  rfl

end Top

/-! ## One message -/

section Step

variable {libc : Libc} {cfg : GatewayConfig} {N k : Nat} {x : Exchange} {q : QueueBook}
  {s : Session} {m : Message}

theorem exec_sendMdSnapshot (snapshot : MdSnapshot) (s : Session) (x : Exchange) :
    exec serve (sendMdSnapshot cfg s snapshot) x = some
      ({ x with sent := x.sent ++ [⟨cfg.compId, s.senderComp, s.outSeq, .mdSnapshot snapshot⟩] },
        { s with outSeq := (s.outSeq + 1) % 2 ^ 32 }) := rfl

theorem handleMessage_newOrder (hon : s.loggedOn = true) (hm : m.msgType = 'D'.toUInt8) :
    handleMessage libc cfg s m = onNewOrder libc cfg s m := by
  rw [handleMessage, hm, if_neg (by simp [hon]), if_neg (by decide), if_neg (by decide),
    if_neg (by decide), if_pos rfl]

theorem handleMessage_cancel (libc : Libc) (hon : s.loggedOn = true)
    (hm : m.msgType = 'F'.toUInt8) :
    handleMessage libc cfg s m = onCancel cfg s m := by
  rw [handleMessage, hm, if_neg (by simp [hon]), if_neg (by decide), if_neg (by decide),
    if_neg (by decide), if_neg (by decide), if_pos rfl]

/-- A cancel says nothing to the feed. -/
theorem exec_onCancel (cfg : GatewayConfig) (s : Session) {engine : Engine} {ok : Bool}
    (hcancel : x.engine.cancel (cancelledId m) = some (engine, ok)) :
    ∃ x' s', exec serve (onCancel cfg s m) x = some (x', s') ∧ x'.engine = engine ∧
      x'.published = x.published ∧ s'.loggedOn = s.loggedOn := by
  have hserve : serve (.cancel (cancelledId m)) x = some ({ x with engine }, ok) := by
    simp only [serve, hcancel, Option.bind_eq_bind, Option.bind_some, Option.pure_def]
  rw [onCancel, exec_bind, request, exec_perform, hserve, Option.bind_some, exec_sendExecReport]
  exact ⟨_, _, rfl, rfl, rfl, rfl⟩

/-- What handling a message comes to, as far as the engine and the feed are concerned. -/
structure Tells (libc : Libc) (N k : Nat) (x x' : Exchange) : Prop where
  standing : ∃ j q, j ≤ k + 1 ∧ x'.engine.Standing N j q
  showable : showable x'.engine.book = true
  /-- The top stays, or is published. -/
  told : x'.published = x.published ∧ x'.engine.book.bookTop = x.engine.book.bookTop ∨
    ∃ symbol top, x'.engine.book.bookTop = some top ∧
      x'.published = x.published ++ [Md.L1.of libc symbol top]

theorem tells_of_eq {x' : Exchange} (h : x.engine.Standing N k q)
    (hshow : Md.showable x.engine.book = true)
    (hengine : x'.engine = x.engine) (hpublished : x'.published = x.published) :
    Tells libc N k x x' :=
  ⟨⟨k, q, k.le_succ, hengine ▸ h⟩, hengine ▸ hshow, .inl ⟨hpublished, by rw [hengine]⟩⟩

theorem exec_onNewOrder_tells (hexact : libc.Exact) (hfeed : cfg.hasFeed = true)
    (h : x.engine.Standing N k q) (hlt : k + 1 < 2 ^ 64) (hshow : showable x.engine.book = true)
    (htold : (NewOrder.of libc m).Rejected ∨ fitsLevel x.engine.book (NewOrder.of libc m).side
      ((NewOrder.of libc m).pxTicks libc) ((NewOrder.of libc m).qty libc) = true) :
    ∃ x' s', exec serve (onNewOrder libc cfg s m) x = some (x', s') ∧ s'.loggedOn = s.loggedOn ∧
      Tells libc N k x x' := by
  by_cases hrejected : (NewOrder.of libc m).Rejected
  · rw [onNewOrder, if_pos hrejected, exec_sendExecReport]
    exact ⟨_, _, rfl, rfl, tells_of_eq h hshow rfl rfl⟩
  · have hfits := htold.resolve_left hrejected
    obtain ⟨engine, hplace, hstanding, -⟩ := h.placeLimit hlt (NewOrder.of libc m).side
      ((NewOrder.of libc m).pxTicks libc) ((NewOrder.of libc m).qty libc)
    have hshow' := showable_placeLimit h.usable hshow hfits hplace
    obtain ⟨top, htop, hrecord⟩ := topOf_showable hexact hstanding.usable hshow'
    obtain ⟨x', s', messages, he, rfl, hpublished, hlogged, -⟩ :=
      exec_onNewOrder cfg hrejected hplace htop (s := s)
    rw [hfeed, if_pos rfl, hrecord] at hpublished
    exact ⟨x', s', he, hlogged, ⟨k + 1, _, le_rfl, hstanding⟩, hshow',
      .inr ⟨_, _, hstanding.bookTop, hpublished⟩⟩

theorem exec_onCancel_tells (h : x.engine.Standing N k q) (hshow : showable x.engine.book = true)
    (htold : x.engine.book.atTop (cancelledId m) = false) :
    ∃ x' s', exec serve (onCancel cfg s m) x = some (x', s') ∧ s'.loggedOn = s.loggedOn ∧
      Tells libc N k x x' := by
  obtain ⟨engine, hcancel, hstanding⟩ := h.cancel (cancelledId m)
  obtain ⟨x', s', he, rfl, hpublished, hlogged⟩ := exec_onCancel cfg s hcancel
  exact ⟨x', s', he, hlogged, ⟨k, _, k.le_succ, hstanding⟩, showable_cancel h.usable hshow hcancel,
    .inl ⟨hpublished, h.bookTop_cancel htold hcancel⟩⟩

theorem exec_onMdRequest_tells (h : x.engine.Standing N k q)
    (hshow : showable x.engine.book = true) :
    ∃ x' s', exec serve (onMdRequest libc cfg s m) x = some (x', s') ∧ s'.loggedOn = s.loggedOn ∧
      Tells libc N k x x' := by
  obtain ⟨top, htop⟩ := Standing.topOf h
  have hserve : serve .top x = some (x, top) := by
    simp only [serve, htop, Option.bind_eq_bind, Option.bind_some, Option.pure_def]
  rw [onMdRequest, exec_bind, request, exec_perform, hserve, Option.bind_some, exec_sendMdSnapshot]
  exact ⟨_, _, rfl, rfl, tells_of_eq h hshow rfl rfl⟩

/-- **One message.** -/
theorem exec_handleMessage_tells (hexact : libc.Exact) (hfeed : cfg.hasFeed = true)
    (h : x.engine.Standing N k q) (hlt : k + 1 < 2 ^ 64) (hshow : showable x.engine.book = true)
    (hon : s.loggedOn = true) (hm : m.ordinary = true) (htold : m.told libc x.engine.book = true) :
    ∃ x' s', exec serve (handleMessage libc cfg s m) x = some (x', s') ∧ s'.loggedOn = true ∧
      Tells libc N k x x' := by
  have hA : m.msgType ≠ 'A'.toUInt8 ∧ m.msgType ≠ '5'.toUInt8 := by
    rw [Message.ordinary, Bool.or_eq_true, Message.trades_iff, beq_iff_eq] at hm
    rcases hm with (hm | hm | hm) | hm <;> rw [hm] <;> decide
  rw [handleMessage, if_neg (by simp [hon]), if_neg hA.1, if_neg hA.2]
  rw [Message.told] at htold
  by_cases h0 : m.msgType = '0'.toUInt8
  · rw [if_pos h0]
    exact ⟨x, s, rfl, hon, tells_of_eq h hshow rfl rfl⟩
  rw [if_neg h0]
  by_cases hD : m.msgType = 'D'.toUInt8
  · rw [if_pos hD] at htold ⊢
    rw [← hon]
    refine exec_onNewOrder_tells hexact hfeed h hlt hshow ?_
    rwa [Bool.or_eq_true, decide_eq_true_eq] at htold
  rw [if_neg hD] at htold ⊢
  by_cases hF : m.msgType = 'F'.toUInt8
  · rw [if_pos hF] at htold ⊢
    rw [← hon]
    exact exec_onCancel_tells h hshow (by simpa using htold)
  rw [if_neg hF]
  split
  · rw [← hon]
    exact exec_onMdRequest_tells h hshow
  · exact ⟨x, s, rfl, hon, tells_of_eq h hshow rfl rfl⟩

end Step

/-! ## Many messages -/

section Runs

variable {libc : Libc} {cfg : GatewayConfig} {N k : Nat} {x x' : Exchange}

/-- **A message keeps the feed current**, and a change of the top is published. -/
theorem Tells.current (hexact : libc.Exact) (hrounds : Rounds libc) (hprints : Prints libc)
    (h : Tells libc N k x x') (hx : x.Current libc) :
    x'.Current libc ∧ ∀ top, x'.engine.book.bookTop = some top → x.engine.book.bookTop ≠ some top →
      ∃ d, x'.datagrams libc = x.datagrams libc ++ [d] ∧ Shows d top := by
  rcases h.told with ⟨hpublished, htop⟩ | ⟨symbol, top, htop, hpublished⟩
  · refine ⟨fun d hd ↦ ?_, fun top he hne ↦ absurd (htop.symm.trans he) hne⟩
    rw [Exchange.datagrams, hpublished] at hd
    obtain ⟨top, he, hshows⟩ := hx d hd
    exact ⟨top, htop.trans he, hshows⟩
  · obtain ⟨j, q, -, hstanding⟩ := h.standing
    obtain rfl := Option.some.inj (hstanding.bookTop.symm.trans htop)
    have hside := printable_sideTop hstanding.usable h.showable
    obtain ⟨d, hd, hshows⟩ : ∃ d, x'.datagrams libc = x.datagrams libc ++ [d] ∧
        Shows d q.bookTop := by
      rw [Exchange.datagrams, hpublished, Feed.datagrams_concat]
      exact ⟨_, rfl, _, symbol,
        datagram_of_printable hexact hrounds hprints (hside .Buy) (hside .Sell) _ symbol⟩
    refine ⟨fun d' hd' ↦ ?_, fun top' he _ ↦ ?_⟩
    · rw [hd, List.getLast?_concat, Option.some_inj] at hd'
      exact ⟨_, htop, hd' ▸ hshows⟩
    · obtain rfl := Option.some.inj (htop.symm.trans he)
      exact ⟨d, hd, hshows⟩

/-- Up to a message in the middle of others, and after it. -/
theorem exec_messages (hexact : libc.Exact) (hrounds : Rounds libc) (hprints : Prints libc)
    (hfeed : cfg.hasFeed = true) {q : QueueBook} {s : Session} {done : List Message} {m : Message}
    {rest : List Message} (h : x.engine.Standing N k q) (hlt : k + done.length + 1 < 2 ^ 64)
    (hshow : showable x.engine.book = true) (hcurrent : x.Current libc) (hon : s.loggedOn = true)
    (hms : ∀ m' ∈ done ++ m :: rest, m'.ordinary = true)
    (htold : allTold libc cfg (done ++ m :: rest) s x = true) :
    ∃ x₁ s₁ x₂ s₂ j, exec serve (done.foldlM (handleMessage libc cfg) s) x = some (x₁, s₁) ∧
      exec serve (handleMessage libc cfg s₁ m) x₁ = some (x₂, s₂) ∧ x₁.Current libc ∧
      (∃ q, x₁.engine.Standing N j q) ∧ Tells libc N j x₁ x₂ := by
  induction done generalizing x k q s with
  | nil =>
    rw [List.nil_append, allTold, Bool.and_eq_true] at htold
    obtain ⟨x₂, s₂, he, -, htells⟩ := exec_handleMessage_tells hexact hfeed h hlt hshow hon
      (hms m List.mem_cons_self) htold.1
    exact ⟨x, s, x₂, s₂, k, rfl, he, hcurrent, ⟨q, h⟩, htells⟩
  | cons m' done ih =>
    rw [List.cons_append, allTold, Bool.and_eq_true] at htold
    rw [List.length_cons] at hlt
    obtain ⟨hm', hms⟩ := List.forall_mem_cons.mp hms
    obtain ⟨x', s', he, hon', htells⟩ :=
      exec_handleMessage_tells hexact hfeed h (by omega) hshow hon hm' htold.1
    obtain ⟨j, q', hj, h'⟩ := htells.standing
    rw [he] at htold
    obtain ⟨x₁, s₁, x₂, s₂, i, he₁, hrest⟩ := ih h' (by omega) htells.showable
      (htells.current hexact hrounds hprints hcurrent).1 hon' hms htold.2
    refine ⟨x₁, s₁, x₂, s₂, i, ?_, hrest⟩
    rw [List.foldlM_cons, exec_bind, he]
    exact he₁

end Runs

/-- **The feed follows the book**, as long as all messages are told: a change of the top is
published before the next message, and after each message the last datagram shows the top. -/
theorem feed_current (libc : Libc) (hexact : libc.Exact) (hrounds : Rounds libc)
    (hprints : Prints libc) (cfg : GatewayConfig) (hfeed : cfg.hasFeed = true) (N : Nat)
    (calls : List Call) (x : Exchange) (hx : x.engine.Reached N calls)
    (hshow : showable x.engine.book = true) (hcurrent : x.Current libc) (s : Session)
    (hon : s.loggedOn = true) (ms : List Message)
    (hms : ∀ m ∈ ms, m.ordinary = true) (hcount : placements calls + ms.length < 2 ^ 64)
    (htold : allTold libc cfg ms s x = true) (done : List Message) (m : Message)
    (rest : List Message) (hsplit : ms = done ++ m :: rest) :
    ∃ x₁ s₁ x₂ s₂ top₁ top₂,
      exec serve (done.foldlM (handleMessage libc cfg) s) x = some (x₁, s₁) ∧
      exec serve (handleMessage libc cfg s₁ m) x₁ = some (x₂, s₂) ∧
      x₁.engine.book.bookTop = some top₁ ∧ x₂.engine.book.bookTop = some top₂ ∧
      (top₂ ≠ top₁ → ∃ d, x₂.datagrams libc = x₁.datagrams libc ++ [d] ∧ Shows d top₂) ∧
      ∀ d, (x₂.datagrams libc).getLast? = some d → Shows d top₂ := by
  subst hsplit
  rw [List.length_append, List.length_cons] at hcount
  obtain ⟨x₁, s₁, x₂, s₂, j, he₁, he₂, hcurrent₁, ⟨q₁, h₁⟩, htells⟩ :=
    exec_messages hexact hrounds hprints hfeed (hx.standing (by omega))
      (by omega) hshow hcurrent hon hms htold
  obtain ⟨i, q₂, -, h₂⟩ := htells.standing
  obtain ⟨hcurrent₂, hpublishes⟩ := htells.current hexact hrounds hprints hcurrent₁
  refine ⟨x₁, s₁, x₂, s₂, q₁.bookTop, q₂.bookTop, he₁, he₂, h₁.bookTop, h₂.bookTop, fun hne ↦ ?_,
    fun d hd ↦ ?_⟩
  · refine hpublishes _ h₂.bookTop fun he ↦ ?_
    exact hne (Option.some.inj (he.symm.trans h₁.bookTop))
  · obtain ⟨top, htop, hshows⟩ := hcurrent₂ d hd
    obtain rfl := Option.some.inj (h₂.bookTop.symm.trans htop)
    exact hshows

/-! ## A cancel -/

/-- A session that is logged on. -/
def loggedIn : Session := { Session.new with loggedOn := true }

theorem current_of (libc : Libc) (engine : Engine) : (Exchange.of engine).Current libc := by
  intro d hd
  simp [Exchange.datagrams, Exchange.of, Feed.datagrams] at hd

/-- The first order is published. -/
theorem feed_current_buyFive :
    allTold textLibc ⟨ascii ['E'], true⟩ [buyFive] loggedIn (.of (.new 1)) = true ∧
    ∃ x₂ s₂ top₂ d, exec serve (handleMessage textLibc ⟨ascii ['E'], true⟩ loggedIn buyFive)
        (.of (.new 1)) = some (x₂, s₂) ∧ x₂.engine.book.bookTop = some top₂ ∧
      x₂.datagrams textLibc = [d] ∧ Shows d top₂ := by
  have htold : allTold textLibc ⟨ascii ['E'], true⟩ [buyFive] loggedIn (.of (.new 1)) = true := by
    decide +kernel
  obtain ⟨x₁, s₁, x₂, s₂, top₁, top₂, he₁, he₂, htop₁, htop₂, hpublished, -⟩ :=
    feed_current textLibc textLibc_exact textLibc_rounds textLibc_prints ⟨ascii ['E'], true⟩ rfl 1
      [] (.of (.new 1)) ⟨[], rfl⟩ (by decide) (current_of _ _) loggedIn rfl [buyFive] (by decide)
      (by decide) htold [] buyFive [] rfl
  obtain ⟨rfl, rfl⟩ := Prod.mk.inj (Option.some.inj he₁)
  have hread : (exec serve (handleMessage textLibc ⟨ascii ['E'], true⟩ loggedIn buyFive)
      (.of (.new 1))).bind (fun r ↦ r.1.engine.book.bookTop) = some ⟨some (700, 5), none⟩ := by
    decide +kernel
  rw [he₂, Option.bind_some, htop₂, Option.some_inj] at hread
  obtain ⟨d, hd, hshows⟩ := hpublished (by
    obtain rfl : (⟨none, none⟩ : BookTop) = top₁ := Option.some.inj htop₁
    rw [hread]
    decide)
  exact ⟨htold, x₂, s₂, top₂, d, he₂, htop₂, hd, hshows⟩

/-- Cancel the first order. -/
def cancelOne : Message := ⟨[⟨Tag.MsgType, ascii ['F']⟩, ⟨Tag.OrderID, ascii ['1']⟩]⟩

theorem topOf_fits {n : Nat} {e e' : Engine} (h : e.Fits n e') : topOf e' = topOf e := by
  simp only [topOf, sizeAt, h.bestBid, h.bestAsk, h.qtyAt]

/-- **A cancel is not published.**  The only order is cancelled, and the feed still shows it. -/
theorem exists_feed_stale :
    ∃ (libc : Libc) (cfg : GatewayConfig) (x x₁ x₂ : Exchange) (s s₁ s₂ : Session) (m₁ m₂ : Message)
      (top₁ top₂ : BookTop) (d : Bytes),
      libc.Exact ∧ Rounds libc ∧ Prints libc ∧ cfg.hasFeed = true ∧
      x.engine = .new Engine.defaultPoolCapacity ∧ x.published = [] ∧ s.loggedOn = true ∧
      m₁.ordinary = true ∧ m₂.ordinary = true ∧
      exec serve (handleMessage libc cfg s m₁) x = some (x₁, s₁) ∧
      exec serve (handleMessage libc cfg s₁ m₂) x₁ = some (x₂, s₂) ∧
      x₁.engine.book.bookTop = some top₁ ∧ x₂.engine.book.bookTop = some top₂ ∧ top₂ ≠ top₁ ∧
      x₂.datagrams libc = x₁.datagrams libc ∧ (x₂.datagrams libc).getLast? = some d ∧
      ¬Shows d top₂ := by
  generalize hN : Engine.defaultPoolCapacity = N
  -- on a pool of one slot, which is enough
  have hsmall : ((Engine.new 1).placeLimit .Buy 700 5).bind (fun r ↦ (r.1.cancel 1).map fun r' ↦
      (r.2, topOf r.1, r.1.book.bookTop, r'.2, r'.1.book.bookTop))
      = some (1, some ⟨700, 5, OrderBook.priceMax, 0⟩, some ⟨some (700, 5), none⟩, true,
        some ⟨none, none⟩) := by decide +kernel
  rw [Option.bind_eq_some_iff] at hsmall
  obtain ⟨⟨e₁, id⟩, hplace, hsmall⟩ := hsmall
  obtain ⟨⟨e₂, ok⟩, hcancel, he⟩ := Option.map_eq_some_iff.mp hsmall
  simp only [Prod.mk.injEq] at he
  obtain ⟨rfl, htop, hbook₁, rfl, hbook₂⟩ := he
  have hfits : (Engine.new 1).Fits 1 (Engine.new N) := Engine.fits_new (by rw [← hN]; decide)
  obtain ⟨e₁', hplace', hfits₁⟩ := hfits.placeLimit hplace
  obtain ⟨e₂', hcancel', hfits₂⟩ := hfits₁.cancel hcancel
  rw [← topOf_fits hfits₁] at htop
  rw [← hfits₁.bookTop] at hbook₁
  rw [← hfits₂.bookTop] at hbook₂
  have haccepted : ¬(NewOrder.of textLibc buyFive).Rejected := by decide +kernel
  have hqty : (NewOrder.of textLibc buyFive).qty textLibc = 5 := by decide +kernel
  have hpx : (NewOrder.of textLibc buyFive).pxTicks textLibc = 700 := by decide +kernel
  obtain ⟨x₁, s₁, messages, hexec₁, rfl, hpublished, hlogged, -⟩ := exec_onNewOrder
    ⟨ascii ['E'], true⟩ haccepted (x := .of (.new N)) (s := loggedIn)
    (by rw [hqty, hpx]; exact hplace') htop
  have hid : cancelledId cancelOne = 1 := by decide +kernel
  rw [← hid] at hcancel'
  obtain ⟨x₂, s₂, hexec₂, rfl, hsame, -⟩ := exec_onCancel ⟨ascii ['E'], true⟩ s₁ hcancel'
  rw [← handleMessage_newOrder rfl rfl] at hexec₁
  rw [← handleMessage_cancel textLibc hlogged rfl] at hexec₂
  have hdatagrams : x₂.datagrams textLibc = x₁.datagrams textLibc := by
    rw [Exchange.datagrams, hsame]
    rfl
  refine ⟨textLibc, ⟨ascii ['E'], true⟩, .of (.new N), x₁, x₂, loggedIn, s₁, s₂, buyFive, cancelOne,
    _, _, datagram textLibc.snprintf 1 (L1.ofTop textLibc [] ⟨700, 5, OrderBook.priceMax, 0⟩),
    textLibc_exact, textLibc_rounds, textLibc_prints, rfl, rfl, rfl, rfl, rfl, rfl,
    hexec₁, hexec₂, hbook₁, hbook₂, by decide, hdatagrams, ?_, ?_⟩
  · rw [hdatagrams, Exchange.datagrams, hpublished]
    rfl
  · rintro ⟨seq, symbol, hd⟩
    have hsuffix := topNumbers_suffix_topLine seq symbol ⟨none, none⟩
    rw [← hd] at hsuffix
    have hclosed : ¬topNumbers ⟨none, none⟩ <:+
        datagram textLibc.snprintf 1 (L1.ofTop textLibc [] ⟨700, 5, OrderBook.priceMax, 0⟩) := by
      decide +kernel
    exact hclosed hsuffix

end Fix

end MatchingEngine
