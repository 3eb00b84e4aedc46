import MatchingEngine.Book.TopOfBook

/-!
# What one placement trades

The trades of a placement, for an engine that has been used in any way.  They are positive, add up
to no more than the order, are made at prices at which something rested, and there are no more of
them than slots (`Traded`).  Either they fill the order or they use up all that crosses
(`Valid.trades_cases`).  Ids play no part in any of this, so it does not matter whether they have
wrapped.

What rests at a price was placed at that price (`exists_mem_of_mem_pricesOn_run`), which is how a
property of all the prices ever placed becomes one of the prices of trades, or of the best bid
(`bestBid_eq_zero_iff`).
-/

set_option autoImplicit false

namespace MatchingEngine

open Greedy LevelQueue

/-- What the trades of an order of a quantity satisfy, against orders at these prices. -/
structure Traded (N : Nat) (prices : List Int) (qty : Int) (ts : List Trade) : Prop where
  pos : ∀ t ∈ ts, 1 ≤ t.qty
  price_mem : ∀ t ∈ ts, t.price ∈ prices
  sum_le : 0 ≤ qty → (ts.map Trade.qty).sum ≤ qty
  eq_nil : qty ≤ 0 → ts = []
  length_le : ts.length ≤ N

section Pair

variable {c c' : KeyCompare} {N : Nat} {own : Queues c} {opp : Queues c'} {t : QueueBook.Settling}

theorem sum_tradesOf (id : Nat) (fills : List (Fill (Int × Resting))) :
    ((QueueBook.tradesOf id fills).map Trade.qty).sum = given fills := by
  rw [QueueBook.tradesOf, List.map_map]
  rfl

theorem traded_placeOn (h : Consistent N own opp t.free t.index)
    (htrades : t.trades = []) (id : Nat) (price : Int) (ts : Nat) :
    Traded N opp.keys t.qty (QueueBook.placeOn own opp t id price ts).2.2.1.trades := by
  rw [trades_placeOn, htrades, List.nil_append]
  have hspec : ∀ f ∈ (swept (c'.cross · price) t.qty opp).fills, f.lot ∈ lots opp ∧
      c'.cross f.lot.1 price = true ∧ 1 ≤ f.amount ∧ f.amount ≤ size f.lot :=
    fill_spec fun x hx ↦ h.pos x (mem_resting.mpr (.inr hx))
  constructor
  case pos =>
    intro u hu
    obtain ⟨f, hf, rfl⟩ := List.mem_map.mp hu
    exact (hspec f hf).2.2.1
  case price_mem =>
    intro u hu
    obtain ⟨f, hf, rfl⟩ := List.mem_map.mp hu
    obtain ⟨q, hq, -⟩ := mem_lots.mp (hspec f hf).1
    exact List.mem_map_of_mem hq
  case sum_le =>
    intro hq
    have hgiven := given_swept_add_left (c'.cross · price) t.qty opp
    have hleft := left_swept_nonneg hq (c'.cross · price) opp
    rw [sum_tradesOf]
    omega
  case eq_nil =>
    intro hq
    rw [swept, sweep_of_nonpos hq]
    rfl
  case length_le =>
    have hlen := (lots_swept_isPrefix (c'.cross · price) t.qty opp).length_le
    have hslots := h.length_slots_le
    rw [List.length_map] at hlen
    simp only [slots, List.length_append, List.length_map] at hslots
    rw [QueueBook.tradesOf, List.length_map]
    omega

/-- An order trades with all that crosses, or is filled. -/
theorem trades_placeOn_cases (h : Consistent N own opp t.free t.index) (htrades : t.trades = [])
    (id : Nat) (price : Int) (ts : Nat) :
    (t.qty ≤ (((lots opp).filter fun x ↦ c'.cross x.1 price).map fun x ↦ x.2.qty).sum →
      t.qty ≤ ((QueueBook.placeOn own opp t id price ts).2.2.1.trades.map Trade.qty).sum) ∧
    ((((lots opp).filter fun x ↦ c'.cross x.1 price).map fun x ↦ x.2.qty).sum < t.qty →
      (QueueBook.placeOn own opp t id price ts).2.2.1.trades
        = ((lots opp).filter fun x ↦ c'.cross x.1 price).map
          fun x ↦ ⟨id, x.2.id, x.1, x.2.qty⟩) := by
  rw [trades_placeOn, htrades, List.nil_append, sum_tradesOf, fills_swept]
  refine ⟨fun hle ↦ ?_, fun hlt ↦ ?_⟩
  · have hgiven := given_add_left t.qty ((lots opp).filter fun x ↦ c'.cross x.1 price)
    have hleft := left_nonpos_of_le_offered
      (show t.qty ≤ offered ((lots opp).filter fun x ↦ c'.cross x.1 price) from hle)
    omega
  · rw [take_of_offered_lt (fun x hx ↦ h.pos x (mem_resting.mpr (.inr (List.mem_of_mem_filter hx))))
      hlt, QueueBook.tradesOf, List.map_map]
    rfl

/-- What remains of an order is found under its id, if there is room for it: a slot was free, or the
makers have left theirs. -/
theorem isSome_find?_placeOn (own : Queues c) (hfull : Full opp) (hqty : 0 < t.qty)
    (htrades : t.trades = []) {id : Nat} {price : Int} {ts : Nat}
    (hroom : t.free ≠ [] ∨ (opp.begin?.any fun e ↦ c'.cross e.1 price) = true)
    (hleft : ((QueueBook.placeOn own opp t id price ts).2.2.1.trades.map Trade.qty).sum < t.qty) :
    ((QueueBook.placeOn own opp t id price ts).2.2.1.index.find? id).isSome := by
  rw [trades_placeOn, htrades, List.nil_append, sum_tradesOf] at hleft
  have hgiven := given_swept_add_left (c'.cross · price) t.qty opp
  have hpos : 0 < (QueueBook.matchQueues id price opp t).2.qty := by
    simp only [QueueBook.matchQueues, QueueBook.settle]
    omega
  have hdropped := dropped_matchQueues hfull hqty id price
  rw [if_neg (by simpa [Classical.or_iff_not_imp_left] using hroom), QueueBook.Settling.dropped]
    at hdropped
  simp only [QueueBook.placeOn]
  rcases restQueue_cases own (QueueBook.matchQueues id price opp t).2 id price ts with
    ⟨hnone, -⟩ | ⟨p, free, -, -, he⟩
  · refine absurd ⟨hpos, fun hfree ↦ ?_⟩ hnone
    rw [if_pos ⟨hpos, hfree⟩] at hdropped
    omega
  · rw [he, SortedMap.find?_insert, if_pos rfl]
    rfl

end Pair

/-- The orders of the other side that cross a limit. -/
def OrderBook.crossing (b : OrderBook) (side : Side) (price : Int) : Option (List Quote) :=
  (b.quotes side.opposite).map (List.filter fun q ↦ side.crosses q.price price)

theorem Represents.crossing {N : Nat} {b : OrderBook} {m : QueueBook} (h : Represents N b m)
    (hv : m.Valid N) (side : Side) (price : Int) :
    b.crossing side price = some ((m.makersFor side price).map quoteOf) := by
  rw [OrderBook.crossing, h.quotes hv, Option.map_some, QueueBook.makersFor, List.filter_map]
  rfl

/-- The best level crosses a limit if any does. -/
theorem OrderBook.crosses_iff (b : OrderBook) (side : Side) (price : Int) :
    b.crosses side price = true ↔
      ∃ p ∈ b.prices side.opposite, side.crosses p price = true := by
  have hkeys : ∀ {c : KeyCompare} (levels : BookSide c),
      (levels.begin?.any fun e ↦ c.cross e.1 price) = true ↔
        ∃ p ∈ levels.keys, c.cross p price = true := by
    intro c levels
    have hhead := levels.head?_keys
    rw [Option.any_eq_true]
    constructor
    · rintro ⟨e, he, hcross⟩
      exact ⟨e.1, List.mem_of_head? (hhead.trans (by rw [he]; rfl)), hcross⟩
    · rintro ⟨p, hp, hcross⟩
      cases he : levels.begin? with
      | none => simp [List.head?_eq_none_iff.mp (hhead.trans (by rw [he]; rfl))] at hp
      | some e =>
        rw [he] at hhead
        refine ⟨e, rfl, ?_⟩
        rcases SortedMap.eq_or_lt_of_head?_keys hhead hp with rfl | hbefore
        · exact hcross
        · exact KeyCompare.cross_of_before hbefore hcross
  cases side with
  | Buy => exact hkeys b.asks
  | Sell => exact hkeys b.bids

namespace QueueBook

variable {N : Nat} {m : QueueBook}

theorem Valid.traded (hv : m.Valid N) (side : Side) (price qty : Int) :
    Traded N (m.pricesOn side.opposite) qty (m.placeLimit side price qty []).2.2 := by
  cases side with
  | Buy => exact traded_placeOn (t := ⟨m.index, m.free, qty, []⟩) hv.consistent rfl _ _ _
  | Sell => exact traded_placeOn (t := ⟨m.index, m.free, qty, []⟩) hv.consistent.symm rfl _ _ _

theorem Valid.trades_cases (hv : m.Valid N) (side : Side) (price qty : Int) :
    (qty ≤ ((m.makersFor side price).map fun x ↦ x.2.qty).sum →
      qty ≤ ((m.placeLimit side price qty []).2.2.map Trade.qty).sum) ∧
    (((m.makersFor side price).map fun x ↦ x.2.qty).sum < qty →
      (m.placeLimit side price qty []).2.2
        = (m.makersFor side price).map fun x ↦ ⟨m.nextId, x.2.id, x.1, x.2.qty⟩) := by
  cases side with
  | Buy => exact trades_placeOn_cases (t := ⟨m.index, m.free, qty, []⟩) hv.consistent rfl _ _ _
  | Sell =>
    exact trades_placeOn_cases (t := ⟨m.index, m.free, qty, []⟩) hv.consistent.symm rfl _ _ _

theorem Valid.makersFor_eq_nil_iff (hv : m.Valid N) (side : Side) (price : Int) :
    m.makersFor side price = [] ↔
      ∀ p ∈ m.pricesOn side.opposite, side.crosses p price = false := by
  rw [makersFor, List.filter_eq_nil_iff]
  constructor
  · intro h p hp
    obtain ⟨r, hr⟩ := List.exists_mem_of_ne_nil _ (hv.queueAt_ne_nil hp)
    simpa using h (p, r) (mem_lotsOn.mpr hr)
  · intro h x hx
    have hmem : x.1 ∈ m.pricesOn side.opposite := by
      generalize side.opposite = s at hx ⊢
      cases s with
      | Buy | Sell =>
        obtain ⟨q, hq, -⟩ := mem_lots.mp hx
        exact List.mem_map_of_mem hq
    simp [h x.1 hmem]

/-- **When nothing is traded.** -/
theorem Valid.trades_eq_nil_iff (hv : m.Valid N) (side : Side) (price qty : Int) :
    (m.placeLimit side price qty []).2.2 = [] ↔ qty ≤ 0 ∨ m.makersFor side price = [] := by
  obtain ⟨hfilled, hall⟩ := hv.trades_cases side price qty
  constructor
  · intro h
    rw [h] at hfilled hall
    rcases le_or_gt qty (((m.makersFor side price).map fun x ↦ x.2.qty).sum) with hle | hlt
    · exact .inl (hfilled hle)
    · exact .inr (List.map_eq_nil_iff.mp (hall hlt).symm)
  · rintro (hq | hnil)
    · exact (hv.traded side price qty).eq_nil hq
    · rcases le_or_gt qty 0 with hq | hq
      · exact (hv.traded side price qty).eq_nil hq
      · rw [hall (by rw [hnil]; exact hq), hnil]
        rfl

/-- **What rests was placed**, at the price where it rests. -/
theorem exists_mem_of_mem_pricesOn_run {calls : List Call} {side : Side} {p : Int}
    (h : p ∈ (m.run calls).1.pricesOn side) :
    p ∈ m.pricesOn side ∨ ∃ qty, Call.placeLimit side p qty ∈ calls := by
  induction calls generalizing m with
  | nil => exact .inl h
  | cons call calls ih =>
    rcases ih (m := (m.perform call).1) h with hmem | ⟨qty, hmem⟩
    · cases call with
      | placeLimit side' price qty =>
        rcases mem_pricesOn_placeLimit hmem with hmem | ⟨rfl, rfl⟩
        · exact .inl hmem
        · exact .inr ⟨qty, List.mem_cons_self ..⟩
      | cancel id => exact .inl (mem_pricesOn_cancel hmem)
    · exact .inr ⟨qty, List.mem_cons_of_mem _ hmem⟩

end QueueBook

namespace Engine

variable {N : Nat} {e : Engine} {m : QueueBook}

/-- An order is placed as the queues have it, after any calls. -/
theorem Usable.placeLimit_eq (h : e.Usable N m) (side : Side) (price qty : Int) :
    ∃ e', e.placeLimit side price qty = some (e', m.nextId) ∧
      e'.Usable N (m.placeLimit side price qty []).1 ∧
      e'.lastTrades = (m.placeLimit side price qty []).2.2 := by
  obtain ⟨b, he, hr⟩ := h.represents.placeLimit h.valid side price qty []
  refine ⟨⟨b, (m.placeLimit side price qty []).2.2⟩, ?_,
    ⟨hr, h.valid.placeLimit side price qty []⟩, rfl⟩
  rw [Engine.placeLimit, he, ← QueueBook.id_placeLimit m side price qty]
  rfl

/-- An order that wants something trades if it crosses. -/
theorem Usable.lastTrades_eq_nil_iff (h : e.Usable N m) {e' : Engine} {side : Side}
    {price qty : Int} {id : Nat} (he : e.placeLimit side price qty = some (e', id)) :
    e'.lastTrades = [] ↔ qty ≤ 0 ∨ e.book.crosses side price = false := by
  obtain ⟨e₁, he₁, -, htrades⟩ := h.placeLimit_eq side price qty
  obtain ⟨rfl, -⟩ := Prod.mk.inj (Option.some.inj (he.symm.trans he₁))
  rw [htrades, h.valid.trades_eq_nil_iff, h.valid.makersFor_eq_nil_iff, ← Bool.not_eq_true,
    e.book.crosses_iff, h.represents.prices_eq]
  simp

/-- **How much is traded**: all that crosses, and no more than is wanted. -/
theorem Usable.sum_lastTrades (h : e.Usable N m) {e' : Engine} {side : Side} {price qty : Int}
    {id : Nat} (he : e.placeLimit side price qty = some (e', id)) (hqty : 0 ≤ qty) :
    ∃ makers, e.book.crossing side price = some makers ∧
      (e'.lastTrades.map Trade.qty).sum = qty - max 0 (qty - (makers.map Quote.qty).sum) := by
  obtain ⟨e₁, he₁, -, htrades⟩ := h.placeLimit_eq side price qty
  obtain ⟨rfl, -⟩ := Prod.mk.inj (Option.some.inj (he.symm.trans he₁))
  refine ⟨_, h.represents.crossing h.valid side price, ?_⟩
  have hoffered : (((m.makersFor side price).map quoteOf).map Quote.qty).sum
      = ((m.makersFor side price).map fun x ↦ x.2.qty).sum := by
    rw [List.map_map]
    rfl
  obtain ⟨hfilled, hall⟩ := h.valid.trades_cases side price qty
  have hle := (h.valid.traded side price qty).sum_le hqty
  rw [htrades, hoffered]
  rcases le_or_gt qty (((m.makersFor side price).map fun x ↦ x.2.qty).sum) with hmany | hfew
  · have hge := hfilled hmany
    omega
  · rw [hall hfew, List.map_map]
    show ((m.makersFor side price).map fun x ↦ x.2.qty).sum = _
    omega

/-- **Placing an order**, after any calls. -/
theorem Usable.placeLimit (h : e.Usable N m) (side : Side) (price qty : Int) :
    ∃ e', e.placeLimit side price qty = some (e', m.nextId) ∧
      e'.Usable N (m.placeLimit side price qty []).1 ∧
      Traded N (m.pricesOn side.opposite) qty e'.lastTrades := by
  obtain ⟨e', he, hu, htrades⟩ := h.placeLimit_eq side price qty
  exact ⟨e', he, hu, htrades ▸ h.valid.traded side price qty⟩

/-- **What remains of an order rests** under its id, if there is room for it. -/
theorem Usable.restingQty_pos (h : e.Usable N m) {e' : Engine} {side : Side} {price qty : Int}
    {id : Nat} (he : e.placeLimit side price qty = some (e', id)) (hqty : 0 < qty)
    (hroom : e.book.full = false ∨ e.book.crosses side price = true)
    (hleft : (e'.lastTrades.map Trade.qty).sum < qty) : 0 < e'.book.restingQty id := by
  obtain ⟨e₁, he₁, hu, htrades⟩ := h.placeLimit_eq side price qty
  obtain ⟨rfl, rfl⟩ := Prod.mk.inj (Option.some.inj (he.symm.trans he₁))
  have hindex : ((m.placeLimit side price qty []).1.index.find? m.nextId).isSome := by
    rw [htrades] at hleft
    rw [h.represents.full_eq, List.isEmpty_eq_false_iff] at hroom
    cases side with
    | Buy =>
      rw [h.represents.crosses_buy] at hroom
      exact isSome_find?_placeOn (t := ⟨m.index, m.free, qty, []⟩) m.bids
        h.valid.consistent.fullOpp hqty rfl hroom hleft
    | Sell =>
      rw [h.represents.crosses_sell] at hroom
      exact isSome_find?_placeOn (t := ⟨m.index, m.free, qty, []⟩) m.asks
        h.valid.consistent.fullOwn hqty rfl hroom hleft
  obtain ⟨n, hn⟩ := Option.isSome_iff_exists.mp hindex
  obtain ⟨x, hx, -, hresting⟩ := hu.represents.restingQty_of_find? hu.valid hn
  have hone := hu.valid.consistent.pos x hx
  omega

theorem Usable.cancel (h : e.Usable N m) {e' : Engine} {id : Nat} {ok : Bool}
    (he : e.cancel id = some (e', ok)) : e'.Usable N (m.cancel id).1 := by
  obtain ⟨b, hb, hr⟩ := h.represents.cancel h.valid id
  rw [Engine.cancel, hb] at he
  obtain ⟨rfl, -⟩ := Prod.mk.inj (Option.some.inj he)
  exact ⟨hr, h.valid.cancel id⟩

/-- What rests was placed. -/
theorem Reached.exists_mem_of_mem_prices {calls : List Call} (h : e.Reached N calls) {side : Side}
    {p : Int} (hmem : p ∈ e.book.prices side) : ∃ qty, Call.placeLimit side p qty ∈ calls := by
  rw [h.usable.represents.prices_eq] at hmem
  refine (QueueBook.exists_mem_of_mem_pricesOn_run hmem).resolve_left ?_
  cases side <;> exact List.not_mem_nil

/-- **What `best_bid` means by 0.**  As long as no order is placed at 0, none rests there, and it
means that there are no bids. -/
theorem Reached.bestBid_eq_zero_iff {calls : List Call} (h : e.Reached N calls)
    (hprices : ∀ side p qty, Call.placeLimit side p qty ∈ calls → p ≠ 0) :
    (∀ side, (0 : Int) ∉ e.book.prices side) ∧
      (e.book.bestBid = 0 ↔ e.book.prices .Buy = []) := by
  have hzero : ∀ side, (0 : Int) ∉ e.book.prices side := by
    intro side hmem
    obtain ⟨qty, hcall⟩ := h.exists_mem_of_mem_prices hmem
    exact hprices side 0 qty hcall rfl
  refine ⟨hzero, ?_⟩
  rw [OrderBook.bestBid_eq, OrderBook.best]
  cases hhead : (e.book.prices .Buy).head? with
  | none => simpa using hhead
  | some p =>
    have hmem := List.mem_of_head? hhead
    refine iff_of_false (fun hp ↦ ?_) (List.ne_nil_of_mem hmem)
    exact hzero .Buy (hp ▸ hmem)

end Engine

end MatchingEngine
