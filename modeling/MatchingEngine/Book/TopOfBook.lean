import MatchingEngine.Book.OpenOrders

/-!
# The top of the book

The best price of each side and the quantity there.  `best_bid` and `best_ask` return a price also
when a side is empty, `0` and the largest one, so that a caller has to guess; `bookTop` is what the
guess is about.

The quantity at a price is added up in 64 bits, and is what rests there as long as that fits
(`qtyAt_exact_iff`).  A placement adds at most its own quantity, at its own price
(`Valid.totalAt_placeLimit_le`).

A placement may change the top in any way.  A cancel changes it only if the order is at the best
price of its side (`Standing.bookTop_cancel`).
-/

set_option autoImplicit false

namespace MatchingEngine

open LevelQueue

/-- The best price and the quantity there, for each side that has orders. -/
structure BookTop where
  bid : Option (Int × Int)
  ask : Option (Int × Int)
  deriving DecidableEq

namespace OrderBook

/-- The best price of a side. -/
def best (b : OrderBook) (side : Side) : Option Int := (b.prices side).head?

/-- The quantity resting on a side at a price, added up without a limit. -/
def totalAt (b : OrderBook) (side : Side) (price : Int) : Option Int :=
  (b.ordersAt side price).map fun orders ↦ (orders.map Prod.snd).sum

/-- The best price of a side, if there is one, and all that rests there. -/
def sideTop (b : OrderBook) (side : Side) : Option (Option (Int × Int)) :=
  match b.best side with
  | none => some none
  | some price => (b.totalAt side price).map fun qty ↦ some (price, qty)

/-- The top of the book. -/
def bookTop (b : OrderBook) : Option BookTop := do
  let bid ← b.sideTop .Buy
  let ask ← b.sideTop .Sell
  return { bid, ask }

/-- Does the order under this id rest at the best price of its side? -/
def atTop (b : OrderBook) (id : Nat) : Bool :=
  match b.orderOf id with
  | none => false
  | some x => b.best x.side = some x.price

/-- `best_bid` takes 0 for no price. -/
theorem bestBid_eq (b : OrderBook) : b.bestBid = (b.best .Buy).getD 0 := by
  rw [bestBid, best, prices, SortedMap.head?_keys]
  cases b.bids.begin? <;> rfl

theorem bestAsk_eq (b : OrderBook) : b.bestAsk = (b.best .Sell).getD priceMax := by
  rw [bestAsk, best, prices, SortedMap.head?_keys]
  cases b.asks.begin? <;> rfl

theorem isGreatest_best {b : OrderBook} {p : Int} (h : b.best .Buy = some p) :
    IsGreatest {x | x ∈ b.prices .Buy} p := by
  refine ⟨List.mem_of_head? h, fun x hx ↦ ?_⟩
  rcases SortedMap.eq_or_lt_of_head?_keys h hx with rfl | hlt
  · exact le_rfl
  · exact le_of_lt hlt

theorem isLeast_best {b : OrderBook} {p : Int} (h : b.best .Sell = some p) :
    IsLeast {x | x ∈ b.prices .Sell} p := by
  refine ⟨List.mem_of_head? h, fun x hx ↦ ?_⟩
  rcases SortedMap.eq_or_lt_of_head?_keys h hx with rfl | hlt
  · exact le_rfl
  · exact le_of_lt hlt

end OrderBook

/-! ## Reading the queues -/

namespace QueueBook

/-- The prices at which a side has a queue. -/
def pricesOn (m : QueueBook) : Side → List Int
  | .Buy => m.bids.keys
  | .Sell => m.asks.keys

def totalAt (m : QueueBook) (side : Side) (price : Int) : Int :=
  ((m.queueAt side price).map Resting.qty).sum

def sideTop (m : QueueBook) (side : Side) : Option (Int × Int) :=
  (m.pricesOn side).head?.map fun price ↦ (price, m.totalAt side price)

def bookTop (m : QueueBook) : BookTop := ⟨m.sideTop .Buy, m.sideTop .Sell⟩

section Prices

variable {c c' : KeyCompare} {own : Queues c} {opp : Queues c'} {s : Settling} {id : Nat}
  {price : Int} {ts : Nat} {p : Int}

theorem mem_keys_matchQueues (id : Nat) (h : p ∈ (matchQueues id price opp s).1.keys) :
    p ∈ opp.keys :=
  (Greedy.sweep_keys s.qty opp.entries).sublist.subset h

theorem mem_keys_restQueue (h : p ∈ (restQueue own s id price ts).1.keys) :
    p ∈ own.keys ∨ p = price := by
  rcases restQueue_cases own s id price ts with ⟨-, he⟩ | ⟨q, free, -, -, he⟩
  · rw [he] at h
    exact .inl h
  · rw [he] at h
    obtain ⟨e, hmem, rfl⟩ := List.mem_map.mp h
    rcases SortedMap.mem_insert.mp hmem with rfl | ⟨-, hmem⟩
    · exact .inr rfl
    · exact .inl (List.mem_map_of_mem hmem)

end Prices

variable {m : QueueBook}

/-- A placement adds at most one price, that of the order on its own side. -/
theorem mem_pricesOn_placeLimit {side side' : Side} {price qty p : Int}
    (h : p ∈ (m.placeLimit side price qty []).1.pricesOn side') :
    p ∈ m.pricesOn side' ∨ side' = side ∧ p = price := by
  cases side <;> cases side'
  · exact (mem_keys_restQueue h).imp_right (⟨rfl, ·⟩)
  · exact .inl (mem_keys_matchQueues m.nextId h)
  · exact .inl (mem_keys_matchQueues m.nextId h)
  · exact (mem_keys_restQueue h).imp_right (⟨rfl, ·⟩)

theorem mem_pricesOn_cancel {id : Nat} {side : Side} {p : Int}
    (h : p ∈ (m.cancel id).1.pricesOn side) : p ∈ m.pricesOn side := by
  rw [cancel] at h
  split at h
  · exact h
  · cases side with
    | Buy => exact mem_keys_prune h
    | Sell => exact mem_keys_prune h

end QueueBook

/-- The first price stays if its queue does. -/
theorem head?_keys_prune {c : KeyCompare} {own : Queues c} {keep : Resting → Bool}
    (hfull : Full own) (hkeep : ∀ p, own.keys.head? = some p → ∀ r ∈ queue own p, keep r = true) :
    (prune keep own).keys.head? = own.keys.head? := by
  rw [SortedMap.head?_keys, SortedMap.head?_keys, begin?_prune hfull]
  intro e he a ha
  refine hkeep e.1 (by rw [SortedMap.head?_keys, he]; rfl) a ?_
  rwa [queue_eq_of_mem (List.mem_of_head? he)]

section Read

variable {N : Nat} {b : OrderBook} {m : QueueBook}

theorem Represents.prices_eq (h : Represents N b m) (side : Side) :
    b.prices side = m.pricesOn side := by
  rw [h.eq_withPool]
  cases side <;> simp [OrderBook.prices, QueueBook.pricesOn, QueueBook.withPool, SortedMap.keys,
    Function.comp_def]

theorem Represents.totalAt_eq (h : Represents N b m) (hv : m.Valid N) (side : Side) (price : Int) :
    b.totalAt side price = some (m.totalAt side price) := by
  rw [OrderBook.totalAt, h.ordersAt hv, Option.map_some, List.map_map]
  rfl

theorem Represents.sideTop_eq (h : Represents N b m) (hv : m.Valid N) (side : Side) :
    b.sideTop side = some (m.sideTop side) := by
  rw [OrderBook.sideTop, OrderBook.best, h.prices_eq, QueueBook.sideTop]
  cases (m.pricesOn side).head? with
  | none => rfl
  | some price =>
    dsimp only
    rw [h.totalAt_eq hv]
    rfl

theorem Represents.bookTop_eq (h : Represents N b m) (hv : m.Valid N) :
    b.bookTop = some m.bookTop := by
  rw [OrderBook.bookTop, h.sideTop_eq hv, h.sideTop_eq hv]
  rfl

end Read

/-! ## Quantities -/

/-- A number fits into 64 bits if wrapping does not change it. -/
theorem bmod_eq_self_iff {x : Int} : x.bmod (2 ^ 64) = x ↔ -2 ^ 63 ≤ x ∧ x < 2 ^ 63 := by
  rw [Int.bmod_def]
  split <;> omega

/-- Adding up in 64 bits wraps the exact sum. -/
theorem foldl_bmod (l : List Int) (acc : Int) :
    l.foldl (fun q x ↦ (q + x).bmod (2 ^ 64)) (acc.bmod (2 ^ 64))
      = (acc + l.sum).bmod (2 ^ 64) := by
  induction l generalizing acc with
  | nil => simp
  | cons x l ih => rw [List.foldl_cons, Int.bmod_add_bmod, ih, List.sum_cons, Int.add_assoc]

theorem sum_le_of_isPrefix {l l' : List Int} (hpos : ∀ x ∈ l, 1 ≤ x) (h : l' <+: l) :
    0 ≤ l'.sum ∧ l'.sum ≤ l.sum := by
  obtain ⟨r, rfl⟩ := h
  have hnonneg : ∀ {r : List Int}, (∀ x ∈ r, 1 ≤ x) → 0 ≤ r.sum := fun hr ↦
    List.sum_nonneg fun x hx ↦ Int.le_of_lt (hr x hx)
  have hl := hnonneg fun x hx ↦ hpos x (List.mem_append_left r hx)
  have hr := hnonneg fun x hx ↦ hpos x (List.mem_append_right l' hx)
  rw [List.sum_append]
  omega

namespace QueueBook

theorem qtyAt_eq_bmod (m : QueueBook) (side : Side) (price : Int) :
    m.qtyAt side price = (m.totalAt side price).bmod (2 ^ 64) := by
  have h := foldl_bmod ((m.queueAt side price).map Resting.qty) 0
  rw [List.foldl_map, Int.zero_bmod, Int.zero_add] at h
  exact h

theorem Valid.qty_pos {N : Nat} {m : QueueBook} (hv : m.Valid N) (side : Side) (price : Int) :
    ∀ x ∈ (m.queueAt side price).map Resting.qty, 1 ≤ x := by
  intro x hx
  obtain ⟨r, hr, rfl⟩ := List.mem_map.mp hx
  exact hv.consistent.pos (price, r) (mem_resting_iff.mpr ⟨side, hr⟩)

/-- A level that is there holds a positive quantity. -/
theorem Valid.totalAt_pos_iff {N : Nat} {m : QueueBook} (hv : m.Valid N) (side : Side)
    (price : Int) : 0 < m.totalAt side price ↔ m.queueAt side price ≠ [] := by
  have hpos := hv.qty_pos side price
  rw [totalAt]
  cases hq : m.queueAt side price with
  | nil => simp
  | cons r q =>
    rw [hq, List.map_cons, List.forall_mem_cons] at hpos
    have h := (sum_le_of_isPrefix hpos.2 List.nil_prefix).2
    simp only [List.map_cons, List.sum_cons, List.sum_nil] at h ⊢
    exact iff_of_true (by omega) (List.cons_ne_nil _ _)

end QueueBook

/-- Something rests at every price of the book. -/
theorem QueueBook.Valid.queueAt_ne_nil {N : Nat} {m : QueueBook} (hv : m.Valid N) {side : Side}
    {price : Int} (h : price ∈ m.pricesOn side) : m.queueAt side price ≠ [] := by
  cases side with
  | Buy =>
    obtain ⟨e, he, rfl⟩ := List.mem_map.mp h
    rw [QueueBook.queueAt, queue_eq_of_mem he]
    exact hv.consistent.fullOwn e he
  | Sell =>
    obtain ⟨e, he, rfl⟩ := List.mem_map.mp h
    rw [QueueBook.queueAt, queue_eq_of_mem he]
    exact hv.consistent.fullOpp e he

/-- **`qty_at` is right if and only if the quantity fits.** -/
theorem qtyAt_exact_iff {N : Nat} {calls : List Call} {b : OrderBook} {replies : List Reply}
    (hrun : (OrderBook.new N).run calls = some (b, replies)) (side : Side) (price : Int) :
    (∃ orders q, b.ordersAt side price = some orders ∧ b.qtyAt side price = some q ∧
      (∀ done, done <+: orders → -2 ^ 63 ≤ (done.map Prod.snd).sum ∧
        (done.map Prod.snd).sum < 2 ^ 63) ∧
      q = (orders.map Prod.snd).sum ∧ 0 ≤ q ∧ (q = 0 ↔ b.levelAt side price = none)) ↔
    ∃ total, b.totalAt side price = some total ∧ total < 2 ^ 63 := by
  obtain ⟨h, hv⟩ := represents_of_run hrun
  generalize ((QueueBook.new N).run calls).1 = m at h hv
  have hsum : ((m.queueAt side price).map fun r ↦ (r.id, r.qty)).map Prod.snd
      = (m.queueAt side price).map Resting.qty := List.map_map
  rw [h.ordersAt hv, h.qtyAt hv, h.totalAt_eq hv, h.levelAt_of_queueAt hv, m.qtyAt_eq_bmod]
  constructor
  · rintro ⟨orders, q, ho, -, hsums, -⟩
    obtain rfl := Option.some_inj.mp ho
    have hlt := (hsums _ List.prefix_rfl).2
    rw [hsum] at hlt
    exact ⟨_, rfl, hlt⟩
  · rintro ⟨total, ht, hlt⟩
    obtain rfl := Option.some_inj.mp ht
    -- every sum on the way is at most the last one
    have hbounds : ∀ done, done <+: (m.queueAt side price).map (fun r ↦ (r.id, r.qty)) →
        0 ≤ (done.map Prod.snd).sum ∧ (done.map Prod.snd).sum ≤ m.totalAt side price := by
      intro done hdone
      have h := sum_le_of_isPrefix (hv.qty_pos side price) (hsum ▸ hdone.map Prod.snd)
      exact h
    have htotal := hv.totalAt_pos_iff side price
    have hnonneg : 0 ≤ m.totalAt side price := (hbounds [] List.nil_prefix).2
    rw [bmod_eq_self_iff.mpr ⟨by omega, hlt⟩]
    refine ⟨_, _, rfl, rfl, fun done hdone ↦ ?_, by rw [hsum]; rfl, hnonneg, ?_⟩
    · have := hbounds done hdone
      omega
    · simp only [ite_eq_left_iff, reduceCtorEq, imp_false, not_not]
      refine ⟨fun hzero ↦ ?_, fun hq ↦ ?_⟩
      · by_contra hq
        have := htotal.mpr hq
        omega
      · have := mt htotal.mp (not_not.mpr hq)
        omega

/-- Three and four are seven. -/
theorem qtyAt_exact_two_orders : ∃ b replies,
    (OrderBook.new 2).run [.placeLimit .Buy 100 3, .placeLimit .Buy 100 4] = some (b, replies) ∧
      b.totalAt .Buy 100 = some 7 ∧ b.qtyAt .Buy 100 = some 7 := by
  obtain ⟨b, replies, hrun, htotal⟩ : ∃ b replies,
      (OrderBook.new 2).run [.placeLimit .Buy 100 3, .placeLimit .Buy 100 4] = some (b, replies) ∧
        b.totalAt .Buy 100 = some 7 := ⟨_, _, rfl, rfl⟩
  obtain ⟨orders, q, ho, hq, -, hsum, -⟩ :=
    (qtyAt_exact_iff hrun .Buy 100).mpr ⟨7, htotal, by decide⟩
  rw [OrderBook.totalAt, ho, Option.map_some, ← hsum] at htotal
  exact ⟨b, replies, hrun, by rw [OrderBook.totalAt, ho, Option.map_some, ← hsum, htotal],
    hq.trans htotal⟩

/-- **A level can hold more than fits**: of two orders of the largest quantity `qty_at` makes minus
two. -/
theorem exists_qtyAt_negative : ∃ b replies,
    (OrderBook.new 2).run [.placeLimit .Buy 100 (2 ^ 63 - 1), .placeLimit .Buy 100 (2 ^ 63 - 1)]
      = some (b, replies) ∧
    b.totalAt .Buy 100 = some (2 ^ 64 - 2) ∧ b.qtyAt .Buy 100 = some (-2) := ⟨_, _, rfl, rfl, rfl⟩

/-! ## What a call adds -/

section Added

variable {c c' : KeyCompare} {own : Queues c} {opp : Queues c'} {t : QueueBook.Settling}

theorem sum_queue_eq_offered (own : Queues c) (p : Int) :
    ((queue own p).map Resting.qty).sum = Greedy.offered ((lots own).filter fun x ↦ x.1 = p) := by
  rw [queue_eq_filter, List.map_map]
  rfl

/-- Serving takes away. -/
theorem sum_queue_afterSweep_le (hpos : ∀ x ∈ lots opp, 1 ≤ Greedy.size x) (cross : Int → Bool)
    (qty p : Int) :
    ((queue (afterSweep cross qty opp) p).map Resting.qty).sum
      ≤ ((queue opp p).map Resting.qty).sum := by
  have hmoved := offered_lots_filter (m := opp) cross qty (fun x ↦ x.1 = p) fun _ _ ↦ rfl
  have hgiven : 0 ≤ Greedy.given ((swept cross qty opp).fills.filter fun f ↦ f.lot.1 = p) := by
    refine List.sum_nonneg fun x hx ↦ ?_
    obtain ⟨f, hf, rfl⟩ := List.mem_map.mp hx
    exact Int.le_of_lt (fill_spec hpos f (List.mem_of_mem_filter hf)).2.2.1
  rw [sum_queue_eq_offered, sum_queue_eq_offered]
  omega

/-- A taker leaves no more on its own side than it came with. -/
theorem sum_queue_placeOn_le (own : Queues c) (hpos : ∀ x ∈ lots opp, 1 ≤ Greedy.size x) (id : Nat)
    (price : Int) (ts : Nat) (p : Int) :
    ((queue (QueueBook.placeOn own opp t id price ts).1 p).map Resting.qty).sum
      ≤ ((queue own p).map Resting.qty).sum + if p = price then max 0 t.qty else 0 := by
  have hqueue := congrArg (List.map Prod.snd) (queue_placeOn own opp t id price ts p)
  have hle : (QueueBook.matchQueues id price opp t).2.qty ≤ t.qty := by
    have hgiven : 0 ≤ Greedy.given (swept (c'.cross · price) t.qty opp).fills := by
      refine List.sum_nonneg fun x hx ↦ ?_
      obtain ⟨f, hf, rfl⟩ := List.mem_map.mp hx
      exact Int.le_of_lt (fill_spec hpos f hf).2.2.1
    have := sub_given opp t id price
    omega
  rw [List.map_map] at hqueue
  change (queue (QueueBook.placeOn own opp t id price ts).1 p).map Resting.qty = _ at hqueue
  rw [hqueue]
  split
  · rename_i hrests
    rw [if_pos hrests.1, List.map_append, List.map_map, List.sum_append, List.map_singleton,
      List.sum_singleton]
    show ((queue own p).map Resting.qty).sum + _ ≤ _
    omega
  · rw [List.map_map]
    show ((queue own p).map Resting.qty).sum ≤ _
    split <;> omega

end Added

namespace QueueBook

variable {N : Nat} {m : QueueBook}

/-- **A placement adds at most its own quantity**, at its own price. -/
theorem Valid.totalAt_placeLimit_le (hv : m.Valid N) (side : Side) (price qty : Int) (side' : Side)
    (p : Int) :
    (m.placeLimit side price qty []).1.totalAt side' p
      ≤ m.totalAt side' p + if side' = side ∧ p = price then max 0 qty else 0 := by
  have hbids : ∀ x ∈ lots m.bids, 1 ≤ Greedy.size x := fun x hx ↦
    hv.consistent.pos x (mem_resting.mpr (.inl hx))
  have hasks : ∀ x ∈ lots m.asks, 1 ≤ Greedy.size x := fun x hx ↦
    hv.consistent.pos x (mem_resting.mpr (.inr hx))
  cases side <;> cases side'
  · simp only [true_and]
    exact sum_queue_placeOn_le (t := ⟨m.index, m.free, qty, []⟩) m.bids hasks m.nextId price
      m.nextTs p
  · simp only [reduceCtorEq, false_and, if_false, Int.add_zero]
    exact sum_queue_afterSweep_le hasks (KeyCompare.less.cross · price) qty p
  · simp only [reduceCtorEq, false_and, if_false, Int.add_zero]
    exact sum_queue_afterSweep_le hbids (KeyCompare.greater.cross · price) qty p
  · simp only [true_and]
    exact sum_queue_placeOn_le (t := ⟨m.index, m.free, qty, []⟩) m.asks hbids m.nextId price
      m.nextTs p

theorem Valid.totalAt_cancel_le (hv : m.Valid N) (id : Nat) (side : Side) (p : Int) :
    (m.cancel id).1.totalAt side p ≤ m.totalAt side p := by
  rw [QueueBook.cancel]
  split
  · exact le_rfl
  · rename_i n _
    rw [totalAt, queueAt_remove]
    exact (List.filter_sublist.map Resting.qty).sum_le_sum fun x hx ↦
      Int.le_of_lt (hv.qty_pos side p x hx)

/-- Nothing rests where there is no level. -/
theorem totalAt_eq_zero {side : Side} {p : Int} (h : p ∉ m.pricesOn side) :
    m.totalAt side p = 0 := by
  have hqueue : m.queueAt side p = [] := by
    cases side with
    | Buy | Sell =>
      rw [queueAt, queue, (SortedMap.find?_eq_none_iff _).mpr h]
      rfl
  rw [totalAt, hqueue]
  rfl

end QueueBook

/-! ## Calls -/

namespace Engine

variable {N k : Nat} {e e' : Engine} {m : QueueBook}

theorem Standing.bookTop (h : e.Standing N k m) : e.book.bookTop = some m.bookTop :=
  h.represents.bookTop_eq h.valid

/-- **A cancel further down** does not change the top. -/
theorem Standing.bookTop_cancel (h : e.Standing N k m) {id : Nat} (hid : e.book.atTop id = false)
    {ok : Bool} (he : e.cancel id = some (e', ok)) : e'.book.bookTop = e.book.bookTop := by
  obtain ⟨e₁, he₁, hs⟩ := h.cancel id
  obtain ⟨rfl, -⟩ : e₁ = e' ∧ _ = ok := by simpa [he₁] using he
  rw [hs.bookTop, h.bookTop, Option.some_inj, QueueBook.cancel]
  cases hfind : m.index.find? id with
  | none => rfl
  | some n =>
    obtain ⟨⟨price, r⟩, hx, rfl, rfl⟩ := h.valid.consistent.sound id n hfind
    obtain ⟨side, hr⟩ := QueueBook.mem_resting_iff.mp hx
    obtain ⟨x, hx', rfl, rfl⟩ := h.orderOf_eq side hr
    have hbest : (m.pricesOn x.side).head? ≠ some x.price := by
      simpa [OrderBook.atTop, hx', OrderBook.best, h.represents.prices_eq] using hid
    -- no order of a first queue is in the slot
    have hkeep : ∀ s p, (m.pricesOn s).head? = some p → ∀ a ∈ m.queueAt s p,
        (a.slot != r.slot) = true := by
      intro s p hp a ha
      rw [bne_iff_ne]
      intro hslot
      obtain ⟨rfl, rfl⟩ := Prod.mk.inj (h.valid.queue_eq_of_slot ha hr hslot)
      exact hbest hp
    have hside : ∀ s, (m.remove r.id r.slot).sideTop s = m.sideTop s := by
      intro s
      have hhead : ((m.remove r.id r.slot).pricesOn s).head? = (m.pricesOn s).head? := by
        cases s with
        | Buy => exact head?_keys_prune h.valid.consistent.fullOwn (hkeep .Buy)
        | Sell => exact head?_keys_prune h.valid.consistent.fullOpp (hkeep .Sell)
      rw [QueueBook.sideTop, QueueBook.sideTop, hhead]
      cases hp : (m.pricesOn s).head? with
      | none => rfl
      | some p =>
        rw [Option.map_some, Option.map_some, QueueBook.totalAt, QueueBook.queueAt_remove,
          List.filter_eq_self.mpr (hkeep s p hp)]
        rfl
    show (m.remove r.id r.slot).bookTop = m.bookTop
    rw [QueueBook.bookTop, QueueBook.bookTop, hside, hside]

end Engine

end MatchingEngine
