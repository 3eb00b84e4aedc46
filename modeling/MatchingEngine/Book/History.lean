import MatchingEngine.Book.Invariants

/-!
# Histories: what each call did

A *history* is a run in which every call leaves an event behind: the call, the reply, and two
quantities the replies do not show — what a successful cancel took off the book, and the remainder
of a placement that found no free slot.  `OrderBook.history` makes the same calls as
`OrderBook.run`, and the events carry its replies.

The second half says where quantity goes: matching moves it from makers to trades
(`restingTotal_matchQueues`), resting adds it and cancelling takes it away, and
`placeOn_placement` puts together all that one placement does.
-/

set_option autoImplicit false

namespace MatchingEngine

open Greedy LevelQueue

/-! ## Histories -/

/-- What one call did. -/
structure Event where
  call : Call
  reply : Reply
  /-- The quantity a successful cancel took off the book. -/
  removed : Int
  /-- The remainder that was dropped because no slot was free. -/
  dropped : Int

namespace Event

def trades (e : Event) : List Trade :=
  match e.reply with
  | .placed _ trades => trades
  | .cancelled _ => []

/-- The id this event gave to an order. -/
def placedId (e : Event) : Option Nat :=
  match e.reply with
  | .placed id _ => some id
  | .cancelled _ => none

/-- The id of the order this event took off the book. -/
def cancelledId (e : Event) : Option Nat :=
  match e.call, e.reply with
  | .cancel id, .cancelled true => some id
  | _, _ => none

/-- The order is off the book for good: it was cancelled, or its remainder was dropped. -/
def Closes (e : Event) (id : Nat) : Prop :=
  e.cancelledId = some id ∨ e.placedId = some id ∧ 0 < e.dropped

end Event

namespace OrderBook

/-- The quantity resting under an id. -/
def restingQty (b : OrderBook) (id : Nat) : Int :=
  match b.index.find? id with
  | none => 0
  | some n => ((b.pool.deref n).map OrderNode.qty).getD 0

/-- The state in which `place_limit` comes to rest the remainder. -/
def afterMatch (b : OrderBook) (side : Side) (price qty : Int) : Option Matching :=
  let s : Matching := { pool := b.pool, index := b.index, qty, trades := [] }
  match side with
  | .Buy => (matchAgainst b.nextId price (b.asks.size + 1) b.asks s).map Prod.snd
  | .Sell => (matchAgainst b.nextId price (b.bids.size + 1) b.bids s).map Prod.snd

/-- The remainder `place_limit` drops: there is one, and the pool has no slot for it. -/
def droppedBy (b : OrderBook) (side : Side) (price qty : Int) : Option Int := do
  let s ← b.afterMatch side price qty
  return if 0 < s.qty ∧ s.pool.freeHead = none then s.qty else 0

/-- Perform a call and record what it did. -/
def record (b : OrderBook) (call : Call) : Option (OrderBook × Event) := do
  let (b', reply) ← b.perform call
  match call with
  | .placeLimit side price qty =>
    let dropped ← b.droppedBy side price qty
    return (b', { call, reply, removed := 0, dropped })
  | .cancel id =>
    let removed := if reply = .cancelled true then b.restingQty id else 0
    return (b', { call, reply, removed, dropped := 0 })

def history : OrderBook → List Call → Option (OrderBook × List Event)
  | b, [] => some (b, [])
  | b, call :: calls => do
    let (b, e) ← b.record call
    let (b, es) ← history b calls
    return (b, e :: es)

end OrderBook

/-! ## Sums over a history -/

/-- The sum of a quantity over the elements of a list that pass a test. -/
def total {α : Type} (p : α → Bool) (f : α → Int) (l : List α) : Int := ((l.filter p).map f).sum

/-- What an order got as a taker. -/
def takerTotal (ts : List Trade) (id : Nat) : Int := total (·.takerId == id) Trade.qty ts

/-- What an order gave as a maker. -/
def makerTotal (ts : List Trade) (id : Nat) : Int := total (·.makerId == id) Trade.qty ts

/-- What successful cancels took off the book under an id. -/
def cancelledTotal (es : List Event) (id : Nat) : Int :=
  total (·.cancelledId == some id) Event.removed es

/-- What placements under an id dropped. -/
def droppedTotal (es : List Event) (id : Nat) : Int :=
  total (·.placedId == some id) Event.dropped es

/-- All the trades of a history, in order. -/
def tradesIn (es : List Event) : List Trade := es.flatMap Event.trades

/-- The order `id` was placed with these parameters. -/
def Placed (es : List Event) (id : Nat) (side : Side) (price qty : Int) : Prop :=
  ∃ e ∈ es, e.call = .placeLimit side price qty ∧ e.placedId = some id

def Trade.Names (t : Trade) (id : Nat) : Prop := t.takerId = id ∨ t.makerId = id

/-- A price a taker on this side cannot object to. -/
def NotWorse : Side → Int → Int → Prop
  | .Buy, price, limit => price ≤ limit
  | .Sell, price, limit => limit ≤ price

/-- A trade joins an earlier order with a later one of the opposite side, at the earlier order's
limit and within the later one's. -/
structure Fair (es : List Event) (t : Trade) : Prop where
  pos : 1 ≤ t.qty
  lt : t.makerId < t.takerId
  parties : ∃ side limit qty qty', Placed es t.takerId side limit qty ∧
    Placed es t.makerId side.opposite t.price qty' ∧ NotWorse side t.price limit

section Total

variable {α : Type} {p : α → Bool} {f : α → Int}

@[simp] theorem total_nil : total p f [] = 0 := rfl

theorem total_append (l r : List α) : total p f (l ++ r) = total p f l + total p f r := by
  rw [total, total, total, List.filter_append, List.map_append, List.sum_append]

theorem total_cons (a : α) (l : List α) :
    total p f (a :: l) = (if p a then f a else 0) + total p f l := by
  rw [total, List.filter_cons]
  split <;> simp [total]

theorem total_filter (q : α → Bool) (l : List α) :
    total p f (l.filter q) = total (fun a ↦ p a && q a) f l := by
  rw [total, total, List.filter_filter]

theorem total_congr {q : α → Bool} {l : List α} (h : ∀ a ∈ l, p a = q a) :
    total p f l = total q f l := by
  rw [total, total, List.filter_congr h]

theorem total_eq_zero {l : List α} (h : ∀ a ∈ l, p a = false) : total p f l = 0 := by
  rw [total, List.filter_eq_nil_iff.mpr fun a ha ↦ by simp [h a ha]]
  rfl

theorem total_nonneg {l : List α} (h : ∀ a ∈ l, 0 ≤ f a) : 0 ≤ total p f l := by
  induction l with
  | nil => exact Int.le_refl 0
  | cons a l ih =>
    have ha := h a List.mem_cons_self
    have hl := ih fun b hb ↦ h b (List.mem_cons_of_mem _ hb)
    rw [total_cons]
    split <;> omega

end Total

theorem tradesIn_append (es es' : List Event) :
    tradesIn (es ++ es') = tradesIn es ++ tradesIn es' :=
  List.flatMap_append

theorem takerTotal_append (ts ts' : List Trade) (id : Nat) :
    takerTotal (ts ++ ts') id = takerTotal ts id + takerTotal ts' id := total_append ts ts'

theorem makerTotal_append (ts ts' : List Trade) (id : Nat) :
    makerTotal (ts ++ ts') id = makerTotal ts id + makerTotal ts' id := total_append ts ts'

/-! ## What a call does to the quantities -/

/-- The quantity a list of orders has under an id. -/
def idTotal (l : List (Int × Resting)) (id : Nat) : Int := total (·.2.id == id) (·.2.qty) l

/-- The quantity resting under an id. -/
def restingTotal {c c' : KeyCompare} (own : Queues c) (opp : Queues c') (id : Nat) : Int :=
  total (·.2.id == id) (·.2.qty) (resting own opp)

section Pair

variable {c c' : KeyCompare} {N k : Nat} {own : Queues c} {opp : Queues c'} {free : List Ptr}
  {index : Index} {t : QueueBook.Settling}

theorem restingTotal_eq_add (own : Queues c) (opp : Queues c') (id : Nat) :
    restingTotal own opp id = idTotal (lots own) id + idTotal (lots opp) id := total_append _ _

theorem restingTotal_symm (id : Nat) : restingTotal own opp id = restingTotal opp own id := by
  rw [restingTotal_eq_add, restingTotal_eq_add, Int.add_comm]

theorem restingTotal_eq_zero {id : Nat} (h : ∀ x ∈ resting own opp, x.2.id ≠ id) :
    restingTotal own opp id = 0 :=
  total_eq_zero fun x hx ↦ by simpa using h x hx

theorem restingTotal_nonneg (h : Consistent N own opp free index) (id : Nat) :
    0 ≤ restingTotal own opp id :=
  total_nonneg fun x hx ↦ by have := h.pos x hx; omega

/-- While ids are unique, the quantity resting under an id is that of one order. -/
theorem restingTotal_eq (h : Consistent N own opp free index) (hn : Numbered k own opp index)
    {x : Int × Resting} (hx : x ∈ resting own opp) : restingTotal own opp x.2.id = x.2.qty := by
  have hids := hn.nodup_ids h
  obtain ⟨l, r, he⟩ := List.append_of_mem hx
  rw [he, List.map_append, List.map_cons, List.nodup_middle, List.nodup_cons, List.mem_append,
    not_or] at hids
  have hl : ∀ y ∈ l, (y.2.id == x.2.id) = false := fun y hy ↦ by
    simpa using fun hyx ↦ hids.1.1 (List.mem_map.mpr ⟨y, hy, hyx⟩)
  have hr : ∀ y ∈ r, (y.2.id == x.2.id) = false := fun y hy ↦ by
    simpa using fun hyx ↦ hids.1.2 (List.mem_map.mpr ⟨y, hy, hyx⟩)
  rw [restingTotal, he, total_append, total_cons, total_eq_zero hl, total_eq_zero hr]
  simp

/-- Matching moves quantity from makers to trades. -/
theorem idTotal_matchQueues (opp : Queues c') (t : QueueBook.Settling) (takerId : Nat) (limit : Int)
    (id : Nat) :
    idTotal (lots opp) id
      = makerTotal (QueueBook.tradesOf takerId (swept (c'.cross · limit) t.qty opp).fills) id
        + idTotal (lots (QueueBook.matchQueues takerId limit opp t).1) id := by
  have h := offered_lots_filter (m := opp) (c'.cross · limit) t.qty (fun x ↦ x.2.id == id)
    fun _ _ ↦ rfl
  have hmaker : makerTotal
      (QueueBook.tradesOf takerId (swept (c'.cross · limit) t.qty opp).fills) id
        = given ((swept (c'.cross · limit) t.qty opp).fills.filter fun f ↦ f.lot.2.id == id) := by
    rw [makerTotal, total, QueueBook.tradesOf, List.filter_map, List.map_map]
    rfl
  have hoffer : ∀ m : Queues c', idTotal (lots m) id
      = offered ((lots m).filter fun x ↦ x.2.id == id) := fun _ ↦ rfl
  rw [hoffer, hoffer, h, hmaker]
  rfl

theorem restingTotal_matchQueues (own : Queues c) (opp : Queues c') (t : QueueBook.Settling)
    (takerId : Nat) (limit : Int) (id : Nat) :
    restingTotal own opp id
      = makerTotal (QueueBook.tradesOf takerId (swept (c'.cross · limit) t.qty opp).fills) id
        + restingTotal own (QueueBook.matchQueues takerId limit opp t).1 id := by
  rw [restingTotal_eq_add, restingTotal_eq_add, idTotal_matchQueues opp t takerId limit id]
  omega

/-- Resting adds quantity under the order's own id. -/
theorem idTotal_restQueue (own : Queues c) (t : QueueBook.Settling) (id' : Nat) (price : Int)
    (ts id : Nat) :
    idTotal (lots (QueueBook.restQueue own t id' price ts).1) id = idTotal (lots own) id
      + if id' = id ∧ 0 < t.qty ∧ t.free ≠ [] then t.qty else 0 := by
  rcases restQueue_cases own t id' price ts with ⟨hstop, he⟩ | ⟨p, free, hq, hf, he⟩
  · rw [he, if_neg fun h ↦ hstop h.2]
    simp
  · have hperm := lots_pushBack (m := own) price ⟨p, id', t.qty, ts⟩
    rw [he, idTotal, total, ((hperm.filter _).map _).sum_eq, ← total, total_cons, idTotal,
      Int.add_comm]
    by_cases hid : id' = id <;> simp [hid, hq, hf]

theorem restingTotal_restQueue (own : Queues c) (opp : Queues c') (t : QueueBook.Settling)
    (id' : Nat) (price : Int) (ts id : Nat) :
    restingTotal (QueueBook.restQueue own t id' price ts).1 opp id = restingTotal own opp id
      + if id' = id ∧ 0 < t.qty ∧ t.free ≠ [] then t.qty else 0 := by
  rw [restingTotal_eq_add, restingTotal_eq_add, idTotal_restQueue]
  omega

/-- Removing an order takes its quantity off the book, and nothing else. -/
theorem idTotal_remove (h : Consistent N own opp free index) (hn : Numbered k own opp index)
    {id : Nat} {n : Ptr} (hid : index.find? id = some n) {l : List (Int × Resting)}
    (hl : ∀ x ∈ l, x ∈ resting own opp) (id' : Nat) :
    idTotal (l.filter fun x ↦ x.2.slot != n) id' = if id' = id then 0 else idTotal l id' := by
  have hslot : ∀ x ∈ l, x.2.slot = n ↔ x.2.id = id := fun x hx ↦ by
    have hx := hl x hx
    refine ⟨fun he ↦ h.id_eq hx (he ▸ hid), fun he ↦ ?_⟩
    have hxi := hn.complete x hx
    rw [he, hid] at hxi
    exact (Option.some_inj.mp hxi).symm
  rw [idTotal, idTotal, total_filter]
  split
  · rename_i he
    refine total_eq_zero fun x hx ↦ ?_
    have hx := hslot x hx
    rw [Bool.and_eq_false_iff, beq_eq_false_iff_ne, bne_eq_false_iff_eq, he, hx]
    exact (em (x.2.id = id)).symm
  · rename_i hne
    refine total_congr fun x hx ↦ ?_
    have hx := hslot x hx
    rw [Bool.eq_iff_iff, Bool.and_eq_true, beq_iff_eq, bne_iff_ne]
    refine ⟨fun h ↦ h.1, ?_⟩
    rintro rfl
    exact ⟨rfl, fun he ↦ hne (hx.mp he)⟩

theorem restingTotal_remove (h : Consistent N own opp free index) (hn : Numbered k own opp index)
    {id : Nat} {n : Ptr} (hid : index.find? id = some n) (id' : Nat) :
    restingTotal (prune (fun r ↦ r.slot != n) own) (prune (fun r ↦ r.slot != n) opp) id'
      = if id' = id then 0 else restingTotal own opp id' := by
  rw [restingTotal, resting_prune]
  exact idTotal_remove h hn hid (fun _ hx ↦ hx) id'

/-- What the placement of the order `k + 1` does: its trades, what it leaves of the two sides, and
the remainder it drops. -/
structure Placement (k : Nat) (own own' : Queues c) (opp opp' : Queues c') (price qty : Int)
    (trades : List Trade) (dropped : Int) : Prop where
  taker : ∀ t ∈ trades, t.takerId = k + 1
  maker : ∀ t ∈ trades, 1 ≤ t.qty ∧ c'.cross t.price price = true ∧
    ∃ x ∈ lots opp, x.1 = t.price ∧ x.2.id = t.makerId
  others : ∀ id ≤ k, restingTotal own opp id = makerTotal trades id + restingTotal own' opp' id
  self : 0 < qty → qty = takerTotal trades (k + 1) + restingTotal own' opp' (k + 1) + dropped
  own : ∀ x ∈ lots own', (∃ y ∈ lots own, tag y = tag x) ∨ x.1 = price ∧ x.2.id = k + 1
  opp : ∀ x ∈ lots opp', ∃ y ∈ lots opp, tag y = tag x
  nonneg : 0 ≤ dropped
  gone : 0 < dropped → ∀ x ∈ resting own' opp', x.2.id ≠ k + 1

/-- The remainder a placement drops. -/
def QueueBook.Settling.dropped (s : QueueBook.Settling) : Int :=
  if 0 < s.qty ∧ s.free = [] then s.qty else 0

theorem QueueBook.Settling.dropped_nonneg (s : QueueBook.Settling) : 0 ≤ s.dropped := by
  rw [QueueBook.Settling.dropped]
  split <;> omega

theorem QueueBook.Settling.free_eq_nil {s : QueueBook.Settling} (h : 0 < s.dropped) :
    s.free = [] := by
  rw [QueueBook.Settling.dropped] at h
  split at h
  · rename_i hc
    exact hc.2
  · simp at h

theorem takerTotal_tradesOf (takerId : Nat) (fills : List (Fill (Int × Resting))) :
    takerTotal (QueueBook.tradesOf takerId fills) takerId = given fills := by
  rw [takerTotal, total, QueueBook.tradesOf, List.filter_map, List.filter_eq_self.mpr (by simp),
    List.map_map]
  rfl

/-- Matching puts nobody under an id. -/
theorem id_ne_of_mem_matchQueues {id : Nat} (hne : ∀ x ∈ resting own opp, x.2.id ≠ id)
    (takerId : Nat) (price : Int) {x : Int × Resting}
    (hx : x ∈ resting own (QueueBook.matchQueues takerId price opp t).1) : x.2.id ≠ id := by
  obtain ⟨y, hy, he⟩ := exists_of_mem_matchQueues takerId price hx
  simp only [tag, Prod.mk.injEq] at he
  exact he.2.2 ▸ hne y hy

/-- What a new order wants is traded, rests or is dropped. -/
theorem qty_placeOn {id : Nat} (hne : ∀ x ∈ resting own opp, x.2.id ≠ id) (hq : 0 < t.qty)
    (price : Int) (ts : Nat) :
    t.qty = given (swept (c'.cross · price) t.qty opp).fills
      + restingTotal (QueueBook.placeOn own opp t id price ts).1
          (QueueBook.placeOn own opp t id price ts).2.1 id
      + (QueueBook.matchQueues id price opp t).2.dropped := by
  have hgiven := given_swept_add_left (c'.cross · price) t.qty opp
  have hleft := left_swept_nonneg hq.le (c'.cross · price) opp
  have hrest := restingTotal_restQueue own (QueueBook.matchQueues id price opp t).1
    (QueueBook.matchQueues id price opp t).2 id price ts id
  rw [restingTotal_eq_zero fun x hx ↦ id_ne_of_mem_matchQueues hne id price hx, Int.zero_add]
    at hrest
  have hqty : (QueueBook.matchQueues id price opp t).2.qty
      = (swept (c'.cross · price) t.qty opp).left := rfl
  simp only [QueueBook.placeOn, hrest, QueueBook.Settling.dropped, hqty]
  by_cases hfree : (QueueBook.matchQueues id price opp t).2.free = []
  · simp only [hfree, ne_eq, not_true_eq_false, and_false, if_false, and_true]
    split <;> omega
  · simp only [hfree, ne_eq, not_false_eq_true, and_true, true_and, and_false, if_false]
    split <;> omega

theorem placeOn_placement (h : Consistent N own opp t.free t.index)
    (hn : Numbered k own opp t.index) (htrades : t.trades = []) (price : Int) (ts : Nat) :
    Placement k own (QueueBook.placeOn own opp t (k + 1) price ts).1 opp
      (QueueBook.placeOn own opp t (k + 1) price ts).2.1 price t.qty
      (QueueBook.placeOn own opp t (k + 1) price ts).2.2.1.trades
      (QueueBook.matchQueues (k + 1) price opp t).2.dropped := by
  have hpos : ∀ x ∈ lots opp, 1 ≤ size x := fun x hx ↦ h.pos x (mem_resting.mpr (.inr hx))
  have hle : ∀ x ∈ resting own opp, x.2.id ≠ k + 1 := fun x hx ↦ by have := hn.le x hx; omega
  have htr : (QueueBook.placeOn own opp t (k + 1) price ts).2.2.1.trades
      = QueueBook.tradesOf (k + 1) (swept (c'.cross · price) t.qty opp).fills := by
    rw [trades_placeOn, htrades, List.nil_append]
  rw [htr]
  constructor
  case taker =>
    intro x hx
    obtain ⟨f, -, rfl⟩ := List.mem_map.mp hx
    rfl
  case maker =>
    intro x hx
    obtain ⟨f, hf, rfl⟩ := List.mem_map.mp hx
    obtain ⟨hlot, hcross, hone, -⟩ := fill_spec hpos f hf
    exact ⟨hone, hcross, f.lot, hlot, rfl, rfl⟩
  case others =>
    intro id hid
    have hm := restingTotal_matchQueues own opp t (k + 1) price id
    have hr := restingTotal_restQueue own (QueueBook.matchQueues (k + 1) price opp t).1
      (QueueBook.matchQueues (k + 1) price opp t).2 (k + 1) price ts id
    rw [if_neg (fun hc ↦ by omega), Int.add_zero] at hr
    exact hm.trans (congrArg _ hr.symm)
  case self =>
    intro hq
    rw [takerTotal_tradesOf]
    exact qty_placeOn hle hq price ts
  case own =>
    intro x hx
    simp only [QueueBook.placeOn] at hx
    rcases restQueue_cases own (QueueBook.matchQueues (k + 1) price opp t).2 (k + 1) price ts with
      ⟨-, he⟩ | ⟨p, free, -, -, he⟩
    · rw [he] at hx
      exact .inl ⟨x, hx, rfl⟩
    · rw [he] at hx
      rcases List.mem_cons.mp ((lots_pushBack price _).mem_iff.mp hx) with rfl | hx
      · exact .inr ⟨rfl, rfl⟩
      · exact .inl ⟨x, hx, rfl⟩
  case opp => exact fun x hx ↦ exists_of_mem_afterSweep hx
  case nonneg => exact QueueBook.Settling.dropped_nonneg _
  case gone =>
    intro hdrop x hx
    rcases restQueue_cases own (QueueBook.matchQueues (k + 1) price opp t).2 (k + 1) price ts with
      ⟨-, he⟩ | ⟨p, free, -, hf, -⟩
    · simp only [QueueBook.placeOn, he] at hx
      exact id_ne_of_mem_matchQueues hle (k + 1) price hx
    · rw [QueueBook.Settling.free_eq_nil hdrop] at hf
      simp at hf

end Pair

end MatchingEngine
