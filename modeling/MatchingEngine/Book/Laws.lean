import MatchingEngine.Book.Capacity

/-!
# How calls compose

Three laws about more than one call.

* An order may be *split*: placed in two parts, it trades with the same orders at the same prices
  and leaves the opposite side exactly as it would have been (`placeLimit_split`).
* An order that has not traded may be *taken back*: cancelling it restores the book, with every
  pointer and the order of the free-list (`cancel_placeLimit`).
* A placement and the cancel of an order that it does not trade with *commute*
  (`placeLimit_cancel_comm`).

The second is about the code's own state.  It rests on the fact that the queues determine the
pointers (`Represents.unique`).  The last two depend on the new id not being in use.
-/

set_option autoImplicit false

namespace MatchingEngine

open Greedy LevelQueue LinkedList

/-! ## The queues determine the book -/

section Unique

variable {c c' : KeyCompare} {N : Nat} {pool pool' : ObjectPool OrderNode} {side side' : Side}
  {own : Queues c} {opp : Queues c'} {free : List Ptr} {index : Index}

/-- What a pool holds for a queue is determined by the queue. -/
theorem Holds.slots_eq {price : Int} {q : List Resting} (h : Holds pool side price q)
    (h' : Holds pool' side price q) : ∀ p ∈ q.map Resting.slot, pool.slots p = pool'.slots p := by
  intro p hp
  obtain ⟨r, hr, rfl⟩ := List.mem_map.mp hp
  obtain ⟨xs, ys, rfl⟩ := List.append_of_mem hr
  rw [ObjectPool.deref_eq_some_iff.mp h.deref_eq, ObjectPool.deref_eq_some_iff.mp h'.deref_eq]

theorem slots_eq_of_holds (h : ∀ e ∈ own.entries, Holds pool side e.1 e.2)
    (h' : ∀ e ∈ own.entries, Holds pool' side e.1 e.2) :
    ∀ p ∈ slots own, pool.slots p = pool'.slots p := by
  intro p hp
  obtain ⟨x, hx, rfl⟩ := List.mem_map.mp hp
  obtain ⟨q, hq, hr⟩ := mem_lots.mp hx
  exact (h _ hq).slots_eq (h' _ hq) _ (List.mem_map_of_mem hr)

/-- **Nothing in the pool is left open.**  Every slot is in a queue or on the free-list. -/
theorem Layout.unique (h : Layout N pool side own side' opp free)
    (h' : Layout N pool' side own side' opp free) (hc : Consistent N own opp free index) :
    pool = pool' := by
  have hchain : ∀ p ∈ free, pool.slots p = pool'.slots p := by
    intro p hp
    obtain ⟨q, hq, hq'⟩ := h.chain.next_eq h'.chain p hp
    rw [ObjectPool.nextFree_eq_some_iff.mp hq, ObjectPool.nextFree_eq_some_iff.mp hq']
  have hslots : pool.slots = pool'.slots := by
    funext p
    by_cases hp : p < N
    · have hmem := hc.partition.mem_iff.mpr (List.mem_range.mpr hp)
      rw [List.mem_append, List.mem_append] at hmem
      rcases hmem with hmem | hmem | hmem
      · exact hchain p hmem
      · exact slots_eq_of_holds h.holdsOwn h'.holdsOwn p hmem
      · exact slots_eq_of_holds h.holdsOpp h'.holdsOpp p hmem
    · have hnone : ∀ {s : Option (Slot OrderNode)}, s.isSome = decide (p < N) → s = none := by
        intro s hs
        rw [decide_eq_false hp] at hs
        exact Option.not_isSome_iff_eq_none.mp (by rw [hs]; decide)
      rw [hnone (h.slab p), hnone (h'.slab p)]
  obtain ⟨cap, slots, head, used⟩ := pool
  obtain ⟨cap', slots', head', used'⟩ := pool'
  obtain rfl : slots = slots' := hslots
  obtain rfl : cap = cap' := h.capacity.trans h'.capacity.symm
  obtain rfl : head = head' := h.chain.head_eq.trans h'.chain.head_eq.symm
  obtain rfl : used = used' := h.inUse.trans h'.inUse.symm
  rfl

/-- **The queues determine the book.** -/
theorem Represents.unique {b b' : OrderBook} {m : QueueBook} (h : Represents N b m)
    (h' : Represents N b' m) (hv : m.Valid N) : b = b' := by
  rw [h.eq_withPool, h'.eq_withPool, h.layout.unique h'.layout hv.consistent]

end Unique

/-! ## Splitting an order -/

namespace OrderBook

/-- Two books have the same levels on a side, with the same nodes in them. -/
def SameSide (b b' : OrderBook) (side : Side) : Prop :=
  ∀ price, b.levelAt side price = b'.levelAt side price ∧
    ∀ lvl, b.levelAt side price = some lvl → ∃ ps, b.nodesFromHead lvl = some ps ∧
      b'.nodesFromHead lvl = some ps ∧ ∀ p ∈ ps, ∃ x, b.pool.deref p = some x ∧
        b'.pool.deref p = some x

end OrderBook

/-- What a list of trades takes from an order at a price. -/
def filledAt (ts : List Trade) (makerId : Nat) (price : Int) : Int :=
  total (fun t ↦ t.makerId == makerId && t.price == price) Trade.qty ts

section Split

variable {c c' : KeyCompare} {N : Nat} {own : Queues c} {opp : Queues c'} {index : Index}
  {free : List Ptr}

theorem resize_resting (r : Resting) (x y : Int) : resize (resize r x) y = resize r y := rfl

theorem cross_mono (price : Int) (j k : Int) (h : c'.before j k) (hc : c'.cross k price = true) :
    c'.cross j price = true := KeyCompare.cross_of_before h hc

/-- What an order takes from the orders with an id, at a price. -/
theorem filledAt_placeOn (own : Queues c) (opp : Queues c') (qty : Int) (id : Nat) (price : Int)
    (ts makerId : Nat) (px : Int) :
    filledAt (QueueBook.placeOn own opp ⟨index, free, qty, []⟩ id price ts).2.2.1.trades makerId px
      = given ((swept (c'.cross · price) qty opp).fills.filter
        fun f ↦ f.lot.2.id == makerId && f.lot.1 == px) := by
  rw [trades_placeOn, filledAt, total, List.nil_append, QueueBook.tradesOf, List.filter_map,
    List.map_map]
  rfl

/-- What an order adds at its price, if a slot is free. -/
theorem sum_queue_placeOn (own : Queues c) (opp : Queues c') {qty : Int} (hq : 0 ≤ qty)
    (hfree : free ≠ []) (id : Nat) (price : Int) (ts : Nat) :
    ((queue (QueueBook.placeOn own opp ⟨index, free, qty, []⟩ id price ts).1 price).map
        Resting.qty).sum
      = ((queue own price).map Resting.qty).sum + (swept (c'.cross · price) qty opp).left := by
  have hleft := left_swept_nonneg hq (c'.cross · price) opp
  simp only [QueueBook.placeOn]
  rcases restQueue_cases own (QueueBook.matchQueues id price opp ⟨index, free, qty, []⟩).2 id price
    ts with ⟨hstop, he⟩ | ⟨p, free', -, -, he⟩
  · have hnone : (swept (c'.cross · price) qty opp).left ≤ 0 := by
      by_contra hpos
      exact hstop ⟨not_le.mp hpos, by simp [QueueBook.matchQueues, QueueBook.settle, hfree]⟩
    rw [he]
    dsimp only
    omega
  · rw [he, queue_pushBack, if_pos rfl, List.map_append, List.sum_append]
    exact congrArg _ (List.sum_singleton)

/-- **Placing in two parts.** -/
theorem placeOn_split (own : Queues c) (hfull : Full opp) {q₁ q₂ : Int} (hq₁ : 0 ≤ q₁)
    (hq₂ : 0 ≤ q₂) (id id₁ id₂ : Nat) (price : Int) (ts ts₂ : Nat)
    {own₁ : Queues c} {opp₁ : Queues c'} {t : QueueBook.Settling} {ts₁ : Nat}
    (h₁ : QueueBook.placeOn own opp ⟨index, free, q₁, []⟩ id₁ price ts = (own₁, opp₁, t, ts₁)) :
    (QueueBook.placeOn own opp ⟨index, free, q₁ + q₂, []⟩ id price ts).2.1
        = (QueueBook.placeOn own₁ opp₁ ⟨t.index, t.free, q₂, []⟩ id₂ price ts₂).2.1 ∧
      (∀ makerId px,
        filledAt (QueueBook.placeOn own opp ⟨index, free, q₁ + q₂, []⟩ id price ts).2.2.1.trades
            makerId px
          = filledAt t.trades makerId px + filledAt (QueueBook.placeOn own₁ opp₁
            ⟨t.index, t.free, q₂, []⟩ id₂ price ts₂).2.2.1.trades makerId px) ∧
      (2 ≤ free.length →
        ((queue (QueueBook.placeOn own opp ⟨index, free, q₁ + q₂, []⟩ id price ts).1 price).map
            Resting.qty).sum
          = ((queue (QueueBook.placeOn own₁ opp₁ ⟨t.index, t.free, q₂, []⟩ id₂ price ts₂).1
            price).map Resting.qty).sum) := by
  have hown : own₁ = (QueueBook.placeOn own opp ⟨index, free, q₁, []⟩ id₁ price ts).1 := by rw [h₁]
  have ht : t = (QueueBook.placeOn own opp ⟨index, free, q₁, []⟩ id₁ price ts).2.2.1 := by rw [h₁]
  obtain rfl : opp₁ = afterSweep (c'.cross · price) q₁ opp := by
    rw [show opp₁ = (QueueBook.placeOn own opp ⟨index, free, q₁, []⟩ id₁ price ts).2.1 by rw [h₁]]
    rfl
  refine ⟨afterSweep_add (cross_mono price) hfull resize_resting hq₁ hq₂, fun makerId px ↦ ?_,
    fun hfree ↦ ?_⟩
  · rw [filledAt_placeOn, filledAt_placeOn, ht, filledAt_placeOn]
    exact given_swept_add (cross_mono price) hfull resize_resting hq₁ hq₂
      (fun x ↦ x.2.id == makerId && x.1 == px) fun _ _ ↦ rfl
  · have hlen := QueueBook.length_free_placeOn own opp ⟨index, free, q₁, []⟩ id₁ price ts
    have hne : free ≠ [] := List.length_pos_iff.mp (by omega)
    have hne₁ : t.free ≠ [] := List.length_pos_iff.mp (by rw [ht]; dsimp only at hlen; omega)
    rw [sum_queue_placeOn own opp (by omega) hne, sum_queue_placeOn own₁ _ hq₂ hne₁, hown,
      sum_queue_placeOn own opp hq₁ hne,
      left_swept_add (cross_mono price) hfull resize_resting hq₁ hq₂, Int.add_assoc]

end Split

namespace QueueBook

variable {N : Nat} {m : QueueBook}

theorem Valid.split_placeLimit (hv : m.Valid N) (side : Side) (price : Int) {q₁ q₂ : Int}
    (hq₁ : 0 ≤ q₁) (hq₂ : 0 ≤ q₂) :
    (∀ p, (m.placeLimit side price (q₁ + q₂) []).1.queueAt side.opposite p
        = ((m.placeLimit side price q₁ []).1.placeLimit side price q₂ []).1.queueAt
          side.opposite p) ∧
      (∀ makerId px, filledAt (m.placeLimit side price (q₁ + q₂) []).2.2 makerId px
        = filledAt (m.placeLimit side price q₁ []).2.2 makerId px
          + filledAt ((m.placeLimit side price q₁ []).1.placeLimit side price q₂ []).2.2
            makerId px) ∧
      (2 ≤ m.free.length → (m.placeLimit side price (q₁ + q₂) []).1.totalAt side price
        = ((m.placeLimit side price q₁ []).1.placeLimit side price q₂ []).1.totalAt
          side price) := by
  cases side with
  | Buy =>
    obtain ⟨hopp, htrades, hown⟩ := placeOn_split m.bids hv.consistent.fullOpp hq₁ hq₂
      m.nextId m.nextId ((m.nextId + 1) % 2 ^ 64) price m.nextTs _ rfl
    exact ⟨fun p ↦ congrArg (queue · p) hopp, htrades, hown⟩
  | Sell =>
    obtain ⟨hopp, htrades, hown⟩ := placeOn_split m.asks hv.consistent.fullOwn hq₁ hq₂
      m.nextId m.nextId ((m.nextId + 1) % 2 ^ 64) price m.nextTs _ rfl
    exact ⟨fun p ↦ congrArg (queue · p) hopp, htrades, hown⟩

end QueueBook

/-- Books with the same queues on a side have the same nodes there. -/
theorem Represents.sameSide {N : Nat} {b b' : OrderBook} {m m' : QueueBook} (h : Represents N b m)
    (hv : m.Valid N) (h' : Represents N b' m') (hv' : m'.Valid N) {side : Side}
    (hq : ∀ p, m.queueAt side p = m'.queueAt side p) : b.SameSide b' side := by
  intro price
  have hlevel := h.levelAt_of_queueAt hv side price
  refine ⟨by rw [hlevel, h'.levelAt_of_queueAt hv', hq], fun lvl hlvl ↦ ?_⟩
  obtain rfl : levelOf (m.queueAt side price) = lvl := by
    rw [hlevel, Option.ite_none_left_eq_some] at hlvl
    exact Option.some_inj.mp hlvl.2
  have hheld : Holds b'.pool side price (m.queueAt side price) := hq price ▸ h'.holdsAt side price
  refine ⟨_, (h.walks hv side price).1, ?_, fun p hp ↦ ?_⟩
  · rw [hq]
    exact (h'.walks hv' side price).1
  · have hsame := (h.holdsAt side price).slots_eq hheld p hp
    obtain ⟨r, hr, rfl⟩ := List.mem_map.mp hp
    obtain ⟨prev, next, hd⟩ := (h.holdsAt side price).exists_deref hr
    exact ⟨_, hd, (deref_congr hsame.symm).trans hd⟩

/-- **An order may be split.**  Placed in two parts, one right after the other, it takes the same
from every order at the same price and leaves the opposite side exactly the same; and if two slots
are free, as much rests at its price. -/
theorem placeLimit_split {N : Nat} {calls : List Call} {b : OrderBook} {replies : List Reply}
    (hrun : (OrderBook.new N).run calls = some (b, replies)) (side : Side) (price : Int)
    {q₁ q₂ : Int} (hq₁ : 1 ≤ q₁) (hq₂ : 1 ≤ q₂) :
    ∃ b₀ id₀ ts₀ b₁ id₁ ts₁ b₂ id₂ ts₂,
      b.placeLimit side price (q₁ + q₂) [] = some (b₀, id₀, ts₀) ∧
      b.placeLimit side price q₁ [] = some (b₁, id₁, ts₁) ∧
      b₁.placeLimit side price q₂ [] = some (b₂, id₂, ts₂) ∧
      (∀ makerId px, filledAt ts₀ makerId px = filledAt (ts₁ ++ ts₂) makerId px) ∧
      b₀.SameSide b₂ side.opposite ∧
      ∀ free, b.freeSlots = some free → 2 ≤ free.length →
        ∃ total, b₀.totalAt side price = some total ∧ b₂.totalAt side price = some total := by
  obtain ⟨h, hv⟩ := represents_of_run hrun
  generalize ((QueueBook.new N).run calls).1 = m at h hv
  obtain ⟨b₀, hp₀, h₀⟩ := h.placeLimit hv side price (q₁ + q₂) []
  obtain ⟨b₁, hp₁, h₁⟩ := h.placeLimit hv side price q₁ []
  have hv₀ := hv.placeLimit side price (q₁ + q₂) []
  have hv₁ := hv.placeLimit side price q₁ []
  obtain ⟨b₂, hp₂, h₂⟩ := h₁.placeLimit hv₁ side price q₂ []
  have hv₂ := hv₁.placeLimit side price q₂ []
  obtain ⟨hopp, htrades, hown⟩ := hv.split_placeLimit side price (show 0 ≤ q₁ by omega)
    (show 0 ≤ q₂ by omega)
  refine ⟨b₀, _, _, b₁, _, _, b₂, _, _, hp₀, hp₁, hp₂, fun makerId px ↦ ?_,
    h₀.sameSide hv₀ h₂ hv₂ hopp, fun free hfree hlen ↦ ⟨_, h₀.totalAt_eq hv₀ side price, ?_⟩⟩
  · rw [htrades, filledAt, filledAt, filledAt, total_append]
  · rw [h.freeSlots hv, Option.some_inj] at hfree
    rw [h₂.totalAt_eq hv₂, hown (hfree ▸ hlen)]

/-- A buy of ten against sells of five and three, placed as four and six: the first part ends within
the first order, and two are left. -/
theorem placeLimit_split_two_levels : ∃ b replies b₀ id₀ ts₀ b₁ id₁ ts₁ b₂ id₂ ts₂,
    (OrderBook.new 4).run [.placeLimit .Sell 100 5, .placeLimit .Sell 101 3] = some (b, replies) ∧
    b.placeLimit .Buy 101 10 [] = some (b₀, id₀, ts₀) ∧
    b.placeLimit .Buy 101 4 [] = some (b₁, id₁, ts₁) ∧
    b₁.placeLimit .Buy 101 6 [] = some (b₂, id₂, ts₂) ∧
    filledAt (ts₁ ++ ts₂) 1 100 = 5 ∧ filledAt (ts₁ ++ ts₂) 2 101 = 3 ∧
    b₀.SameSide b₂ .Sell ∧ b₂.totalAt .Buy 101 = some 2 := by
  obtain ⟨b, replies, hrun, hfree, hread⟩ : ∃ b replies,
      (OrderBook.new 4).run [.placeLimit .Sell 100 5, .placeLimit .Sell 101 3] = some (b, replies) ∧
        b.freeSlots = some [2, 3] ∧ (b.placeLimit .Buy 101 10 []).map
          (fun x ↦ (filledAt x.2.2 1 100, filledAt x.2.2 2 101, x.1.totalAt .Buy 101))
            = some (5, 3, some 2) := ⟨_, _, rfl, rfl, by decide +kernel⟩
  obtain ⟨b₀, id₀, ts₀, b₁, id₁, ts₁, b₂, id₂, ts₂, h₀, h₁, h₂, hfilled, hside, htotal⟩ :=
    placeLimit_split hrun .Buy 101 (show (1 : Int) ≤ 4 by decide) (show (1 : Int) ≤ 6 by decide)
  obtain ⟨total, ht₀, ht₂⟩ := htotal _ hfree (by decide)
  have h₀' : b.placeLimit .Buy 101 10 [] = some (b₀, id₀, ts₀) := h₀
  rw [h₀', Option.map_some, Option.some_inj, Prod.mk.injEq, Prod.mk.injEq, ht₀] at hread
  refine ⟨b, replies, b₀, id₀, ts₀, b₁, id₁, ts₁, b₂, id₂, ts₂, hrun, h₀', h₁, h₂, ?_,
    ?_, hside, ?_⟩
  · rw [← hfilled, hread.1]
  · rw [← hfilled, hread.2.1]
  · rw [ht₂, hread.2.2]

/-! ## Taking an order back -/

section Undo

variable {c c' : KeyCompare} {N : Nat} {own : Queues c} {opp : Queues c'} {index : Index}
  {free : List Ptr} {t : QueueBook.Settling}

/-- A taker that is given nothing changes nothing. -/
theorem matchQueues_of_fills_nil (hfull : Full opp) (id : Nat) (price : Int)
    (h : (swept (c'.cross · price) t.qty opp).fills = []) :
    QueueBook.matchQueues id price opp t = (opp, t) := by
  obtain ⟨hopp, hleft⟩ := afterSweep_of_fills_nil hfull h
  rw [QueueBook.matchQueues, hopp, QueueBook.settle, h, hleft]
  simp [consumed, QueueBook.forget, QueueBook.tradesOf]

/-- An order that is given nothing rests as it is. -/
theorem placeOn_of_trades_nil (hfull : Full opp) (hq : 0 < t.qty) {p : Ptr}
    (hf : t.free = p :: free) {id : Nat} {price : Int} {ts : Nat}
    (h : (QueueBook.placeOn own opp t id price ts).2.2.1.trades = []) :
    QueueBook.placeOn own opp t id price ts = (pushBack own price ⟨p, id, t.qty, ts⟩, opp,
      { t with free, index := t.index.insert id p }, (ts + 1) % 2 ^ 64) := by
  rw [trades_placeOn, List.append_eq_nil_iff, QueueBook.tradesOf, List.map_eq_nil_iff] at h
  simp only [QueueBook.placeOn, matchQueues_of_fills_nil hfull id price h.2, QueueBook.restQueue,
    if_pos hq, hf]

/-- If its own side has changed, it wanted something, and there was a slot for it. -/
theorem rests_of_ne (hfull : Full opp) {id : Nat} {price : Int} {ts : Nat}
    (h : (QueueBook.placeOn own opp t id price ts).2.2.1.trades = [])
    (hne : (QueueBook.placeOn own opp t id price ts).1 ≠ own) : 0 < t.qty ∧ t.free ≠ [] := by
  rw [trades_placeOn, List.append_eq_nil_iff, QueueBook.tradesOf, List.map_eq_nil_iff] at h
  simp only [QueueBook.placeOn, matchQueues_of_fills_nil hfull id price h.2] at hne
  rcases restQueue_cases own t id price ts with ⟨-, he⟩ | ⟨p, free, hq, hf, -⟩
  · exact absurd (by rw [he]) hne
  · exact ⟨hq, by simp [hf]⟩

/-- A free slot is not the slot of an order. -/
theorem Consistent.slot_ne_of_free (h : Consistent N own opp free index) {p : Ptr} (hp : p ∈ free)
    {x : Int × Resting} (hx : x ∈ resting own opp) : (x.2.slot != p) = true := by
  refine bne_iff_ne.mpr fun he ↦ ?_
  refine List.disjoint_of_nodup_append h.nodup hp ?_
  rw [slots_append_eq]
  exact List.mem_map.mpr ⟨x, hx, he⟩

/-- Removing an order by its slot right after it was added. -/
theorem Consistent.prune_pushBack_self {p : Ptr}
    (h : Consistent N own opp (p :: free) index) (price : Int) (id : Nat) (qty : Int) (ts : Nat) :
    prune (fun r ↦ r.slot != p) (pushBack own price ⟨p, id, qty, ts⟩) = own ∧
      prune (fun r ↦ r.slot != p) opp = opp := by
  have hne : ∀ x ∈ resting own opp, (x.2.slot != p) = true := fun x hx ↦
    h.slot_ne_of_free List.mem_cons_self hx
  exact ⟨LevelQueue.prune_pushBack_self h.fullOwn (fun x hx ↦ hne x (mem_resting.mpr (.inl hx)))
      price (by simp), prune_eq_self h.fullOpp fun x hx ↦ hne x (mem_resting.mpr (.inr hx))⟩

end Undo

namespace QueueBook

variable {N k : Nat} {m : QueueBook}

/-- The book with the counters one further. -/
def advance (m : QueueBook) : QueueBook :=
  { m with nextId := (m.nextId + 1) % 2 ^ 64, nextTs := (m.nextTs + 1) % 2 ^ 64 }

/-- **Taking an order back** that has not traded: only an order that was in the index under the same
id is not there any more. -/
theorem Valid.cancel_placed (hv : m.Valid N) (side : Side) (price : Int) {qty : Int}
    (hq : 0 < qty) (hfree : m.free ≠ []) (hnone : (m.placeLimit side price qty []).2.2 = []) :
    (m.placeLimit side price qty []).1.cancel m.nextId
      = ({ m.advance with index := m.index.erase m.nextId }, true) := by
  obtain ⟨p, free, hf⟩ := List.exists_cons_of_ne_nil hfree
  have hc := hv.consistent
  rw [hf] at hc
  cases side with
  | Buy =>
    have hp := placeOn_of_trades_nil (t := ⟨m.index, m.free, qty, []⟩) hc.fullOpp hq hf hnone
    obtain ⟨hown, hopp⟩ := hc.prune_pushBack_self price m.nextId qty m.nextTs
    simp only [QueueBook.placeLimit, hp, QueueBook.cancel, SortedMap.find?_insert, if_true, remove,
      hown, hopp, SortedMap.erase_insert, ← hf, advance]
  | Sell =>
    have hp := placeOn_of_trades_nil (t := ⟨m.index, m.free, qty, []⟩) hc.fullOwn hq hf hnone
    obtain ⟨hown, hopp⟩ := hc.symm.prune_pushBack_self price m.nextId qty m.nextTs
    simp only [QueueBook.placeLimit, hp, QueueBook.cancel, SortedMap.find?_insert, if_true, remove,
      hown, hopp, SortedMap.erase_insert, ← hf, advance]

theorem Valid.rests_of_ne (hv : m.Valid N) {side : Side} {price qty : Int}
    (hnone : (m.placeLimit side price qty []).2.2 = [])
    (hne : (m.placeLimit side price qty []).1.queueAt side price ≠ m.queueAt side price) :
    0 < qty ∧ m.free ≠ [] := by
  cases side with
  | Buy =>
    exact MatchingEngine.rests_of_ne (t := ⟨m.index, m.free, qty, []⟩) hv.consistent.fullOpp hnone
      fun he ↦ hne (congrArg (queue · price) he)
  | Sell =>
    exact MatchingEngine.rests_of_ne (t := ⟨m.index, m.free, qty, []⟩) hv.consistent.fullOwn hnone
      fun he ↦ hne (congrArg (queue · price) he)

/-- While ids are unique, the next one is not in use. -/
theorem Valid.find?_nextId (hv : m.Valid N) (hk : m.Counted k) (hlt : k < 2 ^ 64) :
    m.index.find? m.nextId = none := by
  refine (hv.find?_eq_none_iff hk _).mpr fun x hx hid ↦ ?_
  have hpos := hk.numbered.pos x hx
  have hle := hk.numbered.le x hx
  -- where the counter wraps it gives 0, which it has not given before
  rw [hid, hk.nextId] at hpos hle
  omega

end QueueBook

/-- The book with the two counters one further. -/
def OrderBook.advance (b : OrderBook) : OrderBook :=
  { b with nextId := (b.nextId + 1) % 2 ^ 64, nextTs := (b.nextTs + 1) % 2 ^ 64 }

/-- **An order that has not traded may be taken back.**  Cancelling it right away succeeds, and the
book is what it was before, but for the two counters, if and only if the id was not in use; which it
never is before the counter of ids has wrapped. -/
theorem cancel_placeLimit {N : Nat} {calls : List Call} {b : OrderBook} {replies : List Reply}
    (hrun : (OrderBook.new N).run calls = some (b, replies)) {side : Side} {price qty : Int}
    {b₁ : OrderBook} {id : Nat} (hplace : b.placeLimit side price qty [] = some (b₁, id, []))
    (hrests : ∃ orders, b.ordersAt side price = some orders ∧
      b₁.ordersAt side price = some (orders ++ [(id, qty)])) :
    ∃ b₂, b₁.cancel id = some (b₂, true) ∧ (b₂ = b.advance ↔ b.index.find? id = none) ∧
      (placements calls < 2 ^ 64 → b₂ = b.advance) := by
  obtain ⟨h, hv⟩ := represents_of_run hrun
  have hk := QueueBook.counted_run_new N calls
  generalize ((QueueBook.new N).run calls).1 = m at h hv hk
  obtain ⟨b₁', hp, h₁⟩ := h.placeLimit hv side price qty []
  rw [hp, Option.some_inj, Prod.mk.injEq, Prod.ext_iff, QueueBook.id_placeLimit] at hplace
  obtain ⟨rfl, rfl, hnone⟩ := hplace
  have hv₁ := hv.placeLimit side price qty []
  obtain ⟨hq, hfree⟩ := hv.rests_of_ne hnone fun hsame ↦ by
    obtain ⟨orders, ho, ho₁⟩ := hrests
    rw [h.ordersAt hv, Option.some_inj] at ho
    rw [h₁.ordersAt hv₁, hsame, ho, Option.some_inj] at ho₁
    simp at ho₁
  have hcancel := hv.cancel_placed side price hq hfree hnone
  obtain ⟨b₂, hc, h₂⟩ := h₁.cancel hv₁ m.nextId
  have hv₂ := hv₁.cancel m.nextId
  rw [hcancel] at hc h₂ hv₂
  have hadvance : Represents N b.advance m.advance :=
    ⟨by rw [h.eq_withPool]; rfl, h.layout⟩
  have hrestored : b₂ = b.advance ↔ b.index.find? m.nextId = none := by
    rw [h.index_eq, ← SortedMap.erase_eq_self_iff]
    constructor
    · rintro rfl
      exact h₂.index_eq.symm.trans h.index_eq
    · intro hsame
      rw [hsame] at h₂ hv₂
      exact h₂.unique hadvance hv₂
  refine ⟨b₂, hc, hrestored, fun hlt ↦ hrestored.mpr ?_⟩
  rw [h.index_eq]
  exact hv.find?_nextId (hk hlt) hlt

/-- Of two bids the second is taken back. -/
theorem cancel_placeLimit_second_bid : ∃ b replies b₁ id,
    (OrderBook.new 2).run [.placeLimit .Buy 100 3] = some (b, replies) ∧
    placements [.placeLimit .Buy 100 3] < 2 ^ 64 ∧
    b.placeLimit .Buy 100 4 [] = some (b₁, id, []) ∧
    b₁.ordersAt .Buy 100 = some [(1, 3), (2, 4)] ∧ b₁.cancel id = some (b.advance, true) := by
  obtain ⟨b, replies, hrun, b₁, id, hplace, ho, ho₁⟩ : ∃ b replies,
      (OrderBook.new 2).run [.placeLimit .Buy 100 3] = some (b, replies) ∧ ∃ b₁ id,
        b.placeLimit .Buy 100 4 [] = some (b₁, id, []) ∧ b.ordersAt .Buy 100 = some [(1, 3)] ∧
        b₁.ordersAt .Buy 100 = some ([(1, 3)] ++ [(id, 4)]) ∧ id = 2 :=
    ⟨_, _, rfl, _, _, rfl, rfl, rfl, rfl⟩
  obtain ⟨b₂, hc, -, hrestored⟩ := cancel_placeLimit hrun hplace ⟨_, ho, ho₁.1⟩
  obtain ⟨ho₁, rfl⟩ := ho₁
  exact ⟨b, replies, b₁, 2, hrun, by decide, hplace, ho₁, by rw [hc, hrestored (by decide)]⟩

/-- A bid, and placements of nothing until its id comes next again. -/
def wrapping : List Call :=
  [.placeLimit .Buy 100 1] ++ List.replicate (2 ^ 64 - 1) (.placeLimit .Buy 0 0)

theorem placements_wrapping : placements wrapping = 2 ^ 64 := by
  simp only [placements, wrapping, List.countP_append, List.countP_replicate,
    List.countP_singleton, if_true]
  decide

theorem run_wrapping {N : Nat} {b : OrderBook} {rs : List Reply}
    (h : (OrderBook.new N).run [.placeLimit .Buy 100 1] = some (b, rs)) (hid : b.nextId = 2) :
    ∃ replies, (OrderBook.new N).run wrapping = some ({ b with nextId := 1 }, replies) := by
  obtain ⟨rs', hrs⟩ := OrderBook.run_replicate_zero (2 ^ 64 - 1) (b := b) (by rw [hid]; decide)
  rw [hid] at hrs
  exact ⟨_, OrderBook.run_append h hrs⟩

/-- **An id that is in use is lost.**  Once the counter has come round, taking back an order leaves
the order before it without an entry in the index. -/
theorem exists_index_not_restored : ∃ b replies b₁ b₂,
    (OrderBook.new 2).run wrapping = some (b, replies) ∧ placements wrapping = 2 ^ 64 ∧
    b.ordersAt .Buy 100 = some [(1, 1)] ∧ b.placeLimit .Buy 100 1 [] = some (b₁, 1, []) ∧
    b₁.ordersAt .Buy 100 = some [(1, 1), (1, 1)] ∧ b₁.cancel 1 = some (b₂, true) ∧
    b.index.find? 1 = some 0 ∧ b₂.index.find? 1 = none ∧ b₂ ≠ b.advance := by
  obtain ⟨b, h, hid, ho, b₁, hp, ho₁, b₂, hc, hi, hi₂⟩ : ∃ b,
      (OrderBook.new 2).run [.placeLimit .Buy 100 1] = some (b, [.placed 1 []]) ∧ b.nextId = 2 ∧
      OrderBook.ordersAt { b with nextId := 1 } .Buy 100 = some [(1, 1)] ∧
      ∃ b₁, OrderBook.placeLimit { b with nextId := 1 } .Buy 100 1 [] = some (b₁, 1, []) ∧
        b₁.ordersAt .Buy 100 = some [(1, 1), (1, 1)] ∧ ∃ b₂, b₁.cancel 1 = some (b₂, true) ∧
          b.index.find? 1 = some 0 ∧ b₂.index.find? 1 = none :=
    ⟨_, rfl, rfl, rfl, _, rfl, rfl, _, rfl, rfl, rfl⟩
  obtain ⟨replies, hrun⟩ := run_wrapping h hid
  refine ⟨_, replies, b₁, b₂, hrun, placements_wrapping, ho, hp, ho₁, hc, hi, hi₂, ?_⟩
  rintro rfl
  have hi₂ : b.index.find? 1 = none := hi₂
  rw [hi] at hi₂
  simp at hi₂

/-! ## Placing and cancelling in either order -/

section Commute

variable {c c' : KeyCompare} {N : Nat} {own : Queues c} {opp : Queues c'} {index : Index}
  {free : List Ptr}

/-- An order that is not filled keeps its place in the index. -/
theorem find?_placeOn (own : Queues c) (opp : Queues c') (t : QueueBook.Settling) {id x : Nat}
    {price : Int} (ts : Nat) (hne : x ≠ id)
    (hx : ∀ f ∈ (swept (c'.cross · price) t.qty opp).fills, f.lot.2.id ≠ x) :
    (QueueBook.placeOn own opp t id price ts).2.2.1.index.find? x = t.index.find? x := by
  have hmatch : (QueueBook.matchQueues id price opp t).2.index.find? x = t.index.find? x := by
    simp only [QueueBook.matchQueues, QueueBook.settle, find?_forget]
    rw [if_neg]
    intro hmem
    simp only [List.map_map, List.mem_map, mem_consumed] at hmem
    obtain ⟨y, ⟨f, hf, -, rfl⟩, hid⟩ := hmem
    exact hx f hf hid
  simp only [QueueBook.placeOn]
  rcases restQueue_cases own (QueueBook.matchQueues id price opp t).2 id price ts with
    ⟨-, he⟩ | ⟨p, free', -, -, he⟩
  · rw [he]
    exact hmatch
  · rw [he]
    dsimp only
    rw [SortedMap.find?_insert, if_neg hne, hmatch]

/-- A slot that is free after matching was free before, or the slot of an order that gave
something. -/
theorem slot_ne_of_mem_free {n q : Ptr} (hn : n ∉ free) {qty price : Int} {id : Nat}
    (hkeep : ∀ f ∈ (swept (c'.cross · price) qty opp).fills, (f.lot.2.slot != n) = true)
    (hq : q ∈ (QueueBook.matchQueues id price opp ⟨index, free, qty, []⟩).2.free) :
    (q != n) = true := by
  simp only [QueueBook.matchQueues, QueueBook.settle, List.mem_append, List.mem_reverse,
    List.mem_map, mem_consumed] at hq
  rcases hq with ⟨y, ⟨f, hfill, -, rfl⟩, rfl⟩ | hq
  · exact hkeep f hfill
  · exact bne_iff_ne.mpr fun h ↦ hn (h ▸ hq)

/-- **Placing and removing**, if what is removed gives nothing and a slot is free.  The new order
may get another slot. -/
theorem placeOn_prune (own : Queues c) (hfree : free ≠ []) {n : Ptr} (hn : n ∉ free)
    {qty price : Int}
    (hkeep : ∀ f ∈ (swept (c'.cross · price) qty opp).fills, (f.lot.2.slot != n) = true)
    (index' : Index) (id ts : Nat) :
    (QueueBook.placeOn (prune (fun r ↦ r.slot != n) own) (prune (fun r ↦ r.slot != n) opp)
          ⟨index', n :: free, qty, []⟩ id price ts).2.2.1.trades
        = (QueueBook.placeOn own opp ⟨index, free, qty, []⟩ id price ts).2.2.1.trades ∧
      (QueueBook.placeOn (prune (fun r ↦ r.slot != n) own) (prune (fun r ↦ r.slot != n) opp)
          ⟨index', n :: free, qty, []⟩ id price ts).2.1
        = prune (fun r ↦ r.slot != n)
          (QueueBook.placeOn own opp ⟨index, free, qty, []⟩ id price ts).2.1 ∧
      ∀ p, (queue (QueueBook.placeOn (prune (fun r ↦ r.slot != n) own)
          (prune (fun r ↦ r.slot != n) opp) ⟨index', n :: free, qty, []⟩ id price ts).1 p).map
            (fun r ↦ (r.id, r.qty))
        = ((queue (QueueBook.placeOn own opp ⟨index, free, qty, []⟩ id price ts).1 p).filter
          fun r ↦ r.slot != n).map fun r ↦ (r.id, r.qty) := by
  obtain ⟨hf, hl, ha⟩ := swept_prune (cross_mono price) (fun r : Resting ↦ r.slot != n)
    (fun _ _ ↦ rfl) hkeep
  refine ⟨?_, ha, fun p ↦ ?_⟩
  · rw [trades_placeOn, trades_placeOn]
    dsimp only
    rw [hf]
  have hleft : (QueueBook.matchQueues id price (prune (fun r ↦ r.slot != n) opp)
      ⟨index', n :: free, qty, []⟩).2.qty = (swept (c'.cross · price) qty opp).left := hl
  rw [queue_placeOn, hleft, queue_prune]
  simp only [QueueBook.placeOn]
  rcases restQueue_cases own (QueueBook.matchQueues id price opp ⟨index, free, qty, []⟩).2 id price
    ts with ⟨hstop, he⟩ | ⟨q, free', hq, hfree', he⟩
  · rw [he, if_neg]
    rintro ⟨-, hpos, -⟩
    exact hstop ⟨hpos, by simp [QueueBook.matchQueues, QueueBook.settle, hfree]⟩
  · have hqn := slot_ne_of_mem_free hn hkeep
      (hfree' ▸ List.mem_cons_self)
    have hne : (QueueBook.matchQueues id price (prune (fun r ↦ r.slot != n) opp)
        ⟨index', n :: free, qty, []⟩).2.free ≠ [] := by
      simp [QueueBook.matchQueues, QueueBook.settle]
    rw [he, queue_pushBack]
    by_cases hp : p = price
    · rw [if_pos ⟨hp, hq, hne⟩, if_pos hp, List.filter_append, List.map_append, hp]
      simp only [List.filter_cons, hqn, if_true, List.filter_nil]
      rfl
    · rw [if_neg fun h ↦ hp h.1, if_neg hp]

end Commute

/-- What is given by an order under an id is traded under that id. -/
theorem slot_ne_of_makerId {c c' : KeyCompare} {N : Nat} {own : Queues c} {opp : Queues c'}
    {t : QueueBook.Settling} (h : Consistent N own opp t.free t.index) {x : Nat} {n : Ptr}
    (hx : t.index.find? x = some n) {id : Nat} {price : Int} {ts : Nat} (htrades : t.trades = [])
    (hno : ∀ u ∈ (QueueBook.placeOn own opp t id price ts).2.2.1.trades, u.makerId ≠ x) :
    ∀ f ∈ (swept (c'.cross · price) t.qty opp).fills,
      f.lot.2.id ≠ x ∧ (f.lot.2.slot != n) = true := by
  rw [trades_placeOn, htrades, List.nil_append] at hno
  intro f hf
  have hid : f.lot.2.id ≠ x := hno _ (List.mem_map_of_mem hf)
  refine ⟨hid, bne_iff_ne.mpr fun hslot ↦ hid (h.id_eq ?_ (hslot ▸ hx))⟩
  have hpos : ∀ y ∈ lots opp, 1 ≤ size y := fun y hy ↦ h.pos y (mem_resting.mpr (.inr hy))
  exact mem_resting.mpr (.inr (fill_spec hpos f hf).1)

namespace QueueBook

variable {N : Nat} {m : QueueBook}

/-- **A placement and a removal commute**, if the placement does not trade with the order that is
removed and does not take its id. -/
theorem Valid.placeLimit_remove (hv : m.Valid N) (hfree : m.free ≠ []) {x : Nat} {n : Ptr}
    (hx : m.index.find? x = some n) (hne : x ≠ m.nextId) (side : Side) (price qty : Int)
    (hno : ∀ u ∈ (m.placeLimit side price qty []).2.2, u.makerId ≠ x) :
    (m.placeLimit side price qty []).1.index.find? x = some n ∧
      ((m.remove x n).placeLimit side price qty []).2 = (m.placeLimit side price qty []).2 ∧
      ∀ s p, (((m.remove x n).placeLimit side price qty []).1.queueAt s p).map
        (fun r ↦ (r.id, r.qty)) = (((m.placeLimit side price qty []).1.remove x n).queueAt s p).map
          fun r ↦ (r.id, r.qty) := by
  have hn : n ∉ m.free := fun hmem ↦ by
    obtain ⟨y, hy, rfl, -⟩ := hv.consistent.sound x n hx
    simpa using hv.consistent.slot_ne_of_free hmem hy
  simp only [queueAt_remove]
  cases side with
  | Buy =>
    have hfills := slot_ne_of_makerId (t := ⟨m.index, m.free, qty, []⟩) hv.consistent hx rfl hno
    obtain ⟨htr, hopp, hown⟩ := placeOn_prune m.bids hfree hn (fun f hf ↦ (hfills f hf).2)
      (m.index.erase x) m.nextId m.nextTs
    refine ⟨(find?_placeOn m.bids m.asks ⟨m.index, m.free, qty, []⟩ m.nextTs hne
      fun f hf ↦ (hfills f hf).1).trans hx, congrArg (Prod.mk m.nextId) htr, fun s p ↦ ?_⟩
    cases s with
    | Buy => exact hown p
    | Sell =>
      refine congrArg (List.map _) ?_
      exact (congrArg (queue · p) hopp).trans (queue_prune _ p)
  | Sell =>
    have hfills :=
      slot_ne_of_makerId (t := ⟨m.index, m.free, qty, []⟩) hv.consistent.symm hx rfl hno
    obtain ⟨htr, hopp, hown⟩ := placeOn_prune m.asks hfree hn (fun f hf ↦ (hfills f hf).2)
      (m.index.erase x) m.nextId m.nextTs
    refine ⟨(find?_placeOn m.asks m.bids ⟨m.index, m.free, qty, []⟩ m.nextTs hne
      fun f hf ↦ (hfills f hf).1).trans hx, congrArg (Prod.mk m.nextId) htr, fun s p ↦ ?_⟩
    cases s with
    | Buy =>
      refine congrArg (List.map _) ?_
      exact (congrArg (queue · p) hopp).trans (queue_prune _ p)
    | Sell => exact hown p

end QueueBook

/-- **A placement and a cancel commute.**  Let a slot be free, and an order rest that the placement
does not trade with.  Whichever call comes first, the placement gets the same id and makes the same
trades, the cancel succeeds, and in the end the same orders rest at every price, in the same
order. -/
theorem placeLimit_cancel_comm {N : Nat} {calls : List Call} {b : OrderBook} {replies : List Reply}
    (hrun : (OrderBook.new N).run calls = some (b, replies)) (hlt : placements calls < 2 ^ 64)
    (hfree : b.full = false) {x : Nat} (hx : b.HasOrder x) {side : Side} {price qty : Int}
    {b₁ : OrderBook} {id : Nat} {ts : List Trade}
    (hplace : b.placeLimit side price qty [] = some (b₁, id, ts)) (hno : ∀ t ∈ ts, t.makerId ≠ x) :
    ∃ b₂ b₁' b₂', b₁.cancel x = some (b₂, true) ∧ b.cancel x = some (b₁', true) ∧
      b₁'.placeLimit side price qty [] = some (b₂', id, ts) ∧
      ∀ s p, ∃ orders, b₂.ordersAt s p = some orders ∧ b₂'.ordersAt s p = some orders := by
  obtain ⟨h, hv⟩ := represents_of_run hrun
  have hk := QueueBook.counted_run_new N calls hlt
  generalize ((QueueBook.new N).run calls).1 = m at h hv hk
  obtain ⟨n, hn⟩ : ∃ n, m.index.find? x = some n := by
    rw [h.hasOrder_iff hv, ← hv.find?_eq_none_iff hk] at hx
    exact Option.ne_none_iff_exists'.mp hx
  have hne : x ≠ m.nextId := fun he ↦ by
    rw [he, hv.find?_nextId hk hlt] at hn
    simp at hn
  have hnil : m.free ≠ [] := fun hnil ↦ by simp [h.full_eq, hnil] at hfree
  obtain ⟨b₁, hp, h₁⟩ := h.placeLimit hv side price qty []
  rw [hp, Option.some_inj, Prod.mk.injEq] at hplace
  obtain ⟨rfl, hout⟩ := hplace
  have hv₁ := hv.placeLimit side price qty []
  obtain ⟨hfind, hsame, hqueues⟩ := hv.placeLimit_remove hnil hn hne side price qty
    (by rw [hout]; exact hno)
  obtain ⟨b₂, hc, h₂⟩ := h₁.cancel hv₁ x
  have hv₂ := hv₁.cancel x
  obtain ⟨b₁', hc', h₁'⟩ := h.cancel hv x
  have hv₁' := hv.cancel x
  have hcancel : m.cancel x = (m.remove x n, true) := by rw [QueueBook.cancel, hn]
  have hcancel₁ : (m.placeLimit side price qty []).1.cancel x
      = ((m.placeLimit side price qty []).1.remove x n, true) := by rw [QueueBook.cancel, hfind]
  rw [hcancel] at hc' h₁' hv₁'
  rw [hcancel₁] at hc h₂ hv₂
  obtain ⟨b₂', hp', h₂'⟩ := h₁'.placeLimit hv₁' side price qty []
  have hv₂' := hv₁'.placeLimit side price qty []
  refine ⟨b₂, b₁', b₂', hc, hc', by rw [hp', hsame, hout], fun s p ↦ ⟨_, h₂.ordersAt hv₂ s p, ?_⟩⟩
  rw [h₂'.ordersAt hv₂', hqueues]

/-- A sell trades with the first of two bids; the second is cancelled before or after. -/
theorem placeLimit_cancel_comm_second_bid : ∃ b replies b₁ b₂ b₁' b₂',
    (OrderBook.new 3).run [.placeLimit .Buy 100 3, .placeLimit .Buy 100 4] = some (b, replies) ∧
    b.placeLimit .Sell 100 2 [] = some (b₁, 3, [⟨3, 1, 100, 2⟩]) ∧ b₁.cancel 2 = some (b₂, true) ∧
    b.cancel 2 = some (b₁', true) ∧
    b₁'.placeLimit .Sell 100 2 [] = some (b₂', 3, [⟨3, 1, 100, 2⟩]) ∧
    b₂.ordersAt .Buy 100 = some [(1, 1)] ∧ b₂'.ordersAt .Buy 100 = some [(1, 1)] := by
  obtain ⟨b, replies, hrun, hfree, ho, b₁, hp, hread⟩ : ∃ b replies,
      (OrderBook.new 3).run [.placeLimit .Buy 100 3, .placeLimit .Buy 100 4] = some (b, replies) ∧
        b.full = false ∧ b.ordersAt .Buy 100 = some [(1, 3), (2, 4)] ∧
        ∃ b₁, b.placeLimit .Sell 100 2 [] = some (b₁, 3, [⟨3, 1, 100, 2⟩]) ∧
          (b₁.cancel 2).bind (fun x ↦ x.1.ordersAt .Buy 100) = some [(1, 1)] :=
    ⟨_, _, rfl, rfl, rfl, _, rfl, by decide +kernel⟩
  obtain ⟨b₂, b₁', b₂', hc, hc', hp', horders⟩ := placeLimit_cancel_comm hrun (by decide) hfree
    (x := 2) ⟨.Buy, 100, _, ho, by decide⟩ hp (by decide)
  obtain ⟨orders, ho₂, ho₂'⟩ := horders .Buy 100
  rw [hc, Option.bind_some, ho₂] at hread
  exact ⟨b, replies, b₁, b₂, b₁', b₂', hrun, hp, hc, hc', hp', by rw [ho₂, hread],
    by rw [ho₂', hread]⟩

/-- **When ids wrap, the cancel may take the wrong order.**  The new bid gets the id of the one that
rests, and is the one that is cancelled if it comes first. -/
theorem exists_cancel_not_comm : ∃ b replies b₁ b₂ b₁' b₂',
    (OrderBook.new 2).run wrapping = some (b, replies) ∧ placements wrapping = 2 ^ 64 ∧
    b.full = false ∧ b.ordersAt .Buy 100 = some [(1, 1)] ∧
    b.placeLimit .Buy 101 1 [] = some (b₁, 1, []) ∧ b₁.cancel 1 = some (b₂, true) ∧
    b.cancel 1 = some (b₁', true) ∧ b₁'.placeLimit .Buy 101 1 [] = some (b₂', 1, []) ∧
    b₂.ordersAt .Buy 101 = some [] ∧ b₂'.ordersAt .Buy 101 = some [(1, 1)] := by
  obtain ⟨b, h, hid, hfree, ho, b₁, hp, b₂, hc, b₁', hc', b₂', hp', ho₂, ho₂'⟩ : ∃ b,
      (OrderBook.new 2).run [.placeLimit .Buy 100 1] = some (b, [.placed 1 []]) ∧ b.nextId = 2 ∧
      b.full = false ∧ OrderBook.ordersAt { b with nextId := 1 } .Buy 100 = some [(1, 1)] ∧
      ∃ b₁, OrderBook.placeLimit { b with nextId := 1 } .Buy 101 1 [] = some (b₁, 1, []) ∧
        ∃ b₂, b₁.cancel 1 = some (b₂, true) ∧
        ∃ b₁', OrderBook.cancel { b with nextId := 1 } 1 = some (b₁', true) ∧
        ∃ b₂', b₁'.placeLimit .Buy 101 1 [] = some (b₂', 1, []) ∧
          b₂.ordersAt .Buy 101 = some [] ∧ b₂'.ordersAt .Buy 101 = some [(1, 1)] :=
    ⟨_, rfl, rfl, rfl, rfl, _, rfl, _, rfl, _, rfl, _, rfl, rfl, rfl⟩
  obtain ⟨replies, hrun⟩ := run_wrapping h hid
  exact ⟨_, replies, b₁, b₂, b₁', b₂', hrun, placements_wrapping, hfree, ho, hp, hc, hc', hp', ho₂,
    ho₂'⟩

end MatchingEngine
