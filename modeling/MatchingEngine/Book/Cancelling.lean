import MatchingEngine.Book.Priority

/-!
# One cancel

What `cancel` does to the book, over the code's own state.  A successful cancel takes one order out
of the queue at its price, returns one slot and forgets one id, and nothing else changes
(`OrderBook.Removes`); an unsuccessful one changes nothing.

None of that depends on ids being unique: `cancel` removes *an* order with the id, whichever
`index_` points at.  That it succeeds for every resting order, and never again once the order has
left the book, does depend on it.  `cancel_removes` has both halves.
-/

set_option autoImplicit false

namespace MatchingEngine

open Greedy LevelQueue

namespace OrderBook

/-- An order with this id rests at some price. -/
def HasOrder (b : OrderBook) (id : Nat) : Prop :=
  ∃ side price orders, b.ordersAt side price = some orders ∧ id ∈ orders.map Prod.fst

/-- `b'` is `b` without an order `id` of this side and price. -/
structure Removes (b b' : OrderBook) (id : Nat) (side : Side) (price : Int) : Prop where
  /-- The order leaves the queue, and the queue leaves the map if nothing else was in it. -/
  level : ∃ ahead qty behind, b.ordersAt side price = some (ahead ++ (id, qty) :: behind) ∧
    b'.ordersAt side price = some (ahead ++ behind) ∧
    (b'.levelAt side price = none ↔ ahead ++ behind = [])
  other : ∀ s p, (s, p) ≠ (side, price) →
    b'.ordersAt s p = b.ordersAt s p ∧ b'.levelAt s p = b.levelAt s p
  /-- Its slot goes back to the pool, where it was not before. -/
  slot : ∃ n free, b.index.find? id = some n ∧ b.freeSlots = some free ∧ n ∉ free ∧
    b'.freeSlots = some (n :: free) ∧ b'.pool.inUse + 1 = b.pool.inUse
  index : ∀ i, b'.index.find? i = if i = id then none else b.index.find? i
  counters : b'.nextId = b.nextId ∧ b'.nextTs = b.nextTs

end OrderBook

section Remove

variable {N k : Nat} {b b' : OrderBook} {m : QueueBook}

theorem QueueBook.queueAt_remove (m : QueueBook) (id : Nat) (n : Ptr) (side : Side) (price : Int) :
    (m.remove id n).queueAt side price = (m.queueAt side price).filter fun r ↦ r.slot != n := by
  cases side with
  | Buy => exact queue_prune _ price
  | Sell => exact queue_prune _ price

/-- Two resting orders in one slot are the same order of the same queue. -/
theorem QueueBook.Valid.queue_eq_of_slot (hv : m.Valid N) {side side' : Side} {price price' : Int}
    {r r' : Resting} (hr : r ∈ m.queueAt side price) (hr' : r' ∈ m.queueAt side' price')
    (hslot : r.slot = r'.slot) : (side, price) = (side', price') := by
  have he := hv.consistent.eq_of_slot (QueueBook.mem_resting_iff.mpr ⟨side, hr⟩)
    (QueueBook.mem_resting_iff.mpr ⟨side', hr'⟩) hslot
  have hprice : price = price' := congrArg Prod.fst he
  have hne : ∀ x ∈ lots m.bids, ∀ y ∈ lots m.asks, x.2.slot ≠ y.2.slot := by
    intro x hx y hy
    have hnd := hv.consistent.nodup.of_append_right
    exact fun hxy ↦ List.disjoint_of_nodup_append hnd (List.mem_map_of_mem hx)
      (hxy ▸ List.mem_map_of_mem hy)
  cases side <;> cases side'
  · rw [hprice]
  · exact absurd hslot (hne _ (mem_queue.mp hr) _ (mem_queue.mp hr'))
  · exact absurd hslot.symm (hne _ (mem_queue.mp hr') _ (mem_queue.mp hr))
  · rw [hprice]

theorem QueueBook.Valid.nodup_slots (hv : m.Valid N) (side : Side) (price : Int) :
    ((m.queueAt side price).map Resting.slot).Nodup := by
  have hnd := hv.consistent.nodup.of_append_right
  cases side with
  | Buy => exact hnd.of_append_left.sublist (queue_slots_sublist m.bids price)
  | Sell => exact hnd.of_append_right.sublist (queue_slots_sublist m.asks price)

/-- A level is determined by its queue. -/
theorem Represents.levelAt_of_queueAt (h : Represents N b m) (hv : m.Valid N) (side : Side)
    (price : Int) :
    b.levelAt side price = if m.queueAt side price = [] then none
      else some (levelOf (m.queueAt side price)) := by
  have hnone := h.levelAt_eq_none_iff hv side price
  rw [h.ordersAt hv, Option.some_inj, List.map_eq_nil_iff] at hnone
  split
  · rename_i hq
    exact hnone.mpr hq
  · rename_i hq
    rcases h.levelAt_eq side price with ⟨-, hq'⟩ | hl
    · exact absurd hq' hq
    · exact hl

/-- **Removing the order in a slot.** -/
theorem Represents.removes (h : Represents N b m) (hv : m.Valid N) {id : Nat} {n : Ptr}
    (hid : m.index.find? id = some n) (h' : Represents N b' (m.remove id n)) :
    ∃ side price, b.Removes b' id side price := by
  have hv' : (m.remove id n).Valid N := ⟨hv.consistent.remove hid, hv.uncrossed.prune _⟩
  obtain ⟨⟨price, r⟩, hx, rfl, rfl⟩ := hv.consistent.sound id n hid
  obtain ⟨side, hr⟩ := QueueBook.mem_resting_iff.mp hx
  obtain ⟨ahead, behind, hq⟩ := List.append_of_mem hr
  -- the other orders at the price have other slots
  have hnd := hv.nodup_slots side price
  rw [hq, List.map_append, List.map_cons, List.nodup_middle, List.nodup_cons, ← List.map_append]
    at hnd
  have hq' : (m.remove r.id r.slot).queueAt side price = ahead ++ behind := by
    rw [QueueBook.queueAt_remove, hq, List.filter_append, List.filter_cons_of_neg (by simp),
      ← List.filter_append, List.filter_eq_self]
    intro r' hr'
    exact bne_iff_ne.mpr fun he ↦ hnd.1 (he ▸ List.mem_map_of_mem hr')
  have hother : ∀ s p, (s, p) ≠ (side, price) →
      (m.remove r.id r.slot).queueAt s p = m.queueAt s p := by
    intro s p hne
    rw [QueueBook.queueAt_remove, List.filter_eq_self]
    exact fun r' hr' ↦ bne_iff_ne.mpr fun he ↦ hne (hv.queue_eq_of_slot hr' hr he)
  refine ⟨side, price, ⟨ahead.map fun r ↦ (r.id, r.qty), r.qty,
    behind.map fun r ↦ (r.id, r.qty), ?_, ?_, ?_⟩, fun s p hne ↦ ⟨?_, ?_⟩,
    ⟨r.slot, m.free, h.index_eq ▸ hid, h.freeSlots hv, ?_, h'.freeSlots hv', ?_⟩, fun i ↦ ?_, ?_⟩
  · rw [h.ordersAt hv, hq, List.map_append, List.map_cons]
  · rw [h'.ordersAt hv', hq', List.map_append]
  · rw [h'.levelAt_eq_none_iff hv', h'.ordersAt hv', hq', Option.some_inj, List.map_append]
  · rw [h'.ordersAt hv', h.ordersAt hv, hother s p hne]
  · rw [h'.levelAt_of_queueAt hv', h.levelAt_of_queueAt hv, hother s p hne]
  · intro hfree
    exact List.disjoint_of_nodup_append hv.consistent.nodup hfree
      (slots_append_eq ▸ List.mem_map_of_mem hx)
  · have hb := h.inUse_add_free hv
    have hb' := h'.inUse_add_free hv'
    rw [show (m.remove r.id r.slot).free = r.slot :: m.free from rfl, List.length_cons] at hb'
    omega
  · rw [h'.index_eq, h.index_eq]
    exact SortedMap.find?_erase ..
  · rw [h.eq_withPool, h'.eq_withPool]
    exact ⟨rfl, rfl⟩

end Remove

/-! ## Ids that have left the book -/

namespace QueueBook

variable {N k : Nat} {m : QueueBook}

/-- Nothing rests under the id. -/
def Gone (m : QueueBook) (id : Nat) : Prop := ∀ x ∈ resting m.bids m.asks, x.2.id ≠ id

theorem gone_placeOn {c c' : KeyCompare} {own : Queues c} {opp : Queues c'} {t : Settling}
    {id id' : Nat} (hne : id' ≠ id) (h : ∀ x ∈ resting own opp, x.2.id ≠ id) (price : Int)
    (ts : Nat) :
    ∀ x ∈ resting (placeOn own opp t id' price ts).1 (placeOn own opp t id' price ts).2.1,
      x.2.id ≠ id := by
  have hmatch : ∀ x ∈ resting own (matchQueues id' price opp t).1, x.2.id ≠ id := by
    intro x hx
    obtain ⟨y, hy, he⟩ := exists_of_mem_matchQueues id' price hx
    simp only [tag, Prod.mk.injEq] at he
    exact he.2.2 ▸ h y hy
  intro x hx
  simp only [placeOn] at hx
  rcases restQueue_cases own (matchQueues id' price opp t).2 id' price ts with
    ⟨-, he⟩ | ⟨p, free, -, -, he⟩
  · rw [he] at hx
    exact hmatch x hx
  · rw [he] at hx
    rcases (mem_resting_pushBack price).mp hx with rfl | hx
    · exact hne
    · exact hmatch x hx

/-- An id that was handed out is not handed out again, so what has left the book stays out. -/
theorem Gone.perform {id : Nat} (h : m.Gone id) (hk : m.Counted k) (hid : id ≤ k) (call : Call)
    (hlt : k + placements [call] < 2 ^ 64) : (m.perform call).1.Gone id := by
  cases call with
  | placeLimit side price qty =>
    have hnext : m.nextId ≠ id := by
      rw [hk.nextId_eq hlt]
      omega
    cases side with
    | Buy => exact gone_placeOn hnext h price m.nextTs
    | Sell =>
      intro x hx
      exact gone_placeOn hnext (fun y hy ↦ h y (mem_resting_symm.mp hy)) price m.nextTs x
        (mem_resting_symm.mp hx)
  | cancel id' =>
    intro x hx
    simp only [QueueBook.perform, QueueBook.cancel] at hx
    split at hx
    · exact h x hx
    · exact h x (mem_resting_prune.mp hx).1

theorem Gone.run {id : Nat} (h : m.Gone id) (hv : m.Valid N) (hk : m.Counted k) (hid : id ≤ k)
    (calls : List Call) (hlt : k + placements calls < 2 ^ 64) : (m.run calls).1.Gone id := by
  induction calls generalizing m k with
  | nil => exact h
  | cons call calls ih =>
    rw [placements_cons] at hlt
    exact ih (h.perform hk hid call (by omega)) (hv.perform call) (hk.perform hv call (by omega))
      (by omega) (by omega)

theorem run_append (m : QueueBook) (calls calls' : List Call) :
    (m.run (calls ++ calls')).1 = ((m.run calls).1.run calls').1 := by
  induction calls generalizing m with
  | nil => rfl
  | cons call calls ih => exact ih (m.perform call).1

theorem Valid.find?_eq_none_iff (hv : m.Valid N) (hk : m.Counted k) (id : Nat) :
    m.index.find? id = none ↔ m.Gone id := by
  constructor
  · intro hnone x hx hid
    rw [← hid, hk.numbered.complete x hx] at hnone
    simp at hnone
  · intro hgone
    refine Option.eq_none_iff_forall_ne_some.mpr fun n hn ↦ ?_
    obtain ⟨x, hx, -, hid⟩ := hv.consistent.sound id n hn
    exact hgone x hx hid

end QueueBook

section Read

variable {N k : Nat} {b : OrderBook} {m : QueueBook}

theorem Represents.hasOrder_iff (h : Represents N b m) (hv : m.Valid N) (id : Nat) :
    b.HasOrder id ↔ ¬ m.Gone id := by
  simp only [OrderBook.HasOrder, h.ordersAt hv, Option.some_inj, exists_eq_left', List.map_map,
    QueueBook.Gone, not_forall, not_not]
  constructor
  · rintro ⟨side, price, hid⟩
    obtain ⟨r, hr, rfl⟩ := List.mem_map.mp hid
    exact ⟨(price, r), QueueBook.mem_resting_iff.mpr ⟨side, hr⟩, rfl⟩
  · rintro ⟨⟨price, r⟩, hx, rfl⟩
    obtain ⟨side, hr⟩ := QueueBook.mem_resting_iff.mp hx
    exact ⟨side, price, List.mem_map_of_mem hr⟩

/-- **What one cancel does**, whatever the ids of the book. -/
theorem Represents.cancel_cases (h : Represents N b m) (hv : m.Valid N) (id : Nat) :
    m.index.find? id = none ∧ b.cancel id = some (b, false) ∨
      m.index.find? id ≠ none ∧ ∃ b' side price, b.cancel id = some (b', true) ∧
        b.Removes b' id side price := by
  cases hid : m.index.find? id with
  | none =>
    refine .inl ⟨rfl, ?_⟩
    rw [OrderBook.cancel, h.index_eq, hid]
  | some n =>
    obtain ⟨b', he, h'⟩ := h.cancel hv id
    have hcancel : m.cancel id = (m.remove id n, true) := by rw [QueueBook.cancel, hid]
    rw [hcancel] at he h'
    obtain ⟨side, price, hr⟩ := h.removes hv hid h'
    exact .inr ⟨by simp, b', side, price, he, hr⟩

end Read

/-- **Cancelling removes the order that rests under an id, and nothing else**, and fails for any
other id. -/
theorem cancel_removes (N : Nat) (calls : List Call) :
    ∃ b replies, (OrderBook.new N).run calls = some (b, replies) ∧
      -- whatever the ids
      (∀ id, ∃ b' ok, b.cancel id = some (b', ok) ∧ (ok = false → b' = b) ∧
        (ok = true → ∃ side price, b.Removes b' id side price)) ∧
      (∀ id n, b.index.find? id = some n →
        ∃ x lvl, b.pool.deref n = some x ∧ b.levelAt x.side x.price = some lvl) ∧
      -- while they are unique
      (placements calls < 2 ^ 64 →
        (∀ id b' ok, b.cancel id = some (b', ok) →
          (ok = true ↔ b.HasOrder id) ∧ ¬ b'.HasOrder id) ∧
        ∀ done, done <+: calls → ∃ b₀ replies₀, (OrderBook.new N).run done = some (b₀, replies₀) ∧
          ∀ id ≤ placements done, ¬ b₀.HasOrder id → b.cancel id = some (b, false)) := by
  obtain ⟨b, he, h, hv⟩ := run_new N calls
  refine ⟨b, _, he, fun id ↦ ?_, fun id n hid ↦ ?_, fun hlt ↦ ⟨fun id b' ok hc ↦ ?_, ?_⟩⟩
  · rcases h.cancel_cases hv id with ⟨-, hc⟩ | ⟨-, b', side, price, hc, hr⟩
    · exact ⟨b, false, hc, fun _ ↦ rfl, by simp⟩
    · exact ⟨b', true, hc, by simp, fun _ ↦ ⟨side, price, hr⟩⟩
  · obtain ⟨x, hx, -, lvl, -, hl, -⟩ := (h.wellFormed hv).index id n hid
    exact ⟨x, lvl, hx, hl⟩
  · have hk := QueueBook.counted_run_new N calls hlt
    have hgone := hv.find?_eq_none_iff hk id
    obtain ⟨b₁, hc₁, h₁⟩ := h.cancel hv id
    obtain ⟨rfl, rfl⟩ : b₁ = b' ∧ _ = ok := by simpa [hc₁] using hc
    rw [h.hasOrder_iff hv, h₁.hasOrder_iff (hv.cancel id), ← hgone, not_not,
      ← (hv.cancel id).find?_eq_none_iff (hk.cancel id)]
    rw [QueueBook.cancel]
    cases hid : ((QueueBook.new N).run calls).1.index.find? id with
    | none => exact ⟨by simp, hid⟩
    | some n =>
      refine ⟨by simp, ?_⟩
      simp only [QueueBook.remove, SortedMap.find?_erase, if_true]
  · rintro done ⟨later, rfl⟩
    obtain ⟨b₀, he₀, h₀, hv₀⟩ := run_new N done
    refine ⟨b₀, _, he₀, fun id hid hout ↦ ?_⟩
    have hsplit : placements (done ++ later) = placements done + placements later :=
      List.countP_append
    rw [hsplit] at hlt
    have hk₀ := QueueBook.counted_run_new N done (by omega)
    have hgone := (not_not.mp (mt (h₀.hasOrder_iff hv₀ id).mpr hout)).run hv₀ hk₀ hid later hlt
    rw [← QueueBook.run_append] at hgone
    have hk := QueueBook.counted_run_new N (done ++ later) (by omega)
    rcases h.cancel_cases hv id with ⟨-, hc⟩ | ⟨hsome, -⟩
    · exact hc
    · exact absurd ((hv.find?_eq_none_iff hk id).mpr hgone) hsome

/-- Of two orders at one price the first is cancelled, and cannot be cancelled again; the second
still can. -/
theorem cancel_removes_two_orders :
    placements [.placeLimit .Buy 100 1, .placeLimit .Buy 100 1, .cancel 1] < 2 ^ 64 ∧
      ∃ b replies, (OrderBook.new 2).run
          [.placeLimit .Buy 100 1, .placeLimit .Buy 100 1, .cancel 1] = some (b, replies) ∧
        b.cancel 1 = some (b, false) ∧ ¬ b.HasOrder 1 ∧ b.HasOrder 2 := by
  refine ⟨by decide, ?_⟩
  obtain ⟨b, replies, he, hall, -, h⟩ := cancel_removes 2
    [.placeLimit .Buy 100 1, .placeLimit .Buy 100 1, .cancel 1]
  obtain ⟨hone, -⟩ := h (by decide)
  have hread : ((OrderBook.new 2).run
      [.placeLimit .Buy 100 1, .placeLimit .Buy 100 1, .cancel 1]).map
        (fun x ↦ ((x.1.cancel 1).map Prod.snd, (x.1.cancel 2).map Prod.snd))
      = some (some false, some true) := by decide +kernel
  rw [he, Option.map_some, Option.some_inj, Prod.mk.injEq] at hread
  obtain ⟨b₁, ok, hc, hsame, -⟩ := hall 1
  obtain rfl : ok = false := by simpa [hc] using hread.1
  obtain rfl := hsame rfl
  obtain ⟨b₂, ok, hc₂, -⟩ := hall 2
  obtain rfl : ok = true := by simpa [hc₂] using hread.2
  exact ⟨_, replies, he, hc, (hone 1 _ _ hc).2, (hone 2 _ _ hc₂).1.mp rfl⟩

end MatchingEngine
