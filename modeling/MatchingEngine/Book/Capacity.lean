import MatchingEngine.Book.TopOfBook

/-!
# The size of the pool

A book does not notice how large its pool is, as long as there is a slot for every remainder.
`Engine.Fits n e e'` says that the engine `e'` is like `e`, with a larger pool, and that `e` has
room for `n` more orders.  Until that is used up, the two give the same answers.

So a run on a small pool, which can be evaluated, tells what happens on the pool of two million
slots that an engine really has.
-/

set_option autoImplicit false

namespace MatchingEngine

open Greedy LevelQueue

namespace QueueBook

/-- The same book with more free slots. -/
def extend (m : QueueBook) (more : List Ptr) : QueueBook := { m with free := m.free ++ more }

def Settling.extend (s : Settling) (more : List Ptr) : Settling := { s with free := s.free ++ more }

section Settle

variable {c c' : KeyCompare} (own : Queues c) (opp : Queues c') {s : Settling} (more : List Ptr)

theorem settle_extend (s : Settling) (id : Nat) (w : Swept Int Resting) :
    settle id w (s.extend more) = (settle id w s).extend more := by
  simp only [settle, Settling.extend, List.append_assoc]

theorem restQueue_extend (hfree : s.free ≠ []) (id : Nat) (price : Int) (ts : Nat) :
    restQueue own (s.extend more) id price ts
      = ((restQueue own s id price ts).1, (restQueue own s id price ts).2.1.extend more,
        (restQueue own s id price ts).2.2) := by
  obtain ⟨p, free, hp⟩ := List.exists_cons_of_ne_nil hfree
  simp only [restQueue, Settling.extend, hp, List.cons_append]
  split
  · rfl
  · simp only [hp, List.cons_append]

theorem placeOn_extend (hfree : s.free ≠ []) (id : Nat) (price : Int) (ts : Nat) :
    placeOn own opp (s.extend more) id price ts
      = ((placeOn own opp s id price ts).1, (placeOn own opp s id price ts).2.1,
        (placeOn own opp s id price ts).2.2.1.extend more,
        (placeOn own opp s id price ts).2.2.2) := by
  have hmatch : matchQueues id price opp (s.extend more)
      = ((matchQueues id price opp s).1, (matchQueues id price opp s).2.extend more) := by
    simp only [matchQueues, settle_extend]
    rfl
  have hleft : (matchQueues id price opp s).2.free ≠ [] := by
    simp [matchQueues, settle, hfree]
  simp only [placeOn, hmatch, restQueue_extend own more hleft]

theorem length_free_placeOn (s : Settling) (id : Nat) (price : Int) (ts : Nat) :
    s.free.length ≤ (placeOn own opp s id price ts).2.2.1.free.length + 1 := by
  simp only [placeOn, restQueue]
  have hmatch : s.free.length ≤ (matchQueues id price opp s).2.free.length := by
    simp [matchQueues, settle]
  split
  · split
    · exact hmatch.trans (Nat.le_succ _)
    · rename_i p free hp
      rw [hp, List.length_cons] at hmatch
      exact hmatch
  · exact hmatch.trans (Nat.le_succ _)

end Settle

theorem placeLimit_extend {m : QueueBook} (hfree : m.free ≠ []) (more : List Ptr) (side : Side)
    (price qty : Int) (trades : List Trade) :
    (m.extend more).placeLimit side price qty trades
      = ((m.placeLimit side price qty trades).1.extend more,
        (m.placeLimit side price qty trades).2) := by
  cases side with
  | Buy =>
    have h := placeOn_extend m.bids m.asks more (s := ⟨m.index, m.free, qty, trades⟩) hfree m.nextId
      price m.nextTs
    simp only [placeLimit, extend, Settling.extend] at h ⊢
    rw [h]
  | Sell =>
    have h := placeOn_extend m.asks m.bids more (s := ⟨m.index, m.free, qty, trades⟩) hfree m.nextId
      price m.nextTs
    simp only [placeLimit, extend, Settling.extend] at h ⊢
    rw [h]

theorem cancel_extend (m : QueueBook) (more : List Ptr) (id : Nat) :
    (m.extend more).cancel id = ((m.cancel id).1.extend more, (m.cancel id).2) := by
  simp only [cancel, extend]
  split <;> rfl

theorem length_free_placeLimit (m : QueueBook) (side : Side) (price qty : Int)
    (trades : List Trade) :
    m.free.length ≤ (m.placeLimit side price qty trades).1.free.length + 1 := by
  cases side with
  | Buy => exact length_free_placeOn m.bids m.asks ⟨m.index, m.free, qty, trades⟩ _ _ _
  | Sell => exact length_free_placeOn m.asks m.bids ⟨m.index, m.free, qty, trades⟩ _ _ _

theorem length_free_cancel (m : QueueBook) (id : Nat) :
    m.free.length ≤ (m.cancel id).1.free.length := by
  rw [cancel]
  split
  · exact le_rfl
  · simp [remove]

end QueueBook

namespace Engine

/-- The second engine is the first with a larger pool, and the first has room for `n` more
orders. -/
def Fits (n : Nat) (e e' : Engine) : Prop :=
  ∃ N N' m more, (Represents N e.book m ∧ m.Valid N) ∧
    (Represents N' e'.book (m.extend more) ∧ (m.extend more).Valid N') ∧
    e'.lastTrades = e.lastTrades ∧ n ≤ m.free.length

variable {n : Nat} {e e' e₁ : Engine}

theorem Fits.of_succ (h : e.Fits (n + 1) e') : e.Fits n e' := by
  obtain ⟨N, N', m, more, hr, hr', htrades, hn⟩ := h
  exact ⟨N, N', m, more, hr, hr', htrades, n.le_succ.trans hn⟩

theorem Fits.placeLimit (h : e.Fits (n + 1) e') {side : Side} {price qty : Int} {id : Nat}
    (he : e.placeLimit side price qty = some (e₁, id)) :
    ∃ e₁', e'.placeLimit side price qty = some (e₁', id) ∧ e₁.Fits n e₁' := by
  obtain ⟨N, N', m, more, ⟨hr, hv⟩, ⟨hr', hv'⟩, htrades, hn⟩ := h
  have hfree : m.free ≠ [] := by
    rw [← List.length_pos_iff_ne_nil]
    omega
  obtain ⟨b, hb, hrb⟩ := hr.placeLimit hv side price qty []
  obtain ⟨b', hb', hrb'⟩ := hr'.placeLimit hv' side price qty []
  have hvb' := hv'.placeLimit side price qty []
  rw [QueueBook.placeLimit_extend hfree] at hb' hrb' hvb'
  rw [Engine.placeLimit, hb] at he
  obtain ⟨rfl, rfl⟩ := Prod.mk.inj (Option.some.inj he)
  refine ⟨⟨b', (m.placeLimit side price qty []).2.2⟩, by rw [Engine.placeLimit, hb']; rfl, N, N',
    (m.placeLimit side price qty []).1, more, ⟨hrb, hv.placeLimit side price qty []⟩,
    ⟨hrb', hvb'⟩, rfl, ?_⟩
  have := m.length_free_placeLimit side price qty []
  omega

theorem Fits.cancel (h : e.Fits n e') {id : Nat} {ok : Bool} (he : e.cancel id = some (e₁, ok)) :
    ∃ e₁', e'.cancel id = some (e₁', ok) ∧ e₁.Fits n e₁' := by
  obtain ⟨N, N', m, more, ⟨hr, hv⟩, ⟨hr', hv'⟩, htrades, hn⟩ := h
  obtain ⟨b, hb, hrb⟩ := hr.cancel hv id
  obtain ⟨b', hb', hrb'⟩ := hr'.cancel hv' id
  have hvb' := hv'.cancel id
  rw [QueueBook.cancel_extend] at hb' hrb' hvb'
  rw [Engine.cancel, hb] at he
  obtain ⟨rfl, rfl⟩ := Prod.mk.inj (Option.some.inj he)
  exact ⟨{ e' with book := b' }, by rw [Engine.cancel, hb']; rfl, N, N', (m.cancel id).1, more,
    ⟨hrb, hv.cancel id⟩, ⟨hrb', hvb'⟩, htrades, hn.trans (m.length_free_cancel id)⟩

theorem Fits.lastTrades (h : e.Fits n e') : e'.lastTrades = e.lastTrades := by
  obtain ⟨N, N', m, more, -, -, htrades, -⟩ := h
  exact htrades

/-- The maps of the two books are the same. -/
theorem Fits.maps (h : e.Fits n e') :
    e'.book.bids = e.book.bids ∧ e'.book.asks = e.book.asks ∧ e'.book.nextId = e.book.nextId := by
  obtain ⟨N, N', m, more, ⟨hr, -⟩, ⟨hr', -⟩, -⟩ := h
  rw [hr.eq_withPool, hr'.eq_withPool]
  exact ⟨rfl, rfl, rfl⟩

theorem Fits.bestBid (h : e.Fits n e') : e'.book.bestBid = e.book.bestBid := by
  rw [OrderBook.bestBid, OrderBook.bestBid, h.maps.1]

theorem Fits.bestAsk (h : e.Fits n e') : e'.book.bestAsk = e.book.bestAsk := by
  rw [OrderBook.bestAsk, OrderBook.bestAsk, h.maps.2.1]

theorem Fits.qtyAt (h : e.Fits n e') (side : Side) (price : Int) :
    e'.book.qtyAt side price = e.book.qtyAt side price := by
  obtain ⟨N, N', m, more, ⟨hr, hv⟩, ⟨hr', hv'⟩, -⟩ := h
  rw [hr.qtyAt hv, hr'.qtyAt hv']
  cases side <;> rfl

theorem Fits.quotes (h : e.Fits n e') (side : Side) : e'.book.quotes side = e.book.quotes side := by
  obtain ⟨N, N', m, more, ⟨hr, hv⟩, ⟨hr', hv'⟩, -⟩ := h
  rw [hr.quotes hv, hr'.quotes hv']
  cases side <;> rfl

theorem Fits.prices (h : e.Fits n e') : ∀ side, e'.book.prices side = e.book.prices side
  | .Buy => congrArg SortedMap.keys h.maps.1
  | .Sell => congrArg SortedMap.keys h.maps.2.1

theorem Fits.bookTop (h : e.Fits n e') : e'.book.bookTop = e.book.bookTop := by
  obtain ⟨N, N', m, more, ⟨hr, hv⟩, ⟨hr', hv'⟩, -⟩ := h
  rw [hr.bookTop_eq hv, hr'.bookTop_eq hv']
  rfl

theorem fits_new {N N' : Nat} (h : N ≤ N') : (Engine.new N).Fits N (Engine.new N') := by
  obtain ⟨k, rfl⟩ := Nat.exists_eq_add_of_le h
  have hm : QueueBook.new (N + k) = (QueueBook.new N).extend ((List.range k).map (N + ·)) := by
    rw [QueueBook.extend, QueueBook.new, QueueBook.new, List.range_add]
  refine ⟨N, N + k, QueueBook.new N, (List.range k).map (N + ·),
    ⟨represents_new N, QueueBook.valid_new N⟩, ?_, rfl, ?_⟩
  · rw [← hm]
    exact ⟨represents_new _, QueueBook.valid_new _⟩
  · exact (List.length_range (n := N)).ge

/-- An engine that has handed out more ids. -/
def withNextId (e : Engine) (id : Nat) : Engine := { e with book.nextId := id }

theorem Fits.withNextId (h : e.Fits n e') (id : Nat) :
    (e.withNextId id).Fits n (e'.withNextId id) := by
  obtain ⟨N, N', m, more, ⟨hr, hv⟩, ⟨hr', hv'⟩, htrades, hn⟩ := h
  refine ⟨N, N', { m with nextId := id }, more, ⟨⟨?_, hr.layout⟩, hv.consistent, hv.uncrossed⟩,
    ⟨⟨?_, hr'.layout⟩, hv'.consistent, hv'.uncrossed⟩, htrades, hn⟩
  · rw [Engine.withNextId]
    nth_rw 1 [hr.eq_withPool]
    rfl
  · rw [Engine.withNextId]
    nth_rw 1 [hr'.eq_withPool]
    rfl

variable {N : Nat} {calls : List Call}

theorem Reached.placeLimit (h : e.Reached N calls) {side : Side} {price qty : Int} {id : Nat}
    (he : e.placeLimit side price qty = some (e₁, id)) :
    e₁.Reached N (calls ++ [.placeLimit side price qty]) := by
  obtain ⟨replies, hrun⟩ := h
  rw [Engine.placeLimit, Option.bind_eq_bind, Option.bind_eq_some_iff] at he
  obtain ⟨⟨b, id', trades⟩, hb, he⟩ := he
  obtain ⟨rfl, rfl⟩ := Prod.mk.inj (Option.some.inj he)
  have hrun' : e.book.run [.placeLimit side price qty] = some (b, [.placed id' trades]) := by
    rw [OrderBook.run, OrderBook.perform, hb]
    rfl
  exact ⟨_, OrderBook.run_append hrun hrun'⟩

/-- Placements of nothing let ids go by. -/
theorem Reached.withNextId (h : e.Reached N calls) (hid : e.book.nextId < 2 ^ 64) (n : Nat) :
    (e.withNextId ((e.book.nextId + n) % 2 ^ 64)).Reached N
      (calls ++ List.replicate n (.placeLimit .Buy 0 0)) := by
  obtain ⟨replies, hrun⟩ := h
  obtain ⟨replies', hrun'⟩ := OrderBook.run_replicate_zero n hid
  exact ⟨_, OrderBook.run_append hrun hrun'⟩

/-- **Every id can come next**, on an engine that has never held an order. -/
theorem reached_withNextId (N : Nat) {id : Nat} (hid : 1 ≤ id) (hlt : id < 2 ^ 64) :
    ((Engine.new N).withNextId id).Reached N (List.replicate (id - 1) (.placeLimit .Buy 0 0)) := by
  have hnew : (Engine.new N).Reached N [] := ⟨[], rfl⟩
  have h := hnew.withNextId (show 1 < 2 ^ 64 by decide) (id - 1)
  rwa [show (Engine.new N).book.nextId = 1 from rfl, Nat.add_sub_cancel' hid, Nat.mod_eq_of_lt hlt,
    List.nil_append] at h

end Engine

end MatchingEngine
