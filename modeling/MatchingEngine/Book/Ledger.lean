import MatchingEngine.Book.History

/-!
# The lifetime of an order

`Ledger` is what holds of a history and the queues it has led to: every order's quantity is
accounted for, every trade is fair, and nobody trades after leaving the book.  It is kept by every
call for as long as ids are not used twice, and `run_ledger` reads it off the code's own state.
-/

set_option autoImplicit false

namespace MatchingEngine

open Greedy LevelQueue

section Events

variable {es : List Event} {e : Event} {k id : Nat} {side : Side} {price qty : Int}

theorem placed_append : Placed (es ++ [e]) id side price qty ↔
    Placed es id side price qty ∨ e.call = .placeLimit side price qty ∧ e.placedId = some id := by
  simp only [Placed, List.mem_append, List.mem_singleton]
  constructor
  · rintro ⟨x, hx | rfl, h⟩
    · exact .inl ⟨x, hx, h⟩
    · exact .inr h
  · rintro (⟨x, hx, h⟩ | h)
    · exact ⟨x, .inl hx, h⟩
    · exact ⟨e, .inr rfl, h⟩

theorem Placed.append (h : Placed es id side price qty) (e : Event) :
    Placed (es ++ [e]) id side price qty := placed_append.mpr (.inl h)

theorem Fair.append {t : Trade} (h : Fair es t) (e : Event) : Fair (es ++ [e]) t := by
  obtain ⟨side, limit, qty, qty', ht, hm, hw⟩ := h.parties
  exact ⟨h.pos, h.lt, side, limit, qty, qty', ht.append e, hm.append e, hw⟩

theorem le_of_placedId (hids : es.filterMap Event.placedId = List.range' 1 k) (he : e ∈ es)
    (hid : e.placedId = some id) : id ≤ k := by
  have hmem : id ∈ es.filterMap Event.placedId := List.mem_filterMap.mpr ⟨e, he, hid⟩
  rw [hids, List.mem_range'_1] at hmem
  omega

theorem Placed.le (h : Placed es id side price qty)
    (hids : es.filterMap Event.placedId = List.range' 1 k) : id ≤ k := by
  obtain ⟨e, he, -, hid⟩ := h
  exact le_of_placedId hids he hid

end Events

/-- What the books show after the events `es`, the last order being `k`.  Orders on `own` were
placed on `side`. -/
structure Ledger {c c' : KeyCompare} (k : Nat) (side : Side) (own : Queues c) (opp : Queues c')
    (es : List Event) : Prop where
  ids : es.filterMap Event.placedId = List.range' 1 k
  balance : ∀ id s price qty, Placed es id s price qty → 0 < qty →
    qty = takerTotal (tradesIn es) id + makerTotal (tradesIn es) id + cancelledTotal es id
      + restingTotal own opp id + droppedTotal es id
  placedOwn : ∀ x ∈ lots own, ∃ qty, Placed es x.2.id side x.1 qty
  placedOpp : ∀ x ∈ lots opp, ∃ qty, Placed es x.2.id side.opposite x.1 qty
  fair : ∀ t ∈ tradesIn es, Fair es t
  nonneg : ∀ e ∈ es, 0 ≤ e.removed ∧ 0 ≤ e.dropped
  closed : ∀ e ∈ es, ∀ id, e.Closes id → id ≤ k ∧ ∀ x ∈ resting own opp, x.2.id ≠ id
  after : ∀ pre e post id, es = pre ++ e :: post → e.Closes id →
    ∀ t ∈ tradesIn post, ¬ t.Names id

section Pair

variable {c c' : KeyCompare} {k : Nat} {side : Side} {own own' : Queues c} {opp opp' : Queues c'}
  {es : List Event}

theorem Side.opposite_opposite (side : Side) : side.opposite.opposite = side := by
  cases side <;> rfl

theorem Side.eq_opposite_of_ne {s side : Side} (h : s ≠ side) : s = side.opposite := by
  cases s <;> cases side <;> first | rfl | exact absurd rfl h

theorem Ledger.symm (h : Ledger k side own opp es) : Ledger k side.opposite opp own es where
  ids := h.ids
  balance id s price qty hp hq := by
    rw [restingTotal_symm]
    exact h.balance id s price qty hp hq
  placedOwn := h.placedOpp
  placedOpp := by
    rw [side.opposite_opposite]
    exact h.placedOwn
  fair := h.fair
  nonneg := h.nonneg
  closed e he id hc := by
    obtain ⟨hle, hne⟩ := h.closed e he id hc
    exact ⟨hle, fun x hx ↦ hne x (mem_resting_symm.mp hx)⟩
  after := h.after

/-- Nothing is known of an id that has not been given out. -/
theorem Ledger.unplaced (h : Ledger k side own opp es) {id : Nat} (hid : k < id) :
    takerTotal (tradesIn es) id = 0 ∧ makerTotal (tradesIn es) id = 0 ∧
      cancelledTotal es id = 0 ∧ droppedTotal es id = 0 := by
  have hplaced : ∀ {j s price qty}, Placed es j s price qty → j ≠ id := fun hj ↦ by
    have := hj.le h.ids
    omega
  refine ⟨total_eq_zero fun t ht ↦ ?_, total_eq_zero fun t ht ↦ ?_, total_eq_zero fun e he ↦ ?_,
    total_eq_zero fun e he ↦ ?_⟩
  · obtain ⟨s, limit, qty, qty', htaker, -, -⟩ := (h.fair t ht).parties
    exact beq_eq_false_iff_ne.mpr (hplaced htaker)
  · obtain ⟨s, limit, qty, qty', -, hmaker, -⟩ := (h.fair t ht).parties
    exact beq_eq_false_iff_ne.mpr (hplaced hmaker)
  · refine beq_eq_false_iff_ne.mpr fun hc ↦ ?_
    have := (h.closed e he id (.inl hc)).1
    omega
  · refine beq_eq_false_iff_ne.mpr fun hp ↦ ?_
    have := le_of_placedId h.ids he hp
    omega

/-- Nobody trades after leaving the book: one more event. -/
theorem after_append {e' : Event}
    (h : ∀ pre e post id, es = pre ++ e :: post → e.Closes id → ∀ t ∈ tradesIn post, ¬ t.Names id)
    (hnew : ∀ e ∈ es, ∀ id, e.Closes id → ∀ t ∈ e'.trades, ¬ t.Names id) :
    ∀ pre e post id, es ++ [e'] = pre ++ e :: post → e.Closes id →
      ∀ t ∈ tradesIn post, ¬ t.Names id := by
  intro pre e post id hes hc t ht
  rcases List.eq_nil_or_concat' post with rfl | ⟨post, z, rfl⟩
  · simp [tradesIn] at ht
  · rw [← List.cons_append, ← List.append_assoc] at hes
    obtain ⟨hes, hz⟩ := List.append_inj' hes rfl
    rw [tradesIn_append, List.mem_append] at ht
    rcases ht with ht | ht
    · exact h pre e post id hes hc t ht
    · rw [List.singleton_inj.mp hz] at hnew
      refine hnew e (by simp [hes]) id hc t ?_
      simpa [tradesIn] using ht

/-- A trade of an event is a trade of the history. -/
theorem tradesIn_concat (es : List Event) (e : Event) :
    tradesIn (es ++ [e]) = tradesIn es ++ e.trades := by
  rw [tradesIn_append]
  simp [tradesIn]

/-- Who rests after a placement was there before, or is the new order. -/
theorem Placement.id_of_mem_resting {price qty dropped : Int} {trades : List Trade}
    (hp : Placement k own own' opp opp' price qty trades dropped) {x : Int × Resting}
    (hx : x ∈ resting own' opp') : x.2.id = k + 1 ∨ ∃ y ∈ resting own opp, y.2.id = x.2.id := by
  rcases mem_resting.mp hx with hx | hx
  · rcases hp.own x hx with ⟨y, hy, hyx⟩ | ⟨-, hid⟩
    · exact .inr ⟨y, mem_resting.mpr (.inl hy), congrArg (·.2.2) hyx⟩
    · exact .inl hid
  · obtain ⟨y, hy, hyx⟩ := hp.opp x hx
    exact .inr ⟨y, mem_resting.mpr (.inr hy), congrArg (·.2.2) hyx⟩

theorem Placement.makerId_le {price qty dropped : Int} {trades : List Trade}
    (hp : Placement k own own' opp opp' price qty trades dropped)
    (hle : ∀ x ∈ resting own opp, x.2.id ≤ k) : ∀ t ∈ trades, t.makerId ≤ k := by
  intro t ht
  obtain ⟨-, -, x, hx, -, hid⟩ := hp.maker t ht
  exact hid ▸ hle x (mem_resting.mpr (.inr hx))

/-- The event of the placement of the order `k + 1`. -/
def Event.ofPlacement (k : Nat) (side : Side) (price qty dropped : Int) (trades : List Trade) :
    Event :=
  ⟨.placeLimit side price qty, .placed (k + 1) trades, 0, dropped⟩

section Place

variable {price qty dropped : Int} {trades : List Trade}

theorem placed_ofPlacement (es : List Event) :
    Placed (es ++ [.ofPlacement k side price qty dropped trades]) (k + 1) side price qty :=
  placed_append.mpr (.inr ⟨rfl, rfl⟩)

theorem cancelledTotal_ofPlacement (es : List Event) (id : Nat) :
    cancelledTotal (es ++ [.ofPlacement k side price qty dropped trades]) id
      = cancelledTotal es id := by
  rw [cancelledTotal, total_append, total_cons]
  simp [cancelledTotal, Event.cancelledId, Event.ofPlacement]

theorem droppedTotal_ofPlacement (es : List Event) (id : Nat) :
    droppedTotal (es ++ [.ofPlacement k side price qty dropped trades]) id
      = droppedTotal es id + if k + 1 = id then dropped else 0 := by
  rw [droppedTotal, total_append, total_cons]
  simp [droppedTotal, Event.placedId, Event.ofPlacement]

variable (h : Ledger k side own opp es)
  (hp : Placement k own own' opp opp' price qty trades dropped)
  (hle : ∀ x ∈ resting own opp, x.2.id ≤ k)
include h hp

/-- Who has left the book has not come back, and the new order leaves if its remainder is
dropped. -/
theorem Ledger.closed_place {e : Event}
    (he : e ∈ es ++ [.ofPlacement k side price qty dropped trades]) {id : Nat} (hc : e.Closes id) :
    id ≤ k + 1 ∧ ∀ x ∈ resting own' opp', x.2.id ≠ id := by
  rcases List.mem_append.mp he with he | he
  · obtain ⟨hidk, hne⟩ := h.closed e he id hc
    refine ⟨Nat.le_succ_of_le hidk, fun y hy ↦ ?_⟩
    rcases hp.id_of_mem_resting hy with hy | ⟨z, hz, hzy⟩
    · omega
    · exact hzy ▸ hne z hz
  · rw [List.mem_singleton.mp he] at hc
    rcases hc with hc | ⟨hid, hdrop⟩
    · simp [Event.cancelledId, Event.ofPlacement] at hc
    · obtain rfl : k + 1 = id := Option.some.inj hid
      exact ⟨Nat.le_refl _, hp.gone hdrop⟩

/-- No trade of the placement is with somebody who has left. -/
theorem Ledger.open_place {e : Event} (he : e ∈ es) {id : Nat} (hc : e.Closes id) {t : Trade}
    (ht : t ∈ trades) : ¬ t.Names id := by
  obtain ⟨hidk, hne⟩ := h.closed e he id hc
  rintro (hn | hn)
  · have := hp.taker t ht
    omega
  · obtain ⟨-, -, y, hy, -, hid⟩ := hp.maker t ht
    exact hne y (mem_resting.mpr (.inr hy)) (hid.trans hn)

include hle

/-- An earlier order has lost what was traded, and the new one is accounted for by the placement. -/
theorem Ledger.balance_place {id : Nat} {s : Side} {price' qty' : Int}
    (hplaced : Placed (es ++ [.ofPlacement k side price qty dropped trades]) id s price' qty')
    (hq : 0 < qty') :
    qty' = takerTotal (tradesIn es ++ trades) id + makerTotal (tradesIn es ++ trades) id
      + cancelledTotal es id + restingTotal own' opp' id
      + (droppedTotal es id + if k + 1 = id then dropped else 0) := by
  rw [takerTotal_append, makerTotal_append]
  rcases placed_append.mp hplaced with hplaced | ⟨hc, hid⟩
  · have hidk := hplaced.le h.ids
    have htaker : takerTotal trades id = 0 := total_eq_zero fun t ht ↦
      beq_eq_false_iff_ne.mpr (by rw [hp.taker t ht]; omega)
    have hb := h.balance id s price' qty' hplaced hq
    have ho := hp.others id hidk
    rw [if_neg (by omega)]
    omega
  · obtain rfl : k + 1 = id := Option.some.inj hid
    obtain ⟨-, -, rfl⟩ := Call.placeLimit.inj hc
    have hmaker : makerTotal trades (k + 1) = 0 := total_eq_zero fun t ht ↦
      beq_eq_false_iff_ne.mpr (by have := hp.makerId_le hle t ht; omega)
    have hu := h.unplaced (Nat.lt_add_one k)
    have hs := hp.self hq
    rw [if_pos rfl]
    omega

/-- The trades of the placement are fair. -/
theorem Ledger.fair_place
    (hcross : ∀ p, c'.cross p price = true → NotWorse side p price) {t : Trade} (ht : t ∈ trades) :
    Fair (es ++ [.ofPlacement k side price qty dropped trades]) t := by
  obtain ⟨hone, hc, x, hx, hprice, hid⟩ := hp.maker t ht
  obtain ⟨q, hq⟩ := h.placedOpp x hx
  refine ⟨hone, ?_, side, price, qty, q, ?_, ?_, hcross _ hc⟩
  · rw [hp.taker t ht]
    exact Nat.lt_succ_of_le (hp.makerId_le hle t ht)
  · rw [hp.taker t ht]
    exact placed_ofPlacement es
  · rw [← hid, ← hprice]
    exact hq.append _

/-- **A placement keeps the books.** -/
theorem Ledger.place (hcross : ∀ p, c'.cross p price = true → NotWorse side p price) :
    Ledger (k + 1) side own' opp' (es ++ [.ofPlacement k side price qty dropped trades]) := by
  constructor
  case ids =>
    rw [List.filterMap_append, h.ids, List.range'_concat]
    simp [Event.placedId, Event.ofPlacement, Nat.add_comm]
  case balance =>
    intro id s price' qty' hplaced hq
    rw [tradesIn_concat, cancelledTotal_ofPlacement, droppedTotal_ofPlacement]
    exact h.balance_place hp hle hplaced hq
  case placedOwn =>
    intro x hx
    rcases hp.own x hx with ⟨y, hy, hyx⟩ | ⟨hprice, hid⟩
    · obtain ⟨q, hq⟩ := h.placedOwn y hy
      simp only [tag, Prod.mk.injEq] at hyx
      exact ⟨q, hyx.1 ▸ hyx.2.2 ▸ hq.append _⟩
    · exact ⟨qty, hprice ▸ hid ▸ placed_ofPlacement es⟩
  case placedOpp =>
    intro x hx
    obtain ⟨y, hy, hyx⟩ := hp.opp x hx
    obtain ⟨q, hq⟩ := h.placedOpp y hy
    simp only [tag, Prod.mk.injEq] at hyx
    exact ⟨q, hyx.1 ▸ hyx.2.2 ▸ hq.append _⟩
  case fair =>
    intro t ht
    rw [tradesIn_concat, List.mem_append] at ht
    rcases ht with ht | ht
    · exact (h.fair t ht).append _
    · exact h.fair_place hp hle hcross ht
  case nonneg =>
    intro x hx
    rcases List.mem_append.mp hx with hx | hx
    · exact h.nonneg x hx
    · rw [List.mem_singleton.mp hx]
      exact ⟨Int.le_refl 0, hp.nonneg⟩
  case closed => exact fun e he id hc ↦ h.closed_place hp he hc
  case after => exact after_append h.after fun e he id hc t ht ↦ h.open_place hp he hc ht

end Place

/-- **A cancel keeps the books**, successful or not: what it takes off the book is recorded. -/
theorem Ledger.cancel (h : Ledger k side own opp es) {e : Event} (hpid : e.placedId = none)
    (htr : e.trades = []) (hown : ∀ x ∈ lots own', x ∈ lots own)
    (hopp : ∀ x ∈ lots opp', x ∈ lots opp) (hnonneg : 0 ≤ e.removed ∧ 0 ≤ e.dropped)
    (hclosed : ∀ id, e.cancelledId = some id → id ≤ k ∧ ∀ x ∈ resting own' opp', x.2.id ≠ id)
    (hbal : ∀ id, restingTotal own opp id
      = (if e.cancelledId == some id then e.removed else 0) + restingTotal own' opp' id) :
    Ledger k side own' opp' (es ++ [e]) := by
  have hplaced : ∀ {id s price qty}, Placed (es ++ [e]) id s price qty →
      Placed es id s price qty := fun hp ↦ by
    rcases placed_append.mp hp with hp | ⟨-, hid⟩
    · exact hp
    · rw [hpid] at hid
      simp at hid
  have htrades : tradesIn (es ++ [e]) = tradesIn es := by
    rw [tradesIn_concat, htr, List.append_nil]
  constructor
  case ids =>
    rw [List.filterMap_append, h.ids, List.filterMap_cons_none hpid, List.filterMap_nil,
      List.append_nil]
  case balance =>
    intro id s price qty hp hq
    have hb := h.balance id s price qty (hplaced hp) hq
    have hr := hbal id
    rw [htrades, cancelledTotal, total_append, total_cons, total_nil, droppedTotal, total_append,
      total_cons, total_nil, hpid]
    rw [cancelledTotal, droppedTotal] at hb
    simp only [reduceCtorEq, beq_iff_eq, if_false]
    simp only [beq_iff_eq] at hr
    omega
  case placedOwn =>
    intro x hx
    obtain ⟨q, hq⟩ := h.placedOwn x (hown x hx)
    exact ⟨q, hq.append e⟩
  case placedOpp =>
    intro x hx
    obtain ⟨q, hq⟩ := h.placedOpp x (hopp x hx)
    exact ⟨q, hq.append e⟩
  case fair =>
    intro t ht
    rw [htrades] at ht
    exact (h.fair t ht).append e
  case nonneg =>
    intro x hx
    rcases List.mem_append.mp hx with hx | hx
    · exact h.nonneg x hx
    · rw [List.mem_singleton.mp hx]
      exact hnonneg
  case closed =>
    intro x hx id hc
    rcases List.mem_append.mp hx with hx | hx
    · obtain ⟨hidk, hne⟩ := h.closed x hx id hc
      refine ⟨hidk, fun y hy ↦ hne y ?_⟩
      exact mem_resting.mpr ((mem_resting.mp hy).imp (hown y) (hopp y))
    · rw [List.mem_singleton.mp hx] at hc
      rcases hc with hc | ⟨hid, -⟩
      · exact hclosed id hc
      · rw [hpid] at hid
        simp at hid
  case after =>
    refine after_append h.after fun x _ id _ t ht ↦ ?_
    rw [htr] at ht
    simp at ht

end Pair

/-! ## The history of the queues -/

namespace QueueBook

/-- The remainder a placement drops. -/
def droppedBy (m : QueueBook) (side : Side) (price qty : Int) : Int :=
  match side with
  | .Buy => (matchQueues m.nextId price m.asks ⟨m.index, m.free, qty, []⟩).2.dropped
  | .Sell => (matchQueues m.nextId price m.bids ⟨m.index, m.free, qty, []⟩).2.dropped

def record (m : QueueBook) : Call → QueueBook × Event
  | .placeLimit side price qty =>
    let (m', id, trades) := m.placeLimit side price qty []
    (m', ⟨.placeLimit side price qty, .placed id trades, 0, m.droppedBy side price qty⟩)
  | .cancel id =>
    let (m', ok) := m.cancel id
    (m', ⟨.cancel id, .cancelled ok, if ok then restingTotal m.bids m.asks id else 0, 0⟩)

def history : QueueBook → List Call → QueueBook × List Event
  | m, [] => (m, [])
  | m, call :: calls =>
    let (m, e) := m.record call
    let (m, es) := history m calls
    (m, e :: es)

variable {N k : Nat} {m : QueueBook} {es : List Event}

theorem record_eq_perform (m : QueueBook) (call : Call) :
    (m.record call).1 = (m.perform call).1 := by
  cases call <;> rfl

theorem ledger_new (N : Nat) : Ledger 0 .Buy (new N).bids (new N).asks [] := by
  constructor <;> simp [new, lots, flat, Placed, tradesIn]

/-- **Removing an order keeps the books.** -/
theorem ledger_remove (h : Ledger k .Buy m.bids m.asks es) (hk : Counted k m) (hv : Valid N m)
    {id : Nat} {n : Ptr} (hid : m.index.find? id = some n) :
    Ledger k .Buy (m.remove id n).bids (m.remove id n).asks
      (es ++ [⟨.cancel id, .cancelled true, restingTotal m.bids m.asks id, 0⟩]) := by
  obtain ⟨x, hx, -, hxid⟩ := hv.consistent.sound id n hid
  refine h.cancel rfl rfl (fun x hx ↦ ?_) (fun x hx ↦ ?_)
    ⟨restingTotal_nonneg hv.consistent id, Int.le_refl 0⟩ (fun j hj ↦ ?_) (fun j ↦ ?_)
  · rw [remove, lots_prune] at hx
    exact List.mem_of_mem_filter hx
  · rw [remove, lots_prune] at hx
    exact List.mem_of_mem_filter hx
  · obtain rfl : id = j := Option.some.inj hj
    refine ⟨hxid ▸ hk.numbered.le x hx, fun y hy hyid ↦ ?_⟩
    obtain ⟨hy, hyn⟩ := mem_resting_prune.mp hy
    have hyi := hk.numbered.complete y hy
    rw [hyid, hid, Option.some_inj] at hyi
    exact bne_iff_ne.mp hyn hyi.symm
  · simp only [remove, restingTotal_remove hv.consistent hk.numbered hid, Event.cancelledId,
      beq_iff_eq, Option.some_inj]
    by_cases hj : j = id
    · simp [hj]
    · simp [hj, Ne.symm hj]

/-- **One call keeps the books.** -/
theorem ledger_record (h : Ledger k .Buy m.bids m.asks es) (hk : Counted k m) (hv : Valid N m)
    (call : Call) (hlt : k + placements [call] < 2 ^ 64) :
    Ledger (k + placements [call]) .Buy (m.record call).1.bids (m.record call).1.asks
      (es ++ [(m.record call).2]) := by
  cases call with
  | placeLimit side price qty =>
    have hid := hk.nextId_eq hlt
    cases side with
    | Buy =>
      have hp := placeOn_placement (t := ⟨m.index, m.free, qty, []⟩) hv.consistent hk.numbered rfl
        price m.nextTs
      have hl := h.place hp hk.numbered.le fun p hc ↦ (decide_eq_true_iff (p := p ≤ price)).mp hc
      simp only [record, QueueBook.placeLimit, droppedBy, hid]
      exact hl
    | Sell =>
      have hp := placeOn_placement (t := ⟨m.index, m.free, qty, []⟩) hv.consistent.symm
        hk.numbered.symm rfl price m.nextTs
      have hl := h.symm.place hp hk.numbered.symm.le fun p hc ↦
        (decide_eq_true_iff (p := p ≥ price)).mp hc
      simp only [record, QueueBook.placeLimit, droppedBy, hid]
      exact hl.symm
  | cancel id =>
    cases hid : m.index.find? id with
    | none =>
      have hcancel : m.cancel id = (m, false) := by rw [QueueBook.cancel, hid]
      simp only [record, hcancel]
      exact h.cancel rfl rfl (fun _ hx ↦ hx) (fun _ hx ↦ hx) ⟨Int.le_refl 0, Int.le_refl 0⟩
        (fun _ hc ↦ by simp [Event.cancelledId] at hc) (fun _ ↦ by simp [Event.cancelledId])
    | some n =>
      have hcancel : m.cancel id = (m.remove id n, true) := by rw [QueueBook.cancel, hid]
      simp only [record, hcancel, if_true]
      exact ledger_remove h hk hv hid

theorem ledger_history (h : Ledger k .Buy m.bids m.asks es) (hk : Counted k m) (hv : Valid N m)
    (calls : List Call) (hlt : k + placements calls < 2 ^ 64) :
    Ledger (k + placements calls) .Buy (m.history calls).1.bids (m.history calls).1.asks
      (es ++ (m.history calls).2) := by
  induction calls generalizing m k es with
  | nil =>
    rw [history, List.append_nil]
    exact h
  | cons call calls ih =>
    rw [placements_cons, ← Nat.add_assoc] at hlt
    have hl := ih (ledger_record h hk hv call (by omega))
      (record_eq_perform m call ▸ hk.perform hv call (by omega))
      (record_eq_perform m call ▸ hv.perform call) hlt
    rw [placements_cons call calls, ← Nat.add_assoc]
    rwa [List.append_assoc, List.singleton_append] at hl

end QueueBook

/-! ## The history of the code -/

section Code

variable {N k : Nat} {b : OrderBook} {m : QueueBook}

/-- An id that is in the index has an order to it. -/
theorem Represents.restingQty_of_find? (h : Represents N b m) (hv : m.Valid N) {id : Nat} {n : Ptr}
    (hid : m.index.find? id = some n) :
    ∃ x ∈ resting m.bids m.asks, x.2.id = id ∧ b.restingQty id = x.2.qty := by
  obtain ⟨⟨price, r⟩, hx, rfl, rfl⟩ := hv.consistent.sound id n hid
  obtain ⟨side, hr⟩ := QueueBook.mem_resting_iff.mp hx
  obtain ⟨prev, next, hd⟩ := (h.holdsAt side price).exists_deref hr
  refine ⟨_, hx, rfl, ?_⟩
  rw [OrderBook.restingQty, h.index_eq, hid]
  simp only [hd]
  rfl

theorem Represents.restingQty_eq (h : Represents N b m) (hv : m.Valid N) (hk : m.Counted k)
    (id : Nat) : b.restingQty id = restingTotal m.bids m.asks id := by
  cases hid : m.index.find? id with
  | none =>
    rw [OrderBook.restingQty, h.index_eq, hid]
    refine (restingTotal_eq_zero fun x hx he ↦ ?_).symm
    have hxi := hk.numbered.complete x hx
    rw [he, hid] at hxi
    simp at hxi
  | some n =>
    obtain ⟨x, hx, rfl, hqty⟩ := h.restingQty_of_find? hv hid
    rw [hqty, restingTotal_eq hv.consistent hk.numbered hx]

theorem Represents.droppedBy_eq (h : Represents N b m) (hv : m.Valid N) (side : Side)
    (price qty : Int) : b.droppedBy side price qty = some (m.droppedBy side price qty) := by
  have hdrop : ∀ {s : QueueBook.Settling} {pool : ObjectPool OrderNode},
      LinkedList.Chain pool.nextFree pool.freeHead s.free →
      (if 0 < s.qty ∧ pool.freeHead = none then s.qty else 0) = s.dropped := by
    intro s pool hchain
    have hhead : pool.freeHead = none ↔ s.free = [] := by
      rw [hchain.head_eq, List.head?_eq_none_iff]
    simp only [QueueBook.Settling.dropped, hhead]
  rw [OrderBook.droppedBy, h.eq_withPool]
  cases side with
  | Buy =>
    obtain ⟨pool', he, h'⟩ := h.layout.matchAgainst (t := ⟨m.index, m.free, qty, []⟩) hv.consistent
      m.nextId price
    have hafter : (m.withPool b.pool).afterMatch .Buy price qty = _ :=
      congrArg (Option.map Prod.snd) he
    rw [hafter]
    exact congrArg some (hdrop h'.chain)
  | Sell =>
    obtain ⟨pool', he, h'⟩ := h.layout.symm.matchAgainst (t := ⟨m.index, m.free, qty, []⟩)
      hv.consistent.symm m.nextId price
    have hafter : (m.withPool b.pool).afterMatch .Sell price qty = _ :=
      congrArg (Option.map Prod.snd) he
    rw [hafter]
    exact congrArg some (hdrop h'.chain)

theorem Represents.record (h : Represents N b m) (hv : m.Valid N) (hk : m.Counted k)
    (call : Call) :
    ∃ b', b.record call = some (b', (m.record call).2) ∧ Represents N b' (m.record call).1 := by
  obtain ⟨b', he, h'⟩ := h.perform hv call
  refine ⟨b', ?_, QueueBook.record_eq_perform m call ▸ h'⟩
  rw [OrderBook.record, he]
  cases call with
  | placeLimit side price qty =>
    simp only [Option.bind_eq_bind, Option.bind_some, h.droppedBy_eq hv]
    rfl
  | cancel id =>
    simp only [Option.bind_eq_bind, Option.bind_some, h.restingQty_eq hv hk, QueueBook.perform,
      Reply.cancelled.injEq]
    rfl

theorem Represents.history (h : Represents N b m) (hv : m.Valid N) (hk : m.Counted k)
    (calls : List Call) (hlt : k + placements calls < 2 ^ 64) :
    ∃ b', b.history calls = some (b', (m.history calls).2) ∧
      Represents N b' (m.history calls).1 := by
  induction calls generalizing b m k with
  | nil => exact ⟨b, rfl, h⟩
  | cons call calls ih =>
    rw [placements_cons, ← Nat.add_assoc] at hlt
    obtain ⟨b₁, he₁, h₁⟩ := h.record hv hk call
    have hm := QueueBook.record_eq_perform m call
    obtain ⟨b₂, he₂, h₂⟩ := ih h₁ (hm ▸ hv.perform call) (hm ▸ hk.perform hv call (by omega)) hlt
    exact ⟨b₂, by rw [OrderBook.history, he₁]; simp [he₂, QueueBook.history], h₂⟩

end Code

namespace QueueBook

theorem history_eq_run (m : QueueBook) (calls : List Call) :
    (m.history calls).1 = (m.run calls).1 := by
  induction calls generalizing m with
  | nil => rfl
  | cons call calls ih =>
    change ((m.record call).1.history calls).1 = ((m.perform call).1.run calls).1
    rw [ih, record_eq_perform]

end QueueBook

namespace OrderBook

theorem perform_of_record {b b' : OrderBook} {call : Call} {e : Event}
    (h : b.record call = some (b', e)) : b.perform call = some (b', e.reply) ∧ e.call = call := by
  simp only [record, Option.bind_eq_bind, Option.bind_eq_some_iff] at h
  obtain ⟨⟨b₁, reply⟩, hp, h⟩ := h
  cases call with
  | placeLimit side price qty =>
    simp only [Option.bind_eq_some_iff, Option.pure_def, Option.some_inj, Prod.mk.injEq] at h
    obtain ⟨dropped, -, rfl, rfl⟩ := h
    exact ⟨hp, rfl⟩
  | cancel id =>
    simp only [Option.pure_def, Option.some_inj, Prod.mk.injEq] at h
    obtain ⟨rfl, rfl⟩ := h
    exact ⟨hp, rfl⟩

/-- A history is a run. -/
theorem run_of_history {b b' : OrderBook} {calls : List Call} {es : List Event}
    (h : b.history calls = some (b', es)) :
    b.run calls = some (b', es.map Event.reply) ∧ es.map Event.call = calls := by
  induction calls generalizing b es with
  | nil =>
    simp only [history, Option.some_inj, Prod.mk.injEq] at h
    obtain ⟨rfl, rfl⟩ := h
    exact ⟨rfl, rfl⟩
  | cons call calls ih =>
    simp only [history, Option.bind_eq_bind, Option.bind_eq_some_iff, Option.pure_def,
      Option.some_inj, Prod.mk.injEq] at h
    obtain ⟨⟨b₁, e⟩, he, ⟨b₂, es'⟩, hes, rfl, rfl⟩ := h
    obtain ⟨hp, hcall⟩ := perform_of_record he
    obtain ⟨hrun, hcalls⟩ := ih hes
    refine ⟨?_, by rw [List.map_cons, hcall, hcalls]⟩
    rw [run, hp]
    simp only [Option.bind_eq_bind, Option.bind_some, hrun]
    rfl

end OrderBook

/-- What the quantities and the trades of a history have to satisfy for the book it led to. -/
structure Accounted (b : OrderBook) (es : List Event) : Prop where
  /-- Every order's quantity is accounted for. -/
  balance : ∀ id side price qty, Placed es id side price qty → 0 < qty →
    qty = takerTotal (tradesIn es) id + makerTotal (tradesIn es) id + cancelledTotal es id
      + b.restingQty id + droppedTotal es id
  fair : ∀ t ∈ tradesIn es, Fair es t
  /-- No trade names an order after it was cancelled or dropped. -/
  closed : ∀ pre e post id, es = pre ++ e :: post → e.Closes id → ∀ t ∈ tradesIn post, ¬ t.Names id
  /-- No trade names an order after it was filled. -/
  filled : ∀ pre t post id side price qty, tradesIn es = pre ++ t :: post →
    Placed es id side price qty → 0 < qty → t.Names id → takerTotal pre id + makerTotal pre id < qty

/-- What is traded under an id before a trade that names it leaves something to trade. -/
theorem total_lt_of_names {pre post : List Trade} {t : Trade} {id : Nat}
    (hpos : ∀ t' ∈ pre ++ t :: post, 1 ≤ t'.qty) (hnames : t.Names id) :
    takerTotal pre id + makerTotal pre id
      < takerTotal (pre ++ t :: post) id + makerTotal (pre ++ t :: post) id := by
  have ht := hpos t (by simp)
  have hpost : ∀ t' ∈ post, 0 ≤ t'.qty := fun t' ht' ↦ by
    have := hpos t' (by simp [ht'])
    omega
  have htaker := total_nonneg (p := (·.takerId == id)) hpost
  have hmaker := total_nonneg (p := (·.makerId == id)) hpost
  rw [takerTotal_append, makerTotal_append, takerTotal, makerTotal, takerTotal, makerTotal,
    total_cons, total_cons]
  rcases hnames with rfl | rfl
  · simp only [beq_self_eq_true, if_true]
    split <;> omega
  · simp only [beq_self_eq_true, if_true]
    split <;> omega

/-- **The lifetime ledger.**  In a run with less than `2 ^ 64` placements no quantity is lost or
counted twice, every trade is fair, and no order trades after it has left the book. -/
theorem run_ledger (N : Nat) (calls : List Call) (hlt : placements calls < 2 ^ 64) :
    ∃ b es, (OrderBook.new N).history calls = some (b, es) ∧
      (OrderBook.new N).run calls = some (b, es.map Event.reply) ∧ es.map Event.call = calls ∧
      Accounted b es := by
  have hm := QueueBook.history_eq_run (QueueBook.new N) calls
  have hv : ((QueueBook.new N).history calls).1.Valid N := hm ▸ (QueueBook.valid_new N).run calls
  have hk := hm ▸ QueueBook.counted_run_new N calls hlt
  have hl := QueueBook.ledger_history (QueueBook.ledger_new N) (QueueBook.counted_new N)
    (QueueBook.valid_new N) calls (by omega)
  rw [List.nil_append] at hl
  obtain ⟨b, he, h⟩ := (represents_new N).history (QueueBook.valid_new N) (QueueBook.counted_new N)
    calls (by omega)
  obtain ⟨hrun, hcalls⟩ := OrderBook.run_of_history he
  have hresting := h.restingQty_eq hv hk
  refine ⟨b, _, he, hrun, hcalls, fun id side price qty hp hq ↦ ?_, hl.fair, hl.after,
    fun pre t post id side price qty hsplit hp hq hnames ↦ ?_⟩
  · rw [hresting]
    exact hl.balance id side price qty hp hq
  · have hlt' := total_lt_of_names (fun t' ht' ↦ (hl.fair t' (hsplit ▸ ht')).pos) hnames
    have hb := hl.balance id side price qty hp hq
    have hc := total_nonneg (p := (·.cancelledId == some id)) fun e he ↦ (hl.nonneg e he).1
    have hd := total_nonneg (p := (·.placedId == some id)) fun e he ↦ (hl.nonneg e he).2
    have hr := restingTotal_nonneg hv.consistent id
    rw [← hsplit] at hlt'
    rw [cancelledTotal, droppedTotal] at hb
    omega

/-- A sell of five gives three and is cancelled with two left; then a buy rests, and for another one
there is no room in a book of one slot. -/
def oneSlotCalls : List Call :=
  [.placeLimit .Sell 100 5, .placeLimit .Buy 100 3, .cancel 1, .placeLimit .Buy 99 1,
    .placeLimit .Buy 99 4]

theorem run_ledger_one_slot : placements oneSlotCalls < 2 ^ 64 ∧
    ∃ b es, (OrderBook.new 1).history oneSlotCalls = some (b, es) ∧
      es.map Event.removed = [0, 0, 2, 0, 0] ∧ es.map Event.dropped = [0, 0, 0, 0, 4] ∧
      Accounted b es := by
  refine ⟨by decide, ?_⟩
  obtain ⟨b, es, he, -, -, h⟩ := run_ledger 1 oneSlotCalls (by decide)
  have hes : ((OrderBook.new 1).history oneSlotCalls).map
      (fun x ↦ (x.2.map Event.removed, x.2.map Event.dropped))
        = some ([0, 0, 2, 0, 0], [0, 0, 0, 0, 4]) := rfl
  rw [he, Option.map_some, Option.some_inj, Prod.mk.injEq] at hes
  exact ⟨b, es, he, hes.1, hes.2, h⟩

end MatchingEngine
