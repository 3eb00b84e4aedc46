import MatchingEngine.Book.History
import MatchingEngine.Book.OpenOrders

/-!
# Whole runs: nobody is overtaken, and work is paid for

`Book/Priority.lean` is about one placement.  What a trader is promised is about the time between
two of their own calls, whatever anyone else does meanwhile.  Two such promises are kept.

* An order that stands behind another on its side does not trade before that one has left the book
  (`no_overtaking`).  It keeps its place and its quantity until it is cancelled.
* There are no more trades in a run, and orders left at its end, than there were placements
  (`trades_le_placements`).  A single placement can cause any number of trades; but every one of
  them, except one, uses up an order that an earlier placement has paid for.

The first needs ids that are not handed out twice.  The second does not look at ids at all.
-/

set_option autoImplicit false

namespace MatchingEngine

open Greedy LevelQueue

/-- The trades a call reports. -/
def Reply.trades : Reply → List Trade
  | .placed _ trades => trades
  | .cancelled _ => []

/-! ## One placement -/

section Pair

variable {c c' : KeyCompare} {N k : Nat} {own : Queues c} {opp : Queues c'}
  {t : QueueBook.Settling} {x y : Int × Resting}

/-- The taker's own side only gets longer. -/
theorem lots_sublist_placeOn (own : Queues c) (opp : Queues c') (t : QueueBook.Settling) (id : Nat)
    (price : Int) (ts : Nat) :
    (lots own).Sublist (lots (QueueBook.placeOn own opp t id price ts).1) := by
  simp only [QueueBook.placeOn]
  rcases restQueue_cases own (QueueBook.matchQueues id price opp t).2 id price ts with
    ⟨-, he⟩ | ⟨p, free, -, -, he⟩
  · rw [he]
  · obtain ⟨l, r, hl, hr, -⟩ := lots_pushBack_split (m := own) price
      ⟨p, id, (QueueBook.matchQueues id price opp t).2.qty, ts⟩
    rw [he, hl, hr]
    exact (List.Sublist.refl l).append (List.sublist_cons_self _ r)

/-- **An order is served only after those ahead of it**: either the one in front is used up, or the
one behind gives nothing and both stay where they are. -/
theorem ahead_matchQueues (h : Consistent N own opp t.free t.index)
    (hn : Numbered k own opp t.index) (hxy : [x, y].Sublist (lots opp)) (id : Nat) (price : Int) :
    (∀ z ∈ lots (QueueBook.matchQueues id price opp t).1, z.2.id ≠ x.2.id) ∨
      (∀ f ∈ (swept (c'.cross · price) t.qty opp).fills, f.lot.2.id ≠ y.2.id) ∧
        ∃ x' : Int × Resting, x'.2.id = x.2.id ∧
          [x', y].Sublist (lots (QueueBook.matchQueues id price opp t).1) := by
  have hpos : ∀ z ∈ lots opp, 1 ≤ size z := fun z hz ↦ h.pos z (mem_resting.mpr (.inr hz))
  have hnd := hn.nodup_lots h
  have hx : x ∈ lots opp := hxy.subset (by simp)
  have hy : y ∈ lots opp := hxy.subset (by simp)
  have hlots := lots_afterSweep_eq_filterMap (c'.cross · price) t.qty (fun _ ↦ rfl) hnd hpos
  have hsplit : (lots opp).map (fun z ↦ z.2.id)
      = (consumed (swept (c'.cross · price) t.qty opp).fills).map (fun z ↦ z.2.id)
        ++ (lots (afterSweep (c'.cross · price) t.qty opp)).map fun z ↦ z.2.id :=
    lots_afterSweep _ fun _ _ _ ↦ rfl
  cases hleft : leftOf (·.2.id) (swept (c'.cross · price) t.qty opp).fills x with
  | none =>
    refine .inl fun z hz he ↦ ?_
    rw [QueueBook.matchQueues, hlots] at hz
    obtain ⟨w, hw, hwz⟩ := List.mem_filterMap.mp hz
    have hid : w.2.id = z.2.id := by
      rw [leftOf] at hwz
      split at hwz
      · simp at hwz
      · exact (congrArg (·.2.id) (Option.some.inj hwz) : _)
    have hwx : w = x := List.inj_on_of_nodup_map hnd hw hx (hid.trans he)
    rw [hwx, hleft] at hwz
    simp at hwz
  | some x' =>
    have hid : x'.2.id = x.2.id := by
      rw [leftOf] at hleft
      split at hleft
      · simp at hleft
      · exact (congrArg (·.2.id) (Option.some.inj hleft)).symm
    have hstay : x'.2.id ∈ (lots (afterSweep (c'.cross · price) t.qty opp)).map (·.2.id) := by
      rw [hlots]
      exact List.mem_map_of_mem (f := (·.2.id)) (List.mem_filterMap.mpr ⟨x, hx, hleft⟩)
    have hgive : ∀ f ∈ (swept (c'.cross · price) t.qty opp).fills, f.lot.2.id ≠ y.2.id := by
      intro f hf he
      have hlot : f.lot = y := List.inj_on_of_nodup_map hnd (fill_spec hpos f hf).1 hy he
      have hused := mem_consumed_of_ahead hnd.of_map hxy (List.mem_map.mpr ⟨f, hf, hlot⟩)
      rw [hsplit] at hnd
      exact List.disjoint_of_nodup_append hnd
        (hid ▸ List.mem_map_of_mem (f := (·.2.id)) hused) hstay
    refine .inr ⟨hgive, x', hid, ?_⟩
    have hsub := hxy.filterMap (leftOf (·.2.id) (swept (c'.cross · price) t.qty opp).fills)
    rw [← hlots] at hsub
    have hself : leftOf (fun z : Int × Resting ↦ z.2.id)
        (swept (c'.cross · price) t.qty opp).fills y = some y :=
      leftOf_eq_self hgive (hpos y hy) rfl
    simpa [QueueBook.matchQueues, hleft, hself] using hsub

/-- **A placement causes at most one trade that nobody has paid for.** -/
theorem length_placeOn (h : Consistent N own opp t.free t.index) (htrades : t.trades = [])
    (id : Nat) (price : Int) (ts : Nat) :
    (QueueBook.placeOn own opp t id price ts).2.2.1.trades.length
        + ((lots (QueueBook.placeOn own opp t id price ts).1).length
          + (lots (QueueBook.placeOn own opp t id price ts).2.1).length)
      ≤ (lots own).length + (lots opp).length + 1 := by
  have hpos : ∀ z ∈ lots opp, 1 ≤ size z := fun z hz ↦ h.pos z (mem_resting.mpr (.inr hz))
  have hsplit := congrArg List.length (lots_swept (c'.cross · price) t.qty opp)
  simp only [List.length_map, List.length_append] at hsplit
  have hle := length_swept_le (c'.cross · price) t.qty opp
  rw [trades_placeOn, htrades, List.nil_append, QueueBook.tradesOf, List.length_map]
  simp only [QueueBook.placeOn]
  rcases restQueue_cases own (QueueBook.matchQueues id price opp t).2 id price ts with
    ⟨-, he⟩ | ⟨p, free, hq, -, he⟩
  · rw [he]
    simp only [QueueBook.matchQueues]
    omega
  · -- a taker that rests has used up every order it traded with
    have hall := consumed_of_amount_eq (amount_eq_of_left (m := opp) hpos hq)
    have hown := (lots_pushBack (m := own) price
      ⟨p, id, (QueueBook.matchQueues id price opp t).2.qty, ts⟩).length_eq
    rw [he]
    rw [List.length_cons] at hown
    rw [hall, List.length_map] at hsplit
    simp only [QueueBook.matchQueues] at hown ⊢
    omega

end Pair

/-! ## One call -/

namespace QueueBook

variable {N k : Nat} {m : QueueBook} {side : Side} {first : Nat} {x : Int × Resting}

/-- An order with the id `first` stands ahead of `x` on this side. -/
def Ahead (m : QueueBook) (side : Side) (first : Nat) (x : Int × Resting) : Prop :=
  ∃ w : Int × Resting, w.2.id = first ∧ [w, x].Sublist (m.lotsOn side)

/-- The makers of a trade rest in the book. -/
theorem Gone.not_maker {id : Nat} (h : m.Gone id) (hv : m.Valid N) (call : Call) :
    ∀ t ∈ (m.perform call).2.trades, t.makerId ≠ id := by
  have key : ∀ {c c' : KeyCompare} {own : Queues c} {opp : Queues c'} {index : Index},
      Consistent N own opp m.free index → (∀ x ∈ resting own opp, x.2.id ≠ id) → ∀ price qty t,
      t ∈ (placeOn own opp ⟨index, m.free, qty, []⟩ m.nextId price m.nextTs).2.2.1.trades →
      t.makerId ≠ id := by
    intro c c' own opp index hc hne price qty t ht
    rw [trades_placeOn, List.nil_append] at ht
    obtain ⟨f, hf, rfl⟩ := List.mem_map.mp ht
    have hlot := (fill_spec (fun z hz ↦ hc.pos z (mem_resting.mpr (.inr hz))) f hf).1
    exact hne f.lot (mem_resting.mpr (.inr hlot))
  cases call with
  | placeLimit s price qty =>
    intro t ht
    cases s with
    | Buy => exact key hv.consistent h price qty t ht
    | Sell =>
      exact key hv.consistent.symm (fun x hx ↦ h x (mem_resting_symm.mp hx)) price qty t ht
  | cancel id' => simp [QueueBook.perform, Reply.trades]

/-- What a placement does to two orders on the maker's side, and to two on the taker's. -/
theorem ahead_placeOn {c c' : KeyCompare} {own : Queues c} {opp : Queues c'} {t : Settling}
    (hc : Consistent N own opp t.free t.index) (hn : Numbered k own opp t.index)
    (htrades : t.trades = []) (price : Int) (ts : Nat) {w y : Int × Resting} :
    ([w, y].Sublist (lots opp) →
      (∀ z ∈ resting (placeOn own opp t (k + 1) price ts).1
          (placeOn own opp t (k + 1) price ts).2.1, z.2.id ≠ w.2.id) ∨
      (∀ tr ∈ (placeOn own opp t (k + 1) price ts).2.2.1.trades, tr.makerId ≠ y.2.id) ∧
        ∃ w' : Int × Resting, w'.2.id = w.2.id ∧
          [w', y].Sublist (lots (placeOn own opp t (k + 1) price ts).2.1)) ∧
    ([w, y].Sublist (lots own) →
      (∀ tr ∈ (placeOn own opp t (k + 1) price ts).2.2.1.trades, tr.makerId ≠ y.2.id) ∧
        [w, y].Sublist (lots (placeOn own opp t (k + 1) price ts).1)) := by
  have hpl := placeOn_placement hc hn htrades price ts
  have hids := hn.nodup_ids hc
  rw [resting, List.map_append] at hids
  have hdisj := List.disjoint_of_nodup_append hids
  constructor
  · intro hwy
    have hw : w ∈ lots opp := hwy.subset (by simp)
    rcases ahead_matchQueues hc hn hwy (k + 1) price with hgone | ⟨hgive, hstay⟩
    · refine .inl fun z hz he ↦ ?_
      rcases mem_resting.mp hz with hz | hz
      · rcases hpl.own z hz with ⟨z', hz', htag⟩ | ⟨-, hid⟩
        · simp only [tag, Prod.mk.injEq] at htag
          exact hdisj (List.mem_map_of_mem (f := (·.2.id)) hz')
            (by rw [htag.2.2, he]; exact List.mem_map_of_mem (f := (·.2.id)) hw)
        · have := hn.le w (mem_resting.mpr (.inr hw))
          omega
      · exact hgone z hz he
    · refine .inr ⟨fun tr htr ↦ ?_, hstay⟩
      rw [trades_placeOn, htrades, List.nil_append] at htr
      obtain ⟨f, hf, rfl⟩ := List.mem_map.mp htr
      exact hgive f hf
  · intro hwy
    have hy : y ∈ lots own := hwy.subset (by simp)
    refine ⟨fun tr htr he ↦ ?_, hwy.trans (lots_sublist_placeOn own opp t (k + 1) price ts)⟩
    obtain ⟨-, -, z, hz, -, hid⟩ := hpl.maker tr htr
    exact hdisj (List.mem_map_of_mem (f := (·.2.id)) hy)
      (by rw [← he, ← hid]; exact List.mem_map_of_mem (f := (·.2.id)) hz)

theorem Ahead.placeLimit (h : m.Ahead side first x) (hv : m.Valid N) (hk : m.Counted k)
    (hlt : k + 1 < 2 ^ 64) (s : Side) (price qty : Int)
    (hstill : ¬ (m.placeLimit s price qty []).1.Gone first) :
    (∀ t ∈ (m.placeLimit s price qty []).2.2, t.makerId ≠ x.2.id) ∧
      (m.placeLimit s price qty []).1.Ahead side first x := by
  obtain ⟨w, rfl, hwx⟩ := h
  have hid := hk.nextId_eq hlt
  have hbuy := ahead_placeOn (t := ⟨m.index, m.free, qty, []⟩) hv.consistent hk.numbered rfl
    price m.nextTs (w := w) (y := x)
  have hsell := ahead_placeOn (t := ⟨m.index, m.free, qty, []⟩) hv.consistent.symm
    hk.numbered.symm rfl price m.nextTs (w := w) (y := x)
  rw [← hid] at hbuy hsell
  cases s with
  | Buy =>
    cases side with
    | Buy => exact ⟨(hbuy.2 hwx).1, w, rfl, (hbuy.2 hwx).2⟩
    | Sell =>
      rcases hbuy.1 hwx with hgone | ⟨htr, w', hw', hsub⟩
      · exact absurd hgone hstill
      · exact ⟨htr, w', hw', hsub⟩
  | Sell =>
    cases side with
    | Buy =>
      rcases hsell.1 hwx with hgone | ⟨htr, w', hw', hsub⟩
      · exact absurd (fun z hz ↦ hgone z (mem_resting_symm.mp hz)) hstill
      · exact ⟨htr, w', hw', hsub⟩
    | Sell => exact ⟨(hsell.2 hwx).1, w, rfl, (hsell.2 hwx).2⟩

theorem lotsOn_remove (m : QueueBook) (id : Nat) (n : Ptr) (side : Side) :
    (m.remove id n).lotsOn side = (m.lotsOn side).filter fun x ↦ x.2.slot != n := by
  cases side with
  | Buy => exact lots_prune _
  | Sell => exact lots_prune _

/-- **One call.**  As long as the order in front is there, the one behind does not trade; and it
stays behind, unless it is cancelled. -/
theorem Ahead.perform (h : m.Ahead side first x) (hv : m.Valid N) (hk : m.Counted k) (call : Call)
    (hlt : k + placements [call] < 2 ^ 64) (hstill : ¬ (m.perform call).1.Gone first) :
    (∀ t ∈ (m.perform call).2.trades, t.makerId ≠ x.2.id) ∧
      ((m.perform call).1.Ahead side first x ∨
        call = .cancel x.2.id ∧ (m.perform call).1.Gone x.2.id) := by
  cases call with
  | placeLimit s price qty =>
    obtain ⟨htr, hahead⟩ := h.placeLimit hv hk hlt s price qty hstill
    exact ⟨htr, .inl hahead⟩
  | cancel id =>
    refine ⟨by simp [QueueBook.perform, Reply.trades], ?_⟩
    simp only [QueueBook.perform, QueueBook.cancel] at hstill ⊢
    cases hid : m.index.find? id with
    | none => exact .inl h
    | some n =>
      simp only [hid] at hstill ⊢
      obtain ⟨w, rfl, hwx⟩ := h
      have hw := mem_resting_of_lotsOn (hwx.subset (by simp : w ∈ [w, x]))
      have hx := mem_resting_of_lotsOn (hwx.subset (by simp : x ∈ [w, x]))
      by_cases hxn : x.2.slot = n
      · -- the slot holds one order, so the cancel was for the one behind
        have hxid : x.2.id = id := hv.consistent.id_eq hx (hxn ▸ hid)
        refine .inr ⟨by rw [hxid], fun z hz hzid ↦ ?_⟩
        obtain ⟨hz, hzn⟩ := mem_resting_prune.mp hz
        have hzx := hk.numbered.eq_of_id hv.consistent hz hx hzid
        simp [hzx, hxn] at hzn
      · have hwn : w.2.slot ≠ n := by
          refine fun hwn ↦ hstill fun z hz hzid ↦ ?_
          obtain ⟨hz, hzn⟩ := mem_resting_prune.mp hz
          have hzw := hk.numbered.eq_of_id hv.consistent hz hw hzid
          simp [hzw, hwn] at hzn
        refine .inl ⟨w, rfl, ?_⟩
        have hsub := hwx.filter fun z ↦ z.2.slot != n
        rw [← lotsOn_remove m id n side] at hsub
        simpa [hwn, hxn] using hsub

/-- How many orders rest. -/
def restingCount (m : QueueBook) : Nat := (lots m.bids).length + (lots m.asks).length

theorem Valid.length_perform (hv : m.Valid N) (call : Call) :
    (m.perform call).2.trades.length + (m.perform call).1.restingCount
      ≤ m.restingCount + placements [call] := by
  cases call with
  | placeLimit s price qty =>
    have hbuy := length_placeOn (t := ⟨m.index, m.free, qty, []⟩) hv.consistent rfl m.nextId price
      m.nextTs
    have hsell := length_placeOn (t := ⟨m.index, m.free, qty, []⟩) hv.consistent.symm rfl m.nextId
      price m.nextTs
    cases s with
    | Buy => exact hbuy
    | Sell =>
      rw [Nat.add_comm (lots m.asks).length,
        Nat.add_comm (lots (placeOn _ _ _ _ _ _).1).length] at hsell
      exact hsell
  | cancel id =>
    simp only [restingCount, QueueBook.perform, QueueBook.cancel, Reply.trades, List.length_nil]
    cases m.index.find? id with
    | none => simp
    | some n =>
      have hb := List.length_filter_le (fun x : Int × Resting ↦ x.2.slot != n) (lots m.bids)
      have ha := List.length_filter_le (fun x : Int × Resting ↦ x.2.slot != n) (lots m.asks)
      simp only [remove, lots_prune]
      omega

/-! ## Whole runs -/

theorem run_cons (m : QueueBook) (call : Call) (calls : List Call) :
    m.run (call :: calls) = (((m.perform call).1.run calls).1,
      (m.perform call).2 :: ((m.perform call).1.run calls).2) := rfl

theorem Gone.not_maker_run {id : Nat} (h : m.Gone id) (hv : m.Valid N) (hk : m.Counted k)
    (hid : id ≤ k) (calls : List Call) (hlt : k + placements calls < 2 ^ 64) :
    ∀ t ∈ (m.run calls).2.flatMap Reply.trades, t.makerId ≠ id := by
  induction calls generalizing m k with
  | nil => simp [QueueBook.run]
  | cons call calls ih =>
    rw [placements_cons] at hlt
    rw [run_cons, List.flatMap_cons, List.forall_mem_append]
    exact ⟨h.not_maker hv call, ih (h.perform hk hid call (by omega)) (hv.perform call)
      (hk.perform hv call (by omega)) (by omega) (by omega)⟩

/-- **A whole run**, by induction on the calls.  What has left the book stays out, so an order that
is there at the end was there all along. -/
theorem Ahead.run (h : m.Ahead side first x) (hv : m.Valid N) (hk : m.Counted k)
    (calls : List Call) (hlt : k + placements calls < 2 ^ 64)
    (hstill : ¬ (m.run calls).1.Gone first) :
    (∀ t ∈ (m.run calls).2.flatMap Reply.trades, t.makerId ≠ x.2.id) ∧
      ((m.run calls).1.Ahead side first x ∨ Call.cancel x.2.id ∈ calls) := by
  induction calls generalizing m k with
  | nil => exact ⟨by simp [QueueBook.run], .inl h⟩
  | cons call calls ih =>
    rw [placements_cons] at hlt
    have hv' := hv.perform call
    have hk' := hk.perform hv call (by omega)
    obtain ⟨w, hw, hwx⟩ := id h
    have hfirst : first ≤ k :=
      hw ▸ hk.numbered.le w (mem_resting_of_lotsOn (hwx.subset (by simp : w ∈ [w, x])))
    have hx : x.2.id ≤ k :=
      hk.numbered.le x (mem_resting_of_lotsOn (hwx.subset (by simp : x ∈ [w, x])))
    have hthere : ¬ (m.perform call).1.Gone first := fun hgone ↦
      hstill (hgone.run hv' hk' (by omega) calls (by omega))
    obtain ⟨htr, hnext⟩ := h.perform hv hk call (by omega) hthere
    rw [run_cons, List.flatMap_cons, List.forall_mem_append]
    rcases hnext with hnext | ⟨rfl, hgone⟩
    · obtain ⟨hlater, hend⟩ := ih hnext hv' hk' (by omega) hstill
      exact ⟨⟨htr, hlater⟩, hend.imp_right (List.mem_cons_of_mem _)⟩
    · exact ⟨⟨htr, hgone.not_maker_run hv' hk' (by omega) calls (by omega)⟩,
        .inr List.mem_cons_self⟩

theorem Valid.length_run (hv : m.Valid N) (calls : List Call) :
    ((m.run calls).2.flatMap Reply.trades).length + (m.run calls).1.restingCount
      ≤ m.restingCount + placements calls := by
  induction calls generalizing m with
  | nil => simp [QueueBook.run, placements]
  | cons call calls ih =>
    have hstep := hv.length_perform call
    have hrest := ih (hv.perform call)
    rw [placements_cons, run_cons, List.flatMap_cons, List.length_append]
    dsimp only
    omega

end QueueBook

theorem Quote.ahead_iff {side : Side} {q q' : Quote} :
    Quote.ahead side q q' = true ↔
      side.better q.price q'.price = true ∨ q.price = q'.price ∧ q.id ≤ q'.id := by
  simp [Quote.ahead]

/-- Of two orders of a side, the one with priority comes first. -/
theorem QueueBook.Counted.ahead {k : Nat} {m : QueueBook} (hk : m.Counted k) {side : Side}
    {w x : Int × Resting} (hw : w ∈ m.lotsOn side) (hx : x ∈ m.lotsOn side)
    (hne : w.2.id ≠ x.2.id) (hahead : Quote.ahead side (quoteOf w) (quoteOf x) = true) :
    m.Ahead side w.2.id x := by
  have hsorted : (m.lotsOn side).Pairwise fun y z ↦
      Quote.ahead side (quoteOf z) (quoteOf y) = true → y.2.id = z.2.id := by
    cases side with
    | Buy =>
      refine hk.numbered.symm.pairwise_lots.imp fun {y z} hyz ↦ ?_
      simp only [Quote.ahead_iff, Side.better, decide_eq_true_eq]
      simp only [quoteOf, KeyCompare.before] at hyz ⊢
      omega
    | Sell =>
      refine hk.numbered.pairwise_lots.imp fun {y z} hyz ↦ ?_
      simp only [Quote.ahead_iff, Side.better, decide_eq_true_eq]
      simp only [quoteOf, KeyCompare.before] at hyz ⊢
      omega
  obtain ⟨l, r, hl⟩ := List.append_of_mem hx
  refine ⟨w, rfl, ?_⟩
  rw [hl] at hw hsorted ⊢
  rcases List.mem_append.mp hw with hw | hw
  · exact (List.singleton_sublist.mpr hw).append (List.singleton_sublist.mpr List.mem_cons_self)
  · rcases List.mem_cons.mp hw with rfl | hw
    · exact absurd rfl hne
    · have hlate := (List.pairwise_cons.mp (List.pairwise_append.mp hsorted).2.1).1 w hw hahead
      exact absurd hlate.symm hne

/-- **Nobody is overtaken.**  Take two orders of a side, one with priority over the other by price
and then by id, and any calls by anyone.  If the first still rests after them, then none of their
trades was with the second, which rests with the quantity it had unless it was cancelled. -/
theorem no_overtaking {N : Nat} {calls later : List Call} {b b' : OrderBook}
    {replies replies' : List Reply} {side : Side} {qs qs' : List Quote} (first second : Quote)
    (hrun : (OrderBook.new N).run calls = some (b, replies))
    (hlater : b.run later = some (b', replies'))
    (hlt : placements calls + placements later < 2 ^ 64)
    (hqs : b.quotes side = some qs) (hqs' : b'.quotes side = some qs')
    (hfirst : first ∈ qs) (hsecond : second ∈ qs) (hne : first.id ≠ second.id)
    (hahead : Quote.ahead side first second = true) (hstill : first.id ∈ qs'.map Quote.id) :
    (∀ t ∈ replies'.flatMap Reply.trades, t.makerId ≠ second.id) ∧
      (second ∈ qs' ∨ Call.cancel second.id ∈ later) := by
  obtain ⟨h, hv⟩ := represents_of_run hrun
  have hk := QueueBook.counted_run_new N calls (by omega)
  obtain ⟨b₁, he, h'⟩ := h.run hv later
  obtain ⟨rfl, rfl⟩ := Prod.mk.inj (Option.some.inj (he.symm.trans hlater))
  rw [h.quotes hv, Option.some_inj] at hqs
  rw [h'.quotes (hv.run later), Option.some_inj] at hqs'
  subst hqs hqs'
  obtain ⟨w, hw, rfl⟩ := List.mem_map.mp hfirst
  obtain ⟨x, hx, rfl⟩ := List.mem_map.mp hsecond
  have hthere : ¬ (((QueueBook.new N).run calls).1.run later).1.Gone w.2.id := by
    obtain ⟨q, hq, hid⟩ := List.mem_map.mp hstill
    obtain ⟨z, hz, rfl⟩ := List.mem_map.mp hq
    exact fun hgone ↦ hgone z (QueueBook.mem_resting_of_lotsOn hz) hid
  obtain ⟨htr, hend⟩ := (hk.ahead hw hx hne hahead).run hv hk later hlt hthere
  refine ⟨htr, hend.imp_left ?_⟩
  rintro ⟨w', -, hsub⟩
  exact List.mem_map_of_mem (hsub.subset (by simp))

/-- Two sellers at one price, and a buyer who does not want all of the first's. -/
theorem no_overtaking_two_sellers :
    ∃ b b' replies replies',
        (OrderBook.new 3).run [.placeLimit .Sell 100 5, .placeLimit .Sell 100 3]
          = some (b, replies) ∧
      b.run [.placeLimit .Buy 101 4, .placeLimit .Sell 99 1] = some (b', replies') ∧
      ∀ t ∈ replies'.flatMap Reply.trades, t.makerId ≠ 2 := by
  have hread : (((OrderBook.new 3).run [.placeLimit .Sell 100 5, .placeLimit .Sell 100 3]).bind
      fun x ↦ (x.1.run [.placeLimit .Buy 101 4, .placeLimit .Sell 99 1]).map
        fun y ↦ (x.1.quotes .Sell, y.1.quotes .Sell))
      = some (some [⟨100, 1, 5⟩, ⟨100, 2, 3⟩],
        some [⟨99, 4, 1⟩, ⟨100, 1, 1⟩, ⟨100, 2, 3⟩]) := by decide +kernel
  obtain ⟨⟨b, replies⟩, hrun, hread⟩ := Option.bind_eq_some_iff.mp hread
  obtain ⟨⟨b', replies'⟩, hlater, hread⟩ := Option.map_eq_some_iff.mp hread
  obtain ⟨hqs, hqs'⟩ := Prod.mk.inj hread
  obtain ⟨htrades, -⟩ := no_overtaking ⟨100, 1, 5⟩ ⟨100, 2, 3⟩ hrun hlater (by decide)
    hqs hqs' (by decide) (by decide) (by decide) (by decide) (by decide)
  exact ⟨b, b', replies, replies', hrun, hlater, htrades⟩

/-- **Trades are paid for by placements.** -/
theorem trades_le_placements (N : Nat) (calls : List Call) :
    ∃ b replies bids asks, (OrderBook.new N).run calls = some (b, replies) ∧
      b.quotes .Buy = some bids ∧ b.quotes .Sell = some asks ∧
      (replies.flatMap Reply.trades).length + (bids.length + asks.length) ≤ placements calls := by
  obtain ⟨b, he, h, hv⟩ := run_new N calls
  refine ⟨b, _, _, _, he, h.quotes hv .Buy, h.quotes hv .Sell, ?_⟩
  have hle := (QueueBook.valid_new N).length_run calls
  simp only [List.length_map]
  exact hle.trans (by simp [QueueBook.restingCount, QueueBook.new, lots, flat])

end MatchingEngine
