import MatchingEngine.Backtest.Lifting

/-!
# Cancels in the tick file

A `Cancel` tick names its order by the id that the tick file uses for it.  The replay keeps a table
from these to the ids of the engine, which the strategies' orders share.

`cancelTick_exogenous` says what the tick removes: the order last added under the id, if it still
rests, and nothing otherwise; never an order of a strategy.  An entry of the table may outlive its
order.  That does no harm, as the engine does not hand out an id twice until ids wrap; when they do,
a `Cancel` tick can remove an order it does not mean (`exists_cancelTick_other_order`).
-/

set_option autoImplicit false

namespace MatchingEngine

namespace Backtest

variable {σ : Type}

/-- Does the move add an order under this id of the tick file?  Zero is not an id. -/
def Move.adds (e : Nat) : Move σ → Bool
  | .tick t => t.event == 0 && t.extId == e && e != 0
  | .callback .. => false

/-- Does the move take back what was added under this id? -/
def Move.cancels (e : Nat) : Move σ → Bool
  | .tick t => t.event == 1 && t.extId == e
  | .callback .. => false

/-- The order that was last added under an id of the tick file. -/
def lastAdded (e : Nat) : List (Move σ) → Replay σ → Option Nat → Option Nat
  | [], _, last => last
  | m :: ms, r, last => match r.move m with
    | none => last
    | some r' => lastAdded e ms r' (if m.adds e then some r.arena.engine.book.nextId else last)

theorem lastAdded_append_singleton {e : Nat} {done : List (Move σ)} {m : Move σ}
    {r₀ r r' : Replay σ} (hr : r₀.after done = some r) (hm : r.move m = some r')
    (last : Option Nat) :
    lastAdded e (done ++ [m]) r₀ last
      = if m.adds e then some r.arena.engine.book.nextId else lastAdded e done r₀ last := by
  induction done generalizing r₀ last with
  | nil =>
    obtain rfl := Option.some.inj hr
    simp only [List.nil_append, lastAdded, hm]
  | cons m' done ih =>
    rw [Replay.after_cons, Option.bind_eq_some_iff] at hr
    obtain ⟨r₁, h₁, hr⟩ := hr
    simp only [List.cons_append, lastAdded, h₁]
    exact ih hr _

namespace Arena

variable {k₀ id : Nat}

/-- An id that was handed out, but not to a strategy. -/
def Foreign (k₀ id : Nat) (a : Arena) : Prop :=
  id ≤ k₀ + a.record.placed ∧ a.record.issued.find? id = none

/-- An id that was handed out, and is not in use any more. -/
def Spent (k₀ id : Nat) (a : Arena) : Prop :=
  id ≤ k₀ + a.record.placed ∧ ∀ s, a.engine.book.openQty s id = 0

theorem Foreign.preserved : Preserved k₀ (fun _ ↦ True) (Foreign k₀ id) := by
  rintro a a' (⟨owner, side, qty, -, he, hplaced⟩ | ⟨id', hc⟩ | ⟨top, rfl⟩) ⟨hle, hnone⟩
  · refine ⟨by omega, ?_⟩
    by_contra hsome
    obtain ⟨j, hj⟩ := Option.ne_none_iff_exists'.mp hsome
    rcases he.issued id j hj with hold | ⟨hnew, -⟩
    · rw [hnone] at hold
      cases hold
    · omega
  · rw [Foreign, hc.record]
    exact ⟨hle, hnone⟩
  · exact ⟨hle, hnone⟩

theorem Spent.preserved : Preserved k₀ (fun _ ↦ True) (Spent k₀ id) := by
  rintro a a' (⟨owner, side, qty, -, he, hplaced⟩ | ⟨id', hc⟩ | ⟨top, rfl⟩) ⟨hle, hzero⟩
  · exact ⟨by omega, fun s ↦ he.closed s id (fun _ ↦ hzero s) fun hnew ↦ by omega⟩
  · refine ⟨by rwa [hc.record], fun s ↦ ?_⟩
    rw [hc.openQty, hzero, ite_self]
  · exact ⟨hle, hzero⟩

end Arena

/-! ## The table -/

section Table

variable {r r' : Replay σ}

/-- An order of the tick file is in the table under its id, unless that is zero. -/
theorem find?_extToEng_added (r : Replay σ) (t : Tick) (e' : Engine) (id e : Nat) :
    (r.added t e' id).extToEng.find? e
      = if t.extId = e ∧ e ≠ 0 then some id else r.extToEng.find? e := by
  dsimp only [Replay.added]
  split
  · rename_i hne
    rw [SortedMap.find?_insert]
    by_cases he : e = t.extId
    · rw [if_pos he, if_pos ⟨he.symm, he ▸ hne⟩]
    · rw [if_neg he, if_neg fun hc ↦ he hc.1.symm]
  · rename_i hzero
    rw [if_neg fun hc : t.extId = e ∧ e ≠ 0 ↦ hzero (hc.1 ▸ hc.2)]

/-- **What a move does to the table.** -/
theorem find?_extToEng_move {m : Move σ} (hm : r.move m = some r') (e : Nat) :
    r'.extToEng.find? e
      = if m.adds e then some r.arena.engine.book.nextId
        else if m.cancels e then none else r.extToEng.find? e := by
  cases m with
  | callback i f =>
    simp only [Replay.move, Option.bind_eq_bind, Option.bind_eq_some_iff] at hm
    obtain ⟨⟨a, x⟩, -, hm⟩ := hm
    obtain rfl := Option.some.inj hm
    rfl
  | tick t =>
    simp only [Replay.move, Option.bind_eq_bind, Option.bind_eq_some_iff] at hm
    obtain ⟨r₁, h₁, top, -, hm⟩ := hm
    obtain rfl := Option.some.inj hm
    dsimp only
    rcases Replay.apply_cases h₁ with ⟨e', id, hadd, hplace, rfl⟩ |
      ⟨id, e', ok, hcancel, -, -, -, hext, -⟩ | ⟨hadd, hnone, -, hext, -⟩
    · rw [find?_extToEng_added, Engine.id_of_placeLimit hplace]
      simp [Move.adds, Move.cancels, hadd]
    · rw [hext, SortedMap.find?_erase]
      simp [Move.adds, Move.cancels, hcancel, @eq_comm _ e t.extId]
    · rw [hext]
      have hkept : t.event = 1 → t.extId = e → r.extToEng.find? e = none :=
        fun ht he ↦ he ▸ hnone ht
      simpa [Move.adds, Move.cancels, hadd] using hkept

/-- **Under an id is the order last added under it**, if any order is. -/
theorem lastAdded_of_find? {r₀ : Replay σ} {done : List (Move σ)} {e id : Nat}
    (h₀ : r₀.extToEng.find? e = none) (hr : r₀.after done = some r)
    (hid : r.extToEng.find? e = some id) : lastAdded e done r₀ none = some id := by
  refine Replay.after_invariant (I := fun done r ↦ ∀ id, r.extToEng.find? e = some id →
    lastAdded e done r₀ none = some id) (fun id hid ↦ ?_) (fun done m r r' _ hr h hm id hid ↦ ?_)
    (List.prefix_refl done) hr id hid
  · rw [h₀] at hid
    cases hid
  · rw [find?_extToEng_move hm] at hid
    rw [lastAdded_append_singleton hr hm]
    split at hid
    · exact (if_pos ‹_›).trans hid
    · rw [if_neg ‹_›]
      split at hid
      · cases hid
      · exact h id hid

/-- A `Cancel` tick passes the engine the id the table has, if any. -/
theorem cancelTick_cases {t : Tick} (ht : t.event = 1) (hm : r.move (.tick t) = some r') :
    r.extToEng.find? t.extId = none ∧ r'.arena.engine = r.arena.engine ∨
      ∃ id ok, r.extToEng.find? t.extId = some id ∧
        r.arena.engine.cancel id = some (r'.arena.engine, ok) := by
  simp only [Replay.move, Option.bind_eq_bind, Option.bind_eq_some_iff] at hm
  obtain ⟨r₁, h₁, top, -, hm⟩ := hm
  obtain rfl := Option.some.inj hm
  rcases Replay.apply_cases h₁ with ⟨e, id, hadd, -⟩ | ⟨id, e, ok, -, hid, hc, harena, -⟩ |
    ⟨-, hnone, harena, -⟩
  · rw [ht] at hadd
    cases hadd
  · exact .inr ⟨id, ok, hid, by rw [harena]; exact hc⟩
  · exact .inl ⟨hnone ht, by rw [harena]⟩

end Table

/-- What the table has to do with the order last added under an id. -/
def Linked (k₀ : Nat) (e : Nat) (last : Option Nat) (r : Replay σ) : Prop :=
  ∀ id, last = some id → r.arena.Foreign k₀ id ∧
    (r.extToEng.find? e = some id ∨ r.arena.Spent k₀ id)

section Step

open Arena

variable {N k₀ e : Nat} {last : Option Nat} {r r' : Replay σ}

/-- A move keeps what it is about ids that were handed out before. -/
theorem Linked.of_find?_eq (h : Linked k₀ e last r) (hk : r.arena.Kept N k₀) {m : Move σ}
    (hm : r.move m = some r') (hlt : k₀ + r'.arena.record.placed < 2 ^ 64)
    (hext : r'.extToEng.find? e = r.extToEng.find? e) : Linked k₀ e last r' := by
  have hkeep : ∀ Q, Preserved k₀ (fun _ ↦ True) Q → Q r.arena → Q r'.arena := fun Q hQ hq ↦
    (hQ.move trivial ⟨hk, fun _ ↦ hq⟩ (fun _ _ _ ↦ trivial) hm).1.2 hlt
  intro id hid
  obtain ⟨hforeign, hcase⟩ := h id hid
  refine ⟨hkeep _ Foreign.preserved hforeign, hcase.imp (fun hid ↦ hext.trans hid) ?_⟩
  exact hkeep _ Spent.preserved

/-- An id that the tick file gets is not one of a strategy. -/
theorem foreign_of_adds (hk : r.arena.Kept N k₀) {m : Move σ} (hm : r.move m = some r')
    (hadds : m.adds e = true) (hlt : k₀ + r'.arena.record.placed < 2 ^ 64) :
    r'.arena.Foreign k₀ r.arena.engine.book.nextId := by
  cases m with
  | callback i f => cases hadds
  | tick t =>
    simp only [Replay.move, Option.bind_eq_bind, Option.bind_eq_some_iff] at hm
    obtain ⟨r₁, h₁, top, -, hm⟩ := hm
    obtain rfl := Option.some.inj hm
    obtain ⟨⟨hadd, -⟩, -⟩ : (t.event = 0 ∧ t.extId = e) ∧ ¬e = 0 := by
      simpa [Move.adds] using hadds
    rcases Replay.apply_cases h₁ with ⟨e', id, -, hplace, rfl⟩ | ⟨id, e', ok, hcancel, -⟩ |
      ⟨hnot, -⟩
    · dsimp only [Foreign] at hlt ⊢
      rw [Replay.placed_added] at hlt ⊢
      rw [Replay.record_added]
      change k₀ + r.arena.record.placed + 1 < 2 ^ 64 at hlt
      obtain ⟨m, hs, hbal⟩ := hk.standing (by omega)
      rw [hs.nextId_eq hlt]
      exact ⟨le_rfl, hbal.find?_succ⟩
    · rw [hadd] at hcancel
      cases hcancel
    · exact absurd hadd hnot

/-- **The table stays linked.** -/
theorem Linked.move (h : Linked k₀ e last r) (hk : r.arena.Kept N k₀) {m : Move σ}
    (hm : r.move m = some r') (hlt : k₀ + r'.arena.record.placed < 2 ^ 64)
    (hlast : ∀ id, r.extToEng.find? e = some id → last = some id) :
    Linked k₀ e (if m.adds e then some r.arena.engine.book.nextId else last) r' := by
  have htable := find?_extToEng_move hm e
  split
  · rename_i hadds
    rw [if_pos hadds] at htable
    intro id hid
    obtain rfl := Option.some.inj hid
    exact ⟨foreign_of_adds hk hm hadds hlt, .inl htable⟩
  rename_i hadds
  rw [if_neg hadds] at htable
  by_cases hcancels : m.cancels e
  · rw [if_pos hcancels] at htable
    cases m with
    | callback i f => cases hcancels
    | tick t =>
      obtain ⟨hevent, rfl⟩ : t.event = 1 ∧ t.extId = e := by simpa [Move.cancels] using hcancels
      rcases cancelTick_cases hevent hm with ⟨hnone, -⟩ | ⟨id, ok, hid, hc⟩
      · exact h.of_find?_eq hk hm hlt (htable.trans hnone.symm)
      · -- the order is gone, if it was not before
        intro id' hid'
        obtain rfl := Option.some.inj ((hlast id hid).symm.trans hid')
        have hforeign := (Foreign.preserved.move trivial ⟨hk, fun _ ↦ (h id hid').1⟩
          (fun _ _ _ ↦ trivial) hm).1.2 hlt
        have hle := Replay.placed_move hm
        obtain ⟨m, hs, -⟩ := hk.standing (show k₀ + r.arena.record.placed < 2 ^ 64 by omega)
        exact ⟨hforeign, .inr ⟨hforeign.1, fun s ↦ (hs.openQty_cancel hc s id).trans (if_pos rfl)⟩⟩
  · rw [if_neg hcancels] at htable
    exact h.of_find?_eq hk hm hlt htable

end Step

/-! ## Whole runs -/

section Run

variable {N : Nat} {calls : List Call} {engine : Engine}

/-- **The table is linked to the tick file** between any two moves. -/
theorem linked_after (h : engine.Reached N calls) (memory : Nat → σ) (done : List (Move σ))
    {r : Replay σ} (hr : (Replay.start engine memory).after done = some r)
    (hlt : placements calls + r.arena.record.placed < 2 ^ 64) (e : Nat) :
    Linked (placements calls) e (lastAdded e done (Replay.start engine memory) none) r := by
  refine Replay.after_invariant (I := fun done r ↦ r.arena.Kept N (placements calls) ∧
    (placements calls + r.arena.record.placed < 2 ^ 64 →
      Linked (placements calls) e (lastAdded e done (Replay.start engine memory) none) r))
    ⟨kept_start h memory, fun _ id hid ↦ ?_⟩
    (fun done m r r' _ hr ⟨hk, hl⟩ hm ↦ ?_) (List.prefix_refl done) hr |>.2 hlt
  · cases hid
  · obtain ⟨r₁, h₁, hk₁⟩ := hk.move m
    obtain rfl : r₁ = r' := by simpa [h₁] using hm
    refine ⟨hk₁, fun hlt ↦ ?_⟩
    have hplaced := Replay.placed_move hm
    rw [lastAdded_append_singleton hr hm]
    exact (hl (by omega)).move hk hm hlt fun id hid ↦ lastAdded_of_find? rfl hr hid

/-- **A `Cancel` tick removes what it means.**  On every engine, for every list of ticks and
whatever the strategies do, every `Cancel` tick is carried out; and as long as there have been fewer
than `2 ^ 64` placements, it removes the order last added under its id, which is not an order of a
strategy, if that order still rests, and otherwise leaves the book as it is. -/
theorem cancelTick_exogenous (h : engine.Reached N calls) (strategies : List (Strategy σ))
    (memory : Nat → σ) (ts : List Tick) :
    ∀ done t rest, moves strategies ts = done ++ .tick t :: rest → t.event = 1 →
      ∃ r r', (Replay.start engine memory).after done = some r ∧ r.move (.tick t) = some r' ∧
        (placements calls + r.arena.record.placed < 2 ^ 64 →
          match lastAdded t.extId done (Replay.start engine memory) none with
          | none => r'.arena.engine.book = r.arena.engine.book
          | some id => r.arena.record.issued.find? id = none ∧
            (r.arena.engine.book.HasOrder id → ∃ side price,
              r.arena.engine.book.Removes r'.arena.engine.book id side price) ∧
            (¬ r.arena.engine.book.HasOrder id →
              r'.arena.engine.book = r.arena.engine.book)) := by
  intro done t rest _ ht
  obtain ⟨r, hr, hk⟩ := (kept_start h memory).after done
  obtain ⟨r', hr', -⟩ := hk.move (.tick t)
  refine ⟨r, r', hr, hr', fun hlt ↦ ?_⟩
  have hl := linked_after h memory done hr hlt t.extId
  obtain ⟨m, hs, -⟩ := hk.standing hlt
  rcases cancelTick_cases ht hr' with ⟨hnone, hsame⟩ | ⟨id, ok, hid, hc⟩
  · -- not in the table: never added, or gone
    split
    · rw [hsame]
    · rename_i id hlast
      obtain ⟨hforeign, hfind | hspent⟩ := hl id hlast
      · rw [hnone] at hfind
        cases hfind
      · refine ⟨hforeign.2, fun hrests ↦ ?_, fun _ ↦ by rw [hsame]⟩
        obtain ⟨s, hopen⟩ := hs.openQty_of_hasOrder hrests
        exact absurd (hspent.2 s) hopen
  · have hlast : lastAdded t.extId done (Replay.start engine memory) none = some id :=
      lastAdded_of_find? rfl hr hid
    rw [hlast]
    refine ⟨(hl id hlast).1.2, ?_⟩
    rcases hs.cancel_cases id with ⟨hout, hc'⟩ | ⟨hin, e', side, price, hc', hremoves⟩
    · obtain ⟨he, -⟩ := Prod.mk.inj (Option.some.inj (hc'.symm.trans hc))
      exact ⟨fun hrests ↦ absurd hrests hout, fun _ ↦ by rw [← he]⟩
    · obtain ⟨he, -⟩ := Prod.mk.inj (Option.some.inj (hc'.symm.trans hc))
      exact ⟨fun _ ↦ ⟨side, price, he ▸ hremoves⟩, fun hrests ↦ absurd hin hrests⟩

end Run

/-- A strategy and the tick file have an order each at one price, and the tick file takes back its
own. -/
theorem cancelTick_exogenous_beside_strategy :
    ∃ r r', (Replay.start (Engine.new 4) fun _ ↦ ()).after
        [.callback 0 offerTen.onStart, .tick (.add .Sell 100 5 7),
          .callback 0 (offerTen.onTick · (.add .Sell 100 5 7))] = some r ∧
      r.move (.tick (.cancel 7)) = some r' ∧
      r.arena.engine.book.ordersAt .Sell 100 = some [(1, 10), (2, 5)] ∧
      r.arena.record.issued.find? 2 = none ∧
      ∃ side price, r.arena.engine.book.Removes r'.arena.engine.book 2 side price := by
  obtain ⟨r, r', hr, hr', h⟩ := cancelTick_exogenous (reached_new 4) [offerTen] (fun _ ↦ ())
    [.add .Sell 100 5 7, .cancel 7]
    [.callback 0 offerTen.onStart, .tick (.add .Sell 100 5 7),
      .callback 0 (offerTen.onTick · (.add .Sell 100 5 7))] (.cancel 7)
    [.callback 0 (offerTen.onTick · (.cancel 7)), .callback 0 offerTen.onEnd] rfl rfl
  have hrun : ((Replay.start (Engine.new 4) fun _ ↦ ()).after
      [.callback 0 offerTen.onStart, .tick (.add .Sell 100 5 7),
        .callback 0 (offerTen.onTick · (.add .Sell 100 5 7))]).map
      (fun r ↦ (r.arena.record.placed, r.arena.engine.book.ordersAt .Sell 100))
        = some (2, some [(1, 10), (2, 5)]) := by decide +kernel
  have hlast : lastAdded 7 [.callback 0 offerTen.onStart, .tick (.add .Sell 100 5 7),
      .callback 0 (offerTen.onTick · (.add .Sell 100 5 7))]
      (Replay.start (Engine.new 4) fun _ ↦ ()) none = some 2 := by decide +kernel
  rw [hr, Option.map_some, Option.some_inj, Prod.mk.injEq] at hrun
  have h := h (by rw [hrun.1]; decide)
  rw [show (Tick.cancel 7).extId = 7 from rfl, hlast] at h
  exact ⟨r, r', hr, hr', hrun.2, h.1, h.2.1 ⟨.Sell, 100, _, hrun.2, by simp⟩⟩

/-- **When ids wrap, a `Cancel` tick can hit another order.**  An order rests under the id `1` from
before the replay, and `2 ^ 64` placements later the tick file's order gets the same id.  It is
filled at once; the `Cancel` tick that comes after it removes the old order. -/
theorem exists_cancelTick_other_order : ∃ calls engine r r',
    engine.Reached Engine.defaultPoolCapacity calls ∧
    (Replay.start engine fun _ ↦ ()).after [.tick (.add .Buy 110 1 5)] = some r ∧
    r.move (.tick (.cancel 5)) = some r' ∧
    lastAdded 5 [.tick (.add .Buy 110 1 5)] (Replay.start engine fun _ ↦ ()) none = some 1 ∧
    -- the order has traded all it wanted
    r.arena.engine.lastTrades = [⟨1, 2, 110, 1⟩] ∧
    r.arena.engine.book.quotes .Buy = some [⟨90, 1, 1⟩] ∧
    r'.arena.engine.book.quotes .Buy = some [] := by
  -- on a small pool
  have hrun : (((Engine.new 8).placeLimit .Buy 90 1).bind fun x ↦
      (x.1.placeLimit .Sell 110 1).bind fun y ↦
      ((Replay.start (y.1.withNextId 1) fun _ ↦ ()).after [.tick (.add .Buy 110 1 5)]).bind fun r ↦
      (r.move (.tick (.cancel 5))).map fun r' ↦ ((y.1.book.nextId, r'.arena.record.placed),
        r.arena.engine.lastTrades, r.arena.engine.book.quotes .Buy,
        r'.arena.engine.book.quotes .Buy))
      = some ((3, 1), [⟨1, 2, 110, 1⟩], some [⟨90, 1, 1⟩], some []) := by decide +kernel
  simp only [Option.bind_eq_some_iff, Option.map_eq_some_iff, Prod.mk.injEq] at hrun
  obtain ⟨⟨e₁, id₁⟩, h₁, ⟨e₂, id₂⟩, h₂, r, hr, r', hr', ⟨hnext, hplaced⟩, htrades, hbefore, hafter⟩
    := hrun
  -- and on the engine's
  have hfits := Engine.fits_new (show 8 ≤ Engine.defaultPoolCapacity by decide)
  have hnew : (Engine.new Engine.defaultPoolCapacity).Reached Engine.defaultPoolCapacity [] :=
    ⟨[], rfl⟩
  obtain ⟨e₁', h₁', hfits₁⟩ := hfits.placeLimit h₁
  obtain ⟨e₂', h₂', hfits₂⟩ := hfits₁.placeLimit h₂
  have hnext' : e₂'.book.nextId = 3 := hfits₂.maps.2.2.trans hnext
  have hle := Replay.placed_move hr'
  obtain ⟨e₃, clean, hbig, hfits₃⟩ := Replay.after_start (hfits₂.withNextId 1) _ hr (by omega)
  obtain ⟨e₄, clean', hbig', hfits₄⟩ := Replay.move_swap hfits₃ (by omega) hr' clean
  have hreached := ((hnew.placeLimit h₁').placeLimit h₂').withNextId (by omega) (2 ^ 64 - 2)
  rw [hnext', show (3 + (2 ^ 64 - 2)) % 2 ^ 64 = 1 from by decide] at hreached
  refine ⟨_, _, r.swap e₃ clean, r'.swap e₄ clean', hreached, hbig, hbig', ?_,
    hfits₃.2.lastTrades.trans htrades, (hfits₃.2.quotes .Buy).trans hbefore,
    (hfits₄.2.quotes .Buy).trans hafter⟩
  rw [Replay.after_cons, Option.bind_eq_some_iff] at hbig
  obtain ⟨r₁, hm, -⟩ := hbig
  simp only [lastAdded, hm]
  rfl

end Backtest

end MatchingEngine
