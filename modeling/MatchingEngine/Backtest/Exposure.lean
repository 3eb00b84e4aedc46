import MatchingEngine.Backtest.Routing
import MatchingEngine.Book.OpenOrders

/-!
# What a strategy may still be filled for

A strategy's position changes when its own orders trade, at once or later.  `Arena.most` is the
position it would have if all the bids it has in the book were filled and none of its asks, and
`Arena.least` the other way round; the position itself is always between the two.

These two bounds move far less than the position does.  A fill takes from what is open what it adds
to the position, or less if the routing table has lost the order; only a new order of the strategy's
own widens them, and by no more than its quantity (`Arena.Effect`).  A cancel narrows them
(`Arena.Cancels`).
-/

set_option autoImplicit false

namespace MatchingEngine

namespace Backtest

/-! ## Sums over a table of owners -/

/-- The sum of a quantity over the ids that a table gives to `j`. -/
def sumOf (table : SortedMap Nat Nat (· < ·)) (j : Nat) (f : Nat → Int) : Int :=
  total (·.2 == j) (fun e ↦ f e.1) table.entries

section Sums

variable {α : Type} {p q : α → Bool} {f g : α → Int}

theorem total_ite (p c : α → Bool) (f : α → Int) (l : List α) :
    total p (fun a ↦ if c a = true then f a else 0) l = total (fun a ↦ p a && c a) f l := by
  induction l with
  | nil => rfl
  | cons a l ih =>
    rw [total_cons, total_cons, ih]
    cases p a <;> cases c a <;> simp

theorem total_add (p : α → Bool) (f g : α → Int) (l : List α) :
    total p (fun a ↦ f a + g a) l = total p f l + total p g l := by
  induction l with
  | nil => rfl
  | cons a l ih =>
    rw [total_cons, total_cons, total_cons, ih]
    split <;> omega

theorem total_congr_of_pos {l : List α} (h : ∀ a ∈ l, p a = true → f a = g a) :
    total p f l = total p g l := by
  rw [total, total, List.map_congr_left fun a ha ↦ h a (List.mem_filter.mp ha).1
    (List.mem_filter.mp ha).2]

theorem total_le_total {l : List α} (hf : ∀ a ∈ l, 0 ≤ f a)
    (h : ∀ a ∈ l, p a = true → q a = true) : total p f l ≤ total q f l := by
  induction l with
  | nil => exact le_rfl
  | cons a l ih =>
    have hl := ih (fun b hb ↦ hf b (List.mem_cons_of_mem _ hb))
      fun b hb ↦ h b (List.mem_cons_of_mem _ hb)
    have ha := hf a List.mem_cons_self
    have hpq := h a List.mem_cons_self
    rw [total_cons, total_cons]
    cases hp : p a with
    | true =>
      rw [hpq hp]
      simpa using hl
    | false =>
      simp only [Bool.false_eq_true, if_false]
      split <;> omega

variable {table : SortedMap Nat Nat (· < ·)} {i j : Nat} {F G : Nat → Int}

theorem sumOf_insert {id : Nat} (h : table.find? id = none) :
    sumOf (table.insert id i) j F = sumOf table j F + if i = j then F id else 0 := by
  obtain ⟨l, r, he, hl, hr⟩ := SortedMap.exists_gap_of_find? h
  rw [sumOf, sumOf, SortedMap.entries_insert_gap he hl hr, he, total_append,
    total_append, total_cons]
  simp only [beq_iff_eq]
  omega

theorem sumOf_congr (h : ∀ id, table.find? id = some j → F id = G id) :
    sumOf table j F = sumOf table j G := by
  refine total_congr_of_pos fun e he hj ↦ h e.1 ?_
  rw [SortedMap.find?_eq_some_iff, ← beq_iff_eq.mp hj]
  exact he

theorem sumOf_add : sumOf table j (fun id ↦ F id + G id) = sumOf table j F + sumOf table j G :=
  total_add _ _ _ _

theorem sumOf_nonneg (h : ∀ id, 0 ≤ F id) : 0 ≤ sumOf table j F := total_nonneg fun _ _ ↦ h _

theorem sumOf_le (h : ∀ id, F id ≤ G id) : sumOf table j F ≤ sumOf table j G := by
  have hdiff : 0 ≤ sumOf table j fun id ↦ G id - F id := sumOf_nonneg fun id ↦ by
    have := h id
    omega
  have hsum : sumOf table j G = sumOf table j F + sumOf table j fun id ↦ G id - F id := by
    rw [← sumOf_add]
    exact sumOf_congr fun id _ ↦ by omega
  omega

theorem sumOf_eq_zero (h : ∀ id, table.find? id = some j → F id = 0) : sumOf table j F = 0 := by
  rw [sumOf_congr h, sumOf, total]
  simp

/-- One id counts once. -/
theorem sumOf_single (id : Nat) (q : Int) :
    sumOf table j (fun id' ↦ if (id == id') = true then q else 0)
      = if table.find? id = some j then q else 0 := by
  rw [sumOf, total_ite]
  cases hf : table.find? id with
  | none =>
    rw [if_neg (by simp)]
    refine total_eq_zero fun e he ↦ ?_
    have hne : id ≠ e.1 := fun hid ↦ (table.find?_eq_none_iff.mp hf) (hid ▸ List.mem_map_of_mem he)
    simp [hne]
  | some i =>
    obtain ⟨l, r, he⟩ := SortedMap.exists_split_of_find? hf
    obtain ⟨hl, hr⟩ := SortedMap.lt_of_split he
    rw [he, total_append, total_cons, total_eq_zero fun e hm ↦ ?_, total_eq_zero fun e hm ↦ ?_]
    · by_cases hij : i = j <;> simp [hij]
    · have := hr e hm
      have hne : id ≠ e.1 := by omega
      simp [hne]
    · have := hl e hm
      have hne : id ≠ e.1 := by omega
      simp [hne]

/-- What the orders of `j` give as makers, summed over the orders or over the trades. -/
theorem sumOf_makerTotal (ts : List Trade) :
    sumOf table j (makerTotal ts)
      = total (fun t ↦ table.find? t.makerId == some j) Trade.qty ts := by
  induction ts with
  | nil => exact sumOf_eq_zero fun _ _ ↦ rfl
  | cons t ts ih =>
    have hcons : makerTotal (t :: ts)
        = fun id ↦ (if (t.makerId == id) = true then t.qty else 0) + makerTotal ts id :=
      funext fun id ↦ total_cons t ts
    rw [hcons, sumOf_add, ih, sumOf_single, total_cons]
    simp only [beq_iff_eq]

end Sums

/-! ## What trades do to a position -/

/-- What the makers of `j` give. -/
def makerShare (owner : Nat → Option Nat) (j : Nat) (ts : List Trade) : Int :=
  total (fun t ↦ owner t.makerId == some j) Trade.qty ts

theorem signed_add (side : Side) (p q : Int) :
    signed side (p + q) = signed side p + signed side q := by
  cases side
  · rfl
  · exact Int.neg_add

/-- The trades of one taker: what it got, and what its makers gave. -/
theorem net_eq_taker_add_makers {owner : Nat → Option Nat} {j : Nat} {w : Option Nat} (side : Side)
    {ts : List Trade} (h : ∀ t ∈ ts, owner t.takerId = w) :
    net owner j (ts.map fun t ↦ (side, t))
      = (if w = some j then signed side (ts.map Trade.qty).sum else 0)
        + signed side.opposite (makerShare owner j ts) := by
  induction ts with
  | nil => cases side <;> simp [net, makerShare, signed, Side.opposite]
  | cons t ts ih =>
    have hmakers : makerShare owner j (t :: ts)
        = (if owner t.makerId = some j then t.qty else 0) + makerShare owner j ts := by
      rw [makerShare, total_cons]
      simp only [beq_iff_eq]
      rfl
    rw [List.map_cons, net_cons, ih fun t' ht' ↦ h t' (List.mem_cons_of_mem _ ht'), share,
      h t List.mem_cons_self, hmakers, List.map_cons, List.sum_cons, signed_add, signed_add]
    have hzero : signed side.opposite 0 = 0 := by cases side <;> rfl
    split_ifs <;> simp only [hzero] <;> omega

/-! ## Open orders -/

namespace Arena

/-- The quantity the strategy `j` has open on a side. -/
def openOf (a : Arena) (j : Nat) (side : Side) : Int :=
  sumOf a.record.issued j (a.engine.book.openQty side)

/-- The position of the strategy `j` if all of its bids are filled. -/
def most (a : Arena) (j : Nat) : Int := a.position j + a.openOf j .Buy

/-- The position of the strategy `j` if all of its asks are filled. -/
def least (a : Arena) (j : Nat) : Int := a.position j - a.openOf j .Sell

/-- What the placement of an order under a new id does. -/
structure Effect (a a' : Arena) (owner : Option Nat) (side : Side) (qty : Int) (id : Nat) :
    Prop where
  fresh : a.record.issued.find? id = none
  ne_zero : id ≠ 0
  issued : ∀ id' j, a'.record.issued.find? id' = some j →
    a.record.issued.find? id' = some j ∨ id' = id ∧ owner = some j
  closed : ∀ s id', (id' ≠ id → a.engine.book.openQty s id' = 0) → ¬(id' = id ∧ s = side) →
    a'.engine.book.openQty s id' = 0
  openOf : ∀ j s, a'.openOf j s ≤ a.openOf j s + if owner = some j ∧ s = side then max qty 0 else 0
  most : ∀ j, a'.most j ≤ a.most j + if owner = some j ∧ side = .Buy then max qty 0 else 0
  least : ∀ j, a.least j - (if owner = some j ∧ side = .Sell then max qty 0 else 0) ≤ a'.least j

variable {N k : Nat} {a a' : Arena} {m : QueueBook} {owner : Option Nat} {side : Side}
  {price qty : Int}

/-- The table of the strategies' orders after a placement. -/
def issuedAfter (table : SortedMap Nat Nat (· < ·)) (id : Nat) : Option Nat →
    SortedMap Nat Nat (· < ·)
  | none => table
  | some i => table.insert id i

theorem find?_issuedAfter {table : SortedMap Nat Nat (· < ·)} {id id' j : Nat}
    (h : (issuedAfter table id owner).find? id' = some j) :
    table.find? id' = some j ∨ id' = id ∧ owner = some j := by
  cases owner with
  | none => exact .inl h
  | some i =>
    rw [issuedAfter, SortedMap.find?_insert] at h
    split at h
    · rename_i hid
      exact .inr ⟨hid, h⟩
    · exact .inl h

theorem sumOf_issuedAfter {table : SortedMap Nat Nat (· < ·)} {id : Nat} (h : table.find? id = none)
    (j : Nat) (F : Nat → Int) :
    sumOf (issuedAfter table id owner) j F
      = sumOf table j F + if owner = some j then F id else 0 := by
  cases owner with
  | none => simp [issuedAfter]
  | some i =>
    rw [issuedAfter, sumOf_insert h]
    simp only [Option.some_inj]

section Placing

variable (hs : a.engine.Standing N k m) (hlt : k + 1 < 2 ^ 64)
  (hissued : ∀ id i, a.record.issued.find? id = some i → id ≤ k)
  (he : a.engine.placeLimit side price qty = some (a'.engine, k + 1))
  (hrecord : a'.record.issued = issuedAfter a.record.issued (k + 1) owner)

include hissued in
theorem find?_issued_succ : a.record.issued.find? (k + 1) = none := by
  cases hi : a.record.issued.find? (k + 1) with
  | none => rfl
  | some i => exact absurd (hissued _ _ hi) (by omega)

include hs hlt hissued he hrecord in
/-- On the taker's side, what the new order leaves is added. -/
theorem openOf_taker (j : Nat) : a'.openOf j side = a.openOf j side
    + if owner = some j then a'.engine.book.openQty side (k + 1) else 0 := by
  have ho := hs.opens hlt side price qty he
  rw [openOf, hrecord, sumOf_issuedAfter (find?_issued_succ hissued), openOf,
    sumOf_congr fun id hid ↦ ho.own id (hissued id j hid)]

include hs hlt hissued he hrecord in
/-- On the other side, what the makers give is gone. -/
theorem openOf_makers (j : Nat) : a.openOf j side.opposite
    = makerShare a.record.issued.find? j a'.engine.lastTrades + a'.openOf j side.opposite := by
  have ho := hs.opens hlt side price qty he
  have hafter : a'.openOf j side.opposite
      = sumOf a.record.issued j (a'.engine.book.openQty side.opposite) := by
    rw [openOf, hrecord, sumOf_issuedAfter (find?_issued_succ hissued), ho.other, ite_self,
      Int.add_zero]
  rw [hafter, openOf, sumOf_congr fun id hid ↦ ho.opposite id (hissued id j hid), sumOf_add,
    sumOf_makerTotal]
  rfl

include hs hlt he in
/-- What is gone stays gone. -/
theorem openQty_eq_zero_of_placeLimit (s : Side) (id' : Nat)
    (hzero : id' ≠ k + 1 → a.engine.book.openQty s id' = 0) (hne : ¬(id' = k + 1 ∧ s = side)) :
    a'.engine.book.openQty s id' = 0 := by
  obtain ⟨e, he', hs', -, hq, -⟩ := hs.placeLimit hlt side price qty
  obtain rfl : e = a'.engine := by simpa [he'] using he
  have ho := hs.opens hlt side price qty he
  rcases Nat.lt_trichotomy id' (k + 1) with hlt' | rfl | hgt
  · have hzero := hzero (by omega)
    by_cases hside : s = side
    · rw [hside] at hzero ⊢
      rw [ho.own id' (by omega), hzero]
    · obtain rfl := Side.eq_opposite_of_ne hside
      have hmaker : 0 ≤ makerTotal a'.engine.lastTrades id' :=
        total_nonneg fun t ht ↦ Int.one_nonneg.trans (hq t ht).2
      have hopp := ho.opposite id' (by omega)
      have hopen := hs'.openQty_nonneg side.opposite id'
      omega
  · obtain rfl := Side.eq_opposite_of_ne fun hside ↦ hne ⟨rfl, hside⟩
    exact ho.other
  · exact hs'.openQty_of_lt s hgt

include hs hlt hissued he hrecord in
/-- **The effect of a placement** follows from what the engine does, whichever way the fills are
routed: no maker is told of more than it gave. -/
theorem effect_of_opens (told : Nat → Int)
    (htold : ∀ j, 0 ≤ told j ∧ told j ≤ makerShare a.record.issued.find? j a'.engine.lastTrades)
    (hpos : ∀ j, a'.position j = a.position j
      + (if owner = some j then signed side (a'.engine.lastTrades.map Trade.qty).sum else 0)
      + signed side.opposite (told j)) : a.Effect a' owner side qty (k + 1) := by
  obtain ⟨e, he', hs', htrades, hq, -⟩ := hs.placeLimit hlt side price qty
  obtain rfl : e = a'.engine := by simpa [he'] using he
  have hself := (hs.opens hlt side price qty he).self
  have hsum := sum_qty_nonneg fun t ht ↦ (hq t ht).2
  have hopen := hs'.openQty_nonneg side (k + 1)
  have hown := openOf_taker hs hlt hissued he hrecord
  have hopp := openOf_makers hs hlt hissued he hrecord
  refine ⟨find?_issued_succ hissued, by omega, ?_,
    openQty_eq_zero_of_placeLimit hs hlt he, ?_, ?_, ?_⟩
  · intro id' j hid
    rw [hrecord] at hid
    exact find?_issuedAfter hid
  · intro j s
    have htold := htold j
    by_cases hside : s = side
    · subst hside
      rw [hown j]
      simp only [and_true]
      split <;> omega
    · have hopp := hopp j
      rw [if_neg fun h ↦ hside h.2, Side.eq_opposite_of_ne hside]
      omega
  · intro j
    have htold := htold j
    have hown := hown j
    have hopp := hopp j
    rw [Arena.most, Arena.most, hpos]
    cases side <;> simp only [signed, Side.opposite, and_true, and_false, if_false, reduceCtorEq]
      at * <;> split_ifs at * <;> omega
  · intro j
    have htold := htold j
    have hown := hown j
    have hopp := hopp j
    rw [Arena.least, Arena.least, hpos]
    cases side <;> simp only [signed, Side.opposite, and_true, and_false, if_false, reduceCtorEq]
      at * <;> split_ifs at * <;> omega

end Placing

/-! ## Placements and cancels -/

section Calls

variable {k₀ i id : Nat}

theorem makerShare_nonneg {owner : Nat → Option Nat} {j : Nat} {ts : List Trade}
    (h : ∀ t ∈ ts, 1 ≤ t.qty) : 0 ≤ makerShare owner j ts :=
  total_nonneg fun t ht ↦ le_trans Int.one_nonneg (h t ht)

/-- A table that knows less has less to tell. -/
theorem makerShare_mono {owner owner' : Nat → Option Nat} {j : Nat} {ts : List Trade}
    (hpos : ∀ t ∈ ts, 1 ≤ t.qty)
    (h : ∀ t ∈ ts, owner t.makerId = some j → owner' t.makerId = some j) :
    makerShare owner j ts ≤ makerShare owner' j ts := by
  refine total_le_total (fun t ht ↦ le_trans Int.one_nonneg (hpos t ht)) fun t ht ho ↦ ?_
  rw [beq_iff_eq] at ho ⊢
  exact h t ht ho

theorem Kept.standing (h : a.Kept N k₀) (hlt : k₀ + a.record.placed < 2 ^ 64) :
    ∃ m, a.engine.Standing N (k₀ + a.record.placed) m ∧ a.Balanced (k₀ + a.record.placed) := by
  obtain ⟨m, hr, hv, hbound⟩ := h
  obtain ⟨hcounted, hbal⟩ := hbound hlt
  exact ⟨m, ⟨hr, hv, hcounted⟩, hbal⟩

/-- What is known of the engine's part of a placement. -/
theorem Kept.exists_placement (h : a.Kept N k₀) (hlt : k₀ + a.record.placed + 1 < 2 ^ 64)
    (side : Side) (price qty : Int) :
    ∃ m e, a.engine.Standing N (k₀ + a.record.placed) m ∧ a.Balanced (k₀ + a.record.placed) ∧
      a.engine.placeLimit side price qty = some (e, k₀ + a.record.placed + 1) ∧
      (∀ t ∈ e.lastTrades, 1 ≤ t.qty) ∧
      Placement (k₀ + a.record.placed) a.engine.book side price e.lastTrades := by
  obtain ⟨m, hs, hbal⟩ := h.standing (by omega)
  obtain ⟨e, he, -, htrades, htaker, -⟩ := hs.placeLimit hlt side price qty
  obtain ⟨hnd, hmaker⟩ := hs.makers hlt side price qty
  rw [← htrades] at hnd hmaker
  exact ⟨m, e, hs, hbal, he, fun t ht ↦ (htaker t ht).2, fun t ht ↦ (htaker t ht).1, hnd, hmaker⟩

/-- **An order of a strategy**, as its effect on what all of them may still be filled for. -/
theorem Kept.effect_placeLimit (h : a.Kept N k₀) (hlt : k₀ + a.record.placed + 1 < 2 ^ 64)
    (he : a.placeLimit i side price qty = some (a', id)) :
    a.Effect a' (some i) side qty id ∧ id = k₀ + a.record.placed + 1 := by
  obtain ⟨m, e, hs, hbal, hplace, hpos, hp⟩ := h.exists_placement hlt side price qty
  obtain ⟨rfl, rfl⟩ : _ = a' ∧ _ = id := by simpa [placeLimit_eq hplace] using he
  obtain ⟨hengine, hrec, -⟩ := foldl_deliver_frame i side e.lastTrades
    (a.entered i side price e (k₀ + a.record.placed + 1))
  have hrouting : (a.entered i side price e (k₀ + a.record.placed + 1)).routing
      = a.routing.insert (k₀ + a.record.placed + 1) i := rfl
  have htaker : ∀ t ∈ e.lastTrades,
      (a.entered i side price e (k₀ + a.record.placed + 1)).routing.find? t.takerId = some i := by
    intro t ht
    rw [hrouting, SortedMap.find?_insert, hp.taker t ht, if_pos rfl]
  refine ⟨effect_of_opens hs hlt hbal.issued (by rw [hengine]; exact hplace) (by rw [hrec]; rfl)
    (fun j ↦ makerShare (a.entered i side price e (k₀ + a.record.placed + 1)).routing.find? j
      e.lastTrades) (fun j ↦ ?_) fun j ↦ ?_, rfl⟩
  · rw [hengine]
    refine ⟨makerShare_nonneg hpos, makerShare_mono hpos fun t ht hj ↦ ?_⟩
    have hle := (hp.maker t ht).1
    rw [hrouting, SortedMap.find?_insert, if_neg (by omega)] at hj
    exact hbal.routed _ _ hj
  · rw [position_foldl_deliver side e.lastTrades htaker, position_entered,
      net_eq_taker_add_makers side htaker, hengine, Int.add_assoc]
    rfl

/-- **An order of the tick file.** -/
theorem Kept.effect_add {σ : Type} {r r' : Replay σ} {t : Tick} (h : r.arena.Kept N k₀)
    (hlt : k₀ + r.arena.record.placed + 1 < 2 ^ 64) (he : r.add t = some r') :
    r.arena.Effect r'.arena none t.toSide t.qty (k₀ + r.arena.record.placed + 1) := by
  obtain ⟨m, e, hs, hbal, hplace, hpos, hp⟩ := h.exists_placement hlt t.toSide t.price t.qty
  obtain rfl : r.added t e (k₀ + r.arena.record.placed + 1) = r' := by
    simpa [Replay.add_eq hplace] using he
  have hengine := Replay.engine_added (r := r) t e (k₀ + r.arena.record.placed + 1)
  have htaker : ∀ t' ∈ e.lastTrades,
      (r.arena.met t.toSide t.price e).routing.find? t'.takerId = none := by
    intro t' ht'
    rw [hp.taker t' ht']
    exact hbal.routing_find?_succ
  refine effect_of_opens hs hlt hbal.issued (by rw [hengine]; exact hplace)
    (by rw [Replay.record_added]; rfl) (fun j ↦ makerShare r.arena.routing.find? j e.lastTrades)
    (fun j ↦ ?_) fun j ↦ ?_
  · rw [hengine]
    exact ⟨makerShare_nonneg hpos, makerShare_mono hpos fun t _ hj ↦ hbal.routed _ _ hj⟩
  · rw [hengine, Replay.added, position_foldl_routeMaker t.toSide hp.nodup htaker,
      net_eq_taker_add_makers t.toSide htaker, Int.add_assoc]
    rfl

/-- What a cancel does, whoever it is from. -/
structure Cancels (a a' : Arena) (id : Nat) : Prop where
  record : a'.record = a.record
  position : ∀ j, a'.position j = a.position j
  nonneg : ∀ s id', 0 ≤ a.engine.book.openQty s id'
  openQty : ∀ s id', a'.engine.book.openQty s id'
    = if id' = id then 0 else a.engine.book.openQty s id'

theorem Kept.cancels_cancel (h : a.Kept N k₀) (hlt : k₀ + a.record.placed < 2 ^ 64) {ok : Bool}
    (he : a.cancel i id = some (a', ok)) : a.Cancels a' id := by
  obtain ⟨m, hs, -⟩ := h.standing hlt
  obtain ⟨e, hcancel, -⟩ := hs.cancel id
  rw [Arena.cancel, hcancel] at he
  have hopen := hs.openQty_cancel hcancel
  cases hok : (m.cancel id).2 with
  | false =>
    rw [hok] at he
    obtain ⟨rfl, -⟩ := Prod.mk.inj (Option.some.inj he)
    exact ⟨rfl, fun _ ↦ rfl, hs.openQty_nonneg, hopen⟩
  | true =>
    rw [hok] at he
    obtain ⟨rfl, -⟩ := Prod.mk.inj (Option.some.inj he)
    refine ⟨rfl, fun j ↦ ?_, hs.openQty_nonneg, hopen⟩
    exact position_update_counter { a with engine := e } i j
      (fun x ↦ { x with ordersCanceled := x.ordersCanceled + 1 }) fun _ ↦ rfl

end Calls

end Arena

end Backtest

end MatchingEngine
