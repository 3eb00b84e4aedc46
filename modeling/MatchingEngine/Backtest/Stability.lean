import MatchingEngine.Backtest.Exposure

/-!
# What a strategy can rely on

A strategy that keeps to a bound has to reason about its own orders only.  Whatever the other
strategies and the tick file do, they do not place orders in its name, do not reopen an order that
is gone, and do not widen what it may still be filled for (`Arena.Yields`).  A property that rests
on nothing else is `Stable`, and every move that is not the strategy's own keeps it (`Stable.move`).

What the strategy does itself is followed through its callbacks with the rules of pre- and
postconditions, one for each request.  All of this holds until ids wrap, and `Arena.Holds` says so.
-/

set_option autoImplicit false

namespace MatchingEngine

namespace Backtest

namespace Arena

/-! ## Nobody else widens the bounds -/

variable {N : Nat} {a a' : Arena} {owner : Option Nat} {side : Side} {price qty : Int}

/-- What the strategy `i` sees of a step that is not its own. -/
structure Yields (i : Nat) (a a' : Arena) : Prop where
  issued : ∀ id, a'.record.issued.find? id = some i → a.record.issued.find? id = some i
  closed : ∀ s id, a'.record.issued.find? id = some i → a.engine.book.openQty s id = 0 →
    a'.engine.book.openQty s id = 0
  most : a'.most i ≤ a.most i
  least : a.least i ≤ a'.least i

variable {i : Nat}

theorem Effect.yields {id : Nat} (h : a.Effect a' owner side qty id) (ho : owner ≠ some i) :
    a.Yields i a' := by
  have hissued : ∀ id', a'.record.issued.find? id' = some i →
      a.record.issued.find? id' = some i := by
    intro id' hid
    exact (h.issued id' i hid).resolve_right fun hnew ↦ ho hnew.2
  refine ⟨hissued, fun s id' hid hopen ↦ h.closed s id' (fun _ ↦ hopen) fun hnew ↦ ?_, ?_, ?_⟩
  · have := hissued id' hid
    rw [hnew.1, h.fresh] at this
    cases this
  · have := h.most i
    rw [if_neg fun hc ↦ ho hc.1] at this
    omega
  · have := h.least i
    rw [if_neg fun hc ↦ ho hc.1] at this
    omega

theorem Cancels.openQty_le {id : Nat} (h : a.Cancels a' id) (s : Side) (id' : Nat) :
    a'.engine.book.openQty s id' ≤ a.engine.book.openQty s id' := by
  have := h.nonneg s id'
  rw [h.openQty]
  split <;> omega

theorem Cancels.yields {id : Nat} (h : a.Cancels a' id) : a.Yields i a' := by
  have hopen : ∀ s, a'.openOf i s ≤ a.openOf i s := by
    intro s
    rw [openOf, openOf, h.record]
    exact sumOf_le (h.openQty_le s)
  have hpos := h.position i
  have hbuy := hopen .Buy
  have hsell := hopen .Sell
  refine ⟨fun id' hid ↦ ?_, fun s id' _ hid ↦ ?_, ?_, ?_⟩
  · rwa [h.record] at hid
  · rw [h.openQty, hid, ite_self]
  · rw [most, most]
    omega
  · rw [least, least]
    omega

/-- One step of a replay, as far as orders are concerned: an order is placed for one of those in
`who`, or an order is cancelled, or the top of the book is written down. -/
inductive Step (k₀ : Nat) (who : Option Nat → Prop) (a a' : Arena) : Prop where
  | place (owner : Option Nat) (side : Side) (qty : Int) (hwho : who owner)
    (he : a.Effect a' owner side qty (k₀ + a.record.placed + 1))
    (hplaced : a'.record.placed = a.record.placed + 1)
  | cancel (id : Nat) (hc : a.Cancels a' id)
  | look (top : BookTop) (ha : a' = { a with top })

theorem Step.yields {k₀ : Nat} (h : a.Step k₀ (· ≠ some i) a') : a.Yields i a' := by
  cases h with
  | place owner side qty hwho he _ => exact he.yields hwho
  | cancel id hc => exact hc.yields
  | look top ha =>
    rw [ha]
    exact ⟨fun _ hid ↦ hid, fun _ _ _ hopen ↦ hopen, le_rfl, le_rfl⟩

/-- A property that no such step breaks. -/
def Preserved (k₀ : Nat) (who : Option Nat → Prop) (Q : Arena → Prop) : Prop :=
  ∀ a a', a.Step k₀ who a' → Q a → Q a'

/-- A property of what the strategy `i` may be filled for that nobody else can break. -/
def Stable (i : Nat) (Q : Arena → Prop) : Prop := ∀ a a', a.Yields i a' → Q a → Q a'

theorem Stable.preserved {k₀ : Nat} {Q : Arena → Prop} (hQ : Stable i Q) :
    Preserved k₀ (· ≠ some i) Q := fun a a' h ↦ hQ a a' h.yields

/-- The strategy `i` can never be filled past a bound, on either side. -/
structure Within (i : Nat) (bound : Int) (a : Arena) : Prop where
  most : a.most i ≤ bound
  least : -bound ≤ a.least i

theorem Within.stable {bound : Int} : Stable i (Within i bound) :=
  fun _ _ hy hb ↦ ⟨hy.most.trans hb.most, hb.least.trans hy.least⟩

/-- A replay starts without orders and without a position. -/
theorem within_start {σ : Type} {bound : Int} (hbound : 0 ≤ bound) (engine : Engine)
    (memory : Nat → σ) : Within i bound (Replay.start engine memory).arena := by
  have hopen : ∀ s, (Replay.start engine memory).arena.openOf i s = 0 := fun _ ↦ rfl
  have hflat : (Replay.start engine memory).arena.position i = 0 := rfl
  constructor
  · rw [most, hopen, hflat]
    omega
  · rw [least, hopen, hflat]
    omega

/-! ## Rules for callbacks -/

/-- A property that holds as long as ids do not wrap. -/
def Holds (N k₀ : Nat) (Q : Arena → Prop) (a : Arena) : Prop :=
  a.Kept N k₀ ∧ (k₀ + a.record.placed < 2 ^ 64 → Q a)

section Rules

variable {k₀ j : Nat} {who : Option Nat → Prop} {B Q Q' : Arena → Prop}

theorem Holds.imp (h : a.Holds N k₀ Q) (hQ : ∀ a, Q a → Q' a) : a.Holds N k₀ Q' :=
  ⟨h.1, fun hlt ↦ hQ a (h.2 hlt)⟩

theorem placed_placeLimit {id : Nat} (he : a.placeLimit i side price qty = some (a', id)) :
    a'.record.placed = a.record.placed + 1 := by
  obtain ⟨e, -, -, hrecord⟩ := of_placeLimit he
  rw [hrecord, note]

/-- The rule for a placement. -/
theorem ensures_placeLimit {side : Side} {price qty : Int} {P : Nat → Arena → Prop}
    (hB : ∀ a, Q a → B a) (hB' : ∀ id a, P id a → B a)
    (h : ∀ a a' id, Q a → a.Effect a' (some i) side qty id → P id a') :
    Program.Ensures (act i) (Holds N k₀ B) (Holds N k₀ Q)
      (Program.perform (.placeLimit side price qty)) fun id ↦ Holds N k₀ (P id) := by
  refine .perform (fun a ha ↦ ha.imp hB) fun a ha a' id he ↦ ?_
  obtain ⟨a₁, id₁, he₁, hk₁⟩ := ha.1.placeLimit i side price qty
  obtain ⟨rfl, rfl⟩ : a₁ = a' ∧ id₁ = id := by simpa using he₁.symm.trans he
  have hafter : a₁.Holds N k₀ (P id₁) := by
    refine ⟨hk₁, fun hlt ↦ ?_⟩
    rw [placed_placeLimit he₁, ← Nat.add_assoc] at hlt
    exact h a a₁ id₁ (ha.2 (by omega)) (ha.1.effect_placeLimit hlt he₁).1
  exact ⟨hafter.imp (hB' id₁), hafter⟩

/-- The rule for a cancel. -/
theorem ensures_cancel {id : Nat} (hB : ∀ a, Q a → B a) (hB' : ∀ a, Q' a → B a)
    (h : ∀ a a', Q a → a.Cancels a' id → Q' a') :
    Program.Ensures (act i) (Holds N k₀ B) (Holds N k₀ Q) (Program.perform (.cancel id))
      fun _ ↦ Holds N k₀ Q' := by
  refine .perform (fun a ha ↦ ha.imp hB) fun a ha a' ok he ↦ ?_
  obtain ⟨a₁, ok₁, he₁, hk₁⟩ := ha.1.cancel i id
  obtain ⟨rfl, rfl⟩ : a₁ = a' ∧ ok₁ = ok := by simpa using he₁.symm.trans he
  obtain ⟨-, -, -, hrecord⟩ := of_cancel he₁
  have hafter : a₁.Holds N k₀ Q' := by
    refine ⟨hk₁, fun hlt ↦ ?_⟩
    rw [hrecord] at hlt
    exact h a a₁ (ha.2 hlt) (ha.1.cancels_cancel hlt he₁)
  exact ⟨hafter.imp hB', hafter⟩

/-- The rule for a look at the top of the book. -/
theorem ensures_top (hB : ∀ a, Q a → B a) :
    Program.Ensures (act i) (Holds N k₀ B) (Holds N k₀ Q) (Program.perform .top)
      fun _ ↦ Holds N k₀ Q := by
  refine .perform (fun a ha ↦ ha.imp hB) fun a ha a' top he ↦ ?_
  obtain ⟨rfl, -⟩ := Prod.mk.inj (Option.some.inj he)
  exact ⟨ha.imp hB, ha⟩

/-- The rule for a look at the account. -/
theorem ensures_account (hB : ∀ a, Q a → B a) :
    Program.Ensures (act i) (Holds N k₀ B) (Holds N k₀ Q) (Program.perform .account)
      fun x : Account ↦ Holds N k₀ fun a ↦ Q a ∧ x.portfolio.position = a.position i := by
  refine .perform (fun a ha ↦ ha.imp hB) fun a ha a' x he ↦ ?_
  obtain ⟨rfl, rfl⟩ := Prod.mk.inj (Option.some.inj he)
  exact ⟨ha.imp hB, ha.1, fun hlt ↦ ⟨ha.2 hlt, rfl⟩⟩

/-- **Whatever a strategy does.** -/
theorem Preserved.ensures (hQ : Preserved k₀ who Q) (hj : who (some j)) {α : Type}
    (p : Callback α) :
    Program.Ensures (act j) (Holds N k₀ Q) (Holds N k₀ Q) p fun _ ↦ Holds N k₀ Q := by
  refine Program.Keeps.of_requests (fun e a h a' r he ↦ ?_) p
  cases e with
  | placeLimit side price qty =>
    obtain ⟨a₁, id, he₁, hk₁⟩ := h.1.placeLimit j side price qty
    obtain ⟨rfl, rfl⟩ : a₁ = a' ∧ id = r := by simpa using he₁.symm.trans he
    have hplaced := placed_placeLimit he₁
    refine ⟨hk₁, fun hlt ↦ ?_⟩
    rw [hplaced, ← Nat.add_assoc] at hlt
    obtain ⟨heff, rfl⟩ := h.1.effect_placeLimit hlt he₁
    exact hQ a a₁ (.place (some j) side qty hj heff hplaced) (h.2 (by omega))
  | cancel id =>
    have hrule : Program.Ensures (act j) (Holds N k₀ Q) (Holds N k₀ Q)
        (Program.perform (.cancel id)) fun _ ↦ Holds N k₀ Q :=
      ensures_cancel (fun _ hq ↦ hq) (fun _ hq ↦ hq) fun a a' hq hc ↦ hQ a a' (.cancel id hc) hq
    exact (hrule a h).2 a' r (by rw [Program.exec_perform, he])
  | top =>
    obtain ⟨rfl, -⟩ := Prod.mk.inj (Option.some.inj he)
    exact h
  | account =>
    obtain ⟨rfl, -⟩ := Prod.mk.inj (Option.some.inj he)
    exact h

end Rules

/-! ## Moves -/

section Moves

variable {σ : Type} {r r' : Replay σ} {k₀ : Nat} {who : Option Nat → Prop} {Q : Arena → Prop}

theorem Preserved.apply (hQ : Preserved k₀ who Q) (hnone : who none) (h : r.arena.Holds N k₀ Q)
    {t : Tick} (he : r.apply t = some r') : r'.arena.Holds N k₀ Q ∧ r'.memory = r.memory := by
  obtain ⟨r₁, he₁, hk₁⟩ := h.1.apply t
  obtain rfl : r₁ = r' := by simpa [he₁] using he
  rcases Replay.apply_cases he with ⟨e, id, -, hplace, rfl⟩ |
    ⟨id, e, ok, -, -, hcancel, harena, -, hmemory⟩ | ⟨-, -, harena, -, hmemory⟩
  · refine ⟨⟨hk₁, fun hlt ↦ ?_⟩, rfl⟩
    have hplaced := Replay.placed_added (r := r) t e id
    rw [hplaced, ← Nat.add_assoc] at hlt
    have hstep : r.arena.Step k₀ who (r.added t e id).arena :=
      .place none _ _ hnone (h.1.effect_add hlt (Replay.add_eq hplace)) hplaced
    exact hQ _ _ hstep (h.2 (by omega))
  · refine ⟨⟨hk₁, ?_⟩, hmemory⟩
    rw [harena]
    intro hlt
    obtain ⟨m, hs, -⟩ := h.1.standing hlt
    have hc : r.arena.Cancels { r.arena with engine := e } id :=
      ⟨rfl, fun _ ↦ rfl, hs.openQty_nonneg, hs.openQty_cancel hcancel⟩
    exact hQ _ _ (.cancel id hc) (h.2 hlt)
  · exact ⟨harena ▸ h, hmemory⟩

/-- **A move** of someone in `who`; it does not touch what others remember. -/
theorem Preserved.move (hQ : Preserved k₀ who Q) (hnone : who none) (h : r.arena.Holds N k₀ Q)
    {m : Move σ} (hm : ∀ j f, m = .callback j f → who (some j)) (he : r.move m = some r') :
    r'.arena.Holds N k₀ Q ∧ ∀ i, (∀ f, m ≠ .callback i f) → r'.memory i = r.memory i := by
  cases m with
  | tick t =>
    simp only [Replay.move, Option.bind_eq_bind, Option.bind_eq_some_iff] at he
    obtain ⟨r₁, h₁, top, -, he⟩ := he
    obtain rfl := Option.some.inj he
    obtain ⟨hh, hmemory⟩ :=
      hQ.apply (r := { r with stats.ticksConsumed := r.stats.ticksConsumed + 1 }) hnone h h₁
    exact ⟨⟨hh.1.withTop top, fun hlt ↦ hQ _ _ (.look top rfl) (hh.2 hlt)⟩,
      fun i _ ↦ congrFun hmemory i⟩
  | callback j f =>
    simp only [Replay.move, Option.bind_eq_bind, Option.bind_eq_some_iff] at he
    obtain ⟨⟨a, x⟩, hexec, he⟩ := he
    obtain rfl := Option.some.inj he
    refine ⟨(hQ.ensures (hm j f rfl) _ _ h).2 _ _ hexec, fun i hi ↦ Function.update_of_ne ?_ _ _⟩
    exact fun hij ↦ hi f (by rw [hij])

/-- **A move of anyone else.** -/
theorem Stable.move (hQ : Stable i Q) (h : r.arena.Holds N k₀ Q) {m : Move σ}
    (hne : ∀ f, m ≠ .callback i f) (he : r.move m = some r') :
    r'.arena.Holds N k₀ Q ∧ r'.memory i = r.memory i := by
  have hm : ∀ j f, m = .callback j f → some j ≠ some i :=
    fun j f hm hji ↦ hne f (by rw [hm, Option.some.inj hji])
  obtain ⟨hh, hmemory⟩ := hQ.preserved.move (by simp) h hm he
  exact ⟨hh, hmemory i hne⟩

end Moves

/-- The position is between the two bounds. -/
theorem Kept.position_between {k₀ : Nat} (h : a.Kept N k₀) (hlt : k₀ + a.record.placed < 2 ^ 64)
    (i : Nat) : a.least i ≤ a.position i ∧ a.position i ≤ a.most i := by
  obtain ⟨m, hs, -⟩ := h.standing hlt
  have hbuy : 0 ≤ a.openOf i .Buy := sumOf_nonneg (hs.openQty_nonneg .Buy)
  have hsell : 0 ≤ a.openOf i .Sell := sumOf_nonneg (hs.openQty_nonneg .Sell)
  rw [least, most]
  omega

theorem Holds.position_within {k₀ : Nat} {bound : Int} (h : a.Holds N k₀ (Within i bound))
    (hlt : k₀ + a.record.placed < 2 ^ 64) : -bound ≤ a.position i ∧ a.position i ≤ bound := by
  obtain ⟨hleast, hmost⟩ := h.1.position_between hlt i
  exact ⟨(h.2 hlt).least.trans hleast, hmost.trans (h.2 hlt).most⟩

/-! ## Runs -/

section Runs

variable {α β : Type} {i N k₀ : Nat} {B : Arena → Prop} {J : α → Arena → Prop}

theorem ensures_inl {f : α → Callback α} {x : α} {P : Arena → Prop}
    (hB : ∀ x a, J x a → B a)
    (h : Program.Ensures (act i) (Holds N k₀ B) P (f x) fun x ↦ Holds N k₀ (J x)) :
    Program.Ensures (act i) (Holds N k₀ B) P (Callback.inl (β := β) f (.inl x))
      fun y a ↦ ∃ x, y = .inl x ∧ a.Holds N k₀ (J x) :=
  .bind h fun x ↦ .ret fun _ ha ↦ ⟨ha.imp (hB x), x, rfl, ha⟩

/-- What is seen during a move of anyone else. -/
theorem Stable.passing {σ : Type} {Q : Arena → Prop} (hQ : Stable i Q) {r : Replay σ}
    (h : r.arena.Holds N k₀ Q) {m : Move σ} (hne : ∀ f, m ≠ .callback i f) :
    ∀ a ∈ r.passing m, a.Holds N k₀ Q := by
  cases m with
  | tick t =>
    intro a ha
    rwa [List.mem_singleton.mp ha]
  | callback j f =>
    have hji : j ≠ i := fun hji ↦ hne f (by rw [hji])
    exact (hQ.preserved.ensures (fun hc ↦ hji (Option.some.inj hc)) (f (r.memory j)) r.arena h).1

/-- In this run the strategy `i` keeps `J` of its memory and the arena, and `B` all the time. -/
structure Disciplined (N k₀ i : Nat) (B : Arena → Prop) (J : α → Arena → Prop)
    (r₀ : Replay (α ⊕ β)) (all : List (Move (α ⊕ β))) : Prop where
  stable : ∀ x, Stable i (J x)
  imp : ∀ x a, J x a → B a
  start : ∃ x, r₀.memory i = .inl x ∧ r₀.arena.Holds N k₀ (J x)
  own : ∀ done f r x, done ++ [.callback i f] <+: all → r₀.after done = some r →
    r.memory i = .inl x → r.arena.Holds N k₀ (J x) →
    (∀ a ∈ Program.visits (act i) (f (.inl x)) r.arena, a.Holds N k₀ B) ∧
      ∀ a y, Program.exec (act i) (f (.inl x)) r.arena = some (a, y) →
        ∃ x, y = .inl x ∧ a.Holds N k₀ (J x)

variable {r₀ : Replay (α ⊕ β)} {all : List (Move (α ⊕ β))}

/-- **An invariant of one strategy** holds between any two moves of the run. -/
theorem Disciplined.after (h : Disciplined N k₀ i B J r₀ all) {done : List (Move (α ⊕ β))}
    (hdone : done <+: all) {r : Replay (α ⊕ β)} (hr : r₀.after done = some r) :
    ∃ x, r.memory i = .inl x ∧ r.arena.Holds N k₀ (J x) := by
  refine Replay.after_invariant (I := fun _ r ↦ ∃ x, r.memory i = .inl x ∧
    r.arena.Holds N k₀ (J x)) h.start (fun done m r r' hm hr ⟨x, hx, hj⟩ he ↦ ?_) hdone hr
  by_cases hmine : ∃ f, m = .callback i f
  · obtain ⟨f, rfl⟩ := hmine
    simp only [Replay.move, hx, Option.bind_eq_bind, Option.bind_eq_some_iff] at he
    obtain ⟨⟨a, y⟩, hexec, he⟩ := he
    obtain rfl := Option.some.inj he
    obtain ⟨x', rfl, hj'⟩ := (h.own done f r x hm hr hx hj).2 a y hexec
    exact ⟨x', Function.update_self _ _ _, hj'⟩
  · obtain ⟨hj', hmemory⟩ := (h.stable x).move hj (fun f hf ↦ hmine ⟨f, hf⟩) he
    exact ⟨x, hmemory.trans hx, hj'⟩

/-- **And between any two calls** its bound does. -/
theorem Disciplined.arenas (h : Disciplined N k₀ i B J r₀ all) :
    ∀ a ∈ r₀.arenas all, a.Holds N k₀ B := by
  intro a ha
  obtain ⟨done, r, hdone, hr, hseen⟩ := Replay.mem_arenas ha
  obtain ⟨x, hx, hj⟩ := h.after hdone hr
  rcases hseen with rfl | ⟨m, hm, ha⟩
  · exact hj.imp (h.imp x)
  by_cases hmine : ∃ f, m = .callback i f
  · obtain ⟨f, rfl⟩ := hmine
    rw [Replay.passing, hx] at ha
    exact (h.own done f r x hm hr hx hj).1 a ha
  · exact ((h.stable x).passing hj (fun f hf ↦ hmine ⟨f, hf⟩) a ha).imp (h.imp x)

end Runs

end Arena

end Backtest

end MatchingEngine
