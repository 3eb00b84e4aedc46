import Mathlib.Algebra.BigOperators.Group.List.Basic
import Mathlib.Algebra.Order.BigOperators.Group.List
import Mathlib.Algebra.Order.Group.Int
import Mathlib.Algebra.Order.Group.MinMax
import Mathlib.Algebra.Order.Ring.Int
import Mathlib.Data.List.Basic

/-!
# Handing out a quantity over a queue of lots

A *lot* is anything with a size that can be cut down.  `take qty l` serves the lots of `l` in order
until `qty` has been used up: each lot in turn gives what it has or what is still wanted, whichever
is less, and a lot that has given all it had leaves the queue.

`sweep cross qty ls` does the same over a list of queues, each filed under a key, and stops at the
first key that `cross` refuses.  Serving queue after queue is no different from serving the single
queue of all the lots in the crossing part of the list: `sweep_eq_take` says so, and it is through
that theorem that everything `take` satisfies is known of `sweep`.

The facts about `take` come in three kinds: what it gives out (`given_add_left`, `amount_bounds`),
what it leaves behind (`left_nonpos_of_rest`, `map_key`), and that it commutes with a change in what
the lots are (`take_map`).
-/

set_option autoImplicit false

namespace Greedy

universe u v w

/-- Something with a quantity that can be reduced. -/
class Lot (α : Type u) where
  /-- How much the lot offers. -/
  size : α → Int
  /-- The same lot, offering a different quantity. -/
  resize : α → Int → α
  /-- Resizing does what it says. -/
  size_resize : ∀ a q, size (resize a q) = q

export Lot (size resize)

/-- An amount taken out of a lot; `lot` is the lot as it stood before. -/
structure Fill (α : Type u) where
  /-- The lot that gave. -/
  lot : α
  /-- What it gave. -/
  amount : Int

/-- The outcome of serving one queue. -/
structure Taken (α : Type u) where
  /-- What was given, in order. -/
  fills : List (Fill α)
  /-- The queue that is left. -/
  rest : List α
  /-- What is still wanted. -/
  left : Int

variable {α : Type u} {β : Type v} {κ : Type w}

/-- Serve the lots of the queue in order until `qty` is used up. -/
def take [Lot α] : Int → List α → Taken α
  | qty, [] => ⟨[], [], qty⟩
  | qty, a :: l =>
    if 0 < qty then
      if size a - min qty (size a) = 0 then
        let t := take (qty - min qty (size a)) l
        ⟨⟨a, min qty (size a)⟩ :: t.fills, t.rest, t.left⟩
      else
        ⟨[⟨a, min qty (size a)⟩], resize a (size a - min qty (size a)) :: l,
          qty - min qty (size a)⟩
    else ⟨[], a :: l, qty⟩

/-- The lots that gave all they had. -/
def consumed [Lot α] (fs : List (Fill α)) : List α :=
  fs.filterMap fun f ↦ if f.amount = size f.lot then some f.lot else none

theorem consumed_cons [Lot α] (f : Fill α) (fs : List (Fill α)) :
    consumed (f :: fs) = if f.amount = size f.lot then f.lot :: consumed fs else consumed fs := by
  rw [consumed, List.filterMap_cons]
  split <;> rename_i h
  · rw [if_neg (by simpa using h)]
    rfl
  · rw [Option.ite_none_right_eq_some] at h
    rw [if_pos h.1, ← Option.some_inj.mp h.2]
    rfl

theorem mem_consumed [Lot α] {fs : List (Fill α)} {a : α} :
    a ∈ consumed fs ↔ ∃ f ∈ fs, f.amount = size f.lot ∧ f.lot = a := by
  simp only [consumed, List.mem_filterMap, Option.ite_none_right_eq_some, Option.some_inj]

theorem consumed_of_amount_eq [Lot α] {fs : List (Fill α)} (h : ∀ f ∈ fs, f.amount = size f.lot) :
    consumed fs = fs.map Fill.lot := by
  rw [consumed, List.filterMap_congr fun f hf ↦ if_pos (h f hf), List.filterMap_eq_map']

/-- A change of lots that keeps their sizes keeps which of them gave all they had. -/
theorem consumed_map [Lot α] [Lot β] (f : α → β) (hsize : ∀ a, size (f a) = size a)
    (fs : List (Fill α)) :
    consumed (fs.map fun x ↦ (⟨f x.lot, x.amount⟩ : Fill β)) = (consumed fs).map f := by
  rw [consumed, consumed, List.filterMap_map, List.map_filterMap]
  refine List.filterMap_congr fun x _ ↦ ?_
  simp only [Function.comp_def, hsize]
  split <;> rfl

/-- The total given. -/
def given (fs : List (Fill α)) : Int := (fs.map Fill.amount).sum

/-- The total on offer. -/
def offered [Lot α] (l : List α) : Int := (l.map size).sum

section Take

variable [Lot α]

theorem take_of_nonpos {qty : Int} (h : qty ≤ 0) (l : List α) : take qty l = ⟨[], l, qty⟩ := by
  cases l with
  | nil => rfl
  | cons a l => rw [take, if_neg (by omega)]

theorem take_append (qty : Int) (l r : List α) :
    take qty (l ++ r) =
      if (take qty l).rest.isEmpty then
        ⟨(take qty l).fills ++ (take (take qty l).left r).fills, (take (take qty l).left r).rest,
          (take (take qty l).left r).left⟩
      else ⟨(take qty l).fills, (take qty l).rest ++ r, (take qty l).left⟩ := by
  induction l generalizing qty with
  | nil => simp [take]
  | cons a l ih =>
    rw [List.cons_append, take, take]
    split
    · split
      · rw [ih]
        dsimp only
        split <;> rfl
      · simp
    · simp

/-- `take` sees nothing of a lot but its size. -/
theorem take_map [Lot β] (f : α → β) (hsize : ∀ a, size (f a) = size a)
    (hresize : ∀ a q, f (resize a q) = resize (f a) q) (qty : Int) (l : List α) :
    take qty (l.map f) =
      ⟨(take qty l).fills.map fun x ↦ ⟨f x.lot, x.amount⟩, (take qty l).rest.map f,
        (take qty l).left⟩ := by
  induction l generalizing qty with
  | nil => rfl
  | cons a l ih =>
    rw [List.map_cons, take, take, hsize, ih]
    split
    · split
      · rfl
      · simp [hresize]
    · simp

/-- **Nothing is lost**: what was given and what is still wanted make up what was wanted. -/
theorem given_add_left (qty : Int) (l : List α) :
    given (take qty l).fills + (take qty l).left = qty := by
  induction l generalizing qty with
  | nil => simp [take, given]
  | cons a l ih =>
    rw [take]
    split
    · split
      · have h := ih (qty - min qty (size a))
        simp only [given, List.map_cons, List.sum_cons] at h ⊢
        omega
      · simp only [given, List.map_cons, List.map_nil, List.sum_cons, List.sum_nil]
        omega
    · simp [given]

/-- A queue that still has lots in it was not short. -/
theorem left_nonpos_of_rest {qty : Int} {l : List α} (h : (take qty l).rest ≠ []) :
    (take qty l).left ≤ 0 := by
  induction l generalizing qty with
  | nil => simp [take] at h
  | cons a l ih =>
    rw [take] at h ⊢
    split at h
    · split at h
      · rename_i hq hs
        rw [if_pos hq, if_pos hs]
        exact ih h
      · rename_i hq hs
        rw [if_pos hq, if_neg hs]
        dsimp only
        omega
    · rename_i hq
      rw [if_neg hq]
      dsimp only
      omega

theorem left_nonneg {qty : Int} (hq : 0 ≤ qty) (l : List α) : 0 ≤ (take qty l).left := by
  induction l generalizing qty with
  | nil => exact hq
  | cons a l ih =>
    rw [take]
    split
    · split
      · exact ih (by omega)
      · dsimp only
        omega
    · exact hq

/-- When every lot offers something, every fill is a positive part of its lot. -/
theorem amount_bounds {qty : Int} {l : List α} (hl : ∀ a ∈ l, 1 ≤ size a) :
    ∀ f ∈ (take qty l).fills, 1 ≤ f.amount ∧ f.amount ≤ size f.lot := by
  induction l generalizing qty with
  | nil => simp [take]
  | cons a l ih =>
    have ha := hl a List.mem_cons_self
    intro f hf
    rw [take] at hf
    split at hf
    · split at hf
      · rcases List.mem_cons.mp hf with rfl | hf
        · dsimp only
          omega
        · exact ih (fun b hb ↦ hl b (List.mem_cons_of_mem _ hb)) f hf
      · rw [List.mem_singleton] at hf
        subst hf
        dsimp only
        omega
    · simp at hf

/-- Lots give in the order of the queue, each once. -/
theorem lots_fills_isPrefix (qty : Int) (l : List α) : (take qty l).fills.map Fill.lot <+: l := by
  induction l generalizing qty with
  | nil => exact List.prefix_rfl
  | cons a l ih =>
    rw [take]
    split
    · split
      · exact (List.prefix_cons_inj a).mpr (ih _)
      · exact ⟨l, rfl⟩
    · exact List.nil_prefix

/-- **Only the last lot that gives can keep something.** -/
theorem amount_eq_of_before {qty : Int} {l : List α} {fs gs : List (Fill α)} {f : Fill α}
    (h : (take qty l).fills = fs ++ f :: gs) : ∀ g ∈ fs, g.amount = size g.lot := by
  induction l generalizing qty fs with
  | nil => simp [take] at h
  | cons a l ih =>
    rw [take] at h
    cases fs with
    | nil => simp
    | cons g fs =>
      split at h
      · split at h
        · rename_i hs
          rw [List.cons_append, List.cons.injEq] at h
          obtain ⟨rfl, h⟩ := h
          refine List.forall_mem_cons.mpr ⟨?_, ih h⟩
          dsimp only
          omega
        · simp at h
      · simp at h

theorem length_fills_le (qty : Int) (l : List α) :
    (take qty l).fills.length ≤ (consumed (take qty l).fills).length + 1 := by
  rcases List.eq_nil_or_concat (take qty l).fills with h | ⟨fs, f, h⟩
  · simp [h]
  · have hall := consumed_of_amount_eq (amount_eq_of_before (h.trans (List.concat_eq_append ..)))
    have hsub : (consumed fs).length ≤ (consumed (fs.concat f)).length := by
      rw [consumed, consumed, List.concat_eq_append, List.filterMap_append, List.length_append]
      omega
    rw [h]
    rw [hall, List.length_map] at hsub
    simp only [List.length_concat]
    omega

theorem lot_mem {qty : Int} {l : List α} : ∀ f ∈ (take qty l).fills, f.lot ∈ l :=
  fun _ hf ↦ (lots_fills_isPrefix qty l).subset (List.mem_map_of_mem hf)

theorem size_rest {qty : Int} {l : List α} (hl : ∀ a ∈ l, 1 ≤ size a) :
    ∀ a ∈ (take qty l).rest, 1 ≤ size a := by
  induction l generalizing qty with
  | nil => simp [take]
  | cons a l ih =>
    have ha := hl a List.mem_cons_self
    intro b hb
    rw [take] at hb
    split at hb
    · split at hb
      · exact ih (fun b hb ↦ hl b (List.mem_cons_of_mem _ hb)) b hb
      · rcases List.mem_cons.mp hb with rfl | hb
        · rw [Lot.size_resize]
          omega
        · exact hl b (List.mem_cons_of_mem _ hb)
    · exact hl b hb

/-- A lot that has not given all it had is the first one left. -/
theorem rest_of_amount_lt {qty : Int} {l : List α} {f : Fill α} (hf : f ∈ (take qty l).fills)
    (hlt : f.amount < size f.lot) :
    ∃ r, (take qty l).rest = resize f.lot (size f.lot - f.amount) :: r := by
  induction l generalizing qty with
  | nil => simp [take] at hf
  | cons a l ih =>
    rw [take] at hf ⊢
    split at hf
    · rename_i hq
      rw [if_pos hq]
      split at hf
      · rename_i hs
        rw [if_pos hs]
        rcases List.mem_cons.mp hf with rfl | hf
        · dsimp only at hlt
          omega
        · exact ih hf
      · rename_i hs
        rw [if_neg hs]
        rw [List.mem_singleton.mp hf]
        exact ⟨l, rfl⟩
    · simp at hf

/-- The lots served are a prefix of the queue and what is left is the rest of it, for anyone who
does not look at sizes. -/
theorem map_key (key : α → β) (hkey : ∀ a q, key (resize a q) = key a) (qty : Int) (l : List α) :
    l.map key = (consumed (take qty l).fills).map key ++ (take qty l).rest.map key := by
  induction l generalizing qty with
  | nil => simp [take, consumed]
  | cons a l ih =>
    rw [take]
    split
    · split
      · rename_i hs
        have hfull : min qty (size a) = size a := by omega
        rw [List.map_cons, ih (qty - min qty (size a))]
        simp [consumed, hfull]
      · rename_i hs
        have hpart : min qty (size a) ≠ size a := by omega
        simp [consumed, hpart, hkey]
    · simp [consumed]

/-- **What was on offer is what was given plus what is left**, kind by kind. -/
theorem offered_filter (p : α → Bool) (hp : ∀ a q, p (resize a q) = p a) (qty : Int)
    (l : List α) :
    offered (l.filter p) = given ((take qty l).fills.filter fun f ↦ p f.lot)
      + offered ((take qty l).rest.filter p) := by
  induction l generalizing qty with
  | nil => simp [take, given, offered]
  | cons a l ih =>
    rw [take]
    split
    · split
      · rename_i hs
        have hfull : min qty (size a) = size a := by omega
        have h := ih (qty - min qty (size a))
        cases hpa : p a <;>
          simp only [List.filter_cons, hpa, offered, given, List.map_cons, List.sum_cons,
            Bool.false_eq_true, if_true, if_false] at h ⊢ <;> omega
      · cases hpa : p a with
        | false => simp [hp, hpa, offered, given]
        | true =>
          simp only [List.filter_cons, hp, hpa, offered, given, List.map_cons, List.sum_cons,
            if_true, List.filter_nil, List.map_nil, List.sum_nil, Lot.size_resize]
          omega
    · simp [given, offered]

/-- A lot that is wanted as a whole. -/
theorem take_cons_of_le {qty : Int} {a : α} (hq : 0 < qty) (h : size a ≤ qty) (l : List α) :
    take qty (a :: l) = ⟨⟨a, size a⟩ :: (take (qty - size a) l).fills, (take (qty - size a) l).rest,
      (take (qty - size a) l).left⟩ := by
  have hfull : min qty (size a) = size a := by omega
  rw [take, if_pos hq, hfull, if_pos (Int.sub_self _)]

/-- A lot of which a part is enough. -/
theorem take_cons_of_lt {qty : Int} {a : α} (hq : 0 < qty) (h : qty < size a) (l : List α) :
    take qty (a :: l) = ⟨[⟨a, qty⟩], resize a (size a - qty) :: l, 0⟩ := by
  have hpart : min qty (size a) = qty := by omega
  rw [take, if_pos hq, hpart, if_neg (by omega), Int.sub_self]

/-- **Serving twice** leaves what serving the sum leaves. -/
theorem rest_take_add (hresize : ∀ (a : α) x y, resize (resize a x) y = resize a y) {q₁ q₂ : Int}
    (h₁ : 0 ≤ q₁) (h₂ : 0 ≤ q₂) (l : List α) :
    (take (q₁ + q₂) l).rest = (take q₂ (take q₁ l).rest).rest := by
  induction l generalizing q₁ with
  | nil => rfl
  | cons a l ih =>
    rcases h₁.eq_or_lt with rfl | hpos
    · rw [take_of_nonpos le_rfl, Int.zero_add]
    rcases h₂.eq_or_lt with rfl | hpos₂
    · rw [take_of_nonpos le_rfl, Int.add_zero]
    rcases le_or_gt (size a) q₁ with hfull | hpart
    · -- the first lot is used up before the second taker comes
      rw [take_cons_of_le (by omega) (by omega), take_cons_of_le hpos hfull,
        show q₁ + q₂ - size a = q₁ - size a + q₂ by omega]
      exact ih (by omega)
    rw [take_cons_of_lt hpos hpart]
    rcases le_or_gt (size a - q₁) q₂ with hfull | hpart₂
    · rw [take_cons_of_le (by omega) (by omega), take_cons_of_le hpos₂ (by rwa [Lot.size_resize]),
        Lot.size_resize, show q₁ + q₂ - size a = q₂ - (size a - q₁) by omega]
    · rw [take_cons_of_lt (by omega) (by omega), take_cons_of_lt hpos₂ (by rwa [Lot.size_resize]),
        Lot.size_resize, hresize, show size a - (q₁ + q₂) = size a - q₁ - q₂ by omega]

/-- What keeps its sort when it is resized is left over as what it was. -/
theorem forall_rest {p : α → Prop} (hp : ∀ a q, p a → p (resize a q)) {qty : Int} {l : List α}
    (hl : ∀ a ∈ l, p a) : ∀ a ∈ (take qty l).rest, p a := by
  induction l generalizing qty with
  | nil => simp [take]
  | cons a l ih =>
    obtain ⟨ha, hl'⟩ := List.forall_mem_cons.mp hl
    rcases le_or_gt qty 0 with hq | hq
    · rw [take_of_nonpos hq]
      exact hl
    rcases le_or_gt (size a) qty with hfull | hpart
    · rw [take_cons_of_le hq hfull]
      exact ih hl'
    · rw [take_cons_of_lt hq hpart]
      exact List.forall_mem_cons.mpr ⟨hp a _ ha, hl'⟩

/-- Lots that give nothing may as well not be there. -/
theorem take_filter (keep : α → Bool) (hkeep : ∀ a q, keep (resize a q) = keep a) {qty : Int}
    {l : List α} (h : ∀ f ∈ (take qty l).fills, keep f.lot = true) :
    take qty (l.filter keep)
      = ⟨(take qty l).fills, (take qty l).rest.filter keep, (take qty l).left⟩ := by
  induction l generalizing qty with
  | nil => rfl
  | cons a l ih =>
    rcases le_or_gt qty 0 with hq | hq
    · rw [take_of_nonpos hq, take_of_nonpos hq]
    rcases le_or_gt (size a) qty with hfull | hpart
    · rw [take_cons_of_le hq hfull] at h ⊢
      obtain ⟨ha, h⟩ := List.forall_mem_cons.mp h
      rw [List.filter_cons_of_pos ha, take_cons_of_le hq hfull, ih h]
    · rw [take_cons_of_lt hq hpart] at h ⊢
      have ha : keep a = true := h ⟨a, qty⟩ (List.mem_singleton.mpr rfl)
      rw [List.filter_cons_of_pos ha, take_cons_of_lt hq hpart,
        List.filter_cons_of_pos (by rw [hkeep, ha])]

/-- A taker that wants more than there is gets everything. -/
theorem take_of_offered_lt {qty : Int} {l : List α} (hl : ∀ a ∈ l, 1 ≤ size a)
    (h : offered l < qty) :
    take qty l = ⟨l.map fun a ↦ ⟨a, size a⟩, [], qty - offered l⟩ := by
  induction l generalizing qty with
  | nil => simp [take, offered]
  | cons a l ih =>
    obtain ⟨ha, hl⟩ := List.forall_mem_cons.mp hl
    have hrest : 0 ≤ offered l := List.sum_nonneg fun x hx ↦ by
      obtain ⟨b, hb, rfl⟩ := List.mem_map.mp hx
      exact Int.le_of_lt (hl b hb)
    have hcons : offered (a :: l) = size a + offered l := List.sum_cons
    rw [take_cons_of_le (by omega) (by omega), ih hl (by omega), hcons, List.map_cons,
      show qty - size a - offered l = qty - (size a + offered l) by omega]

/-- A taker that does not is satisfied. -/
theorem left_nonpos_of_le_offered {qty : Int} {l : List α} (h : qty ≤ offered l) :
    (take qty l).left ≤ 0 := by
  by_cases hrest : (take qty l).rest = []
  · have hall := offered_filter (fun _ ↦ true) (fun _ _ ↦ rfl) qty l
    have hgiven := given_add_left qty l
    simp only [List.filter_true, hrest] at hall
    rw [show offered ([] : List α) = 0 from rfl] at hall
    omega
  · exact left_nonpos_of_rest hrest

section Key

variable [DecidableEq β] (key : α → β)

/-- What a list of fills took out of a lot, if lots are told apart by their keys. -/
def givenBy (fs : List (Fill α)) (a : α) : Int := given (fs.filter fun f ↦ key f.lot = key a)

/-- What is left of a lot after a list of fills. -/
def leftOf (fs : List (Fill α)) (a : α) : Option α :=
  if size a - givenBy key fs a = 0 then none else some (resize a (size a - givenBy key fs a))

variable {key} {f : Fill α} {fs : List (Fill α)} {a : α}

omit [Lot α] in
theorem givenBy_cons (f : Fill α) (fs : List (Fill α)) (a : α) :
    givenBy key (f :: fs) a = (if key f.lot = key a then f.amount else 0) + givenBy key fs a := by
  by_cases h : key f.lot = key a <;> simp [givenBy, given, h]

omit [Lot α] in
theorem givenBy_eq_zero (h : ∀ f ∈ fs, key f.lot ≠ key a) : givenBy key fs a = 0 := by
  rw [givenBy, List.filter_eq_nil_iff.mpr fun f hf ↦ by simpa using h f hf]
  rfl

/-- A fill does not touch a lot with another key. -/
theorem leftOf_cons_of_ne (h : key f.lot ≠ key a) : leftOf key (f :: fs) a = leftOf key fs a := by
  rw [leftOf, leftOf, givenBy_cons, if_neg h, Int.zero_add]

theorem leftOf_eq_self (h : ∀ f ∈ fs, key f.lot ≠ key a) (ha : 1 ≤ size a)
    (hself : resize a (size a) = a) : leftOf key fs a = some a := by
  rw [leftOf, givenBy_eq_zero h, Int.sub_zero, if_neg (by omega), hself]

/-- **Serving a queue lot by lot**: what is left of the queue is what is left of its lots. -/
theorem rest_eq_filterMap (hself : ∀ a : α, resize a (size a) = a) (qty : Int) {l : List α}
    (hnd : (l.map key).Nodup) (hl : ∀ a ∈ l, 1 ≤ size a) :
    (take qty l).rest = l.filterMap (leftOf key (take qty l).fills) := by
  have hnil : ∀ {l : List α}, (∀ a ∈ l, 1 ≤ size a) → l.filterMap (leftOf key []) = l := by
    intro l hl
    rw [List.filterMap_congr fun b hb ↦ leftOf_eq_self (by simp) (hl b hb) (hself b),
      List.filterMap_some]
  induction l generalizing qty with
  | nil => rfl
  | cons a l ih =>
    rw [List.map_cons, List.nodup_cons] at hnd
    have hl' : ∀ b ∈ l, 1 ≤ size b := fun b hb ↦ hl b (List.mem_cons_of_mem _ hb)
    -- no other lot shares the key of the first
    have hne : ∀ b ∈ l, key a ≠ key b := fun b hb he ↦ hnd.1 (he ▸ List.mem_map_of_mem hb)
    rw [take]
    split
    · split
      · rename_i hs
        have hzero : givenBy key (take (qty - min qty (size a)) l).fills a = 0 :=
          givenBy_eq_zero fun f hf ↦ (hne f.lot (lot_mem f hf)).symm
        rw [List.filterMap_cons_none
          (by rw [leftOf, givenBy_cons, if_pos rfl, hzero, Int.add_zero, if_pos hs])]
        dsimp only
        rw [ih _ hnd.2 hl']
        exact List.filterMap_congr fun b hb ↦ (leftOf_cons_of_ne (hne b hb)).symm
      · rename_i hs
        have hzero : givenBy key [] a = 0 := givenBy_eq_zero (by simp)
        rw [List.filterMap_cons_some
          (by rw [leftOf, givenBy_cons, if_pos rfl, hzero, Int.add_zero, if_neg hs]),
          List.filterMap_congr fun b hb ↦ leftOf_cons_of_ne (hne b hb), hnil hl']
    · exact (hnil hl).symm

end Key

end Take

/-! ## Sweeping through queues -/

/-- The outcome of serving a list of queues. -/
structure Swept (κ : Type w) (α : Type u) where
  /-- What was given, in order, each lot with the key it was filed under. -/
  fills : List (Fill (κ × α))
  /-- The queues that are left. -/
  rest : List (κ × List α)
  /-- What is still wanted. -/
  left : Int

/-- The outcome when a queue has been served before. -/
def Swept.after (k : κ) (fills : List (Fill α)) (s : Swept κ α) : Swept κ α :=
  { s with fills := (fills.map fun f ↦ ⟨(k, f.lot), f.amount⟩) ++ s.fills }

/-- All the lots of a list of queues, each with its key. -/
def flat (ls : List (κ × List α)) : List (κ × α) := ls.flatMap fun e ↦ e.2.map fun a ↦ (e.1, a)

instance [Lot α] : Lot (κ × α) where
  size x := size x.2
  resize x q := (x.1, resize x.2 q)
  size_resize x q := Lot.size_resize x.2 q

/-- Serve the queues in order, dropping those that run out, until `qty` is used up or a key is
refused. -/
def sweep [Lot α] (cross : κ → Bool) : Int → List (κ × List α) → Swept κ α
  | qty, [] => ⟨[], [], qty⟩
  | qty, e :: ls =>
    if 0 < qty ∧ cross e.1 then
      let t := take qty e.2
      if t.rest.isEmpty then
        let s := sweep cross t.left ls
        ⟨(t.fills.map fun f ↦ ⟨(e.1, f.lot), f.amount⟩) ++ s.fills, s.rest, s.left⟩
      else ⟨t.fills.map fun f ↦ ⟨(e.1, f.lot), f.amount⟩, (e.1, t.rest) :: ls, t.left⟩
    else ⟨[], e :: ls, qty⟩

theorem flat_cons (e : κ × List α) (ls : List (κ × List α)) :
    flat (e :: ls) = (e.2.map fun a ↦ (e.1, a)) ++ flat ls := List.flatMap_cons

theorem flat_append (ls ms : List (κ × List α)) : flat (ls ++ ms) = flat ls ++ flat ms :=
  List.flatMap_append

theorem mem_flat {ls : List (κ × List α)} {x : κ × α} :
    x ∈ flat ls ↔ ∃ q, (x.1, q) ∈ ls ∧ x.2 ∈ q := by
  simp only [flat, List.mem_flatMap, List.mem_map]
  constructor
  · rintro ⟨e, he, a, ha, rfl⟩
    exact ⟨e.2, he, ha⟩
  · rintro ⟨q, hq, hx⟩
    exact ⟨(x.1, q), hq, x.2, hx, rfl⟩

section Sweep

variable [Lot α] {cross : κ → Bool}

theorem take_keyed (k : κ) (qty : Int) (q : List α) :
    take qty (q.map fun a ↦ (k, a)) =
      ⟨(take qty q).fills.map fun f ↦ ⟨(k, f.lot), f.amount⟩, (take qty q).rest.map fun a ↦ (k, a),
        (take qty q).left⟩ :=
  take_map (fun a ↦ (k, a)) (fun _ ↦ rfl) (fun _ _ ↦ rfl) qty q

theorem sweep_of_nonpos {qty : Int} (h : qty ≤ 0) (ls : List (κ × List α)) :
    sweep cross qty ls = ⟨[], ls, qty⟩ := by
  cases ls with
  | nil => rfl
  | cons e ls => rw [sweep, if_neg (by omega)]

/-- **Sweeping is serving one long queue**: the queue of all the lots up to the first refused
key. -/
theorem sweep_eq_take (cross : κ → Bool) (qty : Int) (ls : List (κ × List α)) :
    (sweep cross qty ls).fills = (take qty (flat (ls.takeWhile fun e ↦ cross e.1))).fills ∧
      (sweep cross qty ls).left = (take qty (flat (ls.takeWhile fun e ↦ cross e.1))).left ∧
      flat (sweep cross qty ls).rest =
        (take qty (flat (ls.takeWhile fun e ↦ cross e.1))).rest
          ++ flat (ls.dropWhile fun e ↦ cross e.1) := by
  induction ls generalizing qty with
  | nil => simp [sweep, take, flat]
  | cons e ls ih =>
    rw [sweep]
    split
    · rename_i hc
      rw [List.takeWhile_cons, if_pos hc.2, List.dropWhile_cons, if_pos hc.2, flat_cons,
        take_append, take_keyed]
      dsimp only
      rw [List.isEmpty_map]
      split
      · obtain ⟨hf, hl, hr⟩ := ih (take qty e.2).left
        exact ⟨by rw [hf], hl, hr⟩
      · refine ⟨rfl, rfl, ?_⟩
        rw [flat_cons, List.append_assoc, flat, flat, flat, ← List.flatMap_append,
          List.takeWhile_append_dropWhile]
    · rename_i hc
      by_cases hq : 0 < qty
      · have hk : ¬ cross e.1 = true := fun h ↦ hc ⟨hq, h⟩
        rw [List.takeWhile_cons, if_neg hk, List.dropWhile_cons, if_neg hk]
        exact ⟨rfl, rfl, rfl⟩
      · rw [take_of_nonpos (by omega)]
        refine ⟨rfl, rfl, ?_⟩
        rw [flat, flat, flat, ← List.flatMap_append, List.takeWhile_append_dropWhile]

/-- Queues only ever leave from the front. -/
theorem sweep_keys (qty : Int) (ls : List (κ × List α)) :
    (sweep cross qty ls).rest.map Prod.fst <:+ ls.map Prod.fst := by
  induction ls generalizing qty with
  | nil => exact List.suffix_rfl
  | cons e ls ih =>
    rw [sweep]
    split
    · dsimp only
      split
      · exact (ih _).trans (List.suffix_cons _ _)
      · exact List.suffix_rfl
    · exact List.suffix_rfl

/-- A sweep that wants more has met a key it may not serve, or the end of the list. -/
theorem sweep_stops {qty : Int} {ls : List (κ × List α)} (h : 0 < (sweep cross qty ls).left) :
    ∀ e ∈ (sweep cross qty ls).rest.head?, cross e.1 = false := by
  induction ls generalizing qty with
  | nil => simp [sweep]
  | cons e ls ih =>
    intro x hx
    rw [sweep] at h hx
    split at h
    · rename_i hc
      rw [if_pos hc] at hx
      dsimp only at h hx
      split at h
      · rename_i he
        rw [if_pos he] at hx
        exact ih h x hx
      · rename_i he
        have hle : (take qty e.2).left ≤ 0 := left_nonpos_of_rest fun hn ↦ he (by rw [hn]; rfl)
        dsimp only at h
        omega
    · rename_i hc
      rw [if_neg hc] at hx
      simp only [List.head?_cons, Option.mem_def, Option.some_inj] at hx
      subst hx
      exact Bool.eq_false_iff.mpr fun hk ↦ hc ⟨h, hk⟩

/-- No queue is left empty. -/
theorem sweep_ne_nil {qty : Int} {ls : List (κ × List α)} (hne : ∀ e ∈ ls, e.2 ≠ []) :
    ∀ e ∈ (sweep cross qty ls).rest, e.2 ≠ [] := by
  induction ls generalizing qty with
  | nil => simp [sweep]
  | cons e ls ih =>
    have htail : ∀ x ∈ ls, x.2 ≠ [] := fun x hx ↦ hne x (List.mem_cons_of_mem _ hx)
    intro x hx
    rw [sweep] at hx
    split at hx
    · dsimp only at hx
      split at hx
      · exact ih htail x hx
      · rename_i he
        rcases List.mem_cons.mp hx with rfl | hx
        · exact fun hn ↦ he (by dsimp only at hn; rw [hn]; rfl)
        · exact htail x hx
    · exact hne x hx

/-- Queues none of which is empty stay as they are if nothing is given. -/
theorem sweep_of_fills_nil {qty : Int} {ls : List (κ × List α)} (hne : ∀ e ∈ ls, e.2 ≠ [])
    (h : (sweep cross qty ls).fills = []) : sweep cross qty ls = ⟨[], ls, qty⟩ := by
  cases ls with
  | nil => rfl
  | cons e ls =>
    by_cases hc : 0 < qty ∧ cross e.1 = true
    · obtain ⟨a, q, hq⟩ := List.exists_cons_of_ne_nil (hne e List.mem_cons_self)
      -- the first lot would have given something
      have hfills : (take qty e.2).fills ≠ [] := by
        rw [hq, take, if_pos hc.1]
        split <;> simp
      rw [sweep, if_pos hc] at h
      dsimp only at h
      split at h
      · exact absurd (List.map_eq_nil_iff.mp (List.append_eq_nil_iff.mp h).1) hfills
      · exact absurd (List.map_eq_nil_iff.mp h) hfills
    · rw [sweep, if_neg hc]

/-- `sweep` sees nothing of a lot but its size. -/
theorem sweep_map [Lot β] (f : α → β) (hsize : ∀ a, size (f a) = size a)
    (hresize : ∀ a q, f (resize a q) = resize (f a) q) (qty : Int) (ls : List (κ × List α)) :
    sweep cross qty (ls.map fun e ↦ (e.1, e.2.map f)) =
      ⟨(sweep cross qty ls).fills.map fun x ↦ ⟨(x.lot.1, f x.lot.2), x.amount⟩,
        (sweep cross qty ls).rest.map fun e ↦ (e.1, e.2.map f), (sweep cross qty ls).left⟩ := by
  induction ls generalizing qty with
  | nil => rfl
  | cons e ls ih =>
    rw [List.map_cons, sweep, sweep]
    dsimp only
    rw [take_map f hsize hresize]
    dsimp only
    rw [List.isEmpty_map, ih]
    split
    · split
      · simp [Function.comp_def]
      · simp [Function.comp_def]
    · simp

end Sweep

end Greedy
