import Mathlib.Data.List.Flatten
import Mathlib.Data.List.Perm.Basic
import Mathlib.Data.List.TakeWhile
import MatchingEngine.Util.Allocation
import MatchingEngine.Util.SortedMap

/-!
# Queues of lots filed under sorted keys

A `SortedMap κ (List α) lt` is a priority queue with ties served in order of arrival: the first key
goes first, and under one key the first lot does.  Three operations change it — serving a quantity
from the front (`afterSweep`), adding a lot at the back of its key's queue (`pushBack`), and
removing the lots that fail a test (`prune`) — and none of them leaves an empty queue behind if
there was none before (`Full`).

What an operation does is said twice, once for the list of all lots with their keys (`lots`), where
it is a statement about lists, and once for a change of lots (the `_mapLots` lemmas), where it says
that an operation does not look at more of a lot than it should.
-/

set_option autoImplicit false

namespace LevelQueue

open Greedy

universe u v w

variable {κ : Type u} {α : Type v} {β : Type w} {lt : κ → κ → Prop}

/-- All the lots, in the order they would be served. -/
def lots (m : SortedMap κ (List α) lt) : List (κ × α) := flat m.entries

/-- No queue is empty. -/
def Full (m : SortedMap κ (List α) lt) : Prop := ∀ e ∈ m.entries, e.2 ≠ []

/-- Change every lot. -/
def mapLots (f : α → β) (m : SortedMap κ (List α) lt) : SortedMap κ (List β) lt :=
  m.map (List.map f)

/-- What serving `qty` to the keys `cross` accepts gives out. -/
def swept [Lot α] (cross : κ → Bool) (qty : Int) (m : SortedMap κ (List α) lt) : Swept κ α :=
  sweep cross qty m.entries

/-- The queues after serving `qty` to the keys `cross` accepts. -/
def afterSweep [Lot α] (cross : κ → Bool) (qty : Int) (m : SortedMap κ (List α) lt) :
    SortedMap κ (List α) lt :=
  m.withEntries (sweep cross qty m.entries).rest (sweep_keys qty m.entries).sublist

/-- The queue under a key; empty when there is none. -/
def queue [DecidableEq κ] (m : SortedMap κ (List α) lt) (k : κ) : List α := (m.find? k).getD []

/-- Add a lot at the back of the queue of its key. -/
def pushBack [DecidableEq κ] [DecidableRel lt] [IsStrictTotalOrder κ lt]
    (m : SortedMap κ (List α) lt) (k : κ) (a : α) : SortedMap κ (List α) lt :=
  m.insert k (queue m k ++ [a])

/-- Keep the lots that pass a test, and the queues that still have one. -/
def prune (keep : α → Bool) (m : SortedMap κ (List α) lt) : SortedMap κ (List α) lt :=
  m.filterMap fun _ q ↦ if (q.filter keep).isEmpty then none else some (q.filter keep)

/-! ## Lots and queues -/

theorem mem_lots {m : SortedMap κ (List α) lt} {x : κ × α} :
    x ∈ lots m ↔ ∃ q, (x.1, q) ∈ m.entries ∧ x.2 ∈ q := mem_flat

theorem lots_eq_append (cross : κ → Bool) (m : SortedMap κ (List α) lt) :
    lots m = flat (m.entries.takeWhile fun e ↦ cross e.1)
      ++ flat (m.entries.dropWhile fun e ↦ cross e.1) := by
  rw [← flat_append, List.takeWhile_append_dropWhile]
  rfl

/-- Lots come in the order of their keys. -/
theorem pairwise_lots (m : SortedMap κ (List α) lt) :
    (lots m).Pairwise fun x y ↦ x.1 = y.1 ∨ lt x.1 y.1 := by
  have hs := m.sorted
  rw [lots]
  generalize m.entries = es at hs
  induction es with
  | nil => exact List.Pairwise.nil
  | cons e es ih =>
    rw [List.map_cons, List.pairwise_cons] at hs
    rw [flat_cons, List.pairwise_append]
    refine ⟨List.pairwise_map.mpr (List.pairwise_of_forall fun _ _ ↦ .inl rfl), ih hs.2, ?_⟩
    intro x hx y hy
    obtain ⟨a, -, rfl⟩ := List.mem_map.mp hx
    obtain ⟨q, hq, -⟩ := mem_flat.mp hy
    exact .inr (hs.1 y.1 (List.mem_map_of_mem hq))

/-- The lots up to the first refused key are those with an accepted one, if crossing is monotone in
the order. -/
theorem flat_takeWhile_eq_filter (cross : κ → Bool) (m : SortedMap κ (List α) lt)
    (hmono : ∀ j k, lt j k → cross k = true → cross j = true) :
    flat (m.entries.takeWhile fun e ↦ cross e.1) = (lots m).filter fun x ↦ cross x.1 := by
  have hs := m.sorted
  rw [lots]
  generalize m.entries = es at hs
  induction es with
  | nil => rfl
  | cons e es ih =>
    rw [List.map_cons, List.pairwise_cons] at hs
    rw [List.takeWhile_cons, flat_cons, List.filter_append, ← ih hs.2]
    cases hc : cross e.1 with
    | true =>
      rw [if_pos rfl, flat_cons, List.filter_eq_self.mpr fun x hx ↦ ?_]
      obtain ⟨a, -, rfl⟩ := List.mem_map.mp hx
      exact hc
    | false =>
      have hfst : (e.2.map fun a ↦ (e.1, a)).filter (fun x ↦ cross x.1) = [] := by
        refine List.filter_eq_nil_iff.mpr fun x hx ↦ ?_
        obtain ⟨a, -, rfl⟩ := List.mem_map.mp hx
        simp [hc]
      -- the keys behind a refused one are refused
      have hnil : es.takeWhile (fun e ↦ cross e.1) = [] := by
        cases es with
        | nil => rfl
        | cons d es =>
          refine List.takeWhile_cons_of_neg fun hd ↦ ?_
          rw [hmono e.1 d.1 (hs.1 d.1 (by simp)) hd] at hc
          exact absurd hc (by simp)
      rw [if_neg (by simp), hfst, hnil]
      rfl

section Queue

variable [DecidableEq κ] {m m' : SortedMap κ (List α) lt}

theorem queue_sublist (k : κ) : ((queue m k).map fun a ↦ (k, a)).Sublist (lots m) := by
  cases hf : m.find? k with
  | none =>
    rw [queue, hf]
    exact List.nil_sublist _
  | some q =>
    obtain ⟨l, r, h⟩ := SortedMap.exists_split_of_find? hf
    rw [queue, hf, Option.getD_some, lots, h, flat_append, flat_cons]
    exact (List.sublist_append_left _ _).trans (List.sublist_append_right _ _)

variable [IsStrictTotalOrder κ lt]

theorem queue_eq_of_mem {k : κ} {q : List α} (h : (k, q) ∈ m.entries) : queue m k = q := by
  rw [queue, m.find?_eq_some_iff.mpr h, Option.getD_some]

theorem mem_queue {k : κ} {a : α} : a ∈ queue m k ↔ (k, a) ∈ lots m := by
  rw [mem_lots]
  constructor
  · intro h
    cases hf : m.find? k with
    | none => rw [queue, hf] at h; simp at h
    | some q =>
      rw [queue, hf] at h
      exact ⟨q, m.find?_eq_some_iff.mp hf, h⟩
  · rintro ⟨q, hq, ha⟩
    rw [queue_eq_of_mem hq]
    exact ha

/-- The queue under a key is what the lots have under it. -/
theorem queue_eq_filter (k : κ) :
    queue m k = ((lots m).filter fun x ↦ x.1 = k).map Prod.snd := by
  have hother : ∀ {es : List (κ × List α)}, (∀ e ∈ es, e.1 ≠ k) →
      (flat es).filter (fun x ↦ x.1 = k) = [] := by
    intro es hes
    refine List.filter_eq_nil_iff.mpr fun x hx ↦ ?_
    obtain ⟨q, hq, -⟩ := mem_flat.mp hx
    simpa using hes _ hq
  cases hf : m.find? k with
  | none =>
    have hk := m.find?_eq_none_iff.mp hf
    rw [queue, hf, lots, hother fun e he hek ↦ hk (hek ▸ List.mem_map_of_mem he)]
    rfl
  | some q =>
    obtain ⟨l, r, h⟩ := SortedMap.exists_split_of_find? hf
    obtain ⟨hl, hr⟩ := SortedMap.lt_of_split h
    have hself : (q.map fun a ↦ (k, a)).filter (fun x ↦ decide (x.1 = k)) = q.map fun a ↦ (k, a) :=
      List.filter_eq_self.mpr fun x hx ↦ by
        obtain ⟨a, -, rfl⟩ := List.mem_map.mp hx
        simp
    rw [queue, hf, lots, h, flat_append, flat_cons, List.filter_append, List.filter_append,
      hother fun e he hek ↦ irrefl_of lt k (hek ▸ hl e he),
      hother fun e he hek ↦ irrefl_of lt k (hek ▸ hr e he), hself]
    simp

/-- Queues none of which is empty are determined key by key. -/
theorem ext_queue (hm : Full m) (hm' : Full m') (h : ∀ k, queue m k = queue m' k) : m = m' := by
  have hfind : ∀ {m : SortedMap κ (List α) lt}, Full m → ∀ k, m.find? k
      = if queue m k = [] then none else some (queue m k) := by
    intro m hm k
    cases hf : m.find? k with
    | none => rw [queue, hf, Option.getD_none, if_pos rfl]
    | some q =>
      rw [queue, hf, Option.getD_some, if_neg (hm (k, q) (m.find?_eq_some_iff.mp hf))]
  refine SortedMap.ext_find? fun k ↦ ?_
  rw [hfind hm, hfind hm', h]

theorem ext_lots (hm : Full m) (hm' : Full m') (h : lots m = lots m') : m = m' :=
  ext_queue hm hm' fun k ↦ by rw [queue_eq_filter, queue_eq_filter, h]

end Queue

/-! ## Serving -/

section Sweep

variable [Lot α] {cross : κ → Bool} {qty : Int} {m : SortedMap κ (List α) lt}

theorem full_afterSweep (h : Full m) : Full (afterSweep cross qty m) := sweep_ne_nil h

/-- What an unsatisfied sweep leaves behind does not cross, if crossing is monotone in the
order. -/
theorem not_cross_of_left (hmono : ∀ j k, lt j k → cross k = true → cross j = true)
    (h : 0 < (swept cross qty m).left) :
    ∀ e ∈ (afterSweep cross qty m).entries, cross e.1 = false := by
  intro e he
  have hs := (afterSweep cross qty m).sorted
  have hstop := sweep_stops h
  change e ∈ (sweep cross qty m.entries).rest at he
  change ((sweep cross qty m.entries).rest.map Prod.fst).Pairwise lt at hs
  cases hr : (sweep cross qty m.entries).rest with
  | nil => rw [hr] at he; simp at he
  | cons d ls =>
    rw [hr] at he hs hstop
    have hd : cross d.1 = false := hstop d rfl
    rcases List.mem_cons.mp he with rfl | he
    · exact hd
    · rw [List.map_cons, List.pairwise_cons] at hs
      refine Bool.eq_false_iff.mpr fun hc ↦ ?_
      rw [hmono d.1 e.1 (hs.1 e.1 (List.mem_map_of_mem he)) hc] at hd
      exact absurd hd (by simp)

/-- The lots that gave everything are those no longer there, for anyone who does not look at
sizes. -/
theorem lots_afterSweep {γ : Type*} (key : κ × α → γ)
    (hkey : ∀ k a q, key (k, resize a q) = key (k, a)) :
    (lots m).map key = (consumed (swept cross qty m).fills).map key
      ++ (lots (afterSweep cross qty m)).map key := by
  obtain ⟨hf, -, hr⟩ := sweep_eq_take cross qty m.entries
  have htake := map_key key (fun x q ↦ hkey x.1 x.2 q) qty
    (flat (m.entries.takeWhile fun e ↦ cross e.1))
  rw [lots_eq_append cross m, List.map_append, htake, swept, hf, lots, afterSweep,
    SortedMap.entries_withEntries, hr, List.map_append, List.append_assoc]

/-- A fill is a positive part of a lot whose key was accepted. -/
theorem fill_spec (h : ∀ x ∈ lots m, 1 ≤ size x) :
    ∀ f ∈ (swept cross qty m).fills, f.lot ∈ lots m ∧ cross f.lot.1 = true ∧ 1 ≤ f.amount ∧
      f.amount ≤ size f.lot := by
  obtain ⟨hf, -, -⟩ := sweep_eq_take cross qty m.entries
  rw [lots_eq_append cross m] at h
  intro f hmem
  rw [swept, hf] at hmem
  have hlot := lot_mem f hmem
  have hcross : cross f.lot.1 = true := by
    obtain ⟨q, hq, -⟩ := mem_flat.mp hlot
    have hkey := List.mem_takeWhile_imp hq
    exact hkey
  refine ⟨?_, hcross, amount_bounds (fun x hx ↦ h x (List.mem_append_left _ hx)) f hmem⟩
  rw [lots_eq_append cross m]
  exact List.mem_append_left _ hlot

/-- **Serving moves quantity from the lots to the fills**, kind by kind. -/
theorem offered_lots_filter (cross : κ → Bool) (qty : Int) (p : κ × α → Bool)
    (hp : ∀ x q, p (resize x q) = p x) :
    offered ((lots m).filter p) = given ((swept cross qty m).fills.filter fun f ↦ p f.lot)
      + offered ((lots (afterSweep cross qty m)).filter p) := by
  obtain ⟨hf, -, hr⟩ := sweep_eq_take cross qty m.entries
  have htake := offered_filter p hp qty (flat (m.entries.takeWhile fun e ↦ cross e.1))
  have hoffer : ∀ l r : List (κ × α), offered (l ++ r) = offered l + offered r := fun l r ↦ by
    rw [offered, offered, offered, List.map_append, List.sum_append]
  have hafter : lots (afterSweep cross qty m)
      = (take qty (flat (m.entries.takeWhile fun e ↦ cross e.1))).rest
        ++ flat (m.entries.dropWhile fun e ↦ cross e.1) := hr
  rw [lots_eq_append cross m, hafter, List.filter_append, List.filter_append, hoffer, hoffer, htake,
    swept, hf]
  omega

theorem given_swept_add_left (cross : κ → Bool) (qty : Int) (m : SortedMap κ (List α) lt) :
    given (swept cross qty m).fills + (swept cross qty m).left = qty := by
  obtain ⟨hf, hl, -⟩ := sweep_eq_take cross qty m.entries
  rw [swept, hf, hl]
  exact given_add_left _ _

theorem left_swept_nonneg (hq : 0 ≤ qty) (cross : κ → Bool) (m : SortedMap κ (List α) lt) :
    0 ≤ (swept cross qty m).left := by
  obtain ⟨-, hl, -⟩ := sweep_eq_take cross qty m.entries
  rw [swept, hl]
  exact left_nonneg hq _

/-- The lots that give are the first ones. -/
theorem lots_swept_isPrefix (cross : κ → Bool) (qty : Int) (m : SortedMap κ (List α) lt) :
    (swept cross qty m).fills.map Fill.lot <+: lots m := by
  obtain ⟨hf, -, -⟩ := sweep_eq_take cross qty m.entries
  rw [swept, hf, lots_eq_append cross m]
  exact (lots_fills_isPrefix _ _).trans (List.prefix_append _ _)

theorem length_swept_le (cross : κ → Bool) (qty : Int) (m : SortedMap κ (List α) lt) :
    (swept cross qty m).fills.length ≤ (consumed (swept cross qty m).fills).length + 1 := by
  rw [swept, (sweep_eq_take cross qty m.entries).1]
  exact length_fills_le _ _

theorem mem_of_ahead {γ : Type*} {l r : List γ} {x y : γ} (hnd : (l ++ y :: r).Nodup)
    (h : [x, y].Sublist (l ++ y :: r)) : x ∈ l := by
  obtain ⟨l₁, l₂, he, h₁, h₂⟩ := List.sublist_append_iff.mp h
  cases l₁ with
  | nil =>
    rw [List.nil_append] at he
    have hy : y ∈ r := by
      rw [← he] at h₂
      cases h₂ with
      | cons _ h₂ => exact h₂.subset (by simp)
      | cons_cons _ h₂ => exact List.singleton_sublist.mp h₂
    exact absurd hy (List.nodup_cons.mp hnd.of_append_right).1
  | cons z l₁ =>
    obtain ⟨rfl, -⟩ := List.cons.inj he
    exact h₁.subset List.mem_cons_self

/-- **What stands ahead of a lot that gives has given all it had.** -/
theorem mem_consumed_of_ahead (hnd : (lots m).Nodup) {x y : κ × α} (hxy : [x, y].Sublist (lots m))
    (hy : y ∈ (swept cross qty m).fills.map Fill.lot) : x ∈ consumed (swept cross qty m).fills := by
  obtain ⟨f, hf, rfl⟩ := List.mem_map.mp hy
  obtain ⟨fs, gs, hfills⟩ := List.append_of_mem hf
  have hbefore : ∀ g ∈ fs, g.amount = size g.lot := by
    rw [swept, (sweep_eq_take cross qty m.entries).1] at hfills
    exact amount_eq_of_before hfills
  obtain ⟨behind, hlots⟩ := lots_swept_isPrefix cross qty m
  rw [hfills, List.map_append, List.map_cons, List.append_assoc, List.cons_append] at hlots
  rw [← hlots] at hnd hxy
  have hx : x ∈ fs.map Fill.lot := mem_of_ahead hnd hxy
  obtain ⟨g, hg, rfl⟩ := List.mem_map.mp hx
  rw [hfills]
  exact mem_consumed.mpr ⟨g, List.mem_append_left _ hg, hbefore g hg, rfl⟩

/-- Nothing is served if the first key is refused. -/
theorem swept_of_refused (cross : κ → Bool) (qty : Int) {m : SortedMap κ (List α) lt}
    (h : ∀ e ∈ m.begin?, cross e.1 = false) : swept cross qty m = ⟨[], m.entries, qty⟩ := by
  rw [swept]
  cases hes : m.entries with
  | nil => rfl
  | cons e es =>
    have he : cross e.1 = false := h e (by rw [SortedMap.begin?, hes]; rfl)
    rw [sweep, if_neg (by simp [he])]

/-- Nothing changes if nothing is given. -/
theorem afterSweep_of_fills_nil (hfull : Full m) (h : (swept cross qty m).fills = []) :
    afterSweep cross qty m = m ∧ (swept cross qty m).left = qty := by
  have hw := sweep_of_fills_nil hfull h
  exact ⟨SortedMap.ext (congrArg Swept.rest hw), congrArg Swept.left hw⟩

/-- If the first key is accepted, a taker that still wants something has used up a lot. -/
theorem consumed_ne_nil_of_left (hfull : Full m) {e : κ × List α} (he : m.begin? = some e)
    (hc : cross e.1 = true) (hleft : 0 < (swept cross qty m).left) :
    consumed (swept cross qty m).fills ≠ [] := by
  obtain ⟨es, hes⟩ := List.head?_eq_some_iff.mp he
  obtain ⟨hf, hl, -⟩ := sweep_eq_take cross qty m.entries
  have hrest : (take qty (flat (m.entries.takeWhile fun e ↦ cross e.1))).rest = [] := by
    by_contra hne
    have := left_nonpos_of_rest hne
    rw [swept, hl] at hleft
    omega
  have hkey := map_key (fun _ ↦ ()) (fun _ _ ↦ rfl) qty
    (flat (m.entries.takeWhile fun e ↦ cross e.1))
  rw [hrest, List.map_nil, List.append_nil] at hkey
  intro hnil
  rw [swept, hf] at hnil
  rw [hnil, List.map_nil, List.map_eq_nil_iff, hes, List.takeWhile_cons, if_pos hc, flat_cons,
    List.append_eq_nil_iff, List.map_eq_nil_iff] at hkey
  exact hfull e (by rw [hes]; exact List.mem_cons_self) hkey.1

/-- **Serving lot by lot**: what is left of the queues is what is left of their lots. -/
theorem lots_afterSweep_eq_filterMap {γ : Type*} [DecidableEq γ] {key : κ × α → γ}
    (cross : κ → Bool) (qty : Int) (hself : ∀ a : α, resize a (size a) = a)
    (hnd : ((lots m).map key).Nodup) (hpos : ∀ x ∈ lots m, 1 ≤ size x) :
    lots (afterSweep cross qty m)
      = (lots m).filterMap (leftOf key (swept cross qty m).fills) := by
  obtain ⟨hf, -, hr⟩ := sweep_eq_take cross qty m.entries
  have hself' : ∀ x : κ × α, resize x (size x) = x := fun x ↦ Prod.ext rfl (hself x.2)
  have hsplit := lots_eq_append cross m
  rw [hsplit, List.map_append] at hnd
  rw [hsplit] at hpos
  rw [hsplit, List.filterMap_append, lots, afterSweep, SortedMap.entries_withEntries, hr, swept, hf,
    rest_eq_filterMap hself' qty hnd.of_append_left
      (fun x hx ↦ hpos x (List.mem_append_left _ hx))]
  -- the lots behind the first refused key give nothing
  refine congrArg _ (Eq.symm ?_)
  rw [List.filterMap_congr fun y hy ↦ leftOf_eq_self (fun f hfill he ↦ ?_)
    (hpos y (List.mem_append_right _ hy)) (hself' y), List.filterMap_some]
  exact List.disjoint_of_nodup_append hnd (List.mem_map_of_mem (lot_mem f hfill))
    (he ▸ List.mem_map_of_mem hy)

/-- A lot that has not given all it had is the first one left. -/
theorem lots_afterSweep_of_amount_lt {f : Fill (κ × α)} (hf : f ∈ (swept cross qty m).fills)
    (hlt : f.amount < size f.lot) :
    ∃ r, lots (afterSweep cross qty m) = resize f.lot (size f.lot - f.amount) :: r := by
  obtain ⟨hfills, -, hr⟩ := sweep_eq_take cross qty m.entries
  rw [swept, hfills] at hf
  obtain ⟨r, hrest⟩ := rest_of_amount_lt hf hlt
  rw [lots, afterSweep, SortedMap.entries_withEntries, hr, hrest]
  exact ⟨_, rfl⟩

/-- A taker that still wants something has used up every lot it was served from. -/
theorem amount_eq_of_left (hpos : ∀ x ∈ lots m, 1 ≤ size x) (hleft : 0 < (swept cross qty m).left) :
    ∀ f ∈ (swept cross qty m).fills, f.amount = size f.lot := by
  intro f hf
  by_contra hne
  have hle := (fill_spec hpos f hf).2.2.2
  obtain ⟨hfills, hl, -⟩ := sweep_eq_take cross qty m.entries
  rw [swept, hfills] at hf
  obtain ⟨r, hr⟩ := rest_of_amount_lt hf (by omega)
  have hstop := left_nonpos_of_rest (by rw [hr]; simp :
    (take qty (flat (m.entries.takeWhile fun e ↦ cross e.1))).rest ≠ [])
  rw [swept, hl] at hleft
  omega

theorem size_lots_afterSweep (h : ∀ x ∈ lots m, 1 ≤ size x) :
    ∀ x ∈ lots (afterSweep cross qty m), 1 ≤ size x := by
  obtain ⟨-, -, hr⟩ := sweep_eq_take cross qty m.entries
  rw [lots_eq_append cross m] at h
  intro x hx
  rw [lots, afterSweep, SortedMap.entries_withEntries, hr] at hx
  rcases List.mem_append.mp hx with hx | hx
  · exact size_rest (fun y hy ↦ h y (List.mem_append_left _ hy)) x hx
  · exact h x (List.mem_append_right _ hx)

end Sweep

/-! ## Adding -/

section Push

variable [DecidableEq κ] [DecidableRel lt] [IsStrictTotalOrder κ lt]
  {m : SortedMap κ (List α) lt}

/-- The queues after serving the first one, which goes if nothing of it is left. -/
def serveFirst [Lot α] (m : SortedMap κ (List α) lt) (k : κ) (t : Taken α) :
    SortedMap κ (List α) lt :=
  if t.rest.isEmpty then m.erase k else m.insert k t.rest

theorem entries_serveFirst [Lot α] {e : κ × List α} {es : List (κ × List α)}
    (hes : m.entries = e :: es) (t : Taken α) :
    (serveFirst m e.1 t).entries = if t.rest.isEmpty then es else (e.1, t.rest) :: es := by
  rw [serveFirst]
  split
  · exact SortedMap.entries_erase_split (l := []) (v := e.2) hes
  · exact SortedMap.entries_insert_split (l := []) (v := e.2) hes

/-- Serving one queue after the other: the first one, and then what is left. -/
theorem swept_cons [Lot α] (cross : κ → Bool) {qty : Int} {e : κ × List α}
    {es : List (κ × List α)} (hes : m.entries = e :: es) (hq : 0 < qty)
    (hc : cross e.1 = true) :
    swept cross qty m = Swept.after e.1 (take qty e.2).fills
        (swept cross (take qty e.2).left (serveFirst m e.1 (take qty e.2))) ∧
      afterSweep cross qty m
        = afterSweep cross (take qty e.2).left (serveFirst m e.1 (take qty e.2)) := by
  have hw : swept cross qty m = Swept.after e.1 (take qty e.2).fills
      (swept cross (take qty e.2).left (serveFirst m e.1 (take qty e.2))) := by
    rw [swept, hes, sweep, if_pos ⟨hq, hc⟩, swept, entries_serveFirst hes]
    by_cases hrest : (take qty e.2).rest.isEmpty = true
    · rw [if_pos hrest, if_pos hrest]
      rfl
    · have hleft := left_nonpos_of_rest (fun h ↦ hrest (List.isEmpty_iff.mpr h))
      rw [if_neg hrest, if_neg hrest, sweep_of_nonpos hleft]
      simp [Swept.after]
  have hrest := congrArg Swept.rest hw
  refine ⟨hw, ?_⟩
  ext1
  exact hrest

theorem queue_pushBack (k x : κ) (a : α) :
    queue (pushBack m k a) x = if x = k then queue m k ++ [a] else queue m x := by
  rw [queue, pushBack, SortedMap.find?_insert]
  split <;> rfl

theorem full_pushBack (h : Full m) (k : κ) (a : α) : Full (pushBack m k a) := by
  intro e he
  rcases SortedMap.mem_insert.mp he with rfl | ⟨-, he⟩
  · simp
  · exact h e he

/-- A lot added goes after everything up to its key, and nothing else changes. -/
theorem lots_pushBack_split (k : κ) (a : α) : ∃ l r, lots m = l ++ r ∧
    lots (pushBack m k a) = l ++ (k, a) :: r ∧ ∀ x ∈ r, lt k x.1 := by
  have hlots : ∀ {es : List (κ × List α)}, (∀ e ∈ es, lt k e.1) → ∀ x ∈ flat es, lt k x.1 := by
    intro es hes x hx
    obtain ⟨q, hq, -⟩ := mem_flat.mp hx
    exact hes _ hq
  cases hf : m.find? k with
  | some q =>
    obtain ⟨l, r, h⟩ := SortedMap.exists_split_of_find? hf
    have hq : queue m k = q := by rw [queue, hf, Option.getD_some]
    refine ⟨flat l ++ q.map fun b ↦ (k, b), flat r, ?_, ?_, hlots (SortedMap.lt_of_split h).2⟩
    · rw [lots, h, flat_append, flat_cons, List.append_assoc]
    · rw [lots, pushBack, SortedMap.entries_insert_split h, hq, flat_append, flat_cons]
      simp
  | none =>
    obtain ⟨l, r, h, hl, hr⟩ := SortedMap.exists_gap_of_find? hf
    have hq : queue m k = [] := by rw [queue, hf, Option.getD_none]
    refine ⟨flat l, flat r, ?_, ?_, hlots hr⟩
    · rw [lots, h, flat_append]
    · rw [lots, pushBack, SortedMap.entries_insert_gap h hl hr, hq, flat_append, flat_cons]
      rfl

theorem lots_pushBack (k : κ) (a : α) : (lots (pushBack m k a)).Perm ((k, a) :: lots m) := by
  obtain ⟨l, r, hm, hp, -⟩ := lots_pushBack_split (m := m) k a
  rw [hm, hp]
  exact List.perm_middle

end Push

/-! ## Removing -/

section Prune

variable {m : SortedMap κ (List α) lt}

theorem lots_prune (keep : α → Bool) : lots (prune keep m) = (lots m).filter fun x ↦ keep x.2 := by
  rw [lots, lots, prune, SortedMap.filterMap, SortedMap.entries_withEntries]
  generalize m.entries = es
  induction es with
  | nil => rfl
  | cons e es ih =>
    rw [SortedMap.filterMapEntries_cons, flat_cons, List.filter_append, List.filter_map, ← ih]
    by_cases hn : (e.2.filter keep).isEmpty
    · rw [if_pos hn]
      simp only [Function.comp_def, List.isEmpty_iff.mp hn, List.map_nil, List.nil_append]
    · rw [if_neg hn]
      exact flat_cons ..

theorem full_prune (keep : α → Bool) : Full (prune keep m) := by
  intro e he
  obtain ⟨q, -, hq⟩ := SortedMap.mem_filterMap.mp he
  simp only [Option.ite_none_left_eq_some, Option.some_inj] at hq
  rw [← hq.2]
  intro hn
  exact hq.1 (by rw [hn]; rfl)

theorem prune_congr {keep keep' : α → Bool} (h : ∀ x ∈ lots m, keep x.2 = keep' x.2) :
    prune keep m = prune keep' m := by
  ext1
  refine List.filterMap_congr fun e he ↦ ?_
  have hq : e.2.filter keep = e.2.filter keep' := List.filter_congr fun a ha ↦
    h (e.1, a) (mem_lots.mpr ⟨e.2, he, ha⟩)
  dsimp only
  rw [hq]

/-- Removing nothing changes nothing. -/
theorem prune_eq_self {keep : α → Bool} (hfull : Full m)
    (hall : ∀ x ∈ lots m, keep x.2 = true) : prune keep m = m := by
  ext1
  rw [prune, SortedMap.filterMap, SortedMap.entries_withEntries]
  refine SortedMap.filterMapEntries_eq_self fun e he ↦ ?_
  have hq : e.2.filter keep = e.2 := List.filter_eq_self.mpr fun a ha ↦
    hall (e.1, a) (mem_lots.mpr ⟨e.2, he, ha⟩)
  rw [hq, if_neg (by simpa using hfull e he)]

theorem mem_keys_prune {keep : α → Bool} {k : κ} (h : k ∈ (prune keep m).keys) : k ∈ m.keys := by
  rw [SortedMap.keys, prune, SortedMap.filterMap, SortedMap.entries_withEntries] at h
  exact (SortedMap.filterMapEntries_keys _ m.entries).subset h

/-- Removing lots further back leaves the first queue as it is. -/
theorem begin?_prune {keep : α → Bool} (hfull : Full m)
    (hfirst : ∀ e, m.begin? = some e → ∀ a ∈ e.2, keep a = true) :
    (prune keep m).begin? = m.begin? := by
  rw [SortedMap.begin?, SortedMap.begin?, prune, SortedMap.filterMap, SortedMap.entries_withEntries]
  cases he : m.entries with
  | nil => rfl
  | cons e es =>
    have hbegin : m.begin? = some e := by rw [SortedMap.begin?, he, List.head?_cons]
    have hq : e.2.filter keep = e.2 := List.filter_eq_self.mpr (hfirst e hbegin)
    have hne : ¬(e.2.filter keep).isEmpty := by
      rw [hq, List.isEmpty_iff]
      exact hfull e (by rw [he]; exact List.mem_cons_self)
    rw [SortedMap.filterMapEntries_cons, if_neg hne, hq]
    rfl

variable [DecidableEq κ] [IsStrictTotalOrder κ lt]

theorem queue_prune (keep : α → Bool) (k : κ) :
    queue (prune keep m) k = (queue m k).filter keep := by
  rw [queue_eq_filter, queue_eq_filter, lots_prune, List.filter_filter, List.filter_map,
    List.filter_filter]
  refine congrArg _ (List.filter_congr fun x _ ↦ ?_)
  rw [Bool.and_comm]
  rfl

variable [DecidableRel lt]

/-- Removing lots from the queue of one key only changes that queue. -/
theorem prune_eq_of_split (keep : α → Bool) {k : κ} {q : List α} (hfull : Full m)
    (hk : m.find? k = some q) (hother : ∀ x ∈ lots m, x.1 ≠ k → keep x.2 = true) :
    prune keep m = if (q.filter keep).isEmpty then m.erase k else m.insert k (q.filter keep) := by
  obtain ⟨l, r, h⟩ := SortedMap.exists_split_of_find? hk
  obtain ⟨hlt, hgt⟩ := SortedMap.lt_of_split h
  -- away from `k` every lot stays, so every queue does
  have hstay : ∀ e ∈ m.entries, e.1 ≠ k →
      (if (e.2.filter keep).isEmpty then none else some (e.2.filter keep)) = some e.2 := by
    intro e he hne
    have hall : e.2.filter keep = e.2 := List.filter_eq_self.mpr fun a ha ↦
      hother (e.1, a) (mem_lots.mpr ⟨e.2, he, ha⟩) hne
    rw [hall, if_neg (by simpa using hfull e he)]
  have hl : SortedMap.filterMapEntries (fun _ q ↦ if (q.filter keep).isEmpty then none
      else some (q.filter keep)) l = l :=
    SortedMap.filterMapEntries_eq_self fun e he ↦ hstay e (by rw [h]; simp [he]) fun hek ↦
      irrefl_of lt k (hek ▸ hlt e he)
  have hr : SortedMap.filterMapEntries (fun _ q ↦ if (q.filter keep).isEmpty then none
      else some (q.filter keep)) r = r :=
    SortedMap.filterMapEntries_eq_self fun e he ↦ hstay e (by rw [h]; simp [he]) fun hek ↦
      irrefl_of lt k (hek ▸ hgt e he)
  ext1
  rw [prune, SortedMap.filterMap, SortedMap.entries_withEntries, h,
    SortedMap.filterMapEntries_append, SortedMap.filterMapEntries_cons, hl, hr]
  by_cases hn : (q.filter keep).isEmpty
  · rw [if_pos hn, if_pos hn, SortedMap.entries_erase_split h]
  · rw [if_neg hn, if_neg hn, SortedMap.entries_insert_split h]

/-- Removing the lot that was added last. -/
theorem prune_pushBack_self {keep : α → Bool} (hm : Full m) (hall : ∀ x ∈ lots m, keep x.2 = true)
    (k : κ) {a : α} (ha : keep a = false) : prune keep (pushBack m k a) = m := by
  have hq : ∀ x, (queue m x).filter keep = queue m x := fun x ↦
    List.filter_eq_self.mpr fun b hb ↦ hall (x, b) (mem_queue.mp hb)
  refine ext_queue (full_prune keep) hm fun x ↦ ?_
  rw [queue_prune, queue_pushBack]
  split
  · rename_i hx
    rw [List.filter_append, hq, List.filter_cons_of_neg (by simp [ha]), hx, List.filter_nil,
      List.append_nil]
  · exact hq x

end Prune

/-! ## How the operations compose -/

section Compose

variable [Lot α] {m : SortedMap κ (List α) lt} {cross : κ → Bool}
  (hmono : ∀ j k, lt j k → cross k = true → cross j = true)
include hmono

/-- **Serving is serving the lots that are accepted.** -/
theorem swept_eq_take_filter (qty : Int) :
    (swept cross qty m).fills = (take qty ((lots m).filter fun x ↦ cross x.1)).fills ∧
      (swept cross qty m).left = (take qty ((lots m).filter fun x ↦ cross x.1)).left ∧
      lots (afterSweep cross qty m) = (take qty ((lots m).filter fun x ↦ cross x.1)).rest
        ++ (lots m).filter fun x ↦ !cross x.1 := by
  obtain ⟨hf, hl, hr⟩ := sweep_eq_take cross qty m.entries
  have hsplit := lots_eq_append cross m
  rw [flat_takeWhile_eq_filter cross m hmono] at hf hl hr hsplit
  refine ⟨hf, hl, hr.trans (congrArg _ ?_)⟩
  -- behind the accepted lots there is none that is accepted
  have hnone : (flat (m.entries.dropWhile fun e ↦ cross e.1)).filter (fun x ↦ cross x.1) = [] := by
    have h := congrArg (List.filter fun x ↦ cross x.1) hsplit
    rw [List.filter_append, List.filter_filter] at h
    simpa using h
  have hall : ∀ x ∈ flat (m.entries.dropWhile fun e ↦ cross e.1), (!cross x.1) = true :=
    fun x hx ↦ by
    simpa using List.filter_eq_nil_iff.mp hnone x hx
  rw [hsplit, List.filter_append, List.filter_eq_self.mpr hall, List.filter_filter]
  simp

variable [DecidableEq κ] [IsStrictTotalOrder κ lt]

/-- **Serving twice** leaves what serving the sum leaves. -/
theorem afterSweep_add (hm : Full m) (hresize : ∀ (a : α) x y, resize (resize a x) y = resize a y)
    {q₁ q₂ : Int} (h₁ : 0 ≤ q₁) (h₂ : 0 ≤ q₂) :
    afterSweep cross (q₁ + q₂) m = afterSweep cross q₂ (afterSweep cross q₁ m) := by
  refine ext_lots (full_afterSweep hm) (full_afterSweep (full_afterSweep hm)) ?_
  obtain ⟨-, -, hr⟩ := swept_eq_take_filter (m := m) hmono (q₁ + q₂)
  obtain ⟨-, -, hr₁⟩ := swept_eq_take_filter (m := m) hmono q₁
  obtain ⟨-, -, hr₂⟩ := swept_eq_take_filter (m := afterSweep cross q₁ m) hmono q₂
  have hacc : ∀ x ∈ (take q₁ ((lots m).filter fun x ↦ cross x.1)).rest, cross x.1 = true :=
    forall_rest (p := fun x : κ × α ↦ cross x.1 = true) (fun _ _ h ↦ h) fun x hx ↦
      (List.mem_filter.mp hx).2
  have hcross : (lots (afterSweep cross q₁ m)).filter (fun x ↦ cross x.1)
      = (take q₁ ((lots m).filter fun x ↦ cross x.1)).rest := by
    rw [hr₁, List.filter_append, List.filter_eq_self.mpr hacc, List.filter_filter]
    simp
  have hrefuse : (lots (afterSweep cross q₁ m)).filter (fun x ↦ !cross x.1)
      = (lots m).filter fun x ↦ !cross x.1 := by
    rw [hr₁, List.filter_append, List.filter_eq_nil_iff.mpr fun x hx ↦ by simp [hacc x hx],
      List.filter_filter]
    simp
  rw [hr, hr₂, hcross, hrefuse, rest_take_add (fun x p q ↦ Prod.ext rfl (hresize x.2 p q)) h₁ h₂]

/-- Two takers are given what one would be, kind by kind. -/
theorem given_swept_add (hm : Full m) (hresize : ∀ (a : α) x y, resize (resize a x) y = resize a y)
    {q₁ q₂ : Int} (h₁ : 0 ≤ q₁) (h₂ : 0 ≤ q₂) (p : κ × α → Bool)
    (hp : ∀ x q, p (resize x q) = p x) :
    given ((swept cross (q₁ + q₂) m).fills.filter fun f ↦ p f.lot)
      = given ((swept cross q₁ m).fills.filter fun f ↦ p f.lot)
        + given ((swept cross q₂ (afterSweep cross q₁ m)).fills.filter fun f ↦ p f.lot) := by
  have h := offered_lots_filter (m := m) cross (q₁ + q₂) p hp
  have h' := offered_lots_filter (m := m) cross q₁ p hp
  have h'' := offered_lots_filter (m := afterSweep cross q₁ m) cross q₂ p hp
  rw [afterSweep_add hmono hm hresize h₁ h₂] at h
  omega

theorem left_swept_add (hm : Full m) (hresize : ∀ (a : α) x y, resize (resize a x) y = resize a y)
    {q₁ q₂ : Int} (h₁ : 0 ≤ q₁) (h₂ : 0 ≤ q₂) :
    (swept cross (q₁ + q₂) m).left
      = (swept cross q₁ m).left + (swept cross q₂ (afterSweep cross q₁ m)).left := by
  have h := given_swept_add hmono hm hresize h₁ h₂ (fun _ ↦ true) fun _ _ ↦ rfl
  simp only [List.filter_true] at h
  have h₀ := given_swept_add_left cross (q₁ + q₂) m
  have h₁ := given_swept_add_left cross q₁ m
  have h₂ := given_swept_add_left cross q₂ (afterSweep cross q₁ m)
  omega

/-- **Serving and removing commute**, if what is removed gives nothing. -/
theorem swept_prune (keep : α → Bool) (hkeep : ∀ a q, keep (resize a q) = keep a)
    {qty : Int} (h : ∀ f ∈ (swept cross qty m).fills, keep f.lot.2 = true) :
    (swept cross qty (prune keep m)).fills = (swept cross qty m).fills ∧
      (swept cross qty (prune keep m)).left = (swept cross qty m).left ∧
      afterSweep cross qty (prune keep m) = prune keep (afterSweep cross qty m) := by
  obtain ⟨hf, hl, hr⟩ := swept_eq_take_filter (m := m) hmono qty
  obtain ⟨hf', hl', hr'⟩ := swept_eq_take_filter (m := prune keep m) hmono qty
  have hcomm : ∀ p : κ × α → Bool, ((lots m).filter fun x ↦ keep x.2).filter p
      = ((lots m).filter p).filter fun x ↦ keep x.2 := fun p ↦ by
    rw [List.filter_filter, List.filter_filter]
    exact List.filter_congr fun x _ ↦ Bool.and_comm _ _
  have htake := take_filter (fun x : κ × α ↦ keep x.2) (fun x q ↦ hkeep x.2 q)
    (hf ▸ h)
  rw [lots_prune, hcomm, htake] at hf' hl' hr'
  refine ⟨hf'.trans hf.symm, hl'.trans hl.symm, ?_⟩
  refine ext_lots (full_afterSweep (full_prune keep)) (full_prune keep) ?_
  rw [hr', hcomm, lots_prune, hr, List.filter_append]

end Compose

/-! ## Changing the lots -/

section MapLots

variable {m : SortedMap κ (List α) lt} (f : α → β)

theorem lots_mapLots : lots (mapLots f m) = (lots m).map fun x ↦ (x.1, f x.2) := by
  simp [lots, mapLots, flat, List.map_flatMap, List.flatMap_map, Function.comp_def]

theorem prune_mapLots (keep : β → Bool) :
    prune keep (mapLots f m) = mapLots f (prune (fun a ↦ keep (f a)) m) := by
  ext1
  simp only [prune, mapLots, SortedMap.filterMap, SortedMap.entries_withEntries,
    SortedMap.filterMapEntries, SortedMap.entries_map, List.filterMap_map, List.map_filterMap]
  refine List.filterMap_congr fun e _ ↦ ?_
  simp only [Function.comp_def, List.filter_map, List.isEmpty_map]
  split <;> rfl

theorem queue_mapLots [DecidableEq κ] (k : κ) : queue (mapLots f m) k = (queue m k).map f := by
  rw [queue, mapLots, SortedMap.find?_map, queue]
  cases m.find? k <;> rfl

theorem pushBack_mapLots [DecidableEq κ] [DecidableRel lt] [IsStrictTotalOrder κ lt] (k : κ)
    (a : α) :
    pushBack (mapLots f m) k (f a) = mapLots f (pushBack m k a) := by
  rw [pushBack, pushBack, queue_mapLots, mapLots, mapLots, ← SortedMap.insert_map]
  simp

variable [Lot α] [Lot β] (cross : κ → Bool) (qty : Int)

theorem swept_mapLots (hsize : ∀ a, size (f a) = size a)
    (hresize : ∀ a q, f (resize a q) = resize (f a) q) :
    swept cross qty (mapLots f m) =
      ⟨(swept cross qty m).fills.map fun x ↦ ⟨(x.lot.1, f x.lot.2), x.amount⟩,
        (swept cross qty m).rest.map fun e ↦ (e.1, e.2.map f), (swept cross qty m).left⟩ :=
  sweep_map f hsize hresize qty m.entries

theorem afterSweep_mapLots (hsize : ∀ a, size (f a) = size a)
    (hresize : ∀ a q, f (resize a q) = resize (f a) q) :
    afterSweep cross qty (mapLots f m) = mapLots f (afterSweep cross qty m) := by
  ext1
  exact congrArg Swept.rest (swept_mapLots f cross qty hsize hresize)

end MapLots

end LevelQueue
