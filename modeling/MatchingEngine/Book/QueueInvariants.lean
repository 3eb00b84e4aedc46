import MatchingEngine.Book.Queues

/-!
# What every call keeps true of the queues

Three invariants of `QueueBook`, each stated for a pair of sides — the taker's own and the opposite
one — so that a buy and a sell are the same argument.

* `Consistent`: every slot is either free or occupied by exactly one resting order, no queue is
  empty, every resting order still wants something, and what `index_` points at is a resting order
  of that id.  It holds along every run.
* `Uncrossed`: no level crosses a level of the other side.  It holds along every run too.
* `Numbered k`: resting orders have ids from 1 to `k`, ascending in each queue, and `index_` knows
  all of them.  Placing the order `k + 1` keeps it, so it holds as long as the id counter has not
  wrapped; after that two resting orders can share an id and `index_` can lose one.
-/

set_option autoImplicit false

namespace MatchingEngine

open Greedy LevelQueue

/-- All the resting orders, with the prices of their levels. -/
def resting {c c' : KeyCompare} (own : Queues c) (opp : Queues c') : List (Int × Resting) :=
  lots own ++ lots opp

structure Consistent {c c' : KeyCompare} (N : Nat) (own : Queues c) (opp : Queues c')
    (free : List Ptr) (index : Index) : Prop where
  partition : (free ++ (slots own ++ slots opp)).Perm (List.range N)
  fullOwn : Full own
  fullOpp : Full opp
  pos : ∀ x ∈ resting own opp, 1 ≤ x.2.qty
  sound : ∀ id p, index.find? id = some p → ∃ x ∈ resting own opp, x.2.slot = p ∧ x.2.id = id

/-- No level of the opposite side crosses a limit at which an order rests. -/
def Uncrossed {c c' : KeyCompare} (own : Queues c) (opp : Queues c') : Prop :=
  ∀ e ∈ own.entries, ∀ e' ∈ opp.entries, c'.cross e'.1 e.1 = false

structure Numbered {c c' : KeyCompare} (k : Nat) (own : Queues c) (opp : Queues c')
    (index : Index) : Prop where
  pos : ∀ x ∈ resting own opp, 1 ≤ x.2.id
  le : ∀ x ∈ resting own opp, x.2.id ≤ k
  ascOwn : (lots own).Pairwise fun x y ↦ x.1 = y.1 → x.2.id < y.2.id
  ascOpp : (lots opp).Pairwise fun x y ↦ x.1 = y.1 → x.2.id < y.2.id
  complete : ∀ x ∈ resting own opp, index.find? x.2.id = some x.2.slot

section Pair

variable {c c' : KeyCompare} {N k : Nat} {own : Queues c} {opp : Queues c'} {free : List Ptr}
  {index : Index}

theorem mem_resting {x : Int × Resting} : x ∈ resting own opp ↔ x ∈ lots own ∨ x ∈ lots opp :=
  List.mem_append

theorem mem_resting_symm {x : Int × Resting} : x ∈ resting own opp ↔ x ∈ resting opp own := by
  rw [mem_resting, mem_resting, or_comm]

/-! ## The two sides are alike -/

theorem Consistent.symm (h : Consistent N own opp free index) :
    Consistent N opp own free index where
  partition := (List.perm_append_comm.append_left free).trans h.partition
  fullOwn := h.fullOpp
  fullOpp := h.fullOwn
  pos x hx := h.pos x (mem_resting_symm.mp hx)
  sound id p hp := by
    obtain ⟨x, hx, h'⟩ := h.sound id p hp
    exact ⟨x, mem_resting_symm.mp hx, h'⟩

theorem Numbered.symm (h : Numbered k own opp index) : Numbered k opp own index where
  pos x hx := h.pos x (mem_resting_symm.mp hx)
  le x hx := h.le x (mem_resting_symm.mp hx)
  ascOwn := h.ascOpp
  ascOpp := h.ascOwn
  complete x hx := h.complete x (mem_resting_symm.mp hx)

theorem Uncrossed.symm {own : Queues .greater} {opp : Queues .less} :
    Uncrossed own opp ↔ Uncrossed opp own := by
  simp only [Uncrossed, KeyCompare.cross, decide_eq_false_iff_not]
  exact ⟨fun h e he e' he' ↦ h e' he' e he, fun h e he e' he' ↦ h e' he' e he⟩

/-! ## Slots -/

theorem Consistent.nodup (h : Consistent N own opp free index) :
    (free ++ (slots own ++ slots opp)).Nodup := h.partition.nodup_iff.mpr List.nodup_range

theorem slots_append_eq : slots own ++ slots opp = (resting own opp).map (·.2.slot) :=
  List.map_append.symm

/-- A slot holds one order. -/
theorem Consistent.eq_of_slot (h : Consistent N own opp free index) {x y : Int × Resting}
    (hx : x ∈ resting own opp) (hy : y ∈ resting own opp) (hxy : x.2.slot = y.2.slot) : x = y := by
  have hnd := h.nodup.of_append_right
  rw [slots_append_eq] at hnd
  exact List.inj_on_of_nodup_map hnd hx hy hxy

/-- The id of an order the index knows is the id of the order in its slot. -/
theorem Consistent.id_eq (h : Consistent N own opp free index) {id : Nat} {x : Int × Resting}
    (hx : x ∈ resting own opp) (hid : index.find? id = some x.2.slot) : x.2.id = id := by
  obtain ⟨y, hy, hys, hyid⟩ := h.sound id _ hid
  rw [h.eq_of_slot hx hy hys.symm, hyid]

/-- An id is the id of one order, while ids are unique. -/
theorem Numbered.eq_of_id (hn : Numbered k own opp index) (h : Consistent N own opp free index)
    {x y : Int × Resting} (hx : x ∈ resting own opp) (hy : y ∈ resting own opp)
    (hxy : x.2.id = y.2.id) : x = y := by
  refine h.eq_of_slot hx hy (Option.some_inj.mp ?_)
  rw [← hn.complete x hx, ← hn.complete y hy, hxy]

theorem Numbered.nodup_ids (hn : Numbered k own opp index) (h : Consistent N own opp free index) :
    ((resting own opp).map (·.2.id)).Nodup := by
  have hnd := h.nodup.of_append_right
  rw [slots_append_eq] at hnd
  exact hnd.of_map.map_on fun x hx y hy hxy ↦ hn.eq_of_id h hx hy hxy

/-- The index has one entry for each resting order. -/
theorem Numbered.size_index (hn : Numbered k own opp index) (h : Consistent N own opp free index) :
    index.size = (resting own opp).length := by
  have hperm : (index.entries.map Prod.fst).Perm ((resting own opp).map (·.2.id)) := by
    refine (List.perm_ext_iff_of_nodup index.nodup_keys (hn.nodup_ids h)).mpr fun id ↦ ?_
    constructor
    · intro hid
      obtain ⟨e, he, rfl⟩ := List.mem_map.mp hid
      obtain ⟨x, hx, -, hxid⟩ := h.sound e.1 e.2 (index.find?_eq_some_iff.mpr he)
      exact List.mem_map.mpr ⟨x, hx, hxid⟩
    · intro hid
      obtain ⟨x, hx, rfl⟩ := List.mem_map.mp hid
      exact List.mem_map.mpr ⟨_, index.find?_eq_some_iff.mp (hn.complete x hx), rfl⟩
  have hlen := hperm.length_eq
  rwa [List.length_map, List.length_map] at hlen

/-! ## Matching -/

theorem find?_forget (index : Index) (gone : List Resting) (id : Nat) :
    (QueueBook.forget index gone).find? id
      = if id ∈ gone.map Resting.id then none else index.find? id := by
  induction gone generalizing index with
  | nil => simp [QueueBook.forget]
  | cons r gone ih =>
    rw [QueueBook.forget, List.foldl_cons, ← QueueBook.forget, ih, SortedMap.find?_erase]
    by_cases h : id = r.id <;> simp [h]

/-- What a fill does not change of a resting order. -/
def tag (x : Int × Resting) : Int × Ptr × Nat := (x.1, x.2.slot, x.2.id)

/-- The orders of a side before a sweep: those filled completely and those that stay. -/
theorem lots_swept (cross : Int → Bool) (qty : Int) (opp : Queues c') :
    (lots opp).map tag = (consumed (swept cross qty opp).fills).map tag
      ++ (lots (afterSweep cross qty opp)).map tag :=
  lots_afterSweep _ fun _ _ _ ↦ rfl

/-- An order that stays was there before, perhaps with a larger quantity. -/
theorem exists_of_mem_afterSweep {cross : Int → Bool} {qty : Int} {x : Int × Resting}
    (hx : x ∈ lots (afterSweep cross qty opp)) : ∃ y ∈ lots opp, tag y = tag x := by
  refine List.mem_map.mp ?_
  rw [lots_swept cross qty]
  exact List.mem_append_right _ (List.mem_map_of_mem hx)

theorem exists_of_mem_consumed {cross : Int → Bool} {qty : Int} {x : Int × Resting}
    (hx : x ∈ consumed (swept cross qty opp).fills) : ∃ y ∈ lots opp, tag y = tag x := by
  refine List.mem_map.mp ?_
  rw [lots_swept cross qty]
  exact List.mem_append_left _ (List.mem_map_of_mem hx)

theorem slots_swept (cross : Int → Bool) (qty : Int) (opp : Queues c') :
    slots opp = (consumed (swept cross qty opp).fills).map (·.2.slot)
      ++ slots (afterSweep cross qty opp) :=
  lots_afterSweep _ fun _ _ _ ↦ rfl

/-- An order filled completely leaves its slot. -/
theorem Consistent.slot_ne (h : Consistent N own opp free index) {cross : Int → Bool} {qty : Int}
    {x y : Int × Resting} (hx : x ∈ resting own (afterSweep cross qty opp))
    (hy : y ∈ consumed (swept cross qty opp).fills) : x.2.slot ≠ y.2.slot := by
  intro he
  have hnd := h.nodup.of_append_right
  rw [slots_swept cross qty opp] at hnd
  have hy' := List.mem_map_of_mem (f := fun z : Int × Resting ↦ z.2.slot) hy
  rcases mem_resting.mp hx with hx | hx
  · refine List.disjoint_of_nodup_append hnd (List.mem_map.mpr ⟨x, hx, he⟩) ?_
    exact List.mem_append_left _ hy'
  · exact List.disjoint_of_nodup_append hnd.of_append_right hy' (List.mem_map.mpr ⟨x, hx, he⟩)

variable (takerId : Nat) (limit : Int) {t : QueueBook.Settling}

theorem Consistent.matchQueues (h : Consistent N own opp t.free t.index) :
    Consistent N own (QueueBook.matchQueues takerId limit opp t).1
      (QueueBook.matchQueues takerId limit opp t).2.free
      (QueueBook.matchQueues takerId limit opp t).2.index where
  partition := by
    refine List.Perm.trans ?_ h.partition
    rw [slots_swept (c'.cross · limit) t.qty opp]
    simp only [QueueBook.matchQueues, QueueBook.settle, List.append_assoc]
    refine ((List.reverse_perm _).append_right _).trans ?_
    rw [← List.append_assoc, ← List.append_assoc, ← List.append_assoc, ← List.append_assoc]
    refine List.Perm.append_right _ ?_
    rw [List.append_assoc]
    exact List.perm_append_comm
  fullOwn := h.fullOwn
  fullOpp := full_afterSweep h.fullOpp
  pos x hx := by
    rcases mem_resting.mp hx with hx | hx
    · exact h.pos x (mem_resting.mpr (.inl hx))
    · exact size_lots_afterSweep (fun y hy ↦ h.pos y (mem_resting.mpr (.inr hy))) x hx
  sound id p hp := by
    simp only [QueueBook.matchQueues, QueueBook.settle, find?_forget,
      Option.ite_none_left_eq_some] at hp
    obtain ⟨x, hx, rfl, rfl⟩ := h.sound id p hp.2
    rcases mem_resting.mp hx with hx | hx
    · exact ⟨x, mem_resting.mpr (.inl hx), rfl, rfl⟩
    · have hmem := List.mem_map_of_mem (f := tag) hx
      rw [lots_swept (c'.cross · limit) t.qty] at hmem
      rcases List.mem_append.mp hmem with hmem | hmem
      · obtain ⟨y, hy, he⟩ := List.mem_map.mp hmem
        simp only [tag, Prod.mk.injEq] at he
        refine absurd ?_ hp.1
        rw [List.map_map, ← he.2.2]
        exact List.mem_map.mpr ⟨y, hy, rfl⟩
      · obtain ⟨y, hy, he⟩ := List.mem_map.mp hmem
        simp only [tag, Prod.mk.injEq] at he
        exact ⟨y, mem_resting.mpr (.inr hy), he.2.1, he.2.2⟩

/-- An order resting after a match was resting before. -/
theorem exists_of_mem_matchQueues {x : Int × Resting}
    (hx : x ∈ resting own (QueueBook.matchQueues takerId limit opp t).1) :
    ∃ y ∈ resting own opp, tag y = tag x := by
  rcases mem_resting.mp hx with hx | hx
  · exact ⟨x, mem_resting.mpr (.inl hx), rfl⟩
  · obtain ⟨y, hy, he⟩ := exists_of_mem_afterSweep hx
    exact ⟨y, mem_resting.mpr (.inr hy), he⟩

theorem Numbered.matchQueues (hn : Numbered k own opp t.index)
    (h : Consistent N own opp t.free t.index) :
    Numbered k own (QueueBook.matchQueues takerId limit opp t).1
      (QueueBook.matchQueues takerId limit opp t).2.index where
  pos x hx := by
    obtain ⟨y, hy, he⟩ := exists_of_mem_matchQueues takerId limit hx
    simp only [tag, Prod.mk.injEq] at he
    exact he.2.2 ▸ hn.pos y hy
  le x hx := by
    obtain ⟨y, hy, he⟩ := exists_of_mem_matchQueues takerId limit hx
    simp only [tag, Prod.mk.injEq] at he
    exact he.2.2 ▸ hn.le y hy
  ascOwn := hn.ascOwn
  ascOpp := by
    have hasc : ((lots opp).map tag).Pairwise fun a b ↦ a.1 = b.1 → a.2.2 < b.2.2 :=
      List.pairwise_map.mpr hn.ascOpp
    rw [lots_swept (c'.cross · limit) t.qty, List.pairwise_append] at hasc
    exact List.pairwise_map.mp hasc.2.1
  complete x hx := by
    obtain ⟨y, hy, he⟩ := exists_of_mem_matchQueues takerId limit hx
    simp only [tag, Prod.mk.injEq] at he
    have hold := hn.complete y hy
    rw [he.2.1, he.2.2] at hold
    simp only [QueueBook.matchQueues, QueueBook.settle, find?_forget]
    rw [if_neg, hold]
    -- an order filled completely under this id would sit in the same slot
    intro hmem
    simp only [List.map_map, List.mem_map, Function.comp_def] at hmem
    obtain ⟨z, hz, hzid⟩ := hmem
    obtain ⟨w, hw, hwz⟩ := exists_of_mem_consumed hz
    simp only [tag, Prod.mk.injEq] at hwz
    have hwi := hn.complete w (mem_resting.mpr (.inr hw))
    rw [hwz.2.2, hzid, hold, hwz.2.1, Option.some_inj] at hwi
    exact h.slot_ne hx hz hwi

/-- Crossing is monotone in the order of a side. -/
theorem KeyCompare.cross_of_before {c : KeyCompare} {j k limit : Int} (h : c.before j k)
    (hc : c.cross k limit = true) : c.cross j limit = true := by
  cases c <;> simp only [KeyCompare.before, KeyCompare.cross, decide_eq_true_eq] at * <;> omega

theorem Uncrossed.matchQueues (h : Uncrossed own opp) :
    Uncrossed own (QueueBook.matchQueues takerId limit opp t).1 := by
  intro e he e' he'
  have hkey : e'.1 ∈ opp.entries.map Prod.fst :=
    (sweep_keys t.qty opp.entries).subset (List.mem_map_of_mem he')
  obtain ⟨d, hd, hde⟩ := List.mem_map.mp hkey
  exact hde ▸ h e he d hd

/-- A taker that still wants something has no level left to cross. -/
theorem not_cross_of_matchQueues
    (h : 0 < (QueueBook.matchQueues takerId limit opp t).2.qty) :
    ∀ e ∈ (QueueBook.matchQueues takerId limit opp t).1.entries, c'.cross e.1 limit = false :=
  not_cross_of_left (fun _ _ hlt hc ↦ KeyCompare.cross_of_before hlt hc) h

/-! ## Resting -/

variable (price : Int) (ts : Nat)

/-- A remainder rests if there is one and a slot is free. -/
theorem restQueue_cases (own : Queues c) (t : QueueBook.Settling) (id : Nat) (price : Int)
    (ts : Nat) :
    (¬ (0 < t.qty ∧ t.free ≠ []) ∧ QueueBook.restQueue own t id price ts = (own, t, ts)) ∨
      ∃ p free, 0 < t.qty ∧ t.free = p :: free ∧
        QueueBook.restQueue own t id price ts = (pushBack own price ⟨p, id, t.qty, ts⟩,
          { t with free, index := t.index.insert id p }, (ts + 1) % 2 ^ 64) := by
  rw [QueueBook.restQueue]
  by_cases hq : 0 < t.qty
  · rw [if_pos hq]
    cases hf : t.free with
    | nil => exact .inl ⟨by simp, rfl⟩
    | cons p free => exact .inr ⟨p, free, hq, rfl, rfl⟩
  · rw [if_neg hq]
    exact .inl ⟨fun h ↦ hq h.1, rfl⟩

theorem trades_placeOn (own : Queues c) (opp : Queues c') (t : QueueBook.Settling) (id : Nat)
    (price : Int) (ts : Nat) :
    (QueueBook.placeOn own opp t id price ts).2.2.1.trades
      = t.trades ++ QueueBook.tradesOf id (swept (c'.cross · price) t.qty opp).fills := by
  simp only [QueueBook.placeOn]
  rcases restQueue_cases own (QueueBook.matchQueues id price opp t).2 id price ts with
    ⟨-, he⟩ | ⟨p, free, -, -, he⟩
  · rw [he]
    rfl
  · rw [he]
    rfl

theorem mem_resting_pushBack {r : Resting} {x : Int × Resting} :
    x ∈ resting (pushBack own price r) opp ↔ x = (price, r) ∨ x ∈ resting own opp := by
  rw [mem_resting, (lots_pushBack price r).mem_iff, List.mem_cons, mem_resting, or_assoc]

theorem Consistent.restQueue (id : Nat) (h : Consistent N own opp t.free t.index) :
    Consistent N (QueueBook.restQueue own t id price ts).1 opp
      (QueueBook.restQueue own t id price ts).2.1.free
      (QueueBook.restQueue own t id price ts).2.1.index := by
  rcases restQueue_cases own t id price ts with ⟨-, he⟩ | ⟨p, free, hq, hf, he⟩
  · rw [he]
    exact h
  · rw [he]
    constructor
    case partition =>
      refine List.Perm.trans ?_ h.partition
      rw [hf, List.cons_append]
      refine List.Perm.trans (List.Perm.append_left _ ?_) List.perm_middle
      exact ((lots_pushBack price _).map _).append_right _
    case fullOwn => exact full_pushBack h.fullOwn _ _
    case fullOpp => exact h.fullOpp
    case pos =>
      intro x hx
      rcases (mem_resting_pushBack price).mp hx with rfl | hx
      · exact hq
      · exact h.pos x hx
    case sound =>
      intro j q hjq
      rw [SortedMap.find?_insert] at hjq
      split at hjq
      · rename_i hj
        obtain rfl := Option.some_inj.mp hjq
        exact ⟨_, (mem_resting_pushBack price).mpr (.inl rfl), rfl, hj.symm⟩
      · obtain ⟨x, hx, hxp⟩ := h.sound j q hjq
        exact ⟨x, (mem_resting_pushBack price).mpr (.inr hx), hxp⟩

theorem Numbered.restQueue (hn : Numbered k own opp t.index) :
    Numbered (k + 1) (QueueBook.restQueue own t (k + 1) price ts).1 opp
      (QueueBook.restQueue own t (k + 1) price ts).2.1.index := by
  have hle : ∀ x ∈ resting own opp, x.2.id < k + 1 := fun x hx ↦ Nat.lt_succ_of_le (hn.le x hx)
  rcases restQueue_cases own t (k + 1) price ts with ⟨-, he⟩ | ⟨p, free, hq, hf, he⟩
  · rw [he]
    exact { hn with le := fun x hx ↦ (hle x hx).le }
  · rw [he]
    constructor
    case pos =>
      intro x hx
      rcases (mem_resting_pushBack price).mp hx with rfl | hx
      · exact Nat.succ_pos k
      · exact hn.pos x hx
    case le =>
      intro x hx
      rcases (mem_resting_pushBack price).mp hx with rfl | hx
      · exact Nat.le_refl _
      · exact (hle x hx).le
    case ascOwn =>
      obtain ⟨l, r, hown, hpush, hr⟩ := lots_pushBack_split (m := own) price
        (⟨p, k + 1, t.qty, ts⟩ : Resting)
      have hasc := hn.ascOwn
      rw [hown, List.pairwise_append] at hasc
      rw [hpush, List.pairwise_append, List.pairwise_cons]
      refine ⟨hasc.1, ⟨fun y hy hpy ↦ ?_, hasc.2.1⟩, fun x hx y hy ↦ ?_⟩
      · have hpy : price = y.1 := hpy
        exact absurd (hpy ▸ hr y hy) (irrefl_of c.before price)
      · rcases List.mem_cons.mp hy with rfl | hy
        · exact fun _ ↦ hle x (mem_resting.mpr (.inl (hown ▸ List.mem_append_left _ hx)))
        · exact hasc.2.2 x hx y hy
    case ascOpp => exact hn.ascOpp
    case complete =>
      intro x hx
      rw [SortedMap.find?_insert]
      rcases (mem_resting_pushBack price).mp hx with rfl | hx
      · rw [if_pos rfl]
      · rw [if_neg (hle x hx).ne]
        exact hn.complete x hx

theorem Uncrossed.restQueue (id : Nat) (h : Uncrossed own opp)
    (hstop : 0 < t.qty → ∀ e ∈ opp.entries, c'.cross e.1 price = false) :
    Uncrossed (QueueBook.restQueue own t id price ts).1 opp := by
  rcases restQueue_cases own t id price ts with ⟨-, he⟩ | ⟨p, free, hq, hf, he⟩
  · rw [he]
    exact h
  · rw [he]
    intro e hmem e' he'
    rcases SortedMap.mem_insert.mp hmem with rfl | ⟨-, hmem⟩
    · exact hstop hq e' he'
    · exact h e hmem e' he'

/-! ## Removing -/

theorem resting_prune (keep : Resting → Bool) :
    resting (prune keep own) (prune keep opp) = (resting own opp).filter fun x ↦ keep x.2 := by
  rw [resting, resting, lots_prune, lots_prune, List.filter_append]

theorem mem_resting_prune {keep : Resting → Bool} {x : Int × Resting} :
    x ∈ resting (prune keep own) (prune keep opp) ↔ x ∈ resting own opp ∧ keep x.2 = true := by
  rw [resting_prune, List.mem_filter]

variable {id : Nat} {n : Ptr}

theorem Consistent.slots_remove (h : Consistent N own opp free index) (n : Ptr) :
    slots (prune (fun r ↦ r.slot != n) own) ++ slots (prune (fun r ↦ r.slot != n) opp)
      = (slots own ++ slots opp).erase n := by
  rw [h.nodup.of_append_right.erase_eq_filter, slots_append_eq, slots_append_eq, resting_prune,
    List.filter_map]
  rfl

theorem Consistent.remove (h : Consistent N own opp free index) (hid : index.find? id = some n) :
    Consistent N (prune (fun r ↦ r.slot != n) own) (prune (fun r ↦ r.slot != n) opp) (n :: free)
      (index.erase id) where
  partition := by
    obtain ⟨x, hx, hxn, -⟩ := h.sound id n hid
    have hmem : n ∈ slots own ++ slots opp := by
      rw [slots_append_eq]
      exact List.mem_map.mpr ⟨x, hx, hxn⟩
    rw [h.slots_remove]
    exact (List.perm_middle.symm.trans
      ((List.perm_cons_erase hmem).symm.append_left free)).trans h.partition
  fullOwn := full_prune _
  fullOpp := full_prune _
  pos x hx := h.pos x (mem_resting_prune.mp hx).1
  sound j p hp := by
    rw [SortedMap.find?_erase, Option.ite_none_left_eq_some] at hp
    obtain ⟨x, hx, rfl, rfl⟩ := h.sound j p hp.2
    refine ⟨x, mem_resting_prune.mpr ⟨hx, bne_iff_ne.mpr fun hxn ↦ hp.1 ?_⟩, rfl, rfl⟩
    exact h.id_eq hx (hxn ▸ hid)

theorem Numbered.remove (hn : Numbered k own opp index) (hid : index.find? id = some n) :
    Numbered k (prune (fun r ↦ r.slot != n) own) (prune (fun r ↦ r.slot != n) opp)
      (index.erase id) where
  pos x hx := hn.pos x (mem_resting_prune.mp hx).1
  le x hx := hn.le x (mem_resting_prune.mp hx).1
  ascOwn := by
    rw [lots_prune]
    exact hn.ascOwn.filter _
  ascOpp := by
    rw [lots_prune]
    exact hn.ascOpp.filter _
  complete x hx := by
    obtain ⟨hx, hxn⟩ := mem_resting_prune.mp hx
    have hxi := hn.complete x hx
    rw [SortedMap.find?_erase, if_neg, hxi]
    rintro rfl
    rw [hxi, Option.some_inj] at hid
    exact bne_iff_ne.mp hxn hid

theorem Uncrossed.prune (h : Uncrossed own opp) (keep : Resting → Bool) :
    Uncrossed (LevelQueue.prune keep own) (LevelQueue.prune keep opp) := by
  intro e he e' he'
  obtain ⟨q, hq, -⟩ := SortedMap.mem_filterMap.mp he
  obtain ⟨q', hq', -⟩ := SortedMap.mem_filterMap.mp he'
  exact h (e.1, q) hq (e'.1, q') hq'

/-! ## Whole placements -/

theorem Consistent.placeOn (h : Consistent N own opp t.free t.index) (id : Nat) :
    Consistent N (QueueBook.placeOn own opp t id price ts).1
      (QueueBook.placeOn own opp t id price ts).2.1
      (QueueBook.placeOn own opp t id price ts).2.2.1.free
      (QueueBook.placeOn own opp t id price ts).2.2.1.index :=
  (h.matchQueues id price).restQueue price ts id

theorem Numbered.placeOn (hn : Numbered k own opp t.index)
    (h : Consistent N own opp t.free t.index) :
    Numbered (k + 1) (QueueBook.placeOn own opp t (k + 1) price ts).1
      (QueueBook.placeOn own opp t (k + 1) price ts).2.1
      (QueueBook.placeOn own opp t (k + 1) price ts).2.2.1.index :=
  (hn.matchQueues (k + 1) price h).restQueue price ts

theorem Uncrossed.placeOn (h : Uncrossed own opp) (id : Nat) :
    Uncrossed (QueueBook.placeOn own opp t id price ts).1
      (QueueBook.placeOn own opp t id price ts).2.1 :=
  (h.matchQueues id price).restQueue price ts id (not_cross_of_matchQueues id price)

end Pair

/-! ## Runs -/

theorem placements_cons (call : Call) (calls : List Call) :
    placements (call :: calls) = placements [call] + placements calls := by
  rw [placements, placements, placements, List.countP_cons, List.countP_singleton, Nat.add_comm]

namespace QueueBook

/-- What holds of a book of capacity `N` along every run. -/
structure Valid (N : Nat) (m : QueueBook) : Prop where
  consistent : Consistent N m.bids m.asks m.free m.index
  uncrossed : Uncrossed m.bids m.asks

/-- What holds after `k` placements, as long as the counter of ids has not wrapped. -/
structure Counted (k : Nat) (m : QueueBook) : Prop where
  nextId : m.nextId = (k + 1) % 2 ^ 64
  numbered : Numbered k m.bids m.asks m.index

theorem valid_new (N : Nat) : Valid N (new N) where
  consistent :=
    { partition := by simp [new, slots, lots, flat]
      fullOwn := by simp [Full, new]
      fullOpp := by simp [Full, new]
      pos := by simp [resting, lots, flat, new]
      sound := by simp [new] }
  uncrossed := by simp [Uncrossed, new]

theorem counted_new (N : Nat) : Counted 0 (new N) where
  nextId := rfl
  numbered := by constructor <;> simp [new, resting, lots, flat]

variable {N k : Nat} {m : QueueBook}

theorem Valid.placeLimit (h : Valid N m) (side : Side) (price qty : Int) (trades : List Trade) :
    Valid N (m.placeLimit side price qty trades).1 := by
  cases side with
  | Buy => exact ⟨h.consistent.placeOn _ _ _, h.uncrossed.placeOn _ _ _⟩
  | Sell =>
    exact ⟨(h.consistent.symm.placeOn _ _ _).symm,
      Uncrossed.symm.mpr ((Uncrossed.symm.mp h.uncrossed).placeOn _ _ _)⟩

theorem Valid.cancel (h : Valid N m) (id : Nat) : Valid N (m.cancel id).1 := by
  rw [QueueBook.cancel]
  split
  · exact h
  · rename_i hid
    exact ⟨h.consistent.remove hid, h.uncrossed.prune _⟩

theorem Valid.perform (h : Valid N m) (call : Call) : Valid N (m.perform call).1 := by
  cases call with
  | placeLimit side price qty => exact h.placeLimit side price qty []
  | cancel id => exact h.cancel id

theorem Valid.run (h : Valid N m) (calls : List Call) : Valid N (m.run calls).1 := by
  induction calls generalizing m with
  | nil => exact h
  | cons call calls ih => exact ih (h.perform call)

theorem Counted.nextId_eq (hk : Counted k m) (hlt : k + 1 < 2 ^ 64) : m.nextId = k + 1 := by
  rw [hk.nextId, Nat.mod_eq_of_lt hlt]

theorem Counted.placeLimit (hk : Counted k m) (h : Valid N m) (hlt : k + 1 < 2 ^ 64) (side : Side)
    (price qty : Int) (trades : List Trade) :
    Counted (k + 1) (m.placeLimit side price qty trades).1 := by
  have hid := hk.nextId_eq hlt
  cases side with
  | Buy =>
    refine ⟨congrArg (fun i ↦ (i + 1) % 2 ^ 64) hid, ?_⟩
    simp only [QueueBook.placeLimit, hid]
    exact hk.numbered.placeOn (t := ⟨m.index, m.free, qty, trades⟩) price m.nextTs h.consistent
  | Sell =>
    refine ⟨congrArg (fun i ↦ (i + 1) % 2 ^ 64) hid, ?_⟩
    simp only [QueueBook.placeLimit, hid]
    exact (hk.numbered.symm.placeOn (t := ⟨m.index, m.free, qty, trades⟩) price m.nextTs
      h.consistent.symm).symm

theorem Counted.cancel (hk : Counted k m) (id : Nat) : Counted k (m.cancel id).1 := by
  rw [QueueBook.cancel]
  split
  · exact hk
  · rename_i hid
    exact ⟨hk.nextId, hk.numbered.remove hid⟩

theorem Counted.perform (hk : Counted k m) (h : Valid N m) (call : Call)
    (hlt : k + placements [call] < 2 ^ 64) :
    Counted (k + placements [call]) (m.perform call).1 := by
  cases call with
  | placeLimit side price qty => exact hk.placeLimit h hlt side price qty []
  | cancel id => exact hk.cancel id

theorem Counted.run (hk : Counted k m) (h : Valid N m) (calls : List Call)
    (hlt : k + placements calls < 2 ^ 64) : Counted (k + placements calls) (m.run calls).1 := by
  induction calls generalizing m k with
  | nil => exact hk
  | cons call calls ih =>
    rw [placements_cons] at hlt ⊢
    rw [← Nat.add_assoc] at hlt ⊢
    exact ih (hk.perform h call (by omega)) (h.perform call) hlt

theorem counted_run_new (N : Nat) (calls : List Call) (hlt : placements calls < 2 ^ 64) :
    Counted (placements calls) ((new N).run calls).1 := by
  have h := (counted_new N).run (valid_new N) calls (by omega)
  rwa [Nat.zero_add] at h

end QueueBook

end MatchingEngine
