import Mathlib.Algebra.BigOperators.Group.Finset.Piecewise
import Mathlib.Algebra.Order.Group.Multiset
import MatchingEngine.Util.Interleaving

/-!
# Where a program has got to

`Goes p t q` says that `p`, after the requests and answers in `t`, has `q` left to do.  It is what a
`Run` is before it has ended.

A program that keeps to a protocol leaves a trace on which accounts can be kept.  Some requests put
something on the list of what is owed, others settle what is first on it.  If every single request
keeps the balance then so does the whole trace (`Conforms.balance`): what has been put on the list
is what has been settled and then what is still owed, in this order.

When several programs write to one log the order between them is lost, and what is left of the
balance is a permutation (`perm_flatMap_ofTag`).
-/

set_option autoImplicit false

namespace Program

variable {E : Type} {R : E → Type} {α β γ : Type}

/-! ## Part of a run -/

/-- After `t`, the program has `q` left to do. -/
inductive Goes (p : Program E R α) : Trace E R → Program E R α → Prop
  | refl : Goes p [] p
  | snoc {t : Trace E R} {e : E} {k : R e → Program E R α} (h : Goes p t (call e k)) (r : R e) :
    Goes p (t ++ [⟨e, r⟩]) (k r)

section Goes

variable {p q : Program E R α} {t u : Trace E R}

theorem Goes.bind (h : Goes p t q) (f : α → Program E R β) : Goes (p >>= f) t (q >>= f) := by
  induction h with
  | refl => exact .refl
  | snoc _ r ih => exact ih.snoc r

/-- What is left may then run. -/
theorem Goes.runs_append {a : α} (h : Goes p t q) (hq : Runs q u a) : Runs p (t ++ u) a := by
  induction h generalizing u with
  | refl => exact hq
  | snoc _ r ih =>
    rw [List.append_assoc]
    exact ih ⟨r, u, rfl, hq⟩

theorem Goes.runs {a : α} (h : Goes p t (ret a)) : Runs p t a := by
  have hrun := h.runs_append (u := []) (a := a) ⟨rfl, rfl⟩
  rwa [List.append_nil] at hrun

/-- What has been asked for is of the kind the program asks for. -/
theorem Only.of_goes {ok : E → Prop} (hp : p.Only ok) (h : Goes p t q) :
    (∀ x ∈ t, ok x.1) ∧ q.Only ok := by
  induction h with
  | refl => exact ⟨by simp, hp⟩
  | snoc _ r ih =>
    obtain ⟨ht, hcall⟩ := ih
    exact ⟨List.forall_mem_append.mpr ⟨ht, List.forall_mem_singleton.mpr hcall.1⟩, hcall.2 r⟩

end Goes

/-! ## Accounts -/

section Conforms

variable {L : Type} {allowed : L → E → Prop} {next : L → (e : E) → R e → L} {final : L → α → Prop}
  {l : L} {p q : Program E R α} {t : Trace E R}

/-- The local state after a trace. -/
def after (next : L → (e : E) → R e → L) (l : L) (t : Trace E R) : L :=
  t.foldl (fun l x ↦ next l x.1 x.2) l

theorem after_concat (next : L → (e : E) → R e → L) (l : L) (t : Trace E R) (e : E) (r : R e) :
    after next l (t ++ [⟨e, r⟩]) = next (after next l t) e r := by
  rw [after, List.foldl_append]
  rfl

/-- What is left to do keeps to the protocol. -/
theorem Conforms.after (h : Conforms allowed next final l p) (hgoes : Goes p t q) :
    Conforms allowed next final (after next l t) q := by
  induction hgoes with
  | refl => exact h
  | snoc _ r ih =>
    rw [after_concat]
    exact ih.2 r

/-- **What is put on the list is settled in the same order.** -/
theorem Conforms.balance {made settled : (e : E) × R e → List β} {owed : L → List β}
    (hstep : ∀ l e r, allowed l e → owed l ++ made ⟨e, r⟩ = settled ⟨e, r⟩ ++ owed (next l e r))
    (h : Conforms allowed next final l p) (hgoes : Goes p t q) :
    owed l ++ t.flatMap made = t.flatMap settled ++ owed (Program.after next l t) := by
  induction hgoes with
  | refl => exact List.append_nil _
  | @snoc t e k hgoes r ih =>
    have hallowed : allowed (Program.after next l t) e := (h.after hgoes).1
    rw [after_concat, List.flatMap_append, List.flatMap_append, List.flatMap_singleton,
      List.flatMap_singleton, ← List.append_assoc, ih, List.append_assoc, hstep _ _ _ hallowed,
      List.append_assoc]

end Conforms

/-! ## Logs -/

/-- What one of the writers has written. -/
def ofTag (log : List (Nat × γ)) (i : Nat) : List γ :=
  log.filterMap fun x ↦ if x.1 = i then some x.2 else none

section OfTag

variable {log : List (Nat × γ)} {x : Nat × γ} {i : Nat}

theorem ofTag_cons (x : Nat × γ) (log : List (Nat × γ)) (i : Nat) :
    ofTag (x :: log) i = if x.1 = i then x.2 :: ofTag log i else ofTag log i := by
  rw [ofTag, List.filterMap_cons]
  split <;> simp_all [ofTag]

theorem mem_ofTag {y : γ} : y ∈ ofTag log i ↔ (i, y) ∈ log := by
  rw [ofTag, List.mem_filterMap]
  constructor
  · rintro ⟨⟨j, y'⟩, hmem, h⟩
    split at h
    · rename_i hj
      obtain rfl := Option.some.inj h
      obtain rfl : j = i := hj
      exact hmem
    · cases h
  · exact fun h ↦ ⟨(i, y), h, if_pos rfl⟩

theorem ofTag_concat_self (log : List (Nat × γ)) (i : Nat) (y : γ) :
    ofTag (log ++ [(i, y)]) i = ofTag log i ++ [y] := by
  rw [ofTag, List.filterMap_append]
  simp [ofTag]

theorem ofTag_concat_of_ne {i j : Nat} (h : j ≠ i) (log : List (Nat × γ)) (y : γ) :
    ofTag (log ++ [(j, y)]) i = ofTag log i := by
  rw [ofTag, List.filterMap_append]
  simp [ofTag, h]

theorem ofTag_eq_nil (h : ∀ x ∈ log, x.1 ≠ i) : ofTag log i = [] :=
  List.filterMap_eq_nil_iff.mpr fun x hx ↦ if_neg (h x hx)

/-- **Writer by writer** it is the same, in another order. -/
theorem perm_flatMap_ofTag {n : Nat} (f : γ → List β) (h : ∀ x ∈ log, x.1 < n) :
    (log.flatMap fun x ↦ f x.2).Perm ((List.range n).flatMap fun i ↦ (ofTag log i).flatMap f) := by
  have hsum : ∀ g : Nat → List β,
      ((List.range n).flatMap g : Multiset β) = ∑ i ∈ Finset.range n, (g i : Multiset β) := by
    intro g
    rw [Finset.sum, Finset.range_val, Multiset.range, Multiset.map_coe, Multiset.sum_coe]
    induction List.range n with
    | nil => rfl
    | cons i is ih =>
      rw [List.flatMap_cons, List.map_cons, List.sum_cons, ← ih, Multiset.coe_add]
  rw [← Multiset.coe_eq_coe, hsum]
  induction log with
  | nil => simp [ofTag]
  | cons x log ih =>
    obtain ⟨hx, hlog⟩ := List.forall_mem_cons.mp h
    have hone : ∀ i, ((ofTag (x :: log) i).flatMap f : Multiset β)
        = (if x.1 = i then (f x.2 : Multiset β) else 0) +
          ((ofTag log i).flatMap f : Multiset β) := by
      intro i
      rw [ofTag_cons]
      split
      · rw [List.flatMap_cons, Multiset.coe_add]
      · rw [zero_add]
    rw [List.flatMap_cons, ← Multiset.coe_add, ih hlog, Finset.sum_congr rfl fun i _ ↦ hone i,
      Finset.sum_add_distrib, Finset.sum_ite_eq, if_pos (Finset.mem_range.mpr hx)]

end OfTag

end Program
