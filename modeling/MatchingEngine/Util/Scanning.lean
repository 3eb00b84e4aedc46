import Mathlib.Algebra.Order.Ring.Int
import Mathlib.Data.List.DropRight
import MatchingEngine.Util.Numerals

/-!
# Text in a fixed format

`scan` is `sscanf`: it takes a text apart by a format, and returns what it has read up to the first
place where the two do not agree.  A format is a list of directives.  Those that read integers skip
white space and take a sign and as many digits as there are; C leaves undefined what happens if the
type does not have the number, and here the result is then `none`.

`print` writes a text by a format.  What was printed is read back (`scan_print`), if it can be told
where each number ends (`separated`).

`lines` is what a loop over `getline` reads.
-/

set_option autoImplicit false

namespace Scanning

open Decimal

/-- The bytes of a text in ASCII. -/
def bytes (text : List Char) : List UInt8 := text.map Char.toUInt8

/-! ## Integers -/

/-- A type of integers. -/
structure IntType where
  signed : Bool
  bits : Nat
  deriving DecidableEq

namespace IntType

/-- The least number of a type. -/
def min (t : IntType) : Int := if t.signed then -2 ^ (t.bits - 1) else 0

/-- The first number above those of a type. -/
def bound (t : IntType) : Int := if t.signed then 2 ^ (t.bits - 1) else 2 ^ t.bits

/-- Does the type have this number? -/
def Holds (t : IntType) (n : Int) : Prop := t.min ≤ n ∧ n < t.bound

instance (t : IntType) (n : Int) : Decidable (t.Holds n) := inferInstanceAs (Decidable (_ ∧ _))

/-- What is stored for a number in a text.  An unsigned type takes a minus modulo its size. -/
def convert (t : IntType) (n : Int) : Option Int :=
  if t.Holds n then some n
  else if ¬t.signed ∧ n.natAbs < 2 ^ t.bits then some (n % 2 ^ t.bits)
  else none

end IntType

/-- An integer in decimal. -/
def renderInt (n : Int) : List UInt8 := if n < 0 then 45 :: render n.natAbs else render n.natAbs

theorem length_renderInt_le {n : Int} {k : Nat} (hk : 0 < k) (h : n.natAbs < 10 ^ k) :
    (renderInt n).length ≤ k + 1 := by
  have hlen := (length_render_le_iff hk).mpr h
  rw [renderInt]
  split
  · rw [List.length_cons]
    omega
  · omega

/-- The integer a text starts with, and what follows it. -/
def readInt (text : List UInt8) : Option (Int × List UInt8) :=
  let (minus, text) := readSign (text.dropWhile isSpace)
  let digits := text.takeWhile isDigit
  if digits = [] then none
  else some (if minus then -value digits else value digits, text.dropWhile isDigit)

/-- No number goes on here. -/
def Ends (text : List UInt8) : Prop := ∀ c, text.head? = some c → isDigit c = false

theorem takeWhile_eq_nil_of_ends {text : List UInt8} (h : Ends text) :
    text.takeWhile isDigit = [] ∧ text.dropWhile isDigit = text := by
  cases text with
  | nil => exact ⟨rfl, rfl⟩
  | cons c cs =>
    have hc := h c rfl
    rw [List.takeWhile_cons, List.dropWhile_cons, hc]
    exact ⟨rfl, rfl⟩

theorem span_render {rest : List UInt8} (h : Ends rest) (n : Nat) :
    (render n ++ rest).takeWhile isDigit = render n ∧
      (render n ++ rest).dropWhile isDigit = rest := by
  obtain ⟨htake, hdrop⟩ := takeWhile_eq_nil_of_ends h
  have hdigits : ∀ c ∈ render n, isDigit c = true := isDigit_of_mem_render
  rw [List.takeWhile_append_of_pos hdigits, List.dropWhile_append_of_pos hdigits, htake, hdrop]
  exact ⟨List.append_nil _, rfl⟩

/-- A digit is no white space and no sign. -/
theorem of_isDigit {c : UInt8} (h : isDigit c = true) : isSpace c = false ∧ c ≠ 45 ∧ c ≠ 43 := by
  have hc := toNat_of_isDigit h
  refine ⟨?_, ?_, ?_⟩
  · rw [isSpace, Bool.or_eq_false_iff, Bool.and_eq_false_iff]
    simp only [decide_eq_false_iff_not, UInt8.le_iff_toNat_le, ← UInt8.toNat_inj,
      UInt8.reduceToNat]
    omega
  · rintro rfl
    simp at hc
  · rintro rfl
    simp at hc

/-- **An integer is read back.** -/
theorem readInt_renderInt (n : Int) {rest : List UInt8} (h : Ends rest) :
    readInt (renderInt n ++ rest) = some (n, rest) := by
  obtain ⟨htake, hdrop⟩ := span_render h n.natAbs
  obtain ⟨c, cs, hcs⟩ := List.exists_cons_of_ne_nil (render_ne_nil n.natAbs)
  obtain ⟨hspace, hminus, hplus⟩ :=
    of_isDigit (isDigit_of_mem_render c (hcs ▸ List.mem_cons_self))
  have hsign : readSign ((renderInt n ++ rest).dropWhile isSpace)
      = (decide (n < 0), render n.natAbs ++ rest) := by
    rw [renderInt]
    split
    · rename_i hneg
      rw [decide_eq_true hneg]
      rfl
    · rename_i hneg
      rw [hcs, List.cons_append, List.dropWhile_cons, hspace, decide_eq_false hneg]
      simp [readSign, hminus, hplus]
  rw [readInt, hsign]
  simp only [htake, hdrop, value_render, if_neg (render_ne_nil n.natAbs), decide_eq_true_eq,
    Option.some_inj, Prod.mk.injEq, and_true]
  split <;> omega

/-! ## Formats -/

/-- A part of a format. -/
inductive Directive where
  /-- A character other than white space, which has to be there. -/
  | byte (c : UInt8)
  /-- Any amount of white space. -/
  | space
  /-- An integer, as in `%u` or `%lld`. -/
  | int (t : IntType)
  /-- Any one character, `%c`. -/
  | char
  deriving DecidableEq

/-- What a directive reads. -/
inductive Value where
  | int (n : Int)
  | char (c : UInt8)
  deriving DecidableEq

/-- The directives for a text without conversions. -/
def literal (text : List Char) : List Directive :=
  text.map fun c ↦ if c = ' ' then .space else .byte c.toUInt8

/-- `sscanf`: the values stored.  Its result is their number, or negative if there are none. -/
def scan : List Directive → List UInt8 → Option (List Value)
  | [], _ => some []
  | .byte _ :: _, [] => some []
  | .byte c :: ds, c' :: text => if c' = c then scan ds text else some []
  | .space :: ds, text => scan ds (text.dropWhile isSpace)
  | .int t :: ds, text =>
    match readInt text with
    | none => some []
    | some (n, text) => do
      let n ← t.convert n
      let vs ← scan ds text
      return .int n :: vs
  | .char :: _, [] => some []
  | .char :: ds, c :: text => do
    let vs ← scan ds text
    return .char c :: vs

/-- Write values by a format. -/
def print : List Directive → List Value → List UInt8
  | .byte c :: ds, vs => c :: print ds vs
  | .space :: ds, vs => 32 :: print ds vs
  | .int _ :: ds, .int n :: vs => renderInt n ++ print ds vs
  | .char :: ds, .char c :: vs => c :: print ds vs
  | _, _ => []

/-- Values for a format. -/
def Fits : List Directive → List Value → Prop
  | [], vs => vs = []
  | .byte _ :: ds, vs => Fits ds vs
  | .space :: ds, vs => Fits ds vs
  | .int t :: ds, .int n :: vs => t.Holds n ∧ Fits ds vs
  | .char :: ds, .char _ :: vs => Fits ds vs
  | _, _ => False

/-- Can what is printed by this format be told from a number before it? -/
def endsNumber : List Directive → Bool
  | [] => true
  | .byte c :: _ => !isDigit c
  | .space :: _ => true
  | _ => false

/-- Can it be told from white space before it? -/
def endsSpace : List Directive → Bool
  | [] => true
  | .byte c :: _ => !isSpace c
  | .int _ :: _ => true
  | _ => false

/-- A format in which it can be told where a number and where white space ends. -/
def separated : List Directive → Bool
  | [] => true
  | .int _ :: ds => endsNumber ds && separated ds
  | .space :: ds => endsSpace ds && separated ds
  | _ :: ds => separated ds

/-- Does a directive store a value? -/
def Directive.stores : Directive → Bool
  | .int _ => true
  | .char => true
  | _ => false

/-- How many values a format stores. -/
def conversions (ds : List Directive) : Nat := ds.countP Directive.stores

theorem IntType.holds_of_convert {t : IntType} {n m : Int} (h : t.convert n = some m) :
    t.Holds m := by
  rw [convert] at h
  split at h
  · rename_i hn
    rwa [← Option.some.inj h]
  · split at h
    · rename_i hn
      have hpos : (0 : Int) < 2 ^ t.bits := by positivity
      rw [← Option.some.inj h]
      simp only [Holds, IntType.min, bound, hn.1, Bool.false_eq_true, if_false]
      exact ⟨Int.emod_nonneg _ hpos.ne', Int.emod_lt_of_pos _ hpos⟩
    · simp at h

theorem fits_nil {ds : List Directive} (h : conversions ds = 0) : Fits ds [] := by
  induction ds with
  | nil => rfl
  | cons d ds ih =>
    rw [conversions, List.countP_cons] at h
    cases d with
    | byte c => exact ih (by rw [conversions]; omega)
    | space => exact ih (by rw [conversions]; omega)
    | int t => simp [Directive.stores] at h
    | char => simp [Directive.stores] at h

/-- **What is scanned to the end is of the types of the format.** -/
theorem fits_of_scan {ds : List Directive} {text : List UInt8} {vs : List Value}
    (h : scan ds text = some vs) (hlen : vs.length = conversions ds) : Fits ds vs := by
  induction ds generalizing text vs with
  | nil => exact (Option.some.inj h).symm
  | cons d ds ih =>
    rw [conversions, List.countP_cons] at hlen
    cases d with
    | byte c =>
      have hstop : vs = [] → Fits (.byte c :: ds) vs := fun he ↦ by
        subst he
        exact fits_nil (by simpa [conversions, Directive.stores] using hlen.symm)
      cases text with
      | nil => exact hstop (Option.some.inj h).symm
      | cons c' text =>
        rw [scan] at h
        split at h
        · exact ih h (by simpa [conversions, Directive.stores] using hlen)
        · exact hstop (Option.some.inj h).symm
    | space => exact ih (by rwa [scan] at h) (by simpa [conversions, Directive.stores] using hlen)
    | int t =>
      rw [scan] at h
      split at h
      · rw [← Option.some.inj h] at hlen
        simp [Directive.stores] at hlen
      · simp only [Option.bind_eq_bind, Option.bind_eq_some_iff] at h
        obtain ⟨m, hm, vs', hvs, he⟩ := h
        rw [← Option.some.inj he] at hlen ⊢
        exact ⟨IntType.holds_of_convert hm,
          ih hvs (by simpa [conversions, Directive.stores] using hlen)⟩
    | char =>
      cases text with
      | nil =>
        rw [scan] at h
        rw [← Option.some.inj h] at hlen
        simp [Directive.stores] at hlen
      | cons c text =>
        rw [scan] at h
        simp only [Option.bind_eq_bind, Option.bind_eq_some_iff] at h
        obtain ⟨vs', hvs, he⟩ := h
        rw [← Option.some.inj he] at hlen ⊢
        exact ih hvs (by simpa [conversions, Directive.stores] using hlen)

section Print

variable {ds : List Directive} {vs : List Value} {rest : List UInt8}

theorem ends_print (h : endsNumber ds = true) (hrest : Ends rest) : Ends (print ds vs ++ rest) := by
  cases ds with
  | nil => simpa [print] using hrest
  | cons d ds =>
    intro c hc
    cases d with
    | byte c' =>
      obtain rfl : c' = c := by simpa [print] using hc
      simpa [endsNumber] using h
    | space =>
      obtain rfl : 32 = c := by simpa [print] using hc
      rfl
    | int t => simp [endsNumber] at h
    | char => simp [endsNumber] at h

/-- White space in front of what is told from it makes no difference. -/
theorem scan_dropWhile (h : endsSpace ds = true) :
    scan ds ((print ds vs ++ rest).dropWhile isSpace) = scan ds (print ds vs ++ rest) := by
  cases ds with
  | nil => rfl
  | cons d ds =>
    cases d with
    | byte c =>
      have hc : isSpace c = false := by simpa [endsSpace] using h
      rw [print, List.cons_append, List.dropWhile_cons, hc]
      rfl
    | int t => rw [scan, scan, readInt, readInt, List.dropWhile_idempotent]
    | space => simp [endsSpace] at h
    | char => simp [endsSpace] at h

/-- **What was printed is read back.** -/
theorem scan_print (hsep : separated ds = true) (hfit : Fits ds vs) (hrest : Ends rest) :
    scan ds (print ds vs ++ rest) = some vs := by
  induction ds generalizing vs with
  | nil => exact congrArg some (Eq.symm hfit)
  | cons d ds ih =>
    cases d with
    | byte c =>
      rw [print, List.cons_append, scan, if_pos rfl]
      exact ih hsep hfit
    | space =>
      rw [separated, Bool.and_eq_true] at hsep
      have hspace : isSpace 32 = true := rfl
      rw [print, List.cons_append, scan, List.dropWhile_cons, if_pos hspace, scan_dropWhile hsep.1]
      exact ih hsep.2 hfit
    | int t =>
      rw [separated, Bool.and_eq_true] at hsep
      obtain _ | ⟨n | _, vs⟩ := vs
      · exact hfit.elim
      · rw [print, List.append_assoc, scan, readInt_renderInt _ (ends_print hsep.1 hrest)]
        simp [IntType.convert, hfit.1, ih hsep.2 hfit.2]
      · exact hfit.elim
    | char =>
      obtain _ | ⟨_ | c, vs⟩ := vs
      · exact hfit.elim
      · exact hfit.elim
      · rw [print, List.cons_append, scan, ih hsep hfit]
        rfl

/-- A character that is in no number, not in the format and not among the values. -/
theorem not_mem_print {c : UInt8} (hdigit : isDigit c = false) (hminus : c ≠ 45) (hspace : c ≠ 32)
    (hds : .byte c ∉ ds) (hvs : .char c ∉ vs) : c ∉ print ds vs := by
  have hrender : ∀ n : Nat, c ∉ render n := by
    intro n hc
    simp [isDigit_of_mem_render c hc] at hdigit
  have hint : ∀ n : Int, c ∉ renderInt n := by
    intro n
    rw [renderInt]
    split
    · exact List.not_mem_cons_of_ne_of_not_mem hminus (hrender _)
    · exact hrender _
  induction ds generalizing vs with
  | nil => simp [print]
  | cons d ds ih =>
    obtain ⟨hd, hrest⟩ := List.ne_and_not_mem_of_not_mem_cons hds
    cases d with
    | byte c' => exact List.not_mem_cons_of_ne_of_not_mem (fun h ↦ hd (by rw [h])) (ih hrest hvs)
    | space => exact List.not_mem_cons_of_ne_of_not_mem hspace (ih hrest hvs)
    | int t =>
      obtain _ | ⟨n | _, vs⟩ := vs
      · simp [print]
      · rw [print, List.mem_append, not_or]
        exact ⟨hint n, ih hrest (List.ne_and_not_mem_of_not_mem_cons hvs).2⟩
      · simp [print]
    | char =>
      obtain _ | ⟨_ | c', vs⟩ := vs
      · simp [print]
      · simp [print]
      · obtain ⟨hv, hvs⟩ := List.ne_and_not_mem_of_not_mem_cons hvs
        exact List.not_mem_cons_of_ne_of_not_mem (fun h ↦ hv (by rw [h])) (ih hrest hvs)

end Print

/-! ## Lines -/

/-- The lines of a text.  The last one need not end with a newline. -/
def lines : List UInt8 → List (List UInt8)
  | [] => []
  | c :: text =>
    if c = 10 then [] :: lines text
    else match lines text with
      | [] => [[c]]
      | l :: ls => (c :: l) :: ls

theorem lines_append {l : List UInt8} (h : 10 ∉ l) (text : List UInt8) :
    lines (l ++ 10 :: text) = l :: lines text := by
  induction l with
  | nil => rfl
  | cons c l ih =>
    obtain ⟨hc, hl⟩ := List.ne_and_not_mem_of_not_mem_cons h
    rw [List.cons_append, lines, if_neg (Ne.symm hc), ih hl]

end Scanning
