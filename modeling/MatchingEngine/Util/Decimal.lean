import Mathlib.Data.List.Basic
import Mathlib.Data.UInt

/-!
# Decimal numbers as bytes

A number is written as its decimal digits, most significant first (`render`), perhaps padded with
zeros to a fixed width (`pad`), and read back by `value`.  Reading is total and does not look
whether its input consists of digits: that is `isDigit`, which a parser tests before.  The two are
inverse (`value_render`, `value_pad`).

The digits themselves are those of `Nat.toDigits`.
-/

set_option autoImplicit false

namespace Decimal

/-- Is this byte one of `0` to `9`? -/
def isDigit (c : UInt8) : Bool := 48 ≤ c && c ≤ 57

/-- The decimal digits of a number. -/
def render (n : Nat) : List UInt8 := (Nat.toDigits 10 n).map Char.toUInt8

/-- The digits, with zeros in front up to the given width. -/
def pad (width n : Nat) : List UInt8 :=
  List.replicate (width - (render n).length) 48 ++ render n

/-- The text of `n / 10 ^ decimals`, with that many digits after the point. -/
def fixed (decimals n : Nat) : List UInt8 :=
  render (n / 10 ^ decimals) ++ if decimals = 0 then [] else 46 :: pad decimals (n % 10 ^ decimals)

/-- The number some digits stand for. -/
def value (l : List UInt8) : Nat := Nat.ofDigitChars 10 (l.map Char.ofUInt8) 0

/-- There are ten digits. -/
theorem exists_of_isDigit {c : Char} (h : c.isDigit = true) :
    ∃ k : Fin 10, c = Char.ofNat (48 + k) := by
  have hb : 48 ≤ c.toNat ∧ c.toNat ≤ 57 := by
    simpa [Char.isDigit, UInt32.le_iff_toNat_le] using h
  refine ⟨⟨c.toNat - 48, by omega⟩, ?_⟩
  rw [Nat.add_sub_cancel' hb.1, Char.ofNat_toNat]

theorem isDigit_toUInt8 {c : Char} (h : c.isDigit = true) : isDigit c.toUInt8 = true := by
  obtain ⟨k, rfl⟩ := exists_of_isDigit h
  revert k
  decide

theorem ofUInt8_toUInt8 {c : Char} (h : c.isDigit = true) : Char.ofUInt8 c.toUInt8 = c := by
  obtain ⟨k, rfl⟩ := exists_of_isDigit h
  revert k
  decide

theorem isDigit_of_mem_render {n : Nat} : ∀ c ∈ render n, isDigit c = true := by
  intro c hc
  obtain ⟨d, hd, rfl⟩ := List.mem_map.mp hc
  exact isDigit_toUInt8 (Nat.isDigit_of_mem_toDigits (by decide) (by decide) hd)

theorem isDigit_of_mem_pad {width n : Nat} : ∀ c ∈ pad width n, isDigit c = true := by
  intro c hc
  rcases List.mem_append.mp hc with hc | hc
  · rw [List.eq_of_mem_replicate hc]
    rfl
  · exact isDigit_of_mem_render c hc

theorem render_ne_nil (n : Nat) : render n ≠ [] := by
  rw [render, ne_eq, List.map_eq_nil_iff]
  exact Nat.toDigits_ne_nil

theorem value_render (n : Nat) : value (render n) = n := by
  have hmap : (render n).map Char.ofUInt8 = Nat.toDigits 10 n := by
    rw [render, List.map_map]
    refine (List.map_congr_left fun c hc ↦ ?_).trans (List.map_id _)
    exact ofUInt8_toUInt8 (Nat.isDigit_of_mem_toDigits (by decide) (by decide) hc)
  rw [value, hmap, Nat.ofDigitChars_ten_toDigits]

theorem value_replicate_append (k : Nat) (l : List UInt8) :
    value (List.replicate k 48 ++ l) = value l := by
  have hzero : Char.ofUInt8 48 = '0' := rfl
  rw [value, List.map_append, List.map_replicate, hzero, Nat.ofDigitChars_append,
    Nat.ofDigitChars_replicate_zero, Nat.mul_zero, value]

theorem value_pad (width n : Nat) : value (pad width n) = n := by
  rw [pad, value_replicate_append, value_render]

theorem length_render_le_iff {n k : Nat} (hk : 0 < k) : (render n).length ≤ k ↔ n < 10 ^ k := by
  rw [render, List.length_map]
  exact Nat.length_toDigits_le_iff (by decide) hk

theorem length_pad {width n : Nat} (hw : 0 < width) (h : n < 10 ^ width) :
    (pad width n).length = width := by
  have hle := (length_render_le_iff hw).mpr h
  rw [pad, List.length_append, List.length_replicate]
  omega

/-! ## Digits of a fixed width -/

theorem value_cons (c : UInt8) (l : List UInt8) :
    value (c :: l) = (c.toNat - 48) * 10 ^ l.length + value l := by
  have hchar : (Char.ofUInt8 c).toNat - '0'.toNat = c.toNat - 48 := rfl
  rw [value, List.map_cons, Nat.ofDigitChars_cons, Nat.ofDigitChars_eq_ofDigitChars_zero,
    List.length_map, ← value, hchar, Nat.mul_zero, Nat.zero_add, Nat.mul_comm]

theorem toNat_of_isDigit {c : UInt8} (h : isDigit c = true) : 48 ≤ c.toNat ∧ c.toNat ≤ 57 := by
  simpa [isDigit, UInt8.le_iff_toNat_le] using h

theorem value_lt {l : List UInt8} (h : ∀ c ∈ l, isDigit c = true) : value l < 10 ^ l.length := by
  induction l with
  | nil => exact Nat.one_pos
  | cons c l ih =>
    obtain ⟨hc, hl⟩ := List.forall_mem_cons.mp h
    have hd : c.toNat - 48 ≤ 9 := by have := toNat_of_isDigit hc; omega
    have hrest := ih hl
    have hmul := Nat.mul_le_mul_right (10 ^ l.length) hd
    rw [value_cons, List.length_cons, Nat.pow_succ]
    omega

/-- **Digits of the same number and width are the same.** -/
theorem eq_of_value_eq {l l' : List UInt8} (h : ∀ c ∈ l, isDigit c = true)
    (h' : ∀ c ∈ l', isDigit c = true) (hlen : l.length = l'.length) (he : value l = value l') :
    l = l' := by
  induction l generalizing l' with
  | nil => exact (List.length_eq_zero_iff.mp hlen.symm).symm
  | cons c l ih =>
    cases l' with
    | nil => simp at hlen
    | cons c' l' =>
      obtain ⟨hc, hl⟩ := List.forall_mem_cons.mp h
      obtain ⟨hc', hl'⟩ := List.forall_mem_cons.mp h'
      have hlen : l.length = l'.length := by simpa using hlen
      rw [value_cons, value_cons, ← hlen] at he
      -- the first digit is what the number is divided by the power of ten
      have hdiv : ∀ {d : Nat} {k : List UInt8}, (∀ c ∈ k, isDigit c = true) → k.length = l.length →
          (d * 10 ^ l.length + value k) / 10 ^ l.length = d := by
        intro d k hk hkl
        rw [Nat.add_comm, Nat.add_mul_div_right _ _ (Nat.pow_pos (by decide)),
          Nat.div_eq_of_lt (hkl ▸ value_lt hk), Nat.zero_add]
      have hd : c.toNat - 48 = c'.toNat - 48 := by
        rw [← hdiv (d := c.toNat - 48) hl rfl, he, hdiv hl' hlen.symm]
      have hcc : c = c' := UInt8.toNat_inj.mp (by
        have := toNat_of_isDigit hc
        have := toNat_of_isDigit hc'
        omega)
      rw [hcc, ih hl hl' hlen (by rw [hd] at he; omega)]

theorem pad_value {l : List UInt8} (h : ∀ c ∈ l, isDigit c = true) (hne : l ≠ []) :
    pad l.length (value l) = l :=
  eq_of_value_eq isDigit_of_mem_pad h (length_pad (List.length_pos_iff.mpr hne) (value_lt h))
    (value_pad _ _)

/-! ## Texts with a separator -/

/-- What stands in front of the first separator can be told from what follows. -/
theorem append_cons_inj {c : UInt8} {l l' rest rest' : List UInt8} (hl : c ∉ l) (hl' : c ∉ l')
    (h : l ++ c :: rest = l' ++ c :: rest') : l = l' ∧ rest = rest' := by
  induction l generalizing l' with
  | nil =>
    cases l' with
    | nil => exact ⟨rfl, (List.cons.inj h).2⟩
    | cons d l' => exact absurd (List.cons.inj h).1 (List.ne_of_not_mem_cons hl')
  | cons d l ih =>
    cases l' with
    | nil => exact absurd (List.cons.inj h).1.symm (List.ne_of_not_mem_cons hl)
    | cons d' l' =>
      obtain ⟨rfl, htail⟩ := List.cons.inj h
      obtain ⟨rfl, rfl⟩ :=
        ih (List.not_mem_of_not_mem_cons hl) (List.not_mem_of_not_mem_cons hl') htail
      exact ⟨rfl, rfl⟩

/-- The same from the end of the text. -/
theorem append_cons_inj_right {c : UInt8} {l l' rest rest' : List UInt8} (hrest : c ∉ rest)
    (hrest' : c ∉ rest') (h : l ++ c :: rest = l' ++ c :: rest') : l = l' ∧ rest = rest' := by
  have hrev := congrArg List.reverse h
  rw [List.reverse_append, List.reverse_append, List.reverse_cons, List.reverse_cons,
    List.append_assoc, List.append_assoc] at hrev
  obtain ⟨hr, hl⟩ := append_cons_inj (by simpa using hrest) (by simpa using hrest') hrev
  exact ⟨List.reverse_injective hl, List.reverse_injective hr⟩

theorem render_inj {n m : Nat} (h : render n = render m) : n = m := by
  rw [← value_render n, h, value_render]

theorem not_mem_of_isDigit {c : UInt8} {l : List UInt8} (hc : isDigit c = false)
    (h : ∀ d ∈ l, isDigit d = true) : c ∉ l := by
  intro hmem
  rw [h c hmem] at hc
  cases hc

theorem not_mem_fixed {c : UInt8} (hc : isDigit c = false) (hpoint : c ≠ 46) (decimals n : Nat) :
    c ∉ fixed decimals n := by
  rw [fixed, List.mem_append]
  rintro (hmem | hmem)
  · exact not_mem_of_isDigit hc isDigit_of_mem_render hmem
  · split at hmem
    · cases hmem
    · rcases List.mem_cons.mp hmem with rfl | hmem
      · exact hpoint rfl
      · exact not_mem_of_isDigit hc isDigit_of_mem_pad hmem

/-- A text with a fixed number of decimals says what the number is. -/
theorem fixed_inj {decimals n m : Nat} (h : fixed decimals n = fixed decimals m) : n = m := by
  rw [fixed, fixed] at h
  split at h
  · rename_i hzero
    rw [List.append_nil, List.append_nil, hzero, Nat.pow_zero, Nat.div_one, Nat.div_one] at h
    exact render_inj h
  · have hpoint : ∀ k : Nat, (46 : UInt8) ∉ render k := fun k ↦
      not_mem_of_isDigit (by decide) isDigit_of_mem_render
    obtain ⟨hwhole, hpart⟩ := append_cons_inj (hpoint _) (hpoint _) h
    have hdiv := render_inj hwhole
    have hmod : n % 10 ^ decimals = m % 10 ^ decimals := by
      rw [← value_pad decimals (n % 10 ^ decimals), hpart, value_pad]
    rw [← Nat.div_add_mod n (10 ^ decimals), hdiv, hmod, Nat.div_add_mod]

end Decimal
