import Mathlib.Algebra.Order.Ring.Int
import Mathlib.Data.List.Basic
import Mathlib.Tactic.Positivity
import Mathlib.Tactic.Ring

/-!
# Records of fixed size

A file that is the memory image of an array: every record has the same number of bytes, and every
field of a record its own.  Numbers are little-endian, negative ones in two's complement.

Both directions are exact.  A number that fits is read as it was written (`decode_encode`,
`decodeInt_encodeInt`), and bytes are written as they were read (`encode_decode`,
`encodeInt_decodeInt`).  The same for a file and its records (`pieces_flatMap`, `flatten_pieces`).
-/

set_option autoImplicit false

namespace Records

/-! ## Numbers -/

/-- The low `k` bytes of a number. -/
def encode : Nat → Nat → List UInt8
  | 0, _ => []
  | k + 1, n => UInt8.ofNat n :: encode k (n / 256)

def decode : List UInt8 → Nat
  | [] => 0
  | b :: bs => b.toNat + 256 * decode bs

@[simp]
theorem length_encode (k n : Nat) : (encode k n).length = k := by
  induction k generalizing n with
  | zero => rfl
  | succ k ih => rw [encode, List.length_cons, ih]

theorem decode_encode {k n : Nat} (h : n < 256 ^ k) : decode (encode k n) = n := by
  induction k generalizing n with
  | zero => simp at h; simp [encode, decode, h]
  | succ k ih =>
    rw [encode, decode, ih (by rw [Nat.pow_succ] at h; omega), UInt8.toNat_ofNat']
    omega

theorem decode_lt (bs : List UInt8) : decode bs < 256 ^ bs.length := by
  induction bs with
  | nil => simp [decode]
  | cons b bs ih =>
    have hb := b.toNat_lt
    rw [decode, List.length_cons, Nat.pow_succ]
    omega

theorem encode_decode (bs : List UInt8) : encode bs.length (decode bs) = bs := by
  induction bs with
  | nil => rfl
  | cons b bs ih =>
    have hb := b.toNat_lt
    have hdiv : (b.toNat + 256 * decode bs) / 256 = decode bs := by omega
    have hlow : UInt8.ofNat (b.toNat + 256 * decode bs) = b := by
      refine UInt8.toNat_inj.mp ?_
      rw [UInt8.toNat_ofNat']
      omega
    rw [List.length_cons, decode, encode, hdiv, hlow, ih]

/-- Two's complement. -/
def encodeInt (k : Nat) (n : Int) : List UInt8 := encode k (n % (256 ^ k : Nat)).toNat

def decodeInt (bs : List UInt8) : Int := (decode bs : Int).bmod (256 ^ bs.length)

@[simp]
theorem length_encodeInt (k : Nat) (n : Int) : (encodeInt k n).length = k := length_encode k _

/-- A number of a signed type with `k` bytes. -/
def HoldsInt (k : Nat) (n : Int) : Prop := -(256 ^ k : Nat) ≤ 2 * n ∧ 2 * n < (256 ^ k : Nat)

theorem decodeInt_encodeInt {k : Nat} {n : Int} (h : HoldsInt k n) :
    decodeInt (encodeInt k n) = n := by
  have hpos : (0 : Int) < (256 ^ k : Nat) := by positivity
  have hlt := Int.emod_lt_of_pos n hpos
  have hnn := Int.emod_nonneg n hpos.ne'
  rw [decodeInt, length_encodeInt, encodeInt, decode_encode (by omega), Int.toNat_of_nonneg hnn,
    Int.emod_bmod]
  obtain ⟨hlo, hhi⟩ := h
  exact Int.bmod_eq_of_le (by omega) (by omega)

theorem encodeInt_decodeInt (bs : List UInt8) : encodeInt bs.length (decodeInt bs) = bs := by
  have hlt := decode_lt bs
  have hmod : decodeInt bs % (256 ^ bs.length : Nat) = decode bs := by
    rw [decodeInt, Int.bmod_emod]
    exact Int.emod_eq_of_lt (by omega) (by exact_mod_cast hlt)
  rw [encodeInt, hmod, Int.toNat_natCast, encode_decode]

theorem holdsInt_decodeInt {bs : List UInt8} (h : bs ≠ []) : HoldsInt bs.length (decodeInt bs) := by
  have hpos : 0 < 256 ^ bs.length := by positivity
  -- the size is even, so that the two halves of the range meet
  have heven : 2 ∣ 256 ^ bs.length := by
    obtain ⟨b, bs, rfl⟩ := List.exists_cons_of_ne_nil h
    rw [List.length_cons, Nat.pow_succ]
    exact Dvd.dvd.mul_left (by decide : 2 ∣ 256) _
  have hlo := Int.le_bmod (x := decode bs) hpos
  have hhi := Int.bmod_lt (x := decode bs) hpos
  rw [HoldsInt, decodeInt]
  omega

/-! ## Fields -/

/-- The `k` bytes from position `i` on. -/
def field (i k : Nat) (bs : List UInt8) : List UInt8 := (bs.drop i).take k

section Field

variable {i k : Nat} {bs : List UInt8}

theorem length_field (h : i + k ≤ bs.length) : (field i k bs).length = k := by
  rw [field, List.length_take, List.length_drop]
  omega

theorem encode_field (h : i + k ≤ bs.length) : encode k (decode (field i k bs)) = field i k bs := by
  have he := encode_decode (field i k bs)
  rwa [length_field h] at he

theorem encodeInt_field (h : i + k ≤ bs.length) :
    encodeInt k (decodeInt (field i k bs)) = field i k bs := by
  have he := encodeInt_decodeInt (field i k bs)
  rwa [length_field h] at he

theorem decode_field_lt (h : i + k ≤ bs.length) : decode (field i k bs) < 256 ^ k := by
  have hlt := decode_lt (field i k bs)
  rwa [length_field h] at hlt

theorem holdsInt_field (hk : 0 < k) (h : i + k ≤ bs.length) :
    HoldsInt k (decodeInt (field i k bs)) := by
  have hne : field i k bs ≠ [] := List.ne_nil_of_length_pos (by rw [length_field h]; exact hk)
  have hholds := holdsInt_decodeInt hne
  rwa [length_field h] at hholds

/-- One field after the other. -/
theorem drop_eq_field_append (i k : Nat) (bs : List UInt8) :
    bs.drop i = field i k bs ++ bs.drop (i + k) := by
  rw [field, ← List.drop_drop, List.take_append_drop]

theorem drop_eq_byte_cons (h : i < bs.length) : bs.drop i = bs.getD i 0 :: bs.drop (i + 1) := by
  rw [List.drop_eq_getElem_cons h]
  simp [List.getD, h]

end Field

/-! ## Files -/

/-- The first `n` pieces of a size. -/
def pieces (size : Nat) : Nat → List UInt8 → List (List UInt8)
  | 0, _ => []
  | n + 1, bs => bs.take size :: pieces size n (bs.drop size)

variable {α : Type}

theorem pieces_flatMap {size : Nat} {f : α → List UInt8} (hf : ∀ a, (f a).length = size)
    (as : List α) :
    pieces size as.length (as.flatMap f) = as.map f := by
  induction as with
  | nil => rfl
  | cons a as ih =>
    rw [List.length_cons, pieces, List.flatMap_cons, List.take_left' (hf a),
      List.drop_left' (hf a), ih, List.map_cons]

theorem flatten_pieces {size n : Nat} {bs : List UInt8} (h : bs.length = size * n) :
    (pieces size n bs).flatten = bs := by
  induction n generalizing bs with
  | zero => exact (List.length_eq_zero_iff.mp h).symm
  | succ n ih =>
    rw [pieces, List.flatten_cons, ih (by rw [List.length_drop, h, Nat.mul_succ]; omega),
      List.take_append_drop]

theorem length_of_mem_pieces {size n : Nat} {bs : List UInt8} (h : bs.length = size * n) :
    ∀ p ∈ pieces size n bs, p.length = size := by
  induction n generalizing bs with
  | zero => simp [pieces]
  | succ n ih =>
    rw [Nat.mul_succ] at h
    refine List.forall_mem_cons.mpr ⟨?_, ih (by rw [List.length_drop, h]; omega)⟩
    rw [List.length_take, h]
    omega

end Records
