import Mathlib.Tactic.Ring
import MatchingEngine.Fix.Fields

/-!
# What `split_frame` decides

`Fix.Frames` says what a frame is in the terms of the code.  Here that is compared with the format
the code is written for, in three respects.

* The checksum.  It is to be the sum of the bytes modulo 256 in three digits.  The loop that reads
  it keeps a `uint8_t`, so that a number of 256 or more is read as what it leaves modulo 256;
  `splitFrame_wellFormed_iff` says that this is the only way in which `split_frame` accepts too
  much.
* Waiting.  The cap on the body length is looked at when the `SOH` after the digits has arrived, and
  says nothing about how many digits there are.  `decision_bounded_iff` says that this is the only
  way to keep `split_frame` waiting, and what it comes to for a session.
* Corruption.  One byte of a frame that is not what it was is noticed (`splitFrame_set_malformed`),
  outside the digits that say how long the frame is.
-/

set_option autoImplicit false

namespace MatchingEngine

namespace Fix

open Decimal Framing

/-! ## Checksums as numbers -/

/-- The sum of the bytes. -/
def byteSum (bytes : Bytes) : Nat := (bytes.map UInt8.toNat).sum

theorem byteSum_cons (c : UInt8) (b : Bytes) : byteSum (c :: b) = c.toNat + byteSum b := by
  rw [byteSum, List.map_cons, List.sum_cons, byteSum]

/-- The 32 bits the sum is kept in are more than it needs. -/
theorem foldl_checksum (bytes : Bytes) (sum : UInt32) :
    (bytes.foldl (fun (sum : UInt32) c ↦ sum + c.toUInt32) sum).toNat % 256
      = (sum.toNat + byteSum bytes) % 256 := by
  induction bytes generalizing sum with
  | nil => rfl
  | cons c bytes ih =>
    rw [List.foldl_cons, ih, byteSum_cons, UInt32.toNat_add, UInt8.toNat_toUInt32]
    omega

theorem toNat_checksum (bytes : Bytes) : (checksum bytes).toNat = byteSum bytes % 256 := by
  have hfold := foldl_checksum bytes 0
  have hand : ∀ n : Nat, n &&& 255 = n % 256 := fun n ↦ Nat.and_two_pow_sub_one_eq_mod n 8
  rw [checksum, UInt32.toNat_toUInt8, UInt32.toNat_and]
  show (_ &&& 255) % 256 = _
  rw [hand, hfold]
  simp

/-- **How the digits of a checksum are read**: as a number, modulo 256. -/
theorem readChecksum_eq_some_iff {got sum : UInt8} {l : Bytes} :
    readChecksum got l = some sum ↔
      (∀ c ∈ l, isDigit c = true) ∧ sum.toNat = (got.toNat * 10 ^ l.length + value l) % 256 := by
  induction l generalizing got with
  | nil =>
    have hgot : (got.toNat * 10 ^ 0 + value []) % 256 = got.toNat := by
      rw [Nat.pow_zero, Nat.mul_one]
      exact Nat.mod_eq_of_lt got.toNat_lt
    rw [readChecksum, Option.some_inj, List.length_nil, hgot, UInt8.toNat_inj, eq_comm]
    simp
  | cons c l ih =>
    rw [readChecksum]
    split
    · rename_i hc
      have hd := toNat_of_isDigit hc
      -- subtracting `'0'` does not wrap
      have hstep : (got * 10 + (c - 48)).toNat = (got.toNat * 10 + (c.toNat - 48)) % 256 := by
        have hsub : (c - 48).toNat = c.toNat - 48 :=
          UInt8.toNat_sub_of_le c 48 (UInt8.le_iff_toNat_le.mpr hd.1)
        rw [UInt8.toNat_add, UInt8.toNat_mul, hsub]
        show (got.toNat * 10 % 256 + _) % 256 = _
        omega
      have hmod : ((got.toNat * 10 + (c.toNat - 48)) % 256 * 10 ^ l.length + value l) % 256
          = (got.toNat * 10 ^ (l.length + 1) + ((c.toNat - 48) * 10 ^ l.length + value l)) %
            256 := by
        rw [Nat.add_mod, Nat.mod_mul_mod, ← Nat.add_mod, Nat.pow_succ]
        congr 1
        ring
      rw [ih, hstep, hmod, value_cons, List.forall_mem_cons, List.length_cons]
      simp only [hc, true_and]
    · rename_i hc
      simp [hc]

/-! ## The checksum of a frame -/

/-- A body, and the number of its bytes in digits. -/
structure Counted (digits body : Bytes) : Prop where
  digits_ne_nil : digits ≠ []
  isDigit_digits : ∀ c ∈ digits, isDigit c = true
  value_le : value digits ≤ 2 ^ 20
  value_eq : value digits = body.length

/-- The format of a frame. -/
def WellFormed (bytes : Bytes) : Prop :=
  ∃ digits body, Counted digits body ∧
    bytes = headOf digits body ++ trailerOf (pad 3 (byteSum (headOf digits body) % 256))

/-- The format, but for a checksum of 256 or more that leaves the right remainder. -/
def ChecksumWraps (bytes : Bytes) : Prop :=
  ∃ digits body check, Counted digits body ∧ bytes = headOf digits body ++ trailerOf check ∧
    check.length = 3 ∧ (∀ c ∈ check, isDigit c = true) ∧ 256 ≤ value check ∧
    value check % 256 = byteSum (headOf digits body) % 256

theorem trailerOf_injective {check check' : Bytes} (h : trailerOf check = trailerOf check') :
    check = check' :=
  List.append_cancel_right (List.append_cancel_left h)

theorem eq_of_append_trailerOf {head head' check check' : Bytes}
    (hlen : check.length = check'.length)
    (h : head ++ trailerOf check = head' ++ trailerOf check') : check = check' := by
  have htrailer : (trailerOf check).length = (trailerOf check').length := by
    simp [trailerOf, hlen]
  exact trailerOf_injective (List.append_inj_right' h htrailer)

theorem not_wellFormed_of_checksumWraps {bytes : Bytes} (h : ChecksumWraps bytes) :
    ¬WellFormed bytes := by
  rintro ⟨digits, body, -, hbytes⟩
  obtain ⟨digits', body', check, -, rfl, hlen, -, hge, -⟩ := h
  have hlt : byteSum (headOf digits body) % 256 < 256 := Nat.mod_lt _ (by decide)
  have hpad : (pad 3 (byteSum (headOf digits body) % 256)).length = 3 :=
    length_pad (by decide) (by omega)
  rw [eq_of_append_trailerOf (hlen.trans hpad.symm) hbytes, value_pad] at hge
  omega

theorem Frame.counted (w : Frame) : Counted w.digits w.body :=
  ⟨w.digits_ne_nil, w.isDigit_digits, w.value_digits ▸ w.length_body_le, w.value_digits⟩

/-- A frame is in the format, or its checksum has wrapped. -/
theorem Frame.wellFormed_or (w : Frame) : WellFormed w.bytes ∨ ChecksumWraps w.bytes := by
  obtain ⟨hdigits, hsum⟩ := readChecksum_eq_some_iff.mp w.readChecksum_check
  have hsum : byteSum w.head % 256 = value w.check % 256 := by
    rw [← toNat_checksum]
    simpa [head] using hsum
  by_cases hlt : value w.check < 256
  · refine .inl ⟨w.digits, w.body, w.counted, ?_⟩
    have hne : w.check ≠ [] := by
      intro hnil
      simpa [hnil] using w.length_check
    have hpad := pad_value hdigits hne
    rw [w.length_check, ← Nat.mod_eq_of_lt hlt, ← hsum] at hpad
    rw [bytes, ← head, hpad]
  · exact .inr ⟨w.digits, w.body, w.check, w.counted, rfl, w.length_check, hdigits,
      Nat.le_of_not_lt hlt, hsum.symm⟩

theorem exists_splitFrame_eq_ok {buf digits body check : Bytes} {n : Nat} (hn : n ≤ buf.length)
    (h : Counted digits body) (hbytes : buf.take n = headOf digits body ++ trailerOf check)
    (hlen : check.length = 3) (hdigits : ∀ c ∈ check, isDigit c = true)
    (hsum : byteSum (headOf digits body) % 256 = value check % 256) :
    ∃ f, splitFrame buf = .ok f n := by
  have hread : readChecksum 0 check = some (checksum (headOf digits body)) := by
    refine readChecksum_eq_some_iff.mpr ⟨hdigits, ?_⟩
    rw [toNat_checksum, hsum]
    simp
  refine ⟨_, splitFrame_eq_ok_iff_frame.mpr
    ⟨⟨digits, body, check, h.digits_ne_nil, h.isDigit_digits, h.value_eq, h.value_eq ▸ h.value_le,
      hlen, hread⟩, buf.drop n, ?_, rfl, ?_⟩⟩
  · rw [Frame.bytes, Frame.head, ← hbytes, List.take_append_drop]
  · rw [Frame.bytes, Frame.head, ← hbytes, List.length_take, Nat.min_eq_left hn]

theorem splitFrame_ok_iff_or {buf : Bytes} {n : Nat} :
    (∃ f, splitFrame buf = .ok f n) ↔
      n ≤ buf.length ∧ (WellFormed (buf.take n) ∨ ChecksumWraps (buf.take n)) := by
  constructor
  · rintro ⟨f, hf⟩
    obtain ⟨w, rest, rfl, -, rfl⟩ := splitFrame_eq_ok_iff_frame.mp hf
    rw [List.take_left]
    refine ⟨?_, w.wellFormed_or⟩
    rw [List.length_append]
    omega
  · rintro ⟨hn, ⟨digits, body, hcounted, hbytes⟩ | ⟨digits, body, check, hcounted, hbytes, hlen,
      hdigits, -, hsum⟩⟩
    · have hlt : byteSum (headOf digits body) % 256 < 256 := Nat.mod_lt _ (by decide)
      refine exists_splitFrame_eq_ok hn hcounted hbytes (length_pad (by decide) (by omega))
        isDigit_of_mem_pad ?_
      rw [value_pad, Nat.mod_mod]
    · exact exists_splitFrame_eq_ok hn hcounted hbytes hlen hdigits hsum.symm

/-- **`split_frame` accepts the format and nothing else, except where the checksum wraps.** -/
theorem splitFrame_wellFormed_iff (buf : Bytes) (n : Nat) :
    ((∃ f, splitFrame buf = .ok f n) ↔ n ≤ buf.length ∧ WellFormed (buf.take n)) ↔
      ¬(n ≤ buf.length ∧ ChecksumWraps (buf.take n)) := by
  rw [splitFrame_ok_iff_or]
  constructor
  · rintro h ⟨hn, hwraps⟩
    exact not_wellFormed_of_checksumWraps hwraps (h.mp ⟨hn, .inr hwraps⟩).2
  · intro h
    constructor
    · rintro ⟨hn, hw | hwraps⟩
      · exact ⟨hn, hw⟩
      · exact absurd ⟨hn, hwraps⟩ h
    · rintro ⟨hn, hw⟩
      exact ⟨hn, .inl hw⟩

/-- `8=FIX.4.4|9=5|35=0|10=419|`: the sum is 163, and 419 is 163 + 256. -/
def wrappedFrame : Bytes :=
  headOf (ascii ['5']) (ascii ['3', '5', '=', '0'] ++ [SOH]) ++ trailerOf (ascii ['4', '1', '9'])

theorem wrappedFrame_accepted :
    ∃ n, (∃ f, splitFrame wrappedFrame = .ok f n) ∧
      ¬(n ≤ wrappedFrame.length ∧ WellFormed (wrappedFrame.take n)) := by
  refine ⟨wrappedFrame.length, ⟨wrappedFrame, by decide +kernel⟩, fun h ↦ ?_⟩
  rw [List.take_length] at h
  refine not_wellFormed_of_checksumWraps ?_ h.2
  exact ⟨_, _, _,
    ⟨by decide, List.all_eq_true.mp (by decide), by decide +kernel, by decide +kernel⟩,
    rfl, by decide, List.all_eq_true.mp (by decide), by decide +kernel, by decide +kernel⟩

/-! ## Waiting for more -/

/-- What may follow the digits of the body length while the frame is not all there: nothing, or the
`SOH` and a part of the body and the trailer. -/
def Unfinished (digits tail : Bytes) : Prop :=
  tail = [] ∨ ∃ more, tail = SOH :: more ∧ digits ≠ [] ∧ value digits ≤ 2 ^ 20 ∧
    more.length < value digits + 7

theorem splitTrailer_eq_incomplete_iff {buf : Bytes} {bodyEnd : Nat} :
    splitTrailer buf bodyEnd = .incomplete ↔ buf.length < bodyEnd + 7 := by
  simp only [splitTrailer]
  split
  · rename_i h
    simp [h]
  · rename_i h
    simp only [h, iff_false]
    split
    · simp
    split
    · simp
    split <;> simp

theorem scanDigits_of_isDigit {stop : UInt8} {digits : Bytes} (hstop : isDigit stop = false)
    (h : ∀ c ∈ digits, isDigit c = true) : scanDigits stop digits = some (digits, []) := by
  induction digits with
  | nil => rfl
  | cons c digits ih =>
    obtain ⟨hc, hdigits⟩ := List.forall_mem_cons.mp h
    have hne : c ≠ stop := by
      rintro rfl
      simp [hstop] at hc
    rw [scanDigits, if_neg hne, if_pos hc, ih hdigits]
    rfl

/-- What comes after `8=FIX.4.4` while there is not enough to tell. -/
theorem splitLength_eq_incomplete_iff {rest : Bytes} :
    splitLength (beginString ++ rest) rest = .incomplete ↔
      rest.length < lengthTag.length ∨ ∃ digits tail, rest = lengthTag ++ (digits ++ tail) ∧
        (∀ c ∈ digits, isDigit c = true) ∧ Unfinished digits tail := by
  constructor
  · intro h
    simp only [splitLength] at h
    split at h
    · exact .inl ‹_›
    split at h
    · simp at h
    rename_i htag
    have hrest : rest = lengthTag ++ rest.drop lengthTag.length := by
      conv_lhs => rw [← List.take_append_drop lengthTag.length rest, not_not.mp htag]
    split at h
    case h_1 => simp at h
    case h_2 digits hscan =>
      obtain ⟨he, hdigits, -⟩ := scanDigits_eq_some hscan
      exact .inr ⟨digits, [], hrest.trans (congrArg _ he), hdigits, .inl rfl⟩
    case h_3 digits c more hscan =>
      split at h
      case h_1 => simp at h
      case h_2 bodyLen hlen =>
        split at h
        · simp at h
        rename_i hcap
        obtain ⟨hne, rfl, -⟩ := fromChars_eq_some.mp hlen
        obtain ⟨he, hdigits, hstop⟩ := scanDigits_eq_some hscan
        obtain rfl : c = SOH := hstop c rfl
        rw [splitTrailer_eq_incomplete_iff, hrest, he] at h
        simp only [List.length_append, List.length_cons] at h
        exact .inr ⟨digits, SOH :: more, hrest.trans (congrArg _ he), hdigits,
          .inr ⟨more, rfl, hne, Nat.le_of_not_lt hcap, by omega⟩⟩
  · rintro (hshort | ⟨digits, tail, rfl, hdigits, rfl | ⟨more, rfl, hne, hcap, hmore⟩⟩)
    · rw [splitLength, if_pos hshort]
    · rw [List.append_nil, splitLength, if_neg (by simp only [List.length_append]; omega),
        List.take_left, if_neg (by simp), List.drop_left, scanDigits_of_isDigit isDigit_SOH hdigits]
    · have hfrom : fromChars (2 ^ 64) digits = some (value digits) :=
        fromChars_eq_some.mpr ⟨hne, rfl, by omega⟩
      rw [splitLength, if_neg (by simp only [List.length_append]; omega), List.take_left,
        if_neg (by simp), List.drop_left, scanDigits_append_cons isDigit_SOH hdigits]
      simp only [hfrom]
      rw [if_neg (Nat.not_lt_of_le hcap), splitTrailer_eq_incomplete_iff]
      simp only [List.length_append, List.length_cons]
      omega

/-- **What `split_frame` waits at.** -/
theorem splitFrame_eq_incomplete_iff {buf : Bytes} :
    splitFrame buf = .incomplete ↔
      buf.length < beginString.length ∨
        (∃ rest, buf = beginString ++ rest ∧ rest.length < lengthTag.length) ∨
        ∃ digits tail, buf = preamble ++ (digits ++ tail) ∧ (∀ c ∈ digits, isDigit c = true) ∧
          Unfinished digits tail := by
  constructor
  · intro h
    simp only [splitFrame] at h
    split at h
    · exact .inl ‹_›
    split at h
    · simp at h
    rename_i hbegin
    have hbuf : buf = beginString ++ buf.drop beginString.length := by
      conv_lhs => rw [← List.take_append_drop beginString.length buf, not_not.mp hbegin]
    generalize buf.drop beginString.length = rest at h hbuf
    subst hbuf
    rcases splitLength_eq_incomplete_iff.mp h with hshort | ⟨digits, tail, rfl, hdigits, hunf⟩
    · exact .inr (.inl ⟨rest, rfl, hshort⟩)
    · exact .inr (.inr ⟨digits, tail, by rw [preamble, List.append_assoc], hdigits, hunf⟩)
  · have hgo : ∀ rest, (rest.length < lengthTag.length ∨ ∃ digits tail,
        rest = lengthTag ++ (digits ++ tail) ∧ (∀ c ∈ digits, isDigit c = true) ∧
          Unfinished digits tail) → splitFrame (beginString ++ rest) = .incomplete := by
      intro rest h
      rw [splitFrame, if_neg (by simp only [List.length_append]; omega), List.take_left,
        if_neg (by simp), List.drop_left]
      exact splitLength_eq_incomplete_iff.mpr h
    rintro (hshort | ⟨rest, rfl, hshort⟩ | ⟨digits, tail, rfl, hdigits, hunf⟩)
    · rw [splitFrame, if_pos hshort]
    · exact hgo rest (.inl hshort)
    · rw [preamble, List.append_assoc]
      exact hgo _ (.inr ⟨digits, tail, rfl, hdigits, hunf⟩)

/-- While `split_frame` waits, the buffer is short or the body length has begun. -/
theorem length_lt_or_of_incomplete {buf : Bytes} (h : splitFrame buf = .incomplete) :
    buf.length < 12 ∨ ∃ digits tail, buf = preamble ++ (digits ++ tail) ∧
      (∀ c ∈ digits, isDigit c = true) ∧ Unfinished digits tail := by
  have hbegin : beginString.length = 10 := rfl
  have htag : lengthTag.length = 2 := rfl
  rcases splitFrame_eq_incomplete_iff.mp h with hshort | ⟨rest, rfl, hshort⟩ | hlong
  · exact .inl (by omega)
  · refine .inl ?_
    rw [List.length_append]
    omega
  · exact .inr hlong

/-- While the digits go on, they can go on for ever. -/
theorem splitFrame_digits {digits : Bytes} (h : ∀ c ∈ digits, isDigit c = true) :
    splitFrame (preamble ++ digits) = .incomplete :=
  splitFrame_eq_incomplete_iff.mpr
    (.inr (.inr ⟨digits, [], by rw [List.append_nil], h, .inl rfl⟩))

/-- **How long `split_frame` waits**: for the digits of a body length, and a constant besides. -/
theorem length_lt_of_incomplete {buf : Bytes} (h : splitFrame buf = .incomplete) :
    buf.length < (lengthDigits buf).length + 2 ^ 20 + 20 := by
  rcases length_lt_or_of_incomplete h with hshort | ⟨digits, tail, he, hdigits, hunf⟩
  · omega
  · have hpre := length_preamble
    rcases hunf with rfl | ⟨more, rfl, -, hcap, hmore⟩
    · rw [he, List.append_nil, lengthDigits, List.drop_left, List.takeWhile_eq_self_iff.mpr hdigits,
        List.length_append]
      omega
    · rw [he, lengthDigits_preamble hdigits]
      simp only [List.length_append, List.length_cons]
      omega

/-- What a session keeps in `rx_buf` is what it could not decide on. -/
theorem splitFrame_buffer_receive {chunks : List Bytes}
    (h : (receive chunks).status = .incomplete) :
    splitFrame (receive chunks).buffer = .incomplete := by
  obtain ⟨-, hbuffer, hstatus⟩ := Stream.faithful_feed (s := splitter) chunks
  rw [receive, hbuffer]
  exact Splitter.split_rest_drain (hstatus.symm.trans h)

/-- The digits of the body length are no more than the limit, if there is one. -/
def WithinLimit (limit : Option Nat) (buf : Bytes) : Prop :=
  ∀ D ∈ limit, (lengthDigits buf).length ≤ D

/-- All buffers of this size are decided, and no session holds back as much. -/
structure DecidedAt (limit : Option Nat) (B : Nat) : Prop where
  split : ∀ buf, WithinLimit limit buf → B ≤ buf.length → splitFrame buf ≠ .incomplete
  receive : ∀ chunks, (receive chunks).status = .incomplete →
    WithinLimit limit (receive chunks).buffer → (receive chunks).buffer.length < B

/-- **When the wait is bounded**: exactly when the number of digits of the body length is.  Nothing
in the code limits it, so that a peer can make `split_frame` wait with any number of digits. -/
theorem decision_bounded_iff (limit : Option Nat) :
    ((∃ B, DecidedAt limit B) ↔ limit ≠ none) ∧ ∀ D, DecidedAt (some D) (D + 2 ^ 20 + 20) := by
  have hbound : ∀ D, DecidedAt (some D) (D + 2 ^ 20 + 20) := by
    intro D
    refine ⟨fun buf hD hlen hinc ↦ ?_, fun chunks hstatus hD ↦ ?_⟩
    · have := length_lt_of_incomplete hinc
      have := hD D rfl
      omega
    · have := length_lt_of_incomplete (splitFrame_buffer_receive hstatus)
      have := hD D rfl
      omega
  refine ⟨⟨?_, ?_⟩, hbound⟩
  · rintro ⟨B, hB⟩ rfl
    refine hB.split (preamble ++ List.replicate B 48) (fun D hD ↦ by cases hD) ?_ ?_
    · simp only [List.length_append, List.length_replicate]
      omega
    · exact splitFrame_digits fun c hc ↦ by rw [List.eq_of_mem_replicate hc]; rfl
  · intro hlimit
    obtain ⟨D, rfl⟩ := Option.ne_none_iff_exists'.mp hlimit
    exact ⟨_, hbound D⟩

/-- Nothing bounds `rx_buf`: a peer sends `8=FIX.4.4|9=` and goes on with zeros. -/
theorem endless_length :
    (¬∃ B, ∀ buf : Bytes, B ≤ buf.length → splitFrame buf ≠ .incomplete) ∧
      ∀ B, ∃ chunks, (∀ c ∈ chunks, c.length ≤ 4096) ∧ B ≤ (receive chunks).buffer.length ∧
        (receive chunks).status = .incomplete := by
  have hwait : ∀ B, splitFrame (preamble ++ List.replicate B 48) = .incomplete := fun B ↦
    splitFrame_digits fun c hc ↦ by rw [List.eq_of_mem_replicate hc]; rfl
  constructor
  · rintro ⟨B, hB⟩
    refine hB (preamble ++ List.replicate B 48) ?_ (hwait B)
    rw [List.length_append, List.length_replicate]
    omega
  · intro B
    have hflat : (preamble :: List.replicate B [48]).flatten = preamble ++ List.replicate B 48 := by
      simp
    have hdrain : splitter.drain (preamble ++ List.replicate B 48)
        = ⟨[], preamble ++ List.replicate B 48, .incomplete⟩ := Splitter.drain_incomplete (hwait B)
    obtain ⟨hframes, hstatus⟩ := Stream.feed_eq_drain (s := splitter)
      (preamble :: List.replicate B [48])
    rw [hflat, hdrain] at hframes hstatus
    obtain ⟨more, hmore, hnil⟩ := Stream.received_foldl (s := splitter) Stream.start
      (preamble :: List.replicate B [48])
    rw [hnil hstatus, List.append_nil, hflat] at hmore
    have hkept := Stream.flatten_feed (s := splitter) (preamble :: List.replicate B [48])
    rw [hframes, List.flatten_nil, List.nil_append] at hkept
    have hbuffer : (receive (preamble :: List.replicate B [48])).buffer
        = preamble ++ List.replicate B 48 := hkept.trans hmore.symm
    refine ⟨preamble :: List.replicate B [48], ?_, ?_, hstatus⟩
    · intro c hc
      rcases List.mem_cons.mp hc with rfl | hc
      · decide
      · rw [List.eq_of_mem_replicate hc]
        decide
    · rw [hbuffer, List.length_append, List.length_replicate]
      omega

/-! ## Corruption -/

theorem byteSum_set {l : Bytes} {i : Nat} (hi : i < l.length) (c : UInt8) :
    byteSum (l.set i c) + l[i].toNat = byteSum l + c.toNat := by
  induction l generalizing i with
  | nil => simp at hi
  | cons b l ih =>
    cases i with
    | zero =>
      rw [List.set_cons_zero, byteSum_cons, byteSum_cons, List.getElem_cons_zero]
      omega
    | succ i =>
      have := ih (Nat.lt_of_succ_lt_succ hi)
      rw [List.set_cons_succ, byteSum_cons, byteSum_cons, List.getElem_cons_succ]
      omega

/-- One byte that is different makes a different checksum. -/
theorem eq_of_checksum_set {l : Bytes} {i : Nat} (hi : i < l.length) {c : UInt8}
    (h : checksum (l.set i c) = checksum l) : l[i] = c := by
  have hsum := congrArg UInt8.toNat h
  rw [toNat_checksum, toNat_checksum] at hsum
  have hset := byteSum_set hi c
  have hlt := l[i].toNat_lt
  have hlt' := c.toNat_lt
  exact UInt8.toNat_inj.mp (by omega)

/-- One digit that is different makes a different number modulo 256: no multiple of 100, of 10 or of
1 by less than ten is one of 256. -/
theorem eq_of_readChecksum_set {check : Bytes} {i : Nat} {c sum : UInt8} (hlen : check.length = 3)
    (hi : i < check.length) (h : readChecksum 0 check = some sum)
    (h' : readChecksum 0 (check.set i c) = some sum) : check[i] = c := by
  obtain ⟨x, y, z, rfl⟩ := List.length_eq_three.mp hlen
  obtain ⟨hdigits, hsum⟩ := readChecksum_eq_some_iff.mp h
  obtain ⟨hdigits', hsum'⟩ := readChecksum_eq_some_iff.mp h'
  have hx := toNat_of_isDigit (hdigits x (by simp))
  have hy := toNat_of_isDigit (hdigits y (by simp))
  have hz := toNat_of_isDigit (hdigits z (by simp))
  have hc := toNat_of_isDigit (hdigits' c (List.mem_set hi c))
  have hnil : value [] = 0 := rfl
  refine UInt8.toNat_inj.mp ?_
  obtain rfl | rfl | rfl : i = 0 ∨ i = 1 ∨ i = 2 := by omega
  all_goals
    simp only [List.set_cons_zero, List.set_cons_succ, value_cons, hnil, List.length_cons,
      List.length_nil, List.getElem_cons_zero, List.getElem_cons_succ] at hsum hsum' ⊢
    omega

theorem getElem_of_eq_set {l : Bytes} {i : Nat} {c : UInt8} (hi : i < l.length)
    (h : l = l.set i c) : l[i] = c := by
  have hget := List.getElem?_set_self (a := c) hi
  rw [← h, List.getElem?_eq_getElem hi] at hget
  exact Option.some.inj hget

/-- One byte of a trailer that is different is in the tag, in the `SOH`, or one of the digits. -/
theorem eq_of_trailerOf_set {check check' : Bytes} {i : Nat} {c sum : UInt8}
    (hlen : check.length = 3) (hlen' : check'.length = 3) (hi : i < (trailerOf check).length)
    (hread : readChecksum 0 check = some sum) (hread' : readChecksum 0 check' = some sum)
    (h : trailerOf check' = (trailerOf check).set i c) : (trailerOf check)[i] = c := by
  have htag : checksumTag.length = 3 := rfl
  simp only [trailerOf, List.set_append] at h ⊢
  simp only [trailerOf, List.length_append, hlen, htag, List.length_singleton] at hi
  by_cases hi₁ : i < checksumTag.length
  · rw [if_pos hi₁] at h
    rw [List.getElem_append_left hi₁]
    exact getElem_of_eq_set hi₁ (List.append_inj_left h (by rw [List.length_set]))
  rw [if_neg hi₁] at h
  have h := List.append_cancel_left h
  rw [List.getElem_append_right (Nat.le_of_not_lt hi₁)]
  by_cases hi₂ : i - checksumTag.length < check.length
  · rw [if_pos hi₂] at h
    rw [List.getElem_append_left hi₂]
    refine eq_of_readChecksum_set hlen hi₂ hread ?_
    rw [← List.append_inj_left h (by rw [List.length_set, hlen, hlen'])]
    exact hread'
  · rw [if_neg hi₂] at h
    have hlast : [SOH] = [SOH].set (i - checksumTag.length - check.length) c :=
      List.append_inj_right h (by rw [hlen, hlen'])
    rw [List.getElem_append_right (Nat.le_of_not_lt hi₂)]
    exact getElem_of_eq_set (by rw [List.length_singleton, hlen, htag]; omega) hlast

/-- Two frames of the same length that differ in one byte are the same. -/
theorem Frame.eq_of_bytes_set {w w' : Frame} {i : Nat} {c : UInt8} (hdigits : w'.digits = w.digits)
    (hi : i < w.bytes.length) (h : w'.bytes = w.bytes.set i c) : w.bytes[i] = c := by
  have hhead : w'.head.length = w.head.length := by
    rw [head, head, length_headOf, length_headOf, ← w.value_digits, ← w'.value_digits, hdigits]
  rw [bytes, bytes, List.set_append] at h
  simp only [bytes]
  by_cases hlt : i < w.head.length
  · rw [if_pos hlt] at h
    have hset := List.append_inj h (by rw [hhead, List.length_set])
    have hcheck : w'.check = w.check := trailerOf_injective hset.2
    have hsum : checksum w'.head = checksum w.head := by
      have := w'.readChecksum_check
      rw [hcheck, w.readChecksum_check] at this
      exact (Option.some.inj this).symm
    rw [List.getElem_append_left hlt]
    exact eq_of_checksum_set hlt (hset.1 ▸ hsum)
  · rw [if_neg hlt] at h
    obtain ⟨hsame, htrailer⟩ := List.append_inj h hhead
    have hread' := w'.readChecksum_check
    rw [← head, hsame] at hread'
    rw [List.getElem_append_right (Nat.le_of_not_lt hlt)]
    exact eq_of_trailerOf_set w.length_check w'.length_check
      (by rw [bytes, List.length_append] at hi; omega) w.readChecksum_check hread' htrailer

/-- A buffer that is long enough and not refused starts as a frame does. -/
theorem preamble_of_ne_malformed {buf : Bytes} (hlen : preamble.length ≤ buf.length)
    (h : splitFrame buf ≠ .malformed) : ∃ rest, buf = preamble ++ rest := by
  cases hs : splitFrame buf with
  | malformed => exact absurd hs h
  | ok f n =>
    obtain ⟨w, rest, rfl, -, -⟩ := splitFrame_eq_ok_iff_frame.mp hs
    exact ⟨_, by rw [w.bytes_eq, List.append_assoc]⟩
  | incomplete =>
    rcases length_lt_or_of_incomplete hs with hshort | ⟨digits, tail, rfl, -, -⟩
    · rw [length_preamble] at hlen
      omega
    · exact ⟨_, rfl⟩

/-- Where the length is intact, a buffer that holds all of the frame is decided on. -/
theorem splitFrame_ne_incomplete {digits tail : Bytes} (hdigits : ∀ c ∈ digits, isDigit c = true)
    (hlen : value digits + 7 ≤ tail.length) :
    splitFrame (preamble ++ (digits ++ SOH :: tail)) ≠ .incomplete := by
  intro hinc
  have hsame := lengthDigits_preamble hdigits tail
  rcases length_lt_or_of_incomplete hinc with hshort |
    ⟨digits', tail', he, hdigits', rfl | ⟨more, rfl, -, -, hmore⟩⟩
  · rw [List.length_append, length_preamble] at hshort
    omega
  · have hmem : SOH ∈ digits' ++ [] := by
      rw [← List.append_cancel_left he]
      simp
    rw [List.append_nil] at hmem
    exact soh_not_mem_of_isDigit hdigits' hmem
  · rw [he, lengthDigits_preamble hdigits'] at hsame
    have := congrArg List.length he
    simp only [List.length_append, List.length_cons, hsame] at this
    rw [hsame] at hmore
    omega

/-- A change after the length leaves the length as it is. -/
theorem Frame.exists_bytes_set_eq (w : Frame) {i : Nat} (hi : 12 + w.digits.length < i)
    (c : UInt8) :
    ∃ tail, tail.length = w.body.length + 7 ∧
      w.bytes.set i c = preamble ++ (w.digits ++ SOH :: tail) := by
  have hfront : w.bytes = (preamble ++ (w.digits ++ [SOH])) ++ (w.body ++ trailerOf w.check) := by
    rw [w.bytes_eq]
    simp
  have hle : ¬i < (preamble ++ (w.digits ++ [SOH])).length := by
    simp only [List.length_append, length_preamble, List.length_singleton]
    omega
  refine ⟨(w.body ++ trailerOf w.check).set (i - (12 + (w.digits.length + 1))) c, ?_, ?_⟩
  · rw [List.length_set, List.length_append, length_trailerOf w.length_check]
  · rw [hfront, List.set_append, if_neg hle]
    simp [length_preamble]

/-- **A frame with one byte changed is refused**, unless the byte is one of the digits that say how
long the frame is, or the `SOH` that ends them. -/
theorem splitFrame_set_malformed {buf f : Bytes} {n : Nat} (h : splitFrame buf = .ok f n) {i : Nat}
    (hi : i < f.length) (hout : i < 12 ∨ 12 + (lengthDigits f).length < i) {c : UInt8}
    (hc : c ≠ f[i]) (rest : Bytes) : splitFrame (f.set i c ++ rest) = .malformed := by
  obtain ⟨w, -, -, rfl, -⟩ := splitFrame_eq_ok_iff_frame.mp h
  rw [w.lengthDigits_bytes] at hout
  by_contra hne
  have hlen := w.length_bytes
  rcases hout with hpre | hpost
  · -- the changed byte is one that every frame has
    obtain ⟨tail, htail⟩ := preamble_of_ne_malformed
      (by rw [List.length_append, List.length_set, length_preamble]; omega) hne
    have hget : (w.bytes.set i c ++ rest)[i]? = preamble[i]? := by
      rw [htail, List.getElem?_append_left hpre]
    have hget' : w.bytes[i]? = preamble[i]? := by
      rw [w.bytes_eq, List.getElem?_append_left hpre]
    rw [List.getElem?_append_left (by rwa [List.length_set]), List.getElem?_set_self hi, ← hget',
      List.getElem?_eq_getElem hi] at hget
    exact hc (Option.some.inj hget)
  · -- the length is intact, and the buffer is cut where it was
    obtain ⟨tail, htail, he⟩ := w.exists_bytes_set_eq hpost c
    have hbuf : w.bytes.set i c ++ rest = preamble ++ (w.digits ++ SOH :: (tail ++ rest)) := by
      rw [he, List.append_assoc, List.append_assoc, List.cons_append]
    cases hs : splitFrame (w.bytes.set i c ++ rest) with
    | malformed => exact hne hs
    | incomplete =>
      rw [hbuf] at hs
      refine splitFrame_ne_incomplete w.isDigit_digits ?_ hs
      rw [List.length_append, htail, w.value_digits]
      omega
    | ok f n =>
      obtain ⟨w', rest', hw', -, -⟩ := splitFrame_eq_ok_iff_frame.mp hs
      have hdigits : w'.digits = w.digits := by
        rw [← w'.lengthDigits_append rest', ← hw', hbuf, lengthDigits_preamble w.isDigit_digits]
      have hlen' : w'.bytes.length = (w.bytes.set i c).length := by
        rw [List.length_set, w'.length_bytes, w.length_bytes, hdigits]
      exact hc (Frame.eq_of_bytes_set hdigits hi (List.append_inj hw' hlen'.symm).1.symm).symm

/-- A heartbeat whose message type has become `1`, with the start of another frame behind it. -/
theorem heartbeatFrame_set_malformed :
    splitFrame heartbeatFrame = .ok heartbeatFrame heartbeatFrame.length ∧
      splitFrame (heartbeatFrame.set 17 '1'.toUInt8 ++ preamble) = .malformed := by
  have hs : splitFrame heartbeatFrame
      = .ok heartbeatFrame heartbeatFrame.length := by decide +kernel
  exact ⟨hs, splitFrame_set_malformed hs (i := 17) (by decide) (.inr (by decide +kernel))
    (by decide) _⟩

end Fix

end MatchingEngine
