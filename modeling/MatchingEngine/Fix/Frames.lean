import Mathlib.Data.List.TakeWhile
import MatchingEngine.Fix.Parser

/-!
# What the parser accepts

`splitFrame_eq_ok_iff` and `parseFields_field` say in terms of concatenations what `split_frame` and
`parse_frame` look for with positions in a buffer.

For `split_frame` there is also the question of what happens when the buffer grows, because the
gateway calls it on whatever has arrived.  It never changes a decision it has made
(`splitFrame_append`): each of its early exits looks only at bytes that are there.  This makes it a
`Splitter`, and `receive_eq_drain` draws the consequence for a stream that arrives in pieces.
-/

set_option autoImplicit false

namespace MatchingEngine

namespace Fix

open Decimal Framing

/-! ## Scanning digits -/

theorem isDigit_SOH : isDigit SOH = false := rfl

theorem isDigit_equals : isDigit equals = false := rfl

theorem soh_not_mem_of_isDigit {l : Bytes} (h : ∀ c ∈ l, isDigit c = true) : SOH ∉ l := by
  intro hmem
  simpa [isDigit_SOH] using h SOH hmem

section Scan

variable {stop : UInt8} {l digits rest : Bytes}

theorem scanDigits_append_cons (hstop : isDigit stop = false)
    (hdigits : ∀ c ∈ digits, isDigit c = true) (rest : Bytes) :
    scanDigits stop (digits ++ stop :: rest) = some (digits, stop :: rest) := by
  induction digits with
  | nil => rw [List.nil_append, scanDigits, if_pos rfl]
  | cons c digits ih =>
    obtain ⟨hc, hdigits⟩ := List.forall_mem_cons.mp hdigits
    have hne : c ≠ stop := by
      rintro rfl
      rw [hstop] at hc
      exact Bool.noConfusion hc
    rw [List.cons_append, scanDigits, if_neg hne, if_pos hc, ih hdigits]
    rfl

/-- What the loop has gone over is digits, and it stops where it should. -/
theorem scanDigits_eq_some (h : scanDigits stop l = some (digits, rest)) :
    l = digits ++ rest ∧ (∀ c ∈ digits, isDigit c = true) ∧ (∀ c ∈ rest.head?, c = stop) := by
  induction l generalizing digits rest with
  | nil =>
    obtain ⟨rfl, rfl⟩ : [] = digits ∧ [] = rest := by simpa [scanDigits] using h
    simp
  | cons c cs ih =>
    rw [scanDigits] at h
    split at h
    · rename_i hc
      obtain ⟨rfl, rfl⟩ : [] = digits ∧ c :: cs = rest := by simpa using h
      simpa using hc
    · split at h
      · rename_i hc
        obtain ⟨⟨digits', rest'⟩, hscan, he⟩ := Option.map_eq_some_iff.mp h
        obtain ⟨rfl, rfl⟩ : c :: digits' = digits ∧ rest' = rest := by simpa using he
        obtain ⟨hl, hdigits, hrest⟩ := ih hscan
        exact ⟨by rw [hl, List.cons_append], List.forall_mem_cons.mpr ⟨hc, hdigits⟩, hrest⟩
      · simp at h

/-- A byte that is no digit stays where it is when the buffer grows. -/
theorem scanDigits_append_of_none (h : scanDigits stop l = none) (more : Bytes) :
    scanDigits stop (l ++ more) = none := by
  induction l with
  | nil => simp [scanDigits] at h
  | cons c cs ih =>
    rw [scanDigits] at h
    rw [List.cons_append, scanDigits]
    split at h
    · simp at h
    · split at h
      · rename_i hne hc
        rw [if_neg hne, if_pos hc, ih (by simpa using h)]
        rfl
      · rename_i hne hc
        rw [if_neg hne, if_neg hc]

/-- So does the end of the digits. -/
theorem scanDigits_append_of_cons {c : UInt8} (hstop : isDigit stop = false)
    (h : scanDigits stop l = some (digits, c :: rest)) (more : Bytes) :
    scanDigits stop (l ++ more) = some (digits, c :: rest ++ more) := by
  obtain ⟨rfl, hdigits, hc⟩ := scanDigits_eq_some h
  obtain rfl : c = stop := hc c rfl
  rw [List.append_assoc]
  exact scanDigits_append_cons hstop hdigits (rest ++ more)

end Scan

theorem fromChars_eq_some {bound n : Nat} {digits : Bytes} :
    fromChars bound digits = some n ↔ digits ≠ [] ∧ value digits = n ∧ n < bound := by
  rw [fromChars]
  split
  · simp_all
  · split
    · rename_i hne hlt
      simp only [Option.some.injEq, ne_eq, hne, not_false_eq_true, true_and]
      exact ⟨fun h ↦ ⟨h, h ▸ hlt⟩, fun h ↦ h.1⟩
    · rename_i hne hge
      simp only [reduceCtorEq, ne_eq, hne, not_false_eq_true, true_and, false_iff, not_and]
      rintro rfl
      exact hge

/-! ## What `split_frame` accepts -/

/-- A frame up to the end of its body. -/
def headOf (digits body : Bytes) : Bytes :=
  beginString ++ (lengthTag ++ (digits ++ SOH :: body))

/-- The end of a frame. -/
def trailerOf (check : Bytes) : Bytes := checksumTag ++ (check ++ [SOH])

theorem length_headOf (digits body : Bytes) :
    (headOf digits body).length
      = beginString.length + lengthTag.length + digits.length + 1 + body.length := by
  simp only [headOf, List.length_append, List.length_cons]
  omega

theorem length_trailerOf {check : Bytes} (h : check.length = 3) : (trailerOf check).length = 7 := by
  simp [trailerOf, h, checksumTag, ascii]

/-- A trailer with the right checksum is accepted. -/
theorem splitTrailer_trailerOf {head check : Bytes} (rest : Bytes) (hcheck : check.length = 3)
    (hsum : readChecksum 0 check = some (checksum head)) :
    splitTrailer (head ++ (trailerOf check ++ rest)) head.length
      = .ok (head ++ trailerOf check) (head ++ trailerOf check).length := by
  have hlen := length_trailerOf hcheck
  have htake : ((head ++ (trailerOf check ++ rest)).drop head.length).take 7 = trailerOf check := by
    rw [List.drop_left, ← hlen, List.take_left]
  have hmid : ((trailerOf check).drop 3).take 3 = check := by
    show (check ++ [SOH]).take 3 = check
    rw [← hcheck, List.take_left]
  have hlast : (trailerOf check).drop 6 = [SOH] := by
    show (check ++ [SOH]).drop 3 = [SOH]
    rw [← hcheck, List.drop_left]
  have htotal : (head ++ trailerOf check).length = head.length + 7 := by
    rw [List.length_append, hlen]
  have hframe : (head ++ (trailerOf check ++ rest)).take (head.length + 7)
      = head ++ trailerOf check := by
    rw [← htotal, ← List.append_assoc, List.take_left]
  have henough : ¬(head ++ (trailerOf check ++ rest)).length < head.length + 7 := by
    simp only [List.length_append, hlen]; omega
  simp only [splitTrailer]
  rw [if_neg henough, htake, hmid, hlast, if_neg (by simp [trailerOf, checksumTag, ascii]), hsum,
    List.take_left]
  simp [hframe, htotal]

/-- What is accepted has one. -/
theorem of_splitTrailer {buf f : Bytes} {bodyEnd n : Nat} (h : splitTrailer buf bodyEnd = .ok f n) :
    ∃ head check rest, head.length = bodyEnd ∧ check.length = 3 ∧
      buf = head ++ (trailerOf check ++ rest) ∧ f = head ++ trailerOf check ∧ n = f.length ∧
      readChecksum 0 check = some (checksum head) := by
  simp only [splitTrailer] at h
  split at h
  · simp at h
  rename_i hlen
  split at h
  · simp at h
  rename_i htrailer
  rw [not_or, not_not, not_not] at htrailer
  split at h
  · simp at h
  rename_i got hgot
  split at h
  · simp at h
  rename_i hcheck
  obtain ⟨rfl, rfl⟩ : buf.take (bodyEnd + 7) = f ∧ bodyEnd + 7 = n := by simpa using h
  have htake : (buf.drop bodyEnd).take 7
      = trailerOf ((((buf.drop bodyEnd).take 7).drop 3).take 3) := by
    rw [trailerOf, ← htrailer.1, ← htrailer.2]
    conv_lhs => rw [← List.take_append_drop 3 ((buf.drop bodyEnd).take 7),
      ← List.take_append_drop 3 (((buf.drop bodyEnd).take 7).drop 3), List.drop_drop]
  have hf : buf.take (bodyEnd + 7) = buf.take bodyEnd
      ++ trailerOf ((((buf.drop bodyEnd).take 7).drop 3).take 3) := by
    rw [List.take_add, ← htake]
  refine ⟨buf.take bodyEnd, (((buf.drop bodyEnd).take 7).drop 3).take 3, buf.drop (bodyEnd + 7),
    ?_, ?_, ?_, hf, ?_, ?_⟩
  · rw [List.length_take]; omega
  · simp only [List.length_take, List.length_drop]; omega
  · rw [← List.append_assoc, ← hf, List.take_append_drop]
  · rw [List.length_take]; omega
  · rw [hgot, not_not.mp hcheck]

/-- What the trailer has to be. -/
theorem splitTrailer_eq_ok_iff {buf f : Bytes} {bodyEnd n : Nat} :
    splitTrailer buf bodyEnd = .ok f n ↔
      ∃ head check rest, head.length = bodyEnd ∧ check.length = 3 ∧
        buf = head ++ (trailerOf check ++ rest) ∧ f = head ++ trailerOf check ∧ n = f.length ∧
        readChecksum 0 check = some (checksum head) := by
  refine ⟨of_splitTrailer, ?_⟩
  rintro ⟨head, check, rest, rfl, hcheck, rfl, rfl, rfl, hsum⟩
  exact splitTrailer_trailerOf rest hcheck hsum

/-- What comes after `8=FIX.4.4`. -/
theorem splitLength_eq_ok_iff {buf rest f : Bytes} {n : Nat} :
    splitLength buf rest = .ok f n ↔
      ∃ digits body, rest = lengthTag ++ (digits ++ SOH :: body) ∧ digits ≠ [] ∧
        (∀ c ∈ digits, isDigit c = true) ∧ value digits ≤ 2 ^ 20 ∧
        splitTrailer buf (beginString.length + lengthTag.length + digits.length + 1 + value digits)
          = .ok f n := by
  constructor
  · intro h
    simp only [splitLength] at h
    split at h
    · simp at h
    split at h
    · simp at h
    rename_i htag
    split at h
    case h_1 => simp at h
    case h_2 => simp at h
    case h_3 digits c body hscan =>
      split at h
      case h_1 => simp at h
      case h_2 bodyLen hlen =>
        split at h
        · simp at h
        rename_i hcap
        obtain ⟨hne, rfl, -⟩ := fromChars_eq_some.mp hlen
        obtain ⟨hrest, hdigits, hstop⟩ := scanDigits_eq_some hscan
        obtain rfl : c = SOH := hstop c rfl
        refine ⟨digits, body, ?_, hne, hdigits, Nat.le_of_not_lt hcap, h⟩
        rw [← hrest]
        conv_lhs => rw [← List.take_append_drop lengthTag.length rest, not_not.mp htag]
  · rintro ⟨digits, body, rfl, hne, hdigits, hcap, h⟩
    have hfrom : fromChars (2 ^ 64) digits = some (value digits) :=
      fromChars_eq_some.mpr ⟨hne, rfl, by omega⟩
    rw [splitLength, if_neg (by simp only [List.length_append]; omega), List.take_left,
      if_neg (by simp), List.drop_left, scanDigits_append_cons isDigit_SOH hdigits]
    simp only [hfrom]
    rw [if_neg (Nat.not_lt_of_le hcap), h]

/-- **What a frame is**: the bytes `split_frame` accepts at the front of a buffer. -/
theorem splitFrame_eq_ok_iff {buf f : Bytes} {n : Nat} :
    splitFrame buf = .ok f n ↔
      ∃ digits body check rest, buf = headOf digits body ++ (trailerOf check ++ rest) ∧
        f = headOf digits body ++ trailerOf check ∧ n = f.length ∧
        digits ≠ [] ∧ (∀ c ∈ digits, isDigit c = true) ∧ value digits = body.length ∧
        body.length ≤ 2 ^ 20 ∧ check.length = 3 ∧
        readChecksum 0 check = some (checksum (headOf digits body)) := by
  constructor
  · intro h
    simp only [splitFrame] at h
    split at h
    · simp at h
    split at h
    · simp at h
    rename_i hbegin
    obtain ⟨digits, tail, hdrop, hne, hdigits, hcap, h⟩ := splitLength_eq_ok_iff.mp h
    obtain ⟨head, check, rest, hlen, hcheck, hbuf, rfl, hn, hsum⟩ := splitTrailer_eq_ok_iff.mp h
    -- the two ways of reading the buffer meet in the bytes between the length and the trailer
    have hwhole : buf = headOf digits [] ++ tail := by
      rw [← List.take_append_drop beginString.length buf, not_not.mp hbegin, hdrop]
      simp [headOf]
    have hhead : head = headOf digits (tail.take (value digits)) := by
      have htake : head = buf.take head.length := by rw [hbuf, List.take_left]
      have hshort : (headOf digits []).length + value digits = head.length := by
        rw [length_headOf, hlen, List.length_nil]
      rw [htake, hwhole, ← hshort, List.take_length_add_append]
      simp [headOf]
    have hbody : (tail.take (value digits)).length = value digits := by
      have := congrArg List.length hhead
      rw [length_headOf, hlen] at this
      omega
    subst hhead
    exact ⟨digits, tail.take (value digits), check, rest, hbuf, rfl, hn, hne, hdigits, hbody.symm,
      by rw [hbody]; exact hcap, hcheck, hsum⟩
  · rintro ⟨digits, body, check, rest, rfl, rfl, rfl, hne, hdigits, hvalue, hcap, hcheck, hsum⟩
    have hsplit : headOf digits body ++ (trailerOf check ++ rest)
        = beginString ++ (lengthTag ++ (digits ++ SOH :: (body ++ (trailerOf check ++ rest)))) := by
      simp [headOf]
    rw [splitFrame, if_neg (by rw [hsplit, List.length_append]; omega), hsplit, List.take_left,
      if_neg (by simp), List.drop_left, ← hsplit]
    refine splitLength_eq_ok_iff.mpr ⟨digits, _, rfl, hne, hdigits, hvalue ▸ hcap, ?_⟩
    rw [hvalue, ← length_headOf]
    exact splitTrailer_eq_ok_iff.mpr ⟨_, check, rest, rfl, hcheck, rfl, rfl, rfl, hsum⟩

/-- A buffer that does not have the trailer where the length says is no frame. -/
theorem splitFrame_headOf_ne_ok {digits body tail : Bytes} {c : UInt8}
    (hdigits : ∀ c ∈ digits, isDigit c = true) (hc : (body ++ tail)[value digits]? = some c)
    (hne : c ≠ '1'.toUInt8) (f : Bytes) (n : Nat) :
    splitFrame (headOf digits body ++ tail) ≠ .ok f n := by
  intro h
  obtain ⟨digits', body', check, rest, hbuf, -, -, -, hdigits', hvalue, -⟩ :=
    splitFrame_eq_ok_iff.mp h
  have hscan : digits ++ SOH :: (body ++ tail)
      = digits' ++ SOH :: (body' ++ (trailerOf check ++ rest)) := by
    simpa [headOf] using hbuf
  have hsame := congrArg (scanDigits SOH) hscan
  rw [scanDigits_append_cons isDigit_SOH hdigits, scanDigits_append_cons isDigit_SOH hdigits',
    Option.some_inj, Prod.mk.injEq, List.cons.injEq] at hsame
  obtain ⟨rfl, -, htail⟩ := hsame
  rw [htail, hvalue, List.getElem?_append_right (Nat.le_refl _), Nat.sub_self] at hc
  obtain rfl : '1'.toUInt8 = c := Option.some.inj hc
  exact hne rfl

/-! ## A growing buffer -/

theorem splitTrailer_append {buf : Bytes} {bodyEnd : Nat}
    (h : splitTrailer buf bodyEnd ≠ .incomplete) (more : Bytes) :
    splitTrailer (buf ++ more) bodyEnd = splitTrailer buf bodyEnd := by
  have hlen : ¬buf.length < bodyEnd + 7 := fun hlt ↦ h (by rw [splitTrailer, if_pos hlt])
  have hlen' : ¬(buf ++ more).length < bodyEnd + 7 := by rw [List.length_append]; omega
  have htrailer : ((buf ++ more).drop bodyEnd).take 7 = (buf.drop bodyEnd).take 7 := by
    rw [List.drop_append_of_le_length (by omega),
      List.take_append_of_le_length (by rw [List.length_drop]; omega)]
  simp only [splitTrailer]
  rw [if_neg hlen, if_neg hlen', htrailer, List.take_append_of_le_length (by omega),
    List.take_append_of_le_length (by omega)]

theorem splitLength_append {buf rest : Bytes} (h : splitLength buf rest ≠ .incomplete)
    (more : Bytes) : splitLength (buf ++ more) (rest ++ more) = splitLength buf rest := by
  rw [splitLength] at h ⊢
  split at h
  · exact absurd rfl h
  rename_i hlen
  conv_rhs => rw [splitLength, if_neg hlen]
  rw [if_neg (by rw [List.length_append]; omega), List.take_append_of_le_length (by omega),
    List.drop_append_of_le_length (by omega)]
  split at h
  · rename_i htag
    rw [if_pos htag, if_pos htag]
  rename_i htag
  rw [if_neg htag, if_neg htag]
  split at h
  case h_1 hscan => rw [scanDigits_append_of_none hscan]
  case h_2 => exact absurd rfl h
  case h_3 digits c body hscan =>
    rw [scanDigits_append_of_cons isDigit_SOH hscan]
    dsimp only [List.cons_append]
    split at h
    case h_1 => rfl
    case h_2 bodyLen _ =>
      split at h
      · rename_i hcap
        rw [if_pos hcap, if_pos hcap]
      · rename_i hcap
        rw [if_neg hcap, if_neg hcap, splitTrailer_append h]

/-- **A decision is final**: bytes that arrive later do not change it. -/
theorem splitFrame_append {buf : Bytes} (h : splitFrame buf ≠ .incomplete) (more : Bytes) :
    splitFrame (buf ++ more) = splitFrame buf := by
  rw [splitFrame] at h ⊢
  split at h
  · exact absurd rfl h
  rename_i hlen
  conv_rhs => rw [splitFrame, if_neg hlen]
  rw [if_neg (by rw [List.length_append]; omega), List.take_append_of_le_length (by omega),
    List.drop_append_of_le_length (by omega)]
  split at h
  · rename_i hbegin
    rw [if_pos hbegin, if_pos hbegin]
  · rename_i hbegin
    rw [if_neg hbegin, if_neg hbegin, splitLength_append h]

theorem splitFrame_bounds {buf f : Bytes} {n : Nat} (h : splitFrame buf = .ok f n) :
    0 < n ∧ n ≤ buf.length ∧ f = buf.take n := by
  obtain ⟨digits, body, check, rest, rfl, rfl, rfl, -, -, -, -, hcheck, -⟩ :=
    splitFrame_eq_ok_iff.mp h
  have hpos : (headOf digits body ++ trailerOf check).length
      = (headOf digits body).length + 7 := by
    rw [List.length_append, length_trailerOf hcheck]
  refine ⟨by omega, ?_, ?_⟩
  · simp only [List.length_append]; omega
  · rw [← List.append_assoc, List.take_left]

/-- A frame that is not all there yet is waited for. -/
theorem splitFrame_of_append {p q : Bytes} (h : splitFrame (p ++ q) = .ok (p ++ q) (p ++ q).length)
    (hq : q ≠ []) : splitFrame p = .incomplete := by
  by_contra hne
  have hp := (splitFrame_append hne q).symm.trans h
  have hle := (splitFrame_bounds hp).2.1
  have := List.length_pos_iff.mpr hq
  rw [List.length_append] at hle
  omega

/-- `split_frame`, as a way of telling frames. -/
def splitter : Splitter UInt8 where
  split := splitFrame
  split_nil := rfl
  ok_bounds := splitFrame_bounds
  ok_append more h := (splitFrame_append (by rw [h]; simp) more).trans h
  malformed_append more h := (splitFrame_append (by rw [h]; simp) more).trans h

/-- The receive loop of a session, without what it does with the frames: append a chunk to `rx_buf`,
drain it, stop for good at the first malformed frame. -/
def receive (chunks : List Bytes) : Framing.Stream UInt8 := Stream.feed splitter chunks

/-- **How a stream is cut into chunks makes no difference**: the frames and the outcome are those of
the stream in one piece, which is drained frame by frame until `split_frame` has none.  Draining
ends, because a frame takes some of the buffer and no more than that, and what has been received is
in the frames or still in the buffer; after a malformed frame nothing is received. -/
theorem receive_eq_drain (chunks : List Bytes) :
    (receive chunks).frames = (splitter.drain chunks.flatten).frames ∧
      (receive chunks).status = (splitter.drain chunks.flatten).status ∧
      (∀ buf f n, splitFrame buf = .ok f n → splitter.drain buf
        = { splitter.drain (buf.drop n) with
            frames := f :: (splitter.drain (buf.drop n)).frames }) ∧
      (∀ buf, splitFrame buf = .incomplete → splitter.drain buf = ⟨[], buf, .incomplete⟩) ∧
      (∀ buf, splitFrame buf = .malformed → splitter.drain buf = ⟨[], buf, .malformed⟩) ∧
      (∀ buf f n, splitFrame buf = .ok f n → 0 < n ∧ n ≤ buf.length) ∧
      (receive chunks).frames.flatten ++ (receive chunks).buffer = (receive chunks).received ∧
      ∃ more, chunks.flatten = (receive chunks).received ++ more ∧
        ((receive chunks).status = .incomplete → more = []) := by
  obtain ⟨hframes, hstatus⟩ := Stream.feed_eq_drain (s := splitter) chunks
  refine ⟨hframes, hstatus, fun _ _ _ h ↦ Splitter.drain_ok h,
    fun _ h ↦ Splitter.drain_incomplete h, fun _ h ↦ Splitter.drain_malformed h, ?_,
      Stream.flatten_feed chunks, ?_⟩
  · intro buf f n h
    exact ⟨(splitFrame_bounds h).1, (splitFrame_bounds h).2.1⟩
  · exact Stream.received_foldl Stream.start chunks

/-! ## What `parse_frame` accepts -/

/-- The loop of `parse_frame` takes one field off. -/
theorem parseFields_field {digits text : Bytes} (hne : digits ≠ [])
    (hdigits : ∀ c ∈ digits, isDigit c = true) (htag : value digits < 2 ^ 31) (htext : SOH ∉ text)
    (fuel : Nat) (rest : Bytes) :
    parseFields (fuel + 1) (digits ++ equals :: (text ++ SOH :: rest))
      = (parseFields fuel rest).map (⟨value digits, text⟩ :: ·) := by
  have hnot : ∀ c ∈ text, decide (c ≠ SOH) = true := by
    intro c hc
    simp only [ne_eq, decide_not, Bool.not_eq_eq_eq_not, Bool.not_true, decide_eq_false_iff_not]
    rintro rfl
    exact htext hc
  have hfrom : fromChars (2 ^ 31) digits = some (value digits) :=
    fromChars_eq_some.mpr ⟨hne, rfl, htag⟩
  obtain ⟨c, cs, hcs⟩ : ∃ c cs, digits ++ equals :: (text ++ SOH :: rest) = c :: cs :=
    List.exists_cons_of_ne_nil (by simp)
  rw [hcs, parseFields, ← hcs, scanDigits_append_cons isDigit_equals hdigits]
  simp only [hfrom]
  rw [List.dropWhile_append_of_pos hnot, List.takeWhile_append_of_pos hnot]
  simp

theorem soh_not_mem_of_parseFields {fuel : Nat} {b : Bytes} {fields : List Field}
    (h : parseFields fuel b = some fields) : ∀ f ∈ fields, SOH ∉ f.value := by
  induction fuel generalizing b fields with
  | zero =>
    cases b with
    | nil =>
      obtain rfl := Option.some.inj h
      simp
    | cons c cs => simp [parseFields] at h
  | succ fuel ih =>
    cases b with
    | nil =>
      obtain rfl := Option.some.inj h
      simp
    | cons c cs =>
      rw [parseFields] at h
      split at h
      · simp at h
      · simp at h
      split at h
      · simp at h
      split at h
      · simp at h
      obtain ⟨fields, hrest, rfl⟩ := Option.map_eq_some_iff.mp h
      refine List.forall_mem_cons.mpr ⟨fun hmem ↦ ?_, ih hrest⟩
      simpa using List.mem_takeWhile_imp hmem

/-- **No value contains the byte that ends it.** -/
theorem Message.soh_not_mem_get {frame : Bytes} {m : Message} (h : parseFrame frame = some m)
    (tag : Int) : SOH ∉ m.get tag := by
  obtain ⟨fields, hfields, rfl⟩ := Option.map_eq_some_iff.mp h
  rw [Message.get]
  split
  · rename_i f hf
    exact soh_not_mem_of_parseFields hfields f (List.mem_of_find?_eq_some hf)
  · simp

end Fix

end MatchingEngine
