import MatchingEngine.Backtest.Csv
import MatchingEngine.Util.Records

/-!
# Tick files that others have written

`save_binary` writes the memory of an array of ticks, and `load_binary` reads it back.  A tick has
forty bytes, two of which are padding: they carry nothing, but they are part of the image.  The file
and the image determine each other, and only the size of a file can be wrong (`loadBinary_exact`).

`load_csv` takes whatever it finds.  Lines that are not ticks are skipped, numbers that an unsigned
type does not have are taken modulo its size, and unknown letters become an `Add` or a buy.  All of
that happens once: what has been loaded can be saved, as text or as an image, and loaded again
without another change (`loadCsv_stable`).
-/

set_option autoImplicit false

namespace MatchingEngine

namespace Backtest

open Records Scanning

/-! ## Binary files -/

/-- A tick in memory: with the padding behind `side`. -/
structure TickImage where
  tick : Tick
  padding : UInt8 × UInt8

/-- `sizeof(Tick)`. -/
def tickSize : Nat := 40

/-- The bytes of a tick, in the order of the fields. -/
def TickImage.bytes (x : TickImage) : List UInt8 :=
  encode 8 x.tick.tsNs ++ (encode 4 x.tick.symbol ++ (x.tick.event :: x.tick.side :: x.padding.1 ::
    x.padding.2 :: (encodeInt 8 x.tick.price ++ (encodeInt 8 x.tick.qty ++ encode 8 x.tick.extId))))

/-- What forty bytes are as a tick. -/
def TickImage.ofBytes (bs : List UInt8) : TickImage :=
  { tick :=
      { tsNs := decode (field 0 8 bs)
        symbol := decode (field 8 4 bs)
        event := bs.getD 12 0
        side := bs.getD 13 0
        price := decodeInt (field 16 8 bs)
        qty := decodeInt (field 24 8 bs)
        extId := decode (field 32 8 bs) }
    padding := (bs.getD 14 0, bs.getD 15 0) }

def saveBinary (xs : List TickImage) : List UInt8 := xs.flatMap TickImage.bytes

def loadBinary (file : List UInt8) : Except String (List TickImage) :=
  if file.length % tickSize ≠ 0 then .error "load_binary: size not multiple of Tick"
  else .ok ((pieces tickSize (file.length / tickSize) file).map TickImage.ofBytes)

theorem length_bytes (x : TickImage) : x.bytes.length = tickSize := by
  simp [TickImage.bytes, tickSize]

theorem holdsInt_iff {n : Int} : HoldsInt 8 n ↔ -2 ^ 63 ≤ n ∧ n < 2 ^ 63 := by
  rw [HoldsInt]
  omega

/-- **A tick is read as it was written.** -/
theorem ofBytes_bytes {x : TickImage} (h : x.tick.InRange) : TickImage.ofBytes x.bytes = x := by
  obtain ⟨⟨ts, sym, ev, sd, px, qy, ext⟩, ⟨p₀, p₁⟩⟩ := x
  have hts : ts < 256 ^ 8 := h.tsNs
  have hsym : sym < 256 ^ 4 := h.symbol
  have hext : ext < 256 ^ 8 := h.extId
  have hpx := decodeInt_encodeInt (holdsInt_iff.mpr h.price)
  have hqy := decodeInt_encodeInt (holdsInt_iff.mpr h.qty)
  simp [TickImage.ofBytes, TickImage.bytes, field, List.drop_append, List.take_of_length_le,
    List.drop_of_length_le, decode_encode hts, decode_encode hsym, decode_encode hext, hpx, hqy]

/-- **Bytes are written as they were read.** -/
theorem bytes_ofBytes {bs : List UInt8} (h : bs.length = tickSize) :
    (TickImage.ofBytes bs).bytes = bs := by
  rw [tickSize] at h
  have hend : bs.drop 40 = [] := List.drop_of_length_le (by omega)
  rw [TickImage.bytes, TickImage.ofBytes]
  dsimp only
  rw [encode_field (by omega), encode_field (by omega), encodeInt_field (by omega),
    encodeInt_field (by omega), encode_field (by omega)]
  symm
  calc bs
    _ = field 0 8 bs ++ bs.drop 8 := drop_eq_field_append 0 8 bs
    _ = field 0 8 bs ++ (field 8 4 bs ++ bs.drop 12) := by rw [drop_eq_field_append 8 4 bs]
    _ = field 0 8 bs ++ (field 8 4 bs ++ (bs.getD 12 0 :: bs.getD 13 0 :: bs.getD 14 0 ::
          bs.getD 15 0 :: bs.drop 16)) := by
      rw [drop_eq_byte_cons (by omega : 12 < bs.length),
        drop_eq_byte_cons (by omega : 13 < bs.length),
        drop_eq_byte_cons (by omega : 14 < bs.length),
        drop_eq_byte_cons (by omega : 15 < bs.length)]
    _ = _ := by
      rw [drop_eq_field_append 16 8 bs, drop_eq_field_append 24 8 bs, drop_eq_field_append 32 8 bs,
        hend, List.append_nil]

theorem inRange_ofBytes {bs : List UInt8} (h : bs.length = tickSize) :
    (TickImage.ofBytes bs).tick.InRange := by
  rw [tickSize] at h
  exact
    { tsNs := decode_field_lt (by omega)
      symbol := decode_field_lt (by omega)
      price := holdsInt_iff.mp (holdsInt_field (by decide) (by omega))
      qty := holdsInt_iff.mp (holdsInt_field (by decide) (by omega))
      extId := decode_field_lt (by omega) }

theorem length_saveBinary (xs : List TickImage) :
    (saveBinary xs).length = tickSize * xs.length := by
  rw [saveBinary, List.length_flatMap, List.map_congr_left fun x _ ↦ length_bytes x]
  simp [Nat.mul_comm]

theorem loadBinary_saveBinary {xs : List TickImage} (h : ∀ x ∈ xs, x.tick.InRange) :
    loadBinary (saveBinary xs) = .ok xs := by
  have hsize : 0 < tickSize := by decide
  rw [loadBinary, length_saveBinary, if_neg (by simp), Nat.mul_div_cancel_left _ hsize, saveBinary,
    pieces_flatMap length_bytes, List.map_map, Except.ok.injEq]
  exact (List.map_congr_left fun x hx ↦ ofBytes_bytes (h x hx)).trans (List.map_id xs)

theorem saveBinary_of_loadBinary {file : List UInt8} {xs : List TickImage}
    (h : loadBinary file = .ok xs) : saveBinary xs = file ∧ ∀ x ∈ xs, x.tick.InRange := by
  rw [loadBinary] at h
  split at h
  · simp at h
  · rename_i hdiv
    have hlen : file.length = tickSize * (file.length / tickSize) :=
      (Nat.mul_div_cancel' (Nat.dvd_of_mod_eq_zero (not_not.mp hdiv))).symm
    have hpieces := length_of_mem_pieces hlen
    rw [Except.ok.injEq] at h
    subst h
    constructor
    · rw [saveBinary, List.flatMap_map, List.flatMap_def,
        List.map_congr_left fun p hp ↦ bytes_ofBytes (hpieces p hp), List.map_id',
        flatten_pieces hlen]
    · intro x hx
      obtain ⟨p, hp, rfl⟩ := List.mem_map.mp hx
      exact inRange_ofBytes (hpieces p hp)

/-- **A file and what is loaded from it determine each other**, byte for byte.  Only a size that is
not a multiple of a tick's is refused. -/
theorem loadBinary_exact (file : List UInt8) (xs : List TickImage) :
    (loadBinary file = .ok xs ↔ saveBinary xs = file ∧ ∀ x ∈ xs, x.tick.InRange) ∧
      ((∃ e, loadBinary file = .error e) ↔ ¬ tickSize ∣ file.length) := by
  refine ⟨⟨saveBinary_of_loadBinary, ?_⟩, ?_⟩
  · rintro ⟨rfl, h⟩
    exact loadBinary_saveBinary h
  · rw [loadBinary, Nat.dvd_iff_mod_eq_zero]
    split <;> simp_all

-- one tick with the extremes of its fields is forty bytes, and thirty-nine are refused
example : (loadBinary (TickImage.bytes ⟨extremeTick, (1, 2)⟩)).toOption.map List.length = some 1 ∧
    (loadBinary ((TickImage.bytes ⟨extremeTick, (1, 2)⟩).drop 1)).toOption.map List.length
      = none := by
  decide +kernel

/-! ## Text files -/

/-- What is read from a line has the ranges of its types, and no other event or side than there
are. -/
theorem inRange_of_readTick {line : List UInt8} {t : Tick} (h : readTick line = some (some t)) :
    t.InRange ∧ t.normalised = t := by
  rw [readTick, Option.bind_eq_bind, Option.bind_eq_some_iff] at h
  obtain ⟨vs, hvs, h⟩ := h
  split at h
  · obtain rfl := Option.some.inj (Option.some.inj h)
    obtain ⟨hts, hsym, hpx, hqy, hext, -⟩ := fits_of_scan hvs rfl
    have hnat : ∀ {bits : Nat} {n : Int}, IntType.Holds ⟨false, bits⟩ n → n.toNat < 2 ^ bits := by
      rintro bits n ⟨hlo, hhi⟩
      simp only [IntType.min, IntType.bound, Bool.false_eq_true, if_false] at hlo hhi
      exact_mod_cast (Int.toNat_of_nonneg hlo).symm ▸ hhi
    refine ⟨⟨hnat hts, hnat hsym, hpx, hqy, hnat hext⟩, ?_⟩
    simp only [Tick.normalised, Tick.mk.injEq, true_and, and_true]
    constructor
    · split_ifs <;> simp_all
    · split_ifs <;> simp_all
  · simp at h

theorem inRange_of_loadLines {lines : List (List UInt8)} {ts : List Tick}
    (h : loadLines lines = some ts) : ∀ t ∈ ts, t.InRange ∧ t.normalised = t := by
  induction lines generalizing ts with
  | nil =>
    obtain rfl := Option.some.inj h
    simp
  | cons line rest ih =>
    rw [loadLines] at h
    split at h
    · exact ih h
    · simp only [Option.bind_eq_bind, Option.bind_eq_some_iff] at h
      obtain ⟨x, hx, ts', hts', he⟩ := h
      obtain rfl := Option.some.inj he
      refine List.forall_mem_append.mpr ⟨fun t ht ↦ ?_, ih hts'⟩
      rw [Option.mem_toList] at ht
      exact inRange_of_readTick (by rw [hx, ht])

theorem inRange_of_loadCsv {file : List UInt8} {ts : List Tick} (h : loadCsv file = some ts) :
    ∀ t ∈ ts, t.InRange ∧ t.normalised = t := by
  rw [loadCsv] at h
  split at h
  · obtain rfl := Option.some.inj h
    simp
  · split at h
    · exact inRange_of_loadLines h
    · exact inRange_of_loadLines h

/-- The lines of ticks are read one after the other. -/
theorem loadLines_csvLine {ts : List Tick} (h : ∀ t ∈ ts, t.InRange) :
    loadLines (ts.map csvLine) = some (ts.map Tick.normalised) := by
  induction ts with
  | nil => rfl
  | cons t ts ih =>
    obtain ⟨ht, hts⟩ := List.forall_mem_cons.mp h
    have hne : csvLine t ≠ [] := by simp [csvLine]
    rw [List.map_cons, loadLines, if_neg hne, readTick_csvLine ht, ih hts]
    rfl

/-- Ticks with no other letters than the three events and two sides are saved as they are. -/
theorem loadCsv_saveCsv_self {ts : List Tick} (h : ∀ t ∈ ts, t.InRange ∧ t.normalised = t) :
    loadCsv (saveCsv ts) = some ts := by
  have hheader : Scanning.bytes ['t', 's', '_', 'n', 's'] <:+: csvHeader :=
    ⟨[], csvHeader.drop 5, rfl⟩
  rw [loadCsv, lines_saveCsv]
  simp only [if_pos hheader]
  rw [loadLines_csvLine fun t ht ↦ (h t ht).1, Option.some_inj]
  exact (List.map_congr_left fun t ht ↦ (h t ht).2).trans (List.map_id ts)

/-- **Loading settles what the ticks are.**  Whatever text a file holds, what `load_csv` makes of it
is loaded again from a file in either format. -/
theorem loadCsv_stable {file : List UInt8} {ts : List Tick} (h : loadCsv file = some ts) :
    loadCsv (saveCsv ts) = some ts ∧
      ∀ padding : Tick → UInt8 × UInt8,
        loadBinary (saveBinary (ts.map fun t ↦ ⟨t, padding t⟩))
          = .ok (ts.map fun t ↦ ⟨t, padding t⟩) := by
  have hall := inRange_of_loadCsv h
  refine ⟨loadCsv_saveCsv_self hall, fun padding ↦ loadBinary_saveBinary fun x hx ↦ ?_⟩
  obtain ⟨t, ht, rfl⟩ := List.mem_map.mp hx
  exact (hall t ht).1

/-- A file without a header, with a line that is no tick, an unknown letter and a negative id. -/
theorem loadCsv_stable_stray_line :
    ∃ ts, loadCsv (Scanning.bytes ['#', '\n', '1', ',', '0', ',', 'X', ',', 'B', ',', '-', '5', ',',
        '3', ',', '-', '1', '\n']) = some ts ∧ ts.map Tick.extId = [2 ^ 64 - 1] ∧
      loadCsv (saveCsv ts) = some ts := by
  have hread : (loadCsv (Scanning.bytes ['#', '\n', '1', ',', '0', ',', 'X', ',', 'B', ',', '-',
      '5', ',', '3', ',', '-', '1', '\n'])).map (List.map Tick.extId) = some [2 ^ 64 - 1] := by
    decide +kernel
  obtain ⟨ts, hts, hid⟩ := Option.map_eq_some_iff.mp hread
  exact ⟨ts, hts, hid, (loadCsv_stable hts).1⟩

end Backtest

end MatchingEngine
