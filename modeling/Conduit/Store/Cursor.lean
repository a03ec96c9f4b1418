import Conduit.Core.Decimal
import Conduit.Store.Listing

/-!
# Reading cursors back

A cursor that `ListJobs` hands out is the position of a row.  The number in it is the
`int64` that `UnixMicro` computes, which wraps around for the last years a `timestamptz` can
hold; pgx counts from the year 2000 in the same arithmetic, so that the position comes back
exactly for every value of the column.
-/

namespace Conduit.JobListing

open Models

/-! ## The number -/

theorem fitsInt_int64 (value : ℤ) : Cron.fitsInt (int64 value) = true := by
  have hlow := Int.le_bmod (x := value) (m := 2 ^ 64) (by decide)
  have hhigh := Int.bmod_lt (x := value) (m := 2 ^ 64) (by decide)
  rw [Cron.fitsInt, int64, decide_eq_true_eq]
  omega

theorem decimal_repr (value : ℕ) : Cron.decimal value.repr.toList = some value := by
  have hdigits : value.repr.toList.all Char.isDigit = true := by
    rw [List.all_eq_true]
    intro char hchar
    exact Decimal.isDigit_of_mem_repr hchar
  have hvalue : value.repr.toList.foldl
      (fun sofar digit => 10 * sofar + (digit.toNat - 48)) 0 = value := by
    rw [Nat.toList_repr]
    exact Nat.ofDigitChars_ten_toDigits
  unfold Cron.decimal
  split
  · rename_i hempty
    rw [Nat.toList_repr] at hempty
    exact absurd hempty Nat.toDigits_ne_nil
  · rw [if_pos hdigits, hvalue]

/-- A number without a sign does not start with one. -/
theorem isDigit_head_repr {value : ℕ} {char : Char} {rest : List Char}
    (htext : value.repr.toList = char :: rest) : char.isDigit = true := by
  have hmem : char ∈ value.repr.toList := by
    rw [htext]
    exact List.mem_cons_self
  exact Decimal.isDigit_of_mem_repr hmem

/-- `Atoi` reads back what `%d` wrote. -/
theorem atoi_toString {value : ℤ} (hfits : Cron.fitsInt value = true) :
    Cron.atoi (toString value).toList = some value := by
  rcases Decimal.toString_eq value with ⟨hvalue, htext⟩ | ⟨hvalue, htext⟩
  · have hmagnitude : Int.ofNat value.toNat = value := Int.toNat_of_nonneg hvalue
    rw [htext]
    unfold Cron.atoi
    split
    · rename_i hsign
      exact absurd (isDigit_head_repr hsign) (by decide)
    · rename_i hsign
      exact absurd (isDigit_head_repr hsign) (by decide)
    · rw [decimal_repr, Option.map_some, hmagnitude, Option.filter_some, if_pos hfits]
  · have hmagnitude : -((-value).toNat : ℤ) = value := by omega
    rw [htext]
    simp only [Cron.atoi]
    rw [decimal_repr]
    change Option.filter Cron.fitsInt (some (-((-value).toNat : ℤ))) = some value
    rw [hmagnitude, Option.filter_some, if_pos hfits]

/-! ## The text -/

theorem utf8_append (first second : String) :
    utf8 (first ++ second) = utf8 first ++ utf8 second := by
  rw [utf8, String.toList_append, List.flatMap_append]
  rfl

/-- ASCII text is one byte for each character. -/
theorem utf8_of_ascii {text : String} (hascii : ∀ char ∈ text.toList, char.toNat < 128) :
    utf8 text = text.toList.map fun char => UInt8.ofNat char.toNat := by
  rw [utf8]
  generalize text.toList = chars at hascii ⊢
  induction chars with
  | nil => rfl
  | cons char rest ih =>
      obtain ⟨hchar, hrest⟩ := List.forall_mem_cons.mp hascii
      have hsize : char.utf8Size = 1 := by
        rw [Char.utf8Size_eq_one_iff, UInt32.le_iff_toNat_le]
        exact Nat.le_of_lt_succ hchar
      rw [List.flatMap_cons, String.utf8EncodeChar_eq_singleton hsize, ih hrest]
      rfl

theorem textParameter_utf8 {text : String} (htext : '\x00' ∉ text.toList) :
    textParameter (utf8 text) = some text := by
  have hbytes : (⟨(utf8 text).toArray⟩ : ByteArray) = text.toByteArray := by
    rw [← String.utf8Encode_toList]
    exact ByteArray.ext List.data_toByteArray.symm
  have hvalid : String.fromUTF8? text.toByteArray = some text := by
    rw [String.fromUTF8?, dif_pos text.isValidUTF8]
    rfl
  rw [textParameter, hbytes, hvalid, Option.filter_some, if_pos (decide_eq_true htext)]

theorem toNat_of_mem_toString {value : ℤ} {char : Char}
    (hchar : char ∈ (toString value).toList) : char.toNat < 124 := by
  rcases Decimal.mem_toString hchar with hdigit | rfl
  · have hnine : char.toNat ≤ 57 := (Char.isDigit_iff_toNat.mp hdigit).2
    omega
  · decide

theorem utf8_toString (value : ℤ) :
    utf8 (toString value) = (toString value).toList.map fun char => UInt8.ofNat char.toNat := by
  apply utf8_of_ascii
  intro char hchar
  have := toNat_of_mem_toString hchar
  omega

theorem ne_separator_of_mem_toString {value : ℤ} {byte : UInt8}
    (hbyte : byte ∈ utf8 (toString value)) : byte ≠ separator := by
  rw [utf8_toString] at hbyte
  obtain ⟨char, hchar, rfl⟩ := List.mem_map.mp hbyte
  have hless := toNat_of_mem_toString hchar
  intro hseparator
  have hcode := congrArg UInt8.toNat hseparator
  rw [UInt8.toNat_ofNat', show separator.toNat = 124 from rfl] at hcode
  omega

theorem chars_utf8_toString (value : ℤ) :
    (utf8 (toString value)).map (fun byte => Char.ofNat byte.toNat) =
      (toString value).toList := by
  rw [utf8_toString, List.map_map]
  apply (List.map_congr_left _).trans (List.map_id _)
  intro char hchar
  have hless := toNat_of_mem_toString hchar
  change Char.ofNat (UInt8.ofNat char.toNat).toNat = char
  rw [UInt8.toNat_ofNat', Nat.mod_eq_of_lt (by omega), Char.ofNat_toNat]

/-- The cursor of an id of any bytes, which is what a Go string holds. -/
def encodeCursorBytes (instant : ℤ) (id : List UInt8) : String :=
  String.ofList (Base64.encode (utf8 (toString (unixMicro instant)) ++ separator :: id))

theorem encodeCursor_eq (instant : ℤ) (id : String) :
    encodeCursor instant id = encodeCursorBytes instant (utf8 id) := by
  rw [encodeCursor, encodeCursorBytes, utf8_append, utf8_append, List.append_assoc]
  rfl

theorem decodeCursor_encodeCursorBytes (instant : ℤ) (id : List UInt8) :
    decodeCursor (encodeCursorBytes instant id) =
      .ok (ofUnixMicro (unixMicro instant), id) := by
  have hbefore : ∀ byte ∈ utf8 (toString (unixMicro instant)),
      decide (byte ≠ separator) = true :=
    fun _ hbyte => decide_eq_true (ne_separator_of_mem_toString hbyte)
  have hread : Cron.atoi (toString (unixMicro instant)).toList = some (unixMicro instant) :=
    atoi_toString (fitsInt_int64 _)
  rw [decodeCursor, encodeCursorBytes, String.toList_ofList, Base64.decode_encode]
  dsimp only
  rw [if_pos (List.mem_append_right _ List.mem_cons_self)]
  rw [List.takeWhile_append_of_pos hbefore, List.dropWhile_append_of_pos hbefore,
    List.takeWhile_cons_of_neg (by decide), List.dropWhile_cons_of_neg (by decide),
    List.append_nil, chars_utf8_toString, hread]
  rfl

theorem decodeCursor_encodeCursor (instant : ℤ) (id : String) :
    decodeCursor (encodeCursor instant id) =
      .ok (ofUnixMicro (unixMicro instant), utf8 id) := by
  rw [encodeCursor_eq, decodeCursor_encodeCursorBytes]

/-- An instant that `UnixMicro` can count comes back rounded down to a microsecond. -/
theorem ofUnixMicro_unixMicro {instant : ℤ}
    (hfits : Cron.fitsInt (instant / 1000 - 62135596800000000) = true) :
    ofUnixMicro (unixMicro instant) = timestamptz instant := by
  rw [Cron.fitsInt, decide_eq_true_eq] at hfits
  have hwhole : int64 (instant / 1000 - 62135596800000000) =
      instant / 1000 - 62135596800000000 := by
    rw [int64, Int.bmod_eq_of_le] <;> omega
  rw [unixMicro, hwhole, ofUnixMicro, sub_add_cancel, timestamptz]

/-! ## What is accepted -/

def digitsValue (digits : List UInt8) : ℕ :=
  digits.foldl (fun value digit => 10 * value + (digit.toNat - 48)) 0

/-- A decimal of an `int64`: a sign or none, digits, and a value in range. -/
def Int64Decimal (number : List UInt8) (value : ℤ) : Prop :=
  ∃ digits : List UInt8, digits ≠ [] ∧
    (∀ digit ∈ digits, 48 ≤ digit.toNat ∧ digit.toNat ≤ 57) ∧
    (number = 45 :: digits ∧ value = -digitsValue digits ∨
      (number = digits ∨ number = 43 :: digits) ∧ value = digitsValue digits) ∧
    -2 ^ 63 ≤ value ∧ value < 2 ^ 63

theorem toNat_ofNat_byte (byte : UInt8) : (Char.ofNat byte.toNat).toNat = byte.toNat := by
  have hsmall : byte.toNat < 256 := byte.toNat_lt
  have hvalid : byte.toNat.isValidChar := .inl (by omega)
  rw [Char.ofNat, dif_pos hvalid]
  rfl

theorem eq_of_ofNat_byte {byte code : UInt8}
    (hchar : Char.ofNat byte.toNat = Char.ofNat code.toNat) : byte = code := by
  apply UInt8.toNat_inj.mp
  rw [← toNat_ofNat_byte byte, hchar, toNat_ofNat_byte]

theorem digits_of_decimal {bytes : List UInt8} {magnitude : ℕ}
    (hread : Cron.decimal (bytes.map fun byte => Char.ofNat byte.toNat) = some magnitude) :
    bytes ≠ [] ∧ (∀ digit ∈ bytes, 48 ≤ digit.toNat ∧ digit.toNat ≤ 57) ∧
      magnitude = digitsValue bytes := by
  unfold Cron.decimal at hread
  split at hread
  · cases hread
  · rename_i hsome
    split at hread
    · rename_i hdigits
      rw [List.all_map, List.all_eq_true] at hdigits
      rw [List.foldl_map] at hread
      simp only [toNat_ofNat_byte] at hread
      refine ⟨?_, ?_, (Option.some.inj hread).symm⟩
      · rintro rfl
        exact hsome rfl
      · intro digit hdigit
        have hchar := Char.isDigit_iff_toNat.mp (hdigits digit hdigit)
        rw [toNat_ofNat_byte] at hchar
        exact hchar
    · cases hread

theorem int64Decimal_of_atoi {number : List UInt8} {value : ℤ}
    (hread : Cron.atoi (number.map fun byte => Char.ofNat byte.toNat) = some value) :
    Int64Decimal number value := by
  unfold Cron.atoi at hread
  rw [Option.filter_eq_some_iff, Cron.fitsInt, decide_eq_true_eq] at hread
  obtain ⟨hvalue, hrange⟩ := hread
  split at hvalue
  · rename_i digits hnumber
    obtain ⟨byte, bytes, rfl, hminus, rfl⟩ := List.map_eq_cons_iff.mp hnumber
    obtain ⟨_, hcast, rfl⟩ := Option.map_eq_some_iff.mp hvalue
    obtain ⟨magnitude, hmagnitude, hpure⟩ := Option.bind_eq_some_iff.mp hcast
    cases hpure
    obtain ⟨hsome, hdigits, rfl⟩ := digits_of_decimal hmagnitude
    rw [eq_of_ofNat_byte (show _ = Char.ofNat (45 : UInt8).toNat from hminus)]
    exact ⟨bytes, hsome, hdigits, .inl ⟨rfl, rfl⟩, hrange⟩
  · rename_i digits hnumber
    obtain ⟨byte, bytes, rfl, hplus, rfl⟩ := List.map_eq_cons_iff.mp hnumber
    obtain ⟨magnitude, hmagnitude, rfl⟩ := Option.map_eq_some_iff.mp hvalue
    obtain ⟨hsome, hdigits, rfl⟩ := digits_of_decimal hmagnitude
    rw [eq_of_ofNat_byte (show _ = Char.ofNat (43 : UInt8).toNat from hplus)]
    exact ⟨bytes, hsome, hdigits, .inr ⟨.inr rfl, rfl⟩, hrange⟩
  · obtain ⟨magnitude, hmagnitude, rfl⟩ := Option.map_eq_some_iff.mp hvalue
    obtain ⟨hsome, hdigits, rfl⟩ := digits_of_decimal hmagnitude
    exact ⟨number, hsome, hdigits, .inr ⟨.inl rfl, rfl⟩, hrange⟩

/-- What `decodeCursor` has read when it succeeds. -/
theorem decodeCursor_eq_ok {cursor : String} {instant : ℤ} {id : List UInt8}
    (hdecode : decodeCursor cursor = .ok (instant, id)) :
    ∃ number value, Base64.decode cursor.toList = some (number ++ separator :: id) ∧
      separator ∉ number ∧ Int64Decimal number value ∧ instant = ofUnixMicro value := by
  rw [decodeCursor] at hdecode
  split at hdecode
  · cases hdecode
  · rename_i raw hraw
    split at hdecode
    · rename_i hseparator
      split at hdecode
      · cases hdecode
      · rename_i micros hmicros
        obtain ⟨number, rest, hsplit, hfirst⟩ := List.eq_append_cons_of_mem hseparator
        have hbefore : ∀ byte ∈ number, decide (byte ≠ separator) = true := by
          intro byte hbyte
          apply decide_eq_true
          rintro rfl
          exact hfirst hbyte
        rw [hsplit, List.takeWhile_append_of_pos hbefore, List.takeWhile_cons_of_neg (by decide),
          List.append_nil] at hmicros
        rw [hsplit, List.dropWhile_append_of_pos hbefore,
          List.dropWhile_cons_of_neg (by decide)] at hdecode
        cases hdecode
        exact ⟨number, micros, hraw.trans (congrArg some hsplit), hfirst,
          int64Decimal_of_atoi hmicros, rfl⟩
    · cases hdecode

/-- A cursor comes back as it was made, its instant rounded down to a microsecond; and only
a number of an `int64` with a separator after it, in base64, is read as a cursor at all. -/
theorem decodeCursor_exact :
    (∀ (instant : ℤ) (id : List UInt8),
      Cron.fitsInt (instant / 1000 - 62135596800000000) = true →
        decodeCursor (encodeCursorBytes instant id) = .ok (timestamptz instant, id)) ∧
      ∀ (cursor : String) (instant : ℤ) (id : List UInt8),
        decodeCursor cursor = .ok (instant, id) →
          ∃ number value, Base64.decode cursor.toList = some (number ++ separator :: id) ∧
            separator ∉ number ∧ Int64Decimal number value ∧ instant = ofUnixMicro value := by
  constructor
  · intro instant id hfits
    rw [decodeCursor_encodeCursorBytes, ofUnixMicro_unixMicro hfits]
  · intro cursor instant id hdecode
    exact decodeCursor_eq_ok hdecode

/-! ## The position -/

/-- What a `timestamptz` and a `text` column hold: microseconds counted from the year 2000
in an `int64`, and text without zero bytes. -/
structure Storable (instant : ℤ) (id : String) : Prop where
  micros : ∃ micros, int64 micros = micros ∧ instant = ofUnixMicro (y2k + micros)
  text : '\x00' ∉ id.toList

theorem unixMicro_ofUnixMicro (micros : ℤ) : unixMicro (ofUnixMicro micros) = int64 micros := by
  rw [unixMicro, ofUnixMicro]
  congr 1
  omega

theorem timestamptzParameter_unixMicro {instant : ℤ} {id : String}
    (hstorable : Storable instant id) :
    timestamptzParameter (ofUnixMicro (unixMicro instant)) = instant := by
  obtain ⟨micros, hfits, rfl⟩ := hstorable.micros
  have hwrap : int64 (int64 (int64 (y2k + micros)) - y2k) = micros := by
    calc int64 (int64 (int64 (y2k + micros)) - y2k)
        = int64 (y2k + micros - y2k) := by
          rw [int64, int64, int64, Int.bmod_bmod, Int.bmod_sub_bmod]
          rfl
      _ = micros := by rw [add_sub_cancel_left, hfits]
  rw [timestamptzParameter, unixMicro_ofUnixMicro, unixMicro_ofUnixMicro, hwrap]

theorem encodeCursor_ne_empty (instant : ℤ) (id : String) : encodeCursor instant id ≠ "" := by
  intro hempty
  have hdecode := decodeCursor_encodeCursor instant id
  rw [hempty] at hdecode
  cases hdecode

theorem position_encodeCursor {instant : ℤ} {id : String} (hstorable : Storable instant id) :
    position (encodeCursor instant id) = .ok (some (instant, id)) := by
  rw [position, if_neg (encodeCursor_ne_empty instant id), decodeCursor_encodeCursor]
  dsimp only
  rw [textParameter_utf8 hstorable.text]
  dsimp only
  rw [timestamptzParameter_unixMicro hstorable]

end Conduit.JobListing
