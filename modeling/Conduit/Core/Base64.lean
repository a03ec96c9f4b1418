import Mathlib.Data.List.Basic

/-!
# Base64 with the URL alphabet and no padding

Three bytes are four digits of six bits.  The decoder skips line breaks and does
not look at the bits a shorter last group leaves over, as decoders do that are
not strict.
-/

namespace Conduit.Base64

def alphabet : List Char :=
  "ABCDEFGHIJKLMNOPQRSTUVWXYZabcdefghijklmnopqrstuvwxyz0123456789-_".toList

def digit (value : Nat) : Char :=
  alphabet.getD value 'A'

def value (char : Char) : Option Nat :=
  alphabet.idxOf? char

def encode : List UInt8 → List Char
  | first :: second :: third :: rest =>
      let group := first.toNat * 65536 + second.toNat * 256 + third.toNat
      digit (group / 262144) :: digit (group / 4096 % 64) :: digit (group / 64 % 64) ::
        digit (group % 64) :: encode rest
  | [first, second] =>
      let group := first.toNat * 256 + second.toNat
      [digit (group / 1024), digit (group / 16 % 64), digit (group % 16 * 4)]
  | [first] => [digit (first.toNat / 4), digit (first.toNat % 4 * 16)]
  | [] => []

/-- A single digit left over at the end is not a byte. -/
def decodeDigits : List Nat → Option (List UInt8)
  | first :: second :: third :: fourth :: rest =>
      let group := ((first * 64 + second) * 64 + third) * 64 + fourth
      (decodeDigits rest).map fun bytes =>
        UInt8.ofNat (group / 65536) :: UInt8.ofNat (group / 256) :: UInt8.ofNat group :: bytes
  | [first, second, third] =>
      let group := ((first * 64 + second) * 64 + third) / 4
      some [UInt8.ofNat (group / 256), UInt8.ofNat group]
  | [first, second] => some [UInt8.ofNat ((first * 64 + second) / 16)]
  | [_] => none
  | [] => some []

def decode (text : List Char) : Option (List UInt8) :=
  ((text.filter fun char => char ≠ '\n' ∧ char ≠ '\r').mapM value).bind decodeDigits

/-! ## Round trip -/

theorem value_digit {value : Nat} (hvalue : value < 64) :
    Base64.value (digit value) = some value := by
  have hall : ∀ index : Fin 64, Base64.value (digit index) = some index.val := by
    decide +kernel
  exact hall ⟨value, hvalue⟩

theorem digit_ne_lineBreak {value : Nat} (hvalue : value < 64) :
    digit value ≠ '\n' ∧ digit value ≠ '\r' := by
  have hall : ∀ index : Fin 64, digit index ≠ '\n' ∧ digit index ≠ '\r' := by
    decide +kernel
  exact hall ⟨value, hvalue⟩

theorem ofNat_eq {value : Nat} (byte : UInt8) (hvalue : value % 256 = byte.toNat) :
    UInt8.ofNat value = byte := by
  apply UInt8.toNat_inj.mp
  rw [UInt8.toNat_ofNat', hvalue]

/-- The digits that are written are those that are read back. -/
theorem exists_digits (bytes : List UInt8) :
    ∃ digits : List Nat, (∀ value ∈ digits, value < 64) ∧
      encode bytes = digits.map digit ∧ decodeDigits digits = some bytes := by
  induction bytes using encode.induct with
  | case1 first second third rest ih =>
      obtain ⟨digits, hdigits, hencode, hdecode⟩ := ih
      have hfirst := first.toNat_lt
      have hsecond := second.toNat_lt
      have hthird := third.toNat_lt
      let group := first.toNat * 65536 + second.toNat * 256 + third.toNat
      refine ⟨group / 262144 :: group / 4096 % 64 :: group / 64 % 64 :: group % 64 :: digits,
        ?_, ?_, ?_⟩
      · simp only [List.forall_mem_cons]
        refine ⟨by omega, by omega, by omega, by omega, hdigits⟩
      · rw [encode, hencode]
        rfl
      · rw [decodeDigits, hdecode]
        have hgroup : ((group / 262144 * 64 + group / 4096 % 64) * 64 + group / 64 % 64) * 64 +
            group % 64 = group := by omega
        rw [hgroup, ofNat_eq first (by omega), ofNat_eq second (by omega),
          ofNat_eq third (by omega)]
        rfl
  | case2 first second =>
      have hfirst := first.toNat_lt
      have hsecond := second.toNat_lt
      let group := first.toNat * 256 + second.toNat
      refine ⟨[group / 1024, group / 16 % 64, group % 16 * 4], ?_, rfl, ?_⟩
      · simp only [List.forall_mem_cons]
        exact ⟨by omega, by omega, by omega, by simp⟩
      · rw [decodeDigits]
        have hgroup : ((group / 1024 * 64 + group / 16 % 64) * 64 + group % 16 * 4) / 4 =
            group := by omega
        rw [hgroup, ofNat_eq first (by omega), ofNat_eq second (by omega)]
  | case3 first =>
      have hfirst := first.toNat_lt
      refine ⟨[first.toNat / 4, first.toNat % 4 * 16], ?_, rfl, ?_⟩
      · simp only [List.forall_mem_cons]
        exact ⟨by omega, by omega, by simp⟩
      · rw [decodeDigits, ofNat_eq first (by omega)]
  | case4 => exact ⟨[], by simp, rfl, rfl⟩

theorem decode_encode (bytes : List UInt8) : decode (encode bytes) = some bytes := by
  obtain ⟨digits, hdigits, hencode, hdecode⟩ := exists_digits bytes
  have hkept : ((digits.map digit).filter fun char => char ≠ '\n' ∧ char ≠ '\r') =
      digits.map digit := by
    apply List.filter_eq_self.mpr
    intro char hchar
    obtain ⟨value, hvalue, rfl⟩ := List.mem_map.mp hchar
    exact decide_eq_true (digit_ne_lineBreak (hdigits value hvalue))
  have hvalues : (digits.map digit).mapM value = some digits := by
    clear hencode hdecode hkept
    induction digits with
    | nil => rfl
    | cons first rest ih =>
        obtain ⟨hfirst, hrest⟩ := List.forall_mem_cons.mp hdigits
        rw [List.map_cons, List.mapM_cons, value_digit hfirst, ih hrest]
        rfl
  rw [decode, hencode, hkept, hvalues]
  exact hdecode

end Conduit.Base64
