import Mathlib.Data.Int.Notation
import Mathlib.Logic.Function.Basic

/-!
# Decimal text

Integers written in decimal are told apart by their text, and the text has only
digits and a minus sign in it.  A field written after the last separator of a
text can therefore be read back.
-/

namespace Conduit.Decimal

theorem repr_injective : Function.Injective Nat.repr := by
  intro left right heq
  have hdigits : Nat.toDigits 10 left = Nat.toDigits 10 right := by
    rw [← Nat.toList_repr, ← Nat.toList_repr, heq]
  calc
    left = Nat.ofDigitChars 10 (Nat.toDigits 10 left) 0 :=
      Nat.ofDigitChars_ten_toDigits.symm
    _ = Nat.ofDigitChars 10 (Nat.toDigits 10 right) 0 := by rw [hdigits]
    _ = right := Nat.ofDigitChars_ten_toDigits

theorem isDigit_of_mem_repr {value : Nat} {char : Char} (hchar : char ∈ value.repr.toList) :
    char.isDigit = true := by
  rw [Nat.toList_repr] at hchar
  exact Nat.isDigit_of_mem_toDigits (by decide) (Nat.le_refl 10) hchar

theorem toString_eq (value : ℤ) :
    (0 ≤ value ∧ (toString value).toList = value.toNat.repr.toList) ∨
      (value < 0 ∧ (toString value).toList = '-' :: (-value).toNat.repr.toList) := by
  rw [Int.toString_eq_repr]
  cases value with
  | ofNat magnitude =>
      left
      exact ⟨Int.natCast_nonneg magnitude, rfl⟩
  | negSucc magnitude =>
      right
      refine ⟨Int.negSucc_lt_zero magnitude, ?_⟩
      have hmagnitude : (-Int.negSucc magnitude).toNat = magnitude.succ := rfl
      rw [hmagnitude, Int.repr, String.toList_append]
      rfl

theorem mem_toString {value : ℤ} {char : Char} (hchar : char ∈ (toString value).toList) :
    char.isDigit = true ∨ char = '-' := by
  rcases toString_eq value with ⟨-, htext⟩ | ⟨-, htext⟩
  · rw [htext] at hchar
    exact .inl (isDigit_of_mem_repr hchar)
  · rw [htext] at hchar
    rcases List.mem_cons.1 hchar with hminus | hdigit
    · exact .inr hminus
    · exact .inl (isDigit_of_mem_repr hdigit)

theorem toString_injective {left right : ℤ}
    (heq : (toString left).toList = (toString right).toList) : left = right := by
  have hnotMinus : ∀ value : Nat, ∀ rest, value.repr.toList ≠ '-' :: rest := by
    intro value rest htext
    have hminus : '-' ∈ value.repr.toList := by
      rw [htext]
      exact List.mem_cons_self
    exact absurd (isDigit_of_mem_repr hminus) (by decide)
  rcases toString_eq left with ⟨hleft, hleftText⟩ | ⟨hleft, hleftText⟩ <;>
    rcases toString_eq right with ⟨hright, hrightText⟩ | ⟨hright, hrightText⟩
  · rw [hleftText, hrightText] at heq
    have hvalue := repr_injective (String.toList_injective heq)
    omega
  · rw [hleftText, hrightText] at heq
    exact absurd heq (hnotMinus _ _)
  · rw [hleftText, hrightText] at heq
    exact absurd heq.symm (hnotMinus _ _)
  · rw [hleftText, hrightText] at heq
    have hvalue := repr_injective (String.toList_injective (List.cons.inj heq).2)
    omega

/-- What comes before and after the last separator is determined by the text. -/
theorem append_separator_injective {Symbol : Type*} {separator : Symbol}
    {before before' after after' : List Symbol} (hafter : separator ∉ after)
    (hafter' : separator ∉ after')
    (heq : before ++ separator :: after = before' ++ separator :: after') :
    before = before' ∧ after = after' := by
  rcases List.append_eq_append_iff.1 heq with ⟨between, hbefore, hrest⟩ |
    ⟨between, hbefore, hrest⟩
  · cases between with
    | nil => simp_all
    | cons first between =>
        rw [List.cons_append, List.cons.injEq] at hrest
        exact absurd (hrest.2 ▸ by simp) hafter
  · cases between with
    | nil => simp_all
    | cons first between =>
        rw [List.cons_append, List.cons.injEq] at hrest
        exact absurd (hrest.2 ▸ by simp) hafter'

end Conduit.Decimal
