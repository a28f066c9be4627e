import Mathlib.Algebra.GroupWithZero.Nat
import Mathlib.Data.Nat.Basic

/-! Numbers read from their hexadecimal digits, the most significant first. -/
namespace Smtdv.Lib

def hexDigit (c : Char) : Option Nat :=
  if '0' ≤ c ∧ c ≤ '9' then some (c.toNat-48)
  else if 'a' ≤ c ∧ c ≤ 'f' then some (c.toNat-87)
  else if 'A' ≤ c ∧ c ≤ 'F' then some (c.toNat-55)
  else none

/-- The digits from the front up to the first other character, after digits of value `value`. -/
def readHex : List Char → Nat → Nat
  | [],value => value
  | c::rest,value =>
    match hexDigit c with
    | some digit => readHex rest (16*value+digit)
    | none => value

theorem hexDigit_digitChar {digit : Nat} (small : digit < 16) :
    hexDigit digit.digitChar = some digit := by
  rcases digit with _|_|_|_|_|_|_|_|_|_|_|_|_|_|_|_|digit
  all_goals first | rfl | omega

theorem hexDigit_lt {c : Char} {digit : Nat} (digitOf : hexDigit c = some digit) : digit < 16 := by
  unfold hexDigit at digitOf
  split_ifs at digitOf with low mid high
  · obtain ⟨-,upper⟩ := low
    have upper : c.toNat ≤ 57 := upper
    obtain rfl := Option.some.inj digitOf
    omega
  · obtain ⟨-,upper⟩ := mid
    have upper : c.toNat ≤ 102 := upper
    obtain rfl := Option.some.inj digitOf
    omega
  · obtain ⟨-,upper⟩ := high
    have upper : c.toNat ≤ 70 := upper
    obtain rfl := Option.some.inj digitOf
    omega

theorem readHex_append (front back : List Char) (value : Nat)
    (digits : ∀ c ∈ front, (hexDigit c).isSome) :
    readHex (front ++ back) value = readHex back (readHex front value) := by
  induction front generalizing value with
  | nil => rfl
  | cons c rest ih =>
    obtain ⟨first,digits⟩ := List.forall_mem_cons.mp digits
    obtain ⟨digit,digitOf⟩ := Option.isSome_iff_exists.mp first
    simp only [List.cons_append,readHex,digitOf]
    exact ih _ digits

theorem isSome_of_mem_toDigits (n : Nat) : ∀ c ∈ Nat.toDigits 16 n, (hexDigit c).isSome := by
  induction n using Nat.base_induction 16 (by decide) with
  | single m small =>
    rw [Nat.toDigits_of_lt_base small]
    simp [hexDigit_digitChar small]
  | digit m k small positive ih =>
    rw [← Nat.toDigits_append_toDigits (by decide) positive small,Nat.toDigits_of_lt_base small]
    intro c member
    rcases List.mem_append.mp member with front | last
    · exact ih c front
    · obtain rfl := List.mem_singleton.mp last
      simp [hexDigit_digitChar small]

/-- A number is read back from the digits it is written with. -/
@[simp] theorem readHex_toDigits (n : Nat) : readHex (Nat.toDigits 16 n) 0 = n := by
  induction n using Nat.base_induction 16 (by decide) with
  | single m small =>
    rw [Nat.toDigits_of_lt_base small]
    simp [readHex,hexDigit_digitChar small]
  | digit m k small positive ih =>
    rw [← Nat.toDigits_append_toDigits (by decide) positive small,
      readHex_append _ _ _ (isSome_of_mem_toDigits m),ih,Nat.toDigits_of_lt_base small]
    simp [readHex,hexDigit_digitChar small]

theorem readHex_lt (text : List Char) (value : Nat) :
    readHex text value < (value+1)*16^text.length := by
  induction text generalizing value with
  | nil => simp [readHex]
  | cons c rest ih =>
    have power : 0 < 16^rest.length := Nat.pow_pos (by decide)
    simp only [readHex,List.length_cons,Nat.pow_succ]
    split
    · rename_i digit digitOf
      have small := hexDigit_lt digitOf
      calc readHex rest (16*value+digit) < (16*value+digit+1)*16^rest.length := ih _
        _ ≤ ((value+1)*16)*16^rest.length := Nat.mul_le_mul_right _ (by omega)
        _ = (value+1)*(16^rest.length*16) := by rw [Nat.mul_assoc,Nat.mul_comm 16]
    · calc value < value+1 := Nat.lt_succ_self _
        _ ≤ (value+1)*(16^rest.length*16) := Nat.le_mul_of_pos_right _ (by omega)

end Smtdv.Lib
