import Mathlib

/-! Numerals: the shortest one of a number, numerals with zeros in front, and digits at a fixed number of
places. -/

namespace ChiffOS.Numeral

def digitByte (d : ℕ) : UInt8 := UInt8.ofNat (if d < 10 then 0x30 + d else 0x57 + d)

def numeral (b v : ℕ) : List UInt8 := if v =
    0 then [digitByte 0] else ((Nat.digits b v).map digitByte).reverse

def padTo (n : ℕ) (l : List UInt8) : List UInt8 := List.replicate (n - l.length) (digitByte 0) ++ l

def fixedDigits (b : ℕ) : (n v : ℕ) → List UInt8
  | 0, _ => []
  | n + 1, v => fixedDigits b n (v / b) ++ [digitByte (v % b)]

variable {b : ℕ} (hb : 1 < b)

theorem fixedDigits_zero (n : ℕ) : fixedDigits b n 0 = List.replicate n (digitByte 0) := by
  induction n with
  | zero => rfl
  | succ n ih => rw [fixedDigits, Nat.zero_div, ih, Nat.zero_mod, List.replicate_succ']

theorem numeral_lt {v : ℕ} (h : v < b) : numeral b v = [digitByte v] := by
  rcases Nat.eq_zero_or_pos v with rfl | hpos
  · exact if_pos rfl
  · rw [numeral, if_neg hpos.ne', Nat.digits_of_lt b v hpos.ne' h]
    rfl

include hb

theorem numeral_ge {v : ℕ} (h : b ≤ v) : numeral b v = numeral b (v / b) ++ [digitByte (v % b)] := by
  have hpos : 0 < v := by omega
  have hdiv : 0 < v / b := Nat.div_pos h (by omega)
  rw [numeral, if_neg hpos.ne', numeral, if_neg hdiv.ne', Nat.digits_def' hb hpos, List.map_cons,
    List.reverse_cons]

/-- A numeral has at most `n` digits exactly if the number is small enough. -/
theorem length_numeral_le {v n : ℕ} (hn : 0 < n) : (numeral b v).length ≤ n ↔ v < b ^ n := by
  rcases Nat.eq_zero_or_pos v with rfl | hpos
  · rw [numeral, if_pos rfl]
    exact ⟨fun _ => Nat.pow_pos (by omega), fun _ => hn⟩
  · rw [numeral, if_neg hpos.ne', List.length_reverse, List.length_map]
    exact Nat.digits_length_le_iff hb v

theorem length_numeral_pos (v : ℕ) : 0 < (numeral b v).length := by
  rcases Nat.lt_or_ge v b with h | h
  · rw [numeral_lt h]
    exact Nat.one_pos
  · rw [numeral_ge hb h, List.length_append]
    exact Nat.succ_pos _

/-- Enough places hold the numeral with zeros in front. -/
theorem fixedDigits_eq (n : ℕ) : ∀ {v : ℕ}, 0 < n → v < b ^ n → fixedDigits b n v = padTo n
    (numeral b v) := by
  induction n with
  | zero => exact fun h => absurd h (Nat.lt_irrefl 0)
  | succ n ih =>
    intro v _ hv
    rcases Nat.lt_or_ge v b with h | h
    · rw [fixedDigits, Nat.div_eq_of_lt h, Nat.mod_eq_of_lt h, fixedDigits_zero, numeral_lt h]
      rfl
    · have hpos : 0 < n := by
        rcases Nat.eq_zero_or_pos n with rfl | hn
        · rw [Nat.zero_add, pow_one] at hv
          omega
        · exact hn
      have hdiv : v / b < b ^ n := (Nat.div_lt_iff_lt_mul (by omega)).mpr (by rwa [← pow_succ])
      rw [fixedDigits, ih hpos hdiv, numeral_ge hb h, padTo, padTo, List.length_append, List.length_singleton,
        Nat.add_sub_add_right, List.append_assoc]

end ChiffOS.Numeral
