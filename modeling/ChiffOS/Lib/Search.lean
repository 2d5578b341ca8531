import Mathlib.Algebra.BigOperators.Group.Finset.Basic
import Mathlib.Tactic

/-! A search through intervals that follow one another: their lengths are added up until the end of one is
not below the bound. -/

namespace ChiffOS

open Finset

def search (weight : ℕ → ℕ) (bound : ℕ) : (n i acc : ℕ) → Option (ℕ × ℕ)
  | 0, _, _ => none
  | n + 1, i, acc => if acc + weight i ≥ bound then some (i, acc) else search weight bound n (i + 1)
    (acc + weight i)

namespace Search

/-- The length of the first `k` intervals. -/
def total (weight : ℕ → ℕ) (i k : ℕ) : ℕ := ∑ j ∈ range k, weight (i + j)

variable {weight : ℕ → ℕ} {bound : ℕ}

theorem total_zero (i : ℕ) : total weight i 0 = 0 := sum_range_zero _

theorem total_succ (i k : ℕ) : total weight i (k + 1) = total weight i k + weight (i + k) :=
    sum_range_succ _ _

theorem total_succ' (i k : ℕ) : total weight i (k + 1) = weight i + total weight (i + 1) k := by
  unfold total
  rw [sum_range_succ', Nat.add_zero, Nat.add_comm]
  congr 1
  refine sum_congr rfl fun j _ => ?_
  rw [Nat.add_assoc, Nat.add_comm 1 j]

theorem total_const (c i k : ℕ) : total (fun _ => c) i k = k * c := by
  rw [total, sum_const, card_range, smul_eq_mul]

theorem total_mono (weight : ℕ → ℕ) (i : ℕ) {k l : ℕ} (h : k ≤ l) : total weight i k ≤ total weight i l :=
  sum_le_sum_of_subset (range_subset_range.mpr h)

/-- The search ends in the first interval that reaches the bound. -/
theorem search_some : ∀ {n i acc j a : ℕ}, search weight bound n i acc = some (j, a) →
    ∃ k < n, j = i + k ∧ a = acc + total weight i k ∧ bound ≤ a + weight j ∧ (k = 0 ∨ a < bound) := by
  intro n
  induction n with
  | zero => exact fun h => absurd h (Option.some_ne_none _).symm
  | succ n ih =>
    intro i acc j a h
    rw [search] at h
    split_ifs at h with hge
    · obtain ⟨rfl, rfl⟩ := Prod.mk.inj (Option.some.inj h)
      exact ⟨0, Nat.succ_pos n, rfl, rfl, hge, .inl rfl⟩
    · obtain ⟨k, hk, rfl, rfl, hb, hfirst⟩ := ih h
      refine ⟨k + 1, by omega, by omega, by rw [total_succ', Nat.add_assoc], hb, .inr ?_⟩
      rcases hfirst with rfl | hlt
      · rw [total_zero]
        omega
      · exact hlt

theorem search_isSome : ∀ {n i acc : ℕ}, 0 < n → bound ≤ acc + total weight i n →
    (search weight bound n i acc).isSome := by
  intro n
  induction n with
  | zero => exact fun h => absurd h (Nat.lt_irrefl 0)
  | succ n ih =>
    intro i acc _ hb
    rw [search]
    split_ifs with hge
    · rfl
    · rw [total_succ'] at hb
      rcases Nat.eq_zero_or_pos n with rfl | hn
      · rw [total_zero] at hb
        omega
      · exact ih hn (by omega)

end Search

end ChiffOS
