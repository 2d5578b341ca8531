import Mathlib.Data.Nat.Count
import ChiffOS.Lib.Bytes

/-! Bitmaps kept in byte buffers: one bit, setting it, the least clear bit and the number of
clear bits below a bound. -/

namespace ChiffOS.Buf

/-- `b[n >> 3] & (1 << (n % 8))`. -/
def bit (b : Buf) (n : ℕ) : Bool := (b (n / 8)).toNat.testBit (n % 8)

/-- `b[n >> 3] |= 1 << (n % 8)`. -/
def setBit (b : Buf) (n : ℕ) : Buf :=
  fun i => if i = n / 8 then UInt8.ofNat ((b i).toNat ||| 2 ^ (n % 8)) else b i

def firstClear (b : Buf) : ℕ → ℕ → Option ℕ
  | 0, _ => none
  | fuel + 1, n => if b.bit n then firstClear b fuel (n + 1) else some n

/-- The number of clear bits among the first `n`. -/
def clearBits (b : Buf) (n : ℕ) : ℕ := Nat.count (fun j => b.bit j = false) n

theorem bit_congr {b c : Buf} {n : ℕ} (h : b (n / 8) = c (n / 8)) : b.bit n = c.bit n := by
  unfold bit; rw [h]

theorem setBit_toNat (b : Buf) (n : ℕ) :
    (b.setBit n (n / 8)).toNat = (b (n / 8)).toNat ||| 2 ^ (n % 8) := by
  have h1 : (b (n / 8)).toNat < 2 ^ 8 := (b (n / 8)).toNat_lt
  have h2 : 2 ^ (n % 8) < 2 ^ 8 := Nat.pow_lt_pow_right (by norm_num) (Nat.mod_lt _ (by norm_num))
  simp only [setBit, if_true, UInt8.toNat_ofNat']
  exact Nat.mod_eq_of_lt (Nat.or_lt_two_pow h1 h2)

theorem bit_setBit (b : Buf) (n m : ℕ) : (b.setBit n).bit m = (decide (m = n) || b.bit m) := by
  by_cases hq : m / 8 = n / 8
  · have hm : (m = n) ↔ n % 8 = m % 8 := by omega
    unfold bit
    rw [hq, setBit_toNat, Nat.testBit_or, Nat.testBit_two_pow, Bool.or_comm]
    simp only [hm]
  · have hne : m ≠ n := fun h => hq (by rw [h])
    simp [bit, setBit, hq, hne]

theorem bit_setBit_self (b : Buf) (n : ℕ) : (b.setBit n).bit n = true := by
  simp [bit_setBit]

theorem bit_setBit_ne (b : Buf) {n m : ℕ} (h : m ≠ n) : (b.setBit n).bit m = b.bit m := by
  simp [bit_setBit, h]

variable {b : Buf}

theorem firstClear_some {fuel n j : ℕ} (h : b.firstClear fuel n = some j) :
    n ≤ j ∧ j < n + fuel ∧ b.bit j = false ∧ ∀ k, n ≤ k → k < j → b.bit k = true := by
  induction fuel generalizing n with
  | zero => simp [firstClear] at h
  | succ fuel ih =>
    unfold firstClear at h
    split_ifs at h with hb
    · obtain ⟨h1, h2, h3, h4⟩ := ih h
      refine ⟨by omega, by omega, h3, fun k hk hkj => ?_⟩
      rcases Nat.eq_or_lt_of_le hk with rfl | hlt
      · exact hb
      · exact h4 k hlt hkj
    · obtain rfl : n = j := by simpa using h
      exact ⟨le_rfl, by omega, by simpa using hb, fun k h1 h2 => absurd h1 (by omega)⟩

theorem firstClear_none {fuel n : ℕ} (h : b.firstClear fuel n = none) :
    ∀ k, n ≤ k → k < n + fuel → b.bit k = true := by
  induction fuel generalizing n with
  | zero => intro k h1 h2; omega
  | succ fuel ih =>
    unfold firstClear at h
    split_ifs at h with hb
    intro k h1 h2
    rcases Nat.eq_or_lt_of_le h1 with rfl | hlt
    · exact hb
    · exact ih h k hlt (by omega)

theorem firstClear_congr {b c : Buf} {fuel n : ℕ} (h : ∀ k, n ≤ k → k < n + fuel → b.bit k = c.bit k) :
    b.firstClear fuel n = c.firstClear fuel n := by
  induction fuel generalizing n with
  | zero => rfl
  | succ fuel ih =>
    unfold firstClear
    rw [h n le_rfl (by omega), ih fun k h1 h2 => h k (by omega) (by omega)]

theorem clearBits_eq_zero {n : ℕ} (h : ∀ j < n, b.bit j = true) : b.clearBits n = 0 := by
  unfold clearBits
  rw [Nat.count_iff_forall_not]
  exact fun k hk => by simp [h k hk]

theorem firstClear_of_clear {fuel n : ℕ} (hn : n ≤ fuel) (h : 0 < b.clearBits n) :
    ∃ j, b.firstClear fuel 0 = some j ∧ j < n := by
  obtain ⟨k, hk, hb⟩ : ∃ k < n, b.bit k = false := by
    by_contra hc
    push Not at hc
    have := clearBits_eq_zero fun j hj => by simpa using hc j hj
    omega
  cases hf : b.firstClear fuel 0 with
  | none => exact absurd (firstClear_none hf k (Nat.zero_le _) (by omega)) (by simp [hb])
  | some j =>
    refine ⟨j, rfl, ?_⟩
    by_contra hj
    obtain ⟨-, -, -, h4⟩ := firstClear_some hf
    exact absurd (h4 k (Nat.zero_le _) (by omega)) (by simp [hb])

theorem clearBits_congr {b c : Buf} {n : ℕ} (h : ∀ j < n, b.bit j = c.bit j) :
    b.clearBits n = c.clearBits n := by
  unfold clearBits
  induction n with
  | zero => simp
  | succ n ih =>
    simp only [Nat.count_succ]
    rw [ih fun j hj => h j (by omega), h n (by omega)]

theorem clearBits_setBit {n j : ℕ} (hj : j < n) (hb : b.bit j = false) :
    (b.setBit j).clearBits n + 1 = b.clearBits n := by
  unfold clearBits
  induction n with
  | zero => omega
  | succ n ih =>
    simp only [Nat.count_succ]
    rcases Nat.lt_succ_iff_lt_or_eq.mp hj with hlt | rfl
    · rw [← ih hlt, bit_setBit_ne b (by omega : n ≠ j)]
      omega
    · have hsame : Nat.count (fun k => (b.setBit j).bit k = false) j =
          Nat.count (fun k => b.bit k = false) j :=
        clearBits_congr fun k hk => bit_setBit_ne b hk.ne
      rw [hsame, bit_setBit_self]
      simp [hb]

theorem bit_ff {n : ℕ} (h : b (n / 8) = 255) : b.bit n = true := by
  have key : ∀ k < 8, Nat.testBit 255 k = true := by decide
  simpa [bit, h] using key (n % 8) (Nat.mod_lt _ (by norm_num))

theorem clearBits_eq_one {n x : ℕ} (hx : x < n) (hb : b.bit x = false)
    (h : ∀ j < n, j ≠ x → b.bit j = true) : b.clearBits n = 1 := by
  rw [← clearBits_setBit hx hb, clearBits_eq_zero]
  intro j hj
  by_cases hjx : j = x
  · rw [hjx, bit_setBit_self]
  · rw [bit_setBit_ne b hjx, h j hj hjx]

end ChiffOS.Buf
