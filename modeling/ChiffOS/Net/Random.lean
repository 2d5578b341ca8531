import Mathlib.Tactic

/-! The random numbers of the network port: `__rand` of the lwIP architecture layer, with the words of the
source as integers. -/

namespace ChiffOS.Net

def Long (x : ℤ) : Prop := -2 ^ 31 ≤ x ∧ x < 2 ^ 31

def randModulus : ℤ := 2 ^ 31 - 1

/-- `s / 127773`, which truncates as the division of C does. -/
def randQuotient (s : ℤ) : ℤ := s.tdiv 127773

/-- `16807 * (s - k * 127773) - 2836 * k`. -/
def randStep (s : ℤ) : ℤ := 16807 * (s - randQuotient s * 127773) - 2836 * randQuotient s

/-- `__rand`: the returned number and the new seed, where `seed` is what `(long)(*seed)` reads. The bits
that `RAND_MAX` keeps are the low 31. The values are those of the source as long as none of `randValues`
overflows. -/
def rand (seed : ℤ) : ℤ × ℤ :=
  let s := if seed = 0 then 0x12345987 else seed
  let s := randStep s
  let s := if s < 0 then s + 2147483647 else s
  (s % 2 ^ 31, s)

def seedAfter (seed : ℤ) : ℕ → ℤ
  | 0 => seed
  | n + 1 => (rand (seedAfter seed n)).2

/-- Every value the step computes, in the order of the source. -/
def randValues (s : ℤ) : List ℤ :=
  let k := randQuotient s
  [k, k * 127773, s - k * 127773, 16807 * (s - k * 127773), 2836 * k, randStep s, (rand s).2]

variable {s : ℤ}

/-- The two summands of the step are both below the modulus, so their difference has at most one modulus to
gain. -/
theorem randStep_bounds (h1 : 1 ≤ s) (h2 : s ≤ 2 ^ 31 - 2) :
    0 ≤ randQuotient s ∧ randQuotient s ≤ 16807 ∧ 0 ≤ s - randQuotient s * 127773 ∧
      s - randQuotient s * 127773 < 127773 := by
  have hq : randQuotient s = s / 127773 := Int.tdiv_eq_ediv_of_nonneg (by omega)
  omega

theorem rand_seed (h1 : 1 ≤ s) :
    (rand s).2 = if randStep s < 0 then randStep s + 2147483647 else randStep s := by
  have h0 : s ≠ 0 := by omega
  simp only [rand, h0, if_false]

theorem randStep_eq (s : ℤ) : randStep s = 16807 * s - randQuotient s * randModulus := by
  unfold randStep randModulus
  ring

theorem randModulus_not_dvd (h1 : 1 ≤ s) (h2 : s ≤ 2 ^ 31 - 2) : ¬ randModulus ∣ 16807 * s := by
  intro hd
  have hc : IsCoprime randModulus 16807 := by
    rw [Int.isCoprime_iff_gcd_eq_one]
    decide +kernel
  have hle := Int.le_of_dvd (by omega) (hc.dvd_of_dvd_mul_left hd)
  unfold randModulus at hle
  omega

theorem rand_step (h1 : 1 ≤ s) (h2 : s ≤ 2 ^ 31 - 2) :
    (rand s).2 = 16807 * s % randModulus ∧ (∀ x ∈ randValues s, Long x) ∧
      1 ≤ (rand s).2 ∧ (rand s).2 ≤ 2 ^ 31 - 2 := by
  obtain ⟨hq0, hq1, hr0, hr1⟩ := randStep_bounds h1 h2
  have hm : randModulus = 2147483647 := rfl
  have hs := randStep_eq s
  have hd : randStep s = 16807 * (s - randQuotient s * 127773) - 2836 * randQuotient s := rfl
  have hrange : 0 ≤ (rand s).2 ∧ (rand s).2 < randModulus := by
    rw [rand_seed h1]
    split <;> omega
  have hmod : (rand s).2 = 16807 * s % randModulus := by
    rw [← Int.emod_eq_of_lt hrange.1 hrange.2, rand_seed h1]
    split
    · rw [hs, show (2147483647 : ℤ) = randModulus from rfl, Int.add_emod_right, Int.sub_mul_emod_self_right]
    · rw [hs, Int.sub_mul_emod_self_right]
  have hpos : (rand s).2 ≠ 0 := by
    intro h0
    exact randModulus_not_dvd h1 h2 (Int.dvd_of_emod_eq_zero (hmod ▸ h0))
  refine ⟨hmod, ?_, by omega, by omega⟩
  intro x hx
  simp only [randValues, List.mem_cons, List.not_mem_nil, or_false] at hx
  unfold Long
  omega

/-- `__rand` is the multiplicative generator of multiplier 16807 and modulus `2 ^ 31 - 1`, with no overflow,
and no number of steps brings its seed to zero. -/
theorem rand_is_lehmer (s : ℤ) (h1 : 1 ≤ s) (h2 : s ≤ 2 ^ 31 - 2) :
    (rand s).2 = 16807 * s % randModulus ∧ (∀ x ∈ randValues s, Long x) ∧
      (1 ≤ (rand s).2 ∧ (rand s).2 ≤ 2 ^ 31 - 2) ∧ (rand s).1 = (rand s).2 ∧
      ∀ n, 1 ≤ seedAfter s n ∧ seedAfter s n ≤ 2 ^ 31 - 2 := by
  obtain ⟨hmod, hlong, hlo, hhi⟩ := rand_step h1 h2
  refine ⟨hmod, hlong, ⟨hlo, hhi⟩, ?_, ?_⟩
  · exact Int.emod_eq_of_lt (a := (rand s).2) (by omega) (by omega)
  · intro n
    induction n with
    | zero => exact ⟨h1, h2⟩
    | succ n ih => exact (rand_step ih.1 ih.2).2.2

/-- The difference is negative here, and the modulus is added. -/
theorem rand_is_lehmer_corrected : (rand 2044368001).2 = 16807 * 2044368001 % randModulus :=
  (rand_is_lehmer 2044368001 (by decide) (by decide)).1

theorem rand_permutes : Set.BijOn (fun s => (rand s).2) (Set.Icc 1 (2 ^ 31 - 2))
    (Set.Icc 1 (2 ^ 31 - 2)) := by
  refine ((Set.finite_Icc _ _).injOn_iff_bijOn_of_mapsTo fun s hs => (rand_step hs.1 hs.2).2.2).mp ?_
  intro s hs t ht h
  dsimp only at h
  rw [(rand_step hs.1 hs.2).1, (rand_step ht.1 ht.2).1] at h
  have hmod := Int.ModEq.cancel_left_div_gcd (by decide) h
  rw [show Int.gcd randModulus 16807 = 1 by decide +kernel] at hmod
  unfold Int.ModEq randModulus at hmod
  rw [Set.mem_Icc] at hs ht
  omega

/-- However many calls are made, seeds that differ still do, and every seed is reached from one. -/
theorem seedAfter_permutes (n : ℕ) : Set.BijOn (seedAfter · n) (Set.Icc 1 (2 ^ 31 - 2))
    (Set.Icc 1 (2 ^ 31 - 2)) := by
  induction n with
  | zero => exact Set.bijOn_id _
  | succ n ih => exact rand_permutes.comp ih

end ChiffOS.Net
