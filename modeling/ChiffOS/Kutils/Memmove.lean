import ChiffOS.Lib.Bytes

/-! `memcpy` and `memmove`. The loops copy bytes or dwords, upwards or downwards; what each of them leaves is
compared with a copy that is made at once. -/

namespace ChiffOS.Kutils

def copy (m : Buf) (d s len : ℕ) : Buf := m.blit d (m.drop s) len

/-- A loop that copies `k` units of `w` bytes, the lowest first. -/
def up (w : ℕ) : (k : ℕ) → Buf → (d s : ℕ) → Buf
  | 0, m, _, _ => m
  | k + 1, m, d, s => up w k (copy m d s w) (d + w) (s + w)

/-- A loop that copies `k` units of `w` bytes, the highest first. -/
def down (w : ℕ) : (k : ℕ) → Buf → (d s : ℕ) → Buf
  | 0, m, _, _ => m
  | k + 1, m, d, s => down w k (copy m (d + w * k) (s + w * k) w) d s

def memcpy (m : Buf) (dest src n : ℕ) : Buf :=
  up 1 (n % 4) (up 4 (n / 4) m dest src) (dest + n / 4 * 4) (src + n / 4 * 4)

/-- `while ((uintptr_t)d % sizeof(size_t))`: the memory, and `d`, `s` and `n` unless it has returned. -/
def alignUp : (n : ℕ) → Buf → (d s : ℕ) → Buf × Option (ℕ × ℕ × ℕ)
  | 0, m, d, s => (m, if d % 4 = 0 then some (d, s, 0) else none)
  | n + 1, m, d, s => if d % 4 = 0 then (m, some (d, s, n + 1)) else alignUp n (copy m d s 1) (d + 1) (s + 1)

/-- `while ((uintptr_t)(d+n) % sizeof(size_t))`: the memory, and `n` unless it has returned. -/
def alignDown : (n : ℕ) → Buf → (d s : ℕ) → Buf × Option ℕ
  | 0, m, d, _ => (m, if d % 4 = 0 then some 0 else none)
  | n + 1, m, d, s =>
    if (d + (n + 1)) % 4 = 0 then (m, some (n + 1)) else alignDown n (copy m (d + n) (s + n) 1) d s

/-- `memmove`. The ends of the ranges are pointers of 32 bits. -/
def memmove (m : Buf) (dest src n : ℕ) : Buf :=
  if dest = src then m
  else if (src + n) % 2 ^ 32 ≤ dest ∨ (dest + n) % 2 ^ 32 ≤ src then memcpy m dest src n
  else if dest < src then
    if src % 4 = dest % 4 then
      match alignUp n m dest src with
      | (m, none) => m
      | (m, some (d, s, n)) => up 1 (n % 4) (up 4 (n / 4) m d s) (d + n / 4 * 4) (s + n / 4 * 4)
    else up 1 n m dest src
  else
    if src % 4 = dest % 4 then
      match alignDown n m dest src with
      | (m, none) => m
      | (m, some n) => down 1 (n % 4) (down 4 (n / 4) m (dest + n % 4) (src + n % 4)) dest src
    else down 1 n m dest src

variable {m : Buf} {d s : ℕ}

theorem copy_apply (m : Buf) (d s len i : ℕ) :
    copy m d s len i = if d ≤ i ∧ i < d + len then m (s + (i - d)) else m i := rfl

theorem copy_zero (m : Buf) (d s : ℕ) : copy m d s 0 = m := by
  funext i
  rw [copy_apply, if_neg (by omega)]

theorem copy_self (m : Buf) (d len : ℕ) : copy m d d len = m := by
  funext i
  rw [copy_apply]
  split
  · congr 1
    omega
  · rfl

/-- Copying upwards does not overwrite what is still to be read, if the source is above or out of the way. -/
theorem copy_up {a b : ℕ} (h : d ≤ s ∨ s + (a + b) ≤ d) :
    copy (copy m d s a) (d + a) (s + a) b = copy m d s (a + b) := by
  funext i
  simp only [copy_apply]
  by_cases hi : d + a ≤ i ∧ i < d + a + b
  · rw [if_pos hi, if_neg (by omega), if_pos (by omega)]
    congr 1
    omega
  · rw [if_neg hi]
    by_cases hi' : d ≤ i ∧ i < d + a
    · rw [if_pos hi', if_pos (by omega)]
    · rw [if_neg hi', if_neg (by omega)]

theorem copy_down {a b : ℕ} (h : s ≤ d) :
    copy (copy m (d + b) (s + b) a) d s b = copy m d s (b + a) := by
  funext i
  simp only [copy_apply]
  by_cases hi : d ≤ i ∧ i < d + b
  · rw [if_pos hi, if_neg (by omega), if_pos (by omega)]
  · rw [if_neg hi]
    by_cases hi' : d + b ≤ i ∧ i < d + b + a
    · rw [if_pos hi', if_pos (by omega)]
      congr 1
      omega
    · rw [if_neg hi', if_neg (by omega)]

theorem up_eq_copy (w : ℕ) : ∀ (k : ℕ) (m : Buf) (d s : ℕ), d ≤ s ∨ s + w * k ≤ d →
    up w k m d s = copy m d s (w * k) := by
  intro k
  induction k with
  | zero =>
    intro m d s _
    exact (copy_zero m d s).symm
  | succ k ih =>
    intro m d s h
    have hw : w * (k + 1) = w + w * k := by ring
    rw [hw] at h ⊢
    rw [up, ih _ _ _ (by omega), copy_up h]

theorem down_eq_copy (w : ℕ) (h : s ≤ d) : ∀ (k : ℕ) (m : Buf), down w k m d s = copy m d s (w * k) := by
  intro k
  induction k with
  | zero =>
    intro m
    exact (copy_zero m d s).symm
  | succ k ih =>
    intro m
    rw [down, ih, copy_down h, Nat.mul_succ]

theorem up_dwords {n : ℕ} (h : d ≤ s ∨ s + n ≤ d) :
    up 1 (n % 4) (up 4 (n / 4) m d s) (d + n / 4 * 4) (s + n / 4 * 4) = copy m d s n := by
  have hn : n / 4 * 4 + 1 * (n % 4) = n := by omega
  rw [up_eq_copy 4 _ _ _ _ (by omega), up_eq_copy 1 _ _ _ _ (by omega), Nat.mul_comm 4,
    copy_up (by omega), hn]

theorem down_dwords (n : ℕ) (h : s ≤ d) :
    down 1 (n % 4) (down 4 (n / 4) m (d + n % 4) (s + n % 4)) d s = copy m d s n := by
  have hn : n % 4 + 4 * (n / 4) = n := by omega
  rw [down_eq_copy 4 (by omega), down_eq_copy 1 h, Nat.one_mul, copy_down h, hn]

theorem alignUp_spec : ∀ (n : ℕ) (m : Buf) (d s : ℕ), d ≤ s →
    alignUp n m d s = (copy m d s n, none) ∨
      ∃ a r, a + r = n ∧ alignUp n m d s = (copy m d s a, some (d + a, s + a, r)) := by
  intro n
  induction n with
  | zero =>
    intro m d s _
    unfold alignUp
    split
    · exact Or.inr ⟨0, 0, rfl, by rw [copy_zero]; rfl⟩
    · exact Or.inl (by rw [copy_zero])
  | succ n ih =>
    intro m d s h
    unfold alignUp
    split
    · exact Or.inr ⟨0, n + 1, by omega, by rw [copy_zero]; rfl⟩
    · have hone : ∀ a, copy (copy m d s 1) (d + 1) (s + 1) a = copy m d s (1 + a) := fun a =>
        copy_up (Or.inl h)
      obtain hr | ⟨a, r, har, hr⟩ := ih (copy m d s 1) (d + 1) (s + 1) (by omega)
      · exact Or.inl (by rw [hr, hone, Nat.add_comm])
      · exact Or.inr ⟨1 + a, r, by omega, by rw [hr, hone, Nat.add_assoc, Nat.add_assoc]⟩

theorem alignDown_spec (h : s ≤ d) : ∀ (n : ℕ) (m : Buf),
    alignDown n m d s = (copy m d s n, none) ∨
      ∃ a r, r + a = n ∧ alignDown n m d s = (copy m (d + r) (s + r) a, some r) := by
  intro n
  induction n with
  | zero =>
    intro m
    unfold alignDown
    split
    · exact Or.inr ⟨0, 0, rfl, by rw [copy_zero]⟩
    · exact Or.inl (by rw [copy_zero])
  | succ n ih =>
    intro m
    unfold alignDown
    split
    · exact Or.inr ⟨0, n + 1, rfl, by rw [copy_zero]⟩
    · obtain hr | ⟨a, r, har, hr⟩ := ih (copy m (d + n) (s + n) 1)
      · exact Or.inl (by rw [hr, copy_down h])
      · refine Or.inr ⟨a + 1, r, by omega, ?_⟩
        subst har
        rw [hr, ← Nat.add_assoc d, ← Nat.add_assoc s, copy_down (by omega)]

/-- After `memmove` the destination has the bytes that were in the source, whatever the overlap and the
alignment, and nothing else has changed. The pointers behind the ranges must exist: the end of a range that
has the last byte of the address space compares as the lowest address. -/
theorem memmove_moves (m : Buf) (dest src n : ℕ) (hd : dest + n < 2 ^ 32) (hs : src + n < 2 ^ 32) :
    (∀ i < n, memmove m dest src n (dest + i) = m (src + i)) ∧
      ∀ a, a < dest ∨ dest + n ≤ a → memmove m dest src n a = m a := by
  have key : memmove m dest src n = copy m dest src n := by
    unfold memmove
    rw [Nat.mod_eq_of_lt hd, Nat.mod_eq_of_lt hs]
    by_cases heq : dest = src
    · rw [if_pos heq, heq, copy_self]
    rw [if_neg heq]
    by_cases happart : src + n ≤ dest ∨ dest + n ≤ src
    · rw [if_pos happart]
      exact up_dwords (by omega)
    rw [if_neg happart]
    by_cases hlt : dest < src
    · rw [if_pos hlt]
      split
      · obtain hr | ⟨a, r, har, hr⟩ := alignUp_spec n m dest src hlt.le
        · rw [hr]
        · rw [hr]
          simp only
          rw [up_dwords (by omega), copy_up (Or.inl hlt.le), har]
      · rw [up_eq_copy 1 _ _ _ _ (Or.inl hlt.le), Nat.one_mul]
    · rw [if_neg hlt]
      have hge : src ≤ dest := by omega
      split
      · obtain hr | ⟨a, r, har, hr⟩ := alignDown_spec hge n m
        · rw [hr]
        · rw [hr]
          simp only
          rw [down_dwords r hge, copy_down hge, har]
      · rw [down_eq_copy 1 hge, Nat.one_mul]
  rw [key]
  constructor
  · intro i hi
    rw [copy_apply, if_pos (by omega)]
    congr 1
    omega
  · intro a ha
    rw [copy_apply, if_neg (by omega)]

theorem memmove_moves_overlap : memmove (fun i => UInt8.ofNat i) 5 2 9 (5 + 8) = UInt8.ofNat (2 + 8) :=
  (memmove_moves (fun i => UInt8.ofNat i) 5 2 9 (by decide) (by decide)).1 8 (by decide)

end ChiffOS.Kutils
