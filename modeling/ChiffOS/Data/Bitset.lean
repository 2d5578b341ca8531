import ChiffOS.Lib.Bits

/-! The growable bit set: `bitset_init`, `bitset_set`, `bitset_clear`, `bitset_test` and `bitset_ffub`. An
access behind the data array has no result. -/

namespace ChiffOS.Data

/-- `bitset_t`: the bytes behind `data` and how many of them are its own. -/
structure Bitset where
  data : Buf
  size : ℕ

namespace Bitset

/-- `CEIL(NUMBER, 8)`, of a size that is rounded up within an `int`. -/
def ceil (size : ℕ) : ℕ := (size + 7) / 8 * 8

def init (size : ℕ) : Bitset := ⟨fun _ => 0, ceil size⟩

/-- `bitset_resize`; `realloc` keeps the old bytes. -/
def resize (s : Bitset) (size : ℤ) : Bitset :=
  if size ≤ s.size then s
  else ⟨s.data.clear s.size (size.toNat - s.size), size.toNat⟩

def doubled (size : ℕ) : ℤ := (2 * size : ℤ).bmod (2 ^ 32)

def set (s : Bitset) (bit : ℕ) : Option Bitset :=
  let s := if s.size ≤ bit / 8 then s.resize (doubled s.size) else s
  if bit / 8 < s.size then some { s with data := s.data.setBit bit } else none

/-- `data[index] &= ~mask`. -/
def clearBit (b : Buf) (n : ℕ) : Buf :=
  fun i => if i = n / 8 then UInt8.ofNat ((b i).toNat &&& (255 - 2 ^ (n % 8))) else b i

def clear (s : Bitset) (bit : ℕ) : Option Bitset :=
  if bit / 8 < s.size then some { s with data := clearBit s.data bit } else none

def test (s : Bitset) (bit : ℕ) : Option Bool :=
  if bit / 8 < s.size then some (s.data.bit bit) else none

/-- `set->size * 8` in an `int`: no bit is below a negative bound. -/
def bound (size : ℕ) : ℕ := ((8 * size : ℤ).bmod (2 ^ 32)).toNat

def ffubLoop (s : Bitset) : (left i : ℕ) → Option ℤ
  | 0, _ => some (-1)
  | left + 1, i => do
    if ← s.test i then s.ffubLoop left (i + 1) else some i

def ffub (s : Bitset) : Option ℤ := s.ffubLoop (bound s.size) 0

inductive Op where
  | set (bit : ℕ)
  | clear (bit : ℕ)
  | test (bit : ℕ)
deriving DecidableEq

def step (s : Bitset) : Op → Option Bitset
  | .set bit => s.set bit
  | .clear bit => s.clear bit
  | .test bit => (s.test bit).map fun _ => s

def run (s : Bitset) : List Op → Option Bitset
  | [] => some s
  | op :: ops => (s.step op).bind fun s => s.run ops

/-! ### What the operations are for -/

def mark (m : ℕ → Bool) : Op → ℕ → Bool
  | .set bit => Function.update m bit true
  | .clear bit => Function.update m bit false
  | .test _ => m

def marked (ops : List Op) : ℕ → Bool := ops.foldl mark fun _ => false

def grow (size : ℕ) : Op → ℕ
  | .set bit => if size ≤ bit / 8 then 2 * size else size
  | _ => size

def Admitted (size : ℕ) : List Op → Prop
  | [] => True
  | op :: ops =>
    (match op with
      | .set bit => bit < 2 ^ 31
      | .clear bit => bit / 8 < size
      | .test bit => bit / 8 < size) ∧ Admitted (grow size op) ops

def Fits (size : ℕ) : List Op → Prop
  | [] => True
  | op :: ops =>
    (match op with
      | .set bit => bit / 8 < 2 * size
      | _ => True) ∧ Fits (grow size op) ops

/-- `r` is the least clear bit of the first `n`, or -1 if there is none. -/
def LeastClear (m : ℕ → Bool) (n : ℕ) (r : ℤ) : Prop :=
  (∃ b : ℕ, r = b ∧ b < n ∧ m b = false ∧ ∀ i < b, m i = true) ∨ r = -1 ∧ ∀ i < n, m i = true

structure Holds (s : Bitset) (m : ℕ → Bool) : Prop where
  bits : ∀ b < 8 * s.size, s.data.bit b = m b
  outside : ∀ b, 8 * s.size ≤ b → m b = false

theorem bit_clearBit (b : Buf) (n k : ℕ) : (clearBit b n).bit k = (b.bit k && decide (k ≠ n)) := by
  have key : ∀ i < 8, ∀ j < 8, Nat.testBit (255 - 2 ^ i) j = decide (j ≠ i) := by decide
  by_cases hq : k / 8 = n / 8
  · have hv : ((b (n / 8)).toNat &&& (255 - 2 ^ (n % 8))) % 2 ^ 8 =
        (b (n / 8)).toNat &&& (255 - 2 ^ (n % 8)) := by
      apply Nat.mod_eq_of_lt
      exact lt_of_le_of_lt Nat.and_le_left (b (n / 8)).toNat_lt
    have hk : k % 8 = n % 8 ↔ k = n := by omega
    simp only [Buf.bit, clearBit, hq, if_true, UInt8.toNat_ofNat', hv, Nat.testBit_and,
      key (n % 8) (Nat.mod_lt _ (by decide)) (k % 8) (Nat.mod_lt _ (by decide)), ne_eq, hk]
  · have hk : k ≠ n := by
      rintro rfl
      exact hq rfl
    simp [Buf.bit, clearBit, hq, hk]

theorem bit_clear_range (b : Buf) {o l k : ℕ} (h1 : o ≤ k / 8) (h2 : k / 8 < o + l) : (b.clear o l).bit k =
    false := by
  simp [Buf.bit, Buf.clear, Buf.blit, h1, h2]

theorem bit_clear_below (b : Buf) {o l k : ℕ} (h : k / 8 < o) : (b.clear o l).bit k = b.bit k := by
  apply Buf.bit_congr
  simp only [Buf.clear, Buf.blit]
  rw [if_neg (by omega)]

theorem init_holds (n : ℕ) : Holds (init n) fun _ => false where
  bits := by
    intro b _
    simp [init, Buf.bit]
  outside := fun _ _ => rfl

theorem doubled_eq {size : ℕ} (h : size < 2 ^ 28) : doubled size = (2 * size : ℕ) := by
  unfold doubled
  rw [Int.bmod_eq_of_le] <;> push_cast <;> omega

/-- Growing keeps the bits and adds clear ones. -/
theorem Holds.resize {s : Bitset} {m : ℕ → Bool} (h : Holds s m) {size : ℕ} (hs : s.size < size) :
    Holds (s.resize size) m ∧ (s.resize size).size = size := by
  have hr : s.resize size = ⟨s.data.clear s.size (size - s.size), size⟩ := by
    unfold Bitset.resize
    rw [if_neg (by omega), Int.toNat_natCast]
  rw [hr]
  refine ⟨⟨?_, ?_⟩, rfl⟩
  · intro b hb
    dsimp only at hb ⊢
    by_cases hlt : b < 8 * s.size
    · rw [bit_clear_below s.data (by omega)]
      exact h.bits b hlt
    · rw [bit_clear_range s.data (by omega) (by omega)]
      exact (h.outside b (by omega)).symm
  · intro b hb
    exact h.outside b (by dsimp only at hb; omega)

theorem Holds.mark_inside {s : Bitset} {m : ℕ → Bool} (h : Holds s m) {bit : ℕ} (hb : bit / 8 < s.size)
    {data : Buf} {v : Bool} (hd : ∀ k, data.bit k = if k = bit then v else s.data.bit k) :
    Holds { s with data := data } (Function.update m bit v) := by
  refine ⟨?_, ?_⟩
  · intro k hk
    rw [hd, Function.update_apply]
    split
    · rfl
    · exact h.bits k hk
  · intro k hk
    dsimp only at hk
    rw [Function.update_apply, if_neg (by omega)]
    exact h.outside k hk

theorem set_spec {s : Bitset} {m : ℕ → Bool} (h : Holds s m) {bit : ℕ} (hb : bit < 2 ^ 31) :
    (bit / 8 < 2 * s.size → ∃ s', s.set bit = some s' ∧ Holds s' (Function.update m bit true) ∧
      s'.size = grow s.size (.set bit)) ∧ (¬ bit / 8 < 2 * s.size → s.set bit = none) := by
  by_cases hle : s.size ≤ bit / 8
  · have hd : doubled s.size = (2 * s.size : ℕ) := doubled_eq (by omega)
    have hset : s.set bit = if bit / 8 < (s.resize (doubled s.size)).size then
        some { s.resize (doubled s.size) with data := (s.resize (doubled s.size)).data.setBit bit }
          else none := by
      simp only [set, hle, if_true]
    rw [hset, hd]
    by_cases h0 : s.size < 2 * s.size
    · obtain ⟨hh, hsz⟩ := h.resize h0
      rw [hsz]
      constructor
      · intro hlt
        rw [if_pos hlt]
        refine ⟨_, rfl, hh.mark_inside (by rw [hsz]; exact hlt) (fun k => ?_), ?_⟩
        · rw [Buf.bit_setBit]
          split <;> simp [*]
        · simp only [grow, hle, if_true, hsz]
      · intro hlt
        rw [if_neg hlt]
    · have hz : s.size = 0 := by omega
      constructor
      · intro hlt
        omega
      · intro _
        simp [Bitset.resize, hz]
  · have hset : s.set bit = some { s with data := s.data.setBit bit } := by
      have hlt : bit / 8 < s.size := by omega
      simp only [set, hle, if_false, hlt, if_true]
    constructor
    · intro _
      refine ⟨_, hset, h.mark_inside (by omega) (fun k => ?_), by simp only [grow, hle, if_false]⟩
      rw [Buf.bit_setBit]
      split <;> simp [*]
    · intro hlt
      omega

theorem clear_spec {s : Bitset} {m : ℕ → Bool} (h : Holds s m) {bit : ℕ} (hb : bit / 8 < s.size) :
    ∃ s', s.clear bit = some s' ∧ Holds s' (Function.update m bit false) ∧ s'.size = s.size := by
  refine ⟨_, if_pos hb, h.mark_inside hb (fun k => ?_), rfl⟩
  rw [bit_clearBit]
  split <;> simp [*]

theorem test_spec {s : Bitset} {m : ℕ → Bool} (h : Holds s m) {bit : ℕ} (hb : bit < 8 * s.size) :
    s.test bit = some (m bit) := by
  unfold test
  rw [if_pos (by omega), h.bits bit hb]

theorem run_spec : ∀ (ops : List Op) (s : Bitset) (m : ℕ → Bool), Holds s m → Admitted s.size ops →
    (Fits s.size ops → ∃ s', s.run ops = some s' ∧ Holds s' (ops.foldl mark m) ∧
      s'.size = ops.foldl grow s.size) ∧ (¬ Fits s.size ops → s.run ops = none) := by
  intro ops
  induction ops with
  | nil =>
    intro s m h _
    exact ⟨fun _ => ⟨s, rfl, h, rfl⟩, fun hn => absurd trivial hn⟩
  | cons op ops ih =>
    intro s m h ha
    obtain ⟨hop, ha⟩ := ha
    -- a step that goes through leaves the rest of the run to the induction hypothesis
    have hrest : ∀ s', s.step op = some s' → Holds s' (mark m op) → s'.size = grow s.size op →
        (Fits (grow s.size op) ops → ∃ s'', s.run (op :: ops) = some s'' ∧
          Holds s'' ((op :: ops).foldl mark m) ∧ s''.size = (op :: ops).foldl grow s.size) ∧
        (¬ Fits (grow s.size op) ops → s.run (op :: ops) = none) := by
      intro s' hs hh hsz
      obtain ⟨h1, h2⟩ := ih s' (mark m op) hh (hsz ▸ ha)
      have hrun : s.run (op :: ops) = s'.run ops := by simp only [run, hs, Option.bind_some]
      rw [hrun, List.foldl_cons, List.foldl_cons, ← hsz]
      exact ⟨h1, h2⟩
    cases op with
    | set bit =>
      obtain ⟨hset, hnone⟩ := set_spec h hop
      by_cases hlt : bit / 8 < 2 * s.size
      · obtain ⟨s', hs, hh, hsz⟩ := hset hlt
        obtain ⟨h1, h2⟩ := hrest s' hs hh hsz
        exact ⟨fun hf => h1 hf.2, fun hf => h2 fun hf' => hf ⟨hlt, hf'⟩⟩
      · refine ⟨fun hf => absurd hf.1 hlt, fun _ => ?_⟩
        simp only [run, step, hnone hlt, Option.bind_none]
    | clear bit =>
      obtain ⟨s', hs, hh, hsz⟩ := clear_spec h hop
      obtain ⟨h1, h2⟩ := hrest s' hs hh hsz
      exact ⟨fun hf => h1 hf.2, fun hf => h2 fun hf' => hf ⟨trivial, hf'⟩⟩
    | test bit =>
      have hs : s.step (.test bit) = some s := by
        simp only [step, test, if_pos hop, Option.map_some]
      obtain ⟨h1, h2⟩ := hrest s hs h rfl
      exact ⟨fun hf => h1 hf.2, fun hf => h2 fun hf' => hf ⟨trivial, hf'⟩⟩

/-! ### The first clear bit -/

theorem bound_le (size : ℕ) : bound size ≤ 8 * size := by
  have := Int.bmod_le (x := 8 * size) (m := 2 ^ 32) (by decide)
  unfold bound
  by_cases h : (8 * size : ℤ) < 2 ^ 31
  · rw [Int.bmod_eq_of_le] <;> push_cast <;> omega
  · omega

theorem ffubLoop_spec {s : Bitset} {m : ℕ → Bool} (h : Holds s m) : ∀ (left i : ℕ), i + left ≤ 8 * s.size →
    (∀ k < i, m k = true) → ∃ r, s.ffubLoop left i = some r ∧ LeastClear m (i + left) r := by
  intro left
  induction left with
  | zero =>
    intro i _ hi
    exact ⟨-1, rfl, Or.inr ⟨rfl, hi⟩⟩
  | succ left ih =>
    intro i hle hi
    have ht : s.test i = some (m i) := test_spec h (by omega)
    cases hm : m i with
    | false =>
      refine ⟨i, ?_, Or.inl ⟨i, rfl, by omega, hm, hi⟩⟩
      simp only [ffubLoop, ht, hm, Option.bind_eq_bind, Option.bind_some, Bool.false_eq_true, if_false]
    | true =>
      have hrun : s.ffubLoop (left + 1) i = s.ffubLoop left (i + 1) := by
        simp only [ffubLoop, ht, hm, Option.bind_eq_bind, Option.bind_some, if_true]
      rw [hrun, show i + (left + 1) = i + 1 + left by omega]
      apply ih (i + 1) (by omega)
      intro k hk
      by_cases hki : k = i
      · rw [hki, hm]
      · exact hi k (by omega)

/-- The bits the loop does not come to matter only if no other is clear. -/
theorem leastClear_iff {m : ℕ → Bool} {n n' : ℕ} {r : ℤ} (hn : n ≤ n') (h : LeastClear m n r) :
    LeastClear m n' r ↔ ((∃ i < n', m i = false) → ∃ i < n, m i = false) := by
  obtain ⟨b, rfl, hb, hm, hlt⟩ | ⟨rfl, hall⟩ := h
  · exact ⟨fun _ _ => ⟨b, hb, hm⟩, fun _ => Or.inl ⟨b, rfl, by omega, hm, hlt⟩⟩
  · constructor
    · rintro (⟨b, hr, _⟩ | ⟨_, hall'⟩) ⟨i, hi, hmi⟩
      · omega
      · rw [hall' i hi] at hmi
        cases hmi
    · intro himp
      refine Or.inr ⟨rfl, fun i hi => ?_⟩
      cases hmi : m i with
      | true => rfl
      | false =>
        obtain ⟨j, hj, hmj⟩ := himp ⟨i, hi, hmi⟩
        rw [hall j hj] at hmj
        cases hmj

/-- The bit set does what it is for exactly when no bit that is set is behind twice the size at that time,
and a clear bit, if there is one, is below what `size * 8` is in an `int`. -/
theorem bitset_correct_iff (n : ℕ) (ops : List Op) (ha : Admitted (ceil n) ops) :
    (∃ s, (init n).run ops = some s ∧ (∀ b < 8 * s.size, s.test b = some (marked ops b)) ∧
      ∃ r, s.ffub = some r ∧ LeastClear (marked ops) (8 * s.size) r) ↔
    Fits (ceil n) ops ∧ ((∃ i < 8 * ops.foldl grow (ceil n), marked ops i = false) →
      ∃ i < bound (ops.foldl grow (ceil n)), marked ops i = false) := by
  obtain ⟨hfit, hnone⟩ := run_spec ops (init n) _ (init_holds n) ha
  by_cases hf : Fits (ceil n) ops
  · obtain ⟨s, hs, hh, hsz⟩ := hfit hf
    have hsz : s.size = ops.foldl grow (ceil n) := hsz
    obtain ⟨r, hr, hl⟩ := ffubLoop_spec hh (bound s.size) 0 (by have := bound_le s.size; omega)
      (by intro k hk; omega)
    rw [Nat.zero_add] at hl
    have hiff := leastClear_iff (bound_le s.size) hl
    rw [← hsz]
    constructor
    · rintro ⟨s', hs', _, r', hr', hl'⟩
      obtain rfl : s' = s := by
        rw [hs] at hs'
        exact (Option.some.inj hs').symm
      obtain rfl : r' = r := Option.some.inj (hr'.symm.trans hr)
      exact ⟨hf, hiff.mp hl'⟩
    · rintro ⟨_, himp⟩
      exact ⟨s, hs, fun b hb => test_spec hh hb, r, hr, hiff.mpr himp⟩
  · constructor
    · rintro ⟨s, hs, _⟩
      rw [hnone hf] at hs
      cases hs
    · rintro ⟨hf', _⟩
      exact absurd hf' hf

/-- Bit 70 doubles the 8 bytes of a fresh set, and bit 0 is cleared again. -/
theorem bitset_correct_grown :
    ∃ s, (init 1).run [.set 0, .set 70, .test 70, .clear 0, .set 1] = some s ∧ s.size = 16 ∧
      s.test 70 = some true ∧ s.test 0 = some false ∧ s.test 1 = some true ∧ s.ffub = some 0 := by
  have hadm : Admitted (ceil 1) [.set 0, .set 70, .test 70, .clear 0, .set 1] :=
    ⟨by decide, by decide, by decide, by decide, by decide, trivial⟩
  have hfits : Fits (ceil 1) [.set 0, .set 70, .test 70, .clear 0, .set 1] :=
    ⟨by decide, by decide, trivial, trivial, by decide, trivial⟩
  obtain ⟨s, hs, htest, r, hr, hl⟩ :=
    (bitset_correct_iff 1 _ hadm).mpr ⟨hfits, fun _ => ⟨0, by decide, by decide⟩⟩
  have hsize : s.size = 16 := by
    have h : ((init 1).run [.set 0, .set 70, .test 70, .clear 0, .set 1]).map size = some 16 := by decide
    rw [hs] at h
    exact Option.some.inj h
  rw [hsize] at htest hl
  refine ⟨s, hs, hsize, htest 70 (by decide), htest 0 (by decide), htest 1 (by decide), ?_⟩
  obtain ⟨b, rfl, _, _, hbelow⟩ | ⟨_, hall⟩ := hl
  · obtain rfl : b = 0 := by
      by_contra hb
      exact absurd (hbelow 0 (by omega)) (by decide)
    exact hr
  · exact absurd (hall 0 (by decide)) (by decide)

/-- Bit 200 of a fresh set of one bit is written behind the 16 bytes that the set grows to. -/
theorem bitset_set_outside : (init 1).run [.set 200] = none := by decide

end Bitset

end ChiffOS.Data
