import Mathlib.Tactic

/-! Records one after another in a window, each of its own length: what stands at a place is the record
there, and the next record begins where it ends. -/

namespace ChiffOS.Tiling

variable {R : Type} {len : R → ℕ} {at_ : ℕ → R} {size o : ℕ} {rs l r : List R}

def span (len : R → ℕ) (rs : List R) : ℕ := (rs.map len).sum

def Tiles (len : R → ℕ) (at_ : ℕ → R) (size : ℕ) : ℕ → List R → Prop
  | o, [] => o = size
  | o, r :: rs => at_ o = r ∧ 0 < len r ∧ Tiles len at_ size (o + len r) rs

def parse (len : R → ℕ) (at_ : ℕ → R) (size : ℕ) : (fuel o : ℕ) → List R
  | 0, _ => []
  | fuel + 1, o => if o < size then at_ o :: parse len at_ size fuel (o + len (at_ o)) else []

@[simp] theorem span_nil : span len [] = 0 := rfl

@[simp] theorem span_cons (x : R) : span len (x :: rs) = len x + span len rs := by simp [span]

@[simp] theorem span_append : span len (l ++ r) = span len l + span len r := by simp [span]

theorem Tiles.end_eq (h : Tiles len at_ size o rs) : o + span len rs = size := by
  induction rs generalizing o with
  | nil => exact h
  | cons x rs ih =>
    have := ih h.2.2
    rw [span_cons]
    omega

theorem tiles_append : Tiles len at_ size o (l ++ r) ↔
    Tiles len at_ (o + span len l) o l ∧ Tiles len at_ size (o + span len l) r := by
  induction l generalizing o with
  | nil => simp [Tiles]
  | cons x l ih => simp only [List.cons_append, Tiles, ih, span_cons, ← Nat.add_assoc, and_assoc]

theorem Tiles.length_le (h : Tiles len at_ size o rs) : rs.length ≤ size - o := by
  induction rs generalizing o with
  | nil => simp
  | cons x rs ih =>
    have h1 := ih h.2.2
    have h2 := h.2.2.end_eq
    have h3 := h.2.1
    rw [List.length_cons]
    omega

theorem Tiles.parse (h : Tiles len at_ size o rs) {fuel : ℕ} (hf : rs.length ≤ fuel) :
    parse len at_ size fuel o = rs := by
  induction fuel generalizing o rs with
  | zero => exact (List.eq_nil_of_length_eq_zero (Nat.le_zero.mp hf)).symm
  | succ fuel ih =>
    cases rs with
    | nil =>
      have hend : o = size := h
      simp [Tiling.parse, hend]
    | cons x rs =>
      obtain ⟨rfl, hpos, hrest⟩ := h
      have hend := hrest.end_eq
      rw [Tiling.parse, if_pos (by omega), ih hrest (by simpa using hf)]

theorem mem_parse {fuel : ℕ} {x : R} (h : x ∈ parse len at_ size fuel o) : ∃ o', x = at_ o' := by
  induction fuel generalizing o with
  | zero => exact absurd h (by simp [parse])
  | succ fuel ih =>
    unfold parse at h
    split_ifs at h
    · rcases List.mem_cons.mp h with rfl | h
      · exact ⟨o, rfl⟩
      · exact ih h
    · simp at h

end ChiffOS.Tiling
