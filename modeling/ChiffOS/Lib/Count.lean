import Mathlib.Tactic

/-! What overwriting one element of a list does to counts and sums over it, and to what is selected from it. -/

namespace ChiffOS

open List

variable {α : Type}

theorem countP_set_add {l : List α} {p : α → Bool} {i : ℕ} {a : α} (h : l[i]? = some a) (b : α) :
    (l.set i b).countP p + (if p a then 1 else 0) = l.countP p + if p b then 1 else 0 := by
  obtain ⟨hi, rfl⟩ := List.getElem?_eq_some_iff.mp h
  have hle : (if p l[i] then 1 else 0) ≤ l.countP p := by
    split_ifs with hp
    · exact countP_pos_iff.mpr ⟨_, getElem_mem hi, hp⟩
    · exact Nat.zero_le _
  rw [countP_set hi]
  omega

theorem sum_map_set_add {f : α → ℕ} {l : List α} : ∀ {i : ℕ} {a : α}, l[i]? = some a → ∀ b,
    ((l.set i b).map f).sum + f a = (l.map f).sum + f b := by
  induction l with
  | nil =>
    intro i a h
    simp at h
  | cons x l ih =>
    intro i a h b
    cases i with
    | zero =>
      obtain rfl : x = a := by simpa using h
      simp only [set_cons_zero, map_cons, sum_cons]
      omega
    | succ i =>
      have hrest := ih (by simpa using h) b
      simp only [set_cons_succ, map_cons, sum_cons]
      omega

theorem filterMap_set {β : Type} {f : α → Option β} {l : List α} {i : ℕ} {a : α} (h : l[i]? = some a)
    (b : α) :
    ∃ before after, l.filterMap f = before ++ (f a).toList ++ after ∧
      (l.set i b).filterMap f = before ++ (f b).toList ++ after := by
  obtain ⟨hi, rfl⟩ := List.getElem?_eq_some_iff.mp h
  have hone : ∀ x : α, [x].filterMap f = (f x).toList := fun x => by cases hx : f x <;> simp [hx]
  refine ⟨(l.take i).filterMap f, (l.drop (i + 1)).filterMap f, ?_, ?_⟩
  · rw [← hone, ← filterMap_append, ← filterMap_append, append_assoc, singleton_append,
      cons_getElem_drop_succ, take_append_drop]
  · rw [← hone, ← filterMap_append, ← filterMap_append, append_assoc, singleton_append,
      set_eq_take_append_cons_drop, if_pos hi]

end ChiffOS
