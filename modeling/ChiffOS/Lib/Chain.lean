import Mathlib.Data.List.Basic
import Mathlib.Data.List.Nodup
import Mathlib.Tactic

/-! Linked lists as a `next` function. A place is an `Option α`: as an argument of `next`, `none`
is the place before the first node; as a result it is the end of the list. -/

namespace ChiffOS

open List

variable {α : Type*} {next next' : Option α → Option α} {u : Option α} {a v : α} {xs ys : List α}

/-- From the place `u` on, `next` runs through `xs` and then ends. -/
def Chain (next : Option α → Option α) : Option α → List α → Prop
  | u, [] => next u = none
  | u, a :: xs => next u = some a ∧ Chain next (some a) xs

def lastPlace (u : Option α) (xs : List α) : Option α := xs.getLast?.or u

namespace Chain

@[simp] theorem nil_iff : Chain next u [] ↔ next u = none := Iff.rfl

theorem head (h : Chain next u xs) : next u = xs.head? := by
  cases xs with
  | nil => exact h
  | cons a xs => exact h.1

/-- A list is kept where its links are, even from another place. -/
theorem congr {u' : Option α} (h : Chain next u xs) (hu : next' u' = next u)
    (hx : ∀ a ∈ xs, next' (some a) = next (some a)) : Chain next' u' xs := by
  induction xs generalizing u u' with
  | nil => exact hu.trans h
  | cons a xs ih =>
    exact ⟨hu.trans h.1, ih h.2 (hx a mem_cons_self) fun b hb => hx b (mem_cons_of_mem a hb)⟩

end Chain

@[simp] theorem lastPlace_nil : lastPlace u [] = u := rfl

@[simp] theorem lastPlace_cons : lastPlace u (a :: xs) = lastPlace (some a) xs := by
  cases xs with
  | nil => simp [lastPlace]
  | cons b xs => simp [lastPlace, List.getLast?_cons]

theorem lastPlace_append : lastPlace u (xs ++ ys) = lastPlace (lastPlace u xs) ys := by
  induction xs generalizing u with
  | nil => rfl
  | cons a xs ih => simp [ih]

theorem lastPlace_mem (h : lastPlace u xs = some a) : u = some a ∨ a ∈ xs := by
  induction xs generalizing u with
  | nil => exact .inl h
  | cons b xs ih =>
    rw [lastPlace_cons] at h
    rcases ih h with h | h
    · exact .inr (by simp [Option.some.inj h])
    · exact .inr (mem_cons_of_mem b h)

theorem ne_lastPlace (hn : (xs ++ ys).Nodup) (ha : a ∈ ys) : some a ≠ lastPlace none xs := fun he =>
  (nodup_append.mp hn).2.2 a ((lastPlace_mem he.symm).resolve_left (by simp)) a ha rfl

namespace Chain

/-- The rest of a list, from the place its first part ends in. -/
theorem suffix (h : Chain next u (xs ++ ys)) : Chain next (lastPlace u xs) ys := by
  induction xs generalizing u with
  | nil => exact h
  | cons a xs ih => exact lastPlace_cons ▸ ih h.2

theorem replace {ys' : List α} (h : Chain next u (xs ++ ys)) (hn : (xs ++ ys).Nodup)
    (hu : ∀ a ∈ xs, u ≠ some a)
    (hx : ∀ w, (w = u ∨ ∃ a ∈ xs, w = some a) → w ≠ lastPlace u xs → next' w = next w)
    (hy : Chain next' (lastPlace u xs) ys') : Chain next' u (xs ++ ys') := by
  induction xs generalizing u with
  | nil => exact hy
  | cons a xs ih =>
    have hn' := nodup_cons.mp hn
    have hla : u ≠ lastPlace u (a :: xs) := by
      intro he
      rw [lastPlace_cons] at he
      rcases u with _ | b
      · exact absurd he (by cases xs <;> simp [lastPlace])
      · rcases lastPlace_mem he.symm with h1 | h1
        · exact hu a mem_cons_self h1.symm
        · exact hu b (mem_cons_of_mem a h1) rfl
    refine ⟨(hx u (.inl rfl) hla).trans h.1, ih h.2 hn'.2 ?_ ?_ ?_⟩
    · rintro b hb he
      exact hn'.1 (by simp [Option.some.inj he, hb])
    · rintro w hw hne
      refine hx w (.inr ?_) (by rwa [lastPlace_cons])
      rcases hw with rfl | ⟨b, hb, rfl⟩
      · exact ⟨a, mem_cons_self, rfl⟩
      · exact ⟨b, mem_cons_of_mem a hb, rfl⟩
    · rwa [lastPlace_cons] at hy

/-- Linking a new node in behind the place where the first part ends. -/
theorem insert (h : Chain next none (xs ++ ys)) (hn : (xs ++ ys).Nodup)
    (h1 : next' (lastPlace none xs) = some v) (h2 : next' (some v) = next (lastPlace none xs))
    (h3 : ∀ w, (w = none ∨ ∃ a ∈ xs ++ ys, w = some a) → w ≠ lastPlace none xs → next' w = next w) :
    Chain next' none (xs ++ v :: ys) := by
  have hys : ∀ a ∈ ys, next' (some a) = next (some a) := fun a ha =>
    h3 _ (.inr ⟨a, mem_append_right xs ha, rfl⟩) (ne_lastPlace hn ha)
  refine h.replace hn (fun a _ => by simp) ?_ ⟨h1, ?_⟩
  · rintro w (rfl | ⟨a, ha, rfl⟩) hw
    · exact h3 none (.inl rfl) hw
    · exact h3 (some a) (.inr ⟨a, mem_append_left ys ha, rfl⟩) hw
  · have hs := h.suffix
    cases ys with
    | nil => exact h2.trans hs
    | cons b ys =>
      exact ⟨h2.trans hs.1, hs.2.congr (hys b mem_cons_self) fun c hc => hys c (mem_cons_of_mem b hc)⟩

/-- Unlinking the node behind the place where the first part ends. -/
theorem delete (h : Chain next none (xs ++ v :: ys)) (hn : (xs ++ v :: ys).Nodup)
    (h1 : next' (lastPlace none xs) = next (some v))
    (h2 : ∀ w, (w = none ∨ ∃ a ∈ xs ++ ys, w = some a) → w ≠ lastPlace none xs → next' w = next w) :
    Chain next' none (xs ++ ys) := by
  have hys : ∀ a ∈ ys, next' (some a) = next (some a) := fun a ha =>
    h2 _ (.inr ⟨a, mem_append_right xs ha, rfl⟩) (ne_lastPlace hn (mem_cons_of_mem v ha))
  refine h.replace hn (fun a _ => by simp) ?_ ?_
  · rintro w (rfl | ⟨a, ha, rfl⟩) hw
    · exact h2 none (.inl rfl) hw
    · exact h2 (some a) (.inr ⟨a, mem_append_left ys ha, rfl⟩) hw
  · have hs := h.suffix.2
    cases ys with
    | nil => exact h1.trans hs
    | cons b ys =>
      exact ⟨h1.trans hs.1, hs.2.congr (hys b mem_cons_self) fun c hc => hys c (mem_cons_of_mem b hc)⟩

/-- A list that runs through the values of a function. -/
theorem of_range {f : ℕ → α} {m n : ℕ} (h0 : next u = if 0 < n then some (f m) else none)
    (hs : ∀ i, m ≤ i → i < m + n → next (some (f i)) = if i + 1 < m + n then some (f (i + 1)) else none) :
    Chain next u ((List.range' m n).map f) := by
  induction n generalizing m u with
  | zero => simpa using h0
  | succ n ih =>
    rw [List.range'_succ, map_cons]
    refine ⟨by simpa using h0, ih ?_ fun i h1 h2 => ?_⟩
    · rw [hs m le_rfl (by omega)]
      simp only [show m + 1 < m + (n + 1) ↔ 0 < n by omega]
    · rw [hs i (by omega) (by omega)]
      simp only [show i + 1 < m + (n + 1) ↔ i + 1 < m + 1 + n by omega]

end Chain

end ChiffOS
