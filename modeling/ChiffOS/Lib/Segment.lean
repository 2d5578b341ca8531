import Mathlib.Data.List.Basic
import Mathlib.Data.List.Nodup
import Mathlib.Logic.Function.Iterate
import Mathlib.Tactic

/-! Pieces of linked lists whose `next` is total: the nodes passed on the way from one node to another,
and lists that close to a cycle. -/

namespace ChiffOS

variable {α : Type*} {next next' : α → α} {a b v : α} {xs ys : List α}

/-- Starting in `a` the nodes `xs` are passed, and then `b` is reached. -/
def Segment (next : α → α) : α → List α → α → Prop
  | a, [], b => a = b
  | a, x :: xs, b => x = a ∧ Segment next (next a) xs b

namespace Segment

theorem append {c : α} (h : Segment next a xs b) (h' : Segment next b ys c) : Segment next a
    (xs ++ ys) c := by
  induction xs generalizing a with
  | nil =>
    obtain rfl : a = b := h
    exact h'
  | cons x xs ih => exact ⟨h.1, ih h.2⟩

theorem split {c : α} (h : Segment next a (xs ++ ys) c) : ∃ b, Segment next a xs b ∧ Segment next b ys c := by
  induction xs generalizing a with
  | nil => exact ⟨a, rfl, h⟩
  | cons x xs ih =>
    obtain ⟨b, h1, h2⟩ := ih h.2
    exact ⟨b, ⟨h.1, h1⟩, h2⟩

theorem congr (h : Segment next a xs b) (hx : ∀ x ∈ xs, next' x = next x) : Segment next' a xs b := by
  induction xs generalizing a with
  | nil => exact h
  | cons x xs ih =>
    obtain ⟨rfl, h⟩ := h
    refine ⟨rfl, ?_⟩
    rw [hx x List.mem_cons_self]
    exact ih h fun y hy => hx y (List.mem_cons_of_mem x hy)

theorem iterate (h : Segment next a xs b) : next^[xs.length] a = b ∧ ∀ k (hk : k < xs.length), xs[k] =
    next^[k] a := by
  induction xs generalizing a with
  | nil => exact ⟨h, fun k hk => absurd hk (Nat.not_lt_zero k)⟩
  | cons x xs ih =>
    obtain ⟨rfl, h⟩ := h
    obtain ⟨h1, h2⟩ := ih h
    refine ⟨h1, ?_⟩
    intro k hk
    cases k with
    | zero => rfl
    | succ k => exact h2 k (Nat.lt_of_succ_lt_succ hk)

end Segment

def Circle (next : α → α) : List α → Prop
  | [] => False
  | a :: xs => Segment next (next a) xs a

namespace Circle

theorem segment (h : Circle next (a :: xs)) : Segment next a (a :: xs) a := ⟨rfl, h⟩

theorem turn (h : Circle next (xs ++ a :: ys)) : Circle next (a :: ys ++ xs) := by
  cases xs with
  | nil => simpa using h
  | cons x xs =>
    have hs : Segment next x ((x :: xs) ++ a :: ys) x := segment h
    obtain ⟨b, h1, h2⟩ := hs.split
    obtain ⟨rfl, h2⟩ := h2
    exact Segment.append h2 h1

theorem from_mem (h : Circle next xs) (ha : a ∈ xs) : ∃ ys, Circle next (a :: ys) ∧ (a :: ys).Perm xs := by
  obtain ⟨l, r, rfl⟩ := List.append_of_mem ha
  refine ⟨r ++ l, h.turn, ?_⟩
  rw [← List.cons_append]
  exact List.perm_append_comm

theorem next_mem (h : Circle next xs) (ha : a ∈ xs) : next a ∈ xs := by
  obtain ⟨ys, hc, hp⟩ := h.from_mem ha
  apply hp.mem_iff.mp
  cases ys with
  | nil =>
    have he : next a = a := hc
    rw [he]
    exact List.mem_singleton_self a
  | cons b ys =>
    obtain ⟨rfl, -⟩ := hc
    exact List.mem_cons_of_mem _ List.mem_cons_self

theorem exists_prev (h : Circle next xs) (ha : a ∈ xs) : ∃ u ∈ xs, next u = a := by
  obtain ⟨ys, hc, hp⟩ := h.from_mem ha
  rcases List.eq_nil_or_concat ys with rfl | ⟨zs, u, rfl⟩
  · exact ⟨a, ha, hc⟩
  · have hs : Segment next (next a) (zs ++ [u]) a := by simpa [Circle] using hc
    obtain ⟨b, -, rfl, hu⟩ := hs.split
    exact ⟨u, hp.mem_iff.mp (by simp), hu⟩

theorem mem_iff (h : Circle next (a :: xs)) : b ∈ a :: xs ↔ ∃ k, next^[k] a = b := by
  constructor
  · intro hb
    obtain ⟨k, hk, rfl⟩ := List.getElem_of_mem hb
    exact ⟨k, ((segment h).iterate.2 k hk).symm⟩
  · rintro ⟨k, rfl⟩
    induction k with
    | zero => exact List.mem_cons_self
    | succ k ih =>
      rw [Function.iterate_succ_apply']
      exact next_mem h ih

theorem insert (h : Circle next (a :: xs)) (h1 : next' a = v) (h2 : next' v = next a)
    (h3 : ∀ x ∈ xs, next' x = next x) : Circle next' (a :: v :: xs) := by
  refine ⟨h1.symm, ?_⟩
  rw [h1, h2]
  exact Segment.congr h h3

theorem delete (h : Circle next (a :: v :: xs)) (h1 : next' a = next v) (h2 : ∀ x ∈ xs, next' x = next x) :
    Circle next' (a :: xs) := by
  obtain ⟨rfl, h⟩ := h
  have hs : Segment next' (next (next a)) xs a := Segment.congr h h2
  rw [← h1] at hs
  exact hs

end Circle

end ChiffOS
