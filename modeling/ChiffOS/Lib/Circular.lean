import Mathlib.Tactic

/-! A queue in a circular array, with an index for the next cell to read and one for the next cell to write.
One cell stays free, so that the indices meet only in an empty queue. Beside the queue stands the log of
what went in and what came out: whatever steps the queue makes, what came out and what is in it are
together what went in. -/

namespace ChiffOS

structure Circular (α : Type) where
  size : ℕ
  readPtr : ℕ
  writePtr : ℕ
  cells : ℕ → α

namespace Circular

variable {α : Type}

def unread (q : Circular α) : ℕ :=
  if q.readPtr = q.writePtr then 0
  else if q.readPtr > q.writePtr then (q.size - q.readPtr) + q.writePtr
  else q.writePtr - q.readPtr

def available (q : Circular α) : ℕ :=
  if q.readPtr = q.writePtr then q.size - 1
  else if q.readPtr > q.writePtr then q.readPtr - q.writePtr - 1
  else (q.size - q.writePtr) + q.readPtr - 1

/-- The index behind `p`. -/
def increment (size p : ℕ) : ℕ := if p + 1 = size then 0 else p + 1

def front (q : Circular α) : α := q.cells q.readPtr

def push (q : Circular α) (a : α) : Circular α :=
  { q with cells := Function.update q.cells q.writePtr a, writePtr := increment q.size q.writePtr }

def pop (q : Circular α) : Circular α := { q with readPtr := increment q.size q.readPtr }

/-- The queue of nothing over some cells. -/
def empty (size : ℕ) (cells : ℕ → α) : Circular α := ⟨size, 0, 0, cells⟩

def contents (q : Circular α) : List α := (List.range q.unread).map fun i => q.cells
    ((q.readPtr + i) % q.size)

structure Valid (q : Circular α) : Prop where
  read : q.readPtr < q.size
  write : q.writePtr < q.size

theorem increment_eq {size p : ℕ} (h : p < size) : increment size p = (p + 1) % size := by
  unfold increment
  split_ifs with hp
  · rw [hp, Nat.mod_self]
  · exact (Nat.mod_eq_of_lt (by omega)).symm

theorem empty_valid {size : ℕ} (h : 0 < size) (cells : ℕ → α) : (empty size cells).Valid := ⟨h, h⟩

variable {q : Circular α}

theorem Valid.unread_lt (h : q.Valid) : q.unread < q.size := by
  have h1 := h.read
  have h2 := h.write
  unfold unread
  split_ifs <;> omega

theorem Valid.unread_add_available (h : q.Valid) : q.unread + q.available = q.size - 1 := by
  have h1 := h.read
  have h2 := h.write
  unfold unread available
  split_ifs <;> omega

theorem Valid.writePtr_eq (h : q.Valid) : q.writePtr = (q.readPtr + q.unread) % q.size := by
  have h1 := h.read
  have h2 := h.write
  unfold unread
  split_ifs with he hg
  · rw [Nat.add_zero, Nat.mod_eq_of_lt h1, he]
  · rw [show q.readPtr + (q.size - q.readPtr + q.writePtr) = q.writePtr + q.size by omega, Nat.add_mod_right,
      Nat.mod_eq_of_lt h2]
  · rw [show q.readPtr + (q.writePtr - q.readPtr) = q.writePtr by omega, Nat.mod_eq_of_lt h2]

theorem Valid.push (h : q.Valid) (a : α) : (q.push a).Valid := by
  refine ⟨h.read, ?_⟩
  change increment q.size q.writePtr < q.size
  rw [increment_eq h.write]
  exact Nat.mod_lt _ (by have := h.read; omega)

theorem Valid.pop (h : q.Valid) : q.pop.Valid := by
  refine ⟨?_, h.write⟩
  change increment q.size q.readPtr < q.size
  rw [increment_eq h.read]
  exact Nat.mod_lt _ (by have := h.read; omega)

theorem Valid.unread_push (h : q.Valid) (ha : 0 < q.available) (a : α) : (q.push a).unread =
    q.unread + 1 := by
  have h1 := h.read
  have h2 := h.write
  simp only [available] at ha
  simp only [unread, Circular.push, increment]
  split_ifs at ha ⊢ <;> omega

theorem Valid.unread_pop (h : q.Valid) (hu : 0 < q.unread) : q.pop.unread + 1 = q.unread := by
  have h1 := h.read
  have h2 := h.write
  simp only [unread] at hu
  simp only [unread, Circular.pop, increment]
  split_ifs at hu ⊢ <;> omega

/-- Two cells less than `size` apart are different. -/
theorem add_mod_ne {size p i j : ℕ} (hi : i < size) (hj : j < size) (h : i ≠ j) :
    (p + i) % size ≠ (p + j) % size := by
  intro he
  have hmod : i ≡ j [MOD size] := Nat.ModEq.add_left_cancel' p he
  exact h (Nat.ModEq.eq_of_lt_of_lt hmod hi hj)

theorem Valid.contents_push (h : q.Valid) (ha : 0 < q.available) (a : α) : (q.push a).contents =
    q.contents ++ [a] := by
  unfold contents
  rw [h.unread_push ha, List.range_succ, List.map_append, List.map_singleton]
  congr 1
  · refine List.map_congr_left fun i hi => ?_
    have hlt := h.unread_lt
    rw [List.mem_range] at hi
    change Function.update q.cells q.writePtr a ((q.readPtr + i) % q.size) = _
    rw [h.writePtr_eq, Function.update_of_ne (add_mod_ne (by omega) hlt (by omega))]
  · change [Function.update q.cells q.writePtr a ((q.readPtr + q.unread) % q.size)] = [a]
    rw [← h.writePtr_eq, Function.update_self]

theorem Valid.contents_pop (h : q.Valid) (hu : 0 < q.unread) : q.contents = q.front :: q.pop.contents := by
  unfold contents
  rw [← h.unread_pop hu, List.range_succ_eq_map, List.map_cons, List.map_map]
  congr 1
  · rw [Nat.add_zero, Nat.mod_eq_of_lt h.read]
    rfl
  · refine List.map_congr_left fun i _ => ?_
    change q.cells ((q.readPtr + (i + 1)) % q.size) = q.cells ((increment q.size q.readPtr + i) % q.size)
    rw [increment_eq h.read, Nat.mod_add_mod, Nat.add_right_comm, Nat.add_assoc]

theorem contents_length (q : Circular α) : q.contents.length = q.unread := by simp [contents]

/-! ### The log -/

/-- A queue with what it was given and what it gave. -/
structure Log (α : Type) where
  queue : Circular α
  accepted : List α
  delivered : List α

/-- One element goes in or out. -/
inductive Log.Step : Log α → Log α → Prop where
  | accept (l : Log α) (a : α) (h : 0 < l.queue.available) :
    Step l ⟨l.queue.push a, l.accepted ++ [a], l.delivered⟩
  | deliver (l : Log α) (h : 0 < l.queue.unread) :
    Step l ⟨l.queue.pop, l.accepted, l.delivered ++ [l.queue.front]⟩

theorem Log.Step.size {l l' : Log α} (h : l.Step l') : l'.queue.size = l.queue.size := by
  cases h <;> rfl

theorem Log.Step.valid {l l' : Log α} (h : l.Step l') (hv : l.queue.Valid) : l'.queue.Valid := by
  cases h with
  | accept a ha => exact hv.push a
  | deliver hu => exact hv.pop

/-- What went in is what came out, followed by what is in the queue. -/
structure Log.Fifo (l : Log α) : Prop where
  valid : l.queue.Valid
  split : l.accepted = l.delivered ++ l.queue.contents

theorem Log.Fifo.step {l l' : Log α} (h : l.Fifo) (hs : l.Step l') : l'.Fifo := by
  cases hs with
  | accept a ha =>
    refine ⟨h.valid.push a, ?_⟩
    change l.accepted ++ [a] = l.delivered ++ (l.queue.push a).contents
    rw [h.split, h.valid.contents_push ha, List.append_assoc]
  | deliver hu =>
    refine ⟨h.valid.pop, ?_⟩
    change l.accepted = l.delivered ++ [l.queue.front] ++ l.queue.pop.contents
    rw [h.split, h.valid.contents_pop hu, List.append_assoc, List.singleton_append]

theorem Log.Fifo.in_order {l : Log α} (h : l.Fifo) : l.delivered <+: l.accepted := ⟨_, h.split.symm⟩

theorem Log.Fifo.length {l : Log α} (h : l.Fifo) : l.accepted.length =
    l.delivered.length + l.queue.unread := by
  rw [h.split, List.length_append, contents_length]

end Circular

end ChiffOS
