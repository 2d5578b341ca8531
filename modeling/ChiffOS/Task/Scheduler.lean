import ChiffOS.Lib.Runs
import ChiffOS.Task.Ring

/-! The calls of `task/sched.c` on the ring of the scheduler, and its test whether there is a task to switch
to. The test looks behind `begin`, an element that `ring_list_insert` takes from the heap, never sets and
never links. -/

namespace ChiffOS.Task

namespace Ring

variable {D : Type} [DecidableEq D]

def call (heap : Valloc) (r : Ring D) : RingOp D → Option (Ring D)
  | .insert data => some (r.ringListInsert heap data)
  | .rotate => r.getCurrentTask.map Prod.snd
  | .deleteFirst data => (r.ringListDeleteFirst data).map Prod.snd

omit [DecidableEq D] in
def schedulerShouldSwitchTask (r : Ring D) : Option Bool :=
  if r.begin = 0 then none else some (decide (r.begin ≠ r.next r.begin))

omit [DecidableEq D] in
/-- It returns whether the ring that is reached from `current` has a second element. -/
def SwitchMatches (r : Ring D) : Prop :=
  ∃ b, r.schedulerShouldSwitchTask = some b ∧ (b = true ↔ ∃ k, r.next^[k] r.current ≠ r.current)

omit [DecidableEq D] in
def Idle (heap : Valloc) (memory : ℕ → Element D) (r : Ring D) : Prop :=
  (r.begin = 0 ∧ r.current = 0 ∧ r.calls = 0 ∧ r.elements = memory) ∨
    ∃ xs, Holds heap r xs ∧ r.begin = heap.addr 0 ∧ r.next r.begin = (memory (heap.addr 0)).next

variable {heap : Valloc} {memory : ℕ → Element D} {r : Ring D} {xs : List ℕ} {d : D}

omit [DecidableEq D] in
theorem idle_empty (heap : Valloc) (memory : ℕ → Element D) : Idle heap memory (empty memory) :=
    Or.inl ⟨rfl, rfl, rfl, rfl⟩

omit [DecidableEq D] in
theorem Idle.insert (h : Idle heap memory r) (d : D) : Idle heap memory (r.ringListInsert heap d) := by
  rcases h with ⟨hb, -, hcalls, hmem⟩ | ⟨xs, hx, hb, hnext⟩
  · obtain ⟨a, ha, -⟩ : ∃ a, Holds heap (r.ringListInsert heap d) [a] ∧ (r.ringListInsert heap d).data a =
      d := insert_empty r hb d
    have hbegin : (r.ringListInsert heap d).begin = heap.addr 0 := by simp [ringListInsert, hb, hcalls]
    refine .inr ⟨[a], ha, hbegin, ?_⟩
    have hne : heap.addr 0 ≠ heap.addr 1 := fun he => absurd (heap.addr_inj he) (by decide)
    rw [hbegin]
    simp [ringListInsert, hb, hcalls, hmem, next, hne]
  · obtain ⟨ys, hys, -⟩ := hx.from_current
    obtain ⟨v, hv, -⟩ := hys.insert d
    have hne0 : r.begin ≠ 0 := hx.ne_zero List.mem_cons_self
    have hbegin : (r.ringListInsert heap d).begin = r.begin := by simp [ringListInsert, hne0, setNext]
    have hcur : r.begin ≠ r.current := fun he => hx.begin (he ▸ hx.current)
    have hitem : r.begin ≠ heap.addr r.calls := fun he => hx.fresh (he ▸ List.mem_cons_self)
    refine .inr ⟨_, hv, hbegin.trans hb, ?_⟩
    rw [hbegin, ← hnext]
    simp only [ringListInsert, hne0, if_false, next_setNext, hcur]
    simp [next, hitem]

omit [DecidableEq D] in
theorem setNext_self (r : Ring D) (u : ℕ) : r.setNext u (r.next u) = r := by
  have he : ({ r.elements u with next := r.next u } : Element D) = r.elements u := rfl
  rw [setNext, he, Function.update_eq_self]

omit [DecidableEq D] in
theorem Holds.unlink_single {u : ℕ} (h : Holds heap r [u]) : r.unlink u = r := by
  obtain rfl : r.current = u := List.mem_singleton.mp h.current
  have hu : r.next r.current = r.current := h.circle
  have hb : r.current ≠ r.begin := fun he => h.begin (by simp [he])
  calc r.unlink r.current = r.setNext r.current (r.next r.current) := by
        simp only [Ring.unlink, hu, if_neg hb, if_true]
    _ = r := r.setNext_self r.current

omit [DecidableEq D] in
theorem Idle.unlink {u : ℕ} (h : Holds heap r xs) (hb : r.begin = heap.addr 0)
    (hnext : r.next r.begin = (memory (heap.addr 0)).next) (hu : u ∈ xs) : Idle heap memory (r.unlink u) := by
  obtain ⟨ys, hc, hp⟩ := h.circle.from_mem hu
  cases ys with
  | nil =>
    have hx := h.perm hc hp
    rw [hx.unlink_single]
    exact .inr ⟨[u], hx, hb, hnext⟩
  | cons v ys =>
    have hx := h.perm hc hp
    have hv : r.next u = v := hx.circle.1.symm
    have hvb : v ≠ r.begin := fun he => hx.begin (he ▸ List.mem_cons_of_mem u List.mem_cons_self)
    have hub : r.begin ≠ u := fun he => h.begin (he ▸ hu)
    have hbegin : (r.unlink u).begin = r.begin := by simp [Ring.unlink, setNext, hv, hvb]
    refine .inr ⟨u :: ys, hx.unlink.1, hbegin.trans hb, ?_⟩
    rw [hbegin, ← hnext, Ring.unlink, next_setNext, if_neg hub]
    rfl

theorem Idle.call (r : Ring D) (op : RingOp D) (r' : Ring D) (h : Idle heap memory r)
    (hs : r.call heap op = some r') :
    Idle heap memory r' := by
  cases op with
  | insert d =>
    obtain rfl := Option.some.inj hs
    exact h.insert d
  | rotate =>
    rcases h with ⟨-, hcur, -⟩ | ⟨xs, hx, hb, hnext⟩
    · simp [Ring.call, getCurrentTask, hcur] at hs
    · obtain ⟨hget, hx'⟩ := hx.rotate
      rw [Ring.call, hget] at hs
      obtain rfl := Option.some.inj hs
      exact .inr ⟨xs, hx', hb, hnext⟩
  | deleteFirst d =>
    rcases h with ⟨hb, hrest⟩ | ⟨xs, hx, hb, hnext⟩
    · rw [Ring.call, ringListDeleteFirst, if_pos hb] at hs
      obtain rfl := Option.some.inj hs
      exact .inl ⟨hb, hrest⟩
    · rcases hx.deleteFirst d with ⟨u, hu, -, hdel⟩ | ⟨-, hdel⟩
      · rw [Ring.call, hdel] at hs
        obtain rfl := Option.some.inj hs
        exact Idle.unlink hx hb hnext hu
      · rw [Ring.call, hdel] at hs
        obtain rfl := Option.some.inj hs
        exact .inr ⟨xs, hx, hb, hnext⟩

omit [DecidableEq D] in
theorem second_iff (r : Ring D) : (∃ k, r.next^[k] r.current ≠ r.current) ↔ r.next r.current ≠ r.current := by
  constructor
  · rintro ⟨k, hk⟩ he
    exact hk (Function.iterate_fixed he k)
  · intro h
    exact ⟨1, h⟩

/-- The test is right just when the heap gave `begin` with its own address behind it while there is one
element, and with something else while there are more. -/
theorem should_switch_iff (heap : Valloc) (memory : ℕ → Element D) (ops : List (RingOp D)) (r : Ring D)
    (h : Machine.runs (Ring.call heap) (empty memory) ops = some r) :
    r.SwitchMatches ↔ r.begin ≠ 0 ∧ ((memory (heap.addr 0)).next = heap.addr 0 ↔ r.next r.current =
      r.current) := by
  have hi := Machine.invariant Idle.call ops _ r (idle_empty heap memory) h
  rw [SwitchMatches, second_iff, schedulerShouldSwitchTask]
  rcases hi with ⟨hb, -⟩ | ⟨xs, hx, hb, hnext⟩
  · simp [hb]
  · have hb0 : r.begin ≠ 0 := hx.ne_zero List.mem_cons_self
    rw [if_neg hb0, hnext, hb]
    have hswap : heap.addr 0 ≠ (memory (heap.addr 0)).next ↔ ¬ (memory (heap.addr 0)).next = heap.addr 0 :=
      ne_comm
    constructor
    · rintro ⟨b, hsome, hiff⟩
      obtain rfl := Option.some.inj hsome
      rw [decide_eq_true_iff, hswap, not_iff_not] at hiff
      exact ⟨heap.addr_ne_zero 0, hiff⟩
    · rintro ⟨-, hiff⟩
      refine ⟨_, rfl, ?_⟩
      rw [decide_eq_true_iff, hswap, not_iff_not]
      exact hiff

/-- A heap that gives one address after the other, over zeros: with two tasks the test says so. -/
theorem should_switch_two : ∃ r, Machine.runs (Ring.call ⟨Nat.succ, Nat.succ_ne_zero, Nat.succ_injective⟩)
    (empty fun _ => ⟨0, 0⟩ : Ring ℕ)
    [.insert 7, .insert 8, .rotate] = some r ∧ r.SwitchMatches := by
  refine ⟨_, rfl, (should_switch_iff ⟨Nat.succ, Nat.succ_ne_zero, Nat.succ_injective⟩ (fun _ => ⟨0, 0⟩)
    [.insert 7, .insert 8, .rotate] _ rfl).mpr ?_⟩
  decide

theorem should_switch_alone : ∃ r, Machine.runs (Ring.call ⟨Nat.succ, Nat.succ_ne_zero, Nat.succ_injective⟩)
    (empty fun _ => ⟨0, 0⟩ : Ring ℕ)
    [.insert 7] = some r ∧ r.schedulerShouldSwitchTask = some true ∧ ¬ ∃ k,
      r.next^[k] r.current ≠ r.current := by
  refine ⟨_, rfl, by decide, ?_⟩
  rw [second_iff]
  decide

end Ring

end ChiffOS.Task
