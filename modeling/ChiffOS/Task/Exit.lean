import ChiffOS.Task.Scheduler
import ChiffOS.Task.ReadyQueue

/-! The exit of a task (`kexit` of `task/proc.c`): it is unlinked from the `ready_queue` and taken out of
the scheduler's ring, and then freed. The first task of the queue has no task before it, and `ready_queue`
itself is never changed. -/

namespace ChiffOS.Task

open List

namespace Tasks

def unlinkTask (currentTask : ℕ) : (fuel : ℕ) → (tmpTask : ℕ) → Tasks → Option Tasks
  | 0, _, _ => none
  | fuel + 1, tmpTask, s =>
    let s := if s.next tmpTask = currentTask then s.setNext tmpTask (s.next currentTask) else s
    let tmpTask := if s.next tmpTask ≠ 0 then s.next tmpTask else tmpTask
    if s.next tmpTask ≠ 0 then unlinkTask currentTask fuel tmpTask s else some s

def kexit (fuel : ℕ) (s : Tasks) (currentTask : ℕ) : Option Tasks := do
  let s ← s.unlinkTask currentTask fuel s.readyQueue
  let (_, ring) ← s.ring.ringListDeleteFirst currentTask
  return { s with ring := ring }

/-- Between creations the timer moves the ring on. -/
inductive Event where
  | create (op : Creation)
  | tick

def event (heap elements : Valloc) (fuel : ℕ) (s : Tasks) : Event → Option Tasks
  | .create op => s.step heap elements fuel op
  | .tick => s.ring.getCurrentTask.map fun (_, ring) => { s with ring := ring }

def events (heap elements : Valloc) (fuel : ℕ) (s : Tasks) (es : List Event) : Option Tasks :=
  es.foldlM (event heap elements fuel) s

def CleanEvent : Event → Prop
  | .create op => Clean op
  | .tick => True

/-- The task is in neither list, and the others are where they were; the ring is read from the element of
the task on. -/
structure Exited (elements : Valloc) (s s' : Tasks) (t : ℕ) : Prop where
  queue : ∃ xs, Queue s xs ∧ Queue s' (xs.erase t) ∧ t ∉ xs.erase t
  ring : ∃ e ys, s.ring.Holds elements (e :: ys) ∧ s.ring.data e = t ∧ s'.ring.Holds elements ys ∧
    (∀ a, s'.ring.data a = s.ring.data a) ∧ t ∉ ys.map s'.ring.data
  never : ∀ n ds r, s'.ring.getCurrentTasks n = some (ds, r) → t ∉ ds

variable {heap elements : Valloc} {s s' : Tasks} {xs l r : List ℕ} {fuel t u v : ℕ}

/-! ### The queue -/

theorem next_ne_zero {y : ℕ} {ys : List ℕ} (h : Segment s.next u (u :: y :: ys) 0) (h0 : 0 ∉ y :: ys) :
    s.next u ≠ 0 := by
  obtain ⟨-, rfl, -⟩ := h
  exact fun he => h0 (he ▸ mem_cons_self)

/-- A walk that meets no task before the exiting one changes nothing. -/
theorem unlinkTask_absent (zs : List ℕ) : ∀ {u fuel : ℕ}, Segment s.next u (u :: zs) 0 → 0 ∉ zs → t ∉ zs →
    t ≠ 0 → zs.length < fuel →
    s.unlinkTask t fuel u = some s := by
  induction zs with
  | nil =>
    intro u fuel h _ _ ht hf
    have hu : s.next u = 0 := h.2
    cases fuel with
    | zero => exact absurd hf (Nat.not_lt_zero _)
    | succ fuel => simp [unlinkTask, hu, Ne.symm ht]
  | cons y zs ih =>
    intro u fuel h h0 ht ht0 hf
    have hne := next_ne_zero h h0
    obtain ⟨-, rfl, h⟩ := h
    obtain ⟨hyt, ht⟩ := not_or.mp (mem_cons.not.mp ht)
    cases fuel with
    | zero => exact absurd hf (Nat.not_lt_zero _)
    | succ fuel =>
      have hrest := ih ⟨rfl, h⟩ (fun hm => h0 (mem_cons_of_mem _ hm)) ht ht0 (Nat.lt_of_succ_lt_succ hf)
      simp only [unlinkTask, if_neg (Ne.symm hyt), if_pos hne, hrest, ite_self]

theorem Queue.unlinked (h : Queue s (l ++ u :: t :: r)) : Queue (s.setNext u (s.next t)) (l ++ u :: r) := by
  obtain ⟨hl, hut, hlr⟩ := nodup_append.mp h.nodup
  obtain ⟨hu, htr⟩ := nodup_cons.mp hut
  obtain ⟨ht, hr⟩ := nodup_cons.mp htr
  have hsame : ∀ x, x ≠ u → (s.setNext u (s.next t)).next x = s.next x :=
    fun x hx => by rw [next_setNext, if_neg hx]
  obtain ⟨b, h1, rfl, rfl, h2⟩ := h.path.split
  have hsub : (l ++ u :: r).Sublist (l ++ u :: s.next u :: r) :=
    (((sublist_cons_self _ r).cons_cons u)).append_left l
  refine ⟨Segment.append (b := u) ?_ ⟨rfl, ?_⟩, fun h0 => h.ne_zero (hsub.subset h0), h.nodup.sublist hsub⟩
  · apply h1.congr
    intro x hx
    exact hsame x fun he => hlr x hx u mem_cons_self he
  · rw [next_setNext, if_pos rfl]
    apply h2.congr
    intro x hx
    exact hsame x fun he => hu (he ▸ mem_cons_of_mem _ hx)

/-- The task before the exiting one is found, and the rest of the walk changes nothing. -/
theorem unlinkTask_next (h : Queue s (l ++ u :: t :: r)) (hf : r.length < fuel) :
    s.unlinkTask t (fuel + 1) u = some (s.setNext u (s.next t)) := by
  have hq := h.unlinked
  obtain ⟨b, -, rfl, rfl, hr⟩ := h.path.split
  have hnext : (s.setNext u (s.next (s.next u))).next u =
    s.next (s.next u) := by rw [next_setNext, if_pos rfl]
  obtain ⟨b, -, rfl, hq'⟩ := hq.path.split
  rw [hnext] at hq'
  cases r with
  | nil =>
    have h0 : s.next (s.next u) = 0 := hr
    rw [h0] at hnext
    simp only [unlinkTask, if_true, h0, hnext, ne_eq, not_true, if_false]
  | cons y r =>
    obtain rfl : y = s.next (s.next u) := hr.1
    have hy0 : s.next (s.next u) ≠ 0 := fun he => h.ne_zero (by simp [he])
    have ht0 : s.next u ≠ 0 := fun he => h.ne_zero (by simp [he])
    have hr0 : 0 ∉ r := fun hm => h.ne_zero (by simp [hm])
    have htr : s.next u ∉ r := by
      intro hm
      obtain ⟨ht, -⟩ := nodup_cons.mp (nodup_cons.mp (nodup_append.mp h.nodup).2.1).2
      exact ht (mem_cons_of_mem _ hm)
    have hrest := unlinkTask_absent r hq' hr0 htr ht0 (Nat.lt_of_succ_lt hf)
    simp only [unlinkTask, if_true, hnext, if_pos hy0, hrest, ite_self]

/-- The walk to a task passes those before it, if none of them is before the exiting one. -/
theorem unlinkTask_walk (l : List ℕ) : ∀ {v : ℕ}, Segment s.next v l u →
    (∀ x ∈ l ++ [u], x ≠ t ∧ s.next x ≠ 0) →
    s.unlinkTask t (l.length + fuel) v = s.unlinkTask t fuel u := by
  induction l with
  | nil =>
    intro v h _
    obtain rfl : v = u := h
    rw [length_nil, Nat.zero_add]
  | cons x l ih =>
    intro v h hall
    obtain ⟨rfl, h⟩ := h
    have hmem : s.next x ∈ l ++ [u] := by
      cases l with
      | nil =>
        obtain rfl : s.next x = u := h
        exact mem_singleton_self _
      | cons y l =>
        obtain ⟨rfl, -⟩ := h
        exact mem_cons_self
    obtain ⟨-, hx0⟩ := hall x mem_cons_self
    obtain ⟨hyt, hy0⟩ := hall (s.next x) (mem_cons_of_mem x hmem)
    have hrest := ih h fun y hy => hall y (mem_cons_of_mem x hy)
    rw [length_cons, Nat.add_right_comm, ← hrest, unlinkTask]
    simp only [if_neg hyt, if_pos hx0, if_pos hy0]

theorem Queue.next_ne_zero (h : Queue s (l ++ u :: r)) (hr : r ≠ []) : s.next u ≠ 0 := by
  cases r with
  | nil => exact absurd rfl hr
  | cons v r =>
    obtain ⟨b, -, rfl, rfl, -⟩ := h.path.split
    exact fun he => h.ne_zero (by simp [he])

theorem Queue.unlinkTask (h : Queue s (l ++ u :: t :: r)) (hf : (l ++ u :: t :: r).length ≤ fuel) :
    s.unlinkTask t fuel s.readyQueue = some (s.setNext u (s.next t)) := by
  obtain ⟨b, hl, rfl, -⟩ := h.path.split
  have hsplit : l ++ u :: t :: r = (l ++ [u]) ++ t :: r := by simp
  have hall : ∀ x ∈ l ++ [u], x ≠ t ∧ s.next x ≠ 0 := by
    intro x hx
    constructor
    · have hn := h.nodup
      rw [hsplit] at hn
      exact (nodup_append.mp hn).2.2 x hx t mem_cons_self
    · obtain ⟨l₁, l₂, he⟩ := append_of_mem hx
      have hq : Queue s (l₁ ++ x :: (l₂ ++ t :: r)) := by
        rw [hsplit, he] at h
        simpa using h
      exact hq.next_ne_zero (by simp)
  simp only [length_append, length_cons] at hf
  obtain ⟨k, rfl⟩ := Nat.exists_eq_add_of_le (show l.length + 1 ≤ fuel by omega)
  rw [Nat.add_assoc, unlinkTask_walk l hl hall, Nat.add_comm 1 k]
  exact unlinkTask_next h (by omega)

theorem Queue.head (h : Queue s (u :: r)) : s.readyQueue = u := h.path.1.symm

theorem Queue.two_le (h : Queue s xs) (ht : t ∈ xs) (hne : t ≠ s.readyQueue) : 2 ≤ xs.length := by
  cases xs with
  | nil => exact absurd ht not_mem_nil
  | cons x xs =>
    have htail : t ∈ xs := (mem_cons.mp ht).resolve_left fun he => hne (he.trans h.head.symm)
    exact Nat.succ_le_succ (length_pos_of_mem htail)

theorem Queue.exit (h : Queue s xs) (ht : t ∈ xs) (hne : t ≠ s.readyQueue) (hf : xs.length ≤ fuel) :
    ∃ s', s.unlinkTask t fuel s.readyQueue = some s' ∧ Queue s' (xs.erase t) ∧ s'.ring = s.ring := by
  obtain ⟨l, r, rfl⟩ := append_of_mem ht
  rcases eq_nil_or_concat l with rfl | ⟨l, u, rfl⟩
  · exact absurd h.head.symm hne
  · rw [concat_eq_append] at *
    have hnot : t ∉ l ++ [u] := fun hm => (nodup_append.mp h.nodup).2.2 t hm t mem_cons_self rfl
    rw [erase_append_right _ hnot, erase_cons_head, append_assoc, singleton_append]
    rw [append_assoc, singleton_append] at h hf
    exact ⟨_, h.unlinkTask hf, h.unlinked, rfl⟩

theorem Queue.exit_head (h : Queue s xs) (hx : xs ≠ []) (hf : xs.length ≤ fuel) :
    s.unlinkTask s.readyQueue fuel s.readyQueue = some s := by
  cases xs with
  | nil => exact absurd rfl hx
  | cons x xs =>
    obtain rfl : s.readyQueue = x := h.head
    obtain ⟨hn, -⟩ := nodup_cons.mp h.nodup
    have h0 : s.readyQueue ≠ 0 := fun he => h.ne_zero (by simp [he])
    exact unlinkTask_absent xs h.path (fun hm => h.ne_zero (mem_cons_of_mem _ hm)) hn h0 hf

theorem Queue.not_erased (h : Queue s' (xs.erase t)) (hnot : t ∉ xs.erase t) (h0 : t ≠ 0) :
    s'.readyQueue ≠ t := by
  intro he
  have hpath := h.path
  cases hxs : xs.erase t with
  | nil =>
    rw [hxs, he] at hpath
    exact h0 hpath
  | cons y ys =>
    rw [hxs] at hpath hnot
    exact hnot (he ▸ hpath.1 ▸ mem_cons_self)

end Tasks

/-! ### The ring -/

namespace Ring

variable {D : Type} {heap : Valloc} {r : Ring D} {xs : List ℕ} {d : D}

theorem Holds.getCurrentTasks_mem (n : ℕ) : ∀ {r r' : Ring D} {ds : List D}, Holds heap r xs →
    getCurrentTasks n r = some (ds, r') → ∀ d ∈ ds, d ∈ xs.map r.data := by
  induction n with
  | zero =>
    intro r r' ds _ hrun d hd
    obtain ⟨rfl, -⟩ := Prod.mk.inj (Option.some.inj hrun)
    exact absurd hd not_mem_nil
  | succ n ih =>
    intro r r' ds h hrun d hd
    obtain ⟨hget, hrest⟩ := h.rotate
    rw [getCurrentTasks, hget, Option.bind_eq_bind, Option.bind_some] at hrun
    obtain ⟨⟨ds', r₁⟩, hrun', he⟩ := Option.bind_eq_some_iff.mp hrun
    obtain ⟨rfl, -⟩ := Prod.mk.inj (Option.some.inj he)
    rcases mem_cons.mp hd with rfl | hd
    · exact mem_map_of_mem (h.circle.next_mem h.current)
    · exact ih hrest hrun' d hd

theorem Holds.turn {a : ℕ} (h : Holds heap r (a :: xs)) : Holds heap r (xs ++ [a]) := by
  apply h.perm _ (perm_append_singleton a xs)
  cases xs with
  | nil => exact h.circle
  | cons b xs => exact Circle.turn (show Circle r.next ([a] ++ b :: xs) from h.circle)

variable [DecidableEq D]

/-- The element with the data goes if it is not the only one, and the others stay in their order. -/
theorem Holds.delete (h : Holds heap r xs) (hd : d ∈ xs.map r.data) (hn : (xs.map r.data).Nodup)
    (hl : 2 ≤ xs.length) :
    ∃ r', r.ringListDeleteFirst d = some (true, r') ∧ ∃ e ys, Holds heap r (e :: ys) ∧ r.data e = d ∧
      Holds heap r' ys ∧
      (∀ a, r'.data a = r.data a) ∧ d ∉ ys.map r'.data := by
  rcases h.deleteFirst d with ⟨u, hu, rfl, hdel⟩ | ⟨hno, -⟩
  · refine ⟨_, hdel, ?_⟩
    obtain ⟨ys, hc, hp⟩ := h.circle.from_mem hu
    cases ys with
    | nil => exact absurd hp.length_eq (by simp; omega)
    | cons v ys =>
      have hv : r.next u = v := hc.1.symm
      obtain ⟨hun, hdata⟩ := (h.perm hc hp).unlink
      refine ⟨v, ys ++ [u], (h.perm hc hp).turn, by rw [hv], hun.turn, hdata, ?_⟩
      have hperm : (r.data v :: (ys ++ [u]).map r.data).Nodup := by
        have hturn : (v :: (ys ++ [u])).Perm xs := (perm_append_singleton u (v :: ys)).trans hp
        exact (hturn.map r.data).nodup_iff.mpr hn
      rw [show (r.unlink u).data = r.data from funext hdata, hv]
      exact (nodup_cons.mp hperm).1
  · obtain ⟨a, ha, rfl⟩ := mem_map.mp hd
    exact absurd rfl (hno a ha)

end Ring

/-! ### Creations, ticks and the exit -/

namespace Tasks

variable {heap elements : Valloc} {s : Tasks} {fuel t : ℕ}

theorem Inv.event (h : Inv heap elements s) (hf : s.calls < fuel) {e : Event} (he : CleanEvent e) :
    ∃ s', s.event heap elements fuel e = some s' ∧ Inv heap elements s' ∧ s'.calls ≤ s.calls + 1 := by
  cases e with
  | create op =>
    obtain ⟨s', hs, hinv, hc⟩ := h.step hf he
    exact ⟨s', hs, hinv, hc.le⟩
  | tick =>
    have hne : (created heap s : Multiset ℕ) ≠ 0 := by simpa [created] using h.calls.ne'
    obtain ⟨ys, hys, hm⟩ := h.ring.holds hne
    obtain ⟨hget, hrest⟩ := hys.rotate
    refine ⟨{ s with ring := { s.ring with current := s.ring.next s.ring.current } }, ?_,
      ⟨?_, h.calls, .inr ⟨ys, hrest, hm⟩⟩, Nat.le_succ _⟩
    · rw [Tasks.event, hget]
      rfl
    · exact h.queue.congr rfl fun _ _ => rfl

theorem Inv.events (es : List Event) : ∀ {s : Tasks}, Inv heap elements s → s.calls + es.length ≤ fuel →
    (∀ e ∈ es, CleanEvent e) →
    ∃ s', s.events heap elements fuel es = some s' ∧ Inv heap elements s' ∧ s'.calls ≤ fuel := by
  induction es with
  | nil =>
    intro s h hf _
    exact ⟨s, rfl, h, hf⟩
  | cons e es ih =>
    intro s h hf hes
    rw [forall_mem_cons] at hes
    rw [length_cons] at hf
    obtain ⟨s₁, hs, hinv, hc⟩ := h.event (show s.calls < fuel by omega) hes.1
    obtain ⟨s', hs', hinv'⟩ := ih hinv (by omega) hes.2
    refine ⟨s', ?_, hinv'⟩
    rw [Tasks.events, foldlM_cons, hs]
    exact hs'

theorem Inv.kexit (h : Inv heap elements s) (ht : t ∈ created heap s) (hf : s.calls ≤ fuel) :
    ∃ s', s.kexit fuel t = some s' ∧ (Exited elements s s' t ↔ t ≠ s.readyQueue) := by
  have hlen : (created heap s).length ≤ fuel := by simpa [created] using hf
  have ht0 : t ≠ 0 := fun he => h.queue.ne_zero (he ▸ ht)
  have hne : (created heap s : Multiset ℕ) ≠ 0 := by simpa [created] using h.calls.ne'
  obtain ⟨ys, hys, hm⟩ := h.ring.holds hne
  have hperm : (ys.map s.ring.data).Perm (created heap s) := Multiset.coe_eq_coe.mp hm
  by_cases hhead : t = s.readyQueue
  · -- neither the queue nor `ready_queue` changes
    have hun : s.unlinkTask t fuel s.readyQueue = some s := by
      rw [hhead]
      exact h.queue.exit_head (ne_nil_of_mem ht) hlen
    obtain ⟨b, ring, hring⟩ : ∃ b ring, s.ring.ringListDeleteFirst t = some (b, ring) := by
      rcases hys.deleteFirst t with ⟨u, -, -, hdel⟩ | ⟨-, hdel⟩
      · exact ⟨_, _, hdel⟩
      · exact ⟨_, _, hdel⟩
    refine ⟨{ s with ring := ring }, ?_, ?_⟩
    · rw [Tasks.kexit, hun, Option.bind_eq_bind, Option.bind_some, hring]
      rfl
    · refine ⟨fun hex => ?_, fun hno => absurd hhead hno⟩
      obtain ⟨xs, -, hq, hnot⟩ := hex.queue
      exact absurd hhead.symm (hq.not_erased hnot ht0)
  · obtain ⟨s₁, hun, hq, hr⟩ := h.queue.exit ht hhead hlen
    have htwo : 2 ≤ ys.length := by
      rw [← length_map s.ring.data, hperm.length_eq]
      exact h.queue.two_le ht hhead
    obtain ⟨ring, hdel, e, zs, hold, hd, hnew, hdata, hnot⟩ :=
      hys.delete (hperm.mem_iff.mpr ht) (hperm.nodup_iff.mpr h.queue.nodup) htwo
    refine ⟨{ s₁ with ring := ring }, ?_, fun _ => hhead, fun _ => ?_⟩
    · rw [Tasks.kexit, hun, Option.bind_eq_bind, Option.bind_some, hr, hdel]
      rfl
    · refine ⟨⟨_, h.queue, hq.congr rfl fun _ _ => rfl, h.queue.nodup.not_mem_erase⟩,
        ⟨e, zs, hold, hd, hnew, hdata, hnot⟩, ?_⟩
      intro n ds r hrun hmem
      exact hnot (hnew.getCurrentTasks_mem n hrun t hmem)

/-- After creations without forks, in which new tasks have no successor, and ticks of the timer: a task that
exits is taken out of both lists exactly if it is not the first of the queue. -/
theorem kexit_exited_iff (heap elements : Valloc) (memory : ℕ → TaskNode) (ringMemory : ℕ → Element ℕ)
    (es : List Event)
    (hes : ∀ e ∈ es, CleanEvent e) (fuel : ℕ) (hf : es.length < fuel) :
    ∃ s, (taskInitialize heap elements memory ringMemory).events heap elements fuel es = some s ∧
      ∀ t ∈ created heap s, ∃ s', s.kexit fuel t = some s' ∧ (Exited elements s s' t ↔ t ≠ s.readyQueue) := by
  have h := inv_taskInitialize heap elements memory ringMemory
  have hcalls : (taskInitialize heap elements memory ringMemory).calls = 1 := rfl
  obtain ⟨s, hs, hinv, hc⟩ := Inv.events es h (show _ ≤ fuel by omega) hes
  exact ⟨s, hs, fun t ht => hinv.kexit ht hc⟩

def startedThread : List Event := [.create (.createTaskThread ⟨0, 5⟩), .tick]

theorem kexit_exited_thread : ∃ s, (taskInitialize bumpHeap bumpHeap (fun _ => ⟨0, 0⟩) fun _ => ⟨0, 0⟩).events
    bumpHeap bumpHeap 3
      startedThread = some s ∧
    ∀ t ∈ created bumpHeap s, ∃ s', s.kexit 3 t = some s' ∧ (Exited bumpHeap s s' t ↔ t ≠ s.readyQueue) :=
  kexit_exited_iff bumpHeap bumpHeap _ _ startedThread (by simp [startedThread, CleanEvent, Clean]) 3
    (by decide)

/-- The first task exits: it is out of the ring, but it is the first of the queue as before. -/
theorem kexit_keeps_head : ∃ s s', (taskInitialize bumpHeap bumpHeap (fun _ => ⟨0, 0⟩) fun _ => ⟨0, 0⟩).events
    bumpHeap bumpHeap 3
      startedThread = some s ∧ s.kexit 3 1 = some s' ∧ Queue s [1, 2] ∧ Queue s' [1, 2] :=
  ⟨_, _, rfl, rfl, ⟨⟨rfl, rfl, rfl⟩, by decide, by decide⟩, ⟨rfl, rfl, rfl⟩, by decide, by decide⟩

end Tasks

end ChiffOS.Task
