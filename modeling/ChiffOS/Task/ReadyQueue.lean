import ChiffOS.Task.Ring

/-! The creation of tasks (`task/proc.c`): every task is appended to the singly linked `ready_queue` and put
into the scheduler's ring. A task is its address; of a `task_t` only `next` and `id` matter here. -/

namespace ChiffOS.Task

open List

structure TaskNode where
  next : ℕ
  id : ℕ
deriving DecidableEq

/-- The tasks of the kernel, with the number of `task_t` taken from the heap. -/
structure Tasks where
  readyQueue : ℕ
  pid : ℕ
  task : ℕ → TaskNode
  ring : Ring ℕ
  calls : ℕ

namespace Tasks

def next (s : Tasks) (t : ℕ) : ℕ := (s.task t).next

def setNext (s : Tasks) (t n : ℕ) : Tasks :=
    { s with task := Function.update s.task t { s.task t with next := n } }

def setId (s : Tasks) (t id : ℕ) : Tasks :=
    { s with task := Function.update s.task t { s.task t with id := id } }

/-- The end of the queue; `none` if the walk does not end. -/
def lastTask (s : Tasks) : ℕ → ℕ → Option ℕ
  | 0, _ => none
  | fuel + 1, tmpTask => if s.next tmpTask = 0 then some tmpTask else lastTask s fuel (s.next tmpTask)

def takePid (s : Tasks) (newTask : ℕ) : Tasks := { s.setId newTask s.pid with pid := (s.pid + 1) % 2 ^ 32 }

/-- The part that `_get_task_stack` and `_get_task_stackFORK` share. -/
def enqueue (elements : Valloc) (fuel : ℕ) (s : Tasks) (newTask : ℕ) : Option Tasks := do
  let tmpTask ← s.lastTask fuel s.readyQueue
  let s := (s.setNext tmpTask newTask).takePid newTask
  return { s with ring := s.ring.ringListInsert elements newTask }

def getTaskStack (elements : Valloc) (fuel : ℕ) (s : Tasks) (newTask : ℕ) : Option Tasks :=
  s.enqueue elements fuel newTask

/-- Unlike the others this resets the task first. -/
def getTaskStackFORK (elements : Valloc) (fuel : ℕ) (s : Tasks) (newTask : ℕ) : Option Tasks :=
  ((s.setNext newTask 0).setId newTask 1).enqueue elements fuel newTask

/-- `valloc(sizeof(task_t))`, with what is found in that memory. -/
def allocTask (heap : Valloc) (s : Tasks) (contents : TaskNode) : ℕ × Tasks :=
  (heap.addr s.calls, { s with task := Function.update s.task (heap.addr s.calls) contents, calls :=
    s.calls + 1 })

def createTaskThread (heap elements : Valloc) (fuel : ℕ) (s : Tasks) (contents : TaskNode) : Option Tasks :=
  let (newTask, s) := s.allocTask heap contents
  s.getTaskStack elements fuel newTask

def createProcess (heap elements : Valloc) (fuel : ℕ) (s : Tasks) (contents : TaskNode) : Option Tasks :=
  let (newTask, s) := s.allocTask heap contents
  s.getTaskStack elements fuel newTask

def execElf (s : Tasks) (newTask : ℕ) : Tasks := ((s.takePid newTask).setNext newTask 0).setId newTask 1

def createUserTask (heap elements : Valloc) (fuel : ℕ) (s : Tasks) (contents : TaskNode) : Option Tasks :=
  let (newTask, s) := s.allocTask heap contents
  (s.execElf newTask).getTaskStack elements fuel newTask

def fork (elements : Valloc) (fuel : ℕ) (s : Tasks) (parent : ℕ) : Option Tasks :=
  s.getTaskStackFORK elements fuel parent

def taskInitialize (heap elements : Valloc) (memory : ℕ → TaskNode) (ringMemory : ℕ → Element ℕ) : Tasks where
  readyQueue := heap.addr 0
  pid := 1
  task := Function.update memory (heap.addr 0) ⟨0, 0⟩
  ring := (Ring.empty ringMemory).ringListInsert elements (heap.addr 0)
  calls := 1

end Tasks

inductive Creation where
  | createTaskThread (contents : TaskNode)
  | createProcess (contents : TaskNode)
  | createUserTask (contents : TaskNode)
  | fork (parent : ℕ)

namespace Tasks

def step (heap elements : Valloc) (fuel : ℕ) (s : Tasks) : Creation → Option Tasks
  | .createTaskThread contents => s.createTaskThread heap elements fuel contents
  | .createProcess contents => s.createProcess heap elements fuel contents
  | .createUserTask contents => s.createUserTask heap elements fuel contents
  | .fork parent => s.fork elements fuel parent

/-- The queue, from its first task to the null pointer. -/
structure Queue (s : Tasks) (xs : List ℕ) : Prop where
  path : Segment s.next s.readyQueue xs 0
  ne_zero : 0 ∉ xs
  nodup : xs.Nodup

def Intact (heap : Valloc) (s : Tasks) : Prop := ∃ xs, Queue s xs ∧ ∀ t, t ∈ xs ↔ ∃ n < s.calls, heap.addr n =
    t

def Forked (s s' : Tasks) (parent : ℕ) : Prop := ∃ xs ys child, Queue s xs ∧ Queue s' ys ∧
  (∀ t, t ∈ ys ↔ t = child ∨ t ∈ xs) ∧ child ∉ xs ∧ (s'.task child).id ∉ xs.map (fun t => (s.task t).id) ∧
  (s'.task parent).id = (s.task parent).id ∧ ys.idxOf parent = xs.idxOf parent

def Created (heap : Valloc) (s s' : Tasks) : Creation → Prop
  | .fork parent => Intact heap s' ∧ Forked s s' parent
  | _ => Intact heap s'

def Clean : Creation → Prop
  | .createTaskThread contents => contents.next = 0
  | .createProcess contents => contents.next = 0
  | .createUserTask _ => True
  | .fork _ => False

def Sound (heap elements : Valloc) (fuel : ℕ) : Tasks → List Creation → Prop
  | _, [] => True
  | s, op :: ops => ∃ s', s.step heap elements fuel op = some s' ∧ Created heap s s' op ∧
    Sound heap elements fuel s' ops

variable {heap elements : Valloc} {s s' : Tasks} {xs : List ℕ} {fuel t n : ℕ}

theorem next_setNext (s : Tasks) (t n u : ℕ) : (s.setNext t n).next u = if u = t then n else s.next u := by
  by_cases h : u = t
  · simp [next, setNext, h]
  · simp [next, setNext, h]

@[simp] theorem next_setId (s : Tasks) (t id u : ℕ) : (s.setId t id).next u = s.next u := by
  by_cases h : u = t
  · simp [next, setId, h]
  · simp [next, setId, h]

@[simp] theorem next_takePid (s : Tasks) (t u : ℕ) : (s.takePid t).next u = s.next u := next_setId s t s.pid u

/-- The walk to the end passes the tasks of the queue. -/
theorem lastTask_spec {a : ℕ} (h : Segment s.next t (xs ++ [a]) 0) (h0 : 0 ∉ xs ++ [a])
    (hf : xs.length < fuel) :
    s.lastTask fuel t = some a := by
  induction xs generalizing t fuel with
  | nil =>
    obtain ⟨rfl, h⟩ := h
    cases fuel with
    | zero => exact absurd hf (Nat.not_lt_zero _)
    | succ fuel =>
      have hn : s.next a = 0 := h
      rw [lastTask, if_pos hn]
  | cons x xs ih =>
    obtain ⟨rfl, h⟩ := h
    cases fuel with
    | zero => exact absurd hf (Nat.not_lt_zero _)
    | succ fuel =>
      have hn : s.next x ≠ 0 := by
        intro he
        apply h0
        cases xs with
        | nil => simp [← he, h.1]
        | cons y xs => simp [← he, h.1]
      rw [lastTask, if_neg hn]
      exact ih h (fun hm => h0 (mem_cons_of_mem x hm)) (Nat.lt_of_succ_lt_succ hf)

theorem enqueue_eq (hl : s.lastTask fuel s.readyQueue = some t) : s.enqueue elements fuel n =
    some { (s.setNext t n).takePid n with ring := s.ring.ringListInsert elements n } := by
  rw [enqueue, hl]
  rfl

theorem Queue.enqueue (elements : Valloc) (h : Queue s xs) (hx : xs ≠ []) (hf : xs.length ≤ fuel)
    (hn : n ∉ xs) (h0 : n ≠ 0) (hnext : s.next n = 0) :
    ∃ s', s.enqueue elements fuel n = some s' ∧ Queue s' (xs ++ [n]) ∧ s'.calls = s.calls ∧
      s'.ring = s.ring.ringListInsert elements n := by
  obtain ⟨ys, a, rfl⟩ := (eq_nil_or_concat xs).resolve_left hx
  rw [concat_eq_append] at *
  have hlast := lastTask_spec h.path h.ne_zero (by simpa using hf : ys.length < fuel)
  refine ⟨_, enqueue_eq hlast, ⟨?_, ?_, ?_⟩, rfl, rfl⟩
  · obtain ⟨b, h1, rfl, h2⟩ := h.path.split
    have hna : n ≠ a := by
      rintro rfl
      exact hn (by simp)
    have hsame : ∀ u, u ≠ a → (s.setNext a n).next u = s.next u := fun u hu => by simp [next_setNext, hu]
    have hstart : Segment (s.setNext a n).next s.readyQueue ys a := by
      apply h1.congr
      intro u hu
      apply hsame
      rintro rfl
      exact (nodup_append.mp h.nodup).2.2 u hu u (mem_singleton_self u) rfl
    have hlink : Segment (s.setNext a n).next a [a] n := ⟨rfl, by simp [Segment, next_setNext]⟩
    have hend : Segment (s.setNext a n).next n [n] 0 := ⟨rfl, (hsame n hna).trans hnext⟩
    have hpath := (hstart.append hlink).append hend
    apply Segment.congr hpath
    intro u _
    exact next_takePid (s.setNext a n) n u
  · simpa [h0.symm] using h.ne_zero
  · rw [nodup_append]
    refine ⟨h.nodup, nodup_singleton n, ?_⟩
    intro u hu v hv
    rw [mem_singleton.mp hv]
    rintro rfl
    exact hn hu

theorem Queue.congr (h : Queue s xs) (hq : s'.readyQueue = s.readyQueue)
    (hnext : ∀ t ∈ xs, s'.next t = s.next t) : Queue s' xs := by
  refine ⟨?_, h.ne_zero, h.nodup⟩
  rw [hq]
  exact h.path.congr hnext

def created (heap : Valloc) (s : Tasks) : List ℕ := (List.range s.calls).map heap.addr

theorem mem_created : t ∈ created heap s ↔ ∃ n < s.calls, heap.addr n = t := by simp [created]

structure Inv (heap elements : Valloc) (s : Tasks) : Prop where
  queue : Queue s (created heap s)
  calls : 0 < s.calls
  ring : Ring.Contains elements s.ring (created heap s : Multiset ℕ)

theorem Inv.intact (h : Inv heap elements s) : Intact heap s := ⟨_, h.queue, fun _ => mem_created⟩

theorem inv_taskInitialize (heap elements : Valloc) (memory : ℕ → TaskNode) (ringMemory : ℕ → Element ℕ) :
    Inv heap elements (taskInitialize heap elements memory ringMemory) := by
  refine ⟨⟨?_, ?_, ?_⟩, Nat.one_pos, ?_⟩
  · simp [created, taskInitialize, Segment, next]
  · simpa [created, taskInitialize] using (heap.addr_ne_zero 0).symm
  · simp [created, taskInitialize]
  · exact Ring.Contains.insert (.inl ⟨rfl, rfl⟩) (heap.addr 0)

theorem Inv.enqueue (h : Inv heap elements s) (s' : Tasks) (hf : s.calls < fuel)
    (hq : s'.readyQueue = s.readyQueue)
    (hc : s'.calls = s.calls + 1) (hr : s'.ring = s.ring) (hnew : s'.next (heap.addr s.calls) = 0)
    (hnext : ∀ t ≠ heap.addr s.calls, s'.next t = s.next t) :
    ∃ s'', s'.getTaskStack elements fuel (heap.addr s.calls) = some s'' ∧ Inv heap elements s'' ∧ s''.calls =
      s.calls + 1 := by
  have hfresh : heap.addr s.calls ∉ created heap s := by
    intro hm
    obtain ⟨n, hn, he⟩ := mem_created.mp hm
    exact hn.ne (heap.addr_inj he)
  have hsucc : ∀ u : Tasks, u.calls = s.calls + 1 → created heap u =
    created heap s ++ [heap.addr s.calls] := by
    intro u hu
    simp [created, hu, range_succ]
  have hqueue : Queue s' (created heap s) := by
    apply h.queue.congr hq
    intro t ht
    apply hnext
    rintro rfl
    exact hfresh ht
  have hne : created heap s ≠ [] := by simpa [created] using h.calls.ne'
  obtain ⟨s'', hs, hq', hcalls, hring⟩ := hqueue.enqueue elements hne (by simpa [created] using hf.le) hfresh
    (heap.addr_ne_zero _) hnew
  have hc' : s''.calls = s.calls + 1 := hcalls.trans hc
  refine ⟨s'', hs, ⟨?_, by omega, ?_⟩, hc'⟩
  · rw [hsucc s'' hc']
    exact hq'
  · rw [hsucc s'' hc', hring, hr]
    have hins := h.ring.insert (heap.addr s.calls)
    rwa [Multiset.cons_coe, Multiset.coe_eq_coe.mpr (perm_append_singleton _ _).symm] at hins

theorem Inv.step (h : Inv heap elements s) (hf : s.calls < fuel) {op : Creation} (hop : Clean op) :
    ∃ s', s.step heap elements fuel op = some s' ∧ Inv heap elements s' ∧ s'.calls = s.calls + 1 := by
  cases op with
  | createTaskThread contents =>
    apply h.enqueue (s.allocTask heap contents).2 hf rfl rfl rfl
    · simpa [next, allocTask, Clean] using hop
    · intro t ht
      simp [next, allocTask, ht]
  | createProcess contents =>
    apply h.enqueue (s.allocTask heap contents).2 hf rfl rfl rfl
    · simpa [next, allocTask, Clean] using hop
    · intro t ht
      simp [next, allocTask, ht]
  | createUserTask contents =>
    apply h.enqueue ((s.allocTask heap contents).2.execElf (heap.addr s.calls)) hf rfl rfl rfl
    · simp [execElf, next_setNext]
    · intro t ht
      rw [execElf, next_setId, next_setNext, if_neg ht, next_takePid]
      simp [next, allocTask, ht]
  | fork parent => exact hop.elim

/-- The walk ends in the parent, since its `next` was cleared. -/
theorem fork_eq (elements : Valloc) (h : Queue s xs) {parent : ℕ} (hp : parent ∈ xs) (hf : xs.length ≤ fuel) :
    s.fork elements fuel parent =
      some { ((((s.setNext parent 0).setId parent 1).setNext parent parent).takePid parent) with
      ring := s.ring.ringListInsert elements parent } := by
  obtain ⟨l, r, rfl⟩ := append_of_mem hp
  obtain ⟨b, h1, rfl, -⟩ := h.path.split
  have hnot : ∀ u ∈ l, u ≠ parent := fun u hu => (nodup_append.mp h.nodup).2.2 u hu parent mem_cons_self
  have hnext : ∀ u, ((s.setNext parent 0).setId parent 1).next u = if u = parent then 0 else s.next u :=
    fun u => by
    rw [next_setId, next_setNext]
  have hpath : Segment ((s.setNext parent 0).setId parent 1).next s.readyQueue (l ++ [parent]) 0 := by
    refine Segment.append (h1.congr ?_) ⟨rfl, ?_⟩
    · intro u hu
      rw [hnext, if_neg (hnot u hu)]
    · simp [Segment, next_setNext]
  apply enqueue_eq
  apply lastTask_spec hpath
  · intro h0
    apply h.ne_zero
    simp only [mem_append, mem_cons, not_mem_nil, or_false] at h0 ⊢
    tauto
  · simp only [length_append, length_cons] at hf
    omega

/-- From a task that is behind itself no null pointer is reached. -/
theorem not_queue_of_loop {l : List ℕ} (h1 : Segment s.next s.readyQueue l t) (h2 : s.next t = t)
    (h0 : 0 ∉ l ++ [t])
    (ys : List ℕ) : ¬ Queue s ys := by
  intro hq
  obtain ⟨hend, -⟩ := hq.path.iterate
  obtain ⟨hl, hget⟩ := h1.iterate
  by_cases hlt : ys.length < l.length
  · rw [← hget _ hlt] at hend
    exact h0 (by simp [← hend])
  · obtain ⟨k, hk⟩ := Nat.exists_eq_add_of_le' (not_lt.mp hlt)
    rw [hk, Function.iterate_add_apply, hl, Function.iterate_fixed h2] at hend
    exact h0 (by simp [hend])

theorem fork_breaks (elements : Valloc) (h : Queue s xs) {parent : ℕ} (hp : parent ∈ xs)
    (hf : xs.length ≤ fuel) :
    ∃ s', s.fork elements fuel parent = some s' ∧ (s'.task parent).id = s.pid ∧ ∀ ys, ¬ Queue s' ys := by
  refine ⟨_, fork_eq elements h hp hf, ?_, ?_⟩
  · simp [takePid, setId, setNext]
  · obtain ⟨l, r, rfl⟩ := append_of_mem hp
    obtain ⟨b, h1, rfl, -⟩ := h.path.split
    have hnot : ∀ u ∈ l, u ≠ parent := fun u hu => (nodup_append.mp h.nodup).2.2 u hu parent mem_cons_self
    refine not_queue_of_loop (h1.congr ?_) ?_ ?_
    · intro u hu
      have hu' := hnot u hu
      simp [next, takePid, setId, setNext, hu']
    · simp [next, takePid, setId, setNext]
    · intro h0
      apply h.ne_zero
      simp only [mem_append, mem_cons, not_mem_nil, or_false] at h0 ⊢
      tauto

theorem Inv.sound (ops : List Creation) : ∀ s, Inv heap elements s → s.calls + ops.length ≤ fuel →
    (∀ op ∈ ops, Clean op) →
    Sound heap elements fuel s ops := by
  induction ops with
  | nil =>
    intro s _ _ _
    trivial
  | cons op ops ih =>
    intro s h hf hops
    rw [forall_mem_cons] at hops
    rw [length_cons] at hf
    have hlt : s.calls < fuel := by omega
    obtain ⟨s', hs, hinv, hc⟩ := h.step hlt hops.1
    refine ⟨s', hs, ?_, ih s' hinv (by omega) hops.2⟩
    cases op with
    | fork parent => exact hops.1.elim
    | _ => exact hinv.intact

/-- The ready queue stays whole, in every run without forks in which new tasks have no successor. -/
theorem ready_queue_intact (heap elements : Valloc) (memory : ℕ → TaskNode) (ringMemory : ℕ → Element ℕ)
    (ops : List Creation) (hops : ∀ op ∈ ops, Clean op) (fuel : ℕ) (hf : ops.length < fuel) :
    Intact heap (taskInitialize heap elements memory ringMemory) ∧
      Sound heap elements fuel (taskInitialize heap elements memory ringMemory) ops := by
  have h := inv_taskInitialize heap elements memory ringMemory
  refine ⟨h.intact, Inv.sound ops _ h ?_ hops⟩
  rw [show (taskInitialize heap elements memory ringMemory).calls = 1 from rfl]
  omega

def bumpHeap : Valloc := ⟨Nat.succ, Nat.succ_ne_zero, Nat.succ_injective⟩

theorem ready_queue_intact_three :
    Intact bumpHeap (taskInitialize bumpHeap bumpHeap (fun _ => ⟨0, 0⟩) fun _ => ⟨0, 0⟩) ∧
    Sound bumpHeap bumpHeap 4 (taskInitialize bumpHeap bumpHeap (fun _ => ⟨0, 0⟩) fun _ => ⟨0, 0⟩)
      [.createTaskThread ⟨0, 5⟩, .createProcess ⟨0, 6⟩, .createUserTask ⟨9, 9⟩] :=
  ready_queue_intact bumpHeap bumpHeap _ _ _ (by simp [Clean]) 4 (by decide)

/-- The first task forks: it is behind itself, and its id is another one. -/
theorem fork_loops : ∃ s, (taskInitialize bumpHeap bumpHeap (fun _ => ⟨0, 0⟩) fun _ => ⟨0, 0⟩).step bumpHeap
    bumpHeap 2
      (.fork 1) = some s ∧ s.readyQueue = 1 ∧ s.task 1 = ⟨1, 1⟩ ∧
    ¬ Created bumpHeap (taskInitialize bumpHeap bumpHeap (fun _ => ⟨0, 0⟩) fun _ => ⟨0, 0⟩) s (.fork 1) := by
  have hq := (inv_taskInitialize bumpHeap bumpHeap (fun _ => ⟨0, 0⟩) fun _ => ⟨0, 0⟩).queue
  have hp : 1 ∈ created bumpHeap (taskInitialize bumpHeap bumpHeap (fun _ => ⟨0, 0⟩) fun _ =>
    ⟨0, 0⟩) := by decide
  have hf : (created bumpHeap (taskInitialize bumpHeap bumpHeap (fun _ => ⟨0, 0⟩) fun _ => ⟨0, 0⟩)).length ≤
    2 := by decide
  obtain ⟨s, hs, -, hno⟩ := fork_breaks bumpHeap hq hp hf
  obtain rfl := Option.some.inj ((fork_eq bumpHeap hq hp hf).symm.trans hs)
  refine ⟨_, hs, rfl, rfl, ?_⟩
  rintro ⟨⟨xs, hx, -⟩, -⟩
  exact hno xs hx

end Tasks

end ChiffOS.Task
