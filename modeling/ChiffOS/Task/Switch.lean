import ChiffOS.Task.ReadyQueue

/-! The choice of the next task in `_task_switch` of `task/proc.c`. The ring of the scheduler picks a task;
if it sleeps, the walk goes on behind it in the `ready_queue`, and from the end of the queue to its first
task, which may sleep too. -/

namespace ChiffOS.Task

def taskRunning : ℕ := 1
def taskSleeping : ℕ := 2
def prioIdle : ℕ := 0
def prioLow : ℕ := 1
def kernelStackSize : ℕ := 4096

/-- The fields of `task_t` that a switch uses. -/
structure Thread where
  next : ℕ
  state : ℕ
  wakeupTime : ℕ
  priority : ℕ
  timeToRun : ℕ
  eip : ℕ
  esp : ℕ
  kernelStack : ℕ
deriving DecidableEq

/-- The tasks by their addresses, and the globals of the scheduler; `ts` is the bit of `cr0` that is set for
a task other than `FPUTask`, and `esp0` is in the task state segment. -/
structure Scheduler where
  doTaskSwitch : ℕ
  currentTask : ℕ
  readyQueue : ℕ
  task : ℕ → Thread
  ring : Ring ℕ
  tickCount : ℕ
  fpuTask : ℕ
  ts : Bool
  esp0 : ℕ

namespace Scheduler

def next (s : Scheduler) (t : ℕ) : ℕ := (s.task t).next

def update (s : Scheduler) (t : ℕ) (th : Thread) : Scheduler := { s with task := Function.update s.task t th }

/-- A sleeper whose time has come runs again. -/
def woken (tickCount : ℕ) (th : Thread) : Thread :=
  if th.state = taskSleeping ∧ th.wakeupTime ≤ tickCount then { th with wakeupTime := 0, state :=
    taskRunning } else th

/-- The loop over the `ready_queue`; `none` if it does not end. -/
def wakePass : (fuel : ℕ) → (t : ℕ) → Scheduler → Option Scheduler
  | 0, _, _ => none
  | fuel + 1, t, s => if t =
    0 then some s else wakePass fuel (s.next t) (s.update t (woken s.tickCount (s.task t)))

def firstAwake (s : Scheduler) : (fuel : ℕ) → (t : ℕ) → Option ℕ
  | 0, _ => none
  | fuel + 1, t => if t ≠ 0 ∧ (s.task t).state = taskSleeping then firstAwake s fuel (s.next t) else some t

def setTimeToRun (th : Thread) : Thread :=
  { th with timeToRun := if th.priority = prioLow then 3 else if th.priority =
    prioIdle then 1 else th.timeToRun }

def enter (s : Scheduler) (t : ℕ) : Scheduler :=
  { s with
    currentTask := t
    ts := if t = s.fpuTask then false else true
    esp0 := ((s.task t).kernelStack + kernelStackSize) % 2 ^ 32 }

def chooseTask (fuel picked : ℕ) (s : Scheduler) : Option Scheduler := do
  let s := s.update picked (setTimeToRun (s.task picked))
  let s ← s.wakePass fuel s.readyQueue
  let t ← s.firstAwake fuel picked
  return s.enter (if t = 0 then s.readyQueue else t)

/-- The returned stack pointer and the state; `eip` is what the frame at `esp` holds. -/
def taskSwitch (fuel esp eip : ℕ) (s : Scheduler) : Option (ℕ × Scheduler) :=
  if s.doTaskSwitch = 0 then some (esp, s)
  else if s.currentTask = 0 then some (esp, s)
  else do
    let oldTask := s.currentTask
    let s := s.update oldTask { s.task oldTask with eip := eip, esp := esp }
    let (picked, ring) ← s.ring.getCurrentTask
    let s := { s with ring := ring, currentTask := picked }
    if oldTask = picked then return (esp, s)
    else do
      let s ← s.chooseTask fuel picked
      return ((s.task s.currentTask).esp, s)

/-! ### What is asked for -/

structure Scheduled (elements : Valloc) (s : Scheduler) (xs : List ℕ) : Prop where
  path : Segment s.next s.readyQueue xs 0
  ne_zero : 0 ∉ xs
  nodup : xs.Nodup
  ne_nil : xs ≠ []
  ring : Ring.Contains elements s.ring (xs : Multiset ℕ)

def RunsAwake (s : Scheduler) (xs : List ℕ) : Prop :=
  (∃ t ∈ xs, (s.task t).state ≠ taskSleeping) → s.currentTask = 0 ∨
    (s.task s.currentTask).state ≠ taskSleeping

def pick (s : Scheduler) : ℕ := s.ring.data (s.ring.next s.ring.current)

def Stays (s : Scheduler) : Prop := s.doTaskSwitch = 0 ∨ s.currentTask = 0 ∨ s.currentTask = s.pick

def Asleep (s : Scheduler) (t : ℕ) : Prop := (s.task t).state = taskSleeping ∧
    s.tickCount < (s.task t).wakeupTime

def AwakeAhead (s : Scheduler) (xs : List ℕ) : Prop :=
  (s.Stays ∧ (s.currentTask = 0 ∨ (s.task s.currentTask).state ≠ taskSleeping ∨ ∀ t ∈ xs, (s.task t).state =
    taskSleeping)) ∨
    (¬ s.Stays ∧ ((∀ t ∈ xs, s.Asleep t) ∨ ¬ s.Asleep s.readyQueue ∨ ∃ t ∈ xs.dropWhile (· ≠ s.pick),
      ¬ s.Asleep t))

/-! ### The loops -/

variable {s : Scheduler} {xs : List ℕ} {t fuel : ℕ}

theorem next_update (s : Scheduler) (t : ℕ) {th : Thread} (h : th.next = s.next t) (u : ℕ) :
    (s.update t th).next u = s.next u := by
  by_cases hu : u = t
  · subst hu
    simp [next, update, h]
  · simp [next, update, hu]

theorem woken_next (tickCount : ℕ) (th : Thread) : (woken tickCount th).next = th.next := by
  unfold woken
  split_ifs
  · rfl
  · rfl

theorem wakePass_spec (xs : List ℕ) : ∀ (s : Scheduler) (t fuel : ℕ), Segment s.next t xs 0 → 0 ∉ xs →
    xs.Nodup → xs.length < fuel →
    s.wakePass fuel t =
      some { s with task := fun u => if u ∈ xs then woken s.tickCount (s.task u) else s.task u } := by
  induction xs with
  | nil =>
    intro s t fuel h _ _ hf
    obtain rfl : t = 0 := h
    cases fuel with
    | zero => exact absurd hf (Nat.not_lt_zero _)
    | succ fuel => simp [wakePass]
  | cons x xs ih =>
    intro s t fuel h h0 hn hf
    obtain ⟨rfl, h⟩ := h
    obtain ⟨hx, hn⟩ := List.nodup_cons.mp hn
    obtain ⟨hx0, h0⟩ := not_or.mp (List.mem_cons.not.mp h0)
    cases fuel with
    | zero => exact absurd hf (Nat.not_lt_zero _)
    | succ fuel =>
      have hnext := next_update s x (woken_next s.tickCount (s.task x))
      have hpath : Segment (s.update x (woken s.tickCount (s.task x))).next (s.next x) xs 0 :=
        h.congr fun u _ => hnext u
      rw [wakePass, if_neg (Ne.symm hx0), ih _ _ fuel hpath h0 hn (Nat.lt_of_succ_lt_succ hf)]
      refine congrArg some ?_
      simp only [update, mk.injEq, true_and, and_true]
      funext u
      by_cases hux : u = x
      · subst hux
        simp [hx]
      · simp [hux]

theorem firstAwake_spec (ys : List ℕ) : ∀ (t fuel : ℕ), Segment s.next t ys 0 → 0 ∉ ys → ys.length < fuel →
    s.firstAwake fuel t = some ((ys.find? fun u => (s.task u).state ≠ taskSleeping).getD 0) := by
  induction ys with
  | nil =>
    intro t fuel h _ hf
    obtain rfl : t = 0 := h
    cases fuel with
    | zero => exact absurd hf (Nat.not_lt_zero _)
    | succ fuel => simp [firstAwake]
  | cons y ys ih =>
    intro t fuel h h0 hf
    obtain ⟨rfl, h⟩ := h
    obtain ⟨hy0, h0⟩ := not_or.mp (List.mem_cons.not.mp h0)
    cases fuel with
    | zero => exact absurd hf (Nat.not_lt_zero _)
    | succ fuel =>
      by_cases hs : (s.task y).state = taskSleeping
      · rw [firstAwake, if_pos ⟨Ne.symm hy0, hs⟩, ih _ fuel h h0 (Nat.lt_of_succ_lt_succ hf),
          List.find?_cons_of_neg (by simp [hs])]
      · rw [firstAwake, if_neg (fun hc => hs hc.2), List.find?_cons_of_pos (by simp [hs])]
        rfl

/-! ### A switch -/

/-- The states differ in nothing that the loops look at. -/
structure Alike (s s' : Scheduler) : Prop where
  next : s'.next = s.next
  state : ∀ u, (s'.task u).state = (s.task u).state
  wakeupTime : ∀ u, (s'.task u).wakeupTime = (s.task u).wakeupTime
  tickCount : s'.tickCount = s.tickCount
  readyQueue : s'.readyQueue = s.readyQueue

theorem Alike.update (s : Scheduler) (t : ℕ) {th : Thread} (hn : th.next = s.next t)
    (hs : th.state = (s.task t).state)
    (hw : th.wakeupTime = (s.task t).wakeupTime) : Alike s (s.update t th) := by
  refine ⟨funext (next_update s t hn), ?_, ?_, rfl, rfl⟩
  · intro u
    by_cases hu : u = t
    · subst hu
      simp [Scheduler.update, hs]
    · simp [Scheduler.update, hu]
  · intro u
    by_cases hu : u = t
    · subst hu
      simp [Scheduler.update, hw]
    · simp [Scheduler.update, hu]

theorem Alike.asleep_iff {s' : Scheduler} (h : Alike s s') (t : ℕ) : s'.Asleep t ↔ s.Asleep t := by
  rw [Asleep, Asleep, h.state, h.wakeupTime, h.tickCount]

theorem woken_state_iff (s : Scheduler) (t : ℕ) : (woken s.tickCount (s.task t)).state = taskSleeping ↔
    s.Asleep t := by
  unfold woken Asleep
  split_ifs with h
  · have hne : taskRunning ≠ taskSleeping := by decide
    exact ⟨fun he => absurd he hne, fun ha => absurd h.2 (Nat.not_le.mpr ha.2)⟩
  · constructor
    · intro hs
      exact ⟨hs, Nat.lt_of_not_le fun hle => h ⟨hs, hle⟩⟩
    · intro ha
      exact ha.1

variable {elements : Valloc}

theorem Scheduled.getCurrentTask (h : Scheduled elements s xs) :
    s.pick ∈ xs ∧ s.ring.getCurrentTask =
      some (s.pick, { s.ring with current := s.ring.next s.ring.current }) := by
  have hne : (xs : Multiset ℕ) ≠ 0 := by simpa using h.ne_nil
  obtain ⟨ys, hys, hm⟩ := h.ring.holds hne
  refine ⟨?_, hys.rotate.1⟩
  have hmem : s.pick ∈ (ys.map s.ring.data : Multiset ℕ) := by
    exact List.mem_map_of_mem (hys.circle.next_mem hys.current)
  rw [hm] at hmem
  exact hmem

/-- The walk begins at a task of the queue, and passes the tasks behind it. -/
theorem Scheduled.from_mem (h : Scheduled elements s xs) (ht : t ∈ xs) :
    Segment s.next t (xs.dropWhile (· ≠ t)) 0 := by
  obtain ⟨l, r, rfl⟩ := List.append_of_mem ht
  have hl : ∀ u ∈ l, u ≠ t := by
    intro u hu he
    exact (List.nodup_append.mp h.nodup).2.2 u hu t List.mem_cons_self he
  have hdrop : (l ++ t :: r).dropWhile (· ≠ t) = t :: r := by
    rw [List.dropWhile_append_of_pos fun u hu => decide_eq_true (hl u hu),
      List.dropWhile_cons_of_neg (by simp)]
  obtain ⟨u, -, rfl, hr⟩ := h.path.split
  rw [hdrop]
  exact ⟨rfl, hr⟩

instance (s : Scheduler) (t : ℕ) : Decidable (s.Asleep t) := inferInstanceAs (Decidable (_ ∧ _))

theorem chooseTask_spec (hq : Segment s.next s.readyQueue xs 0) (h0 : 0 ∉ xs) (hn : xs.Nodup) {ys : List ℕ}
    (hy : Segment s.next t ys 0) (hsub : ys.Sublist xs) (hf : xs.length < fuel) :
    ∃ s', s.chooseTask fuel t = some s' ∧ (∀ u ∈ xs, (s'.task u).state = taskSleeping ↔ s.Asleep u) ∧
      s'.currentTask = (ys.find? fun u => ¬ s.Asleep u).getD s.readyQueue := by
  have halike : Alike s (s.update t (setTimeToRun (s.task t))) := Alike.update s t rfl rfl rfl
  generalize hs₁ : s.update t (setTimeToRun (s.task t)) = s₁ at halike
  let s₂ := { s₁ with task := fun u => if u ∈ xs then woken s₁.tickCount (s₁.task u) else s₁.task u }
  have hpass : s₁.wakePass fuel s₁.readyQueue = some s₂ := by
    apply wakePass_spec xs s₁ s₁.readyQueue fuel _ h0 hn hf
    rw [halike.next, halike.readyQueue]
    exact hq
  have hstate : ∀ u ∈ xs, (s₂.task u).state = taskSleeping ↔ s.Asleep u := by
    intro u hu
    have he : s₂.task u = woken s₁.tickCount (s₁.task u) := if_pos hu
    rw [he, woken_state_iff, halike.asleep_iff]
  have hnext : s₂.next = s.next := by
    rw [← halike.next]
    funext u
    simp only [next, s₂]
    split_ifs
    · exact woken_next _ _
    · rfl
  have hfind : ys.find? (fun u => (s₂.task u).state ≠ taskSleeping) = ys.find? (fun u => ¬ s.Asleep u) := by
    apply List.find?_congr
    intro u hu
    exact decide_eq_decide.mpr (not_congr (hstate u (hsub.subset hu)))
  have hwalk : s₂.firstAwake fuel t = some ((ys.find? fun u => ¬ s.Asleep u).getD 0) := by
    rw [firstAwake_spec ys t fuel (hnext.symm ▸ hy) (fun hy0 => h0 (hsub.subset hy0))
      (lt_of_le_of_lt hsub.length_le hf), hfind]
  cases hx : ys.find? fun u => ¬ s.Asleep u with
  | none =>
    refine ⟨s₂.enter s₂.readyQueue, ?_, hstate, halike.readyQueue⟩
    rw [hx] at hwalk
    simp only [chooseTask, hs₁, hpass, Option.bind_eq_bind, Option.bind_some, hwalk]
    rfl
  | some u =>
    have hu : u ≠ 0 := fun hu0 => h0 (hsub.subset (hu0 ▸ List.mem_of_find?_eq_some hx))
    refine ⟨s₂.enter u, ?_, hstate, rfl⟩
    rw [hx] at hwalk
    simp only [chooseTask, hs₁, hpass, Option.bind_eq_bind, Option.bind_some, hwalk, Option.getD_some,
      if_neg hu]
    rfl

theorem taskSwitch_of_not_stays (h : Scheduled elements s xs) (hs : ¬ s.Stays) (hf : xs.length < fuel)
    (esp eip : ℕ) : ∃ r s', s.taskSwitch fuel esp eip = some (r, s') ∧
      (∀ u ∈ xs, (s'.task u).state = taskSleeping ↔ s.Asleep u) ∧
      s'.currentTask = ((xs.dropWhile (· ≠ s.pick)).find? fun u => ¬ s.Asleep u).getD s.readyQueue := by
  obtain ⟨hdo, hcur, hpick⟩ : s.doTaskSwitch ≠ 0 ∧ s.currentTask ≠ 0 ∧ s.currentTask ≠ s.pick := by
    simpa only [Stays, not_or] using hs
  obtain ⟨hmem, hget⟩ := h.getCurrentTask
  have hpath := h.from_mem hmem
  let s₁ : Scheduler := { s.update s.currentTask { s.task s.currentTask with eip := eip, esp := esp } with
    ring := { s.ring with current := s.ring.next s.ring.current }, currentTask := s.pick }
  have halike : Alike s s₁ := by
    have hu : Alike s (s.update s.currentTask { s.task s.currentTask with eip := eip, esp := esp }) :=
      Alike.update s _ rfl rfl rfl
    exact ⟨hu.next, hu.state, hu.wakeupTime, rfl, rfl⟩
  have hq : Segment s₁.next s₁.readyQueue xs 0 := by
    rw [halike.next]
    exact h.path
  obtain ⟨s', hrun, hstate, hchosen⟩ := chooseTask_spec hq h.ne_zero h.nodup (halike.next.symm ▸ hpath)
    (List.dropWhile_sublist _) hf
  simp only [halike.asleep_iff] at hstate hchosen
  refine ⟨(s'.task s'.currentTask).esp, s', ?_, hstate, hchosen⟩
  have hring : (s.update s.currentTask { s.task s.currentTask with eip := eip, esp := esp }).ring = s.ring :=
    rfl
  rw [taskSwitch, if_neg hdo, if_neg hcur]
  simp only [hring, hget, Option.bind_eq_bind, Option.bind_some, if_neg hpick]
  exact congrArg (fun x : Option Scheduler => x.bind fun s => some ((s.task s.currentTask).esp, s)) hrun

theorem taskSwitch_of_stays (h : Scheduled elements s xs) (hs : s.Stays) (fuel esp eip : ℕ) :
    ∃ r s', s.taskSwitch fuel esp eip = some (r, s') ∧ (∀ u, (s'.task u).state = (s.task u).state) ∧
      s'.currentTask = s.currentTask := by
  by_cases hdo : s.doTaskSwitch = 0
  · exact ⟨esp, s, by rw [taskSwitch, if_pos hdo], fun _ => rfl, rfl⟩
  by_cases hcur : s.currentTask = 0
  · exact ⟨esp, s, by rw [taskSwitch, if_neg hdo, if_pos hcur], fun _ => rfl, rfl⟩
  have hpick : s.currentTask = s.pick := (hs.resolve_left hdo).resolve_left hcur
  have hring : (s.update s.currentTask { s.task s.currentTask with eip := eip, esp := esp }).ring = s.ring :=
    rfl
  have hu : Alike s (s.update s.currentTask { s.task s.currentTask with eip := eip, esp := esp }) :=
    Alike.update s _ rfl rfl rfl
  refine ⟨esp, { s.update s.currentTask { s.task s.currentTask with eip := eip, esp := esp } with
    ring := { s.ring with current := s.ring.next s.ring.current }, currentTask := s.pick }, ?_, hu.state,
      hpick.symm⟩
  rw [taskSwitch, if_neg hdo, if_neg hcur]
  simp only [hring, h.getCurrentTask.2, Option.bind_eq_bind, Option.bind_some, if_pos hpick]
  rfl

theorem Scheduled.head_mem (h : Scheduled elements s xs) : s.readyQueue ∈ xs := by
  have hpath := h.path
  cases xs with
  | nil => exact absurd rfl h.ne_nil
  | cons x xs =>
    obtain ⟨rfl, -⟩ := hpath
    exact List.mem_cons_self

theorem chosen_awake_iff (h : Scheduled elements s xs) {s' : Scheduler}
    (hstate : ∀ u ∈ xs, (s'.task u).state = taskSleeping ↔ s.Asleep u) {ys : List ℕ} (hsub : ys.Sublist xs)
    (hcur : s'.currentTask = (ys.find? fun u => ¬ s.Asleep u).getD s.readyQueue) :
    (s'.currentTask = 0 ∨ (s'.task s'.currentTask).state ≠ taskSleeping) ↔ ¬ s.Asleep s.readyQueue ∨ ∃ t ∈ ys,
      ¬ s.Asleep t := by
  have hmem0 : ∀ u ∈ xs, u ≠ 0 := fun u hu he => h.ne_zero (he ▸ hu)
  cases hx : ys.find? fun u => ¬ s.Asleep u with
  | none =>
    rw [hx] at hcur
    have hnone : ¬ ∃ t ∈ ys, ¬ s.Asleep t := by
      intro ⟨t, ht, ha⟩
      exact List.find?_eq_none.mp hx t ht (decide_eq_true ha)
    rw [hcur, Option.getD_none, Ne, hstate _ h.head_mem]
    simp only [hmem0 _ h.head_mem, hnone, false_or, or_false]
  | some u =>
    rw [hx] at hcur
    have hu : u ∈ ys := List.mem_of_find?_eq_some hx
    have ha : ¬ s.Asleep u := by simpa using List.find?_some hx
    rw [hcur, Option.getD_some, Ne, hstate u (hsub.subset hu)]
    exact ⟨fun _ => .inr ⟨u, hu, ha⟩, fun _ => .inr ha⟩

/-- A call returns. It does not leave a sleeper as the current task while another one is awake, exactly if
there is a task that is awake where the walk looks for it. -/
theorem task_switch_awake_iff {elements : Valloc} (s : Scheduler) (xs : List ℕ) (h : Scheduled elements s xs)
    (fuel esp eip : ℕ)
    (hf : xs.length < fuel) : ∃ r s', s.taskSwitch fuel esp eip = some (r, s') ∧
      (s'.RunsAwake xs ↔ s.AwakeAhead xs) := by
  by_cases hs : s.Stays
  · obtain ⟨r, s', hrun, hstate, hcur⟩ := taskSwitch_of_stays h hs fuel esp eip
    refine ⟨r, s', hrun, ?_⟩
    have hall : (∀ t ∈ xs, (s.task t).state = taskSleeping) ↔ ¬ ∃ t ∈ xs,
      (s.task t).state ≠ taskSleeping := by
      push Not
      rfl
    simp only [RunsAwake, AwakeAhead, hs, not_true, false_and, or_false, true_and, hstate, hcur, hall]
    rw [imp_iff_or_not, or_assoc]
  · obtain ⟨r, s', hrun, hstate, hcur⟩ := taskSwitch_of_not_stays h hs hf esp eip
    refine ⟨r, s', hrun, ?_⟩
    have hall : (∃ t ∈ xs, (s'.task t).state ≠ taskSleeping) ↔ ¬ ∀ t ∈ xs, s.Asleep t := by
      push Not
      exact exists_congr fun t => and_congr_right fun ht => not_congr (hstate t ht)
    have hchosen := chosen_awake_iff h hstate (List.dropWhile_sublist _) hcur
    simp only [RunsAwake, AwakeAhead, hs, not_false_iff, false_and, false_or, true_and, hall, hchosen]
    rw [imp_iff_not_or, not_not]

/-! Three tasks: the queue is 1, 2, 3, and the ring picks 3 while 1 runs. -/

def threeElements : Valloc where
  addr n := n + 1
  addr_ne_zero n := Nat.succ_ne_zero n
  addr_inj := Nat.succ_injective

def threeRing : Ring ℕ :=
  (((Ring.empty fun _ => ⟨0, 0⟩).ringListInsert threeElements 1).ringListInsert threeElements
    2).ringListInsert threeElements 3

def thread (next state wakeupTime : ℕ) : Thread := ⟨next, state, wakeupTime, prioLow, 0, 0, 0, 0⟩

def threeTasks (wakeup : ℕ) : Scheduler where
  doTaskSwitch := 1
  currentTask := 1
  readyQueue := 1
  task t := if t = 1 then thread 2 taskSleeping wakeup else if t =
    2 then thread 3 taskRunning 0 else thread 0 taskSleeping 100
  ring := threeRing
  tickCount := 5
  fpuTask := 0
  ts := false
  esp0 := 0

theorem threeTasks_scheduled (wakeup : ℕ) : Scheduled threeElements (threeTasks wakeup) [1, 2, 3] where
  path := ⟨rfl, rfl, rfl, rfl⟩
  ne_zero := by decide
  nodup := by decide
  ne_nil := by decide
  ring := by
    have hempty : Ring.Contains threeElements (Ring.empty fun _ => ⟨0, 0⟩) (0 : Multiset ℕ) := .inl ⟨rfl, rfl⟩
    have hthree : ([1, 2, 3] : Multiset ℕ) = 3 ::ₘ 2 ::ₘ 1 ::ₘ 0 := by decide
    rw [hthree]
    exact ((hempty.insert 1).insert 2).insert 3

theorem task_switch_awake_three : (threeTasks 0).AwakeAhead [1, 2, 3] ∧
    ∃ r s', (threeTasks 0).taskSwitch 4 0 0 = some (r, s') ∧
      (s'.RunsAwake [1, 2, 3] ↔ (threeTasks 0).AwakeAhead [1, 2, 3]) := by
  refine ⟨.inr ⟨?_, .inr (.inl ?_)⟩, task_switch_awake_iff (threeTasks 0) [1, 2, 3] (threeTasks_scheduled 0) 4
    0 0 (by decide)⟩
  · unfold Stays
    decide
  · decide

theorem task_switch_runs_sleeper : Scheduled threeElements (threeTasks 100) [1, 2, 3] ∧
    ((threeTasks 100).taskSwitch 4 0 0).map (fun (_, s) =>
      (s.currentTask, (s.task s.currentTask).state, (s.task 2).state)) =
      some (1, taskSleeping, taskRunning) :=
  ⟨threeTasks_scheduled 100, by decide⟩

end Scheduler

end ChiffOS.Task
