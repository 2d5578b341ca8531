import ChiffOS.Lib.Runs

/-! The semaphores of `sys_arch.c` and the mutexes built on them. `sem_wait` takes one from the value if
there is one, sleeps for a while and returns; it does not wait for the value. -/

namespace ChiffOS.Net

def maxTasks : ℕ := 15

structure Sem where
  value : ℕ
  queue : ℕ → ℕ
  wpos : ℕ
  rpos : ℕ

def semInit (v : ℕ) : Sem := ⟨v, fun _ => maxTasks, 0, 0⟩

/-- The part of `sem_wait` before it sleeps. The code behind its first `return` is never reached. -/
def semTake (s : Sem) : Sem := if s.value ≠ 0 then { s with value := s.value - 1 } else s

def semPost (s : Sem) : Sem :=
  { s with
    value := (s.value + 1) % 2 ^ 32
    queue := Function.update s.queue s.rpos maxTasks
    rpos := (s.rpos + 1) % maxTasks }

/-! ### Mutexes -/

/-- Where a task stands with a mutex: `sys_mutex_lock` is called, sleeps, and has returned. -/
inductive LockPlace where
  | outside
  | entering
  | sleeping
  | holding
deriving DecidableEq

structure MutexState where
  mutex : Sem
  tasks : ℕ → LockPlace

inductive MutexEvent where
  | lock (t : ℕ)
  | take (t : ℕ)
  | wake (t : ℕ)
  | unlock (t : ℕ)
deriving DecidableEq

def mutexStep (s : MutexState) : MutexEvent → Option MutexState
  | .lock t => if s.tasks t = .outside then some { s with tasks := Function.update s.tasks t .entering }
    else none
  | .take t =>
    if s.tasks t = .entering then some ⟨semTake s.mutex, Function.update s.tasks t .sleeping⟩ else none
  | .wake t => if s.tasks t = .sleeping then some { s with tasks := Function.update s.tasks t .holding }
    else none
  | .unlock t =>
    if s.tasks t = .holding then some ⟨semPost s.mutex, Function.update s.tasks t .outside⟩ else none

def sysMutexNew : MutexState := ⟨semInit 1, fun _ => .outside⟩

/-- `sem_wait` looks at a mutex that is free. -/
def TakesFree (s : MutexState) : MutexEvent → Prop
  | .take _ => s.mutex.value ≠ 0
  | _ => True

def LockPlace.inside (p : LockPlace) : Prop := p = .sleeping ∨ p = .holding

def OneToken (s : MutexState) : Prop :=
  (s.mutex.value = 1 ∧ ∀ t, ¬ (s.tasks t).inside) ∨
    s.mutex.value = 0 ∧ ∃ t, (s.tasks t).inside ∧ ∀ u, (s.tasks u).inside → u = t

theorem inside_update {tasks : ℕ → LockPlace} {t u : ℕ} {p : LockPlace} :
    (Function.update tasks t p u).inside ↔ if u = t then p.inside else (tasks u).inside := by
  by_cases h : u = t
  · subst h
    rw [Function.update_self, if_pos rfl]
  · rw [Function.update_of_ne h, if_neg h]

/-- Steps that do not change who is past the semaphore, nor its value. -/
theorem OneToken.same {s s' : MutexState} (h : OneToken s) (hv : s'.mutex.value = s.mutex.value)
    (ht : ∀ t, (s'.tasks t).inside ↔ (s.tasks t).inside) : OneToken s' := by
  rcases h with ⟨h1, h2⟩ | ⟨h1, t, h2, h3⟩
  · exact .inl ⟨hv.trans h1, fun t hi => h2 t ((ht t).mp hi)⟩
  · exact .inr ⟨hv.trans h1, t, (ht t).mpr h2, fun u hu => h3 u ((ht u).mp hu)⟩

theorem OneToken.step (s : MutexState) (e : MutexEvent) (s' : MutexState) (h : OneToken s)
    (hg : TakesFree s e)
    (hs : mutexStep s e = some s') : OneToken s' := by
  cases e with
  | lock t =>
    simp only [mutexStep] at hs
    split_ifs at hs with ht
    obtain rfl := Option.some.inj hs
    refine h.same rfl fun u => ?_
    rw [inside_update]
    split_ifs with hu
    · subst hu
      simp [ht, LockPlace.inside]
    · rfl
  | take t =>
    simp only [mutexStep] at hs
    split_ifs at hs with ht
    obtain rfl := Option.some.inj hs
    -- the token was in the semaphore, so nobody has it
    obtain ⟨hv, hno⟩ := h.resolve_right fun h0 => hg h0.1
    refine .inr ⟨by simp [semTake, hv], t, ?_, fun u hu => ?_⟩
    · simp [LockPlace.inside]
    · rw [inside_update] at hu
      by_contra hne
      rw [if_neg hne] at hu
      exact hno u hu
  | wake t =>
    simp only [mutexStep] at hs
    split_ifs at hs with ht
    obtain rfl := Option.some.inj hs
    refine h.same rfl fun u => ?_
    rw [inside_update]
    split_ifs with hu
    · subst hu
      simp [ht, LockPlace.inside]
    · rfl
  | unlock t =>
    simp only [mutexStep] at hs
    split_ifs at hs with ht
    obtain rfl := Option.some.inj hs
    have hin : (s.tasks t).inside := .inr ht
    rcases h with ⟨-, hno⟩ | ⟨hv, w, -, hw⟩
    · exact absurd hin (hno t)
    · refine .inl ⟨by simp [semPost, hv], fun u hu => ?_⟩
      rw [inside_update] at hu
      split_ifs at hu with hut
      · simp [LockPlace.inside] at hu
      · exact hut ((hw u hu).trans (hw t hin).symm)

/-- In every run in which `sem_wait` always looks at a free mutex, at most one task holds it. -/
theorem mutex_exclusive (es : List MutexEvent) (s : MutexState)
    (hg : Machine.Guarded mutexStep TakesFree sysMutexNew es)
    (hr : Machine.runs mutexStep sysMutexNew es = some s) (t u : ℕ) (ht : s.tasks t = .holding)
    (hu : s.tasks u = .holding) : t = u := by
  have hnew : OneToken sysMutexNew := .inl ⟨rfl, fun t => by simp [sysMutexNew, LockPlace.inside]⟩
  rcases hg.invariant OneToken.step es sysMutexNew s hnew hr with ⟨-, hno⟩ | ⟨-, w, -, hw⟩
  · exact absurd (.inr ht) (hno t)
  · rw [hw t (.inr ht), hw u (.inr hu)]

theorem mutex_exclusive_turns : ∃ s,
    Machine.runs mutexStep sysMutexNew [.lock 0, .take 0, .wake 0, .unlock 0, .lock 1, .take 1, .wake 1] =
      some s ∧
      s.tasks 1 = .holding ∧ ∀ t, s.tasks t = .holding → t = 1 := by
  have hg : Machine.Guarded mutexStep TakesFree sysMutexNew
      [.lock 0, .take 0, .wake 0, .unlock 0, .lock 1, .take 1, .wake 1] := by
    simp [Machine.Guarded, mutexStep, TakesFree, sysMutexNew, semInit, semTake, semPost]
  have hrun : (Machine.runs mutexStep sysMutexNew [.lock 0, .take 0, .wake 0, .unlock 0, .lock 1, .take 1,
    .wake 1]).map
      (·.tasks 1) = some .holding := by decide
  obtain ⟨s, h, h1⟩ := Option.map_eq_some_iff.mp hrun
  exact ⟨s, h, h1, fun t ht => mutex_exclusive _ s hg h t 1 ht h1⟩

theorem mutex_held_twice :
    (Machine.runs mutexStep sysMutexNew [.lock 0, .take 0, .wake 0, .lock 1, .take 1, .wake 1]).map
      (fun s => (s.tasks 0, s.tasks 1)) = some (.holding, .holding) := by decide

end ChiffOS.Net
