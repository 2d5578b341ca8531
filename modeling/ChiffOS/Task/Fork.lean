import ChiffOS.Task.Files

/-! The descriptor table in `fork`. The routine that builds the new task is given the running task itself,
so the table it copies from is the one it has just allocated. Memory is an `fd_table_t` for each
address at which one can be, and the words of an array of entries. -/

namespace ChiffOS.Task

/-- A `fd_table_t` in memory. -/
structure RawTable where
  refs : ℕ
  length : ℕ
  capacity : ℕ
  entries : ℕ

/-- The running task, and the memory. A word of an array is null, a node, or nothing that points to one. -/
structure ForkState (N : Type) where
  fds : ℕ
  wdNode : Option N
  fsRoot : Option N
  tables : ℕ → RawTable
  slot : ℕ → ℕ → Option (Option N)
  refcount : N → ℤ

variable {N : Type} [DecidableEq N]

namespace ForkState

/-- `clone_fs` on the working directory, the root and so on. -/
def cloneFs (s : ForkState N) (source : Option N) : ForkState N :=
    { s with refcount := raised s.refcount source }

def cloneEntries : (rounds i : ℕ) → ForkState N → Option (ForkState N)
  | 0, _, s => some s
  | n + 1, i, s => do
    let entries := (s.tables s.fds).entries
    let node ← s.slot entries i
    let s := s.cloneFs node
    cloneEntries n (i + 1)
      { s with slot := Function.update s.slot entries (Function.update (s.slot entries) i (some node)) }

/-- `_get_task_stackFORK` with the running task as the new one, up to the loop over the descriptors. `fds`
and `fds'` are what the two calls of `malloc` for a table return, `entries` what the one for an array does. -/
def newTables (fds entries fds' : ℕ) (s : ForkState N) : ForkState N :=
  let s := { s with fds := fds, tables := Function.update s.tables fds ⟨1, 12, 44, entries⟩ }
  let s := { s.cloneFs s.wdNode with
    slot := Function.update s.slot entries (Function.update (s.slot entries) 0 (some s.wdNode)) }
  let s := { s.cloneFs s.fsRoot with wdNode := s.fsRoot }
  let s := { s with fds := fds' }
  let s := s.cloneFs s.wdNode
  let s := { s with tables := Function.update s.tables s.fds { s.tables s.fds with refs := 1 } }
  let s := { s with tables := Function.update s.tables s.fds { s.tables s.fds with length :=
    (s.tables s.fds).length } }
  { s with tables := Function.update s.tables s.fds { s.tables s.fds with capacity :=
    (s.tables s.fds).capacity } }

def getTaskStackFork (fds entries fds' : ℕ) (s : ForkState N) : Option (ForkState N) :=
  let s := s.newTables fds entries fds'
  s.cloneEntries (s.tables s.fds).length 0

def held (words : ℕ → Option (Option N)) (node : N) (i n : ℕ) : ℕ :=
  (List.range' i n).countP fun j => words j = some (some node)

/-- The task has the table it had, each entry with one more reference. -/
structure Inherits (s s' : ForkState N) : Prop where
  length : (s'.tables s'.fds).length = (s.tables s.fds).length
  capacity : (s'.tables s'.fds).capacity = (s.tables s.fds).capacity
  entries : ∀ i < (s.tables s.fds).length, s'.slot (s'.tables s'.fds).entries i =
    s.slot (s.tables s.fds).entries i
  refcount : ∀ node, 0 ≤ s.refcount node →
    s'.refcount node = s.refcount node + held (s.slot (s.tables s.fds).entries) node 0 (s.tables s.fds).length

def Uncounted (s : ForkState N) (o : Option N) : Prop := ∀ node, o = some node → ¬ 0 ≤ s.refcount node

/-- The memory for the second table still has the length and the capacity, and a pointer to the entries;
the new array has the working directory in its first word. -/
structure Leftover (entries fds' : ℕ) (s : ForkState N) : Prop where
  length : (s.tables fds').length = (s.tables s.fds).length
  capacity : (s.tables fds').capacity = (s.tables s.fds).capacity
  entries : ∀ i < (s.tables s.fds).length,
    (if (s.tables fds').entries = entries ∧ i = 0 then some s.wdNode else s.slot (s.tables fds').entries i) =
      s.slot (s.tables s.fds).entries i
  wdNode : s.Uncounted s.wdNode
  fsRoot : s.Uncounted s.fsRoot

/-! ### The loop -/

theorem cloneEntries_succ (n i : ℕ) (s : ForkState N) : cloneEntries (n + 1) i s =
    (s.slot (s.tables s.fds).entries i).bind fun o => cloneEntries n (i + 1) (s.cloneFs o) := by
  rw [cloneEntries]
  cases ho : s.slot (s.tables s.fds).entries i with
  | none => rfl
  | some o =>
    have hsame : Function.update s.slot (s.tables s.fds).entries
        (Function.update (s.slot (s.tables s.fds).entries) i (some o)) = s.slot := by
      rw [← ho, Function.update_eq_self, Function.update_eq_self]
    exact congrArg (fun slot => cloneEntries n (i + 1) { s.cloneFs o with slot := slot }) hsame

theorem held_succ (words : ℕ → Option (Option N)) (node : N) (i n : ℕ) :
    held words node i (n + 1) = held words node (i + 1) n + if words i = some (some node) then 1 else 0 := by
  unfold held
  rw [List.range'_succ, List.countP_cons]
  simp only [decide_eq_true_eq]

theorem cloneEntries_spec : ∀ (n i : ℕ) (s s' : ForkState N), cloneEntries n i s = some s' →
    s'.fds = s.fds ∧ s'.tables = s.tables ∧ s'.slot = s.slot ∧ ∀ node, s'.refcount node =
      s.refcount node + if 0 ≤ s.refcount node then (held (s.slot (s.tables s.fds).entries) node i n : ℤ)
        else 0 := by
  intro n
  induction n with
  | zero =>
    intro i s s' h
    obtain rfl := Option.some.inj h
    exact ⟨rfl, rfl, rfl, fun node => by simp [held]⟩
  | succ n ih =>
    intro i s s' h
    rw [cloneEntries_succ] at h
    obtain ⟨o, ho, h⟩ := Option.bind_eq_some_iff.mp h
    obtain ⟨h1, h2, h3, h4⟩ := ih _ _ _ h
    refine ⟨h1, h2, h3, fun node => ?_⟩
    have hr : (s.cloneFs o).refcount node = _ := raised_eq s.refcount o node
    have hheld : held ((s.cloneFs o).slot ((s.cloneFs o).tables (s.cloneFs o).fds).entries) node (i + 1) n =
      held (s.slot (s.tables s.fds).entries) node (i + 1) n := rfl
    rw [h4 node, hheld, hr, held_succ, ho]
    by_cases hn : 0 ≤ s.refcount node
    · by_cases he : o = some node
      · have hn' : 0 ≤ s.refcount node + 1 := by omega
        simp only [hn, hn', he, and_self, if_true]
        push_cast
        ring
      · simp [hn, he]
    · simp [hn]

theorem cloneEntries_isSome : ∀ (n i : ℕ) (s : ForkState N),
    (∀ j, i ≤ j → j < i + n → (s.slot (s.tables s.fds).entries j).isSome) → ∃ s', cloneEntries n i s =
      some s' := by
  intro n
  induction n with
  | zero => exact fun i s _ => ⟨s, rfl⟩
  | succ n ih =>
    intro i s h
    obtain ⟨o, ho⟩ := Option.isSome_iff_exists.mp (h i le_rfl (by omega))
    obtain ⟨s', hs'⟩ := ih (i + 1) (s.cloneFs o) fun j h1 h2 => h j (by omega) (by omega)
    exact ⟨s', by rw [cloneEntries_succ, ho]; exact hs'⟩

/-! ### The tables -/

section NewTables

variable (s : ForkState N) (fds entries fds' : ℕ)

theorem newTables_table (h : fds ≠ fds') :
    (s.newTables fds entries fds').tables fds' = { s.tables fds' with refs := 1 } := by
  simp [newTables, cloneFs, Function.update_of_ne h.symm]

theorem newTables_slot (a i : ℕ) : (s.newTables fds entries fds').slot a i =
    if a = entries ∧ i = 0 then some s.wdNode else s.slot a i := by
  simp only [newTables, cloneFs, Function.update_apply]
  by_cases ha : a = entries
  · subst ha
    by_cases hi : i = 0 <;> simp [hi]
  · simp [ha]

theorem newTables_refcount (node : N) : (s.newTables fds entries fds').refcount node =
    s.refcount node + if 0 ≤ s.refcount node then
      (if s.wdNode = some node then 1 else 0) + 2 * (if s.fsRoot = some node then 1 else 0) else 0 := by
  simp only [newTables, cloneFs, raised_eq]
  split_ifs <;> simp_all <;> omega

end NewTables

end ForkState

open ForkState

theorem held_congr {words words' : ℕ → Option (Option N)} {n : ℕ} (h : ∀ i < n, words i = words' i)
    (node : N) :
    held words node 0 n = held words' node 0 n := by
  unfold held
  apply List.countP_congr
  intro i hi
  rw [h i (by simpa using hi)]

theorem getTaskStackFork_spec {s s' : ForkState N} {fds entries fds' : ℕ} (h : fds ≠ fds')
    (hs' : s.getTaskStackFork fds entries fds' = some s') :
    s'.tables s'.fds = { s.tables fds' with refs := 1 } ∧
    (∀ a i, s'.slot a i = if a = entries ∧ i = 0 then some s.wdNode else s.slot a i) ∧
    ∀ node, 0 ≤ s.refcount node → s'.refcount node = s.refcount node +
      ((if s.wdNode = some node then 1 else 0) + 2 * (if s.fsRoot = some node then 1 else 0)) +
      held (s'.slot (s.tables fds').entries) node 0 (s.tables fds').length := by
  have htable := s.newTables_table fds entries fds' h
  have hfds : (s.newTables fds entries fds').fds = fds' := rfl
  obtain ⟨h1, h2, h3, h4⟩ := cloneEntries_spec _ _ _ _ hs'
  refine ⟨?_, fun a i => ?_, fun node hn => ?_⟩
  · rw [h1, h2, hfds, htable]
  · rw [h3, newTables_slot]
  · have hr := s.newTables_refcount fds entries fds' node
    rw [if_pos hn] at hr
    have hpos : 0 ≤ (s.newTables fds entries fds').refcount node := by
      rw [hr]
      split_ifs <;> omega
    rw [h4 node, if_pos hpos, hr, h3, hfds, htable]

/-- The task keeps its descriptors through `fork` exactly if the memory of the second table has them
already, and neither the working directory nor the root is counted. -/
theorem fork_inherits_iff (s : ForkState N) (fds entries fds' : ℕ) (h : fds ≠ fds')
    (hvalid : ∀ i < (s.tables s.fds).length, (s.slot (s.tables s.fds).entries i).isSome) :
    (∃ s', s.getTaskStackFork fds entries fds' = some s' ∧ s.Inherits s') ↔ s.Leftover entries fds' := by
  constructor
  · rintro ⟨s', hs', hi⟩
    obtain ⟨htab, hslot, href⟩ := getTaskStackFork_spec h hs'
    have hlen : (s.tables fds').length = (s.tables s.fds).length := by rw [← hi.length, htab]
    have hent : ∀ i < (s.tables s.fds).length, s'.slot (s.tables fds').entries i =
      s.slot (s.tables s.fds).entries i := by
      intro i hlt
      rw [← hi.entries i hlt, htab]
    have hextra : ∀ node, 0 ≤ s.refcount node → s.wdNode ≠ some node ∧ s.fsRoot ≠ some node := by
      intro node hn
      have h1 := href node hn
      rw [hi.refcount node hn, hlen, held_congr hent] at h1
      split_ifs at h1 with hw hf hf
      · omega
      · omega
      · omega
      · exact ⟨hw, hf⟩
    refine ⟨hlen, ?_, fun i hlt => ?_, fun node he hn => (hextra node hn).1 he, fun node he hn =>
      (hextra node hn).2 he⟩
    · rw [← hi.capacity, htab]
    · rw [← hslot]
      exact hent i hlt
  · intro hl
    have hslots : ∀ i < (s.tables s.fds).length,
        (s.newTables fds entries fds').slot (s.tables fds').entries i =
          s.slot (s.tables s.fds).entries i := by
      intro i hlt
      rw [newTables_slot]
      exact hl.entries i hlt
    obtain ⟨s', hs'⟩ : ∃ s', s.getTaskStackFork fds entries fds' = some s' := by
      apply cloneEntries_isSome
      intro j _ hj
      have hfds : (s.newTables fds entries fds').fds = fds' := rfl
      rw [hfds, s.newTables_table fds entries fds' h] at hj ⊢
      have hlt : j < (s.tables s.fds).length := by simpa [hl.length] using hj
      rw [hslots j hlt]
      exact hvalid j hlt
    obtain ⟨htab, hslot, href⟩ := getTaskStackFork_spec h hs'
    have hent : ∀ i < (s.tables s.fds).length, s'.slot (s.tables fds').entries i =
      s.slot (s.tables s.fds).entries i := by
      intro i hlt
      rw [hslot]
      exact hl.entries i hlt
    refine ⟨s', hs', ?_, ?_, fun i hlt => ?_, fun node hn => ?_⟩
    · rw [htab]
      exact hl.length
    · rw [htab]
      exact hl.capacity
    · rw [htab]
      exact hent i hlt
    · rw [href node hn, if_neg fun he => hl.wdNode node he hn, if_neg fun he => hl.fsRoot node he hn,
        hl.length, held_congr hent]
      simp

/-- A task with the root and one file open, and memory for the new tables at 1 and 2. -/
def forking (second : RawTable) : ForkState ℕ where
  fds := 0
  wdNode := some 9
  fsRoot := some 9
  tables := fun a => if a = 0 then ⟨1, 12, 44, 100⟩ else if a = 2 then second else ⟨0, 0, 0, 0⟩
  slot := fun a i => if a = 100 then some (if i = 0 then some 9 else if i = 1 then some 5 else none) else some
    none
  refcount := fun node => if node = 9 then -1 else 1

theorem fork_inherits_leftover : ∃ s', (forking ⟨1, 12, 44, 100⟩).getTaskStackFork 1 200 2 = some s' ∧
    (forking ⟨1, 12, 44, 100⟩).Inherits s' := by
  refine (fork_inherits_iff _ 1 200 2 (by decide) (by decide)).mpr ⟨rfl, rfl, by decide, ?_, ?_⟩
  all_goals
    intro node he
    obtain rfl := Option.some.inj he
    decide

theorem fork_loses_descriptors :
    ((forking ⟨0, 0, 0, 0⟩).getTaskStackFork 1 200 2).map (fun s => (s.tables s.fds).length) = some 0 ∧
      ((forking ⟨0, 0, 0, 0⟩).tables (forking ⟨0, 0, 0, 0⟩).fds).length = 12 := by decide

end ChiffOS.Task
