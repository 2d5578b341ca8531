import ChiffOS.Lib.Runs
import ChiffOS.Lib.Count

/-! The descriptor tables of the processes and the reference counts of the nodes in them: `open_fs`,
`clone_fs` and `close_fs` of `vfs.c`, `process_append_fd`, `process_move_fd` and `sys_close`, and the
table that `spawn_process` makes. The count of a node is the number of slots that hold it. -/

namespace ChiffOS.Task

open List Option

/-- A `fd_table_t`: the entries up to its length, its capacity, and how many slots the array really has. -/
structure FdTable (N : Type) where
  entries : List (Option N)
  capacity : ℕ
  allocated : ℕ

/-- The tables and nodes. `closed` and `freed` record the calls of close callbacks and of `free`, and
`entered` which nodes were ever put into a table. Fewer slots than an `int32_t` counts fit into memory. -/
structure Files (N : Type) where
  tables : List (FdTable N)
  refcount : N → ℤ
  closed : List N
  freed : List N
  entered : List N

variable {N : Type} [DecidableEq N]

/-- What `open_fs` and `clone_fs` do to the counts; mount points, with count -1, keep theirs. -/
def raised (refcount : N → ℤ) : Option N → N → ℤ
  | none => refcount
  | some node => if 0 ≤ refcount node then Function.update refcount node (refcount node + 1) else refcount

theorem raised_eq (refcount : N → ℤ) (o : Option N) (node : N) :
    raised refcount o node = refcount node + if o = some node ∧ 0 ≤ refcount node then 1 else 0 := by
  cases o with
  | none => simp [raised]
  | some m =>
    rw [raised]
    by_cases hm : m = node
    · subst hm
      by_cases h : 0 ≤ refcount m
      · simp [h]
      · simp [h]
    · have hu : Function.update refcount m (refcount m + 1) node = refcount node :=
        Function.update_of_ne (Ne.symm hm) _ _
      split_ifs <;> simp_all

namespace Files

def addRef (s : Files N) (node : Option N) : Files N := { s with refcount := raised s.refcount node }

def openFs (s : Files N) (node : Option N) : Files N := s.addRef node

def cloneFs (s : Files N) (source : Option N) : Files N := s.addRef source

/-- The node is freed with the last reference; `hasClose` says whether its close callback is set. -/
def closeFs (hasClose : N → Bool) (s : Files N) : Option N → Files N
  | none => s
  | some node =>
    if s.refcount node = -1 then s
    else if s.refcount node - 1 = 0 then
      { s with
        refcount := Function.update s.refcount node (s.refcount node - 1)
        closed := if hasClose node then s.closed ++ [node] else s.closed
        freed := s.freed ++ [node] }
    else { s with refcount := Function.update s.refcount node (s.refcount node - 1) }

def entry (s : Files N) (proc fd : ℕ) : Option (Option N) := (s.tables[proc]?).bind fun t => t.entries[fd]?

def setEntry (s : Files N) (proc : ℕ) (t : FdTable N) (fd : ℕ) (node : Option N) : Files N :=
  { s with tables := s.tables.set proc { t with entries := t.entries.set fd node } }

/-- Fills the first gap, or adds a slot; no result where that is behind the end of the array. -/
def processAppendFd (s : Files N) (proc : ℕ) (node : Option N) : Option (Files N × ℕ) := do
  let t ← s.tables[proc]?
  match t.entries.findIdx? (·.isNone) with
  | some i => some (s.setEntry proc t i node, i)
  | none =>
    let t := if t.entries.length = t.capacity then ⟨t.entries, 2 * t.capacity, 2 * t.capacity⟩ else t
    if t.entries.length < t.allocated then
      some ({ s with tables := s.tables.set proc { t with entries := t.entries ++ [node] } },
        t.entries.length)
    else none

def moveEntry (hasClose : N → Bool) (s : Files N) (proc src dest : ℕ) : Option (Files N) := do
  let t ← s.tables[proc]?
  let old ← t.entries[dest]?
  let new ← t.entries[src]?
  if old ≠ new then some ((((s.closeFs hasClose old).setEntry proc t dest new)).openFs new) else some s

/-- The first test compares signed numbers: negative ones and the length itself pass it. There is no result
where a slot outside the table is read. -/
def processMoveFd (hasClose : N → Bool) (s : Files N) (proc : ℕ) (src dest : ℤ) : Option (Files N × ℕ) := do
  let t ← s.tables[proc]?
  if t.entries.length < src ∨ dest ≠ -1 ∧ t.entries.length < dest then some (s, 2 ^ 32 - 1)
  else if src < 0 ∨ dest < -1 then none
  else if dest = -1 then do
    let (s, dest) ← s.processAppendFd proc none
    let s ← s.moveEntry hasClose proc src.toNat dest
    some (s, dest)
  else do
    let s ← s.moveEntry hasClose proc src.toNat dest.toNat
    some (s, dest.toNat)

def sysClose (hasClose : N → Bool) (s : Files N) (proc : ℕ) (fd : ℤ) : Option (Files N × ℤ) := do
  let t ← s.tables[proc]?
  if 0 ≤ fd ∧ fd < t.entries.length then
    match t.entries[fd.toNat]? with
    | some (some node) => some ((s.closeFs hasClose (some node)).setEntry proc t fd.toNat none, 0)
    | _ => some (s, -1)
  else some (s, -1)

def spawnProcess (s : Files N) (parent : ℕ) : Option (Files N) := do
  let t ← s.tables[parent]?
  if t.entries.length ≤ 44 then
    let s := t.entries.foldl cloneFs s
    some { s with tables := s.tables ++ [⟨t.entries, t.capacity, 44⟩] }
  else none

end Files

inductive FileEvent (N : Type) where
  | append (proc : ℕ) (node : N)
  | move (proc : ℕ) (src dest : ℤ)
  | close (proc : ℕ) (fd : ℤ)
  | spawn (parent : ℕ)

def fileStep (hasClose : N → Bool) (s : Files N) : FileEvent N → Option (Files N)
  | .append proc node =>
    if node ∉ s.entered ∧ s.refcount node = 1 then
      (s.processAppendFd proc (some node)).map fun r => { r.1 with entered := node :: r.1.entered }
    else none
  | .move proc src dest => (s.processMoveFd hasClose proc src dest).map (·.1)
  | .close proc fd => (s.sysClose hasClose proc fd).map (·.1)
  | .spawn parent => s.spawnProcess parent

namespace Files

def slots (s : Files N) (node : N) : ℕ := (s.tables.map fun t => t.entries.count (some node)).sum

/-- Every node's count is the number of its slots, and it is closed and freed once, with the last slot. -/
structure Counted (hasClose : N → Bool) (s : Files N) : Prop where
  refcount : ∀ node ∈ s.entered, s.refcount node = s.slots node
  freed : ∀ node ∈ s.entered, s.freed.count node = if s.slots node = 0 then 1 else 0
  closed : ∀ node ∈ s.entered, s.closed.count node = if s.slots node = 0 ∧ hasClose node then 1 else 0
  outside : ∀ node, node ∉ s.entered → s.slots node = 0 ∧ s.freed.count node = 0 ∧ s.closed.count node = 0

/-! ### Slots -/

variable {s : Files N}

theorem slots_set {proc : ℕ} {t : FdTable N} (ht : s.tables[proc]? = some t) (t' : FdTable N) (node : N) :
    ({ s with tables := s.tables.set proc t' } : Files N).slots node + t.entries.count (some node) =
      s.slots node + t'.entries.count (some node) := sum_map_set_add ht t'

theorem count_set_add {l : List (Option N)} {i : ℕ} {old : Option N} (h : l[i]? = some old) (new : Option N)
    (node : N) :
    (l.set i new).count (some node) + (if old = some node then 1 else 0) =
      l.count (some node) + if new = some node then 1 else 0 := by
  have hc := countP_set_add (p := (· == some node)) h new
  simpa [List.count] using hc

variable {proc fd : ℕ}

theorem slots_setEntry {t : FdTable N} {old : Option N} (ht : s.tables[proc]? = some t)
    (ho : t.entries[fd]? = some old) (new : Option N) (node : N) :
    (s.setEntry proc t fd new).slots node + (if old = some node then 1 else 0) =
      s.slots node + if new = some node then 1 else 0 := by
  have h1 := slots_set ht { t with entries := t.entries.set fd new } node
  have h2 := count_set_add ho new node
  unfold setEntry
  dsimp only at h1
  omega

theorem slots_pos {t : FdTable N} {node : N} (ht : s.tables[proc]? = some t)
    (he : t.entries[fd]? = some (some node)) : 0 < s.slots node := by
  have h := slots_setEntry ht he none node
  rw [if_pos rfl, if_neg (by simp)] at h
  omega

theorem slots_append_table (s : Files N) (t : FdTable N) (node : N) :
    ({ s with tables := s.tables ++ [t] } : Files N).slots node =
      s.slots node + t.entries.count (some node) := by
  simp [slots]

/-! ### References -/

section References

variable {hasClose : N → Bool} {s : Files N} {o : Option N}

theorem addRef_refcount (h : ∀ node, o = some node → 0 ≤ s.refcount node) (node : N) :
    (s.addRef o).refcount node = s.refcount node + if o = some node then 1 else 0 := by
  have hr : (s.addRef o).refcount node = s.refcount node + _ := raised_eq s.refcount o node
  rw [hr]
  congr 1
  exact if_congr (and_iff_left_of_imp fun he => h node he) rfl rfl

theorem closeFs_tables (hasClose : N → Bool) (s : Files N) (o : Option N) : (s.closeFs hasClose o).tables =
    s.tables ∧
    (s.closeFs hasClose o).entered = s.entered := by
  cases o with
  | none => exact ⟨rfl, rfl⟩
  | some node =>
    rw [closeFs]
    split_ifs <;> exact ⟨rfl, rfl⟩

theorem closeFs_node (hasClose : N → Bool) (h : ∀ node, o = some node → 0 < s.refcount node) (node : N) :
    ((s.closeFs hasClose o).refcount node = s.refcount node - if o = some node then 1 else 0) ∧
    ((s.closeFs hasClose o).freed.count node =
      s.freed.count node + if o = some node ∧ s.refcount node = 1 then 1 else 0) ∧
    (s.closeFs hasClose o).closed.count node =
      s.closed.count node + if o = some node ∧ s.refcount node = 1 ∧ hasClose node then 1 else 0 := by
  cases o with
  | none => simp [closeFs]
  | some m =>
    have hm := h m rfl
    have hne : s.refcount m ≠ -1 := by omega
    rw [closeFs, if_neg hne]
    by_cases hn : m = node
    · subst hn
      by_cases h1 : s.refcount m = 1
      · have h0 : s.refcount m - 1 = 0 := by omega
        rw [if_pos h0]
        cases hc : hasClose m <;> simp [h1]
      · have h0 : s.refcount m - 1 ≠ 0 := by omega
        rw [if_neg h0]
        simp [h1]
    · have hu : Function.update s.refcount m (s.refcount m - 1) node = s.refcount node :=
        Function.update_of_ne (Ne.symm hn) _ _
      split_ifs <;> simp_all

end References

/-! ### What the calls keep -/

/-- One slot had `old` and has `new`, and the references follow. -/
structure Replaced (hasClose : N → Bool) (s s' : Files N) (old new : Option N) : Prop where
  slots : ∀ node, s'.slots node + (if old = some node then 1 else 0) = s.slots node + if new =
    some node then 1 else 0
  refcount : ∀ node, s'.refcount node =
    s.refcount node - (if old = some node then 1 else 0) + if new = some node then 1 else 0
  freed : ∀ node, s'.freed.count node =
    s.freed.count node + if old = some node ∧ s.refcount node = 1 then 1 else 0
  closed : ∀ node, s'.closed.count node =
    s.closed.count node + if old = some node ∧ s.refcount node = 1 ∧ hasClose node then 1 else 0
  entered : s'.entered = s.entered

section Calls

variable {hasClose : N → Bool} {s : Files N} (h : s.Counted hasClose)
include h

theorem Counted.pos {node : N} (hs : 0 < s.slots node) : node ∈ s.entered ∧ 0 < s.refcount node := by
  have he : node ∈ s.entered := by
    by_contra hn
    rw [(h.outside node hn).1] at hs
    exact lt_irrefl 0 hs
  refine ⟨he, ?_⟩
  rw [h.refcount node he]
  exact_mod_cast hs

/-- A slot gets another node, or none, and the references follow. -/
theorem Counted.replaced {s' : Files N} {old new : Option N} (hr : Replaced hasClose s s' old new)
    (ho : ∀ node, old = some node → 0 < s.slots node) (hn : ∀ node, new = some node → 0 < s.slots node)
    (hne : old ≠ new) :
    s'.Counted hasClose := by
  have hcases : ∀ node, (old = some node ∧ new ≠ some node ∧ 0 < s.slots node) ∨
      (old ≠ some node ∧ new = some node ∧ 0 < s.slots node) ∨ (old ≠ some node ∧ new ≠ some node) := by
    intro node
    by_cases hon : old = some node
    · exact .inl ⟨hon, fun he => hne (hon.trans he.symm), ho node hon⟩
    · by_cases hnn : new = some node
      · exact .inr (.inl ⟨hon, hnn, hn node hnn⟩)
      · exact .inr (.inr ⟨hon, hnn⟩)
  refine ⟨fun node he => ?_, fun node he => ?_, fun node he => ?_, fun node he => ?_⟩
  all_goals
    have hslots := hr.slots node
    rw [hr.entered] at he
  · have hcount := h.refcount node he
    rw [hr.refcount node]
    obtain ⟨h1, h2, -⟩ | ⟨h1, h2, -⟩ | ⟨h1, h2⟩ := hcases node
    all_goals
      simp only [h1, h2, if_true, if_false] at hslots ⊢
      omega
  · have hcount := h.refcount node he
    rw [hr.freed node, h.freed node he]
    obtain ⟨h1, h2, hpos⟩ | ⟨h1, h2, hpos⟩ | ⟨h1, h2⟩ := hcases node
    all_goals
      simp only [h1, h2, if_true, if_false, true_and, false_and] at hslots ⊢
      split_ifs <;> omega
  · have hcount := h.refcount node he
    rw [hr.closed node, h.closed node he]
    obtain ⟨h1, h2, hpos⟩ | ⟨h1, h2, hpos⟩ | ⟨h1, h2⟩ := hcases node
    all_goals
      simp only [h1, h2, if_true, if_false, true_and, false_and] at hslots ⊢
      cases hasClose node with
      | false => simp
      | true =>
        simp only [and_true]
        split_ifs <;> omega
  · obtain ⟨h1, h2, h3⟩ := h.outside node he
    obtain ⟨-, -, hpos⟩ | ⟨-, -, hpos⟩ | ⟨ho', hn'⟩ := hcases node
    · omega
    · omega
    · rw [hr.freed node, hr.closed node, h2, h3]
      simp only [ho', hn', if_false, false_and, Nat.add_zero, and_true] at hslots ⊢
      exact hslots.trans h1

theorem Counted.exchange {proc fd : ℕ} {t : FdTable N} {old new : Option N} (ht : s.tables[proc]? = some t)
    (ho : t.entries[fd]? = some old) (hn : ∀ node, new = some node → 0 < s.slots node) (hne : old ≠ new) :
    (((s.closeFs hasClose old).setEntry proc t fd new).openFs new).Counted hasClose := by
  have hold : ∀ node, old = some node → 0 < s.slots node := fun node he => slots_pos ht (he ▸ ho)
  have hclose := closeFs_node hasClose fun node he => (h.pos (hold node he)).2
  obtain ⟨htables, hentered⟩ := closeFs_tables hasClose s old
  refine h.replaced ⟨fun node => ?_, fun node => ?_, fun node => (hclose node).2.1, fun node =>
    (hclose node).2.2, hentered⟩
    hold hn hne
  · have hset := slots_setEntry (s := s.closeFs hasClose old) (htables ▸ ht) ho new node
    unfold slots at hset ⊢
    rw [htables] at hset
    exact hset
  · rw [openFs, addRef_refcount, setEntry, (hclose node).1]
    intro m hm
    have hpos := (h.pos (hn m hm)).2
    rw [setEntry, (hclose m).1, if_neg fun he => hne (he.trans hm.symm)]
    omega

theorem Counted.same {s' : Files N} (hslots : ∀ node, s'.slots node = s.slots node)
    (hrefs : s'.refcount = s.refcount)
    (hf : s'.freed = s.freed) (hc : s'.closed = s.closed) (he : s'.entered = s.entered) :
      s'.Counted hasClose := by
  refine ⟨fun node hm => ?_, fun node hm => ?_, fun node hm => ?_, fun node hm => ?_⟩
  all_goals
    rw [he] at hm
  · rw [hrefs, hslots, h.refcount node hm]
  · rw [hf, hslots, h.freed node hm]
  · rw [hc, hslots, h.closed node hm]
  · rw [hf, hc, hslots]
    exact h.outside node hm

end Calls

/-- One more slot has the node, and nothing else changed. -/
structure Appended (s s' : Files N) (node : Option N) : Prop where
  slots : ∀ n, s'.slots n = s.slots n + if node = some n then 1 else 0
  refcount : s'.refcount = s.refcount
  freed : s'.freed = s.freed
  closed : s'.closed = s.closed
  entered : s'.entered = s.entered

theorem processAppendFd_spec {s s' : Files N} {node : Option N}
    (h : s.processAppendFd proc node = some (s', fd)) : Appended s s' node := by
  obtain ⟨t, ht, h⟩ := bind_eq_some_iff.mp h
  cases hi : t.entries.findIdx? (·.isNone) with
  | some i =>
    simp only [hi, some.injEq, Prod.mk.injEq] at h
    obtain ⟨rfl, rfl⟩ := h
    obtain ⟨hlt, hnone, -⟩ := List.findIdx?_eq_some_iff_getElem.mp hi
    have hold : t.entries[i]? = some none := by
      rw [List.getElem?_eq_getElem hlt]
      exact congrArg some (isNone_iff_eq_none.mp hnone)
    refine ⟨fun n => ?_, rfl, rfl, rfl, rfl⟩
    have hset := slots_setEntry ht hold node n
    rwa [if_neg (by simp), Nat.add_zero] at hset
  | none =>
    simp only [hi] at h
    obtain ⟨t', hentries, h⟩ : ∃ t' : FdTable N, t'.entries = t.entries ∧
      (if t'.entries.length < t'.allocated then
        some (({ s with tables := s.tables.set proc { t' with entries := t'.entries ++ [node] } } : Files N),
          t'.entries.length)
        else none) = some (s', fd) := by
      refine ⟨_, ?_, h⟩
      split_ifs <;> rfl
    split_ifs at h
    obtain ⟨rfl, rfl⟩ := Prod.mk.inj (some.inj h)
    refine ⟨fun n => ?_, rfl, rfl, rfl, rfl⟩
    have hset := slots_set ht { t' with entries := t'.entries ++ [node] } n
    dsimp only at hset
    rw [hentries, count_append, count_singleton] at hset
    simp only [beq_iff_eq] at hset
    rw [hentries]
    omega

section Calls

variable {hasClose : N → Bool} {s s' : Files N} (h : s.Counted hasClose)
include h

theorem Counted.enter {node : N} (ha : Appended s s' (some node)) (hn : node ∉ s.entered)
    (hr : s.refcount node = 1) : ({ s' with entered := node :: s'.entered } : Files N).Counted hasClose := by
  have hslots : ∀ n, ({ s' with entered := node :: s'.entered } : Files N).slots n =
      s.slots n + if some node = some n then 1 else 0 := ha.slots
  obtain ⟨h1, h2, h3⟩ := h.outside node hn
  have hself : ∀ n, n ∈ node :: s'.entered → (n = node ∧ s.slots n = 0) ∨ (node ≠ n ∧ n ∈ s.entered) := by
    intro n hm
    rw [ha.entered, mem_cons] at hm
    by_cases hnode : n = node
    · exact .inl ⟨hnode, hnode ▸ h1⟩
    · exact .inr ⟨Ne.symm hnode, hm.resolve_left hnode⟩
  refine ⟨fun n hm => ?_, fun n hm => ?_, fun n hm => ?_, fun n hm => ?_⟩
  · rw [hslots n]
    obtain ⟨rfl, h0⟩ | ⟨hne, hold⟩ := hself n hm
    · simp [ha.refcount, hr, h0]
    · simp [ha.refcount, hne, h.refcount n hold]
  · rw [hslots n]
    obtain ⟨rfl, h0⟩ | ⟨hne, hold⟩ := hself n hm
    · simp [ha.freed, h2]
    · simp [ha.freed, hne, h.freed n hold]
  · rw [hslots n]
    obtain ⟨rfl, h0⟩ | ⟨hne, hold⟩ := hself n hm
    · simp [ha.closed, h3]
    · simp [ha.closed, hne, h.closed n hold]
  · rw [mem_cons, not_or, ha.entered] at hm
    rw [hslots n, ha.freed, ha.closed, if_neg fun he => hm.1 (some.inj he).symm]
    exact h.outside n hm.2

theorem Counted.moveEntry {proc src dest : ℕ} (hm : s.moveEntry hasClose proc src dest = some s') :
    s'.Counted hasClose := by
  obtain ⟨t, ht, hm⟩ := bind_eq_some_iff.mp hm
  obtain ⟨old, hold, hm⟩ := bind_eq_some_iff.mp hm
  obtain ⟨new, hnew, hm⟩ := bind_eq_some_iff.mp hm
  split_ifs at hm with hne
  · obtain rfl := some.inj hm
    exact h.exchange ht hold (fun node hn => slots_pos ht (hn ▸ hnew)) hne
  · obtain rfl := some.inj hm
    exact h

theorem Counted.processMoveFd {proc fd : ℕ} {src dest : ℤ}
    (hm : s.processMoveFd hasClose proc src dest = some (s', fd)) :
    s'.Counted hasClose := by
  obtain ⟨t, ht, hm⟩ := bind_eq_some_iff.mp hm
  split_ifs at hm
  · obtain ⟨rfl, -⟩ := Prod.mk.inj (some.inj hm)
    exact h
  · obtain ⟨⟨s₁, d⟩, happ, hm⟩ := bind_eq_some_iff.mp hm
    obtain ⟨s₂, hmove, hm⟩ := bind_eq_some_iff.mp hm
    obtain ⟨rfl, -⟩ := Prod.mk.inj (some.inj hm)
    have ha := processAppendFd_spec happ
    have h1 : s₁.Counted hasClose := h.same (fun node => by simpa using ha.slots node) ha.refcount ha.freed
      ha.closed ha.entered
    exact h1.moveEntry hmove
  · obtain ⟨s₂, hmove, hm⟩ := bind_eq_some_iff.mp hm
    obtain ⟨rfl, -⟩ := Prod.mk.inj (some.inj hm)
    exact h.moveEntry hmove

theorem Counted.sysClose {proc : ℕ} {fd r : ℤ} (hm : s.sysClose hasClose proc fd = some (s', r)) :
    s'.Counted hasClose := by
  obtain ⟨t, ht, hm⟩ := bind_eq_some_iff.mp hm
  split_ifs at hm
  · split at hm
    · rename_i node he
      obtain ⟨rfl, -⟩ := Prod.mk.inj (some.inj hm)
      have hnone : ∀ n : N, none = some n → 0 < s.slots n := fun n hn => absurd hn (by simp)
      exact h.exchange ht he hnone (by simp)
    · obtain ⟨rfl, -⟩ := Prod.mk.inj (some.inj hm)
      exact h
  · obtain ⟨rfl, -⟩ := Prod.mk.inj (some.inj hm)
    exact h

omit h

/-- The references that the entries of a copied table add. -/
theorem foldl_cloneFs (es : List (Option N)) : ∀ s : Files N, (∀ node, some node ∈ es → 0 ≤ s.refcount node) →
    (es.foldl cloneFs s).tables = s.tables ∧
    (∀ node, (es.foldl cloneFs s).refcount node = s.refcount node + es.count (some node)) ∧
    (es.foldl cloneFs s).freed = s.freed ∧ (es.foldl cloneFs s).closed = s.closed ∧
    (es.foldl cloneFs s).entered = s.entered := by
  induction es with
  | nil => exact fun s _ => ⟨rfl, fun node => by simp, rfl, rfl, rfl⟩
  | cons e es ih =>
    intro s hs
    have href : ∀ node, (s.cloneFs e).refcount node = s.refcount node + if e = some node then 1 else 0 :=
      addRef_refcount fun node he => hs node (he ▸ mem_cons_self)
    obtain ⟨h1, h2, h3, h4, h5⟩ := ih (s.cloneFs e) fun node hm => by
      have h0 := hs node (mem_cons_of_mem e hm)
      rw [href node]
      split_ifs <;> omega
    refine ⟨h1, fun node => ?_, h3, h4, h5⟩
    rw [foldl_cons, h2 node, href node, count_cons]
    simp only [beq_iff_eq]
    push_cast
    omega

include h

theorem Counted.spawnProcess {parent : ℕ} (hm : s.spawnProcess parent = some s') : s'.Counted hasClose := by
  obtain ⟨t, ht, hm⟩ := bind_eq_some_iff.mp hm
  split_ifs at hm
  obtain rfl := some.inj hm
  have hheld : ∀ node, some node ∈ t.entries → 0 < s.slots node := by
    intro node hn
    obtain ⟨i, hi, he⟩ := mem_iff_getElem.mp hn
    exact slots_pos ht (List.getElem?_eq_some_iff.mpr ⟨hi, he⟩)
  obtain ⟨htab, href, hfreed, hclosed, hent⟩ := foldl_cloneFs t.entries s fun node hn =>
    (h.pos (hheld node hn)).2.le
  have hslots : ∀ node, ({ t.entries.foldl cloneFs s with tables := (t.entries.foldl cloneFs s).tables ++
      [⟨t.entries, t.capacity, 44⟩] } : Files N).slots node = s.slots node + t.entries.count (some node) := by
    intro node
    rw [slots_append_table]
    unfold slots
    rw [htab]
  have hzero : ∀ node, s.slots node + t.entries.count (some node) = 0 ↔ s.slots node = 0 := by
    intro node
    refine ⟨fun h0 => by omega, fun h0 => ?_⟩
    have hcount : t.entries.count (some node) = 0 := by
      rw [count_eq_zero]
      intro hn
      exact absurd (hheld node hn) (by omega)
    omega
  refine ⟨fun node hn => ?_, fun node hn => ?_, fun node hn => ?_, fun node hn => ?_⟩
  all_goals
    dsimp only at hn ⊢
    rw [hent] at hn
    rw [hslots node]
  · rw [href node, h.refcount node hn]
    push_cast
    rfl
  · rw [hfreed, h.freed node hn, if_congr (hzero node) rfl rfl]
  · rw [hclosed, h.closed node hn, if_congr (and_congr_left' (hzero node)) rfl rfl]
  · rw [hfreed, hclosed, hzero node]
    exact h.outside node hn

end Calls

theorem Counted.step {hasClose : N → Bool} (s : Files N) (e : FileEvent N) (s' : Files N)
    (h : s.Counted hasClose)
    (hs : fileStep hasClose s e = some s') : s'.Counted hasClose := by
  cases e with
  | append proc node =>
    simp only [fileStep] at hs
    split_ifs at hs with hg
    obtain ⟨⟨s₁, fd⟩, ha, rfl⟩ := map_eq_some_iff.mp hs
    exact h.enter (processAppendFd_spec ha) hg.1 hg.2
  | move proc src dest =>
    obtain ⟨⟨s₁, fd⟩, hm, rfl⟩ := map_eq_some_iff.mp hs
    exact h.processMoveFd hm
  | close proc fd =>
    obtain ⟨⟨s₁, r⟩, hm, rfl⟩ := map_eq_some_iff.mp hs
    exact h.sysClose hm
  | spawn parent => exact h.spawnProcess hs

def create (tables : List (FdTable N)) (refcount : N → ℤ) : Files N := ⟨tables, refcount, [], [], []⟩

theorem create_counted {tables : List (FdTable N)} (h : ∀ t ∈ tables, ∀ e ∈ t.entries, e = none)
    (refcount : N → ℤ)
    (hasClose : N → Bool) : (create tables refcount).Counted hasClose := by
  refine ⟨fun node hn => ?_, fun node hn => ?_, fun node hn => ?_, fun node _ => ⟨?_, rfl, rfl⟩⟩
  · exact absurd hn not_mem_nil
  · exact absurd hn not_mem_nil
  · exact absurd hn not_mem_nil
  · unfold slots create
    rw [sum_eq_zero_iff]
    intro k hk
    obtain ⟨t, ht, rfl⟩ := mem_map.mp hk
    rw [count_eq_zero]
    exact fun hm => absurd (h t ht _ hm) (by simp)

theorem Counted.not_freed {hasClose : N → Bool} (h : s.Counted hasClose) {node : N}
    (he : s.entry proc fd = some (some node)) : node ∉ s.freed := by
  obtain ⟨t, ht, he⟩ := bind_eq_some_iff.mp he
  have hpos := slots_pos ht he
  have hcount := h.freed node (h.pos hpos).1
  rw [if_neg hpos.ne'] at hcount
  exact count_eq_zero.mp hcount

end Files

/-- In every run of the calls, counts are slots, and nodes are closed and freed with their last slot. -/
theorem descriptors_counted (hasClose : N → Bool) (tables : List (FdTable N)) (refcount : N → ℤ)
    (hempty : ∀ t ∈ tables, ∀ e ∈ t.entries, e = none) (es : List (FileEvent N)) (s : Files N)
    (hr : Machine.runs (fileStep hasClose) (Files.create tables refcount) es = some s) :
    s.Counted hasClose ∧ ∀ proc fd node, s.entry proc fd = some (some node) → node ∉ s.freed := by
  have h := Machine.invariant Files.Counted.step es _ s (Files.create_counted hempty refcount hasClose) hr
  exact ⟨h, fun proc fd node he => h.not_freed he⟩

/-- A file is opened, duplicated, inherited and closed in the first process. -/
theorem descriptors_counted_shared : ∃ s : Files ℕ,
    Machine.runs (fileStep fun _ => true) (Files.create [⟨[none], 44, 44⟩] fun _ => 1)
      [.append 0 7, .move 0 0 (-1), .spawn 0, .close 0 0, .append 0 8, .move 0 0 1] = some s ∧
    s.tables.map (·.entries) = [[some 8, some 8], [some 7, some 7]] ∧ s.refcount 7 = 2 ∧ s.Counted fun _ =>
      true := by
  have hrun : (Machine.runs (fileStep fun _ => true) (Files.create [⟨[none], 44, 44⟩] fun _ => 1)
      [.append 0 7, .move 0 0 (-1), .spawn 0, .close 0 0, .append 0 8, .move 0 0 1]).map
        (fun s => (s.tables.map (·.entries), s.refcount 7)) =
          some ([[some 8, some 8], [some 7, some 7]], 2) := by decide
  obtain ⟨s, h, hs⟩ := map_eq_some_iff.mp hrun
  obtain ⟨h1, h2⟩ := Prod.mk.inj hs
  exact ⟨s, h, h1, h2, (descriptors_counted (fun _ => true) _ _ (by decide) _ s h).1⟩

end ChiffOS.Task
