import ChiffOS.Task.Files

/-! Which slots of a descriptor table `process_move_fd` reads and writes, and how many the table of a
spawned process has. The one lets through the numbers below zero and the length itself, the other notes the
capacity of the parent for an array of 44 slots. -/

namespace ChiffOS.Task

open Option

variable {N : Type}

namespace FdTable

def appendSlot (t : FdTable N) : ℕ := (t.entries.findIdx? (·.isNone)).getD t.entries.length

def grown (t : FdTable N) : FdTable N := if t.entries.length =
    t.capacity then ⟨t.entries, 2 * t.capacity, 2 * t.capacity⟩ else t

def Appends (t : FdTable N) : Prop := t.entries.findIdx? (·.isNone) = none →
    t.entries.length < t.grown.allocated

instance (t : FdTable N) : Decidable t.Appends := inferInstanceAs (Decidable (_ → _))

def append (t : FdTable N) (node : Option N) : FdTable N :=
  match t.entries.findIdx? (·.isNone) with
  | some i => { t with entries := t.entries.set i node }
  | none => { t.grown with entries := t.entries ++ [node] }

def Refused (t : FdTable N) (src dest : ℤ) : Prop := t.entries.length < src ∨ dest ≠ -1 ∧
    t.entries.length < dest

instance (t : FdTable N) (src dest : ℤ) : Decidable (t.Refused src dest) := inferInstanceAs
    (Decidable (_ ∨ _))

/-- The indices of `entries` that a call of `process_move_fd` uses; a gap is looked for from the first slot
on. -/
def moveAccesses (t : FdTable N) (src dest : ℤ) : List ℤ :=
  if t.Refused src dest then []
  else if dest = -1 then (List.range (t.appendSlot + 1)).map Int.ofNat ++ [(t.appendSlot : ℤ), src]
  else [dest, src]

def lengthAfter (t : FdTable N) (src dest : ℤ) : ℕ :=
  if ¬ t.Refused src dest ∧ dest = -1 then (t.append none).entries.length else t.entries.length

def ValidMove (t : FdTable N) (src dest : ℤ) : Prop :=
  (0 ≤ src ∧ src < t.entries.length) ∧ (dest = -1 ∨ 0 ≤ dest ∧ dest < t.entries.length)

/-- The array has the slots the table notes. -/
structure Room (t : FdTable N) : Prop where
  length_le : t.entries.length ≤ t.capacity
  pos : 0 < t.capacity
  capacity_le : t.capacity ≤ t.allocated

variable {t : FdTable N} {src dest : ℤ} {node : Option N}

@[simp] theorem grown_entries : t.grown.entries = t.entries := by
  unfold grown
  split_ifs <;> rfl

theorem length_append (node : Option N) : (t.append node).entries.length = max t.entries.length
    (t.appendSlot + 1) := by
  unfold append appendSlot
  cases hi : t.entries.findIdx? (·.isNone) with
  | none => simp
  | some i =>
    have hlt := (List.findIdx?_eq_some_iff_getElem.mp hi).1
    simp only [List.length_set, getD_some]
    omega

/-! ### Room -/

theorem Room.lt_grown (h : t.Room) : t.entries.length < t.grown.allocated := by
  have hle := h.length_le
  have hpos := h.pos
  have hcap := h.capacity_le
  unfold grown
  split_ifs
  · dsimp only
    omega
  · omega

theorem Room.appends (h : t.Room) : t.Appends := fun _ => h.lt_grown

theorem Room.append (h : t.Room) (node : Option N) : (t.append node).Room := by
  have hle := h.length_le
  have hpos := h.pos
  unfold FdTable.append
  cases t.entries.findIdx? (·.isNone) with
  | some i => exact ⟨by simpa using hle, hpos, h.capacity_le⟩
  | none =>
    unfold grown
    split_ifs with hfull
    · refine ⟨?_, ?_, le_rfl⟩
      · simp only [List.length_append, List.length_singleton]
        omega
      · dsimp only
        omega
    · refine ⟨?_, hpos, h.capacity_le⟩
      simp only [List.length_append, List.length_singleton]
      omega

/-! ### The slots of a move -/

theorem ValidMove.not_refused (h : t.ValidMove src dest) : ¬ t.Refused src dest := by
  obtain ⟨⟨h0, h1⟩, h2⟩ := h
  unfold Refused
  omega

theorem forall_accesses (h : ¬ t.Refused src dest) :
    (∀ i ∈ t.moveAccesses src dest, 0 ≤ i ∧ i < t.lengthAfter src dest) ↔
      (0 ≤ src ∧ src < t.lengthAfter src dest) ∧ (dest = -1 ∨ 0 ≤ dest ∧ dest < t.entries.length) := by
  by_cases hd : dest = -1
  · have hlen : t.lengthAfter src dest = max t.entries.length (t.appendSlot + 1) := by
      rw [lengthAfter, if_pos ⟨h, hd⟩, length_append]
    have hmax := le_max_right t.entries.length (t.appendSlot + 1)
    rw [moveAccesses, if_neg h, if_pos hd, hlen]
    constructor
    · exact fun hall => ⟨hall src (by simp), .inl hd⟩
    · rintro ⟨hsrc, -⟩ i hi
      obtain hi | hi := List.mem_append.mp hi
      · obtain ⟨k, hk, rfl⟩ := List.mem_map.mp hi
        rw [List.mem_range] at hk
        rw [Int.ofNat_eq_natCast]
        omega
      · rw [List.mem_pair] at hi
        omega
  · rw [moveAccesses, if_neg h, if_neg hd, lengthAfter, if_neg fun hn => hd hn.2]
    simp only [List.forall_mem_cons, List.not_mem_nil, false_implies, implies_true, and_true, hd, false_or]
    exact and_comm

theorem le_lengthAfter (t : FdTable N) (src dest : ℤ) : t.entries.length ≤ t.lengthAfter src dest := by
  unfold lengthAfter
  split_ifs
  · rw [length_append]
    exact le_max_left _ _
  · exact le_rfl

end FdTable

namespace Files

variable {s s' : Files N} {proc parent : ℕ} {t : FdTable N} {src dest : ℤ} {hasClose : N → Bool}
    {node : Option N}

theorem processAppendFd_eq (ht : s.tables[proc]? = some t) : s.processAppendFd proc node =
    if t.Appends then some ({ s with tables := s.tables.set proc (t.append node) }, t.appendSlot)
      else none := by
  unfold processAppendFd
  rw [ht, bind_eq_bind, bind_some]
  cases hi : t.entries.findIdx? (·.isNone) with
  | some i =>
    have happ : t.Appends := fun hn => absurd (hi.symm.trans hn) (by simp)
    simp only [if_pos happ, FdTable.append, FdTable.appendSlot, hi, getD_some, setEntry]
  | none =>
    have happ : t.Appends ↔ t.grown.entries.length < t.grown.allocated := by
      rw [FdTable.grown_entries]
      exact ⟨fun h => h hi, fun h _ => h⟩
    show (if t.grown.entries.length < t.grown.allocated then some (({ s with
        tables := s.tables.set proc { t.grown with entries := t.grown.entries ++ [node] } } : Files N),
          t.grown.entries.length) else none) = _
    simp only [happ, FdTable.append, FdTable.appendSlot, hi, getD_none, FdTable.grown_entries]

theorem getElem?_append_table (ht : s.tables[proc]? = some t) (node : Option N) :
    (s.tables.set proc (t.append node))[proc]? = some (t.append node) :=
  List.getElem?_set_self (List.getElem?_eq_some_iff.mp ht).1

def appends (proc : ℕ) : Files N → List (Option N) → Option (Files N)
  | s, [] => some s
  | s, node :: nodes => (s.processAppendFd proc node).bind fun r => appends proc r.1 nodes

theorem appends_room (nodes : List (Option N)) : ∀ {s : Files N} {t : FdTable N}, s.tables[proc]? = some t →
    t.Room →
    ∃ s' t', s.appends proc nodes = some s' ∧ s'.tables[proc]? = some t' ∧ t'.Room := by
  induction nodes with
  | nil => exact fun ht h => ⟨_, _, rfl, ht, h⟩
  | cons node nodes ih =>
    intro s t ht h
    obtain ⟨s', t', hrun, ht', h'⟩ := ih (s := { s with tables := s.tables.set proc (t.append node) })
      (getElem?_append_table ht node)
      (h.append node)
    refine ⟨s', t', ?_, ht', h'⟩
    rw [appends, processAppendFd_eq ht, if_pos h.appends]
    exact hrun

/-! ### Descriptors that are moved -/

variable [DecidableEq N]

theorem moveEntry_isSome {src dest : ℕ} (ht : s.tables[proc]? = some t) :
    (s.moveEntry hasClose proc src dest).isSome ↔ src < t.entries.length ∧ dest < t.entries.length := by
  unfold moveEntry
  rw [ht, bind_eq_bind, bind_some]
  by_cases hd : dest < t.entries.length
  · by_cases hs : src < t.entries.length
    · rw [List.getElem?_eq_getElem hd, List.getElem?_eq_getElem hs]
      simp only [bind_eq_bind, bind_some, hs, hd, and_self, iff_true]
      split_ifs <;> rfl
    · rw [List.getElem?_eq_getElem hd, List.getElem?_eq_none (Nat.not_lt.mp hs)]
      simp [hs]
  · rw [List.getElem?_eq_none (Nat.not_lt.mp hd)]
    simp [hd]

theorem moveEntry_length {src dest : ℕ} (ht : s.tables[proc]? = some t)
    (hm : s.moveEntry hasClose proc src dest = some s') :
    ∃ t', s'.tables[proc]? = some t' ∧ t'.entries.length = t.entries.length := by
  have hproc : proc < s.tables.length := (List.getElem?_eq_some_iff.mp ht).1
  obtain ⟨t', ht', hm⟩ := bind_eq_some_iff.mp hm
  obtain rfl := some.inj (ht.symm.trans ht')
  obtain ⟨old, -, hm⟩ := bind_eq_some_iff.mp hm
  obtain ⟨new, -, hm⟩ := bind_eq_some_iff.mp hm
  split_ifs at hm
  · obtain rfl := some.inj hm
    refine ⟨{ t with entries := t.entries.set dest new }, ?_, List.length_set⟩
    have htables : (s.closeFs hasClose old).tables = s.tables := (closeFs_tables hasClose s old).1
    simp only [openFs, addRef, setEntry, htables]
    exact List.getElem?_set_self hproc
  · obtain rfl := some.inj hm
    exact ⟨t, ht, rfl⟩

theorem processMoveFd_refused (ht : s.tables[proc]? = some t) (h : t.Refused src dest) :
    s.processMoveFd hasClose proc src dest = some (s, 2 ^ 32 - 1) := by
  unfold processMoveFd
  rw [ht]
  exact if_pos h

/-- A call that is not refused: the descriptor is appended first, if there is to be a new one. -/
theorem processMoveFd_eq (ht : s.tables[proc]? = some t) (h : ¬ t.Refused src dest) (hsrc : 0 ≤ src)
    (hdest : -1 ≤ dest) :
    s.processMoveFd hasClose proc src dest =
      if dest = -1 then
        if t.Appends then
          (({ s with tables := s.tables.set proc (t.append none) } : Files N).moveEntry hasClose proc
            src.toNat t.appendSlot).map (·, t.appendSlot)
        else none
      else (s.moveEntry hasClose proc src.toNat dest.toNat).map (·, dest.toNat) := by
  unfold processMoveFd
  rw [ht, bind_eq_bind, bind_some]
  refine (if_neg h).trans ((if_neg (by omega)).trans ?_)
  by_cases hd : dest = -1
  · rw [if_pos hd, if_pos hd, processAppendFd_eq ht]
    by_cases ha : t.Appends
    · rw [if_pos ha, if_pos ha, map_eq_bind]
      rfl
    · rw [if_neg ha, if_neg ha]
      rfl
  · rw [if_neg hd, if_neg hd, map_eq_bind]
    rfl

theorem processMoveFd_outside (ht : s.tables[proc]? = some t) (h : ¬ t.Refused src dest)
    (hneg : src < 0 ∨ dest < -1) :
    s.processMoveFd hasClose proc src dest = none := by
  unfold processMoveFd
  rw [ht, bind_eq_bind, bind_some]
  exact (if_neg h).trans (if_pos hneg)

/-- The call has a result exactly if it uses slots of the table only. -/
theorem processMoveFd_isSome_iff (ht : s.tables[proc]? = some t) (ha : t.Appends) :
    (s.processMoveFd hasClose proc src dest).isSome ↔ ∀ i ∈ t.moveAccesses src dest, 0 ≤ i ∧
      i < t.lengthAfter src dest := by
  by_cases hr : t.Refused src dest
  · rw [processMoveFd_refused ht hr, FdTable.moveAccesses, if_pos hr]
    simp
  · rw [FdTable.forall_accesses hr]
    by_cases hneg : src < 0 ∨ dest < -1
    · rw [processMoveFd_outside ht hr hneg]
      simp only [isSome_none, Bool.false_eq_true, false_iff]
      omega
    · rw [processMoveFd_eq ht hr (by omega) (by omega)]
      by_cases hd : dest = -1
      · have hlen : t.lengthAfter src dest = (t.append none).entries.length := if_pos ⟨hr, hd⟩
        have hslot := FdTable.length_append (t := t) none
        rw [if_pos hd, if_pos ha, isSome_map, moveEntry_isSome (getElem?_append_table ht none), hlen]
        omega
      · have hlen : t.lengthAfter src dest = t.entries.length := if_neg fun hn => hd hn.2
        rw [if_neg hd, isSome_map, moveEntry_isSome ht, hlen]
        omega

/-- The call fails without an effect on bad descriptors, and stays in the table. -/
structure MoveChecked (hasClose : N → Bool) (s : Files N) (proc : ℕ) (t : FdTable N) (src dest : ℤ) :
    Prop where
  fails : ¬ t.ValidMove src dest → s.processMoveFd hasClose proc src dest = some (s, 2 ^ 32 - 1)
  inside : ∀ i ∈ t.moveAccesses src dest, 0 ≤ i ∧ i < t.lengthAfter src dest

/-- A call with bad descriptors that is not refused does something else than to fail. -/
theorem processMoveFd_bad (ht : s.tables[proc]? = some t) (hr : ¬ t.Refused src dest)
    (hv : ¬ t.ValidMove src dest) :
    s.processMoveFd hasClose proc src dest ≠ some (s, 2 ^ 32 - 1) := by
  intro hm
  by_cases hneg : src < 0 ∨ dest < -1
  · rw [processMoveFd_outside ht hr hneg] at hm
    cases hm
  · rw [processMoveFd_eq ht hr (by omega) (by omega)] at hm
    unfold FdTable.ValidMove at hv
    by_cases hd : dest = -1
    · -- the table has grown by the slot that the source names
      rw [if_pos hd] at hm
      split_ifs at hm with ha
      obtain ⟨s₂, hmove, hs₂⟩ := map_eq_some_iff.mp hm
      obtain ⟨rfl, -⟩ := Prod.mk.inj hs₂
      have hin := (moveEntry_isSome (getElem?_append_table ht none)).mp (isSome_of_mem hmove)
      obtain ⟨t', ht', hlen⟩ := moveEntry_length (getElem?_append_table ht none) hmove
      obtain rfl := some.inj (ht.symm.trans ht')
      omega
    · rw [if_neg hd] at hm
      obtain ⟨s₂, hmove, -⟩ := map_eq_some_iff.mp hm
      have hin := (moveEntry_isSome ht).mp (isSome_of_mem hmove)
      omega

/-- Descriptors are checked exactly if they are valid or behind the length. -/
theorem move_checked_iff (hasClose : N → Bool) (s : Files N) (proc : ℕ) (t : FdTable N)
    (ht : s.tables[proc]? = some t) (src dest : ℤ) :
    MoveChecked hasClose s proc t src dest ↔
      ((0 ≤ src ∧ src < t.entries.length) ∧ (dest = -1 ∨ 0 ≤ dest ∧ dest < t.entries.length)) ∨
        t.entries.length < src ∨
        dest ≠ -1 ∧ t.entries.length < dest := by
  constructor
  · intro h
    by_contra hno
    obtain ⟨hv, hr⟩ := not_or.mp hno
    exact processMoveFd_bad ht hr hv (h.fails hv)
  · rintro (hv | hr)
    · have hv : t.ValidMove src dest := hv
      refine ⟨fun hn => absurd hv hn, (FdTable.forall_accesses hv.not_refused).mpr ⟨⟨hv.1.1, ?_⟩, hv.2⟩⟩
      have hlt := hv.1.2
      have hle := t.le_lengthAfter src dest
      omega
    · have hr : t.Refused src dest := hr
      refine ⟨fun _ => processMoveFd_refused ht hr, fun i hi => ?_⟩
      rw [FdTable.moveAccesses, if_pos hr] at hi
      cases hi

def twoOpen : Files ℕ := create [⟨[some 7, some 8], 44, 44⟩] fun _ => 1

theorem move_checked_two : MoveChecked (fun _ => true) twoOpen 0 ⟨[some 7, some 8], 44, 44⟩ 0 1 ∧
    MoveChecked (fun _ => true) twoOpen 0 ⟨[some 7, some 8], 44, 44⟩ 3 0 :=
  ⟨(move_checked_iff (fun _ => true) twoOpen 0 _ rfl 0 1).mpr (by decide),
    (move_checked_iff (fun _ => true) twoOpen 0 _ rfl 3 0).mpr (by decide)⟩

/-- The length as the source: the new slot is moved to itself and stays. A number below zero, as the source
or the target: a slot in front of the table is used. -/
theorem move_unchecked :
    (twoOpen.processMoveFd (fun _ => true) 0 2 (-1)).map (fun r => (r.1.tables.map (·.entries), r.2)) =
      some ([[some 7, some 8, none]], 2) ∧
    (⟨[some 7, some 8], 44, 44⟩ : FdTable ℕ).moveAccesses (-5) 0 = [0, -5] ∧
    (⟨[some 7, some 8], 44, 44⟩ : FdTable ℕ).moveAccesses 0 (-2) = [-2, 0] ∧
    (⟨[some 7, some 8], 44, 44⟩ : FdTable ℕ).moveAccesses 2 0 = [0, 2] := by
  decide

/-! ### Spawned processes -/

/-- The copy of the parent's entries fits, the array of the child is as long as noted, and no descriptor
that is appended later without a reallocation is behind its end. -/
def SpawnFits (s : Files N) (parent : ℕ) : Prop :=
  ∃ s' t', s.spawnProcess parent = some s' ∧ s'.tables[s.tables.length]? = some t' ∧
    t'.capacity ≤ t'.allocated ∧
    ∀ nodes s'' t'', s'.appends s.tables.length nodes = some s'' → s''.tables[s.tables.length]? = some t'' →
      t''.entries.length ≠ t''.capacity → ∀ node, (s''.processAppendFd s.tables.length node).isSome

theorem foldl_cloneFs_tables (es : List (Option N)) (s : Files N) : (es.foldl cloneFs s).tables =
    s.tables := by
  induction es generalizing s with
  | nil => rfl
  | cons e es ih => exact ih _

theorem spawnProcess_eq (ht : s.tables[parent]? = some t) (h : t.entries.length ≤ 44) : ∃ s',
    s.spawnProcess parent = some s' ∧
    s'.tables[s.tables.length]? = some ⟨t.entries, t.capacity, 44⟩ := by
  refine ⟨{ t.entries.foldl cloneFs s with tables :=
    (t.entries.foldl cloneFs s).tables ++ [⟨t.entries, t.capacity, 44⟩] }, ?_, ?_⟩
  · unfold spawnProcess
    rw [ht, bind_eq_bind, bind_some]
    exact if_pos h
  · rw [foldl_cloneFs_tables]
    exact List.getElem?_concat_length

theorem spawnProcess_child (ht : s.tables[parent]? = some t) (hs : s.spawnProcess parent = some s') :
    s'.tables[s.tables.length]? = some ⟨t.entries, t.capacity, 44⟩ := by
  obtain ⟨t', ht', h⟩ := bind_eq_some_iff.mp hs
  obtain rfl := some.inj (ht.symm.trans ht')
  by_cases hle : t.entries.length ≤ 44
  · obtain ⟨s₁, hs₁, hc⟩ := spawnProcess_eq ht hle
    obtain rfl := some.inj (hs.symm.trans hs₁)
    exact hc
  · rw [if_neg hle] at h
    cases h

theorem spawnFits_iff (ht : s.tables[parent]? = some t) (h : t.Room) : s.SpawnFits parent ↔
    t.capacity ≤ 44 := by
  constructor
  · rintro ⟨s', t', hs, ht', hle, -⟩
    obtain rfl := some.inj ((spawnProcess_child ht hs).symm.trans ht')
    exact hle
  · intro hle
    obtain ⟨s', hs, hc⟩ := spawnProcess_eq ht (h.length_le.trans hle)
    have hroom : (⟨t.entries, t.capacity, 44⟩ : FdTable N).Room := ⟨h.length_le, h.pos, hle⟩
    refine ⟨s', _, hs, hc, hle, fun nodes s'' t'' happ ht'' _ node => ?_⟩
    obtain ⟨s₁, t₁, hrun, ht₁, h₁⟩ := appends_room nodes hc hroom
    obtain rfl := some.inj (happ.symm.trans hrun)
    rw [processAppendFd_eq ht₁, if_pos h₁.appends]
    rfl

/-- A parent whose table had room gets a child whose table has room exactly as long as its own is not larger
than 44. -/
theorem spawn_fits_iff (s : Files N) (parent : ℕ) (t : FdTable N) (ht : s.tables[parent]? = some t)
    (hroom : t.Room)
    (nodes : List (Option N)) : ∃ s' t', s.appends parent nodes = some s' ∧ s'.tables[parent]? = some t' ∧
      (s'.SpawnFits parent ↔ t'.capacity ≤ 44) := by
  obtain ⟨s', t', hrun, ht', h'⟩ := appends_room nodes ht hroom
  exact ⟨s', t', hrun, ht', spawnFits_iff ht' h'⟩

def firstTable : Files ℕ := create [⟨List.replicate 12 none, 44, 44⟩] fun _ => 1

theorem spawn_fits_first : ∃ s' t', firstTable.appends 0 [some 1, some 2] = some s' ∧ s'.tables[0]? =
    some t' ∧
    (s'.SpawnFits 0 ↔ t'.capacity ≤ 44) :=
  spawn_fits_iff firstTable 0 ⟨List.replicate 12 none, 44, 44⟩ rfl ⟨by decide, by decide, by decide⟩ [some 1,
    some 2]

/-- The 45th file: the table grows to 88, and the copy for a child goes behind its array. -/
theorem spawn_overflows : ∃ s', firstTable.appends 0 ((List.range 45).map some) = some s' ∧
    s'.tables.map (fun t => (t.entries.length, t.capacity)) = [(45, 88)] ∧ s'.spawnProcess 0 = none ∧
      ¬ s'.SpawnFits 0 := by
  have hrun : (firstTable.appends 0 ((List.range 45).map some)).map (fun s =>
    (s.tables.map (fun t => (t.entries.length, t.capacity)),
      (s.spawnProcess 0).isNone)) = some ([(45, 88)], true) := by decide +kernel
  obtain ⟨s', hs', hr⟩ := map_eq_some_iff.mp hrun
  obtain ⟨htables, hspawn⟩ := Prod.mk.inj hr
  rw [isNone_iff_eq_none] at hspawn
  refine ⟨s', hs', htables, hspawn, ?_⟩
  rintro ⟨s₁, t₁, hs₁, -⟩
  rw [hspawn] at hs₁
  cases hs₁

end Files

end ChiffOS.Task
