import ChiffOS.Lib.Segment
import Mathlib.Data.Multiset.AddSub

/-! The ring of the scheduler: `task/list.c` and `get_current_task` of `task/sched.c`. The ring is a circle of
elements without an end; `current` moves through it, `begin` only tells that there is one. -/

namespace ChiffOS.Task

open List

structure Element (D : Type) where
  next : ℕ
  data : D

/-- `ring_t` with the memory of its elements and the number of calls of `valloc`. -/
structure Ring (D : Type) where
  begin : ℕ
  current : ℕ
  elements : ℕ → Element D
  calls : ℕ

/-- What `valloc` returns, call after call; nothing of it is ever freed. -/
structure Valloc where
  addr : ℕ → ℕ
  addr_ne_zero : ∀ n, addr n ≠ 0
  addr_inj : Function.Injective addr

namespace Ring

variable {D : Type}

/-- A zeroed `ring_t`, with any contents of the memory that `valloc` gives. -/
def empty (memory : ℕ → Element D) : Ring D := ⟨0, 0, memory, 0⟩

def next (r : Ring D) (a : ℕ) : ℕ := (r.elements a).next

def data (r : Ring D) (a : ℕ) : D := (r.elements a).data

def setNext (r : Ring D) (a n : ℕ) : Ring D :=
  { r with elements := Function.update r.elements a { r.elements a with next := n } }

def ringListInsert (heap : Valloc) (r : Ring D) (data : D) : Ring D :=
  if r.begin = 0 then
    let current := heap.addr (r.calls + 1)
    { begin := heap.addr r.calls, current := current
      elements := Function.update r.elements current ⟨current, data⟩, calls := r.calls + 2 }
  else
    let item := heap.addr r.calls
    let r' := { r with elements := Function.update r.elements item ⟨r.next r.current, data⟩, calls :=
      r.calls + 1 }
    r'.setNext r.current item

/-- The loop of `ring_list_delete_first`: the element before the one with the data, if one is found. -/
def findBefore [DecidableEq D] (r : Ring D) (data : D) : ℕ → ℕ → Option (Option ℕ)
  | 0, _ => none
  | fuel + 1, current =>
    if r.data (r.next current) = data then some (some current)
    else if r.next current = r.current then some none
    else findBefore r data fuel (r.next current)

def unlink (r : Ring D) (current : ℕ) : Ring D :=
  let temp := r.next current
  let r' : Ring D :=
    { r with
      begin := if temp = r.begin then r.next r.begin else r.begin
      current := if temp = r.current then r.next r.current else r.current }
  r'.setNext current (r.next temp)

def ringListDeleteFirst [DecidableEq D] (r : Ring D) (data : D) : Option (Bool × Ring D) :=
  if r.begin = 0 then some (false, r)
  else match r.findBefore data r.calls r.current with
    | none => none
    | some none => some (false, r)
    | some (some current) => some (true, r.unlink current)

/-- `none` if there is no element: `current` is then a null pointer. -/
def getCurrentTask (r : Ring D) : Option (D × Ring D) :=
  if r.current = 0 then none
  else some (r.data (r.next r.current), { r with current := r.next r.current })

def getCurrentTasks : ℕ → Ring D → Option (List D × Ring D)
  | 0, r => some ([], r)
  | n + 1, r => do
    let (d, r) ← r.getCurrentTask
    let (ds, r) ← getCurrentTasks n r
    return (d :: ds, r)

/-- The elements of the ring in a list. All of them were given by `valloc`. -/
structure Holds (heap : Valloc) (r : Ring D) (xs : List ℕ) : Prop where
  circle : Circle r.next xs
  nodup : xs.Nodup
  current : r.current ∈ xs
  begin : r.begin ∉ xs
  given : ∀ a ∈ r.begin :: xs, ∃ n < r.calls, heap.addr n = a
  length : xs.length ≤ r.calls

variable {heap : Valloc} {r : Ring D} {xs : List ℕ} {a : ℕ} {d : D}

theorem next_setNext (r : Ring D) (a n b : ℕ) : (r.setNext a n).next b = if b = a then n else r.next b := by
  by_cases h : b = a
  · simp [next, setNext, h]
  · simp [next, setNext, h]

theorem data_setNext (r : Ring D) (a n b : ℕ) : (r.setNext a n).data b = r.data b := by
  by_cases h : b = a
  · simp [data, setNext, h]
  · simp [data, setNext, h]

variable {ys : List ℕ}

theorem Holds.perm (h : Holds heap r xs) (hc : Circle r.next ys) (hp : ys.Perm xs) : Holds heap r ys :=
  ⟨hc, hp.nodup_iff.mpr h.nodup, hp.mem_iff.mpr h.current, fun hb => h.begin (hp.mem_iff.mp hb),
    fun a ha => h.given a ((hp.cons r.begin).mem_iff.mp ha), hp.length_eq ▸ h.length⟩

theorem Holds.from_current (h : Holds heap r xs) :
    ∃ ys, Holds heap r (r.current :: ys) ∧ (r.current :: ys).Perm xs := by
  obtain ⟨ys, hc, hp⟩ := h.circle.from_mem h.current
  exact ⟨ys, h.perm hc hp, hp⟩

theorem Holds.ne_zero (h : Holds heap r xs) (ha : a ∈ r.begin :: xs) : a ≠ 0 := by
  obtain ⟨n, -, rfl⟩ := h.given a ha
  exact heap.addr_ne_zero n

theorem Holds.fresh (h : Holds heap r xs) : heap.addr r.calls ∉ r.begin :: xs := by
  intro ha
  obtain ⟨n, hn, he⟩ := h.given _ ha
  exact hn.ne (heap.addr_inj he)

theorem insert_empty (r : Ring D) (hb : r.begin = 0) (d : D) :
    ∃ a, Holds heap (r.ringListInsert heap d) [a] ∧ (r.ringListInsert heap d).data a = d := by
  refine ⟨heap.addr (r.calls + 1), ⟨?_, nodup_singleton _, ?_, ?_, ?_, ?_⟩, ?_⟩
  · simp [Circle, Segment, ringListInsert, hb, next]
  · simp [ringListInsert, hb]
  · simp [ringListInsert, hb, heap.addr_inj.eq_iff]
  · intro a ha
    simp only [ringListInsert, hb, if_true, mem_cons, not_mem_nil, or_false] at ha ⊢
    rcases ha with rfl | rfl
    · exact ⟨r.calls, by omega, rfl⟩
    · exact ⟨r.calls + 1, by omega, rfl⟩
  · simp [ringListInsert, hb]
  · simp [ringListInsert, hb, data]

theorem Holds.insert (h : Holds heap r (r.current :: ys)) (d : D) :
    ∃ v, Holds heap (r.ringListInsert heap d) (r.current :: v :: ys) ∧ (r.ringListInsert heap d).data v = d ∧
      ∀ a ∈ r.current :: ys, (r.ringListInsert heap d).data a = r.data a := by
  obtain ⟨hnb, hfresh⟩ := not_or.mp (mem_cons.not.mp h.fresh)
  have hb : r.begin ≠ 0 := h.ne_zero mem_cons_self
  have hne : r.current ≠ heap.addr r.calls := fun he => hfresh (he ▸ mem_cons_self)
  have hnext : ∀ b, (r.ringListInsert heap d).next b =
      if b = r.current then heap.addr r.calls else if b = heap.addr r.calls then r.next r.current else r.next
        b := by
    intro b
    simp only [ringListInsert, hb, if_false, next_setNext]
    by_cases hb : b = heap.addr r.calls
    · simp [next, hb]
    · simp [next, hb]
  have hdata : ∀ b, (r.ringListInsert heap d).data b = if b = heap.addr r.calls then d else r.data b := by
    intro b
    simp only [ringListInsert, hb, if_false, data_setNext]
    by_cases hb : b = heap.addr r.calls
    · simp [data, hb]
    · simp [data, hb]
  have hbegin : (r.ringListInsert heap d).begin = r.begin := by simp [ringListInsert, hb, setNext]
  have hcur : (r.ringListInsert heap d).current = r.current := by simp [ringListInsert, hb, setNext]
  have hcalls : (r.ringListInsert heap d).calls = r.calls + 1 := by simp [ringListInsert, hb, setNext]
  refine ⟨heap.addr r.calls, ⟨?_, ?_, ?_, ?_, ?_, ?_⟩, ?_, ?_⟩
  · apply h.circle.insert
    · simp [hnext]
    · simp [hnext, hne.symm]
    · intro x hx
      have h1 : x ≠ r.current := fun he => (nodup_cons.mp h.nodup).1 (he ▸ hx)
      have h2 : x ≠ heap.addr r.calls := fun he => hfresh (he ▸ mem_cons_of_mem _ hx)
      simp [hnext, h1, h2]
  · have hn := h.nodup
    simp only [nodup_cons, mem_cons] at hn hfresh ⊢
    tauto
  · simp [hcur]
  · have hbx := h.begin
    rw [hbegin]
    simp only [mem_cons] at hbx ⊢
    tauto
  · intro a ha
    rw [hcalls]
    by_cases hnew : a = heap.addr r.calls
    · exact ⟨r.calls, by omega, hnew.symm⟩
    · have hold : a ∈ r.begin :: r.current :: ys := by
        rw [hbegin] at ha
        simp only [mem_cons] at ha ⊢
        tauto
      obtain ⟨n, hn, he⟩ := h.given a hold
      exact ⟨n, by omega, he⟩
  · have hl := h.length
    rw [hcalls]
    simp only [length_cons] at hl ⊢
    omega
  · simp [hdata]
  · intro a ha
    have hne : a ≠ heap.addr r.calls := fun he => hfresh (he ▸ ha)
    simp [hdata, hne]

theorem Holds.unlink {u v : ℕ} (h : Holds heap r (u :: v :: ys)) :
    Holds heap (r.unlink u) (u :: ys) ∧ ∀ a, (r.unlink u).data a = r.data a := by
  have hv : r.next u = v := h.circle.1.symm
  have hnb : v ≠ r.begin := fun he => h.begin (he ▸ mem_cons_of_mem u mem_cons_self)
  have hbegin : (r.unlink u).begin = r.begin := by simp [Ring.unlink, setNext, hv, hnb]
  have hcur : (r.unlink u).current = if v = r.current then r.next v else r.current := by
    by_cases hc : v = r.current
    · simp [Ring.unlink, setNext, hv, hc]
    · simp [Ring.unlink, setNext, hv, hc]
  have hnext : ∀ b, (r.unlink u).next b = if b = u then r.next v else r.next b := by
    intro b
    rw [Ring.unlink, next_setNext, hv]
    rfl
  have hn := h.nodup
  simp only [nodup_cons, mem_cons, not_or] at hn
  have hcircle : Circle (r.unlink u).next (u :: ys) := by
    apply h.circle.delete
    · simp [hnext]
    · intro x hx
      have hxu : x ≠ u := fun he => hn.1.2 (he ▸ hx)
      simp [hnext, hxu]
  refine ⟨⟨hcircle, ?_, ?_, ?_, ?_, ?_⟩, ?_⟩
  · exact nodup_cons.mpr ⟨hn.1.2, hn.2.2⟩
  · rw [hcur]
    split_ifs with hc
    · have hu := hcircle.next_mem mem_cons_self
      rwa [hnext, if_pos rfl] at hu
    · have hmem := h.current
      simp only [mem_cons] at hmem ⊢
      tauto
  · intro hb
    rw [hbegin] at hb
    apply h.begin
    simp only [mem_cons] at hb ⊢
    tauto
  · intro a ha
    rw [hbegin] at ha
    apply h.given a
    simp only [mem_cons] at ha ⊢
    tauto
  · have hl := h.length
    simp only [length_cons] at hl
    simp only [length_cons, Ring.unlink, setNext]
    omega
  · intro a
    rw [Ring.unlink, data_setNext]
    rfl

theorem Holds.rotate (h : Holds heap r xs) :
    r.getCurrentTask = some (r.data (r.next r.current), { r with current := r.next r.current }) ∧
      Holds heap { r with current := r.next r.current } xs := by
  refine ⟨?_, h.circle, h.nodup, h.circle.next_mem h.current, h.begin, h.given, h.length⟩
  rw [getCurrentTask, if_neg (h.ne_zero (mem_cons_of_mem _ h.current))]

theorem getCurrentTasks_spec {zs : List ℕ} {b : ℕ} (hs : Segment r.next (r.next r.current) zs b)
    (hc : r.current ≠ 0)
    (hz : ∀ z ∈ zs, z ≠ 0) : ∃ c, getCurrentTasks zs.length r =
      some (zs.map r.data, { r with current := c }) := by
  induction zs generalizing r with
  | nil => exact ⟨r.current, rfl⟩
  | cons z zs ih =>
    obtain ⟨rfl, hs⟩ := hs
    obtain ⟨hz, hzs⟩ := forall_mem_cons.mp hz
    have hs' : Segment { r with current := r.next r.current }.next
        ({ r with current := r.next r.current }.next { r with current := r.next r.current }.current) zs b :=
          hs
    obtain ⟨c, hrun⟩ := ih hs' hz hzs
    refine ⟨c, ?_⟩
    simp only [length_cons, getCurrentTasks, getCurrentTask, hc, if_false, map_cons]
    rw [Option.bind_eq_bind, Option.bind_some, hrun]
    rfl

variable [DecidableEq D]

/-- The loop passes the rest of the circle: it finds the data, or it is back at the current element. -/
theorem findBefore_spec (r : Ring D) (d : D) {c : ℕ} (hs : Segment r.next c ys r.current) (hne : ys ≠ [])
    (hc : ∀ a ∈ ys.tail, a ≠ r.current) {fuel : ℕ} (hf : ys.length ≤ fuel) :
    (∃ u ∈ ys, r.data (r.next u) = d ∧ r.findBefore d fuel c = some (some u)) ∨
      (∀ u ∈ ys, r.data (r.next u) ≠ d) ∧ r.findBefore d fuel c = some none := by
  induction ys generalizing c fuel with
  | nil => exact absurd rfl hne
  | cons x ys ih =>
    obtain ⟨rfl, hs⟩ := hs
    cases fuel with
    | zero => exact absurd hf (by simp)
    | succ fuel =>
      by_cases hd : r.data (r.next x) = d
      · exact .inl ⟨x, mem_cons_self, hd, by simp [findBefore, hd]⟩
      · cases ys with
        | nil =>
          have he : r.next x = r.current := hs
          refine .inr ⟨?_, ?_⟩
          · intro u hu
            rw [mem_singleton.mp hu]
            exact hd
          · rw [findBefore, if_neg hd, if_pos he]
        | cons y ys =>
          have hback : r.next x ≠ r.current := by
            obtain ⟨rfl, -⟩ := hs
            exact hc _ mem_cons_self
          have hrun : r.findBefore d (fuel + 1) x = r.findBefore d fuel (r.next x) := by
            rw [findBefore, if_neg hd, if_neg hback]
          rw [hrun]
          rcases ih hs (cons_ne_nil y ys) (fun a ha => hc a (mem_of_mem_tail ha))
            (Nat.le_of_succ_le_succ hf) with ⟨u, hu, h1, h2⟩ | ⟨h1, h2⟩
          · exact .inl ⟨u, mem_cons_of_mem x hu, h1, h2⟩
          · exact .inr ⟨forall_mem_cons.mpr ⟨hd, h1⟩, h2⟩

theorem Holds.deleteFirst (h : Holds heap r xs) (d : D) :
    (∃ u ∈ xs, r.data (r.next u) = d ∧ r.ringListDeleteFirst d = some (true, r.unlink u)) ∨
      (∀ a ∈ xs, r.data a ≠ d) ∧ r.ringListDeleteFirst d = some (false, r) := by
  have hb : r.begin ≠ 0 := h.ne_zero mem_cons_self
  obtain ⟨ys, hys, hp⟩ := h.from_current
  have hrest : ∀ a ∈ ys, a ≠ r.current := fun a ha he => (nodup_cons.mp hys.nodup).1 (he ▸ ha)
  unfold ringListDeleteFirst
  rw [if_neg hb]
  rcases r.findBefore_spec d hys.circle.segment (cons_ne_nil _ _) hrest hys.length with ⟨u, hu, hd, hf⟩ | ⟨hd,
    hf⟩
  · refine .inl ⟨u, hp.mem_iff.mp hu, hd, ?_⟩
    rw [hf]
  · refine .inr ⟨?_, ?_⟩
    · intro a ha
      obtain ⟨u, hu, rfl⟩ := h.circle.exists_prev ha
      exact hd u (hp.mem_iff.mpr hu)
    · rw [hf]

end Ring

inductive RingOp (D : Type) where
  | insert (data : D)
  | rotate
  | deleteFirst (data : D)

variable {D : Type} [DecidableEq D]

def Ring.step (heap : Valloc) (r : Ring D) : RingOp D → Option (Ring D)
  | .insert data => some (r.ringListInsert heap data)
  | .rotate => r.getCurrentTask.map Prod.snd
  | .deleteFirst data => do
    let (found, r) ← r.ringListDeleteFirst data
    if found then some r else none

def Ring.run (heap : Valloc) (r : Ring D) (ops : List (RingOp D)) : Option (Ring D) := ops.foldlM
    (Ring.step heap) r

/-- The data in the ring after a call. A rotation needs an element, and a deletion leaves one. -/
def bagStep (m : Multiset D) : RingOp D → Option (Multiset D)
  | .insert data => some (data ::ₘ m)
  | .rotate => if m = 0 then none else some m
  | .deleteFirst data => if data ∈ m ∧ m.erase data ≠ 0 then some (m.erase data) else none

def bag (ops : List (RingOp D)) : Option (Multiset D) := ops.foldlM bagStep 0

namespace Ring

def Contains (heap : Valloc) (r : Ring D) (m : Multiset D) : Prop :=
  (m = 0 ∧ r.begin = 0) ∨ ∃ xs, Holds heap r xs ∧ (xs.map r.data : Multiset D) = m

variable {m m' : Multiset D}

theorem Holds.contains_delete (h : Holds heap r xs) (hm : (xs.map r.data : Multiset D) = m) {u : ℕ}
    (hu : u ∈ xs)
    (hrest : m.erase (r.data (r.next u)) ≠ 0) : Contains heap (r.unlink u) (m.erase (r.data (r.next u))) := by
  obtain ⟨ys, hc, hp⟩ := h.circle.from_mem hu
  have hm' : ((u :: ys).map r.data : Multiset D) = m := by
    rw [← hm]
    exact Multiset.coe_eq_coe.mpr (hp.map r.data)
  cases ys with
  | nil =>
    -- the only element
    have he : r.next u = u := hc
    refine absurd ?_ hrest
    rw [← hm', he]
    simp
  | cons v ys =>
    obtain ⟨hun, hdata⟩ := (h.perm hc hp).unlink
    have hv : r.next u = v := hc.1.symm
    refine .inr ⟨u :: ys, hun, ?_⟩
    have hswap : m = r.data v ::ₘ ((u :: ys).map r.data : Multiset D) := by
      rw [← hm']
      exact Multiset.cons_swap (r.data u) (r.data v) (ys.map r.data)
    rw [show (r.unlink u).data = r.data from funext hdata, hv, hswap, Multiset.erase_cons_head]

omit [DecidableEq D] in
theorem Contains.insert (h : Contains heap r m) (d : D) : Contains heap (r.ringListInsert heap d)
    (d ::ₘ m) := by
  rcases h with ⟨rfl, hb⟩ | ⟨xs, h, rfl⟩
  · obtain ⟨a, ha, hd⟩ := r.insert_empty hb d
    refine .inr ⟨[a], ha, ?_⟩
    rw [map_singleton, hd]
    rfl
  · obtain ⟨ys, hys, hp⟩ := h.from_current
    obtain ⟨v, hv, hd, hold⟩ := hys.insert d
    refine .inr ⟨_, hv, ?_⟩
    have hmap : (r.current :: ys).map (r.ringListInsert heap d).data = (r.current :: ys).map r.data :=
      map_congr_left hold
    have hperm : ((r.current :: ys).map r.data : Multiset D) = (xs.map r.data : Multiset D) :=
      Multiset.coe_eq_coe.mpr (hp.map r.data)
    rw [← hperm, ← hmap, map_cons, map_cons, map_cons, hd]
    exact Multiset.coe_eq_coe.mpr (List.Perm.swap _ _ _)

omit [DecidableEq D] in
theorem Contains.holds (h : Contains heap r m) (hm : m ≠ 0) : ∃ xs, Holds heap r xs ∧
    (xs.map r.data : Multiset D) = m :=
  h.resolve_left fun h => hm h.1

theorem Contains.step (h : Contains heap r m) {op : RingOp D} (hop : bagStep m op = some m') :
    ∃ r', r.step heap op = some r' ∧ Contains heap r' m' := by
  cases op with
  | insert d =>
    obtain rfl := Option.some.inj hop
    exact ⟨_, rfl, h.insert d⟩
  | rotate =>
    simp only [bagStep] at hop
    split_ifs at hop with hm
    obtain rfl := Option.some.inj hop
    obtain ⟨xs, hx, hd⟩ := h.holds hm
    obtain ⟨hget, hx'⟩ := hx.rotate
    refine ⟨_, ?_, .inr ⟨xs, hx', hd⟩⟩
    rw [Ring.step, hget]
    rfl
  | deleteFirst d =>
    simp only [bagStep] at hop
    split_ifs at hop with hm
    obtain rfl := Option.some.inj hop
    obtain ⟨hd, hrest⟩ := hm
    obtain ⟨xs, hx, rfl⟩ := h.holds fun h0 => Multiset.notMem_zero d (h0 ▸ hd)
    rcases hx.deleteFirst d with ⟨u, hu, rfl, hdel⟩ | ⟨hno, -⟩
    · refine ⟨_, ?_, hx.contains_delete rfl hu hrest⟩
      rw [Ring.step, hdel]
      rfl
    · obtain ⟨a, ha, rfl⟩ := mem_map.mp hd
      exact absurd rfl (hno a ha)

theorem Contains.run (ops : List (RingOp D)) : ∀ {r : Ring D} {m : Multiset D}, Contains heap r m →
    ops.foldlM bagStep m = some m' → ∃ r', r.run heap ops = some r' ∧ Contains heap r' m' := by
  induction ops with
  | nil =>
    intro r m h hm
    obtain rfl := Option.some.inj hm
    exact ⟨r, rfl, h⟩
  | cons op ops ih =>
    intro r m h hm
    rw [foldlM_cons] at hm
    obtain ⟨m₁, h1, h2⟩ := Option.bind_eq_some_iff.mp hm
    obtain ⟨r₁, hr, hc⟩ := h.step h1
    obtain ⟨r', hr', hc'⟩ := ih hc h2
    refine ⟨r', ?_, hc'⟩
    rw [Ring.run, foldlM_cons, hr]
    exact hr'

def OneCycle (r : Ring D) (m : Multiset D) : Prop :=
  ∃ xs : List ℕ, Circle r.next xs ∧ xs.Nodup ∧ (∀ a, a ∈ xs ↔ ∃ k, r.next^[k] r.current = a) ∧
    (xs.map r.data : Multiset D) = m

def FairRound (r : Ring D) (m : Multiset D) : Prop :=
  ∃ ds r', getCurrentTasks m.card r = some (ds, r') ∧ (ds : Multiset D) = m

theorem Holds.oneCycle (h : Holds heap r xs) : OneCycle r (xs.map r.data) := by
  obtain ⟨ys, hys, hp⟩ := h.from_current
  exact ⟨_, hys.circle, hys.nodup, fun a => hys.circle.mem_iff, Multiset.coe_eq_coe.mpr (hp.map r.data)⟩

theorem Holds.fairRound (h : Holds heap r xs) : FairRound r (xs.map r.data) := by
  obtain ⟨ys, hys, hp⟩ := h.from_current
  -- a round ends with the element it starts from
  have hs : Segment r.next (r.next r.current) (ys ++ [r.current]) (r.next r.current) :=
    Segment.append hys.circle ⟨rfl, rfl⟩
  have hperm : (ys ++ [r.current]).Perm xs := (perm_append_singleton r.current ys).trans hp
  have hzero : ∀ z ∈ xs, z ≠ 0 := fun z hz => h.ne_zero (mem_cons_of_mem _ hz)
  obtain ⟨c, hrun⟩ := getCurrentTasks_spec hs (hzero _ h.current) fun z hz => hzero z (hperm.mem_iff.mp hz)
  refine ⟨_, { r with current := c }, ?_, Multiset.coe_eq_coe.mpr (hperm.map r.data)⟩
  rw [Multiset.coe_card, length_map, ← hperm.length_eq]
  exact hrun

theorem Holds.deletes (h : Holds heap r xs) (d : D) :
    (∃ r', r.ringListDeleteFirst d = some (true, r')) ↔ d ∈ (xs.map r.data : Multiset D) := by
  rcases h.deleteFirst d with ⟨u, hu, rfl, hdel⟩ | ⟨hno, hdel⟩
  · exact ⟨fun _ => mem_map_of_mem (h.circle.next_mem hu), fun _ => ⟨_, hdel⟩⟩
  · constructor
    · rintro ⟨r', hr⟩
      rw [hdel] at hr
      exact absurd hr (by simp)
    · intro hd
      obtain ⟨a, ha, rfl⟩ := mem_map.mp hd
      exact absurd rfl (hno a ha)

/-- The scheduler's ring is one cycle with the data inserted and not deleted, after any calls;
the deletions that are successful are those of data in the ring. -/
theorem ring_fair_rotation (heap : Valloc) (memory : ℕ → Element D) (ops : List (RingOp D)) (m : Multiset D)
    (hm : bag ops = some m) : ∃ r, (empty memory).run heap ops = some r ∧
      (m ≠ 0 → OneCycle r m ∧ FairRound r m) ∧
      ∀ d, (∃ r', r.ringListDeleteFirst d = some (true, r')) ↔ d ∈ m := by
  obtain ⟨r, hr, hc⟩ := Contains.run ops (.inl ⟨rfl, rfl⟩ : Contains heap (empty memory) 0) hm
  refine ⟨r, hr, ?_, ?_⟩
  · intro hne
    obtain ⟨xs, hx, rfl⟩ := hc.holds hne
    exact ⟨hx.oneCycle, hx.fairRound⟩
  · intro d
    rcases hc with ⟨rfl, hb⟩ | ⟨xs, hx, rfl⟩
    · simp [ringListDeleteFirst, hb]
    · exact hx.deletes d

/-- Three insertions, of which two are of the same data, a rotation and a deletion. -/
theorem ring_fair_rotation_mixed : ∃ r, (empty fun _ => ⟨0, 0⟩ : Ring ℕ).run ⟨Nat.succ, Nat.succ_ne_zero,
    Nat.succ_injective⟩
      [.insert 7, .insert 8, .rotate, .insert 7, .deleteFirst 7] = some r ∧
    (({7, 8} : Multiset ℕ) ≠ 0 → OneCycle r {7, 8} ∧ FairRound r {7, 8}) ∧
    ∀ d, (∃ r', r.ringListDeleteFirst d = some (true, r')) ↔ d ∈ ({7, 8} : Multiset ℕ) :=
  ring_fair_rotation _ _ _ {7, 8} (by decide)

end Ring

end ChiffOS.Task
