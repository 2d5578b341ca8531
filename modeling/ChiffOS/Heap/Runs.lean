import ChiffOS.Heap.NonOverlap

/-! Whole runs of the kernel heap, from its start to any state that a sequence of calls reaches. -/

namespace ChiffOS.Heap

/-- A call of the allocator, or a write of an owner to one of its bytes. -/
inductive Op where
  | klmalloc (size : ℕ)
  | klvalloc (size : ℕ)
  | klcalloc (nmemb size : ℕ)
  | klfree (p : ℕ)
  | store (addr : ℕ) (byte : UInt8)

/-- The heap and the blocks that its callers hold. -/
structure St where
  heap : Heap
  live : List Live

namespace St

/-- The callers' blocks after an allocation returned `p`. -/
def given (live : List Live) (p size : ℕ) (paged : Bool) : List Live :=
  if p = 0 then live else ⟨p, size, paged⟩ :: live

def step (st : St) : Op → Option St
  | .klmalloc n => (st.heap.klmalloc n).map fun r => ⟨r.2, given st.live r.1 n false⟩
  | .klvalloc n => (st.heap.klvalloc n).map fun r => ⟨r.2, given st.live r.1 n true⟩
  | .klcalloc m n => (st.heap.klcalloc m n).map fun r => ⟨r.2, given st.live r.1 (m * n) false⟩
  | .klfree p => (st.heap.klfree p).map fun h => ⟨h, st.live.filter (·.ptr ≠ p)⟩
  | .store a v => some ⟨{ st.heap with mem := Function.update st.heap.mem a v }, st.live⟩

def run (st : St) : List Op → Option St
  | [] => some st
  | op :: ops => (st.step op).bind (run · ops)

/-- No size computation wraps, `sbrk` stays below `KERNEL_HEAP_END`, `klfree` gets a live pointer
and an owner writes inside its block. -/
def Allowed (st : St) : Op → Prop
  | .klmalloc n => st.heap.heapEnd + st.heap.growth n < kernelHeapEnd
  | .klvalloc n => n + 4048 < 2 ^ 32 ∧ st.heap.heapEnd + st.heap.growth (n + 4048) < kernelHeapEnd
  | .klcalloc m n => m * n < 2 ^ 32 ∧ st.heap.heapEnd + st.heap.growth (m * n) < kernelHeapEnd
  | .klfree p => ∃ l ∈ st.live, l.ptr = p
  | .store a _ => ∃ l ∈ st.live, l.ptr ≤ a ∧ a < l.ptr + l.size

instance (st : St) : (op : Op) → Decidable (st.Allowed op)
  | .klmalloc _ => inferInstanceAs (Decidable (_ < _))
  | .klvalloc _ => inferInstanceAs (Decidable (_ ∧ _))
  | .klcalloc _ _ => inferInstanceAs (Decidable (_ ∧ _))
  | .klfree p => inferInstanceAs (Decidable (∃ l ∈ st.live, l.ptr = p))
  | .store a _ => inferInstanceAs (Decidable (∃ l ∈ st.live, l.ptr ≤ a ∧ a < l.ptr + l.size))

def AllowedRun (st : St) : List Op → Prop
  | [] => True
  | op :: ops => st.Allowed op ∧ ∀ st' ∈ st.step op, AllowedRun st' ops

instance decidableAllowedRun : (ops : List Op) → (st : St) → Decidable (st.AllowedRun ops)
  | [], _ => isTrue trivial
  | op :: ops, st =>
    have : DecidablePred (AllowedRun · ops) := decidableAllowedRun ops
    inferInstanceAs (Decidable (st.Allowed op ∧ ∀ st' ∈ st.step op, AllowedRun st' ops))

/-- The heap as `heap_install` leaves it, with nothing given out. -/
def boot (mem : Buf) (start : ℕ) : St := ⟨{ mem := mem, heapEnd := start }, []⟩

/-- The invariant of a run: some map of blocks describes the heap, and every live block has its home
in it. -/
def Good (start : ℕ) (st : St) : Prop := ∃ M, Inv start st.heap M ∧ Lives M st.live

variable {start : ℕ}

theorem good_boot {mem : Buf} (h0 : start % 4096 = 0) (hpos : 0 < start) (hlt : start < kernelHeapEnd) :
    Good start (boot mem start) := by
  refine ⟨fun _ => none, ⟨hpos, le_rfl, h0, hlt, ⟨?_, ?_, ?_, ?_, ?_⟩, ?_, ?_, ?_, .inl rfl⟩,
    ⟨by simp [boot], by simp [boot]⟩⟩
  · simp
  · simp
  · simp
  · simp
  · intro x h1 h2
    exact absurd h2 (by simp only [boot]; omega)
  · simp
  · exact fun b _ => ⟨[], rfl, List.nodup_nil, by simp⟩
  · exact ⟨[], ⟨List.Pairwise.nil, List.nodup_nil, by simp, Nat.zero_le _, fun i _ => rfl⟩, by simp⟩

theorem good_step {st : St} (hg : Good start st) {op : Op} (ha : st.Allowed op) :
    ∃ st', st.step op = some st' ∧ Good start st' := by
  obtain ⟨M, I, L⟩ := hg
  cases op with
  | klmalloc n =>
    by_cases h0 : n = 0
    · exact ⟨st, by simp [step, Heap.klmalloc, h0, given], M, I, L⟩
    · obtain ⟨p, h', M', e1, e2, e3, e4, -⟩ := klmalloc_spec I L h0 ha
      exact ⟨⟨h', ⟨p, n, false⟩ :: st.live⟩, by simp [step, e1, given, e2], M', e3, e4⟩
  | klvalloc n =>
    obtain ⟨p, h', M', e1, e2, -, e3, e4, -⟩ := klvalloc_spec I L ha.1 ha.2
    exact ⟨⟨h', ⟨p, n, true⟩ :: st.live⟩, by simp [step, e1, given, e2], M', e3, e4⟩
  | klcalloc m n =>
    by_cases h0 : m * n = 0
    · exact ⟨st, by simp [step, Heap.klcalloc, Heap.klmalloc, h0, given], M, I, L⟩
    · obtain ⟨p, h', M', e1, e2, e3, e4⟩ := klcalloc_spec I L h0 ha.1 ha.2
      exact ⟨⟨h', ⟨p, m * n, false⟩ :: st.live⟩, by simp [step, e1, given, e2], M', e3, e4⟩
  | klfree p =>
    obtain ⟨l, hl, rfl⟩ := ha
    obtain ⟨h', M', e1, e2, e3, -⟩ := klfree_spec I L hl
    exact ⟨⟨h', st.live.filter (·.ptr ≠ l.ptr)⟩, by simp [step, e1], M', e2, e3⟩
  | store a v =>
    obtain ⟨l, hl, h1, h2⟩ := ha
    refine ⟨_, rfl, M, I.write_live L hl fun x hx => Function.update_of_ne ?_ .., L⟩
    rintro rfl
    exact hx ⟨h1, h2⟩

theorem good_run {st : St} (hg : Good start st) {ops : List Op} (ha : st.AllowedRun ops) :
    ∃ st', st.run ops = some st' ∧ Good start st' := by
  induction ops generalizing st with
  | nil => exact ⟨st, rfl, hg⟩
  | cons op ops ih =>
    obtain ⟨st1, h1, hg1⟩ := good_step hg ha.1
    obtain ⟨st2, h2, hg2⟩ := ih hg1 (ha.2 st1 h1)
    exact ⟨st2, by simp [run, h1, h2], hg2⟩

/-- What the heap owes its callers. -/
structure NonOverlap (start : ℕ) (st : St) : Prop where
  apart : st.live.Pairwise fun l l' => l.ptr + l.size ≤ l'.ptr ∨ l'.ptr + l'.size ≤ l.ptr
  obtained : ∀ l ∈ st.live, start ≤ l.ptr ∧ l.ptr + l.size ≤ st.heap.heapEnd
  paged : ∀ l ∈ st.live, l.paged = true → l.ptr % 4096 = 0
  /-- The blocks of the heap: none has its header, its skip list fields or a link of its free
  stack in a live block, and the header that `klfree` finds is that of the block itself. -/
  blocks : ∃ M, Inv start st.heap M ∧
    (∀ l ∈ st.live, ∀ x, l.ptr ≤ x → x < l.ptr + l.size → ¬ IsMeta M x) ∧
    ∀ l ∈ st.live, ∃ k, M (headerOf l.ptr) = some k ∧ Holds (headerOf l.ptr) l k

theorem Good.nonOverlap {st : St} (hg : Good start st) : NonOverlap start st := by
  obtain ⟨M, I, L⟩ := hg
  refine ⟨?_, fun l hl => ?_, fun l hl hp => ?_, M, I, fun l hl x => I.live_not_meta L hl, fun l hl => ?_⟩
  · have hne := List.pairwise_map.mp L.nodup
    exact hne.imp_of_mem fun hl hl' hne => I.live_apart L hl hl' hne
  · obtain ⟨a, k, hk, hh⟩ := L.home l hl
    have := I.home_bounds hk hh
    have := I.layout.start_le a k hk
    have := I.layout.le_stop a k hk
    omega
  · obtain ⟨a, k, hk, hh⟩ := L.home l hl
    have := I.aligned hk
    cases k with
    | small b free => exact absurd hp (by simp [hh.2.2.2])
    | big s owner =>
      have := hh.2.2 hp
      omega
  · obtain ⟨a, k, hk, hh⟩ := L.home l hl
    rw [I.headerOf_home hk hh]
    exact ⟨k, hk, hh⟩

/-- Every run of allowed calls from the start of the heap returns and keeps the live blocks apart
from each other and from the allocator's own data. -/
theorem heap_nonOverlap (mem : Buf) {start : ℕ} (h0 : start % 4096 = 0) (hpos : 0 < start)
    (hlt : start < kernelHeapEnd) (ops : List Op) (ha : (boot mem start).AllowedRun ops) :
    ∃ st, (boot mem start).run ops = some st ∧ NonOverlap start st := by
  obtain ⟨st, h1, h2⟩ := good_run (good_boot h0 hpos hlt) ha
  exact ⟨st, h1, h2.nonOverlap⟩

/-- A page-aligned block, a small one, a big block that reuses the first after its release. -/
def mixedOps : List Op := [.klvalloc 100, .klmalloc 2000, .store 8192 7, .klfree 8192, .klvalloc 60]

theorem heap_nonOverlap_mixed : ∃ st, (boot (fun _ => 0) 4096).run mixedOps = some st ∧ NonOverlap 4096 st :=
  heap_nonOverlap _ (by decide) (by decide) (by decide) mixedOps (by decide)

end St
end ChiffOS.Heap
