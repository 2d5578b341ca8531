import ChiffOS.Elf.Segments

/-! The heap of a process: `sys_sbrk` of `syscalls.c`. The break is rounded up when a call begins; a second
value follows it page by page, and the pages up to it are mapped. That value cannot get behind a break in
the last page of the addresses. -/

namespace ChiffOS.Task

open Mem Mmu

/-- `image.heap` and `image.heap_actual` of a process in no group, and the memory. -/
structure Brk where
  heap : ℕ
  heapActual : ℕ
  memory : Mmu

namespace Brk

/-- The loop of `sys_sbrk`; `none` if there is no end. -/
def grow (dir : ℕ) : (fuel : ℕ) → Brk → Option Brk
  | 0, _ => none
  | fuel + 1, b =>
    if b.heap > b.heapActual then
      let heapActual := (b.heapActual + 0x1000) % 2 ^ 32
      grow dir fuel { b with heapActual := heapActual, memory := b.memory.allocPage dir heapActual }
    else some b

def sysSbrk (dir : ℕ) (b : Brk) (size : ℕ) : Option (ℕ × Brk) :=
  let iRet := b.heap
  let ret := (b.heap + 0xfff) % 2 ^ 32 / 0x1000 * 0x1000
  let heap := (b.heap + ((ret + 2 ^ 32 - iRet) % 2 ^ 32 + size)) % 2 ^ 32
  (grow dir (2 ^ 32) { b with heap := heap }).map fun b => (ret, b)

def sbrks (dir : ℕ) : Brk → List ℕ → Option (List ℕ × Brk)
  | b, [] => some ([], b)
  | b, size :: sizes => do
    let (ret, b) ← b.sysSbrk dir size
    let (rets, b) ← sbrks dir b sizes
    return (ret :: rets, b)

def breakAfter (heap : ℕ) (sizes : List ℕ) : ℕ := sizes.foldl
    (fun heap size => (heap + 0xfff) / 0x1000 * 0x1000 + size) heap

/-- The pages from that of the break to `heap_actual` are mapped. -/
structure Inv (dir : ℕ) (b : Brk) : Prop where
  ready : b.memory.Ready dir
  lt : b.heap < 2 ^ 32
  actual_lt : b.heapActual < 2 ^ 32
  aligned : b.heapActual % 0x1000 = 0
  present : ∀ n, b.heap / 0x1000 ≤ n → n ≤ b.heapActual / 0x1000 → b.memory.Present dir n

/-- The regions of the calls are mapped, begin with a page and follow each other. -/
structure Grown (dir : ℕ) (rets sizes : List ℕ) (b : Brk) : Prop where
  length : rets.length = sizes.length
  aligned : ∀ ret ∈ rets, ret % 0x1000 = 0
  apart : (rets.zip sizes).Pairwise fun r r' => r.1 + r.2 ≤ r'.1
  present : ∀ r ∈ rets.zip sizes, ∀ a, r.1 ≤ a → a < r.1 + r.2 → b.memory.Present dir (a / 0x1000)

variable {dir size : ℕ} {b b' : Brk}

/-! ### The loop -/

/-- What the loop leaves. -/
structure Followed (dir : ℕ) (b b' : Brk) : Prop where
  heap : b'.heap = b.heap
  le : b.heap ≤ b'.heapActual
  ready : b'.memory.Ready dir
  lt : b'.heapActual < 2 ^ 32
  aligned : b'.heapActual % 0x1000 = 0
  keeps : ∀ n < 2 ^ 20, b.memory.Present dir n → b'.memory.Present dir n
  present : ∀ n, b.heapActual / 0x1000 < n → n ≤ b'.heapActual / 0x1000 → b'.memory.Present dir n

theorem grow_spec (r : ℕ) : ∀ {b : Brk} {fuel : ℕ}, b.memory.Ready dir → b.heapActual < 2 ^ 32 →
    b.heapActual % 0x1000 = 0 →
    b.heap ≤ 0xFFFFF000 → b.heap ≤ b.heapActual + 0x1000 * r → r < fuel → ∃ b', grow dir fuel b = some b' ∧
      Followed dir b b' := by
  induction r with
  | zero =>
    intro b fuel hr hlt ha _ hle hf
    obtain ⟨fuel, rfl⟩ := Nat.exists_eq_succ_of_ne_zero (Nat.ne_of_gt hf)
    have hle : b.heap ≤ b.heapActual := hle
    refine ⟨b, by rw [grow, if_neg (Nat.not_lt.mpr hle)], rfl, hle, hr, hlt, ha,
      fun _ _ h => h, fun n h1 h2 => ?_⟩
    omega
  | succ r ih =>
    intro b fuel hr hlt ha hend hle hf
    obtain ⟨fuel, rfl⟩ := Nat.exists_eq_succ_of_ne_zero (Nat.ne_of_gt ((Nat.zero_le _).trans_lt hf))
    by_cases hgt : b.heap > b.heapActual
    · have hmod : (b.heapActual + 0x1000) % 2 ^ 32 = b.heapActual + 0x1000 := Nat.mod_eq_of_lt (by omega)
      obtain ⟨hr₁, hp₁⟩ := allocPage_ready hr (show b.heapActual + 0x1000 < 2 ^ 32 by omega)
      have hnew : (b.heapActual + 0x1000) / 0x1000 = b.heapActual / 0x1000 + 1 := by omega
      obtain ⟨b', hrun, h⟩ :=
        @ih ⟨b.heap, b.heapActual + 0x1000, b.memory.allocPage dir (b.heapActual + 0x1000)⟩ fuel hr₁
        (by dsimp only; omega) (by dsimp only; omega) hend (by dsimp only; omega) (Nat.lt_of_succ_lt_succ hf)
      refine ⟨b', ?_, h.heap, h.le, h.ready, h.lt, h.aligned, fun n hn hp =>
        h.keeps n hn ((hp₁ n hn).mpr (.inl hp)), ?_⟩
      · rw [grow, if_pos hgt, hmod]
        exact hrun
      · intro n h1 h2
        have hlast := h.lt
        by_cases he : n = b.heapActual / 0x1000 + 1
        · exact h.keeps n (by omega) ((hp₁ n (by omega)).mpr (.inr (he.trans hnew.symm)))
        · exact h.present n (by dsimp only; omega) h2
    · have hle' : b.heap ≤ b.heapActual := Nat.not_lt.mp hgt
      refine ⟨b, by rw [grow, if_neg hgt], rfl, hle', hr, hlt, ha, fun _ _ h => h, fun n h1 h2 => ?_⟩
      omega

/-- The value that follows is a multiple of the page size, so it is never behind a break in the last page. -/
theorem grow_endless (fuel : ℕ) : ∀ {b : Brk}, b.heapActual < 2 ^ 32 → b.heapActual % 0x1000 = 0 →
    0xFFFFF000 < b.heap →
    grow dir fuel b = none := by
  induction fuel with
  | zero => exact fun _ _ _ => rfl
  | succ fuel ih =>
    intro b hlt ha hend
    rw [grow, if_pos (by omega)]
    exact ih (Nat.mod_lt _ (by norm_num)) (by dsimp only; omega) hend

/-! ### The calls -/

theorem sysSbrk_eq (hb : b.heap < 2 ^ 32) (hwrap : (b.heap + 0xfff) / 0x1000 * 0x1000 + size < 2 ^ 32) :
    b.sysSbrk dir size =
    (grow dir (2 ^ 32) { b with heap := (b.heap + 0xfff) / 0x1000 * 0x1000 + size }).map fun b' =>
      ((b.heap + 0xfff) / 0x1000 * 0x1000, b') := by
  have hret : (b.heap + 0xfff) % 2 ^ 32 / 0x1000 * 0x1000 = (b.heap + 0xfff) / 0x1000 * 0x1000 := by omega
  have hheap : (b.heap + (((b.heap + 0xfff) / 0x1000 * 0x1000 + 2 ^ 32 - b.heap) % 2 ^ 32 + size)) % 2 ^ 32 =
      (b.heap + 0xfff) / 0x1000 * 0x1000 + size := by omega
  simp only [sysSbrk, hret, hheap]

theorem sysSbrk_spec (h : Inv dir b) (hend : (b.heap + 0xfff) / 0x1000 * 0x1000 + size ≤ 0xFFFFF000) : ∃ b',
    b.sysSbrk dir size = some ((b.heap + 0xfff) / 0x1000 * 0x1000, b') ∧ Inv dir b' ∧
      b'.heap = (b.heap + 0xfff) / 0x1000 * 0x1000 + size ∧
        (∀ n < 2 ^ 20, b.memory.Present dir n → b'.memory.Present dir n) ∧
      ∀ a, (b.heap + 0xfff) / 0x1000 * 0x1000 ≤ a → a < (b.heap + 0xfff) / 0x1000 * 0x1000 + size →
        b'.memory.Present dir (a / 0x1000) := by
  have hb := h.lt
  obtain ⟨b', hrun, hf⟩ :=
    grow_spec (2 ^ 20) (b := { b with heap := (b.heap + 0xfff) / 0x1000 * 0x1000 + size }) h.ready h.actual_lt
    h.aligned hend (show (b.heap + 0xfff) / 0x1000 * 0x1000 + size ≤ _ by omega)
      (by norm_num : 2 ^ 20 < 2 ^ 32)
  have hheap : b'.heap = (b.heap + 0xfff) / 0x1000 * 0x1000 + size := hf.heap
  have hle : (b.heap + 0xfff) / 0x1000 * 0x1000 + size ≤ b'.heapActual := hf.le
  have hlt := hf.lt
  -- the pages from the old break on, up to the new `heap_actual`
  have hpages : ∀ n, b.heap / 0x1000 ≤ n → n ≤ b'.heapActual / 0x1000 → b'.memory.Present dir n := by
    intro n h1 h2
    by_cases hold : n ≤ b.heapActual / 0x1000
    · exact hf.keeps n (by omega) (h.present n h1 hold)
    · exact hf.present n (Nat.not_le.mp hold) h2
  refine ⟨b', ?_, ⟨hf.ready, by omega, hlt, hf.aligned, fun n h1 h2 => hpages n (by omega) h2⟩, hheap,
    hf.keeps, ?_⟩
  · rw [sysSbrk_eq hb (by omega), hrun]
    rfl
  · exact fun a h1 h2 => hpages _ (by omega) (by omega)

theorem le_breakAfter (sizes : List ℕ) : ∀ heap, heap ≤ breakAfter heap sizes := by
  induction sizes with
  | nil => exact fun _ => le_rfl
  | cons size sizes ih =>
    intro heap
    have := ih ((heap + 0xfff) / 0x1000 * 0x1000 + size)
    unfold breakAfter at this ⊢
    rw [List.foldl_cons]
    omega

theorem breakAfter_cons (heap size : ℕ) (sizes : List ℕ) :
    breakAfter heap (size :: sizes) = breakAfter ((heap + 0xfff) / 0x1000 * 0x1000 + size) sizes := rfl

theorem sbrks_spec (sizes : List ℕ) : ∀ {b : Brk}, Inv dir b →
    (sizes ≠ [] → breakAfter b.heap sizes ≤ 0xFFFFF000) →
    ∃ rets b', sbrks dir b sizes = some (rets, b') ∧ Grown dir rets sizes b' ∧ (∀ ret ∈ rets, b.heap ≤ ret) ∧
      ∀ n < 2 ^ 20, b.memory.Present dir n → b'.memory.Present dir n := by
  induction sizes with
  | nil =>
    intro b h _
    exact ⟨[], b, rfl, ⟨rfl, by simp, by simp, by simp⟩, by simp, fun _ _ h => h⟩
  | cons size sizes ih =>
    intro b h hend
    have hend := hend (by simp)
    rw [breakAfter_cons] at hend
    have hle := le_breakAfter sizes ((b.heap + 0xfff) / 0x1000 * 0x1000 + size)
    obtain ⟨b₁, hrun, h₁, hheap, hkeeps, hregion⟩ := sysSbrk_spec h (hle.trans hend)
    obtain ⟨rets, b', hruns, hg, hge, hkeeps'⟩ := ih h₁ fun _ => by rwa [hheap]
    have hbehind : ∀ ret ∈ rets, (b.heap + 0xfff) / 0x1000 * 0x1000 + size ≤ ret := fun ret hret =>
      hheap ▸ hge ret hret
    refine ⟨(b.heap + 0xfff) / 0x1000 * 0x1000 :: rets,
      b', by simp [sbrks, hrun, hruns], ⟨by simp [hg.length], ?_, ?_, ?_⟩, ?_,
      fun n hn hp => hkeeps' n hn (hkeeps n hn hp)⟩
    · rintro ret (_ | ⟨_, hret⟩)
      · exact Nat.mul_mod_left _ _
      · exact hg.aligned ret hret
    · rw [List.zip_cons_cons, List.pairwise_cons]
      exact ⟨fun r hr => hbehind r.1 (List.of_mem_zip hr).1, hg.apart⟩
    · rw [List.zip_cons_cons]
      rintro r (_ | ⟨_, hr⟩) a h1 h2
      · exact hkeeps' _ (by dsimp only at h1 h2; omega) (hregion a h1 h2)
      · exact hg.present r hr a h1 h2
    · rintro ret (_ | ⟨_, hret⟩)
      · omega
      · have := hbehind ret hret
        omega

theorem sbrks_endless (sizes : List ℕ) : ∀ {b : Brk}, Inv dir b → sizes ≠ [] →
    breakAfter b.heap sizes < 2 ^ 32 →
    0xFFFFF000 < breakAfter b.heap sizes → sbrks dir b sizes = none := by
  induction sizes with
  | nil => exact fun _ h => absurd rfl h
  | cons size sizes ih =>
    intro b h _ hwrap hend
    rw [breakAfter_cons] at hwrap hend
    have hle := le_breakAfter sizes ((b.heap + 0xfff) / 0x1000 * 0x1000 + size)
    by_cases hfirst : (b.heap + 0xfff) / 0x1000 * 0x1000 + size ≤ 0xFFFFF000
    · obtain ⟨b₁, hrun, h₁, hheap, -, -⟩ := sysSbrk_spec h hfirst
      have hne : sizes ≠ [] := by
        rintro rfl
        exact Nat.not_lt.mpr hfirst hend
      rw [← hheap] at hwrap hend
      simp [sbrks, hrun, ih h₁ hne hwrap hend]
    · have hnone : b.sysSbrk dir size = none := by
        have hgrow : grow dir (2 ^ 32) { b with heap := (b.heap + 0xfff) / 0x1000 * 0x1000 + size } =
          none := by
          apply grow_endless
          · exact h.actual_lt
          · exact h.aligned
          · exact Nat.not_le.mp hfirst
        rw [sysSbrk_eq h.lt (hle.trans_lt hwrap), hgrow]
        rfl
      simp [sbrks, hnone]

/-- Calls that do not make the break wrap return mapped regions one behind the other, exactly if the break
stays out of the last page. -/
theorem sbrk_grows_iff (dir : ℕ) (b : Brk) (sizes : List ℕ) (h : Inv dir b)
    (hwrap : breakAfter b.heap sizes < 2 ^ 32) :
    (∃ rets b', sbrks dir b sizes = some (rets, b') ∧ Grown dir rets sizes b') ↔
      (sizes ≠ [] → breakAfter b.heap sizes ≤ 0xFFFFF000) := by
  constructor
  · rintro ⟨rets, b', hrun, -⟩ hne
    by_contra hend
    rw [sbrks_endless sizes h hne hwrap (Nat.not_le.mp hend)] at hrun
    cases hrun
  · intro hend
    obtain ⟨rets, b', hrun, hg, -⟩ := sbrks_spec sizes h hend
    exact ⟨rets, b', hrun, hg⟩

/-! ### A new process -/

def twoPages (heap first : ℕ) : Brk :=
    ⟨heap, first + 0x1000, (Elf.emptyMmu.allocPage 2 first).allocPage 2 (first + 0x1000)⟩

theorem emptyMmu_ready : Elf.emptyMmu.Ready 2 where
  distinct i _ j _ hne := absurd rfl hne
  inj m n _ _ he := by simpa [Elf.emptyMmu] using he
  ne_zero n _ := by simp [Elf.emptyMmu]
  fresh n _ i _ := by
    show 0 ≠ 100 + n
    omega

theorem twoPages_inv {heap first : ℕ} (ha : first % 0x1000 = 0) (hlt : first < 0xFFFFF000)
    (hlow : first ≤ heap) (hheap : heap < 2 ^ 32) :
    Inv 2 (twoPages heap first) := by
  obtain ⟨hr₁, hp₁⟩ := allocPage_ready emptyMmu_ready (show first < 2 ^ 32 by omega)
  obtain ⟨hr₂, hp₂⟩ := allocPage_ready hr₁ (show first + 0x1000 < 2 ^ 32 by omega)
  refine ⟨hr₂, hheap, ?_, ?_, fun n h1 h2 => ?_⟩
  · show first + 0x1000 < 2 ^ 32
    omega
  · show (first + 0x1000) % 0x1000 = 0
    omega
  · have h1 : heap / 0x1000 ≤ n := h1
    have h2 : n ≤ (first + 0x1000) / 0x1000 := h2
    rcases (by omega : n = first / 0x1000 ∨ n = (first + 0x1000) / 0x1000) with hn | hn
    · exact (hp₂ n (by omega)).mpr (.inl ((hp₁ n (by omega)).mpr (.inr hn)))
    · exact (hp₂ n (by omega)).mpr (.inr hn)

theorem sbrk_grows_two : breakAfter (twoPages 0x1800 0x1000).heap [0x900, 0x10] = 0x3010 ∧
    ∃ rets b', sbrks 2 (twoPages 0x1800 0x1000) [0x900, 0x10] = some (rets, b') ∧
      Grown 2 rets [0x900, 0x10] b' :=
  ⟨by decide, (sbrk_grows_iff 2 _ [0x900, 0x10] (twoPages_inv (by decide) (by decide) (by decide) (by decide))
    (by decide)).mpr fun _ => by decide⟩

theorem sbrk_last_page : Inv 2 (twoPages 0xFFFFF000 0xFFFFE000) ∧ breakAfter
    (twoPages 0xFFFFF000 0xFFFFE000).heap [1] = 0xFFFFF001 ∧
    sbrks 2 (twoPages 0xFFFFF000 0xFFFFE000) [1] = none ∧
      ∀ fuel, grow 2 fuel { twoPages 0xFFFFF000 0xFFFFE000 with heap := 0xFFFFF001 } = none := by
  have hinv : Inv 2 (twoPages 0xFFFFF000 0xFFFFE000) :=
    twoPages_inv (by decide) (by decide) (by decide) (by decide)
  refine ⟨hinv, by decide, sbrks_endless [1] hinv (by simp) (by decide) (by decide), fun fuel => ?_⟩
  exact grow_endless fuel hinv.actual_lt hinv.aligned (show 0xFFFFF000 < 0xFFFFF001 by decide)

end Brk

end ChiffOS.Task
