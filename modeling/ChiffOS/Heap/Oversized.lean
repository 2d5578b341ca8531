import ChiffOS.Heap.Runs

/-! Requests of any size. The sums of the sizes wrap, so that a caller may get a pointer to a block that is
too short. A request that passes the end of the heap does not come back: there are no page tables behind it,
and the handler of the page fault loops. -/

namespace ChiffOS.Heap

variable {start n allocPoint : ℕ} {h h' : Heap} {M : ℕ → Option Block} {l : Live}

/-- What `klmalloc(n)` passes to `sbrk`. -/
def asked (h : Heap) (n : ℕ) : ℕ := h.growth n % 2 ^ 32

/-- `klmalloc(n)` returns: the pages it asks for are below `KERNEL_HEAP_END`, and where the request for them
has wrapped to 0, the page at `heap_end` that is written to is mapped already, as those below
`kernel_heap_alloc_point` are. -/
def Returns (allocPoint : ℕ) (h : Heap) (n : ℕ) : Prop :=
  h.growth n ≠ 0 → h.heapEnd + h.asked n ≤ kernelHeapEnd ∧ (h.asked n = 0 → h.heapEnd < allocPoint)

instance (allocPoint : ℕ) (h : Heap) (n : ℕ) : Decidable (Returns allocPoint h n) :=
  inferInstanceAs (Decidable (_ → _))

/-- `klcalloc` clears what it was asked for, and nearly 4 GiB are not mapped. -/
def CallocReturns (allocPoint : ℕ) (h : Heap) (n : ℕ) : Prop := Returns allocPoint h n ∧ n + 4144 < 2 ^ 32

instance (allocPoint : ℕ) (h : Heap) (n : ℕ) : Decidable (CallocReturns allocPoint h n) :=
  inferInstanceAs (Decidable (_ ∧ _))

def Backs (start : ℕ) (h : Heap) (l : Live) : Prop := ∃ M, Inv start h M ∧ ∃ a k, M a = some k ∧ Holds a l k

/-- The bytes of `l` are in a block of a sound heap, or they are new. -/
def Usable (start : ℕ) (h h' : Heap) (l : Live) : Prop :=
  Backs start h' l ∨ h.heapEnd ≤ l.ptr ∧ l.ptr + l.size ≤ h'.heapEnd ∧ h'.heapEnd ≤ kernelHeapEnd

/-- If the call returns a pointer that is not `NULL`, then to `n` bytes that can be used. -/
def Supplied (start n : ℕ) (paged : Bool) (h : Heap) (returns : Prop) (r : Option (ℕ × Heap)) : Prop :=
  returns → ∀ p h', r = some (p, h') → p ≠ 0 → Usable start h h' ⟨p, n, paged⟩

theorem Usable.bounds (hu : Usable start h h' l) : l.ptr + l.size ≤ kernelHeapEnd := by
  obtain ⟨M, I, a, k, hk, hh⟩ | ⟨-, h1, h2⟩ := hu
  · have hhome := I.home_bounds hk hh
    have hstop := I.layout.le_stop a k hk
    have hlt := I.stop_lt
    omega
  · omega

theorem newBin_first (hb : h.heapEnd + 16 < 2 ^ 32) (bucket : ℕ) :
    (h.newBin bucket).2.word (h.heapEnd + 4) = h.heapEnd + 16 ∧
      (h.newBin bucket).2.heapEnd = (h.heapEnd + 4096) % 2 ^ 32 := by
  constructor
  · simp only [newBin, sbrk, listInsert]
    rw [word_setWord_ne (by omega), word_setWord_ne (by omega), initStack_below (by omega)]
    change Heap.word (Heap.setWord _ _ _) _ = _
    rw [word_setWord_ne (by omega), word_setWord_self hb]
  · simp [newBin, sbrk, listInsert, pageSize]

/-- A block of new pages begins behind the old end, and would have room if nothing had wrapped. -/
theorem klmalloc_grown (I : Inv start h M) (hg : h.growth n ≠ 0) :
    ∃ p h', h.klmalloc n = some (p, h') ∧ h.heapEnd < p ∧ p ≤ h.heapEnd + 48 ∧
      p + n ≤ h.heapEnd + h.growth n ∧
      h'.heapEnd = (h.heapEnd + h.asked n) % 2 ^ 32 := by
  have hstop := I.stop_lt
  simp only [asked, growth, kernelHeapEnd] at *
  split_ifs at hg ⊢ with h0 hb hbin hfind
  all_goals try exact absurd rfl hg
  · obtain ⟨hitem, hend⟩ := newBin_first (h := h) (by omega) (binSize n)
    have hheader : (h.newBin (binSize n)).1 = h.heapEnd := rfl
    have hn := le_of_binSize h0 hb
    have hcell : 2 ^ (binSize n + 2) ≤ 2 ^ 11 :=
      Nat.pow_le_pow_right (by omega) (by simp only [bigBin] at hb; omega)
    refine ⟨_, _, by rw [klmalloc, if_neg h0, if_pos hb], ?_⟩
    rw [klmallocSmall, if_pos hbin]
    simp only [takeCell, stackPop, hheader, hitem]
    refine ⟨by omega, by omega, by omega, ?_⟩
    split_ifs <;> simp only [listDecouple, setWord_heapEnd, hend] <;> omega
  · refine ⟨_, _, by rw [klmalloc, if_neg h0, if_neg hb, klmallocBig, hfind]; rfl, ?_⟩
    simp only [setWord_heapEnd, (linkNewest_fields _ _).1, bigPages, bigLen, pageSize] at *
    exact ⟨by omega, by omega, by omega, by omega⟩

theorem Lives.nil (M : ℕ → Option Block) : Lives M [] := ⟨by simp, by simp⟩

theorem klmalloc_returns (I : Inv start h M) (h0 : n ≠ 0) :
    ∃ p h', h.klmalloc n = some (p, h') ∧ 0 < p ∧ p ≤ kernelHeapEnd + 48 := by
  have hstop := I.stop_lt
  by_cases hg : h.growth n = 0
  · obtain ⟨p, h', M', hrun, hp, I', L', -⟩ := klmalloc_spec I (Lives.nil M) h0 (by omega)
    have hb := Usable.bounds (h := h) (.inl ⟨M', I', L'.home _ List.mem_cons_self⟩)
    simp only at hb
    exact ⟨p, h', hrun, by omega, by omega⟩
  · obtain ⟨p, h', hrun, hlt, hle, -⟩ := klmalloc_grown I hg
    exact ⟨p, h', hrun, by omega, by omega⟩

/-- Without a wrap the heap grows by what was asked for. -/
theorem growth_eq_asked (hn : n + 4144 < 2 ^ 32) : h.asked n = h.growth n := by
  apply Nat.mod_eq_of_lt
  unfold growth bigLen
  split_ifs <;> omega

theorem klmalloc_last (I : Inv start h M) (hn : n + 4144 < 2 ^ 32) (hret : Returns allocPoint h n)
    (hfull : ¬ h.heapEnd + h.growth n < kernelHeapEnd) :
    ∃ p h', h.klmalloc n = some (p, h') ∧ h.heapEnd < p ∧ p + n ≤ h'.heapEnd ∧ h'.heapEnd = kernelHeapEnd ∧
      p ≤ kernelHeapEnd := by
  have hstop := I.stop_lt
  have hg : h.growth n ≠ 0 := by omega
  have hle := (hret hg).1
  rw [growth_eq_asked hn] at hle
  obtain ⟨p, h', hrun, hlt, hp, hroom, hend⟩ := klmalloc_grown I hg
  rw [growth_eq_asked hn, Nat.mod_eq_of_lt (by simp only [kernelHeapEnd] at hle; omega)] at hend
  exact ⟨p, h', hrun, hlt, by omega, by omega, by omega⟩

section Calls

variable (I : Inv start h M)
include I

theorem klmalloc_supplied (hn : n < 2 ^ 32) :
    Supplied start n false h (Returns allocPoint h n) (h.klmalloc n) ↔
      (Returns allocPoint h n → n + 4144 < 2 ^ 32) := by
  have hend : kernelHeapEnd = 0x20000000 := rfl
  constructor
  · intro hs hret
    by_contra hwrap
    obtain ⟨p, h', hrun, hp, -⟩ := klmalloc_returns I (n := n) (by omega)
    have hb := (hs hret p h' hrun hp.ne').bounds
    simp only at hb
    omega
  · intro hnowrap hret p h' hrun hp
    by_cases hroom : h.heapEnd + h.growth n < kernelHeapEnd
    · by_cases h0 : n = 0
      · rw [klmalloc, if_pos h0] at hrun
        exact absurd (Prod.mk.inj (Option.some.inj hrun)).1.symm hp
      · obtain ⟨q, g, M', hrun', -, I', L', -⟩ := klmalloc_spec I (Lives.nil M) h0 hroom
        obtain ⟨rfl, rfl⟩ := Prod.mk.inj (Option.some.inj (hrun'.symm.trans hrun))
        exact .inl ⟨M', I', L'.home _ List.mem_cons_self⟩
    · obtain ⟨q, g, hrun', hlt, hbytes, hstop, -⟩ := klmalloc_last I (hnowrap hret) hret hroom
      obtain ⟨rfl, rfl⟩ := Prod.mk.inj (Option.some.inj (hrun'.symm.trans hrun))
      exact .inr ⟨hlt.le, hbytes, hstop.le⟩

theorem klvalloc_supplied (hn : n < 2 ^ 32) :
    Supplied start n true h (Returns allocPoint h ((n + 4048) % 2 ^ 32)) (h.klvalloc n) ↔
      (Returns allocPoint h ((n + 4048) % 2 ^ 32) → n + 8192 < 2 ^ 32) := by
  have hend : kernelHeapEnd = 0x20000000 := rfl
  have hval : ∀ p h', h.klmalloc ((n + 4048) % 2 ^ 32) = some (p, h') → p ≤ kernelHeapEnd + 48 →
      h.klvalloc n = some (p + 4048, h') := by
    intro p h' hrun hle
    rw [klvalloc, show n + pageSize - 48 = n + 4048 by simp only [pageSize]; omega, hrun]
    simp only [Option.bind_eq_bind, Option.bind_some, pageSize]
    rw [Nat.mod_eq_of_lt (by omega)]
  constructor
  · intro hs hret
    by_contra hwrap
    obtain ⟨p, h', hrun, hle⟩ : ∃ p h', h.klmalloc ((n + 4048) % 2 ^ 32) = some (p, h') ∧
      p ≤ kernelHeapEnd + 48 := by
      by_cases h0 : (n + 4048) % 2 ^ 32 = 0
      · exact ⟨0, h, by rw [klmalloc, if_pos h0], by omega⟩
      · obtain ⟨p, h', hrun, -, hle⟩ := klmalloc_returns I h0
        exact ⟨p, h', hrun, hle⟩
    have hb := (hs hret _ h' (hval p h' hrun hle) (by omega)).bounds
    simp only at hb
    omega
  · intro hnowrap hret p h' hrun _
    have hlt := hnowrap hret
    rw [Nat.mod_eq_of_lt (by omega)] at hret hval
    by_cases hroom : h.heapEnd + h.growth (n + 4048) < kernelHeapEnd
    · obtain ⟨q, g, M', hrun', -, -, I', L', -⟩ := klvalloc_spec I (Lives.nil M) (by omega) hroom
      obtain ⟨rfl, rfl⟩ := Prod.mk.inj (Option.some.inj (hrun'.symm.trans hrun))
      exact .inl ⟨M', I', L'.home _ List.mem_cons_self⟩
    · obtain ⟨q, g, hrun', hq, hbytes, hstop, hle⟩ := klmalloc_last I (by omega) hret hroom
      obtain ⟨rfl, rfl⟩ := Prod.mk.inj (Option.some.inj ((hval q g hrun' (by omega)).symm.trans hrun))
      exact .inr ⟨by dsimp only; omega, by dsimp only; omega, hstop.le⟩

/-- A product that is a multiple of `2^32` is no request at all, and gives `NULL`. -/
theorem klcalloc_supplied (nmemb size : ℕ) :
    Supplied start (nmemb * size) false h (CallocReturns allocPoint h (nmemb * size % 2 ^ 32))
        (h.klcalloc nmemb size) ↔
      (CallocReturns allocPoint h (nmemb * size % 2 ^ 32) →
        nmemb * size % 2 ^ 32 = 0 ∨ nmemb * size < 2 ^ 32) := by
  have hcal : ∀ p h', h.klmalloc (nmemb * size % 2 ^ 32) = some (p, h') → p ≠ 0 →
      h.klcalloc nmemb size = some (p, { h' with mem := h'.mem.clear p (nmemb * size % 2 ^ 32) }) := by
    intro p h' hrun hp
    rw [klcalloc, hrun]
    simp only [Option.bind_eq_bind, Option.bind_some]
    rw [if_pos hp]
  constructor
  · intro hs hret
    by_contra hcase
    obtain ⟨h0, hbig⟩ := not_or.mp hcase
    obtain ⟨p, h', hrun, hp, -⟩ := klmalloc_returns I h0
    have hb := (hs hret p _ (hcal p h' hrun hp.ne') hp.ne').bounds
    simp only [kernelHeapEnd] at hb
    omega
  · intro hcase hret p h' hrun hp
    by_cases h0 : nmemb * size % 2 ^ 32 = 0
    · rw [klcalloc, klmalloc, if_pos h0] at hrun
      exact absurd (Prod.mk.inj (Option.some.inj hrun)).1.symm hp
    · have hlt := (hcase hret).resolve_left h0
      rw [Nat.mod_eq_of_lt hlt] at h0 hret hcal
      by_cases hroom : h.heapEnd + h.growth (nmemb * size) < kernelHeapEnd
      · obtain ⟨q, g, M', hrun', -, I', L'⟩ := klcalloc_spec I (Lives.nil M) h0 hlt hroom
        obtain ⟨rfl, rfl⟩ := Prod.mk.inj (Option.some.inj (hrun'.symm.trans hrun))
        exact .inl ⟨M', I', L'.home _ List.mem_cons_self⟩
      · obtain ⟨q, g, hrun', hq, hbytes, hstop, -⟩ := klmalloc_last I hret.2 hret.1 hroom
        obtain ⟨rfl, rfl⟩ := Prod.mk.inj (Option.some.inj ((hcal q g hrun' (by omega)).symm.trans hrun))
        exact .inr ⟨hq.le, hbytes, hstop.le⟩

end Calls

end ChiffOS.Heap
