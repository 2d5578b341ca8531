import ChiffOS.Heap.BigOps
import Mathlib.Data.Nat.Size

/-! Runs of `klmalloc`, `klvalloc`, `klcalloc` and `klfree`, with writes of the owners to their
blocks in between. The live blocks stay apart from each other and from everything the allocator
keeps in memory. -/

namespace ChiffOS.Heap

open Function Option

/-- A block that was given out and not freed: its pointer, the requested size and whether it comes
from `klvalloc`. -/
structure Live where
  ptr : ℕ
  size : ℕ
  paged : Bool
deriving DecidableEq

def Holds (a : ℕ) (l : Live) : Block → Prop
  | .small b free => IsCell a b l.ptr ∧ l.ptr ∉ free ∧ l.size ≤ 2 ^ (b + 2) ∧ l.paged = false
  | .big s owner => owner = some l.ptr ∧ l.ptr + l.size ≤ a + 48 + s ∧ (l.paged = true → l.ptr = a + 4096)

structure Lives (M : ℕ → Option Block) (live : List Live) : Prop where
  home : ∀ l ∈ live, ∃ a k, M a = some k ∧ Holds a l k
  nodup : (live.map Live.ptr).Nodup

variable {start a n : ℕ} {h h' : Heap} {M : ℕ → Option Block} {k : Block} {l l' : Live} {live : List Live}

/-! ### Homes -/

theorem headerOf_in {p : ℕ} (ha : a % 4096 = 0) (h1 : a < p) (h2 : p ≤ a + 4096) : headerOf p = a := by
  unfold headerOf pageSize
  split_ifs <;> omega

/-- `klfree` finds the header of the very block it is given. -/
theorem Inv.headerOf_home (I : Inv start h M) (hk : M a = some k) (hl : Holds a l k) : headerOf l.ptr =
    a := by
  have hal := I.aligned hk
  cases k with
  | small b free =>
    have := hl.1.bounds
    have := four_le_cell b
    exact headerOf_in hal (by omega) (by omega)
  | big s owner =>
    rcases ((I.big hk).owned l.ptr hl.1).2 with h1 | h1
    · exact headerOf_in hal (by omega) (by omega)
    · exact headerOf_in hal (by omega) (by omega)

theorem Inv.home_bounds (I : Inv start h M) (hk : M a = some k) (hl : Holds a l k) :
    a + 16 ≤ l.ptr ∧ l.ptr + l.size ≤ a + k.len := by
  cases k with
  | small b free =>
    have := hl.1.bounds
    have := hl.2.2.1
    simp only [Block.len]
    omega
  | big s owner =>
    have := hl.2.1
    simp only [Block.len]
    rcases ((I.big hk).owned l.ptr hl.1).2 with h1 | h1 <;> omega

theorem Inv.home_meta (I : Inv start h M) (hk : M a = some k) (hl : Holds a l k) {x : ℕ} (h1 : l.ptr ≤ x)
    (h2 : x < l.ptr + l.size) : ¬ k.MetaAt a x := by
  cases k with
  | small b free =>
    have hb := hl.1.bounds
    have hsz := hl.2.2.1
    have h4 := four_le_cell b
    rintro (hx | ⟨c, hc, hx⟩)
    · omega
    · have := ((I.small hk).cells c hc).apart hl.1 fun he => hl.2.1 (he ▸ hc)
      omega
  | big s owner =>
    have hown := ((I.big hk).owned l.ptr hl.1).2
    rintro (hx | ⟨hx, -⟩)
    · omega
    · rw [hl.1] at hx
      simp at hx

/-- A live block holds no byte of the allocator. -/
theorem Inv.live_not_meta (I : Inv start h M) (L : Lives M live) (hl : l ∈ live) {x : ℕ} (h1 : l.ptr ≤ x)
    (h2 : x < l.ptr + l.size) : ¬ IsMeta M x := by
  obtain ⟨a, k, hk, hh⟩ := L.home l hl
  rintro ⟨a', k', hk', hx⟩
  have hb := I.home_bounds hk hh
  have hx' := (I.ok a' k' hk').meta_bounds hx
  have hp := (I.ok a' k' hk').page_le
  by_cases haa : a' = a
  · subst haa
    obtain rfl : k = k' := some.inj (hk.symm.trans hk')
    exact I.home_meta hk hh h1 h2 hx
  · rcases Nat.lt_or_gt_of_ne haa with hlt | hlt
    · have := I.layout.apart a' k' a k hk' hk hlt
      omega
    · have := I.layout.apart a k a' k' hk hk' hlt
      omega

theorem Inv.live_apart (I : Inv start h M) (L : Lives M live) (hl : l ∈ live) (hl' : l' ∈ live)
    (hne : l.ptr ≠ l'.ptr) : l.ptr + l.size ≤ l'.ptr ∨ l'.ptr + l'.size ≤ l.ptr := by
  obtain ⟨a, k, hk, hh⟩ := L.home l hl
  obtain ⟨a', k', hk', hh'⟩ := L.home l' hl'
  have hb := I.home_bounds hk hh
  have hb' := I.home_bounds hk' hh'
  rcases Nat.lt_trichotomy a a' with hlt | rfl | hlt
  · have := I.layout.apart a k a' k' hk hk' hlt
    omega
  · obtain rfl : k = k' := some.inj (hk.symm.trans hk')
    cases k with
    | small b free =>
      have := hh.1.apart hh'.1 hne
      have := hh.2.2.1
      have := hh'.2.2.1
      omega
    | big s owner => exact absurd (some.inj (hh.1.symm.trans hh'.1)) hne
  · have := I.layout.apart a' k' a k hk' hk hlt
    omega

/-! ### Live blocks under the operations -/

/-- A block gives out a part of itself that was free. -/
theorem Lives.add (I : Inv start h M) (L : Lives M live) {k' : Block}
    (hold : ∀ l' ∈ live, ∀ k, M a = some k → Holds a l' k → Holds a l' k' ∧ l'.ptr ≠ l.ptr)
    (hhead : headerOf l.ptr = a) (hnew : Holds a l k') : Lives (update M a (some k')) (l :: live) := by
  refine ⟨?_, List.nodup_cons.mpr ⟨?_, L.nodup⟩⟩
  · intro l' hl'
    rcases List.mem_cons.mp hl' with rfl | hl'
    · exact ⟨a, k', update_self .., hnew⟩
    · obtain ⟨a', j, hj, hh⟩ := L.home l' hl'
      by_cases haa : a' = a
      · subst haa
        exact ⟨a', k', update_self .., (hold l' hl' j hj hh).1⟩
      · exact ⟨a', j, by rw [update_of_ne haa, hj], hh⟩
  · intro hm
    obtain ⟨l', hl', he⟩ := List.mem_map.mp hm
    obtain ⟨a', j, hj, hh⟩ := L.home l' hl'
    obtain rfl : a' = a := (I.headerOf_home hj hh).symm.trans (he ▸ hhead)
    exact (hold l' hl' j hj hh).2 he

theorem Lives.remove (L : Lives M live) {k' : Block} (hk : M a = some k)
    (hold : ∀ l', l'.ptr ≠ l.ptr → Holds a l' k → Holds a l' k') :
    Lives (update M a (some k')) (live.filter (·.ptr ≠ l.ptr)) := by
  refine ⟨fun l' hl' => ?_, L.nodup.sublist (List.filter_sublist.map _)⟩
  obtain ⟨hl1, hl2⟩ := List.mem_filter.mp hl'
  obtain ⟨a', j, hj, hh'⟩ := L.home l' hl1
  by_cases haa : a' = a
  · subst haa
    obtain rfl : j = k := some.inj (hj.symm.trans hk)
    exact ⟨a', k', update_self .., hold l' (by simpa using hl2) hh'⟩
  · exact ⟨a', j, by rw [update_of_ne haa, hj], hh'⟩

/-! ### Sizes -/

theorem size_le_of_and_eq_zero {m : ℕ} (hand : n &&& (n - 1) = 0) (hm : n < 2 ^ (m + 1)) : n ≤ 2 ^ m := by
  by_contra hlt
  have hbit : ∀ i, 2 ^ m ≤ i → i < 2 ^ (m + 1) → i.testBit m = true := by
    intro i h1 h2
    have hdiv : i / 2 ^ m = 1 := Nat.div_eq_of_lt_le (by omega) (by rw [pow_succ] at h2; omega)
    rw [Nat.testBit_eq_decide_div_mod_eq, hdiv]
    rfl
  have := congrArg (·.testBit m) hand
  simp [hbit n (by omega) hm, hbit (n - 1) (by omega) (by omega)] at this

theorem le_of_binSize (h0 : n ≠ 0) (hb : binSize n < bigBin) : n ≤ 2 ^ (binSize n + 2) := by
  have hlt := Nat.lt_size_self n
  unfold binSize adjustBin smallestBinLog bigBin at *
  obtain ⟨m, hm⟩ : ∃ m, n.size = m + 1 :=
    ⟨n.size - 1, by have := Nat.size_pos.mpr (Nat.pos_of_ne_zero h0); omega⟩
  rw [hm] at hlt hb ⊢
  by_cases hand : n &&& (n - 1) ≠ 0
  · rw [if_pos hand] at hb ⊢
    split_ifs at hb ⊢ with h1 h2
    · exact hlt.le.trans (Nat.pow_le_pow_right (by omega) (by omega))
    · omega
    · exact hlt.le.trans (Nat.pow_le_pow_right (by omega) (by omega))
  · rw [if_neg hand] at hb ⊢
    have hle := size_le_of_and_eq_zero (not_not.mp hand) hlt
    split_ifs at hb ⊢ with h1 h2
    · exact hle.trans (Nat.pow_le_pow_right (by omega) (by omega))
    · omega
    · exact hle.trans (Nat.pow_le_pow_right (by omega) (by omega))

theorem not_small (hn : 2048 < n) : ¬ binSize n < bigBin := by
  intro hb
  have h1 := le_of_binSize (by omega) hb
  have h2 : 2 ^ (binSize n + 2) ≤ 2 ^ 11 :=
    Nat.pow_le_pow_right (by omega) (by simp only [bigBin] at hb; omega)
  omega

/-! ### The operations -/

/-- What `klmalloc(n)` asks `sbrk` for, as a number without wrap. -/
def growth (h : Heap) (n : ℕ) : ℕ :=
  if n = 0 then 0
  else if binSize n < bigBin then if h.binHead (binSize n) = 0 then 4096 else 0
  else if h.skipListFindbest n = some none then bigLen n else 0

def Fresh (h : Heap) (M : ℕ → Option Block) (x : ℕ) : Prop := h.heapEnd ≤ x ∨ IsMeta M x

theorem klmallocBig_spec (I : Inv start h M) (h0 : n ≠ 0) (hnot : ¬ binSize n < bigBin)
    (hroom : h.heapEnd + h.growth n < kernelHeapEnd) :
    ∃ a s h', h.klmalloc n = some (a + 48, h') ∧ n ≤ s ∧ a % 4096 = 0 ∧
      (∀ k, M a = some k → k = .big s none) ∧
      (∀ p, p = a + 48 ∨ p = a + 4096 → Inv start h' (update M a (some (.big s (some p))))) ∧
      SameOff (Fresh h M) h h' := by
  have hkl : h.klmalloc n = h.klmallocBig n := by
    rw [klmalloc, if_neg h0, if_neg hnot]
  obtain ⟨xs, R, -, -, hlen⟩ := I.skipNodes
  rcases skipListFindbest_spec R hlen n with ⟨hf, -⟩ | ⟨A, v, lv, B, -, hf, -⟩
  · rw [growth, if_neg h0, if_neg hnot, if_pos hf] at hroom
    obtain ⟨s, h', h1, h2, h3, h4, -⟩ := newBig_spec I hroom
    refine ⟨h.heapEnd, s, h', ?_, h2, I.stop_aligned, fun k hk => ?_, h3, h4⟩
    · simp [hkl, klmallocBig, hf, h1]
    · rw [I.fresh] at hk
      simp at hk
  · obtain ⟨s, h', hk, h2, h3, h4, h5, -⟩ := takeBig_spec I hf
    exact ⟨v, s, h', hkl.trans h3, h2, I.aligned hk, fun k hk' => some.inj (hk'.symm.trans hk), h4,
      h5.mono fun x hx => .inr hx⟩

theorem Lives.addBig (I : Inv start h M) (L : Lives M live) {s : ℕ} (hal : a % 4096 = 0)
    (hfree : ∀ k, M a = some k → k = .big s none) (hp : l.ptr = a + 48 ∨ l.ptr = a + 4096)
    (hsize : l.ptr + l.size ≤ a + 48 + s) (hpaged : l.paged = true → l.ptr = a + 4096) :
    Lives (update M a (some (.big s (some l.ptr)))) (l :: live) := by
  refine L.add I (fun l' _ k hk hh => ?_) ?_ ⟨rfl, hsize, hpaged⟩
  · rw [hfree k hk] at hh
    exact absurd hh.1 (by simp)
  · rcases hp with hp | hp
    · exact headerOf_in hal (by omega) (by omega)
    · exact headerOf_in hal (by omega) (by omega)

theorem takeCell_live {c : ℕ} {t : List ℕ} (I : Inv start h M) (L : Lives M live) (h0 : n ≠ 0)
    (hb : binSize n < bigBin)
    (hk : M a = some (.small (binSize n) (c :: t))) (ha : h.binHead (binSize n) = a) :
    ∃ h', h.takeCell (binSize n) a = (c, h') ∧ c ≠ 0 ∧
      Inv start h' (update M a (some (.small (binSize n) t))) ∧
      Lives (update M a (some (.small (binSize n) t))) (⟨c, n, false⟩ :: live) ∧ SameOff (IsMeta M) h h' := by
  obtain ⟨h', e1, e2, e3, -⟩ := takeCell_spec I hk ha
  have S := I.small hk
  have hc := S.cells c List.mem_cons_self
  have hcb := hc.bounds
  have h4 := four_le_cell (binSize n)
  obtain ⟨hct, -⟩ := List.nodup_cons.mp S.nodup
  refine ⟨h', e1, by omega, e2, L.add I (fun l' _ k hk' hh => ?_) ?_ ?_, e3⟩
  · obtain rfl : k = _ := some.inj (hk'.symm.trans hk)
    obtain ⟨h1, h2, h3, h4⟩ := hh
    rw [List.mem_cons, not_or] at h2
    exact ⟨⟨h1, h2.2, h3, h4⟩, h2.1⟩
  · exact headerOf_in (I.aligned hk) (by simp only; omega) (by simp only; omega)
  · exact ⟨hc, hct, le_of_binSize h0 hb, rfl⟩

theorem Lives.grow (I : Inv start h M) (L : Lives M live) (k : Block) : Lives
    (update M h.heapEnd (some k)) live := by
  refine ⟨fun l hl => ?_, L.nodup⟩
  obtain ⟨a, k', hk, hh⟩ := L.home l hl
  refine ⟨a, k', ?_, hh⟩
  rw [update_of_ne, hk]
  rintro rfl
  rw [I.fresh] at hk
  simp at hk

theorem allCells_cons {b : ℕ} (hb : b < bigBin) (a : ℕ) : ∃ c t, allCells a b = c :: t := by
  obtain ⟨m, hm⟩ : ∃ m, cellCount b = m + 1 := ⟨cellCount b - 1, by have := cellCount_pos hb; omega⟩
  exact ⟨_, _, by rw [allCells, hm, List.range'_succ, List.map_cons]⟩

theorem Inv.head_bin (I : Inv start h M) {b : ℕ} (hb : b < bigBin) (hbin : h.binHead b ≠ 0) :
    ∃ c t, M (h.binHead b) = some (.small b (c :: t)) := by
  obtain ⟨ls, hl1, -, hl3⟩ := I.bins b hb
  exact (hl3 _).mp (List.mem_of_mem_head? (hl1.head ▸ ptr_of_ne hbin))

theorem klmallocSmall_spec (I : Inv start h M) (L : Lives M live) (h0 : n ≠ 0) (hb : binSize n < bigBin)
    (hroom : h.heapEnd + h.growth n < kernelHeapEnd) :
    ∃ p h' M', h.klmalloc n = some (p, h') ∧ p ≠ 0 ∧ Inv start h' M' ∧ Lives M' (⟨p, n, false⟩ :: live) ∧
      SameOff (Fresh h M) h h' := by
  have hkl : h.klmalloc n = some (h.klmallocSmall (binSize n)) := by
    rw [klmalloc, if_neg h0, if_pos hb]
  rw [growth, if_neg h0, if_pos hb] at hroom
  by_cases hbin : h.binHead (binSize n) = 0
  · rw [if_pos hbin] at hroom
    obtain ⟨h1, e1, e2, e3, e4, e5⟩ := newBin_spec I hb hbin hroom
    obtain ⟨c, t, hct⟩ := allCells_cons hb h.heapEnd
    obtain ⟨h', f1, f2, f3, f4, f5⟩ := takeCell_live e2 (L.grow I _) h0 hb (by rw [update_self, hct]) e5
    refine ⟨c, h', _, ?_, f2, f3, f4, (e3.mono fun x hx => .inl hx.1).trans (f5.mono ?_)⟩
    · rw [hkl, klmallocSmall, if_pos hbin, e1]
      exact congrArg some f1
    · rintro x ⟨a, k, hk, hx⟩
      by_cases ha : a = h.heapEnd
      · have := (e2.ok a k hk).meta_bounds hx
        exact .inl (by omega)
      · rw [update_of_ne ha] at hk
        exact .inr ⟨a, k, hk, hx⟩
  · obtain ⟨c, t, hk⟩ := I.head_bin hb hbin
    obtain ⟨h', f1, f2, f3, f4, f5⟩ := takeCell_live I L h0 hb hk rfl
    refine ⟨c, h', _, ?_, f2, f3, f4, f5.mono fun x hx => .inr hx⟩
    rw [hkl, klmallocSmall, if_neg hbin]
    exact congrArg some f1

theorem klmalloc_spec (I : Inv start h M) (L : Lives M live) (h0 : n ≠ 0)
    (hroom : h.heapEnd + h.growth n < kernelHeapEnd) :
    ∃ p h' M', h.klmalloc n = some (p, h') ∧ p ≠ 0 ∧ Inv start h' M' ∧ Lives M' (⟨p, n, false⟩ :: live) ∧
      SameOff (Fresh h M) h h' := by
  by_cases hb : binSize n < bigBin
  · exact klmallocSmall_spec I L h0 hb hroom
  · obtain ⟨a, s, h', h1, h2, h3, h4, h5, h6⟩ := klmallocBig_spec I h0 hb hroom
    have L' := L.addBig (l := ⟨a + 48, n, false⟩) I h3 h4 (.inl rfl) (by dsimp only; omega) (by simp)
    exact ⟨a + 48, h', _, h1, by omega, h5 _ (.inl rfl), L', h6⟩

theorem klvalloc_spec (I : Inv start h M) (L : Lives M live) (hn : n + 4048 < 2 ^ 32)
    (hroom : h.heapEnd + h.growth (n + 4048) < kernelHeapEnd) :
    ∃ p h' M', h.klvalloc n = some (p, h') ∧ p ≠ 0 ∧ p % 4096 = 0 ∧ Inv start h' M' ∧
      Lives M' (⟨p, n, true⟩ :: live) ∧ SameOff (Fresh h M) h h' := by
  obtain ⟨a, s, h', h1, h2, h3, h4, h5, h6⟩ := klmallocBig_spec I (by omega) (not_small (by omega)) hroom
  have I' := h5 (a + 4096) (.inr rfl)
  have ha : a + 4096 ≤ h'.heapEnd := I'.lt_stop (update_self ..)
  have hlt := I'.stop_lt
  simp only [kernelHeapEnd] at hlt
  have L' := L.addBig (l := ⟨a + 4096, n, true⟩) I h3 h4 (.inr rfl) (by dsimp only; omega) fun _ => rfl
  refine ⟨a + 4096, h', _, ?_, by omega, by omega, I', L', h6⟩
  have h7 : (n + pageSize - 48) % 2 ^ 32 = n + 4048 := by
    rw [pageSize, Nat.mod_eq_of_lt (by omega)]
    omega
  have h8 : (a + 48 + (pageSize - 48)) % 2 ^ 32 = a + 4096 := by
    rw [pageSize, Nat.mod_eq_of_lt (by omega)]
  simp only [klvalloc, h7, h1, bind_eq_bind, bind_some, h8]

theorem klfree_spec (I : Inv start h M) (L : Lives M live) (hl : l ∈ live) :
    ∃ h' M', h.klfree l.ptr = some h' ∧ Inv start h' M' ∧ Lives M' (live.filter (·.ptr ≠ l.ptr)) ∧
      SameOff (IsMeta M') h h' ∧ h'.heapEnd = h.heapEnd := by
  obtain ⟨a, k, hk, hh⟩ := L.home l hl
  have hb := I.home_bounds hk hh
  have hhead := I.headerOf_home hk hh
  have hp0 : l.ptr ≠ 0 := by omega
  cases k with
  | small b free =>
    have S := I.small hk
    obtain ⟨h1, h2, h3, h4⟩ := hh
    have hcb := h1.bounds
    have hc4 := four_le_cell b
    have hal := I.aligned hk
    obtain ⟨h', e1, e2, e3, e4⟩ := giveCell_spec I hk h1 h2
    refine ⟨h', _, ?_, e2, L.remove hk fun l' hne hl' => ?_, e3, e4⟩
    · have hbk := S.bucket
      simp only [bigBin] at hbk
      have hpage : ¬ l.ptr % pageSize = 0 := by
        rw [pageSize]
        omega
      rw [klfree, if_neg hp0]
      simp only [hhead, S.magic, S.size, ne_eq, not_true_eq_false, if_false, hpage]
      rw [if_neg (by rw [numBins]; omega), e1]
    · obtain ⟨g1, g2, g3, g4⟩ := hl'
      exact ⟨g1, by simp [hne, g2], g3, g4⟩
  | big s owner =>
    have B := I.big hk
    obtain ⟨rfl, h2, h3⟩ := hh
    obtain ⟨h', e1, e2, e3, e4⟩ := giveBig_spec I hk
    refine ⟨h', _, ?_, e2, L.remove hk fun l' hne hl' => ?_, e3, e4⟩
    · have := B.size_ge
      rw [klfree, if_neg hp0]
      simp only [hhead, B.magic, B.size, ne_eq, not_true_eq_false, if_false]
      rw [if_pos (by rw [numBins]; omega), e1]
    · exact absurd (some.inj hl'.1).symm hne

/-- Writes that spare the allocator's bytes keep the invariant. -/
theorem Inv.write (I : Inv start h M) {m : Buf} (hm : ∀ x, IsMeta M x → m x = h.mem x) :
    Inv start { h with mem := m } M := by
  have hw : ∀ {a k x}, M a = some k → (∀ y, x ≤ y → y < x + 4 → k.MetaAt a y) → { h with mem := m }.word x =
    h.word x :=
    fun {a k x} hk hx => Buf.u32_congr fun y h1 h2 => hm y ⟨a, k, hk, hx y h1 h2⟩
  refine ⟨I.start_pos, I.start_le, I.stop_aligned, I.stop_lt, I.layout, fun a k hk => ?_, fun b hb => ?_, ?_,
    I.newest⟩
  · refine (I.ok a k hk).congr fun x hx => hw hk fun y h1 h2 => ?_
    cases k with
    | small b free =>
      rcases hx with rfl | rfl | rfl | hx
      · exact .inl ⟨by omega, by omega⟩
      · exact .inl ⟨by omega, by omega⟩
      · exact .inl ⟨by omega, by omega⟩
      · exact .inr ⟨x, hx, h1, h2⟩
    | big s owner =>
      rcases hx with rfl | rfl | rfl | ⟨ho, rfl⟩
      · exact .inl ⟨by omega, by omega⟩
      · exact .inl ⟨by omega, by omega⟩
      · exact .inl ⟨by omega, by omega⟩
      · exact .inr ⟨ho, h1, by omega⟩
  · refine (I.bins b hb).frame rfl (fun a c t ha => hw ha fun y h1 h2 => .inl ⟨h1, by omega⟩) fun a => Iff.rfl
  · refine I.skip.frame rfl rfl (fun a s ha => ⟨hw ha fun y h1 h2 => .inl ⟨by omega, by omega⟩, fun i hi =>
      ?_⟩)
      fun a => Iff.rfl
    exact hw ha fun y h1 h2 => .inl ⟨by omega, by omega⟩

theorem Inv.write_live (I : Inv start h M) (L : Lives M live) (hl : l ∈ live) {m : Buf}
    (hm : ∀ x, ¬ (l.ptr ≤ x ∧ x < l.ptr + l.size) → m x = h.mem x) : Inv start { h with mem := m } M :=
  I.write fun x hx => hm x fun hc => I.live_not_meta L hl hc.1 hc.2 hx

theorem klcalloc_spec {m : ℕ} (I : Inv start h M) (L : Lives M live) (h0 : m * n ≠ 0) (hmn : m * n < 2 ^ 32)
    (hroom : h.heapEnd + h.growth (m * n) < kernelHeapEnd) :
    ∃ p h' M', h.klcalloc m n = some (p, h') ∧ p ≠ 0 ∧ Inv start h' M' ∧
      Lives M' (⟨p, m * n, false⟩ :: live) := by
  obtain ⟨p, h1, M', e1, e2, e3, e4, -⟩ := klmalloc_spec I L h0 hroom
  refine ⟨p, { h1 with mem := h1.mem.clear p (m * n) }, M', ?_, e2, ?_, e4⟩
  · simp only [klcalloc, Nat.mod_eq_of_lt hmn, e1, bind_eq_bind, bind_some]
    rw [if_pos e2]
  · refine e3.write_live e4 List.mem_cons_self fun x hx => Buf.blit_out ?_
    simp only at hx
    omega

end ChiffOS.Heap
