import ChiffOS.Heap.Runs

/-! `klrealloc` of a block from `malloc`. Such a block is page aligned and its header lies in the page
before it, but `klrealloc` looks for the old size in the page of the pointer, which is the caller's
own data. What that word holds decides whether the contents survive. -/

namespace ChiffOS.Heap

variable {start p s n : ℕ} {h : Heap} {st : St}

/-- `realloc` did its work: the block it returns has room for `n` bytes in the place of the old one,
and starts with the old contents. -/
def Reallocated (start kernelEnd : ℕ) (st : St) (p s n : ℕ) : Prop :=
  ∃ q h' paged, st.heap.klrealloc kernelEnd p n = some (q, h') ∧
    St.Good start ⟨h', ⟨q, n, paged⟩ :: st.live.filter (·.ptr ≠ p)⟩ ∧
    ∀ i < min s n, h'.mem (q + i) = st.heap.mem (p + i)

/-- With an old size that reaches `n` the block itself must have the room, as it is returned as it
is; with a smaller one, it must reach the size of the block. -/
def KeepsContents (h : Heap) (p s n : ℕ) : Prop :=
  if n ≤ h.oldSize p then p + n ≤ headerOf p + 48 + h.size (headerOf p) else s ≤ h.oldSize p

/-- A memory with other contents of the block, but for the word that is taken for the size. -/
def OtherContents (h : Heap) (p s : ℕ) (m : Buf) : Prop :=
  ∀ x, ¬ (p ≤ x ∧ x < p + s) ∨ (p + 8 ≤ x ∧ x < p + 12) → m x = h.mem x

/-- The room of a page-aligned block, in every map of blocks that describes the heap. -/
theorem good_room {paged : Bool} {live : List Live} (hp : p % 4096 = 0)
    (hg : St.Good start ⟨h, ⟨p, n, paged⟩ :: live⟩) : p + n ≤ headerOf p + 48 + h.size (headerOf p) := by
  obtain ⟨M, I, L⟩ := hg
  obtain ⟨a, k, hk, hh⟩ := L.home _ List.mem_cons_self
  have hhead := I.headerOf_home hk hh
  dsimp only at hhead
  rw [hhead]
  cases k with
  | small b free =>
    have h1 := hh.1.bounds
    have h2 := four_le_cell b
    have := I.aligned hk
    simp only at h1
    omega
  | big s owner => exact (I.big hk).size.symm ▸ hh.2.1

theorem good_replace {live : List Live} {l : Live} (hg : St.Good start ⟨h, live⟩) (hl : l ∈ live)
    (hp : l.paged = true)
    (hn : l.ptr + n ≤ headerOf l.ptr + 48 + h.size (headerOf l.ptr)) :
    St.Good start ⟨h, ⟨l.ptr, n, true⟩ :: live.filter (·.ptr ≠ l.ptr)⟩ := by
  obtain ⟨M, I, L⟩ := hg
  obtain ⟨a, k, hk, hh⟩ := L.home l hl
  rw [I.headerOf_home hk hh] at hn
  refine ⟨M, I,
    ⟨fun l' hl' => ?_, List.nodup_cons.mpr ⟨by simp, L.nodup.sublist (List.filter_sublist.map _)⟩⟩⟩
  rcases List.mem_cons.mp hl' with rfl | hl'
  · refine ⟨a, k, hk, ?_⟩
    cases k with
    | small b free => exact absurd hp (by simp [hh.2.2.2])
    | big s owner => exact ⟨hh.1, (I.big hk).size ▸ hn, fun _ => hh.2.2 hp⟩
  · exact L.home l' (List.mem_of_mem_filter hl')

/-- The copying branch: a new block, the first `old` bytes and the release of the old block. -/
theorem klrealloc_copy (hg : St.Good start st) {l : Live} (hl : l ∈ st.live) (hn : n ≠ 0)
    (hroom : st.heap.heapEnd + st.heap.growth n < kernelHeapEnd) (hold : st.heap.oldSize l.ptr < n)
    (kernelEnd : ℕ) :
    ∃ q h1 h', st.heap.klmalloc n = some (q, h1) ∧ st.heap.klrealloc kernelEnd l.ptr n = some (q, h') ∧
      St.Good start ⟨h', ⟨q, n, false⟩ :: st.live.filter (·.ptr ≠ l.ptr)⟩ ∧
      ∀ i < n, h'.mem (q + i) =
        if i < st.heap.oldSize l.ptr then h1.mem (l.ptr + i) else h1.mem (q + i) := by
  obtain ⟨M, I, L⟩ := hg
  obtain ⟨a, k, hk, hh⟩ := L.home l hl
  have hp0 : l.ptr ≠ 0 := by
    have := I.home_bounds hk hh
    omega
  obtain ⟨q, h1, M1, e1, e2, I1, L1, -⟩ := klmalloc_spec I L hn hroom
  set old := st.heap.oldSize l.ptr with hold'
  set h2 : Heap := { h1 with mem := h1.mem.blit q (h1.mem.drop l.ptr) old } with hh2
  have I2 : Inv start h2 M1 := I1.write_live L1 List.mem_cons_self fun x hx => Buf.blit_out (by
    simp only at hx
    omega)
  obtain ⟨h', M', f1, f2, f3, f4, -⟩ := klfree_spec I2 L1 (List.mem_cons_of_mem _ hl)
  have hq : q ≠ l.ptr := fun he =>
    (List.nodup_cons.mp L1.nodup).1 (List.mem_map.mpr ⟨l, hl, he.symm⟩)
  rw [List.filter_cons_of_pos (by simpa using hq)] at f3
  refine ⟨q, h1, h', e1, ?_, ⟨M', f2, f3⟩, fun i hi => ?_⟩
  · rw [klrealloc, if_neg hp0, if_neg hn, if_neg (by omega)]
    simp only [e1, Option.bind_eq_bind, Option.bind_some, if_neg e2, ← hold', ← hh2, f1]
  · have hlive : ¬ IsMeta M' (q + i) :=
      f2.live_not_meta f3 List.mem_cons_self (Nat.le_add_right q i) (Nat.add_lt_add_left hi q)
    refine (f4 _ hlive).trans (?_ : h1.mem.blit q (h1.mem.drop l.ptr) old (q + i) = _)
    split_ifs with hio
    · rw [Buf.blit_in (by omega) (by omega), Buf.drop_apply, Nat.add_sub_cancel_left]
    · exact Buf.blit_out (by omega)

theorem klmalloc_live_bytes (hg : St.Good start st) {l : Live} (hl : l ∈ st.live) (hn : n ≠ 0)
    (hroom : st.heap.heapEnd + st.heap.growth n < kernelHeapEnd) {q : ℕ} {h1 : Heap}
    (hm : st.heap.klmalloc n = some (q, h1)) {i : ℕ} (hi : i < l.size) :
    h1.mem (l.ptr + i) = st.heap.mem (l.ptr + i) := by
  obtain ⟨M, I, L⟩ := hg
  obtain ⟨q', h1', M1, e1, -, -, -, e5⟩ := klmalloc_spec I L hn hroom
  obtain ⟨rfl, rfl⟩ : q' = q ∧ h1' = h1 := by simpa [e1] using hm
  obtain ⟨a, k, hk, hh⟩ := L.home l hl
  have hb := I.home_bounds hk hh
  have hstop := I.layout.le_stop a k hk
  refine e5 _ ?_
  rintro (hx | hx)
  · omega
  · exact I.live_not_meta L hl (Nat.le_add_right ..) (Nat.add_lt_add_left hi _) hx

/-! ### What a new block holds has nothing to do with the contents of the others -/

/-- The same fields, and the same bytes outside `D`. -/
structure Alike (D : ℕ → Prop) (h c : Heap) : Prop where
  mem : SameOff D h c
  heapEnd : c.heapEnd = h.heapEnd
  binHead : c.binHead = h.binHead
  newestBig : c.newestBig = h.newestBig

namespace Alike

variable {D : ℕ → Prop} {h c : Heap}

theorem setWord (A : Alike D h c) (a v : ℕ) : Alike D (h.setWord a v) (c.setWord a v) :=
  ⟨fun x hx => Buf.blit_agree fun _ => A.mem x hx, A.heapEnd, A.binHead, A.newestBig⟩

theorem sbrk (A : Alike D h c) (n : ℕ) : Alike D (h.sbrk n).2 (c.sbrk n).2 := by
  refine ⟨fun x hx => ?_, ?_, A.binHead, A.newestBig⟩
  · show c.mem.blit c.heapEnd (fun _ => 0) n x = h.mem.blit h.heapEnd (fun _ => 0) n x
    rw [A.heapEnd]
    exact Buf.blit_agree fun _ => A.mem x hx
  · show (c.heapEnd + n) % 2 ^ 32 = (h.heapEnd + n) % 2 ^ 32
    rw [A.heapEnd]

theorem listInsert (A : Alike D h c) (b node : ℕ) : Alike D (h.listInsert b node) (c.listInsert b node) := by
  unfold Heap.listInsert
  rw [A.binHead]
  have A' := A.setWord node (h.binHead b)
  exact ⟨A'.mem, A'.heapEnd, congrArg (Function.update · b node) A'.binHead, A'.newestBig⟩

theorem initStack (A : Alike D h c) (base b n : ℕ) : Alike D (h.initStack base b n)
    (c.initStack base b n) := by
  induction n with
  | zero => exact A
  | succ n ih => exact ih.setWord _ _

theorem newBin (A : Alike D h c) (b : ℕ) : Alike D (h.newBin b).2 (c.newBin b).2 := by
  have hnew : ∀ g : Heap, (g.newBin b).2 =
    ((((((g.sbrk pageSize).2.setWord (g.heapEnd + 12) binMagic).setWord (g.heapEnd + 4)
      (g.heapEnd + 16)).listInsert b g.heapEnd).initStack (g.heapEnd + 16) b
        ((pageSize - 16) >>> (smallestBinLog + b) - 1)).setWord
        (g.heapEnd + 16 + 4 * (((pageSize - 16) >>> (smallestBinLog + b) - 1) <<< b)) 0).setWord
          (g.heapEnd + 8) b := fun _ => rfl
  rw [hnew, hnew, A.heapEnd]
  exact ((((((A.sbrk pageSize).setWord _ _).setWord _ _).listInsert _ _).initStack _ _ _).setWord _ _).setWord
    _ _

theorem linkNewest (A : Alike D h c) (header : ℕ) : Alike D (h.linkNewest header) (c.linkNewest header) := by
  by_cases h0 : h.newestBig = 0
  · rw [linkNewest_first h0, linkNewest_first (A.newestBig.trans h0), A.newestBig]
    have A' := (A.setWord (header + 16) h.newestBig).setWord header 0
    exact ⟨A'.mem, A'.heapEnd, A'.binHead, rfl⟩
  · rw [linkNewest_next h0, linkNewest_next (A.newestBig.trans_ne h0), A.newestBig]
    have A' := ((A.setWord (header + 16) h.newestBig).setWord h.newestBig header).setWord header 0
    exact ⟨A'.mem, A'.heapEnd, A'.binHead, rfl⟩

theorem newBig (A : Alike D h c) (n : ℕ) : Alike D (h.newBig n).2 (c.newBig n).2 := by
  have hnew : ∀ g : Heap, (g.newBig n).2 =
    ((((g.sbrk (pageSize * bigPages n % 2 ^ 32)).2.setWord (g.heapEnd + 12) binMagic).setWord
      (g.heapEnd + 8) (bigPages n * pageSize - 48)).linkNewest g.heapEnd).setWord (g.heapEnd + 4) 0 :=
        fun _ => rfl
  rw [hnew, hnew, A.heapEnd]
  exact ((((A.sbrk _).setWord _ _).setWord _ _).linkNewest _).setWord _ _

end Alike

section

open Function SkipList

variable {a b c i q : ℕ} {t : List ℕ} {h1 : Heap} {M M1 : ℕ → Option Block} {live : List Live} {l : Live}
    {m : Buf}

/-- The links of the free cells are the allocator's but for the one of the cell that is taken. -/
theorem isMeta_takeCell (hk : M a = some (.small b (c :: t))) {x : ℕ} (hx : IsMeta M x) :
    IsMeta (update M a (some (.small b t))) x ∨ c ≤ x ∧ x < c + 4 := by
  obtain ⟨a', k, hk', hx⟩ := hx
  by_cases ha : a' = a
  · subst ha
    obtain rfl : k = _ := Option.some.inj (hk'.symm.trans hk)
    rcases hx with hx | ⟨c', hc', hx⟩
    · exact .inl ⟨a', _, update_self .., .inl hx⟩
    · rcases List.mem_cons.mp hc' with rfl | hc'
      · exact .inr hx
      · exact .inl ⟨a', _, update_self .., .inr ⟨c', hc', hx⟩⟩
  · exact .inl ⟨a', k, by rw [update_of_ne ha, hk'], hx⟩

theorem isMeta_takeBig (hk : M a = some (.big s none)) (p : ℕ) {x : ℕ} (hx : IsMeta M x) :
    IsMeta (update M a (some (.big s (some p)))) x ∨ a + 48 ≤ x ∧ x < a + 48 + 4 := by
  obtain ⟨a', k, hk', hx⟩ := hx
  by_cases ha : a' = a
  · subst ha
    obtain rfl : k = _ := Option.some.inj (hk'.symm.trans hk)
    rcases hx with hx | hx
    · exact .inl ⟨a', _, update_self .., .inl hx⟩
    · exact .inr hx.2
  · exact .inl ⟨a', k, by rw [update_of_ne ha, hk'], hx⟩

/-- Behind its first word a block is given out as it was. -/
theorem stale_kept (hs : SameOff (IsMeta M) h h1) (I1 : Inv start h1 M1)
    (L1 : Lives M1 (⟨q, n, false⟩ :: live))
    (hM : ∀ x, IsMeta M x → IsMeta M1 x ∨ q ≤ x ∧ x < q + 4) (h4 : 4 ≤ i) (hi : i < n) : h1.mem (q + i) =
      h.mem (q + i) := by
  refine hs _ fun hx => ?_
  rcases hM _ hx with hx | hx
  · exact I1.live_not_meta L1 List.mem_cons_self (Nat.le_add_right q i) (Nat.add_lt_add_left hi q) hx
  · omega

theorem Lives.new_apart (L1 : Lives M1 (⟨q, n, false⟩ :: live)) (I1 : Inv start h1 M1) (hl : l ∈ live)
    (hi : i < n) :
    ¬ (l.ptr ≤ q + i ∧ q + i < l.ptr + l.size) := by
  have hne : q ≠ l.ptr := fun he => (List.nodup_cons.mp L1.nodup).1 (List.mem_map.mpr ⟨l, hl, he.symm⟩)
  have := I1.live_apart L1 List.mem_cons_self (List.mem_cons_of_mem _ hl) hne
  dsimp only at this
  omega

theorem Inv.findbest_write (I : Inv start h M) (hm : ∀ x, IsMeta M x → m x = h.mem x) (n : ℕ) :
    ({ h with mem := m } : Heap).skipListFindbest n = h.skipListFindbest n := by
  obtain ⟨xs, R, hx, -, hlen⟩ := I.skipNodes
  have hw : ∀ y ∈ xs, ∀ e, e + 4 ≤ 48 → ({ h with mem := m } : Heap).word (y.1 + e) = h.word (y.1 + e) := by
    intro y hy e he
    obtain ⟨s, hs⟩ := (hx y.1).mp (List.mem_map_of_mem hy)
    exact Buf.u32_congr fun z h1 h2 => hm z ⟨y.1, _, hs, .inl ⟨by omega, by omega⟩⟩
  have hsize : ∀ y ∈ xs, ({ h with mem := m } : Heap).size y.1 = h.size y.1 := fun y hy =>
    hw y hy 8 (by decide)
  have R' : Rep skipMaxLevel ({ h with mem := m } : Heap).forward ({ h with mem := m } : Heap).size h.level
    xs := by
    refine R.congr hsize (fun _ _ => rfl) fun i hi y hy => congrArg ptr ?_
    have hi : i ≤ 6 := hi
    rw [Nat.add_assoc]
    exact hw y hy _ (by omega)
  obtain ⟨A, B, rfl, hA, hB⟩ := R.split n
  obtain ⟨update, hs, -⟩ := skipSearch_spec R hA hB hlen
  obtain ⟨update', hs', -⟩ := skipSearch_spec (h := { h with mem := m }) R'
    (fun y hy => (hsize y (List.mem_append_left _ hy)).trans_lt (hA y hy))
    (fun y hy => (hB y hy).trans_eq (hsize y (List.mem_append_right _ hy)).symm) hlen
  simp only [skipListFindbest, hs, hs', Option.bind_eq_bind, Option.bind_some, R.next_zero, R'.next_zero]

/-- With other contents of a block, `klmalloc` gives the same block, which holds the same. -/
theorem klmalloc_write (I : Inv start h M) (L : Lives M live) (hl : l ∈ live)
    (hm : ∀ x, ¬ (l.ptr ≤ x ∧ x < l.ptr + l.size) → m x = h.mem x) (h0 : n ≠ 0)
    (hroom : h.heapEnd + h.growth n < kernelHeapEnd) :
    ∃ q h1 c1, h.klmalloc n = some (q, h1) ∧ ({ h with mem := m } : Heap).klmalloc n = some (q, c1) ∧
      ∀ i, 4 ≤ i → i < n → c1.mem (q + i) = h1.mem (q + i) := by
  have Ic : Inv start { h with mem := m } M := I.write_live L hl hm
  have A : Alike (fun x => l.ptr ≤ x ∧ x < l.ptr + l.size) h { h with mem := m } := ⟨hm, rfl, rfl, rfl⟩
  have hbelow : l.ptr + l.size ≤ h.heapEnd := by
    obtain ⟨a, k, hk, hh⟩ := L.home l hl
    have := I.home_bounds hk hh
    have := I.layout.le_stop a k hk
    omega
  rw [growth, if_neg h0] at hroom
  by_cases hb : binSize n < bigBin
  · rw [if_pos hb] at hroom
    simp only [klmalloc, if_neg h0, if_pos hb, klmallocSmall]
    by_cases hbin : h.binHead (binSize n) = 0
    · rw [if_pos hbin] at hroom
      obtain ⟨g, e1, e2, -, -, e5⟩ := newBin_spec I hb hbin hroom
      obtain ⟨gc, d1, d2, -, -, d5⟩ := newBin_spec Ic hb hbin hroom
      have A' := A.newBin (binSize n)
      obtain ⟨c, t, hct⟩ := allCells_cons hb h.heapEnd
      have hk : update M h.heapEnd (some (.small (binSize n) (allCells h.heapEnd (binSize n)))) h.heapEnd =
          some (.small (binSize n) (c :: t)) := by rw [update_self, hct]
      obtain ⟨h', f1, -, f3, f4, f5⟩ := takeCell_live e2 (L.grow I _) h0 hb hk e5
      obtain ⟨c', g1, -, g3, g4, g5⟩ := takeCell_live d2 (L.grow I _) h0 hb hk d5
      refine ⟨c, h', c', by rw [if_pos hbin, e1]; exact congrArg some f1,
        by rw [if_pos hbin, d1]; exact congrArg some g1, fun i h4 hi => ?_⟩
      rw [stale_kept f5 f3 f4 (fun x => isMeta_takeCell hk) h4 hi,
        stale_kept g5 g3 g4 (fun x => isMeta_takeCell hk) h4 hi]
      rw [e1, d1] at A'
      exact A'.mem _ (f4.new_apart f3 hl hi)
    · obtain ⟨c, t, hk⟩ := I.head_bin hb hbin
      obtain ⟨h', f1, -, f3, f4, f5⟩ := takeCell_live I L h0 hb hk rfl
      obtain ⟨c', g1, -, g3, g4, g5⟩ := takeCell_live Ic L h0 hb hk rfl
      refine ⟨c, h', c', by rw [if_neg hbin]; exact congrArg some f1,
        by rw [if_neg hbin]; exact congrArg some g1, fun i h4 hi => ?_⟩
      rw [stale_kept f5 f3 f4 (fun x => isMeta_takeCell hk) h4 hi,
        stale_kept g5 g3 g4 (fun x => isMeta_takeCell hk) h4 hi]
      exact hm _ (f4.new_apart f3 hl hi)
  · rw [if_neg hb] at hroom
    have hfind := I.findbest_write (m := m) (fun x hx => hm x fun hc => I.live_not_meta L hl hc.1 hc.2 hx) n
    simp only [klmalloc, if_neg h0, if_neg hb]
    obtain ⟨xs, R, -, -, hlen⟩ := I.skipNodes
    rcases skipListFindbest_spec R hlen n with ⟨hf, -⟩ | ⟨-, a, -, -, -, hf, -⟩
    · refine ⟨h.heapEnd + 48, (h.newBig n).2, (({ h with mem := m } : Heap).newBig n).2, ?_, ?_,
        fun i _ _ => ?_⟩
      · simp only [klmallocBig, hf, Option.bind_eq_bind, Option.bind_some]
        rfl
      · simp only [klmallocBig, hfind, hf, Option.bind_eq_bind, Option.bind_some]
        rfl
      · exact (A.newBig n).mem _ (by omega)
    · obtain ⟨s, h', hk, hn, f1, f2, f3, -⟩ := takeBig_spec I hf
      obtain ⟨s', c', hk', -, g1, g2, g3, -⟩ := takeBig_spec Ic (hfind.trans hf)
      obtain rfl : s = s' := by simpa using hk.symm.trans hk'
      have L' : Lives (update M a (some (.big s (some (a + 48))))) (⟨a + 48, n, false⟩ :: live) :=
        L.addBig (l := ⟨a + 48, n, false⟩) I (I.aligned hk) (fun k hk₁ => Option.some.inj (hk₁.symm.trans hk))
          (.inl rfl) (by dsimp only; omega) (by simp)
      refine ⟨a + 48, h', c', f1, g1, fun i h4 hi => ?_⟩
      rw [stale_kept f3 (f2 _ (.inl rfl)) L' (fun x => isMeta_takeBig hk _) h4 hi,
        stale_kept g3 (g2 _ (.inl rfl)) L' (fun x => isMeta_takeBig hk _) h4 hi]
      exact hm _ (L'.new_apart (f2 _ (.inl rfl)) hl hi)

end

section

variable (hg : St.Good start st) (hl : ⟨p, s, true⟩ ∈ st.live)
include hg hl

theorem good_write {m : Buf} (hm : OtherContents st.heap p s m) :
    St.Good start ⟨{ st.heap with mem := m }, st.live⟩ := by
  obtain ⟨M, I, L⟩ := hg
  exact ⟨M, I.write_live L hl fun x hx => hm x (.inl hx), L⟩

theorem growth_write {m : Buf} (hm : OtherContents st.heap p s m) (n : ℕ) :
    ({ st.heap with mem := m } : Heap).growth n = st.heap.growth n := by
  obtain ⟨M, I, L⟩ := hg
  unfold growth
  rw [I.findbest_write fun x hx => hm x (.inl fun hc => I.live_not_meta L hl hc.1 hc.2 hx)]

theorem oldSize_write {m : Buf} (hm : OtherContents st.heap p s m) :
    ({ st.heap with mem := m } : Heap).oldSize p = st.heap.oldSize p := by
  have hp : p % 4096 = 0 := hg.nonOverlap.paged _ hl rfl
  have hpage : p / pageSize * pageSize = p := Nat.div_mul_cancel (Nat.dvd_of_mod_eq_zero hp)
  have hword : ({ st.heap with mem := m } : Heap).size p = st.heap.size p :=
    Buf.u32_congr fun x h1 h2 => hm x (.inr ⟨h1, by omega⟩)
  unfold oldSize
  rw [hpage, hword]

theorem size_write {m : Buf} (hm : OtherContents st.heap p s m) :
    ({ st.heap with mem := m } : Heap).size (headerOf p) = st.heap.size (headerOf p) := by
  obtain ⟨M, I, L⟩ := hg
  obtain ⟨a, k, hk, hh⟩ := L.home _ hl
  have hb := I.home_bounds hk hh
  rw [I.headerOf_home hk hh]
  refine Buf.u32_congr fun x h1 h2 => hm x (.inl fun hc => ?_)
  refine I.live_not_meta L hl hc.1 hc.2 ⟨a, k, hk, ?_⟩
  cases k with
  | small b free => exact .inl ⟨by omega, by omega⟩
  | big s owner => exact .inl ⟨by omega, by omega⟩

end

theorem four_le_oldSize (h : Heap) (p : ℕ) : 4 ≤ h.oldSize p := by
  unfold oldSize
  dsimp only
  split_ifs with hs
  · rw [Nat.shiftLeft_eq, Nat.one_mul, smallestBinLog, Nat.add_comm]
    exact four_le_cell _
  · rw [bigBin] at hs
    omega

/-- The call does its work, with these contents of the block, if the word that it takes for the old size
allows it. -/
theorem KeepsContents.reallocated (hg : St.Good start st) (hl : ⟨p, s, true⟩ ∈ st.live) (hn : 0 < n)
    (hroom : st.heap.heapEnd + st.heap.growth n < kernelHeapEnd) (kernelEnd : ℕ)
    (hkeep : KeepsContents st.heap p s n) :
    Reallocated start kernelEnd st p s n := by
  have hp0 : p ≠ 0 := by
    obtain ⟨M, I, L⟩ := hg
    obtain ⟨a, k, hk, hh⟩ := L.home _ hl
    have := I.home_bounds hk hh
    simp only at this
    omega
  unfold KeepsContents at hkeep
  split_ifs at hkeep with hold
  · refine ⟨p, st.heap, true, ?_, good_replace hg hl rfl hkeep, fun _ _ => rfl⟩
    rw [klrealloc, if_neg hp0, if_neg (by omega), if_pos hold]
  · obtain ⟨q, h1, h', e1, e2, e3, e4⟩ := klrealloc_copy hg hl (by omega) hroom (not_le.mp hold) kernelEnd
    refine ⟨q, h', false, e2, e3, fun i hi => ?_⟩
    rw [e4 i (by omega), if_pos (show i < st.heap.oldSize p by omega)]
    exact klmalloc_live_bytes hg hl (by omega) hroom e1 (show i < s by omega)

/-- A byte that `realloc` does not copy is what `malloc` left there, whatever it was in the old block. -/
theorem Reallocated.stale {i : ℕ} {b : UInt8} (hg : St.Good start st) (hl : ⟨p, s, true⟩ ∈ st.live)
    (hroom : st.heap.heapEnd + st.heap.growth n < kernelHeapEnd) {kernelEnd : ℕ} (hold : st.heap.oldSize p < n)
    (hi : i < min s n) (hfrom : st.heap.oldSize p ≤ i)
    (hbyte : OtherContents st.heap p s (Function.update st.heap.mem (p + i) b))
    (h : Reallocated start kernelEnd
      ⟨{ st.heap with mem := Function.update st.heap.mem (p + i) b }, st.live⟩ p s n) :
    ∀ r ∈ st.heap.klmalloc n, r.2.mem (r.1 + i) = b := by
  intro r hr
  obtain ⟨q', h'', paged, he, -, hbytes⟩ := h
  have h4 := (four_le_oldSize st.heap p).trans hfrom
  have hsize := oldSize_write hg hl hbyte
  obtain ⟨q, h1, h', e1, e2, -, e4⟩ := klrealloc_copy (good_write hg hl hbyte) hl (show n ≠ 0 by omega)
    (by rw [growth_write hg hl hbyte]; exact hroom) (hsize.trans_lt hold) kernelEnd
  obtain ⟨rfl, rfl⟩ := Prod.mk.inj (Option.some.inj (e2.symm.trans he))
  have hnew : h1.mem (q + i) = b := by
    have hcopy := e4 i (by omega)
    rw [if_neg (Nat.not_lt.mpr (hsize.trans_le hfrom))] at hcopy
    rw [← hcopy, hbytes i hi]
    exact Function.update_self ..
  obtain ⟨M, I, L⟩ := hg
  obtain ⟨q₂, h₂, c₂, f1, f2, f3⟩ := klmalloc_write (m := Function.update st.heap.mem (p + i) b) I L hl
    (fun x hx => hbyte x (.inl hx)) (by omega) hroom
  obtain rfl : r = (q₂, h₂) := by simpa [f1] using hr.symm
  obtain ⟨rfl, rfl⟩ : q₂ = q ∧ c₂ = h1 := by simpa [f2] using e1
  rw [← f3 i h4 (by omega), hnew]

/-- `malloc(16)` on a new heap, with one byte of the block written by its owner. -/
def oneByte (offset : ℕ) (byte : UInt8) : Option St :=
  (St.boot (fun _ => 0) 4096).run [.klvalloc 16, .store (8192 + offset) byte]

theorem oneByte_good (offset : ℕ) (byte : UInt8)
    (ha : (St.boot (fun _ => 0) 4096).AllowedRun [.klvalloc 16, .store (8192 + offset) byte]) :
    ∃ st, oneByte offset byte = some st ∧ St.Good 4096 st :=
  St.good_run (St.good_boot (by decide) (by decide) (by decide)) ha

end ChiffOS.Heap
