import ChiffOS.Heap.SmallOps
import Mathlib.Data.Finset.Card
import Mathlib.Order.Interval.Finset.Nat

/-! Big blocks: reuse of the best fit from the skip list, a new block at the end of the heap and
the return of a block to the skip list keep the invariant. -/

namespace ChiffOS.Heap

open SkipList Function List

variable {start a s p : ℕ} {h h' : Heap} {M : ℕ → Option Block} {o o' : Option ℕ}

theorem Inv.skipNodes (I : Inv start h M) :
    ∃ xs, Rep skipMaxLevel h.forward h.size h.level xs ∧
      (∀ a, a ∈ xs.map Prod.fst ↔ ∃ s, M a = some (.big s none)) ∧ (∀ a ∈ xs.map Prod.fst, Node a) ∧
      xs.length < h.heapEnd := by
  obtain ⟨xs, R, hx⟩ := I.skip
  have hnode : ∀ a ∈ xs.map Prod.fst, Node a := fun a ha => by
    obtain ⟨s, hs⟩ := (hx a).mp ha
    exact I.node hs
  refine ⟨xs, R, hx, hnode, ?_⟩
  have hsub : (xs.map Prod.fst).toFinset ⊆ Finset.Ico 1 h.heapEnd := by
    intro a ha
    obtain ⟨s, hs⟩ := (hx a).mp (mem_toFinset.mp ha)
    have := I.pos hs
    have := I.lt_stop hs
    exact Finset.mem_Ico.mpr ⟨by omega, by omega⟩
  have hcard := Finset.card_le_card hsub
  rw [toFinset_card_of_nodup R.nodup, length_map, Nat.card_Ico] at hcard
  have := I.start_pos.trans_le I.start_le
  omega

/-- The bytes that an operation on the big block at `a` may change. -/
def InBig (M : ℕ → Option Block) (a x : ℕ) : Prop :=
  (a ≤ x ∧ x < a + 52) ∨ ∃ b s o, M b = some (.big s o) ∧ b + 20 ≤ x ∧ x < b + 48

theorem SkipFrame.inBig {N : ℕ → Prop} (hf : SkipFrame N h h') (hN : ∀ b, N b → ∃ s o, M b = some (.big s o))
    (a : ℕ) :
    SameOff (InBig M a) h h' :=
  hf.mem.mono fun x ⟨b, hb, h1, h2⟩ => by
    obtain ⟨s, o, hso⟩ := hN b hb
    exact .inr ⟨b, s, o, hso, h1, h2⟩

theorem Inv.word_of_inBig (I : Inv start h M) {a' x : ℕ} {j k : Block} (hk : M a = some k)
    (hs : SameOff (InBig M a) h h')
    (ha : a' ≠ a) (hj : M a' = some j) (hx : a' ≤ x ∧ x + 4 ≤ a' + 4096)
    (hbig : ∀ s o, j = .big s o → x + 4 ≤ a' + 20 ∨ a' + 48 ≤ x) : h'.word x = h.word x := by
  refine hs.word ?_
  rintro y h1 h2 (⟨h3, h4⟩ | ⟨b, s, o, hb, h3, h4⟩)
  · have := I.layout.pages_apart hk hj ha.symm
    omega
  · by_cases hba : b = a'
    · subst hba
      have := hbig s o (Option.some.inj (hj.symm.trans hb))
      omega
    · have := I.layout.pages_apart hb hj hba
      omega

theorem Inv.editBig (I : Inv start h M) (hk : M a = some (.big s o)) (hs : SameOff (InBig M a) h h')
    (hend : h'.heapEnd = h.heapEnd) (hnew : h'.newestBig = h.newestBig) (hbh : h'.binHead = h.binHead)
    (hok : BigOk h' a s o') (hskip : SkipOk h' (update M a (some (.big s o')))) :
    Inv start h' (update M a (some (.big s o'))) := by
  refine I.edit hk rfl hend hnew (fun _ _ _ => ⟨s, o', rfl⟩) (fun a' j ha hj x hx => ?_) hok (fun b hb => ?_)
    hskip
  · refine I.word_of_inBig hk hs ha hj ((I.ok a' j hj).owns_bounds hx) ?_
    rintro s' o'' rfl
    rcases hx with rfl | rfl | rfl | ⟨-, rfl⟩ <;> omega
  · refine (I.bins b hb).frame (congrFun hbh b) (fun a' c t ha' => ?_) fun a' => ?_
    · have hne : a' ≠ a := by
        rintro rfl
        rw [hk] at ha'
        simp at ha'
      exact I.word_of_inBig hk hs hne ha' ⟨le_rfl, by omega⟩ (by simp)
    · by_cases haa : a' = a
      · subst haa
        simp [hk]
      · rw [update_of_ne haa]

theorem isMeta_inBig (hk : M a = some (.big s none)) {x : ℕ} (hx : InBig M a x) : IsMeta M x := by
  rcases hx with hx | ⟨b, s', o, hb, h1, h2⟩
  · refine ⟨a, _, hk, ?_⟩
    rcases Nat.lt_or_ge x (a + 48) with h1 | h1
    · exact .inl ⟨hx.1, h1⟩
    · exact .inr ⟨rfl, h1, hx.2⟩
  · exact ⟨b, _, hb, .inl ⟨by omega, h2⟩⟩

theorem takeBig_spec (I : Inv start h M) {n : ℕ} (hf : h.skipListFindbest n = some (some a)) :
    ∃ s h', M a = some (.big s none) ∧ n ≤ s ∧ h.klmallocBig n = some (a + 48, h') ∧
      (∀ p, p = a + 48 ∨ p = a + 4096 → Inv start h' (update M a (some (.big s (some p))))) ∧
      SameOff (IsMeta M) h h' ∧ h'.heapEnd = h.heapEnd := by
  obtain ⟨xs, R, hx, hnode, hlen⟩ := I.skipNodes
  rcases skipListFindbest_spec R hlen n with ⟨hnone, -⟩ | ⟨A, v, l, B, rfl, hv, hn, hA⟩
  · rw [hf] at hnone
    simp at hnone
  · obtain rfl : a = v := by simpa [hf] using hv
    obtain ⟨s, hk⟩ := (hx a).mp (by simp)
    have hok := I.big hk
    obtain ⟨h1, hdel, R1, hfr⟩ := skipListDelete_spec R hnode (fun x hx => (hA x hx).trans_le hn) hlen
    have hN : ∀ b, b ∈ (A ++ (a, l) :: B).map Prod.fst → ∃ s o, M b = some (.big s o) := fun b hb => by
      obtain ⟨s, hs⟩ := (hx b).mp hb
      exact ⟨s, none, hs⟩
    have hw : ∀ e, e + 4 ≤ 20 ∨ 48 ≤ e ∧ e + 4 ≤ 4096 → h1.word (a + e) = h.word (a + e) := fun e he => by
      refine hfr.word fun b hb => ?_
      have := (hnode b hb).1
      have := I.aligned hk
      omega
    obtain ⟨hw4, hw48⟩ := hok.free rfl
    have hpop : h1.stackPop a = (a + 48, h1.setWord (a + 4) 0) := by
      rw [stackPop, hw 4 (by omega), hw4, hw 48 (by omega), hw48]
    have hs : SameOff (InBig M a) h (h1.setWord (a + 4) 0) :=
      (hfr.inBig hN a).setWord fun x h1 h2 => .inl ⟨by omega, by omega⟩
    have hw' : ∀ e, 8 ≤ e → e + 4 ≤ 20 → (h1.setWord (a + 4) 0).word (a + e) = h.word (a + e) :=
      fun e h1 h2 => by
      rw [word_setWord_ne (by omega), hw e (by omega)]
    have hal := I.aligned hk
    have hrest : ∀ x ∈ A ++ B, x.1 % 4096 = 0 := fun x hx' => by
      refine (hnode x.1 (mem_map_of_mem ?_)).1
      simp only [mem_append, mem_cons] at hx' ⊢
      exact hx'.imp_right .inr
    refine ⟨s, h1.setWord (a + 4) 0, hk, hok.size ▸ hn, ?_, fun p hp => ?_, hs.mono fun x => isMeta_inBig hk,
      hfr.heapEnd⟩
    · simp [klmallocBig, hf, hdel, hpop]
    · refine I.editBig hk hs hfr.heapEnd hfr.newestBig hfr.binHead ?_ ⟨A ++ B, ?_, fun e => ?_⟩
      · refine ⟨hok.pages, (hw' 12 (by omega) (by omega)).trans hok.magic,
          (hw' 8 (by omega) (by omega)).trans hok.size, by simp, fun q hq => ?_⟩
        exact ⟨word_setWord_self (by decide), Option.some.inj hq ▸ hp⟩
      · refine R1.congr (fun x hx' => ?_) (fun i hi => rfl) fun i hi x hx' => congrArg ptr ?_
        · have := hrest x hx'
          exact word_setWord_ne (by omega)
        · have hi' : i ≤ 6 := hi
          have := hrest x hx'
          exact word_setWord_ne (by omega)
      · have hnd := R.nodup
        rw [map_append, map_cons] at hnd
        have hnot := (nodup_cons.mp (nodup_middle.mp hnd)).1
        by_cases he : e = a
        · subst he
          rw [update_self, map_append]
          simp only [Option.some.injEq, Block.big.injEq, reduceCtorEq, and_false, exists_false, iff_false]
          exact hnot
        · rw [update_of_ne he, ← hx e]
          simp [he]

theorem giveBig_spec (I : Inv start h M) (hk : M a = some (.big s (some p))) :
    ∃ h', (h.stackPush a (a + 48)).skipListInsert a = some h' ∧
      Inv start h' (update M a (some (.big s none))) ∧
      SameOff (IsMeta (update M a (some (.big s none)))) h h' ∧ h'.heapEnd = h.heapEnd := by
  obtain ⟨xs, R, hx, hnode, hlen⟩ := I.skipNodes
  have hok := I.big hk
  have hva := I.node hk
  have hlt := I.lt_stop hk
  have hstop := I.stop_lt
  simp only [kernelHeapEnd] at hstop
  have hal := hva.1
  have hw4 := (hok.owned p rfl).1
  set h1 := h.stackPush a (a + 48) with hh1
  have hs1 : SameOff (fun x => a ≤ x ∧ x < a + 52) h h1 :=
    ((SameOff.refl _ h).setWord fun x _ _ => ⟨by omega, by omega⟩).setWord fun x _ _ => ⟨by omega, by omega⟩
  have hw1 : ∀ x, x % 4 = 0 → x ≠ a + 48 → x ≠ a + 4 → h1.word x = h.word x := fun x h1 h2 h3 => by
    rw [hh1, stackPush, word_setWord_ne (by omega), word_setWord_ne (by omega)]
  have hax : a ∉ xs.map Prod.fst := fun ha => by
    obtain ⟨s', hs'⟩ := (hx a).mp ha
    rw [hk] at hs'
    simp at hs'
  have R1 : Rep skipMaxLevel h1.forward h1.size h1.level xs := by
    refine R.congr (fun x hx' => ?_) (fun i _ => rfl) fun i hi x hx' => congrArg ptr ?_
    · have := (hnode x.1 (mem_map_of_mem hx')).1
      exact hw1 _ (by omega) (by omega) (by omega)
    · have hi' : i ≤ 6 := hi
      have := (hnode x.1 (mem_map_of_mem hx')).1
      exact hw1 _ (by omega) (by omega) (by omega)
  obtain ⟨h2, xs', hins, R2, hx2, hfr⟩ := skipListInsert_spec R1 hnode hva hax hlen
  have hN : ∀ b, (b = a ∨ b ∈ xs.map Prod.fst) → ∃ s o, M b = some (.big s o) := by
    rintro b (rfl | hb)
    · exact ⟨s, some p, hk⟩
    · obtain ⟨s', hs'⟩ := (hx b).mp hb
      exact ⟨s', none, hs'⟩
  have hs : SameOff (InBig M a) h h2 := (hs1.mono fun x hx => .inl hx).trans (hfr.inBig hN a)
  have hw2 : ∀ e, e % 4 = 0 → e + 4 ≤ 20 ∨ 48 ≤ e ∧ e + 4 ≤ 4096 → h2.word (a + e) = h1.word (a + e) :=
    fun e h1 h2 => by
    refine hfr.word fun b hb => ?_
    obtain ⟨s', o', hb'⟩ := hN b hb
    have := I.aligned hb'
    omega
  refine ⟨h2, hins, ?_, hs.mono fun x hx' => ?_, hfr.heapEnd⟩
  · refine I.editBig hk hs hfr.heapEnd hfr.newestBig hfr.binHead ?_ ⟨xs', R2, fun e => ?_⟩
    · refine ⟨hok.pages, ?_, ?_, fun _ => ⟨?_, ?_⟩, by simp⟩
      · rw [hw2 12 rfl (by omega), hw1 _ (by omega) (by omega) (by omega), hok.magic]
      · rw [Heap.size, hw2 8 rfl (by omega), hw1 _ (by omega) (by omega) (by omega)]
        exact hok.size
      · rw [hw2 4 rfl (by omega)]
        exact word_setWord_self (by omega)
      · rw [hw2 48 rfl (by omega), hh1, stackPush, word_setWord_ne (by omega), hw4]
        exact word_setWord_self (by decide)
    · rw [hx2 e]
      by_cases he : e = a
      · subst he
        simp
      · rw [update_of_ne he, ← hx e]
        simp [he]
  · refine isMeta_inBig (update_self ..) (hx'.imp_right ?_)
    rintro ⟨b, s', o', hb, h3⟩
    by_cases hba : b = a
    · exact ⟨b, s, none, by rw [hba, update_self], h3⟩
    · exact ⟨b, s', o', by rw [update_of_ne hba, hb], h3⟩

/-- The length of a new big block, before any wrap. -/
def bigLen (n : ℕ) : ℕ := 4096 * ((n + 48) / 4096 + 1)

theorem Inv.word_of_new (I : Inv start h M) {a' x : ℕ} {j : Block}
    (hs : SameOff (fun x => h.heapEnd ≤ x ∨ h.newestBig ≠ 0 ∧ h.newestBig ≤ x ∧ x < h.newestBig + 4) h h')
    (hj : M a' = some j) (hx : a' ≤ x ∧ x + 4 ≤ a' + 4096) (hbig : ∀ s o, j = .big s o → a' + 4 ≤ x) :
    h'.word x = h.word x := by
  have := I.lt_stop hj
  refine hs.word ?_
  rintro y h1 h2 (h3 | ⟨h0, h3, h4⟩)
  · omega
  · obtain ⟨s, o, hso⟩ := I.newest.resolve_left h0
    by_cases hba : h.newestBig = a'
    · have := hbig s o (Option.some.inj (hj.symm.trans (hba ▸ hso)))
      omega
    · have := I.layout.pages_apart hso hj hba
      omega

theorem linkNewest_first (h0 : h.newestBig = 0) (a : ℕ) :
    h.linkNewest a = { (h.setWord (a + 16) h.newestBig).setWord a 0 with newestBig := a } := by
  simp only [linkNewest, setWord_newestBig, h0, ne_eq, not_true_eq_false, if_false]

theorem linkNewest_next (h0 : h.newestBig ≠ 0) (a : ℕ) : h.linkNewest a =
    { ((h.setWord (a + 16) h.newestBig).setWord h.newestBig a).setWord a 0 with newestBig := a } := by
  simp only [linkNewest, setWord_newestBig, ne_eq, h0, not_false_eq_true, if_true]

theorem linkNewest_fields (h : Heap) (a : ℕ) :
    (h.linkNewest a).heapEnd = h.heapEnd ∧ (h.linkNewest a).binHead = h.binHead ∧
    (h.linkNewest a).bigForward = h.bigForward ∧ (h.linkNewest a).level = h.level ∧
      (h.linkNewest a).newestBig = a := by
  by_cases h0 : h.newestBig = 0
  · rw [linkNewest_first h0]
    exact ⟨rfl, rfl, rfl, rfl, rfl⟩
  · rw [linkNewest_next h0]
    exact ⟨rfl, rfl, rfl, rfl, rfl⟩

theorem SameOff.linkNewest {S : ℕ → Prop} (hs : SameOff S h h') (ha : ∀ x, a ≤ x → x < a + 20 → S x)
    (hn : h'.newestBig ≠ 0 → ∀ x, h'.newestBig ≤ x → x < h'.newestBig + 4 → S x) :
      SameOff S h (h'.linkNewest a) := by
  have h1 : SameOff S h (h'.setWord (a + 16) h'.newestBig) := hs.setWord fun x h1 h2 =>
    ha x (by omega) (by omega)
  by_cases h0 : h'.newestBig = 0
  · rw [linkNewest_first h0]
    exact h1.setWord fun x h1 h2 => ha x h1 (by omega)
  · rw [linkNewest_next h0]
    exact (h1.setWord (hn h0)).setWord fun x h1 h2 => ha x h1 (by omega)

theorem linkNewest_word {x : ℕ} (hx : a + 4 ≤ x ∧ x + 4 ≤ a + 16)
    (hn : h.newestBig ≠ 0 → h.newestBig + 4 ≤ a) :
    (h.linkNewest a).word x = h.word x := by
  have h1 : (h.setWord (a + 16) h.newestBig).word x = h.word x := word_setWord_ne (by omega)
  by_cases h0 : h.newestBig = 0
  · rw [linkNewest_first h0]
    exact (word_setWord_ne (by omega)).trans h1
  · rw [linkNewest_next h0]
    have := hn h0
    exact (word_setWord_ne (by omega)).trans ((word_setWord_ne (by omega)).trans h1)

/-- `klmalloc` of a big size that no free block has room for. -/
theorem newBig_spec (I : Inv start h M) {n : ℕ} (hroom : h.heapEnd + bigLen n < kernelHeapEnd) :
    ∃ s h', h.newBig n = (h.heapEnd + 48, h') ∧ n ≤ s ∧
      (∀ p, p = h.heapEnd + 48 ∨ p = h.heapEnd + 4096 →
        Inv start h' (update M h.heapEnd (some (.big s (some p))))) ∧
      SameOff (fun x => h.heapEnd ≤ x ∨ IsMeta M x) h h' ∧ h.heapEnd ≤ h'.heapEnd := by
  simp only [kernelHeapEnd] at hroom
  have hal := I.stop_aligned
  set a := h.heapEnd with ha
  obtain ⟨len, hlen, hlen'⟩ : ∃ len, len = bigLen n ∧ len = 4096 * ((n + 48) / 4096 + 1) := ⟨_, rfl, rfl⟩
  rw [← hlen] at hroom
  have hpages : bigPages n = (n + 48) / 4096 + 1 := by
    rw [bigPages, pageSize, Nat.mod_eq_of_lt (by omega)]
  obtain ⟨g1, hg1⟩ : ∃ g, g = ((h.sbrk len).2.setWord (a + 12) binMagic).setWord (a + 8) (len - 48) :=
    ⟨_, rfl⟩
  have hnew : h.newBig n = (a + 48, (g1.linkNewest a).setWord (a + 4) 0) := by
    have h1 : pageSize * bigPages n % 2 ^ 32 = len := by
      rw [hpages, pageSize, ← hlen']
      exact Nat.mod_eq_of_lt (by omega)
    have h2 : bigPages n * pageSize - 48 = len - 48 := by
      rw [hpages, pageSize, Nat.mul_comm, ← hlen']
    simp only [newBig, h1, h2, hg1]
    rfl
  obtain ⟨hf1, hf2, hf3, hf4, hf5⟩ := linkNewest_fields g1 a
  have hend1 : g1.heapEnd = a + len := by
    rw [hg1]
    exact Nat.mod_eq_of_lt (by omega)
  have hnb : g1.newestBig = h.newestBig := by
    rw [hg1]
    rfl
  obtain ⟨g3, hg3⟩ : ∃ g, g = (g1.linkNewest a).setWord (a + 4) 0 := ⟨_, rfl⟩
  rw [← hg3] at hnew
  have hend : g3.heapEnd = a + len := by rw [hg3, setWord_heapEnd, hf1, hend1]
  -- the newest big block lies before the end
  have hold : h.newestBig ≠ 0 → h.newestBig + 4096 ≤ a := fun h0 => by
    obtain ⟨s, o, hso⟩ := I.newest.resolve_left h0
    exact I.lt_stop hso
  have hs : SameOff (fun x => h.heapEnd ≤ x ∨ h.newestBig ≠ 0 ∧ h.newestBig ≤ x ∧ x < h.newestBig + 4) h
    g3 := by
    rw [hg3]
    refine SameOff.setWord (SameOff.linkNewest ?_ (fun x h1 _ => .inl h1) fun h0 x h1 h2 => ?_)
      fun x _ _ => .inl (by omega)
    · rw [hg1]
      exact (((sbrk_sameOff h len).mono fun x hx => .inl hx.1).setWord fun x _ _ => .inl (by omega)).setWord
        fun x _ _ => .inl (by omega)
    · rw [hnb] at h0 h1 h2
      exact .inr ⟨h0, h1, h2⟩
  have hw3 : ∀ x, a + 8 ≤ x → x + 4 ≤ a + 16 → g3.word x = g1.word x := fun x h1 h2 => by
    rw [hg3, word_setWord_ne (by omega), linkNewest_word ⟨by omega, h2⟩ fun h0 => ?_]
    rw [hnb] at h0 ⊢
    have := hold h0
    omega
  have hbig : ∀ p, p = a + 48 ∨ p = a + 4096 → BigOk g3 a (len - 48) (some p) := by
    intro p hp
    refine ⟨by omega, ?_, ?_, by simp, fun q hq => ⟨?_, Option.some.inj hq ▸ hp⟩⟩
    · rw [hw3 _ (by omega) (by omega), hg1, word_setWord_ne (by omega)]
      exact word_setWord_self (by decide)
    · rw [Heap.size, hw3 _ (by omega) (by omega), hg1]
      exact word_setWord_self (by omega)
    · rw [hg3]
      exact word_setWord_self (by decide)
  have hbh : g3.binHead = h.binHead := by
    rw [hg3, setWord_binHead, hf2, hg1]
    rfl
  refine ⟨len - 48, g3, hnew, by omega, fun p hp => ?_, hs.mono fun x hx => hx.imp_right ?_, by omega⟩
  · have hlenk : (Block.big (len - 48) (some p)).len = len := by
      simp only [Block.len]
      omega
    refine I.grow (hlenk ▸ hend) (by omega) (by simp only [hend, kernelHeapEnd]; omega)
      (.inr ⟨len - 48, some p, by rw [hg3, setWord_newestBig, hf5, update_self]⟩) (fun a' j hj x hx => ?_)
        (hbig p hp) (fun b hb => ?_) ?_
    · refine I.word_of_new hs hj ((I.ok a' j hj).owns_bounds hx) ?_
      rintro s o rfl
      rcases hx with rfl | rfl | rfl | ⟨-, rfl⟩ <;> omega
    · refine (I.bins b hb).frame (congrFun hbh b) (fun a' c t ha' => ?_) fun a' => ?_
      · exact I.word_of_new hs ha' ⟨le_rfl, by omega⟩ (by simp)
      · by_cases haa : a' = h.heapEnd
        · rw [haa, update_self, I.fresh]
          simp
        · rw [update_of_ne haa]
    · refine I.skip.frame (by rw [hg3, setWord_bigForward, hf3, hg1]; rfl)
        (by rw [hg3, setWord_level, hf4, hg1]; rfl)
        (fun a' s ha' => ⟨?_, fun i hi => ?_⟩) fun a' => ?_
      · exact I.word_of_new hs ha' ⟨by omega, by omega⟩ fun _ _ _ => by omega
      · exact I.word_of_new hs ha' ⟨by omega, by omega⟩ fun _ _ _ => by omega
      · by_cases haa : a' = h.heapEnd
        · rw [haa, update_self, I.fresh]
          simp
        · rw [update_of_ne haa]
  · rintro ⟨h0, h1, h2⟩
    obtain ⟨s, o, hso⟩ := I.newest.resolve_left h0
    exact ⟨h.newestBig, _, hso, .inl ⟨h1, by omega⟩⟩

end ChiffOS.Heap
