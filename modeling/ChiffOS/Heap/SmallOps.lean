import ChiffOS.Heap.SkipOps

/-! Taking a cell from a small bin, adding a new bin and giving a cell back keep the invariant.
Each changes bytes of the allocator's own only. -/

namespace ChiffOS.Heap

open Function List

variable {start a b c : ℕ} {h h' : Heap} {M M' : ℕ → Option Block} {k k' : Block} {t : List ℕ}

/-! ### What the parts of the invariant depend on -/

theorem BinOk.frame (B : BinOk h M b) (hh : h'.binHead b = h.binHead b)
    (hw : ∀ a c t, M a = some (.small b (c :: t)) → h'.word a = h.word a)
    (hM : ∀ a, (∃ c t, M' a = some (.small b (c :: t))) ↔ ∃ c t, M a = some (.small b (c :: t))) :
    BinOk h' M' b := by
  obtain ⟨l, h1, h2, h3⟩ := B
  refine ⟨l, h1.congr (congrArg ptr hh) fun a ha => ?_, h2, fun a => (h3 a).trans (hM a).symm⟩
  obtain ⟨c, t, hct⟩ := (h3 a).mp ha
  exact congrArg ptr (hw a c t hct)

theorem SkipOk.frame (S : SkipOk h M) (hf : h'.bigForward = h.bigForward) (hl : h'.level = h.level)
    (hw : ∀ a s, M a = some (.big s none) → h'.size a = h.size a ∧
      ∀ i ≤ 6, h'.word (a + 20 + 4 * i) = h.word (a + 20 + 4 * i))
    (hM : ∀ a, (∃ s, M' a = some (.big s none)) ↔ ∃ s, M a = some (.big s none)) : SkipOk h' M' := by
  obtain ⟨xs, h1, h2⟩ := S
  refine ⟨xs, ?_, fun a => (h2 a).trans (hM a).symm⟩
  rw [hl]
  refine h1.congr (fun x hx => ?_) (fun i _ => ?_) fun i hi x hx => ?_
  · obtain ⟨s, hs⟩ := (h2 x.1).mp (mem_map_of_mem hx)
    exact (hw x.1 s hs).1
  · exact congrArg ptr (congrFun hf i)
  · obtain ⟨s, hs⟩ := (h2 x.1).mp (mem_map_of_mem hx)
    exact congrArg ptr ((hw x.1 s hs).2 i hi)

namespace Inv

theorem aligned (I : Inv start h M) (hk : M a = some k) : a % 4096 = 0 := I.layout.aligned a k hk

theorem pos (I : Inv start h M) (hk : M a = some k) : 0 < a :=
  I.start_pos.trans_le (I.layout.start_le a k hk)

theorem lt_stop (I : Inv start h M) (hk : M a = some k) : a + 4096 ≤ h.heapEnd :=
  (Nat.add_le_add_left (I.ok a k hk).page_le a).trans (I.layout.le_stop a k hk)

theorem node (I : Inv start h M) (hk : M a = some k) : Node a := by
  have h1 := I.aligned hk
  have h2 := I.pos hk
  have h3 := I.lt_stop hk
  have h4 := I.stop_lt
  simp only [kernelHeapEnd] at h4
  exact ⟨h1, by omega, by omega⟩

theorem fresh (I : Inv start h M) : M h.heapEnd = none := by
  cases hk : M h.heapEnd with
  | none => rfl
  | some k =>
    have := I.lt_stop hk
    omega

theorem small (I : Inv start h M) (hk : M a = some (.small b t)) : SmallOk h a b t := I.ok a _ hk

theorem big {s : ℕ} {o : Option ℕ} (I : Inv start h M) (hk : M a = some (.big s o)) : BigOk h a s o :=
    I.ok a _ hk

/-- One block changes its state; what the other blocks read is unchanged. -/
theorem edit (I : Inv start h M) (hk : M a = some k) (hlen : k'.len = k.len) (hend : h'.heapEnd = h.heapEnd)
    (hnew : h'.newestBig = h.newestBig) (hbig : ∀ s o, k = .big s o → ∃ s o, k' = .big s o)
    (hother : ∀ a' j, a' ≠ a → M a' = some j → ∀ x, j.Owns a' x → h'.word x = h.word x)
    (hok : BlockOk h' a k') (hbins : ∀ b < bigBin, BinOk h' (update M a (some k')) b)
    (hskip : SkipOk h' (update M a (some k'))) :
    Inv start h' (update M a (some k')) := by
  refine ⟨I.start_pos, hend ▸ I.start_le, hend ▸ I.stop_aligned, hend ▸ I.stop_lt,
    hend ▸ I.layout.update hk hlen, ?_, hbins, hskip, ?_⟩
  · intro a' j hj
    by_cases ha : a' = a
    · subst ha
      rw [update_self, Option.some.injEq] at hj
      exact hj ▸ hok
    · rw [update_of_ne ha] at hj
      exact (I.ok a' j hj).congr (hother a' j ha hj)
  · rw [hnew]
    refine I.newest.imp_right ?_
    rintro ⟨s, o, hso⟩
    by_cases ha : h.newestBig = a
    · rw [ha, hk, Option.some.injEq] at hso
      obtain ⟨s', o', hk'⟩ := hbig s o hso
      exact ⟨s', o', by rw [ha, update_self, hk']⟩
    · exact ⟨s, o, by rw [update_of_ne ha, hso]⟩

theorem grow (I : Inv start h M) (hend : h'.heapEnd = h.heapEnd + k.len)
    (hpage : k.len % 4096 = 0) (hlt : h'.heapEnd < kernelHeapEnd)
    (hnew : h'.newestBig = 0 ∨ ∃ s o, update M h.heapEnd (some k) h'.newestBig = some (.big s o))
    (hother : ∀ a' j, M a' = some j → ∀ x, j.Owns a' x → h'.word x = h.word x) (hok : BlockOk h' h.heapEnd k)
    (hbins : ∀ b < bigBin, BinOk h' (update M h.heapEnd (some k)) b)
    (hskip : SkipOk h' (update M h.heapEnd (some k))) :
    Inv start h' (update M h.heapEnd (some k)) := by
  have hpos := hok.page_le
  have hle := I.start_le
  have hal := I.stop_aligned
  refine ⟨I.start_pos, by omega, by omega, hlt, hend ▸ I.layout.grow hal hle (by omega), ?_, hbins, hskip, hnew⟩
  · intro a' j hj
    by_cases ha : a' = h.heapEnd
    · subst ha
      rw [update_self, Option.some.injEq] at hj
      exact hj ▸ hok
    · rw [update_of_ne ha] at hj
      exact (I.ok a' j hj).congr (hother a' j hj)

end Inv

def InPage (a x : ℕ) : Prop := a ≤ x ∧ x < a + 4096

/-- A change within one page leaves the blocks elsewhere alone. -/
theorem SameOff.owns {a' : ℕ} {j : Block} (hs : SameOff (InPage a) h h') (hj : BlockOk h a' j)
    (hne : a + 4096 ≤ a' ∨ a' + 4096 ≤ a) {x : ℕ} (hx : j.Owns a' x) : h'.word x = h.word x := by
  have := hj.owns_bounds hx
  refine hs.word ?_
  rintro y h1 h2 ⟨h3, h4⟩
  omega

theorem SameOff.word_page {a' o : ℕ} (hs : SameOff (InPage a) h h') (hne : a + 4096 ≤ a' ∨ a' + 4096 ≤ a)
    (ho : o + 4 ≤ 4096) : h'.word (a' + o) = h.word (a' + o) := by
  refine hs.word ?_
  rintro y h1 h2 ⟨h3, h4⟩
  omega

/-! ### Small bins -/

theorem small_nonempty_update {t' : List ℕ} {b' : ℕ} (hk : ∀ j, M a = some j → j = .small b t) (hne : b' ≠ b)
    (a' : ℕ) : (∃ c t, update M a (some (.small b t')) a' = some (.small b' (c :: t))) ↔
      ∃ c t, M a' = some (.small b' (c :: t)) := by
  by_cases ha : a' = a
  · subst ha
    rw [update_self]
    refine ⟨?_, ?_⟩
    · rintro ⟨c, t, he⟩
      simp only [Option.some.injEq, Block.small.injEq] at he
      exact absurd he.1.symm hne
    · rintro ⟨c, t, he⟩
      have := hk _ he
      simp only [Block.small.injEq] at this
      exact absurd this.1 hne
  · rw [update_of_ne ha]

theorem big_free_update {t' : List ℕ} (hk : ∀ j, M a = some j → j = .small b t) (a' : ℕ) :
    (∃ s, update M a (some (.small b t')) a' = some (.big s none)) ↔ ∃ s, M a' = some (.big s none) := by
  by_cases ha : a' = a
  · subst ha
    rw [update_self]
    refine ⟨by simp, ?_⟩
    rintro ⟨s, hs⟩
    exact absurd (hk _ hs) (by simp)
  · rw [update_of_ne ha]

theorem Inv.editSmall {t' : List ℕ} (I : Inv start h M) (hk : M a = some (.small b t))
    (hs : SameOff (InPage a) h h') (hend : h'.heapEnd = h.heapEnd) (hnew : h'.newestBig = h.newestBig)
    (hf : h'.bigForward = h.bigForward) (hl : h'.level = h.level)
    (hbh : ∀ b' ≠ b, h'.binHead b' = h.binHead b') (hok : SmallOk h' a b t')
    (hbin : BinOk h' (update M a (some (.small b t'))) b) :
    Inv start h' (update M a (some (.small b t'))) := by
  have hka : ∀ j, M a = some j → j = .small b t := fun j hj => Option.some.inj (hj.symm.trans hk)
  have hpage : ∀ a' j, a' ≠ a → M a' = some j → a + 4096 ≤ a' ∨ a' + 4096 ≤ a := fun a' j ha hj =>
    I.layout.pages_apart hk hj ha.symm
  refine I.edit hk rfl hend hnew (by simp) (fun a' j ha hj x hx =>
    hs.owns (I.ok a' j hj) (hpage a' j ha hj) hx) hok
    (fun b' hb' => ?_) ?_
  · by_cases hbb : b' = b
    · exact hbb ▸ hbin
    · refine (I.bins b' hb').frame (hbh b' hbb) (fun a' c t' ha' => ?_) (small_nonempty_update hka hbb)
      have hne : a' ≠ a := by
        rintro rfl
        have := hka _ ha'
        simp only [Block.small.injEq] at this
        exact hbb this.1
      exact hs.word_page (hpage a' _ hne ha') (o := 0) (by omega)
  · refine I.skip.frame hf hl (fun a' s ha' => ?_) (big_free_update hka)
    have hne : a' ≠ a := by
      rintro rfl
      exact absurd (hka _ ha') (by simp)
    refine ⟨hs.word_page (hpage a' _ hne ha') (by omega), fun i hi => ?_⟩
    rw [Nat.add_assoc]
    exact hs.word_page (hpage a' _ hne ha') (by omega)

theorem takeCell_spec (I : Inv start h M) (hk : M a = some (.small b (c :: t))) (ha : h.binHead b = a) :
    ∃ h', h.takeCell b a = (c, h') ∧ Inv start h' (update M a (some (.small b t))) ∧
      SameOff (IsMeta M) h h' ∧ h'.heapEnd = h.heapEnd := by
  have S := I.small hk
  have hal := I.aligned hk
  obtain ⟨hc1, hc0⟩ := ptr_eq_some.mp S.stack.1
  have hcb := (S.cells c mem_cons_self).bounds
  have hc4 := four_le_cell b
  have hnext : ptr (h.word c) = t.head? := S.stack.2.head
  -- the header with its new stack
  set h1 := h.setWord (a + 4) (h.word c) with hh1
  have hmeta : ∀ x, a ≤ x → x < a + 16 → IsMeta M x := fun x h1 h2 => ⟨a, _, hk, .inl ⟨h1, h2⟩⟩
  have hs1 : SameOff (fun x => a ≤ x ∧ x < a + 16) h h1 :=
    (SameOff.refl _ h).setWord fun x _ _ => ⟨by omega, by omega⟩
  have hw1 : h1.word (a + 4) = h.word c := word_setWord_self (h.word_lt c)
  have htake : h.takeCell b a = (c, if h.word c = 0 then h1.listDecouple b a else h1) := by
    simp only [takeCell, stackPop, hc1, ← hh1, stackEmpty, hw1, decide_eq_true_eq]
  have hsmall : ∀ g : Heap, SameOff (fun x => a ≤ x ∧ x < a + 4) h1 g → SmallOk g a b t := by
    intro g hg
    have hgw : ∀ x, a + 8 ≤ x → g.word x = h.word x := fun x hx =>
      (hg.word (by omega)).trans (word_setWord_ne (by omega))
    refine ⟨S.bucket, (hgw _ (by omega)).trans S.magic, (hgw _ (by omega)).trans S.size, ?_,
      (nodup_cons.mp S.nodup).2, fun d hd => S.cells d (mem_cons_of_mem c hd)⟩
    refine S.stack.2.congr (congrArg ptr ((hg.word (by omega)).trans hw1)) fun d hd => ?_
    have := (S.cells d (mem_cons_of_mem c hd)).bounds
    exact congrArg ptr (hgw d (by omega))
  obtain ⟨l, hl1, hl2, hl3⟩ := I.bins b S.bucket
  cases t with
  | cons d t =>
    refine ⟨h1, ?_, ?_, hs1.mono fun x hx => hmeta x hx.1 hx.2, rfl⟩
    · rw [htake, if_neg fun he => by simp [he] at hnext]
    · refine I.editSmall hk (hs1.mono fun x hx => ⟨hx.1, by omega⟩) rfl rfl rfl rfl (fun _ _ => rfl)
        (hsmall h1 (SameOff.refl _ h1)) ?_
      refine (I.bins b S.bucket).frame rfl (fun a' c' t' ha' => ?_) fun a' => ?_
      · have := I.aligned ha'
        exact word_setWord_ne (by omega)
      · by_cases haa : a' = a
        · subst haa
          simp [hk]
        · rw [update_of_ne haa]
  | nil =>
    set h2 := { h1.setWord a 0 with binHead := update h1.binHead b (h1.word a) } with hh2
    have hs2 : SameOff (fun x => a ≤ x ∧ x < a + 4) h1 h2 :=
      fun x hx => (SameOff.refl (fun x => a ≤ x ∧ x < a + 4) h1).setWord (v := 0) (fun x h1 h2 => ⟨h1, h2⟩) x
        hx
    have hs : SameOff (fun x => a ≤ x ∧ x < a + 16) h h2 :=
      hs1.trans (hs2.mono fun x hx => ⟨hx.1, by omega⟩)
    refine ⟨h2, ?_, ?_, hs.mono fun x hx => hmeta x hx.1 hx.2, rfl⟩
    · rw [htake, if_pos (ptr_eq_none.mp hnext)]
      rfl
    · refine I.editSmall hk (hs.mono fun x hx => ⟨hx.1, by omega⟩) rfl rfl rfl rfl
        (fun b' hb' => update_of_ne hb' ..) (hsmall h2 hs2) ?_
      -- the bin is the first of its list
      have hla : l.head? = some a := by
        rw [← hl1.head]
        exact ha ▸ ptr_of_ne (by have := I.pos hk; omega)
      obtain ⟨rest, rfl⟩ : ∃ rest, l = a :: rest := by
        cases l with
        | nil => simp at hla
        | cons e rest => exact ⟨rest, by simp at hla; rw [hla]⟩
      obtain ⟨hna, hnr⟩ := nodup_cons.mp hl2
      refine ⟨rest, hl1.2.congr ?_ fun e he => ?_, hnr, fun e => ?_⟩
      · have : h1.word a = h.word a := word_setWord_ne (by omega)
        simp [binNext, hh2, this]
      · obtain ⟨c', t', hct⟩ := (hl3 e).mp (mem_cons_of_mem a he)
        have hea : e ≠ a := fun h => hna (h ▸ he)
        have := I.layout.pages_apart hk hct hea.symm
        exact congrArg ptr (hs.word (by omega))
      · by_cases hea : e = a
        · subst hea
          simp [hna]
        · rw [update_of_ne hea, ← hl3 e]
          simp [hea]

theorem giveCell_spec (I : Inv start h M) (hk : M a = some (.small b t)) (hc : IsCell a b c) (hct : c ∉ t) :
    ∃ h', (if h.stackEmpty a then h.listInsert b a else h).stackPush a c = h' ∧
      Inv start h' (update M a (some (.small b (c :: t)))) ∧
      SameOff (IsMeta (update M a (some (.small b (c :: t))))) h h' ∧ h'.heapEnd = h.heapEnd := by
  have S := I.small hk
  have hal := I.aligned hk
  have hnode := I.node hk
  have hcb := hc.bounds
  have hc4 := four_le_cell b
  have hlt := I.lt_stop hk
  have hstop := I.stop_lt
  simp only [kernelHeapEnd] at hstop
  obtain ⟨l, hl1, hl2, hl3⟩ := I.bins b S.bucket
  have hempty : h.stackEmpty a = true ↔ t = [] := by
    rw [stackEmpty, decide_eq_true_eq, ← List.head?_eq_none_iff, ← S.stack.head]
    exact ptr_eq_none.symm
  -- the bin back on its list, if it was full
  set h1 := if h.stackEmpty a then h.listInsert b a else h with hh1
  have hs1 : SameOff (fun x => a ≤ x ∧ x < a + 4) h h1 := by
    rw [hh1]
    split_ifs
    · exact fun x hx => (SameOff.refl (fun x => a ≤ x ∧ x < a + 4) h).setWord
        (v := h.binHead b) (fun x h1 h2 => ⟨h1, h2⟩) x hx
    · exact SameOff.refl _ h
  have hfields : h1.heapEnd = h.heapEnd ∧ h1.newestBig = h.newestBig ∧ h1.bigForward = h.bigForward ∧
      h1.level = h.level ∧ ∀ b' ≠ b, h1.binHead b' = h.binHead b' := by
    rw [hh1]
    split_ifs
    · exact ⟨rfl, rfl, rfl, rfl, fun b' hb' => update_of_ne hb' ..⟩
    · exact ⟨rfl, rfl, rfl, rfl, fun _ _ => rfl⟩
  set h2 := h1.stackPush a c with hh2
  have hmeta : ∀ x, ((a ≤ x ∧ x < a + 16) ∨ (c ≤ x ∧ x < c + 4)) →
      IsMeta (update M a (some (.small b (c :: t)))) x := by
    intro x hx
    refine ⟨a, _, update_self .., hx.imp_right fun hx => ⟨c, mem_cons_self, hx⟩⟩
  have hs : SameOff (fun x => (a ≤ x ∧ x < a + 16) ∨ (c ≤ x ∧ x < c + 4)) h h2 :=
    ((hs1.mono fun x hx => .inl ⟨hx.1, by omega⟩).setWord fun x h1 h2 => .inr ⟨h1, h2⟩).setWord
      fun x h1 h2 => .inl ⟨by omega, by omega⟩
  have hw : ∀ x, a + 8 ≤ x → (x + 4 ≤ c ∨ c + 4 ≤ x) → h2.word x = h.word x := by
    intro x hx hxc
    rw [hh2, stackPush, word_setWord_ne (by omega), word_setWord_ne (by omega)]
    exact hs1.word (by omega)
  refine ⟨h2, rfl, ?_, hs.mono hmeta, hfields.1⟩
  refine I.editSmall hk (hs.mono fun x hx => ⟨by omega, by omega⟩) hfields.1 hfields.2.1 hfields.2.2.1
    hfields.2.2.2.1 hfields.2.2.2.2 ?_ ?_
  · refine ⟨S.bucket, (hw _ (by omega) (by omega)).trans S.magic, (hw _ (by omega) (by omega)).trans S.size,
      ⟨?_, ?_⟩, nodup_cons.mpr ⟨hct, S.nodup⟩, ?_⟩
    · rw [stackNext, hh2, stackPush, word_setWord_self (by omega), ptr_of_ne (by omega)]
    · refine S.stack.congr ?_ fun d hd => congrArg ptr ?_
      · refine congrArg ptr (?_ : h2.word c = h.word (a + 4))
        rw [hh2, stackPush, word_setWord_ne (by omega), word_setWord_self (h1.word_lt _)]
        exact hs1.word (by omega)
      · have hd' := S.cells d hd
        have hdc : d ≠ c := fun he => hct (he ▸ hd)
        have := hd'.bounds
        have := hd'.apart hc hdc
        exact hw d (by omega) (by omega)
    · intro d hd
      rcases mem_cons.mp hd with rfl | hd
      · exact hc
      · exact S.cells d hd
  · have hword : ∀ e, e ≠ a → e % 4096 = 0 → h2.word e = h.word e := fun e hea he =>
      hs.word (by omega)
    cases t with
    | cons d t =>
      have hh : h1 = h := if_neg (by simp [hempty])
      refine (I.bins b S.bucket).frame (by rw [hh2, hh]; rfl) (fun a' c' t' ha' => ?_) fun a' => ?_
      · have ha4 := I.aligned ha'
        rw [hh2, hh, stackPush, word_setWord_ne (by omega), word_setWord_ne (by omega)]
      · by_cases haa : a' = a
        · subst haa
          simp [hk]
        · rw [update_of_ne haa]
    | nil =>
      have hh : h1 = h.listInsert b a := if_pos (hempty.mpr rfl)
      have hal' : a ∉ l := fun hm => by
        obtain ⟨c', t', he⟩ := (hl3 a).mp hm
        simp [hk] at he
      refine ⟨a :: l, ⟨?_, hl1.congr ?_ fun e he => ?_⟩, nodup_cons.mpr ⟨hal', hl2⟩, fun e => ?_⟩
      · rw [binNext, hh2, hh]
        simp only [stackPush, listInsert, setWord_binHead, update_self]
        exact ptr_of_ne hnode.2.1
      · have hbl : h.binHead b < 2 ^ 32 := by
          cases l with
          | nil =>
            have : h.binHead b = 0 := ptr_eq_none.mp hl1
            omega
          | cons e l =>
            have he := (ptr_eq_some.mp hl1.1).1
            obtain ⟨c', t', hct⟩ := (hl3 e).mp mem_cons_self
            have := (I.node hct).2.2
            omega
        refine congrArg ptr (?_ : h2.word a = h.binHead b)
        rw [hh2, hh, stackPush, word_setWord_ne (by omega), word_setWord_ne (by omega)]
        exact word_setWord_self hbl
      · obtain ⟨c', t', hct⟩ := (hl3 e).mp he
        exact congrArg ptr (hword e (fun h => hal' (h ▸ he)) (I.aligned hct))
      · by_cases hea : e = a
        · subst hea
          simp
        · rw [update_of_ne hea, ← hl3 e]
          simp [hea]

/-! ### New bins -/

/-- The cells of a new bin, in stack order. -/
def allCells (a b : ℕ) : List ℕ := (List.range' 0 (cellCount b)).map fun i => a + 16 + i * 2 ^ (b + 2)

theorem mem_allCells : c ∈ allCells a b ↔ IsCell a b c := by
  simp only [allCells, mem_map, mem_range'_1, IsCell]
  constructor
  · rintro ⟨i, hi, rfl⟩
    exact ⟨i, by omega, rfl⟩
  · rintro ⟨i, hi, rfl⟩
    exact ⟨i, by omega, rfl⟩

theorem allCells_nodup (a b : ℕ) : (allCells a b).Nodup := by
  refine (nodup_range' : (List.range' 0 (cellCount b)).Nodup).map fun i j hij => ?_
  have hpos : 0 < 2 ^ (b + 2) := by positivity
  exact Nat.eq_of_mul_eq_mul_right hpos (by simpa using hij)

theorem cellCount_pos (hb : b < bigBin) : 0 < cellCount b := by
  unfold bigBin at hb
  interval_cases b <;> decide

theorem four_mul_shift (i b : ℕ) : 4 * (i <<< b) = i * 2 ^ (b + 2) := by
  rw [Nat.shiftLeft_eq, pow_add]
  ring

theorem initStack_below {base n x : ℕ} (hx : x + 4 ≤ base) : (h.initStack base b n).word x = h.word x := by
  induction n with
  | zero => rfl
  | succ n ih => rw [initStack, word_setWord_ne (by omega), ih]

theorem initStack_word {base n i : ℕ} (hn : base + n * 2 ^ (b + 2) < 2 ^ 32) (hi : i < n) :
    (h.initStack base b n).word (base + i * 2 ^ (b + 2)) = base + (i + 1) * 2 ^ (b + 2) := by
  have hcell := four_le_cell b
  induction n with
  | zero => omega
  | succ n ih =>
    rw [initStack, four_mul_shift, four_mul_shift]
    rcases Nat.lt_or_ge i n with hin | hin
    · have hlt := Nat.mul_le_mul_right (2 ^ (b + 2)) hin
      rw [Nat.succ_mul] at hlt
      rw [word_setWord_ne (by omega)]
      refine ih ?_ hin
      rw [Nat.succ_mul] at hn
      omega
    · obtain rfl : i = n := by omega
      exact word_setWord_self hn

@[simp] theorem initStack_fields (h : Heap) (base b n : ℕ) :
    (h.initStack base b n).heapEnd = h.heapEnd ∧ (h.initStack base b n).binHead = h.binHead ∧
    (h.initStack base b n).bigForward = h.bigForward ∧ (h.initStack base b n).level = h.level ∧
    (h.initStack base b n).newestBig = h.newestBig := by
  induction n with
  | zero => exact ⟨rfl, rfl, rfl, rfl, rfl⟩
  | succ n ih => exact ih

theorem SameOff.initStack {S : ℕ → Prop} {base n : ℕ} (hs : SameOff S h h')
    (hS : ∀ x, base ≤ x → x < base + n * 2 ^ (b + 2) → S x) : SameOff S h (h'.initStack base b n) := by
  induction n with
  | zero => exact hs
  | succ n ih =>
    have hcell := four_le_cell b
    rw [Heap.initStack]
    refine (ih fun x h1 h2 => hS x h1 ?_).setWord fun x h1 h2 => ?_
    · rw [Nat.succ_mul]
      omega
    · rw [four_mul_shift] at h1 h2
      refine hS x (by omega) ?_
      rw [Nat.succ_mul]
      omega

theorem sbrk_sameOff (h : Heap) (n : ℕ) :
    SameOff (fun x => h.heapEnd ≤ x ∧ x < h.heapEnd + n) h (h.sbrk n).2 := by
  intro x hx
  have hout : x < h.heapEnd ∨ h.heapEnd + n ≤ x := by omega
  exact (Buf.blit_out hout : h.mem.blit h.heapEnd (fun _ => 0) n x = h.mem x)

/-- The heap with a new bin of the size `b` at its old end. -/
structure BinAdded (h g : Heap) (b : ℕ) : Prop where
  heapEnd : g.heapEnd = h.heapEnd + 4096
  binHead : g.binHead = update h.binHead b h.heapEnd
  newestBig : g.newestBig = h.newestBig
  bigForward : g.bigForward = h.bigForward
  level : g.level = h.level
  off : SameOff (InPage h.heapEnd) h g
  next : ptr (g.word h.heapEnd) = none
  cells : SmallOk g h.heapEnd b (allCells h.heapEnd b)

theorem newBin_added (hpos : 0 < h.heapEnd) (hb : b < bigBin) (hempty : h.binHead b = 0)
    (hroom : h.heapEnd + 4096 < kernelHeapEnd) : ∃ g, h.newBin b = (h.heapEnd, g) ∧ BinAdded h g b := by
  have hcount := cellCount_pos hb
  have hcells := cellCount_mul_le b
  have hcell := four_le_cell b
  simp only [kernelHeapEnd] at hroom
  set a := h.heapEnd with ha
  obtain ⟨n, hn⟩ : ∃ n, cellCount b = n + 1 := ⟨cellCount b - 1, by omega⟩
  rw [hn, Nat.succ_mul] at hcells
  set g1 := ((h.sbrk 4096).2.setWord (a + 12) binMagic).setWord (a + 4) (a + 16) with hg1
  set g2 := g1.listInsert b a with hg2
  set g3 := (g2.initStack (a + 16) b n).setWord (a + 16 + 4 * (n <<< b)) 0 with hg3
  set g4 := g3.setWord (a + 8) b with hg4
  have hnew : h.newBin b = (a, g4) := by
    have hav : ((pageSize - 16) >>> (smallestBinLog + b)) - 1 = n := by
      rw [smallestBinLog, Nat.add_comm 2 b]
      exact Nat.sub_eq_of_eq_add hn
    simp only [newBin, hav]
    rfl
  obtain ⟨hf1, hf2, hf3, hf4, hf5⟩ := initStack_fields g2 (a + 16) b n
  -- the header words, which the cells do not touch
  have hw3 : ∀ x, x + 4 ≤ a + 16 → g3.word x = g2.word x := fun x hx => by
    rw [hg3, word_setWord_ne (by omega), initStack_below hx]
  have hw2 : ∀ x, a + 4 ≤ x → g2.word x = g1.word x := fun x hx => word_setWord_ne (by omega)
  refine ⟨g4, hnew, ?_, ?_, ?_, ?_, ?_, ?_, ?_, ?_⟩
  · rw [hg4, hg3, setWord_heapEnd, setWord_heapEnd, hf1]
    exact Nat.mod_eq_of_lt (by omega)
  · rw [hg4, hg3, setWord_binHead, setWord_binHead, hf2]
    rfl
  · rw [hg4, hg3, setWord_newestBig, setWord_newestBig, hf5]
    rfl
  · rw [hg4, hg3, setWord_bigForward, setWord_bigForward, hf3]
    rfl
  · rw [hg4, hg3, setWord_level, setWord_level, hf4]
    rfl
  · have h0 : SameOff (InPage a) h (h.sbrk 4096).2 := sbrk_sameOff h 4096
    have h1 : SameOff (InPage a) h g1 := (h0.setWord fun x _ _ => ⟨by omega, by omega⟩).setWord
      fun x _ _ => ⟨by omega, by omega⟩
    have h2 : SameOff (InPage a) h g2 := h1.setWord fun x _ _ => ⟨by omega, by omega⟩
    refine ((h2.initStack fun x _ _ => ⟨by omega, by omega⟩).setWord fun x h1 h2 => ?_).setWord
      fun x _ _ => ⟨by omega, by omega⟩
    rw [four_mul_shift] at h1 h2
    exact ⟨by omega, by omega⟩
  · rw [hg4, word_setWord_ne (by omega), hw3 _ (by omega), hg2]
    refine ptr_eq_none.mpr ((word_setWord_self ?_).trans ?_)
    · exact hempty ▸ Nat.two_pow_pos 32
    · exact hempty
  · have hb32 : b < 2 ^ 32 := by
      simp only [bigBin] at hb
      omega
    refine ⟨hb, ?_, word_setWord_self hb32, Chain.of_range ?_ ?_, allCells_nodup a b, fun c hc =>
      mem_allCells.mp hc⟩
    · rw [hg4, word_setWord_ne (by omega), hw3 _ (by omega), hw2 _ (by omega), hg1,
        word_setWord_ne (by omega)]
      exact word_setWord_self (by decide)
    · rw [if_pos hcount, stackNext, hg4, word_setWord_ne (by omega), hw3 _ (by omega), hw2 _ (by omega), hg1,
        word_setWord_self (by omega), ptr_of_ne (by omega), Nat.zero_mul, Nat.add_zero]
    · intro i _ hi
      rw [Nat.zero_add, hn] at hi ⊢
      rw [stackNext, hg4, word_setWord_ne (by omega), hg3, four_mul_shift]
      rcases Nat.lt_or_ge i n with hin | hin
      · have hlt := Nat.mul_le_mul_right (2 ^ (b + 2)) hin
        rw [Nat.succ_mul] at hlt
        rw [if_pos (by omega), word_setWord_ne (by omega), initStack_word (by omega) hin,
          ptr_of_ne (by omega)]
      · obtain rfl : i = n := by omega
        rw [if_neg (by omega), word_setWord_self (by decide), ptr_zero]

/-- The list of the bin, which was empty, has the new page. -/
theorem BinAdded.bin {g : Heap} (I : Inv start h M) (h' : BinAdded h g b) (hpos : 0 < h.heapEnd)
    (hb : b < bigBin)
    (hempty : h.binHead b = 0) : BinOk g (update M h.heapEnd (some (.small b (allCells h.heapEnd b)))) b := by
  obtain ⟨l, hl1, -, hl3⟩ := I.bins b hb
  obtain rfl : l = [] := by
    have := hl1.head
    rw [binNext, hempty, ptr_zero] at this
    exact List.head?_eq_none_iff.mp this.symm
  refine ⟨[h.heapEnd], ⟨?_, ?_⟩, nodup_singleton _, fun e => ?_⟩
  · rw [binNext, h'.binHead, update_self, ptr_of_ne (by omega)]
  · rw [Chain.nil_iff]
    exact h'.next
  · by_cases hea : e = h.heapEnd
    · obtain ⟨n, hn⟩ := Nat.exists_eq_succ_of_ne_zero (Nat.ne_of_gt (cellCount_pos hb))
      have hne : allCells h.heapEnd b =
        (h.heapEnd + 16 + 0 * 2 ^ (b + 2)) :: (allCells h.heapEnd b).tail := by
        rw [allCells, hn, List.range'_succ, map_cons, tail_cons]
      rw [hea]
      simp only [mem_singleton, true_iff]
      exact ⟨_, _, (update_self ..).trans (congrArg (fun l => some (Block.small b l)) hne)⟩
    · rw [update_of_ne hea, ← hl3 e]
      simp [hea]

/-- The branch of `klmalloc` that adds a bin to an empty bucket. -/
theorem newBin_spec (I : Inv start h M) (hb : b < bigBin) (hempty : h.binHead b = 0)
    (hroom : h.heapEnd + 4096 < kernelHeapEnd) :
    ∃ h', h.newBin b = (h.heapEnd, h') ∧
      Inv start h' (update M h.heapEnd (some (.small b (allCells h.heapEnd b)))) ∧
      SameOff (InPage h.heapEnd) h h' ∧ h'.heapEnd = h.heapEnd + 4096 ∧ h'.binHead b = h.heapEnd := by
  have hpos : 0 < h.heapEnd := I.start_pos.trans_le I.start_le
  obtain ⟨g, hnew, hadd⟩ := newBin_added hpos hb hempty hroom
  simp only [kernelHeapEnd] at hroom
  have hfresh : ∀ {t : List ℕ} j, M h.heapEnd = some j → j = .small b t := fun j hj => by
    rw [I.fresh] at hj
    simp at hj
  have hpage : ∀ a' j, M a' = some j → h.heapEnd + 4096 ≤ a' ∨ a' + 4096 ≤ h.heapEnd := fun a' j hj =>
    .inr (I.lt_stop hj)
  refine ⟨g, hnew, ?_, hadd.off, hadd.heapEnd, by rw [hadd.binHead, update_self]⟩
  refine I.grow hadd.heapEnd (by simp [Block.len]) (by rw [hadd.heapEnd, kernelHeapEnd]; omega) ?_
    (fun a' j hj x hx => hadd.off.owns (I.ok a' j hj) (hpage a' j hj) hx) hadd.cells (fun b' hb' => ?_) ?_
  · rw [hadd.newestBig]
    refine I.newest.imp_right ?_
    rintro ⟨s, o, hso⟩
    have hne : h.newestBig ≠ h.heapEnd := fun he => by
      rw [he, I.fresh] at hso
      simp at hso
    exact ⟨s, o, by rw [update_of_ne hne, hso]⟩
  · by_cases hbb : b' = b
    · subst hbb
      exact hadd.bin I hpos hb hempty
    · refine (I.bins b' hb').frame ?_ (fun a' c t ha' => ?_) (small_nonempty_update (t := []) hfresh hbb)
      · rw [hadd.binHead, update_of_ne hbb]
      · exact hadd.off.word_page (hpage a' _ ha') (o := 0) (by omega)
  · refine I.skip.frame hadd.bigForward hadd.level
      (fun a' s ha' => ⟨hadd.off.word_page (hpage a' _ ha') (by omega), fun i hi => ?_⟩)
        (big_free_update (t := []) hfresh)
    rw [Nat.add_assoc]
    exact hadd.off.word_page (hpage a' _ ha') (by omega)

end ChiffOS.Heap
