import ChiffOS.Ext2.Layout

/-! What `allocate_block` and `allocate_inode` do to a volume: the first clear bit of the first group
that counts one is set, and the bitmap, the descriptor table and the superblock follow. -/

namespace ChiffOS.Ext2

open Buf

/-- The bitmap was written with one more bit, and then the descriptor blocks, wherever these are. -/
structure BitWritten (P : Pool) (g j : ℕ) (d d' : Disk) : Prop where
  mem : d'.toMem = P.take d.toMem g
  bitmap : (∀ i < d.bgdBlockSpan, P.bitmap d.toMem g ≠ d.bgdOffset + i) →
    d'.blocks (P.bitmap d.toMem g) = (d.blocks (P.bitmap d.toMem g)).setBit j
  table : ∀ i < d.bgdBlockSpan, ∀ x < d.blockSize,
    d'.blocks (d.bgdOffset + i) x = d'.blockGroups (d.blockSize * i + x)
  beyond : ∀ b x, d.blockSize ≤ x → d'.blocks b x = d.blocks b x
  rest : ∀ b, b ≠ P.bitmap d.toMem g → (∀ i < d.bgdBlockSpan, b ≠ d.bgdOffset + i) → d'.blocks b = d.blocks b
  sbCopy : d'.sbCopy = d'.superblock.take 1024

structure Marked (P : Pool) (g j : ℕ) (d d' : Disk) : Prop where
  mem : d'.toMem = P.take d.toMem g
  bitmap : d'.blocks (P.bitmap d.toMem g) = (d.blocks (P.bitmap d.toMem g)).setBit j
  table : ∀ i < d.bgdBlockSpan, ∀ x < d.blockSize,
    d'.blocks (d.bgdOffset + i) x = d'.blockGroups (d.blockSize * i + x)
  rest : ∀ b, b ≠ P.bitmap d.toMem g → (∀ i < d.bgdBlockSpan, b ≠ d.bgdOffset + i) → d'.blocks b = d.blocks b
  sbCopy : d'.sbCopy = d'.superblock.take 1024

def Pool.First (P : Pool) (d : Disk) (g j : ℕ) : Prop :=
  (List.range d.blockGroupCount).find? (fun i => 0 < P.count d.toMem i) = some g ∧
    (d.blocks (P.bitmap d.toMem g)).firstClear (8 * d.blockSize) 0 = some j

section Scan

variable {P : Pool} {d : Disk} {g j : ℕ}

theorem scanGroups_none (hz : ∀ g < d.blockGroupCount, P.count d.toMem g = 0) :
    Does (scanGroups P.count P.bitmap) d 0 fun r d' => r = none ∧ d' = d := by
  have hfind : (List.range d.blockGroupCount).find? (fun i => decide (0 < P.count d.toMem i)) = none := by
    simpa using hz
  refine does_this (does_malloc fun buf => ?_)
  rw [hfind]
  exact .pure ⟨rfl, rfl⟩

theorem scanGroups_first (hf : P.First d g j) (hu : d.Usable (P.bitmap d.toMem g)) :
    Does (scanGroups P.count P.bitmap) d 1 fun r d' => d' = d ∧
      ∃ buf, r = some (g, j, buf) ∧ SameOn buf (d.blocks (P.bitmap d.toMem g)) 0 d.blockSize := by
  have hsame : ∀ buf : Buf, SameOn (buf.blit 0 (d.blocks (P.bitmap d.toMem g)) d.blockSize)
      (d.blocks (P.bitmap d.toMem g)) 0 d.blockSize :=
    fun buf i h1 h2 => blit_in h1 h2
  refine does_this (does_malloc fun buf => ?_)
  rw [hf.1]
  refine does_readBlock hu ?_
  have hscan : (buf.blit 0 (d.blocks (P.bitmap d.toMem g)) d.blockSize).firstClear (8 * d.blockSize) 0 =
    some j := by
    rw [← hf.2]
    exact firstClear_congr fun k h1 h2 => bit_congr (hsame buf _ (Nat.zero_le _) (by omega))
  dsimp only
  rw [hscan]
  exact .pure ⟨rfl, _, rfl, hsame buf⟩

theorem Pool.zero_or_first (hle : P.size d.toMem ≤ 8 * d.blockSize)
    (hc : ∀ g < d.blockGroupCount, 0 < P.count d.toMem g →
      0 < (d.blocks (P.bitmap d.toMem g)).clearBits (P.size d.toMem)) :
    (∀ g < d.blockGroupCount, P.count d.toMem g = 0) ∨
      ∃ g j, P.First d g j ∧ P.Clear d g j ∧ 0 < P.count d.toMem g := by
  cases hfind : (List.range d.blockGroupCount).find? (fun i => decide (0 < P.count d.toMem i)) with
  | none => exact .inl (by simpa using hfind)
  | some g =>
    have hg : g < d.blockGroupCount := List.mem_range.mp (List.mem_of_find?_eq_some hfind)
    have hpos : 0 < P.count d.toMem g := by simpa using List.find?_some hfind
    obtain ⟨j, hj, hlt⟩ := firstClear_of_clear hle (hc g hg hpos)
    exact .inr ⟨g, j, ⟨hfind, hj⟩, ⟨hg, hlt, (firstClear_some hj).2.2.1⟩, hpos⟩

theorem Pool.Counted.zero_or_first (hc : P.Counted d) : (∀ g < d.blockGroupCount, P.count d.toMem g = 0) ∨
    ∃ g j, P.First d g j ∧ P.Clear d g j ∧ 0 < P.count d.toMem g :=
  Pool.zero_or_first hc.size_le fun g hg h => hc.count g hg ▸ h

theorem Pool.Counted.first (hc : P.Counted d) (hpos : ∃ g < d.blockGroupCount, 0 < P.count d.toMem g) :
    ∃ g j, P.First d g j ∧ P.Clear d g j ∧ 0 < P.count d.toMem g := by
  refine hc.zero_or_first.resolve_left fun hz => ?_
  obtain ⟨g, hg, h⟩ := hpos
  exact h.ne' (hz g hg)

end Scan

section Mark

variable {P : Pool} {d : Disk} {g j : ℕ}

theorem writeDescriptors_spec (left : ℕ) : ∀ (i : ℕ) (d : Disk),
    (∀ k < i + left, i ≤ k → d.Usable (d.bgdOffset + k)) →
    Does (writeDescriptors i left) d left fun _ d' => d'.toMem = d.toMem ∧
      (∀ k < i + left, i ≤ k → ∀ x < d.blockSize, d'.blocks (d.bgdOffset + k) x =
        d.blockGroups (d.blockSize * k + x)) ∧
      (∀ b, (∀ k < i + left, i ≤ k → b ≠ d.bgdOffset + k) → d'.blocks b = d.blocks b) ∧
      ∀ b x, d.blockSize ≤ x → d'.blocks b x = d.blocks b x := by
  induction left with
  | zero => exact fun i d _ => .pure ⟨rfl, fun k h1 h2 => absurd h1 (by omega), fun _ _ => rfl, fun _ _ _ =>
    rfl⟩
  | succ left ih =>
    intro i d hu
    refine does_this (does_writeBlock (hu i (by omega) le_rfl) ?_)
    refine (ih (i + 1) (d.put (d.bgdOffset + i) (d.blockGroups.drop (d.blockSize * i)))
      fun k h1 h2 => hu k (by omega) (by omega)).mono le_rfl ?_
    rintro - d' ⟨h1, h2, h3, h4⟩
    refine ⟨h1, fun k hk hik x hx => ?_, fun b hb => ?_, fun b x hx =>
      (h4 b x hx).trans (Disk.put_beyond d _ _ b hx)⟩
    · rcases Nat.eq_or_lt_of_le hik with rfl | hlt
      · rw [h3 (d.bgdOffset + i) fun k' h4 h5 => by change _ ≠ d.bgdOffset + k'; omega]
        simp only [Disk.put, Disk.setBlock_self]
        rw [blit_in (Nat.zero_le _) (by omega), drop_apply, Nat.sub_zero]
      · exact h2 k (by omega) (by omega) x hx
    · rw [h3 b fun k h4 h5 => hb k (by omega) (by omega)]
      exact Function.update_of_ne (hb i (by omega) le_rfl) _ _

theorem setBit_blit {b c : Buf} {n j : ℕ} (h : SameOn b c 0 n) (hj : j < 8 * n) :
    c.blit 0 (b.setBit j) n = c.setBit j := by
  funext i
  by_cases hi : i < n
  · rw [blit_in (Nat.zero_le _) (by omega)]
    simp only [setBit, Nat.sub_zero, h i (Nat.zero_le _) (by omega)]
  · rw [blit_out (by omega), setBit, if_neg (by omega)]

theorem markUsed_written {buf : Buf} (hu : d.Usable (P.bitmap d.toMem g))
    (hdesc : ∀ i < d.bgdBlockSpan, d.Usable (d.bgdOffset + i)) (hj : j < 8 * d.blockSize)
    (hbuf : SameOn buf (d.blocks (P.bitmap d.toMem g)) 0 d.blockSize) :
    Does (markUsed P.bitmap P.countField P.totalField g j buf) d (d.bgdBlockSpan + 1) fun _ d' =>
      BitWritten P g j d d' := by
  refine does_this (does_writeBlock hu (does_setBlockGroups ?_))
  refine Prog.Does.bind (m := 0) (writeDescriptors_spec d.bgdBlockSpan 0 _ ?_) ?_
  · exact fun k h1 _ => hdesc k (by omega)
  rintro - d' ⟨h1, h2, h3, h4⟩
  refine does_setSuperblock (does_rewriteSuperblock ⟨?_, ?_, ?_, ?_, ?_, rfl⟩)
  · simp only [h1]
    rfl
  · intro hne
    have := h3 (P.bitmap d.toMem g) fun k hk _ => hne k (by simpa using hk)
    simp only [this, Disk.put, Disk.setBlock_self]
    exact setBit_blit hbuf hj
  · intro i hi x hx
    simp only [h1]
    exact h2 i (by omega) (by omega) x hx
  · intro b x hx
    exact (h4 b x hx).trans (Disk.put_beyond d _ _ b hx)
  · intro b hb hb'
    have := h3 b fun k hk _ => hb' k (by simpa using hk)
    simp only [this, Disk.put]
    exact Function.update_of_ne hb _ _

theorem BitWritten.marked {d' : Disk} (h : BitWritten P g j d d')
    (hne : ∀ i < d.bgdBlockSpan, P.bitmap d.toMem g ≠ d.bgdOffset + i) :
    Marked P g j d d' := ⟨h.mem, h.bitmap hne, h.table, h.rest, h.sbCopy⟩

theorem markUsed_spec {buf : Buf} (hu : d.Usable (P.bitmap d.toMem g))
    (hdesc : ∀ i < d.bgdBlockSpan, d.Usable (d.bgdOffset + i))
    (hne : ∀ i < d.bgdBlockSpan, P.bitmap d.toMem g ≠ d.bgdOffset + i) (hj : j < 8 * d.blockSize)
    (hbuf : SameOn buf (d.blocks (P.bitmap d.toMem g)) 0 d.blockSize) :
    Does (markUsed P.bitmap P.countField P.totalField g j buf) d (d.bgdBlockSpan + 1) fun _ d' =>
      Marked P g j d d' :=
  (markUsed_written hu hdesc hj hbuf).mono le_rfl fun _ _ h => h.marked hne

end Mark

section Effect

variable {S : ℕ → Prop} {P Q : Pool} {d d' : Disk} {g h i j : ℕ}

theorem Placed.mem_bitmap (hp : Placed S d.toMem) (P : Pool) (hg : g < d.blockGroupCount) :
    S (P.bitmap d.toMem g) :=
  Meta.block_ofPool P d.toMem g ▸ hp.mem _ (by simpa)

theorem Placed.mem_table (hp : Placed S d.toMem) : ∀ i < d.bgdBlockSpan, S (d.bgdOffset + i) :=
  fun i hi => hp.mem (.descriptor i) (hp.span i hi)

theorem Placed.bitmap_ne_table (hp : Placed S d.toMem) (hg : g < d.blockGroupCount) :
    ∀ i < d.bgdBlockSpan, P.bitmap d.toMem g ≠ d.bgdOffset + i := by
  intro i hi he
  rw [← Meta.block_ofPool] at he
  have := hp.inj (.ofPool P g) (.descriptor i) (by simpa) (hp.span i hi) he
  simp at this

theorem Placed.bitmap_inj (hp : Placed S d.toMem) (hg : g < d.blockGroupCount) (hh : h < d.blockGroupCount)
    (he : P.bitmap d.toMem g = Q.bitmap d.toMem h) : P = Q ∧ g = h := by
  rw [← Meta.block_ofPool, ← Meta.block_ofPool] at he
  exact Meta.ofPool_inj.mp (hp.inj _ _ (by simpa) (by simpa) he)

theorem Marked.bitmap_ne (hm : Marked P g j d d') (hp : Placed S d.toMem) (hg : g < d.blockGroupCount)
    (hh : h < d.blockGroupCount) (hne : ¬ (Q = P ∧ h = g)) :
    d'.blocks (Q.bitmap d'.toMem h) = d.blocks (Q.bitmap d.toMem h) := by
  rw [hm.mem, Pool.take_bitmap]
  exact hm.rest _ (fun he => hne (hp.bitmap_inj hh hg he)) (hp.bitmap_ne_table hh)

theorem Marked.bitmap_self (hm : Marked P g j d d') :
    d'.blocks (P.bitmap d'.toMem g) = (d.blocks (P.bitmap d.toMem g)).setBit j := by
  rw [hm.mem, Pool.take_bitmap, hm.bitmap]

theorem Marked.clear_iff (hm : Marked P g j d d') (hp : Placed S d.toMem) (hg : g < d.blockGroupCount) :
    Q.Clear d' h i ↔ Q.Clear d h i ∧ ¬ (Q = P ∧ h = g ∧ i = j) := by
  have hcount : d'.blockGroupCount = d.blockGroupCount := by rw [hm.mem]; rfl
  have hsize : Q.size d'.toMem = Q.size d.toMem := by rw [hm.mem, Pool.take_size]
  unfold Pool.Clear
  rw [hcount, hsize]
  by_cases hself : Q = P ∧ h = g
  · obtain ⟨rfl, rfl⟩ := hself
    rw [hm.bitmap_self, bit_setBit]
    by_cases hij : i = j <;> simp [hij]
  · constructor
    · rintro ⟨h1, h2, h3⟩
      rw [hm.bitmap_ne hp hg h1 hself] at h3
      exact ⟨⟨h1, h2, h3⟩, fun hc => hself ⟨hc.1, hc.2.1⟩⟩
    · rintro ⟨⟨h1, h2, h3⟩, -⟩
      rw [hm.bitmap_ne hp hg h1 hself]
      exact ⟨h1, h2, h3⟩

theorem Marked.counted (hm : Marked P g j d d') (hp : Placed S d.toMem) (hj : P.Clear d g j)
    (hpos : 0 < P.count d.toMem g) (hc : Q.Counted d) : Q.Counted d' := by
  have hcount : d'.blockGroupCount = d.blockGroupCount := by rw [hm.mem]; rfl
  have hbs : d'.blockSize = d.blockSize := by rw [hm.mem]; rfl
  have hsize : Q.size d'.toMem = Q.size d.toMem := by rw [hm.mem, Pool.take_size]
  refine ⟨by rw [hsize, hbs]; exact hc.size_le, fun h hh => ?_⟩
  rw [hcount] at hh
  rw [hsize]
  by_cases hself : Q = P ∧ h = g
  · obtain ⟨rfl, rfl⟩ := hself
    have h1 := Pool.take_count_self hpos
    have h2 := clearBits_setBit hj.2.1 hj.2.2
    rw [hm.bitmap_self, hm.mem]
    have h3 := hc.count h hh
    omega
  · rw [hm.bitmap_ne hp hj.1 hh hself, hm.mem, Pool.take_count_ne (not_and_or.mp hself), hc.count h hh]

end Effect

theorem Pool.clear_congr {Q : Pool} {d d' : Disk} (hm : d'.toMem = d.toMem)
    (hb : ∀ g < d.blockGroupCount, d'.blocks (Q.bitmap d.toMem g) = d.blocks (Q.bitmap d.toMem g)) {g j : ℕ} :
    Q.Clear d' g j ↔ Q.Clear d g j := by
  unfold Pool.Clear
  rw [hm]
  exact ⟨fun ⟨h1, h2, h3⟩ => ⟨h1, h2, hb g h1 ▸ h3⟩, fun ⟨h1, h2, h3⟩ => ⟨h1, h2, (hb g h1).symm ▸ h3⟩⟩

theorem Pool.Counted.congr {Q : Pool} {d d' : Disk} (hc : Q.Counted d) (hm : d'.toMem = d.toMem)
    (hb : ∀ g < d.blockGroupCount, d'.blocks (Q.bitmap d.toMem g) = d.blocks (Q.bitmap d.toMem g)) :
    Q.Counted d' :=
  ⟨by rw [hm]; exact hc.size_le, fun g hg => by rw [hm] at hg ⊢; rw [hb g hg]; exact hc.count g hg⟩

/-! ### The allocators -/

/-- The volume as the allocators need it: the blocks of `S` can be accessed, the metadata has its
places, and the pools are counted. -/
structure AllocOk (S : ℕ → Prop) (d : Disk) : Prop where
  usable : ∀ b, S b → d.Usable b
  placed : Placed S d.toMem
  free : FreeOk S d

variable {S : ℕ → Prop} {d d' : Disk} {g j : ℕ}

namespace AllocOk

theorem usable_bitmap (h : AllocOk S d) (P : Pool) (hg : g < d.blockGroupCount) : d.Usable
    (P.bitmap d.toMem g) :=
  h.usable _ (h.placed.mem_bitmap P hg)

theorem usable_free (h : AllocOk S d) (hj : Pool.blocks.Clear d g j) : d.Usable (d.blockAt g j) :=
  h.usable _ (h.free.mem _ ⟨g, j, hj, rfl⟩)

end AllocOk

/-- One call of an allocator took bit `j` of group `g`; a new block is cleared as well. -/
structure Took (P : Pool) (g j : ℕ) (d d' : Disk) : Prop where
  clear : P.Clear d g j
  pos : 0 < P.count d.toMem g
  mem : d'.toMem = P.take d.toMem g
  clear_iff : ∀ Q h i, Q.Clear d' h i ↔ Q.Clear d h i ∧ ¬ (Q = P ∧ h = g ∧ i = j)
  counted : ∀ Q : Pool, Q.Counted d → Q.Counted d'
  rest : ∀ b, b ≠ P.bitmap d.toMem g → (∀ i < d.bgdBlockSpan, b ≠ d.bgdOffset + i) →
    (P = .blocks → b ≠ d.blockAt g j) → d'.blocks b = d.blocks b
  zero : P = .blocks → ∀ x < d.blockSize, d'.blocks (d.blockAt g j) x = 0

theorem Marked.took (h : AllocOk S d) (hm : Marked .inodes g j d d') (hj : Pool.inodes.Clear d g j)
    (hp : 0 < Pool.inodes.count d.toMem g) : Took .inodes g j d d' where
  clear := hj
  pos := hp
  mem := hm.mem
  clear_iff _ _ _ := hm.clear_iff h.placed hj.1
  counted _ hc := hm.counted h.placed hj hp hc
  rest b h1 h2 _ := hm.rest b h1 h2
  zero h := by simp at h

theorem Marked.took_put (h : AllocOk S d) (hm : Marked .blocks g j d d') (hj : Pool.blocks.Clear d g j)
    (hp : 0 < Pool.blocks.count d.toMem g) : Took .blocks g j d (d'.put (d.blockAt g j) fun _ => 0) := by
  -- the new block holds no bitmap
  have hb : ∀ (Q : Pool), ∀ g' < d'.blockGroupCount,
    (d'.put (d.blockAt g j) fun _ => 0).blocks (Q.bitmap d'.toMem g') =
      d'.blocks (Q.bitmap d'.toMem g') := by
    intro Q g' hg'
    rw [hm.mem] at hg' ⊢
    rw [Pool.take_bitmap]
    refine Function.update_of_ne ?_ _ _
    rw [← Meta.block_ofPool]
    exact h.free.unused _ ⟨g, j, hj, rfl⟩ _ ((Meta.live_ofPool Q _ _).mpr hg')
  refine ⟨hj, hp, hm.mem, fun Q x y => ?_, fun Q hc => ?_, fun b h1 h2 h3 => ?_, fun _ x hx => ?_⟩
  · have hmem : (d'.put (d.blockAt g j) fun _ => 0).toMem = d'.toMem := rfl
    exact (Pool.clear_congr hmem (hb Q)).trans (hm.clear_iff h.placed hj.1)
  · exact (hm.counted h.placed hj hp hc).congr rfl (hb Q)
  · exact (Function.update_of_ne (h3 rfl) _ _).trans (hm.rest b h1 h2)
  · have hbs : d'.blockSize = d.blockSize := by rw [hm.mem]; rfl
    simp only [Disk.put, Disk.setBlock_self]
    exact blit_in (Nat.zero_le _) (by omega)

/-- Taking a bit keeps what the allocators need. -/
theorem AllocOk.took (h : AllocOk S d) {P : Pool} (hm : Took P g j d d') : AllocOk S d' := by
  have hbs : d'.blockSize = d.blockSize := by rw [hm.mem]; rfl
  have hat : d'.blockAt = d.blockAt := by
    funext a b
    simp only [Mem.blockAt, hm.mem, Pool.take_blocksPerGroup]
  have hfree : ∀ b, d'.FreeBlock b → d.FreeBlock b := by
    rintro b ⟨a, c, hc, rfl⟩
    exact ⟨a, c, ((hm.clear_iff _ _ _).mp hc).1, by rw [hat]⟩
  refine ⟨fun b hb => ?_, hm.mem ▸ h.placed.take P g, fun b hb => h.free.mem b (hfree b hb), fun b hb r hr =>
    ?_⟩
  · unfold Mem.Usable
    rw [hbs]
    exact h.usable b hb
  · rw [hm.mem, Meta.block_take]
    rw [hm.mem, Meta.live_take] at hr
    exact h.free.unused b (hfree b hb) r hr

theorem Pool.First.group_lt {P : Pool} (hf : P.First d g j) : g < d.blockGroupCount :=
  List.mem_range.mp (List.mem_of_find?_eq_some hf.1)

theorem Pool.First.lt {P : Pool} (hf : P.First d g j) : j < 8 * d.blockSize := by
  have := (firstClear_some hf.2).2.1
  omega

theorem Mem.Usable.lt {m : Mem} {b : ℕ} (h : m.Usable b) (hbs : 0 < m.blockSize) : b < 2 ^ 32 := by
  have h1 : b + 1 ≤ (b + 1) * m.blockSize := Nat.le_mul_of_pos_right _ hbs
  have h2 := h.2.2
  omega

theorem clear_eq_zero (dst b : Buf) (n : ℕ) : dst.blit 0 (b.clear 0 n) n = dst.blit 0 (fun _ => 0) n :=
  blit_congr fun _ h => blit_in (Nat.zero_le _) (by omega)

theorem allocateBlock_written (hb : d.Usable (Pool.blocks.bitmap d.toMem g))
    (hdesc : ∀ i < d.bgdBlockSpan, d.Usable (d.bgdOffset + i)) (hf : Pool.blocks.First d g j)
    (hu : d.Usable (d.blockAt g j)) :
    Does allocateBlock d (d.bgdBlockSpan + 3) fun b d' => b = d.blockAt g j ∧
      ∃ d₁, BitWritten .blocks g j d d₁ ∧ d' = d₁.put b fun _ => 0 := by
  have hlt : (j + d.blocksPerGroup * g) % 2 ^ 32 = d.blockAt g j :=
    Nat.mod_eq_of_lt (hu.lt (by have := hf.lt; omega))
  refine does_this (((scanGroups_first hf hb).bind (m := d.bgdBlockSpan + 2) ?_).mono (by omega) fun _ _ hq =>
    hq)
  rintro r d0 ⟨rfl, buf, rfl, hbuf⟩
  dsimp only
  rw [hlt, if_neg hu.1]
  refine (markUsed_written (P := .blocks) hb hdesc hf.lt hbuf).bind (m := 1) ?_
  rintro - d1 hm
  have hbs : d1.blockSize = d0.blockSize := by rw [hm.mem]; rfl
  refine does_writeBlock (by unfold Mem.Usable; rw [hbs]; exact hu) (.pure ⟨rfl, d1, hm, ?_⟩)
  simp only [Disk.put, ← hbs, clear_eq_zero]

theorem allocateBlock_first (hS : ∀ b, S b → d.Usable b) (hp : Placed S d.toMem)
    (hf : Pool.blocks.First d g j)
    (hu : d.Usable (d.blockAt g j)) :
    Does allocateBlock d (d.bgdBlockSpan + 3) fun b d' => b = d.blockAt g j ∧
      ∃ d₁, Marked .blocks g j d d₁ ∧ d' = d₁.put b fun _ => 0 := by
  refine (allocateBlock_written (hS _ (hp.mem_bitmap .blocks hf.group_lt)) (fun i hi =>
    hS _ (hp.mem_table i hi)) hf hu).mono le_rfl ?_
  rintro b d' ⟨hb, d₁, hm, hd⟩
  exact ⟨hb, d₁, hm.marked (hp.bitmap_ne_table hf.group_lt), hd⟩

theorem allocateBlock_spec (h : AllocOk S d) (hc : Pool.blocks.Counted d)
    (hpos : ∃ g < d.blockGroupCount, 0 < Pool.blocks.count d.toMem g) :
    Does allocateBlock d (d.bgdBlockSpan + 3) fun b d' => ∃ g j, b = d.blockAt g j ∧
      Took .blocks g j d d' := by
  obtain ⟨g, j, hf, hj, hp⟩ := hc.first hpos
  refine (allocateBlock_first h.usable h.placed hf (h.usable_free hj)).mono le_rfl ?_
  rintro b d' ⟨rfl, d1, hm, rfl⟩
  exact ⟨g, j, rfl, hm.took_put h hj hp⟩

theorem allocateBlock_none (hz : ∀ g < d.blockGroupCount, Pool.blocks.count d.toMem g = 0) :
    Does allocateBlock d 0 fun b d' => b = 0 ∧ d' = d := by
  refine does_this ((scanGroups_none hz).bind (m := 0) ?_)
  rintro r d0 ⟨rfl, rfl⟩
  exact .pure ⟨rfl, rfl⟩

theorem allocateInode_spec (h : AllocOk S d) (hc : Pool.inodes.Counted d)
    (hlt : d.blockGroupCount * d.inodesPerGroup < 2 ^ 32)
    (hpos : ∃ g < d.blockGroupCount, 0 < Pool.inodes.count d.toMem g) :
    Does allocateInode d (d.bgdBlockSpan + 2) fun n d' => ∃ g j, n = d.inodeAt g j ∧
      Took .inodes g j d d' := by
  obtain ⟨g, j, hf, hj, hp⟩ := hc.first hpos
  have hmod : (j + g * d.inodesPerGroup + 1) % 2 ^ 32 = d.inodeAt g j := by
    have h1 : j < d.inodesPerGroup := hj.2.1
    have h2 : (g + 1) * d.inodesPerGroup ≤ d.blockGroupCount * d.inodesPerGroup := Nat.mul_le_mul_right _ hj.1
    have h3 := Nat.succ_mul g d.inodesPerGroup
    exact Nat.mod_eq_of_lt (by simp only [Nat.succ_eq_add_one] at h3; omega)
  refine does_this (((scanGroups_first hf (h.usable_bitmap .inodes hj.1)).bind
    (m := d.bgdBlockSpan + 1) ?_).mono (by omega) fun _ _ hq => hq)
  rintro r d0 ⟨rfl, buf, rfl, hbuf⟩
  dsimp only
  rw [hmod, if_neg (by unfold Mem.inodeAt; omega)]
  refine (markUsed_spec (P := .inodes) (h.usable_bitmap .inodes hj.1)
    (fun i hi => h.usable _ (h.placed.mem_table i hi)) (h.placed.bitmap_ne_table hj.1) hf.lt hbuf).bind (m :=
      0) ?_
  exact fun _ d1 hm => .pure ⟨g, j, rfl, hm.took h hj hp⟩

end ChiffOS.Ext2
