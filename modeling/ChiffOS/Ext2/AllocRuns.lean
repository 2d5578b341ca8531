import ChiffOS.Ext2.AllocSpec

/-! Any number of calls of the two allocators, on the mounted file system. -/

namespace ChiffOS.Ext2

open Buf Prog

def Pool.allocate : Pool → Ext2M ℕ
  | blocks => allocateBlock
  | inodes => allocateInode

/-- The counts agree with the bitmaps and the totals with the counts, and what holds metadata is
marked as used. -/
structure Balanced (d : Disk) : Prop where
  size : d.SizeOk
  span : d.bgdBlockSpan = 32 * d.blockGroupCount / d.blockSize + 1
  part : 32 * d.blockGroupCount % d.blockSize ≠ 0
  inodes : d.blockGroupCount * d.inodesPerGroup < 2 ^ 32
  counted : ∀ P : Pool, P.Counted d
  total : ∀ P : Pool, P.total d.toMem = P.free d.toMem
  reserved : ∀ b, d.FreeBlock b → b ≠ 0 ∧ b ≠ 1024 / d.blockSize
  used : ∀ b, d.FreeBlock b → ∀ r : Meta, r.Live d.toMem → r.block d.toMem ≠ b

/-- What one call should do: it fails exactly if all counts are zero and then changes nothing in
memory or on the disk; otherwise one clear bit gets set, its number is returned, and the group's
count and the superblock's total go down by one. -/
structure CallOk (P : Pool) (fs : Fs) (n : ℕ) (fs' : Fs) : Prop where
  fails : n = 0 ↔ ∀ g < fs.blockGroupCount, P.count fs.toMem g = 0
  nothing : n = 0 → fs'.disk = fs.disk
  taken : n ≠ 0 → ∃ g j, P.Clear fs.disk g j ∧ n = P.numberAt fs.toMem g j ∧
    P.count fs'.toMem g + 1 = P.count fs.toMem g ∧ P.total fs'.toMem + 1 = P.total fs.toMem ∧
    (∀ Q h, ¬ (Q = P ∧ h = g) → Q.count fs'.toMem h = Q.count fs.toMem h) ∧
    (∀ Q, Q ≠ P → Q.total fs'.toMem = Q.total fs.toMem) ∧
    ∀ Q h i, Q.Clear fs'.disk h i ↔ Q.Clear fs.disk h i ∧ ¬ (Q = P ∧ h = g ∧ i = j)

def AllocatorsOk : List Pool → (given : List (Pool × ℕ)) → Fs → Prop
  | [], _, fs => Balanced fs.disk
  | P :: calls, given, fs => Balanced fs.disk ∧ ∃ n fs', P.allocate.run fsHandler fs = some (n, fs') ∧
    CallOk P fs n fs' ∧ (n ≠ 0 → (P, n) ∉ given) ∧ AllocatorsOk calls ((P, n) :: given) fs'

theorem Fs.disk_heap (fs : Fs) (heap : ℕ → Buf) : ({ fs with heap := heap } : Fs).disk = fs.disk := by
  have hsync : ({ fs with heap := heap } : Fs).synced = fs.synced := by
    unfold Fs.synced Fs.ext2Sync
    dsimp only
    split <;> rfl
  simp only [Fs.disk, hsync]

/-- With all counts at zero the call returns 0 and only took a buffer from the heap. -/
theorem allocate_full {P : Pool} {fs : Fs} (hz : ∀ g < fs.blockGroupCount, P.count fs.toMem g = 0) :
    P.allocate.run fsHandler fs = some (0, { fs with heap := fun i => fs.heap (i + 1) }) := by
  have hfind : (List.range fs.blockGroupCount).find? (fun i => decide (0 < P.count fs.toMem i)) = none := by
    simpa using hz
  have hscan : (scanGroups P.count P.bitmap).run fsHandler fs =
      some (none, { fs with heap := fun i => fs.heap (i + 1) }) := by
    simp [scanGroups, this, malloc, fsHandler, hfind]
  cases P with
  | blocks =>
    change (allocateBlock).run fsHandler fs = _
    unfold allocateBlock
    change (scanGroups Mem.freeBlocks Mem.blockBitmap).run fsHandler fs = _ at hscan
    simp [this, fsHandler, hscan]
  | inodes =>
    change (allocateInode).run fsHandler fs = _
    unfold allocateInode
    change (scanGroups Mem.freeInodes Mem.inodeBitmap).run fsHandler fs = _ at hscan
    simp [this, fsHandler, hscan]

variable {S : ℕ → Prop}

theorem Fs.Shows.bitmap {fs : Fs} {v : Vol} (h : fs.Shows v) (ha : AllocOk S v.toDisk) (P : Pool) :
    ∀ g < v.blockGroupCount, fs.disk.blocks (P.bitmap v.toMem g) = v.blocks (P.bitmap v.toMem g) :=
  fun _ hg => (h.block _ ((h.usable_iff _).mp (ha.usable_bitmap P hg))).symm

theorem Fs.Shows.clear_iff {fs : Fs} {v : Vol} (h : fs.Shows v) (ha : AllocOk S v.toDisk) {P : Pool}
    {g j : ℕ} : P.Clear fs.disk g j ↔ P.Clear v.toDisk g j :=
  Pool.clear_congr h.mem.symm (h.bitmap ha P)

theorem Fs.Shows.allocOk {fs : Fs} {v : Vol} (h : fs.Shows v) (ha : AllocOk S v.toDisk) :
    AllocOk S fs.disk := by
  have hm : fs.disk.toMem = v.toMem := h.mem.symm
  have hfree : ∀ b, fs.disk.FreeBlock b → v.FreeBlock b := by
    rintro b ⟨g, j, hc, rfl⟩
    exact ⟨g, j, (h.clear_iff ha).mp hc, by rw [hm]⟩
  exact ⟨fun b hb => hm ▸ ha.usable b hb, hm ▸ ha.placed, fun b hb => ha.free.mem b (hfree b hb),
    fun b hb => hm ▸ ha.free.unused b (hfree b hb)⟩

theorem Balanced.took {d d' : Disk} (hb : Balanced d) {P : Pool} {g j : ℕ} (ht : Took P g j d d') :
    Balanced d' := by
  have hmem := ht.mem
  have hfree : ∀ b, d'.FreeBlock b → d.FreeBlock b := by
    rintro b ⟨a, c, hc, rfl⟩
    exact ⟨a, c, ((ht.clear_iff _ _ _).mp hc).1, by simp [Mem.blockAt, hmem]⟩
  have hpos : 0 < P.total d.toMem := by
    rw [hb.total P]
    exact ht.pos.trans_le (Finset.single_le_sum (fun _ _ => Nat.zero_le _) (Finset.mem_range.mpr ht.clear.1))
  refine ⟨?_, ?_, ?_, ?_, fun Q => ht.counted Q (hb.counted Q), fun Q => ?_, fun b h => ?_, fun b h r hr =>
    ?_⟩
  · unfold Mem.SizeOk; rw [hmem]; exact hb.size
  · rw [hmem]; exact hb.span
  · rw [hmem]; exact hb.part
  · rw [hmem]; exact hb.inodes
  · rw [hmem]
    by_cases hQ : Q = P
    · subst hQ
      have h1 := Pool.take_total_self (g := g) hpos
      have h2 := Pool.take_free_self ht.clear.1 ht.pos
      have h3 := hb.total Q
      omega
    · rw [Pool.take_total_ne hQ, Pool.take_free_ne hQ, hb.total Q]
  · rw [hmem]; exact hb.reserved b (hfree b h)
  · rw [hmem, Meta.block_take]
    rw [hmem, Meta.live_take] at hr
    exact hb.used b (hfree b h) r hr

theorem Balanced.congr {d d' : Disk} (hb : Balanced d) (hm : d'.toMem = d.toMem)
    (hbit : ∀ P : Pool, ∀ g < d.blockGroupCount, d'.blocks (P.bitmap d.toMem g) =
      d.blocks (P.bitmap d.toMem g)) :
    Balanced d' := by
  have hfree : ∀ b, d'.FreeBlock b → d.FreeBlock b := by
    rintro b ⟨g, j, hc, rfl⟩
    exact ⟨g, j, (Pool.clear_congr hm (hbit .blocks)).mp hc, by rw [hm]⟩
  refine ⟨hm ▸ hb.size, hm ▸ hb.span, hm ▸ hb.part, hm ▸ hb.inodes, fun P => (hb.counted P).congr hm (hbit P),
    fun P => hm ▸ hb.total P, fun b h => hm ▸ hb.reserved b (hfree b h), fun b h =>
      hm ▸ hb.used b (hfree b h)⟩

/-- The cache is absent or its clock has `k` ticks left. -/
def Fs.ClockRoom (fs : Fs) (k : ℕ) : Prop := fs.diskCache.isSome → fs.cacheTime + k < uint32Max

/-- What a run of the allocators keeps. -/
structure AllocState (fs : Fs) : Prop where
  balanced : Balanced fs.disk
  good : fs.Good fs.Usable
  alloc : AllocOk fs.Usable fs.disk

theorem Pool.allocate_spec (P : Pool) {d : Disk} (hb : Balanced d) (ha : AllocOk S d)
    (hpos : ∃ g < d.blockGroupCount, 0 < P.count d.toMem g) :
    Does P.allocate d (d.bgdBlockSpan + 3) fun n d' => n ≠ 0 ∧
      ∃ g j, n = P.numberAt d.toMem g j ∧ Took P g j d d' := by
  cases P with
  | blocks =>
    refine (allocateBlock_spec ha (hb.counted _) hpos).mono le_rfl ?_
    rintro n d' ⟨g, j, rfl, ht⟩
    exact ⟨(ha.usable_free ht.clear).1, g, j, rfl, ht⟩
  | inodes =>
    refine (allocateInode_spec ha (hb.counted _) hb.inodes hpos).mono (by omega) ?_
    rintro n d' ⟨g, j, rfl, ht⟩
    exact ⟨Nat.succ_ne_zero _, g, j, rfl, ht⟩

theorem AllocState.call {fs : Fs} (h : AllocState fs) (P : Pool)
    (hclock : fs.ClockRoom (fs.bgdBlockSpan + 3)) :
    ∃ n fs', P.allocate.run fsHandler fs = some (n, fs') ∧ CallOk P fs n fs' ∧ AllocState fs' ∧
      (fs'.toMem = fs.toMem ∨ ∃ g, fs'.toMem = P.take fs.toMem g) ∧
        (∀ k, fs.ClockRoom (fs.bgdBlockSpan + 3 + k) → fs'.ClockRoom k) := by
  by_cases hz : ∀ g < fs.blockGroupCount, P.count fs.toMem g = 0
  · refine ⟨0, _, allocate_full hz, ⟨by simpa using hz, fun _ => fs.disk_heap _, fun h0 => absurd rfl h0⟩,
      ⟨?_, ?_, ?_⟩,
      .inl rfl, fun k hk hc => by have := hk hc; change fs.cacheTime + k < uint32Max; omega⟩
    · rw [fs.disk_heap]; exact h.balanced
    · exact ⟨h.good.size, h.good.apart, h.good.cache⟩
    · rw [fs.disk_heap]; exact h.alloc
  · push Not at hz
    have hpos : ∃ g < fs.disk.blockGroupCount, 0 < P.count fs.disk.toMem g :=
      hz.imp fun g hg => ⟨hg.1, Nat.pos_of_ne_zero hg.2⟩
    obtain ⟨n, fs', v', hrun, hshow, hcached, hticks, hn, g, j, rfl, ht⟩ :=
      (Fs.shows_self h.balanced.size h.good).does (P.allocate_spec h.balanced h.alloc hpos) hclock
    have hmem : fs'.toMem = P.take fs.toMem g := hshow.mem.symm.trans ht.mem
    have halloc := h.alloc.took ht
    have hclear : ∀ (Q : Pool) (a b : ℕ), Q.Clear fs'.disk a b ↔ Q.Clear fs.disk a b ∧
      ¬ (Q = P ∧ a = g ∧ b = j) :=
      fun Q a b => (hshow.clear_iff halloc).trans (ht.clear_iff Q a b)
    have husable : fs'.Usable = fs.Usable := by rw [hmem]; rfl
    have hpt : 0 < P.total fs.toMem := by
      have htot : P.total fs.toMem = P.free fs.toMem := h.balanced.total P
      rw [htot]
      exact ht.pos.trans_le
        (Finset.single_le_sum (fun _ _ => Nat.zero_le _) (Finset.mem_range.mpr ht.clear.1))
    refine ⟨_, fs', hrun,
      ⟨?_, fun h0 => absurd h0 hn, fun _ => ⟨g, j, ht.clear, rfl, ?_, ?_, ?_, ?_, hclear⟩⟩,
      ⟨?_, hshow.good, ?_⟩, .inr ⟨g, hmem⟩, fun k hk hc => ?_⟩
    · exact ⟨fun h0 => absurd h0 hn, fun hall => absurd (hall g ht.clear.1) ht.pos.ne'⟩
    · rw [hmem]; exact Pool.take_count_self ht.pos
    · rw [hmem]; exact Pool.take_total_self hpt
    · exact fun Q h hne => by rw [hmem]; exact Pool.take_count_ne (not_and_or.mp hne)
    · exact fun Q hne => by rw [hmem]; exact Pool.take_total_ne hne
    · exact (h.balanced.took ht).congr hshow.mem.symm fun Q => hshow.bitmap halloc Q
    · rw [husable]; exact hshow.allocOk halloc
    · have h1 := hshow.clock hc
      have h2 := hk (hcached ▸ hc)
      change _ ≤ fs.cacheTime + (fs.bgdBlockSpan + 3) at hticks
      omega

def Pool.FreeNumber (P : Pool) (d : Disk) (n : ℕ) : Prop := ∃ g j, P.Clear d g j ∧ n = P.numberAt d.toMem g j

theorem CallOk.freeNumber {P Q : Pool} {fs fs' : Fs} {n m : ℕ} (h : CallOk P fs n fs')
    (hnum : Q.numberAt fs'.toMem = Q.numberAt fs.toMem) (hm : Q.FreeNumber fs'.disk m) :
    Q.FreeNumber fs.disk m ∧ (n ≠ 0 → ¬ (Q = P ∧ m = n)) := by
  obtain ⟨a, b, hc, rfl⟩ := hm
  change Q.FreeNumber fs.disk (Q.numberAt fs'.toMem a b) ∧ (n ≠ 0 → ¬ (Q = P ∧ Q.numberAt fs'.toMem a b = n))
  rw [hnum]
  by_cases hn : n = 0
  · rw [h.nothing hn] at hc
    exact ⟨⟨a, b, hc, rfl⟩, fun h0 => absurd hn h0⟩
  · obtain ⟨g, j, hg, rfl, -, -, -, -, hclear⟩ := h.taken hn
    obtain ⟨h1, h2⟩ := (hclear Q a b).mp hc
    refine ⟨⟨a, b, h1, rfl⟩, fun _ => ?_⟩
    rintro ⟨rfl, he⟩
    exact h2 ⟨rfl, Pool.numberAt_inj h1.2.1 hg.2.1 he⟩

theorem AllocState.calls (calls : List Pool) : ∀ {fs : Fs} {given : List (Pool × ℕ)}, AllocState fs →
    (∀ p ∈ given, p.2 ≠ 0 → ¬ p.1.FreeNumber fs.disk p.2) →
    fs.ClockRoom (calls.length * (fs.bgdBlockSpan + 3)) → AllocatorsOk calls given fs := by
  induction calls with
  | nil => exact fun h _ _ => h.balanced
  | cons P calls ih =>
    intro fs given h hgiven hclock
    rw [List.length_cons, Nat.succ_mul, Nat.add_comm] at hclock
    obtain ⟨n, fs', hrun, hok, hstate, hmem, hroom⟩ := h.call P fun hc => by have := hclock hc; omega
    have hnum : ∀ Q : Pool, Q.numberAt fs'.toMem = Q.numberAt fs.toMem := by
      intro Q
      rcases hmem with he | ⟨g, he⟩ <;> rw [he]
      exact Pool.numberAt_take
    have hspan : fs'.bgdBlockSpan = fs.bgdBlockSpan := by
      rcases hmem with he | ⟨g, he⟩ <;> rw [he]
      rfl
    refine ⟨h.balanced, n, fs', hrun, hok, fun hn hmem => ?_, ih hstate ?_ ?_⟩
    · obtain ⟨g, j, hg, rfl, -⟩ := hok.taken hn
      exact hgiven _ hmem hn ⟨g, j, hg, rfl⟩
    · intro p hp hp0 hfree
      obtain ⟨h1, h2⟩ := hok.freeNumber (hnum p.1) hfree
      rcases List.mem_cons.mp hp with rfl | hp
      · exact h2 hp0 ⟨rfl, rfl⟩
      · exact hgiven p hp hp0 h1
    · rw [hspan]
      exact hroom _ hclock

/-- Different pieces of metadata are in different blocks, neither block 0 nor the superblock's, and
the device offsets of the metadata and of the free blocks do not wrap. -/
structure MetaApart (d : Disk) : Prop where
  inj : ∀ r s : Meta, r.Live d.toMem → s.Live d.toMem → r.block d.toMem = s.block d.toMem → r = s
  usable : ∀ r : Meta, r.Live d.toMem → d.Usable (r.block d.toMem)
  below : ∀ b, d.FreeBlock b → (b + 1) * d.blockSize ≤ 2 ^ 32

theorem allocators_never_twice (fs : Fs) (calls : List Pool) (hb : Balanced fs.disk) (hm : MetaApart fs.disk)
    (hcache : fs.Good fs.Usable) (hclock : fs.ClockRoom (calls.length * (fs.bgdBlockSpan + 3))) :
    AllocatorsOk calls [] fs := by
  have hspan : ∀ i < fs.bgdBlockSpan, i * fs.blockSize < 32 * fs.blockGroupCount :=
    fun i hi => Mem.descriptor_lt (m := fs.toMem) hb.span hb.part hi
  have hfree : ∀ b, fs.disk.FreeBlock b → fs.Usable b :=
    fun b h => ⟨(hb.reserved b h).1, (hb.reserved b h).2, hm.below b h⟩
  exact AllocState.calls calls ⟨hb, hcache, fun _ h => h, ⟨hspan, hm.usable, hm.inj⟩, hfree, hb.used⟩
    (by simp) hclock

def smallFs : Fs where
  superblock := ((setU32 (fun _ => 0) 12 9).setU32 16 5).setU32 32 16
  blockGroups := ((((setU32 (fun _ => 0) 0 3).setU32 4 4).setU32 8 5).setU16 12 9).setU16 14 5
  blockSize := 1024
  pointersPerBlock := 256
  inodesPerGroup := 8
  blockGroupCount := 1
  bgdBlockSpan := 1
  bgdOffset := 2
  inodeSize := 128
  blockDevice := fun a =>
    if a = 3072 then 0x3F else if a = 3073 then 0x80 else if a = 4096 then 7
    else if a = 5377 then 0x80 else if a = 5380 then 3 else if a = 5404 then 2 else if a = 5416 then 15
    else if a = 15360 then 1 else if a = 15361 then 2 else if a = 15362 then 3 else 0
  diskCache := some (Fs.emptyCache 2)
  cacheTime := 0
  heap := fun _ _ => 0

theorem smallFs_balanced : Balanced smallFs.disk where
  size := ⟨0, by norm_num, rfl⟩
  span := rfl
  part := by decide
  inodes := by decide
  counted P := by
    refine ⟨by cases P <;> decide, fun g hg => ?_⟩
    obtain rfl : g = 0 := Nat.lt_one_iff.mp hg
    cases P <;> decide +kernel
  total P := by cases P <;> decide +kernel
  reserved _ h := h.of_clear (P := fun b => b ≠ 0 ∧ b ≠ 1024 / 1024) (by decide +kernel)
  used _ h r hr := h.of_clear (P := fun b => ∀ r ∈ smallFs.metas, r.block smallFs.toMem ≠ b)
    (by decide +kernel)
    r (hr.mem_metas (by decide))

theorem smallFs_apart : MetaApart smallFs.disk where
  inj := Mem.metas_inj (m := smallFs.toMem) (by decide) (by decide)
  usable r hr :=
    (by decide : ∀ r ∈ smallFs.metas, smallFs.Usable (r.block smallFs.toMem)) r (hr.mem_metas (by decide))
  below _ h := h.of_clear (P := fun b => (b + 1) * 1024 ≤ 2 ^ 32) (by decide +kernel)

theorem allocators_never_twice_small : AllocatorsOk [.blocks, .inodes, .blocks] [] smallFs :=
  allocators_never_twice smallFs _ smallFs_balanced smallFs_apart
    (Fs.good_emptyCache (n := 2) (by norm_num) (by decide) (Mem.usable_noAlias ⟨0, by norm_num, rfl⟩) rfl)
    fun _ => by decide

def largeMem : Mem where
  superblock := (setU32 (fun _ => 0) 12 1).setU32 32 65536
  blockGroups :=
    ((((((setU32 (fun _ => 0) 0 2).setU32 4 3).setU32 8 4).setU32 32 5).setU32 36 6).setU32 40 7).setU16 44 1
  blockSize := 65536
  pointersPerBlock := 16384
  inodesPerGroup := 16
  blockGroupCount := 2
  bgdBlockSpan := 1
  bgdOffset := 1
  inodeSize := 128

/-- The volume with this geometry on which the free block is the one for bit `x` of group 1 and
inode 11 is an empty regular file. -/
def largeFs (x : ℕ) : Fs where
  toMem := largeMem
  blockDevice := fun a =>
    if a / 65536 = 2 ∨ a / 65536 = 3 ∨ a / 65536 = 6 then 255
    else if a / 65536 = 5 then (if a % 65536 = 0 then UInt8.ofNat (255 - 2 ^ x) else 255)
    else if a = 4 * 65536 + 10 * 128 + 1 then 0x80 else 0
  diskCache := none
  cacheTime := 0
  heap := fun _ _ => 0

theorem largeMem_size : ∀ P : Pool, P.size largeMem = if P = .blocks then 65536 else 16
  | .blocks => by decide
  | .inodes => rfl

theorem largeMem_bitmap : ∀ P : Pool, ∀ g < 2, P.bitmap largeMem g = if P = .blocks ∧ g = 1 then 5 else
    if P = .blocks then 2 else if g = 0 then 3 else 6
  | .blocks => by decide
  | .inodes => by decide

theorem largeMem_meta {r : Meta} (h : r.Live largeMem) : 1 ≤ r.block largeMem ∧ r.block largeMem ≤ 7 :=
  (by decide : ∀ r ∈ largeMem.metas, 1 ≤ r.block largeMem ∧ r.block largeMem ≤ 7) r (h.mem_metas (by decide))

theorem largeFs_byte (x : ℕ) {b i : ℕ} (hb : b < 65536) (hi : i < 65536) :
    (largeFs x).disk.blocks b i = (largeFs x).blockDevice (b * 65536 + i) := by
  have hoff : blockOffset 65536 b = b * 65536 := Nat.mod_eq_of_lt (by omega)
  change ((largeFs x).synced.drop (blockOffset 65536 b)).take 65536 i = _
  rw [take_in hi, hoff]
  rfl

theorem largeFs_full (x : ℕ) {b n : ℕ} (hb : b = 2 ∨ b = 3 ∨ b = 6) (hn : n < 8 * 65536) :
    ((largeFs x).disk.blocks b).bit n = true := by
  refine bit_ff ?_
  rw [largeFs_byte x (by omega) (by omega)]
  exact if_pos (by omega)

theorem largeFs_bit {x n : ℕ} (hx : x < 8) (hn : n < 8 * 65536) :
    ((largeFs x).disk.blocks 5).bit n = decide (n ≠ x) := by
  have hbyte := largeFs_byte x (b := 5) (i := n / 8) (by norm_num) (by omega)
  have hdev : (largeFs x).blockDevice (5 * 65536 + n / 8) =
      if n / 8 = 0 then UInt8.ofNat (255 - 2 ^ x) else 255 := by
    simp only [largeFs]
    rw [if_neg (by omega), if_pos (by omega)]
    congr 1
    rw [show (5 * 65536 + n / 8) % 65536 = n / 8 by omega]
  rw [hdev] at hbyte
  by_cases h8 : n / 8 = 0
  · have key : ∀ x < 8, ∀ n < 8, (UInt8.ofNat (255 - 2 ^ x)).toNat.testBit n = decide (n ≠ x) := by decide
    rw [if_pos h8] at hbyte
    simp only [bit, hbyte]
    rw [Nat.mod_eq_of_lt (by omega)]
    exact key x hx n (by omega)
  · rw [if_neg h8] at hbyte
    rw [bit_ff hbyte]
    simp
    omega

theorem largeFs_clear {x : ℕ} (hx : x < 8) {P : Pool} {g j : ℕ} (hg : g < 2) (hj : j < P.size largeMem) :
    ((largeFs x).disk.blocks (P.bitmap largeMem g)).bit j = decide ¬ (P = .blocks ∧ g = 1 ∧ j = x) := by
  have hj' : j < 8 * 65536 := by
    rw [largeMem_size] at hj
    split_ifs at hj <;> omega
  rw [largeMem_bitmap P g hg]
  split_ifs with h1 h2 h3
  · rw [largeFs_bit hx hj']
    simp [h1.1, h1.2]
  all_goals
    rw [largeFs_full x (by simp) hj']
    simp_all

theorem largeFs_free {x b : ℕ} (hx : x < 8) (h : (largeFs x).disk.FreeBlock b) : b = 65536 + x := by
  obtain ⟨g, j, ⟨hg, hj, hbit⟩, rfl⟩ := h
  have := (largeFs_clear hx hg hj).symm.trans hbit
  obtain ⟨rfl, rfl⟩ : g = 1 ∧ j = x := by simpa using this
  change j + Pool.blocks.size largeMem * 1 = _
  rw [largeMem_size]
  simp [Nat.add_comm]

theorem largeFs_balanced {x : ℕ} (hx : x < 8) : Balanced (largeFs x).disk where
  size := ⟨6, by norm_num, rfl⟩
  span := by change 1 = 32 * 2 / 65536 + 1; norm_num
  part := by change 32 * 2 % 65536 ≠ 0; decide
  inodes := by change 2 * 16 < 2 ^ 32; decide
  counted P := by
    have hsize : P.size (largeFs x).disk.toMem = if P = .blocks then 65536 else 16 := largeMem_size P
    refine ⟨?_, fun g hg => ?_⟩
    · change _ ≤ 8 * 65536
      rw [hsize]
      split_ifs <;> norm_num
    change P.count largeMem g = ((largeFs x).disk.blocks (P.bitmap largeMem g)).clearBits (P.size largeMem)
    by_cases h1 : P = .blocks ∧ g = 1
    · obtain ⟨rfl, rfl⟩ := h1
      have hlt : x < Pool.blocks.size largeMem := by rw [largeMem_size]; simp; omega
      rw [clearBits_eq_one hlt]
      · decide
      · rw [largeFs_clear hx hg hlt]; simp
      · intro j hj hne
        rw [largeFs_clear hx hg hj]; simp [hne]
    · rw [clearBits_eq_zero fun j hj => by rw [largeFs_clear hx hg hj]; simp; tauto]
      have key : ∀ P : Pool, ∀ g < 2, ¬ (P = .blocks ∧ g = 1) → P.count largeMem g = 0
        | .blocks => by decide
        | .inodes => by decide
      exact key P g hg h1
  total P := by
    change P.total largeMem = P.free largeMem
    cases P <;> decide
  reserved b h := by
    rw [largeFs_free hx h]
    refine ⟨by omega, ?_⟩
    change 65536 + x ≠ 1024 / 65536
    omega
  used b h r hr := by
    have := largeMem_meta hr
    rw [largeFs_free hx h]
    change r.block largeMem ≠ _
    omega

theorem allocators_alias_bitmap :
    Balanced (largeFs 2).disk ∧ (largeFs 2).Good (largeFs 2).Usable ∧ (largeFs 2).ClockRoom 4 ∧
      ¬ AllocatorsOk [.blocks] [] (largeFs 2) := by
  refine ⟨largeFs_balanced (by norm_num), ⟨by decide, Mem.usable_noAlias ⟨6, by norm_num, rfl⟩, ?_⟩, ?_, ?_⟩
  · exact fun dc h => by simp [largeFs] at h
  · exact fun h => by simp [largeFs] at h
  · rintro ⟨-, n, fs', hrun, hok, -⟩
    have e : ((Pool.blocks.allocate).run fsHandler (largeFs 2)).map
        (fun r => (r.1, r.2.blockGroupCount, Pool.blocks.size r.2.toMem,
          (r.2.disk.blocks (Pool.blocks.bitmap r.2.toMem 0)).bit 0)) = some (65538, 2, 65536, false) := by
      decide +kernel
    rw [hrun] at e
    simp only [Option.map_some, Option.some.injEq, Prod.mk.injEq] at e
    obtain ⟨rfl, h1, h2, h3⟩ := e
    obtain ⟨g, j, -, -, -, -, -, -, hclear⟩ := hok.taken (by norm_num)
    have hbefore : ¬ Pool.blocks.Clear (largeFs 2).disk 0 0 := by
      rintro ⟨hg, hj, hbit⟩
      have := (largeFs_clear (x := 2) (by norm_num) hg hj).symm.trans hbit
      simp at this
    exact hbefore ((hclear .blocks 0 0).mp ⟨by change 0 < fs'.blockGroupCount; omega,
      by change 0 < Pool.blocks.size fs'.toMem; omega, h3⟩).1

end ChiffOS.Ext2
