import ChiffOS.Ext2.AllocRuns

/-! The bit that `allocate_block` sets against the bit that the ext2 format gives to the block it
returns. The format counts blocks from `first_data_block` on, the code from block 0 on. -/

namespace ChiffOS.Ext2

open Buf

def Mem.FormatBit (m : Mem) (b q r : ℕ) : Prop :=
  q < m.blockGroupCount ∧ r < m.blocksPerGroup ∧ b = m.firstDataBlock + r + m.blocksPerGroup * q

def GivenByFormat (d : Disk) (b : ℕ) (d' : Disk) : Prop :=
  ∃ q r, d.FormatBit b q r ∧ (d.blocks (d.blockBitmap q)).bit r = false ∧
    (d'.blocks (d'.blockBitmap q)).bit r = true

theorem formatBit_iff {m : Mem} {g j : ℕ} (hg : g < m.blockGroupCount) :
    m.FormatBit (m.blockAt g j) g j ↔ m.firstDataBlock = 0 ∧ j < m.blocksPerGroup := by
  unfold Mem.FormatBit Mem.blockAt
  constructor
  · rintro ⟨-, h1, h2⟩
    exact ⟨by omega, h1⟩
  · rintro ⟨h1, h2⟩
    exact ⟨hg, h2, by omega⟩

theorem bit_put_zero {d : Disk} {b c n : ℕ} (hn : n < 8 * d.blockSize) :
    ((d.put b fun _ => 0).blocks c).bit n = true ↔ c ≠ b ∧ (d.blocks c).bit n = true := by
  by_cases h : c = b
  · subst h
    have : (d.put c fun _ => 0).blocks c (n / 8) = 0 := by
      simp only [Disk.put, Disk.setBlock_self]
      exact blit_in (Nat.zero_le _) (by omega)
    simp [bit, this]
  · simp [Disk.put, Disk.setBlock_ne _ _ h, h]

section Format

variable {S : ℕ → Prop} {d d₁ : Disk} {g j : ℕ}

/-- Only the bit that the scan found can turn from clear to set. -/
theorem Marked.given_iff (hm : Marked .blocks g j d d₁) (hp : Placed S d.toMem) (hg : g < d.blockGroupCount)
    (hle : d.blocksPerGroup ≤ 8 * d.blockSize) (hclear : (d.blocks (d.blockBitmap g)).bit j = false) :
    GivenByFormat d (d.blockAt g j) (d₁.put (d.blockAt g j) fun _ => 0) ↔
      d.firstDataBlock = 0 ∧ j < d.blocksPerGroup ∧ d.blockAt g j ≠ d.blockBitmap g := by
  have hmap : ∀ q, (d₁.put (d.blockAt g j) fun _ => 0).blockBitmap q = d.blockBitmap q := by
    intro q
    change d₁.blockBitmap q = _
    rw [hm.mem, Pool.take_blockBitmap]
  have hbs : d₁.blockSize = d.blockSize := by rw [hm.mem]; rfl
  have hbit : (d₁.blocks (d.blockBitmap g)).bit j = true := by
    have : d₁.blocks (d.blockBitmap g) = (d.blocks (d.blockBitmap g)).setBit j := hm.bitmap
    rw [this, bit_setBit_self]
  constructor
  · rintro ⟨q, r, hf, h1, h2⟩
    rw [hmap, bit_put_zero (by have := hf.2.1; omega)] at h2
    obtain ⟨h3, h4⟩ := h2
    -- a bit elsewhere is what it was
    have hqr : q = g ∧ r = j := by
      by_cases hq : q = g
      · subst hq
        have : d₁.blocks (d.blockBitmap q) = (d.blocks (d.blockBitmap q)).setBit j := hm.bitmap
        rw [this, bit_setBit, h1] at h4
        exact ⟨rfl, by simpa using h4⟩
      · have hne := hm.bitmap_ne (Q := .blocks) hp hg hf.1 fun h => hq h.2
        have hsame : d₁.blocks (d.blockBitmap q) = d.blocks (d.blockBitmap q) := by
          rw [hm.mem, Pool.take_bitmap] at hne
          exact hne
        rw [hsame, h1] at h4
        simp at h4
    obtain ⟨rfl, rfl⟩ := hqr
    exact ⟨((formatBit_iff hg).mp hf).1, hf.2.1, h3.symm⟩
  · rintro ⟨h1, h2, h3⟩
    refine ⟨g, j, (formatBit_iff hg).mpr ⟨h1, h2⟩, hclear, ?_⟩
    rw [hmap, bit_put_zero (by omega)]
    exact ⟨h3.symm, hbit⟩

theorem GivenByFormat.congr {b : ℕ} {e : Disk} (hm : e.toMem = d₁.toMem)
    (hb : ∀ q < d.blockGroupCount, e.blocks (d₁.blockBitmap q) = d₁.blocks (d₁.blockBitmap q)) :
    GivenByFormat d b e ↔ GivenByFormat d b d₁ := by
  unfold GivenByFormat
  simp only [hm]
  refine exists_congr fun q => exists_congr fun r => and_congr_right fun hf => ?_
  rw [hb q hf.1]

end Format

/-- The block that `allocate_block` returns was free and is used in the sense of the ext2 format if
and only if the format counts from block 0 on, the bit found belongs to the group, and the block is
not the bitmap's own. -/
theorem allocateBlock_format (fs : Fs) (g j : ℕ) (hs : fs.SizeOk) (hcache : fs.Good fs.Usable)
    (hp : Placed fs.Usable fs.toMem) (hle : fs.blocksPerGroup ≤ 8 * fs.blockSize)
    (hf : Pool.blocks.First fs.disk g j) (hu : fs.Usable (fs.blockAt g j))
    (hclock : fs.ClockRoom (fs.bgdBlockSpan + 3)) :
    ∃ fs', allocateBlock.run fsHandler fs = some (fs.blockAt g j, fs') ∧
      (GivenByFormat fs.disk (fs.blockAt g j) fs'.disk ↔
        fs.firstDataBlock = 0 ∧ j < fs.blocksPerGroup ∧ fs.blockAt g j ≠ fs.blockBitmap g) := by
  obtain ⟨b, fs', v', hrun, hshow, -, -, rfl, d₁, hm, hput⟩ :=
    (Fs.shows_self hs hcache).does (allocateBlock_first (S := fs.Usable) (fun _ h => h) hp hf hu) hclock
  refine ⟨fs', hrun, ?_⟩
  have hmem : v'.toMem = Pool.blocks.take fs.toMem g := by rw [hput]; exact hm.mem
  rw [GivenByFormat.congr hshow.mem.symm, hput]
  · exact hm.given_iff hp hf.group_lt hle (firstClear_some hf.2).2.2.1
  · intro q hq
    refine (hshow.block _ ((hshow.usable_iff _).mp ?_)).symm
    rw [hmem, Pool.take_blockBitmap]
    exact hp.mem (.blockBitmap q) hq

theorem allocateBlock_format_small :
    ∃ fs', allocateBlock.run fsHandler smallFs = some (6, fs') ∧ GivenByFormat smallFs.disk 6 fs'.disk := by
  have hsize : smallFs.SizeOk := ⟨0, by norm_num, rfl⟩
  obtain ⟨fs', h1, h2⟩ := allocateBlock_format smallFs 0 6 hsize
    (Fs.good_emptyCache (n := 2) (by norm_num) (by decide) (Mem.usable_noAlias hsize) rfl)
    ⟨by decide, smallFs_apart.usable, smallFs_apart.inj⟩ (by decide) ⟨by decide, by decide +kernel⟩
      (by decide)
    fun _ => by decide
  exact ⟨fs', h1, h2.mpr (by decide)⟩

/-- The small volume as the format lays it out: with 1 KiB blocks the first data block is 1, so that
bit 4 stands for the inode table in block 5 and bit 5 for the first free block. -/
def formatFs : Fs :=
  { smallFs with
    superblock := (smallFs.superblock.setU32 12 11).setU32 20 1
    blockGroups := smallFs.blockGroups.setU16 12 11
    blockDevice := fun a => if a = 3072 then 0x1F else if a = 4096 then 7 else 0 }

theorem allocateBlock_format_table :
    formatFs.inodeTable 0 = 5 ∧
      ∃ fs', allocateBlock.run fsHandler formatFs = some (5, fs') ∧
        ¬ GivenByFormat formatFs.disk 5 fs'.disk := by
  refine ⟨by decide, ?_⟩
  have e : (allocateBlock.run fsHandler formatFs).map Prod.fst = some 5 := by decide +kernel
  obtain ⟨⟨b, fs'⟩, hrun, rfl⟩ := Option.map_eq_some_iff.mp e
  refine ⟨fs', hrun, ?_⟩
  rintro ⟨q, r, ⟨hq, hr, hqr⟩, h1, -⟩
  have hbit : (formatFs.disk.blocks (formatFs.blockBitmap 0)).bit 4 = true := by decide +kernel
  obtain rfl : q = 0 := Nat.lt_one_iff.mp hq
  obtain rfl : r = 4 := by
    have : formatFs.firstDataBlock = 1 := by decide
    change 5 = formatFs.firstDataBlock + r + _ * 0 at hqr
    omega
  exact absurd (hbit.symm.trans h1) (by simp)

end ChiffOS.Ext2
