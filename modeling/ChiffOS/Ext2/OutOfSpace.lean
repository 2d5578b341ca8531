import ChiffOS.Ext2.Pointers
import ChiffOS.Ext2.FileRuns

/-! `allocate_inode_block` and the loop of `inode_write_block` on a volume that may run out of blocks.
The result of `set_block_number` is dropped, so a file block that could not be recorded counts as one of
the file's; the result of `allocate_inode_block` is dropped too, so without a free block the loop reads
the same record again and again. -/

namespace ChiffOS.Ext2

open Buf Prog

variable {S I : ℕ → Prop} {n l : ℕ} {d d' : Disk} {ino : Buf}

/-! ### One file block more -/

/-- What `allocate_inode_block` does for file block `l` when it gets a block: the size in units is
raised, whether the way to the file block is there or the blocks ran out. -/
structure Round (S : ℕ → Prop) (n l : ℕ) (d d' : Disk) : Prop where
  orderly : Orderly S n d'
  shape : d.SameShape d'.toMem
  pos : 0 < d.freeBlocks
  size : inodeBlocks (d'.record n) = max (inodeBlocks (d.record n)) ((l + 1) * (d.blockSize / 512) % 2 ^ 32)
  result : (∀ k, d'.Has n k ↔ d.Has n k ∨ k ∈ spine d.pointersPerBlock l) ∧
      d'.freeBlocks + 1 + d.lack n (spine d.pointersPerBlock l) = d.freeBlocks ∨
    d.freeBlocks < 1 + d.lack n (spine d.pointersPerBlock l) ∧ d'.freeBlocks = 0

theorem Orderly.putRecord (h : Orderly S n d)
    (hptr : ∀ j < 15, 12 ≤ j → inodeBlock ino j = inodeBlock (d.record n) j) :
    Orderly S n (d.putRecord n ino) ∧ ∀ k, (d.putRecord n ino).Has n k ↔ d.Has n k := by
  have hz := h.wf.geometry.inode_ge
  have hrec : SameOn ((d.putRecord n ino).record n) ino 0 d.inodeSize := putRecord_self d n _
  have hptr' : ∀ j < 15, 12 ≤ j → inodeBlock ((d.putRecord n ino).record n) j = inodeBlock (d.record n) j :=
    fun j hj hj' => (inodeBlock_congr hrec hz j hj).trans (hptr j hj hj')
  have hkeep : ∀ k, d.Has n k → (d.putRecord n ino).blocks (d.nodeBlock n k) = d.blocks (d.nodeBlock n k) :=
    fun k hk => d.setBlock_ne _ (h.ne_record (h.pointer k hk))
  have hblock : ∀ k, d.Has n k → (d.putRecord n ino).nodeBlock n k = d.nodeBlock n k :=
    fun k hk => Node.block_congr hptr' fun a ha => hkeep a (hk.above ha)
  have hhas : ∀ k, (d.putRecord n ino).Has n k ↔ d.Has n k := fun k =>
    ⟨Node.set_congr hptr' fun a _ ha => hkeep a ha, fun hk => hk.of_block hblock⟩
  obtain ⟨hw, hres⟩ := h.setBlock _ fun g hg => h.bitmap_ne_record hg
  exact ⟨h.step .single hw (.refl _) hres fun k hk => .inl ⟨(hhas k).mp hk, hblock k ((hhas k).mp hk)⟩, hhas⟩

theorem inodeBlocks_setInodeBlocks {t : ℕ} (ht : t < 2 ^ 32) : inodeBlocks (setInodeBlocks ino t) = t := by
  rw [inodeBlocks, setInodeBlocks, u32_setU32, Nat.mod_eq_of_lt ht]

theorem Gives.lack {b : ℕ} (hg : Gives S n d b d') (ks : List Node) : d'.lack n ks = d.lack n ks := by
  unfold Disk.lack
  simp only [hg.has]

theorem Gives.holds {b : ℕ} (hg : Gives S n d b d') (hold : Holds d n ino) : Holds d' n ino :=
  holds_of_record hold hg.record hg.shape.inodeSize

theorem allocateInodeBlock_round (h : Orderly S n d) (hold : Holds d n ino) (l : ℕ) :
    Does (allocateInodeBlock ino n l) d (4 * d.bgdBlockSpan + 22) fun r d' =>
      r = (.noSpace, ino) ∧ d' = d ∧ d.freeBlocks = 0 ∨ r.1 = .success ∧ Holds d' n r.2 ∧
        Round S n l d d' := by
  refine does_this (((allocateBlock_gives h).bind (m := 3 * d.bgdBlockSpan + 19) ?_).mono (by omega)
    fun _ _ hq => hq)
  rintro b d₁ (⟨rfl, rfl, hfree⟩ | ⟨hb0, hg⟩)
  · rw [if_pos rfl]
    exact .pure (.inl ⟨rfl, rfl, hfree⟩)
  rw [if_neg hb0]
  refine ((setBlockNumber_tries hg.orderly (hg.holds hold) (l := l) b).bind (m := 2) ?_).mono
    (by rw [hg.shape.span])
    fun _ _ hq => hq
  rintro ⟨err, ino₁⟩ d₂ ht
  dsimp only
  set t := (l + 1) * (d.blockSize / 512) % 2 ^ 32 with htdef
  have ht32 : t < 2 ^ 32 := Nat.mod_lt _ (by norm_num)
  set ino₂ := if inodeBlocks ino₁ < t then setInodeBlocks ino₁ t else ino₁ with hino₂
  have hunits : inodeBlocks ino₂ = max (inodeBlocks (d.record n)) t := by
    have h1 : inodeBlocks ino₁ = inodeBlocks (d.record n) := by
      rw [ht.units, ht.size, hg.record]
    rw [hino₂, ← h1]
    split_ifs with hlt
    · rw [inodeBlocks_setInodeBlocks ht32]
      omega
    · omega
  have hptr : ∀ j < 15, 12 ≤ j → inodeBlock ino₂ j = inodeBlock (d₂.record n) j := by
    intro j hj hj'
    rw [← ht.pointers j hj hj', hino₂]
    split_ifs with hlt
    · exact inodeBlock_setInodeBlocks j
    · rfl
  refine (ht.orderly.found.writeInode_spec ino₂).bind (m := 0) ?_
  rintro - d₃ rfl
  obtain ⟨ho, hhas⟩ := ht.orderly.putRecord hptr
  have hrec : SameOn ((d₂.putRecord n ino₂).record n) ino₂ 0 d₂.inodeSize := putRecord_self d₂ n _
  have hfree := hg.free
  refine .pure (.inr ⟨rfl, hrec.symm, ho, hg.shape.trans ht.shape, by omega, ?_, ?_⟩)
  · exact (inodeBlocks_congr hrec ht.orderly.wf.geometry.inode_ge).trans hunits
  · have hsp : d₁.pointersPerBlock = d.pointersPerBlock := hg.shape.pointers
    have hres := ht.result
    rw [hsp, hg.lack] at hres
    change _ ∧ d₂.freeBlocks + 1 + _ = _ ∨ _ ∧ d₂.freeBlocks = 0
    rcases hres with ⟨-, h1, h2⟩ | ⟨-, h1, h2⟩
    · refine .inl ⟨fun k => ?_, by omega⟩
      rw [hhas, h1, hg.has]
    · exact .inr ⟨by omega, h2⟩

/-! ### A block that is not recorded -/

def Fs.ReportsUnmapped (I : ℕ → Prop) (fs : Fs) (ino : Buf) (n block : ℕ) : Prop :=
  ∀ blockNo fs₁ set fs₂, allocateBlock.run fsHandler fs = some (blockNo, fs₁) → blockNo ≠ 0 →
    (setBlockNumber ino n block blockNo).run fsHandler fs₁ = some (set, fs₂) → set.1 ≠ .success →
    ∃ r fs', (allocateInodeBlock ino n block).run fsHandler fs = some (r, fs') ∧ r.1 ≠ .success ∧
      inodeBlocks r.2 = inodeBlocks ino ∧ fs'.disk.fileBlocks n = fs.disk.fileBlocks n ∧
        WellFormed fs.Usable I fs'.disk

/-- The caller is never told, so it must not happen: the volume has no block at all, or it has one for the
file block and one for each pointer block on the way that is not there, and the block map has a place for
it. -/
theorem unmapped_block_reported_iff (I : ℕ → Prop) (fs : Fs) (ino : Buf) (n block : ℕ)
    (hw : WellFormed fs.Usable I fs.disk)
    (hn : I n) (hfound : ¬ fs.inodesPerGroup ∣ n) (hlive : ∀ k, fs.disk.Has n k → fs.disk.NodeLive n k)
    (hold : Holds fs.disk n ino) (hcache : fs.Good fs.Usable)
    (hclock : fs.ClockRoom (4 * fs.bgdBlockSpan + 22)) :
    fs.ReportsUnmapped I ino n block ↔ fs.disk.freeBlocks = 0 ∨
      block < fs.mapEnd ∧ fs.disk.lack n (spine fs.pointersPerBlock block) < fs.disk.freeBlocks := by
  have h : Orderly fs.Usable n fs.disk := hw.orderly (fun _ hb => hb) hn hfound hlive
  have hshow := Fs.shows_self hw.geometry.sizeOk hcache
  obtain ⟨blockNo, fs₁, v₁, hrun₁, hshow₁, hc₁, ht₁, hq₁⟩ := hshow.does (allocateBlock_gives h) fun hc => by
    have := hclock hc
    change fs.cacheTime + (fs.bgdBlockSpan + 3) < uint32Max
    omega
  change v₁.ticks ≤ fs.cacheTime + (fs.bgdBlockSpan + 3) at ht₁
  rcases hq₁ with ⟨rfl, -, hfree⟩ | ⟨hb0, hg⟩
  · refine iff_of_true (fun blockNo fs₁ set fs₂ hrun hne => ?_) (.inl hfree)
    rw [hrun₁, Option.some.injEq, Prod.mk.injEq] at hrun
    exact absurd hrun.1.symm hne
  replace hg : Gives fs.Usable n fs.disk blockNo v₁.toDisk := hg
  obtain ⟨set, fs₂, v₂, hrun₂, -, -, -, ht⟩ :=
    hshow₁.does (setBlockNumber_tries hg.orderly (hg.holds hold) (l := block) blockNo) fun hc => by
      have := hclock (hc₁ ▸ hc)
      have hspan : v₁.bgdBlockSpan = fs.bgdBlockSpan := hg.shape.span
      rw [hspan]
      omega
  have hfree := hg.free
  have hend : v₁.mapEnd = fs.mapEnd := by
    have : v₁.pointersPerBlock = fs.pointersPerBlock := hg.shape.pointers
    simp only [Mem.mapEnd, this]
  have hres := ht.result
  rw [hg.lack, show v₁.pointersPerBlock = fs.pointersPerBlock from hg.shape.pointers, hend] at hres
  constructor
  · intro hrep
    right
    by_contra hno
    have herr : set.1 ≠ .success := by
      rcases hres with ⟨⟨-, hlt⟩ | ⟨he, -⟩, -, hl⟩ | ⟨he, -⟩
      · exact fun _ => hno ⟨hlt, by omega⟩
      · simp [he]
      · simp [he]
    obtain ⟨r, fs', hrun, hne, -⟩ := hrep blockNo fs₁ set fs₂ hrun₁ hb0 hrun₂ herr
    obtain ⟨r', fs'', v', hrun', -, -, -, hround⟩ := hshow.does (allocateInodeBlock_round h hold block) hclock
    rw [hrun, Option.some.injEq, Prod.mk.injEq] at hrun'
    rcases hround with ⟨-, -, h0⟩ | ⟨hsucc, -⟩
    · replace h0 : fs.disk.freeBlocks = 0 := h0
      omega
    · exact hne (hrun'.1 ▸ hsucc)
  · rintro (h0 | ⟨hlt, hroom⟩) blockNo' fs₁' set' fs₂' hrun₁' - hrun₂' herr
    · omega
    rw [hrun₁, Option.some.injEq, Prod.mk.injEq] at hrun₁'
    obtain ⟨rfl, rfl⟩ := hrun₁'
    rw [hrun₂, Option.some.injEq, Prod.mk.injEq] at hrun₂'
    obtain ⟨rfl, rfl⟩ := hrun₂'
    rcases hres with ⟨⟨he, -⟩ | ⟨-, hge⟩, -⟩ | ⟨-, hshort, -⟩
    · exact absurd he herr
    · omega
    · omega

/-- The thirteenth block of the file on the small volume takes two of nine. -/
theorem unmapped_block_reported_small :
    smallFs.ReportsUnmapped (fun n => 1 ≤ n ∧ n ≤ 8) (smallFs.disk.record 3) 3 12 := by
  refine (unmapped_block_reported_iff _ smallFs (smallFs.disk.record 3) 3 12 smallFs_wellFormed (by decide)
    (by decide)
    (fun k hk => .inr ⟨by decide +kernel, hk⟩) (fun _ _ _ => rfl) ?_ fun _ => by decide).mpr
      (.inr ⟨by decide, ?_⟩)
  · exact Fs.good_emptyCache (n := 2) (by norm_num) (by decide) (Mem.usable_noAlias ⟨0, by norm_num, rfl⟩) rfl
  · decide +kernel

/-- A volume of one group with 19 blocks of 1 KiB, laid out as the small one: the regular file 3 has the
blocks 6 to 17, and block 18 is the only free one. -/
def crowdedFs : Fs where
  toMem := { smallFs.toMem with
    superblock := ((setU32 (fun _ => 0) 12 1).setU32 16 5).setU32 32 19
    blockGroups := ((((setU32 (fun _ => 0) 0 3).setU32 4 4).setU32 8 5).setU16 12 1).setU16 14 5 }
  blockDevice := fun a =>
    if a = 3072 ∨ a = 3073 then 0xFF else if a = 3074 then 3 else if a = 4096 then 7
    else if a = 5377 then 0x80 else if a = 5381 then 0x30 else if a = 5404 then 24
    else if 5416 ≤ a ∧ a < 5464 ∧ a % 4 = 0 then UInt8.ofNat (6 + (a - 5416) / 4) else 0
  diskCache := some (Fs.emptyCache 2)
  cacheTime := 0
  heap := fun _ _ => 0

theorem crowdedFs_wellFormed : WellFormed crowdedFs.disk.Usable (fun n => 1 ≤ n ∧ n ≤ 8) crowdedFs.disk := by
  refine wellFormed_of_refs ⟨⟨0, by norm_num, rfl⟩,
    rfl, by decide, by decide, by decide, by decide, rfl, by decide⟩
    (by decide) (by decide +kernel) (by decide +kernel) (by decide +kernel)
    (fun _ h => h.of_clear (P := fun b => crowdedFs.disk.Usable b ∧ ∀ r ∈ crowdedFs.disk.refs 8,
      r.block crowdedFs.disk ≠ b)
      (by decide +kernel)) ⟨by decide, fun g hg => ?_⟩
  obtain rfl : g = 0 := Nat.lt_one_iff.mp hg
  decide +kernel

/-- The last block goes to file block 12, for which there is no single indirect block then. The call
succeeds, and the file has a thirteenth block that is nowhere. -/
theorem unmapped_block_success : WellFormed crowdedFs.Usable (fun n => 1 ≤ n ∧ n ≤ 8) crowdedFs.disk ∧
    ¬ crowdedFs.ReportsUnmapped (fun n => 1 ≤ n ∧ n ≤ 8) (crowdedFs.disk.record 3) 3 12 := by
  refine ⟨crowdedFs_wellFormed, fun hrep => ?_⟩
  have hset : ((allocateBlock >>= fun b => setBlockNumber (crowdedFs.disk.record 3) 3 12 b >>= fun r =>
    Pure.pure (b, r.1)).run
      fsHandler crowdedFs).map (·.1) = some (18, .noSpace) := by decide +kernel
  have hcall : ((allocateInodeBlock (crowdedFs.disk.record 3) 3 12).run fsHandler crowdedFs).map
      (fun r => (r.1.1, inodeBlocks r.1.2)) = some (.success, 26) := by decide +kernel
  simp only [run_bind, run_pure, Option.map_eq_some_iff, Option.bind_eq_some_iff] at hset
  obtain ⟨x, ⟨⟨b, fs₁⟩, hb, ⟨r, fs₂⟩, hr, hx⟩, he⟩ := hset
  obtain rfl := Option.some.inj hx
  obtain ⟨hb18, herr⟩ : b = 18 ∧ r.1 = .noSpace := Prod.mk.inj he
  obtain ⟨r', fs', hrun, hne, -⟩ := hrep b fs₁ r fs₂ hb (by rw [hb18]; norm_num) hr (by rw [herr]; decide)
  rw [hrun, Option.map_some, Option.some.injEq, Prod.mk.injEq] at hcall
  exact hne hcall.1

end ChiffOS.Ext2
