import ChiffOS.Ext2.Mount

/-! What `mount_ext2` derives from a superblock, and where on the device a block lies. The driver counts the
groups from block 0 and not from the first data block, takes every field of a superblock with the right magic
number as it is, and multiplies block numbers in 32 bits. -/

namespace ChiffOS.Ext2

open Buf

def sbInodesCount (sb : Buf) : ℕ := sb.u32 0
def sbBlocksCount (sb : Buf) : ℕ := sb.u32 4
def sbFirstDataBlock (sb : Buf) : ℕ := sb.u32 20
def sbLogBlockSize (sb : Buf) : ℕ := sb.u32 24
def sbBlocksPerGroup (sb : Buf) : ℕ := sb.u32 32
def sbInodesPerGroup (sb : Buf) : ℕ := sb.u32 40
def sbMagic (sb : Buf) : ℕ := sb.u16 56
def sbInodeSize (sb : Buf) : ℕ := sb.u16 88

def superblockOf (dev : Buf) : Buf := dev.drop 1024

def bgds (sb : Buf) : ℕ :=
  let groups := sbBlocksCount sb / sbBlocksPerGroup sb
  if sbBlocksPerGroup sb * groups < sbBlocksCount sb then groups + 1 else groups

theorem bgds_eq {sb : Buf} (hb : 0 < sbBlocksPerGroup sb) :
    bgds sb = (sbBlocksCount sb + sbBlocksPerGroup sb - 1) / sbBlocksPerGroup sb := by
  have hdiv := Nat.div_add_mod (sbBlocksCount sb) (sbBlocksPerGroup sb)
  have hmod := Nat.mod_lt (sbBlocksCount sb) hb
  symm
  rw [Nat.div_eq_iff hb, Nat.mul_comm _ (sbBlocksPerGroup sb)]
  unfold bgds
  dsimp only
  split_ifs with h
  · rw [Nat.mul_succ]
    omega
  · omega

/-- The fields that do not depend on the group descriptors. -/
structure Mem.OfSuperblock (m : Mem) (sb : Buf) : Prop where
  blockSize : m.blockSize = 1024 <<< sbLogBlockSize sb
  pointers : m.pointersPerBlock = m.blockSize / 4
  groups : m.blockGroupCount = bgds sb
  inodes : m.inodesPerGroup = sbInodesCount sb / bgds sb
  inodeSize : m.inodeSize = if sbInodeSize sb = 0 then 128 else sbInodeSize sb

/-- The arithmetic of `mount_ext2` on the superblock. -/
def Derivable (sb : Buf) : Prop := sbLogBlockSize sb ≤ 21 ∧ sbBlocksPerGroup sb ≠ 0 ∧ sbBlocksCount sb ≠ 0

section Open

variable {dev : Buf} {nocache : Bool} {heap : ℕ → Buf} (hmagic : sbMagic (superblockOf dev) = 0xEF53)
include hmagic

theorem openVolume_some (nocache : Bool) (heap : ℕ → Buf) (h : Derivable (superblockOf dev)) :
    ∃ fs, openVolume dev nocache heap = some (some fs) ∧ fs.OfSuperblock (superblockOf dev) := by
  have h32 : ∀ o, o + 4 ≤ 1024 → (readFs dev 1024 1024 (heap 0)).u32 o = (superblockOf dev).u32 o :=
    fun o ho => u32_blit_in (Nat.zero_le _) (by omega)
  have h16 : ∀ o, o + 2 ≤ 1024 → (readFs dev 1024 1024 (heap 0)).u16 o = (superblockOf dev).u16 o :=
    fun o ho => u16_blit_in (Nat.zero_le _) (by omega)
  obtain ⟨hlog, hper, hcount⟩ := h
  have hpos := Nat.pos_of_ne_zero hper
  have hne : bgds (superblockOf dev) ≠ 0 := by
    rw [bgds_eq hpos]
    exact (Nat.div_pos (by omega) hpos).ne'
  simp only [openVolume, mountFields, h32 _ (show 4 + 4 ≤ 1024 by decide),
    h32 _ (show 32 + 4 ≤ 1024 by decide),
    h32 _ (show 24 + 4 ≤ 1024 by decide), h32 _ (show 0 + 4 ≤ 1024 by decide),
      h16 _ (show 56 + 2 ≤ 1024 by decide),
    h16 _ (show 88 + 2 ≤ 1024 by decide)]
  rw [if_neg (show ¬ (superblockOf dev).u16 56 ≠ 0xEF53 from not_not_intro hmagic), if_pos ⟨hlog, hper, hne⟩]
  exact ⟨_, rfl, rfl, rfl, rfl, rfl, rfl⟩

theorem openVolume_none (h : ¬ Derivable (superblockOf dev)) : openVolume dev nocache heap = none := by
  have h32 : ∀ o, o + 4 ≤ 1024 → (readFs dev 1024 1024 (heap 0)).u32 o = (superblockOf dev).u32 o :=
    fun o ho => u32_blit_in (Nat.zero_le _) (by omega)
  have h16 : (readFs dev 1024 1024 (heap 0)).u16 56 = (superblockOf dev).u16 56 :=
    u16_blit_in (Nat.zero_le _) (by omega)
  simp only [openVolume, mountFields, h16, h32 _ (show 4 + 4 ≤ 1024 by decide),
    h32 _ (show 32 + 4 ≤ 1024 by decide),
    h32 _ (show 24 + 4 ≤ 1024 by decide)]
  rw [if_neg (show ¬ (superblockOf dev).u16 56 ≠ 0xEF53 from not_not_intro hmagic), if_neg]
  · rfl
  · rintro ⟨hlog, hper, hne⟩
    refine h ⟨hlog, hper, fun h0 => hne ?_⟩
    rw [show (superblockOf dev).u32 4 = 0 from h0]
    simp

end Open

/-! ### The groups -/

structure ValidSuperblock (sb : Buf) (groups last : ℕ) : Prop where
  magic : sbMagic sb = 0xEF53
  groups_pos : 0 < groups
  last_pos : 0 < last
  last_le : last ≤ sbBlocksPerGroup sb
  blocks : sbBlocksCount sb = sbFirstDataBlock sb + (sbBlocksPerGroup sb * (groups - 1) + last)
  inodes : sbInodesCount sb = groups * sbInodesPerGroup sb
  log : sbLogBlockSize sb ≤ 6

def DerivesGeometry (dev : Buf) (nocache : Bool) (heap : ℕ → Buf) : Prop :=
  ∃ fs, openVolume dev nocache heap = some (some fs) ∧
    fs.blockGroupCount = (sbBlocksCount (superblockOf dev) - sbFirstDataBlock (superblockOf dev) +
      sbBlocksPerGroup (superblockOf dev) - 1) / sbBlocksPerGroup (superblockOf dev) ∧
    fs.inodesPerGroup = sbInodesPerGroup (superblockOf dev)

theorem groups_ceil {b g x : ℕ} (hx : 0 < x) (hg : 0 < g) (hb : x ≤ b) : (b * (g - 1) + x + b - 1) / b =
    g := by
  have hmul : b * (g - 1) + b = b * g := by
    rw [← Nat.mul_succ, Nat.succ_eq_add_one, Nat.sub_add_cancel hg]
  rw [Nat.div_eq_iff (by omega), Nat.mul_comm g]
  omega

/-- The group count is right just when the blocks before the first data block fit behind the last group. -/
theorem mount_geometry_iff (dev : Buf) (nocache : Bool) (heap : ℕ → Buf) (groups last : ℕ)
    (h : ValidSuperblock (superblockOf dev) groups last) : DerivesGeometry dev nocache heap ↔
      sbFirstDataBlock (superblockOf dev) + last ≤ sbBlocksPerGroup (superblockOf dev) := by
  obtain ⟨hmagic, hg, hlast, hle, hblocks, hinodes, hlog⟩ := h
  unfold DerivesGeometry
  obtain ⟨fs, hopen, hfs⟩ := openVolume_some hmagic nocache heap ⟨by omega, by omega, by omega⟩
  have hright : (sbBlocksCount (superblockOf dev) - sbFirstDataBlock (superblockOf dev) +
      sbBlocksPerGroup (superblockOf dev) - 1) / sbBlocksPerGroup (superblockOf dev) = groups := by
    rw [hblocks, Nat.add_sub_cancel_left]
    exact groups_ceil hlast hg hle
  rw [hright]
  have hcount : bgds (superblockOf dev) = (sbBlocksPerGroup (superblockOf dev) * (groups - 1) +
      (sbFirstDataBlock (superblockOf dev) + last) + sbBlocksPerGroup (superblockOf dev) - 1) /
        sbBlocksPerGroup (superblockOf dev) := by
    rw [bgds_eq (by omega), hblocks]
    congr 2
    omega
  constructor
  · rintro ⟨fs', hopen', hgroups, -⟩
    obtain rfl : fs = fs' := by simpa using hopen.symm.trans hopen'
    by_contra hlt
    -- one more group fits when the blocks before the first data block are counted
    rw [hfs.groups, hcount, Nat.div_eq_iff (by omega), Nat.mul_comm groups] at hgroups
    have hmul : sbBlocksPerGroup (superblockOf dev) * (groups - 1) + sbBlocksPerGroup (superblockOf dev) =
        sbBlocksPerGroup (superblockOf dev) * groups := by
      rw [← Nat.mul_succ, Nat.succ_eq_add_one, Nat.sub_add_cancel hg]
    omega
  · intro hfit
    have hgroups : bgds (superblockOf dev) = groups := by rw [hcount, groups_ceil (by omega) hg hfit]
    refine ⟨fs, hopen, hfs.groups.trans hgroups, ?_⟩
    rw [hfs.inodes, hgroups, hinodes, Nat.mul_div_cancel_left _ hg]

def superblockDev (inodes blocks perGroup inodesPerGroup : ℕ) : Buf :=
  (((((setU32 (fun _ => 0) 1024 inodes).setU32 1028 blocks).setU32 1044 1).setU32 1056 perGroup).setU32 1064
    inodesPerGroup).setU16 1080 0xEF53

theorem mount_geometry_full : DerivesGeometry (superblockDev 2048 8192 8192 2048) true fun _ _ => 0 :=
  (mount_geometry_iff _ _ _ 1 8191
    ⟨by decide, by decide, by decide, by decide, by decide, by decide, by decide⟩).mpr
    (by decide)

theorem mount_geometry_wrong : ValidSuperblock (superblockOf (superblockDev 2048 8193 8192 2048)) 1 8192 ∧
    ¬ DerivesGeometry (superblockDev 2048 8193 8192 2048) true fun _ _ => 0 := by
  refine ⟨⟨by decide, by decide, by decide, by decide, by decide, by decide, by decide⟩, ?_⟩
  rintro ⟨fs, hopen, -, hinodes⟩
  have e : ((openVolume (superblockDev 2048 8193 8192 2048) true fun _ _ => 0).bind id).map
      (fun fs => (fs.blockGroupCount, fs.inodesPerGroup)) = some (2, 1024) := by decide
  rw [hopen] at e
  simp only [Option.bind_some, id, Option.map_some, Option.some.injEq, Prod.mk.injEq] at e
  rw [e.2] at hinodes
  exact absurd hinodes (by decide)

/-! ### Divisors -/

/-- What the driver divides by, or holds for a divisor, after the mount. -/
def Mem.divisors (m : Mem) : List ℕ :=
  [m.blockSize, m.pointersPerBlock, m.blockSize / 512, m.blockSize / m.inodeSize, m.inodesPerGroup]

/-- No step of the mount divides by zero or shifts too far, the lookup of the root inode included, and a
node comes back only with divisors that are not zero. -/
def MountSafe (dev : Buf) (nocache : Bool) (heap : ℕ → Buf) : Prop :=
  ∃ r, openVolume dev nocache heap = some r ∧ ∀ fs, r = some fs → fs.inodesPerGroup ≠ 0 ∧
    ∀ root, mountExt2 dev nocache heap = some (some root) → ∀ x ∈ fs.divisors, x ≠ 0

def rootInode (dev : Buf) (nocache : Bool) (heap : ℕ → Buf) : Option Buf :=
  (openVolume dev nocache heap).join.bind fun fs =>
    ((readDescriptors 0 fs.bgdBlockSpan >>= fun _ => readInode 2).run fsHandler fs).map Prod.fst

def DirectoryMode (mode : ℕ) : Prop := mode &&& sIfreg ≠ sIfreg ∧ mode &&& sIfdir = sIfdir

theorem ext2Root_isSome (inode : Buf) : (∃ root, ext2Root inode = some root) ↔ DirectoryMode
    (inodeMode inode) := by
  by_cases h1 : inodeMode inode &&& sIfreg = sIfreg
  · simp [ext2Root, DirectoryMode, h1]
  · by_cases h2 : inodeMode inode &&& sIfdir = sIfdir <;> simp [ext2Root, DirectoryMode, h1, h2]

theorem mountExt2_node_iff {dev : Buf} {nocache : Bool} {heap : ℕ → Buf} {fs : Fs}
    (hopen : openVolume dev nocache heap = some (some fs)) :
    (∃ root, mountExt2 dev nocache heap = some (some root)) ↔
      ∃ inode ∈ rootInode dev nocache heap, DirectoryMode (inodeMode inode) := by
  have hroot : rootInode dev nocache heap =
      ((readDescriptors 0 fs.bgdBlockSpan >>= fun _ => readInode 2).run fsHandler fs).map Prod.fst := by
    simp only [rootInode, hopen, Option.join_some, Option.bind_some]
  have hmount : mountExt2 dev nocache heap =
      ((readDescriptors 0 fs.bgdBlockSpan >>= fun _ => readInode 2).run fsHandler fs).map fun r =>
        (ext2Root r.1).map (·, { r.2 with heap := fun i => r.2.heap (i + 1) }) := by
    simp only [mountExt2, hopen, loadVolume, this, malloc, Prog.run_bind, Prog.run_ask, Prog.run_pure,
      fsHandler, Option.bind_eq_bind, Option.bind_some]
    cases (readDescriptors 0 fs.bgdBlockSpan).run fsHandler fs with
    | none => rfl
    | some r =>
      simp only [Option.bind_some]
      cases (readInode 2).run fsHandler r.2 <;> rfl
  rw [hroot, hmount]
  cases (readDescriptors 0 fs.bgdBlockSpan >>= fun _ => readInode 2).run fsHandler fs with
  | none => simp
  | some r =>
    simp only [Option.map_some, Option.mem_some_iff, exists_eq_left', Option.some.injEq, ← ext2Root_isSome]
    cases ext2Root r.1 <;> simp

theorem mount_safe_iff (dev : Buf) (nocache : Bool) (heap : ℕ → Buf)
    (hmagic : sbMagic (superblockOf dev) = 0xEF53) :
    MountSafe dev nocache heap ↔ Derivable (superblockOf dev) ∧
      bgds (superblockOf dev) ≤ sbInodesCount (superblockOf dev) ∧
      (sbInodeSize (superblockOf dev) ≤ 1024 <<< sbLogBlockSize (superblockOf dev) ∨
        ∀ inode ∈ rootInode dev nocache heap, ¬ DirectoryMode (inodeMode inode)) := by
  by_cases hd : Derivable (superblockOf dev)
  swap
  · refine ⟨?_, fun h => absurd h.1 hd⟩
    rintro ⟨r, hopen, -⟩
    simp [openVolume_none hmagic hd] at hopen
  obtain ⟨fs, hopen, hfs⟩ := openVolume_some hmagic nocache heap hd
  have hpos : 0 < bgds (superblockOf dev) := by
    have := hd.2.2
    rw [bgds_eq (Nat.pos_of_ne_zero hd.2.1)]
    exact Nat.div_pos (by omega) (Nat.pos_of_ne_zero hd.2.1)
  have hsize : 1024 ≤ fs.blockSize := by
    rw [hfs.blockSize, Nat.shiftLeft_eq]
    exact Nat.le_mul_of_pos_right _ (by positivity)
  have hinodes : fs.inodesPerGroup ≠ 0 ↔ bgds (superblockOf dev) ≤ sbInodesCount (superblockOf dev) := by
    rw [hfs.inodes, ← Nat.pos_iff_ne_zero, Nat.div_pos_iff]
    exact ⟨fun h => h.2, fun h => ⟨hpos, h⟩⟩
  have hrecords : fs.blockSize / fs.inodeSize ≠ 0 ↔ sbInodeSize (superblockOf dev) ≤ fs.blockSize := by
    rw [hfs.inodeSize, ← Nat.pos_iff_ne_zero, Nat.div_pos_iff]
    split_ifs with h0 <;> omega
  have hdivisors : fs.inodesPerGroup ≠ 0 →
    ((∀ x ∈ fs.divisors, x ≠ 0) ↔ sbInodeSize (superblockOf dev) ≤ fs.blockSize) := by
    intro hne
    rw [← hrecords]
    have h4 : fs.blockSize / 4 ≠ 0 := by omega
    have h512 : fs.blockSize / 512 ≠ 0 := by omega
    simp [Mem.divisors, hfs.pointers, hne, h4, h512, show fs.blockSize ≠ 0 by omega]
  unfold MountSafe
  rw [← hinodes, ← hfs.blockSize]
  constructor
  · rintro ⟨r, hopen', hr⟩
    obtain rfl := Option.some.inj (hopen.symm.trans hopen')
    obtain ⟨hne, hroot⟩ := hr fs rfl
    refine ⟨hd, hne, ?_⟩
    by_cases hnode : ∃ root, mountExt2 dev nocache heap = some (some root)
    · obtain ⟨root, hnode⟩ := hnode
      exact .inl ((hdivisors hne).mp (hroot root hnode))
    · exact .inr fun inode hi hm => hnode ((mountExt2_node_iff hopen).mpr ⟨inode, hi, hm⟩)
  · rintro ⟨-, hne, hor⟩
    refine ⟨_, hopen, fun fs' he => ?_⟩
    obtain rfl := Option.some.inj he
    refine ⟨hne, fun root hroot => (hdivisors hne).mpr ?_⟩
    refine hor.resolve_right fun h => ?_
    obtain ⟨inode, hi, hm⟩ := (mountExt2_node_iff hopen).mp ⟨root, hroot⟩
    exact h inode hi hm

theorem mount_safe_plain : MountSafe (superblockDev 2048 8192 8192 2048) true fun _ _ => 0 :=
  (mount_safe_iff _ _ _ (by decide)).mpr ⟨⟨by decide, by decide, by decide⟩, by decide, .inl (by decide)⟩

theorem mount_divides_by_zero : sbMagic (superblockOf (superblockDev 2048 8192 0 2048)) = 0xEF53 ∧
    ¬ MountSafe (superblockDev 2048 8192 0 2048) true fun _ _ => 0 := by
  refine ⟨by decide, ?_⟩
  rintro ⟨r, hopen, -⟩
  have e : (openVolume (superblockDev 2048 8192 0 2048) true fun _ _ => 0).isNone := by decide
  rw [hopen] at e
  simp at e

/-! ### Byte ranges -/

def Fs.Accesses (fs : Fs) (b x : ℕ) : Prop :=
  (∃ v buf, ({ fs.uncached with blockDevice := Function.update fs.blockDevice x v } : Fs).readBlock b buf ≠
    (fs.uncached.readBlock b buf).map fun r =>
      (r.1, { r.2 with blockDevice := Function.update fs.blockDevice x v })) ∨
  (∃ buf r fs', fs.uncached.writeBlock b buf = some (r, fs') ∧ fs'.blockDevice x ≠ fs.blockDevice x) ∨
  ∃ i e, e.blockNo = b ∧ (fs.cacheFlushDirty i e).blockDevice x ≠ fs.blockDevice x

theorem Fs.accesses_iff (fs : Fs) (b x : ℕ) : fs.Accesses b x ↔
    blockOffset fs.blockSize b ≤ x ∧ x < blockOffset fs.blockSize b + fs.blockSize := by
  constructor
  · intro h
    by_contra hout
    have hflush : ∀ buf : Buf, fs.blockDevice.blit (blockOffset fs.blockSize b) buf fs.blockSize x =
      fs.blockDevice x :=
      fun buf => blit_out (by omega)
    rcases h with ⟨v, buf, hne⟩ | ⟨buf, r, fs', hrun, hne⟩ | ⟨i, e, rfl, hne⟩
    · by_cases hb : b = 0
      · exact hne (by simp [Fs.readBlock, hb])
      · refine hne ?_
        simp only [Fs.readBlock, if_neg hb, Fs.uncached, Option.map_some, readFs]
        rw [blit_congr fun i hi => Function.update_of_ne (show blockOffset fs.blockSize b + i ≠ x by omega) _
          _]
        rfl
    · by_cases hb : b = 0
      · simp only [Fs.writeBlock, if_pos hb, Option.some.injEq, Prod.mk.injEq] at hrun
        exact hne (hrun.2 ▸ rfl)
      · simp only [Fs.writeBlock, if_neg hb, Fs.uncached, Option.some.injEq, Prod.mk.injEq, writeFs] at hrun
        exact hne (hrun.2 ▸ hflush buf)
    · exact hne (hflush e.block)
  · intro hin
    refine .inr (.inr ⟨0, ⟨b, 0, true, fun _ => if fs.blockDevice x = 0 then 1 else 0⟩, rfl, ?_⟩)
    simp only [Fs.cacheFlushDirty, Fs.setEntry, writeFs]
    rw [blit_in hin.1 hin.2]
    split_ifs with h0
    · rw [h0]
      decide
    · exact Ne.symm h0

/-- Different blocks of a volume with `count` blocks have no byte of the device in common. -/
def Fs.BlocksDisjoint (fs : Fs) (count : ℕ) : Prop :=
  ∀ a b, a < count → b < count → a ≠ b → ∀ x, ¬ (fs.Accesses a x ∧ fs.Accesses b x)

theorem blocks_disjoint_iff (fs : Fs) (k count : ℕ) (hk : k ≤ 21) (hbs : fs.blockSize = 1024 <<< k) :
    fs.BlocksDisjoint count ↔ count * fs.blockSize ≤ 2 ^ 32 := by
  have hpow : 2 ^ (22 - k) * fs.blockSize = 2 ^ 32 := by
    rw [hbs, Nat.shiftLeft_eq, show 1024 = 2 ^ 10 from rfl, ← Nat.pow_add, ← Nat.pow_add]
    congr 1
    omega
  have hpos : 0 < fs.blockSize := Nat.pos_of_ne_zero fun h => by simp [h] at hpow
  simp only [Fs.BlocksDisjoint, Fs.accesses_iff]
  constructor
  · intro h
    by_contra hlt
    -- the block behind the first 4 GiB lies where block 0 does
    have hcount : 2 ^ (22 - k) < count := by
      rw [← Nat.mul_lt_mul_right hpos, hpow]
      omega
    refine h 0 (2 ^ (22 - k)) (Nat.zero_lt_of_lt hcount) hcount (by positivity) 0 ?_
    simp only [blockOffset, hpow, Nat.zero_mul, Nat.zero_mod, Nat.mod_self]
    omega
  · intro hle
    have hoff : ∀ a < count, blockOffset fs.blockSize a = a * fs.blockSize := fun a ha =>
      Nat.mod_eq_of_lt (lt_of_lt_of_le (Nat.mul_lt_mul_of_pos_right ha hpos) hle)
    intro a b ha hb hne x
    rw [hoff a ha, hoff b hb]
    rintro ⟨⟨h1, h2⟩, h3, h4⟩
    rcases Nat.lt_or_gt_of_ne hne with hlt | hlt <;> have := Nat.mul_le_mul_right fs.blockSize hlt <;>
      rw [Nat.succ_mul] at this <;> omega

theorem blocks_disjoint_small : smallFs.BlocksDisjoint 16 :=
  (blocks_disjoint_iff smallFs 0 16 (by decide) rfl).mpr (by decide)

theorem blocks_alias : ¬ (largeFs 0).BlocksDisjoint 131072 := by
  intro h
  refine h 1 65537 (by decide) (by decide) (by decide) 65536 ⟨?_, ?_⟩ <;>
    exact (Fs.accesses_iff _ _ _).mpr (by decide)

end ChiffOS.Ext2
