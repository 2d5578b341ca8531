import ChiffOS.Ext2.Dir
import ChiffOS.Ext2.AllocRuns

/-! `mount_ext2`, and the table of group descriptors that it reads and that `allocate_block`,
`allocate_inode` and `mkdir_ext2` write back. The number of blocks is a truncating division plus one
in a field of eight bits, which is the length of the table for some group counts only. -/

namespace ChiffOS.Ext2

open Buf Option

def mountFields (sb blockGroups : Buf) : Option Mem :=
  let groups := sb.u32 4 / sb.u32 32
  let bgds := if sb.u32 32 * groups < sb.u32 4 then groups + 1 else groups
  let blockSize := 1024 <<< sb.u32 24
  if sb.u32 24 ≤ 21 ∧ sb.u32 32 ≠ 0 ∧ bgds ≠ 0 then
    some {
      superblock := sb
      blockGroups := blockGroups
      blockSize := blockSize
      pointersPerBlock := blockSize / 4
      inodesPerGroup := sb.u32 0 / bgds
      blockGroupCount := bgds
      bgdBlockSpan := (32 * bgds % 2 ^ 32 / blockSize + 1) % 256
      bgdOffset := if blockSize > 1024 then 1 else 2
      inodeSize := if sb.u16 88 = 0 then 128 else sb.u16 88 }
  else none

/-- `mount_ext2` up to the group descriptors. The superblock is read without cache; the inner `none` is the
null pointer for a device with another magic number. -/
def openVolume (dev : Buf) (nocache : Bool) (heap : ℕ → Buf) : Option (Option Fs) :=
  let sb := readFs dev 1024 1024 (heap 0)
  if sb.u16 56 ≠ 0xEF53 then some none
  else do
    let m ← mountFields sb (heap (if nocache then 1 else 2))
    let cacheEntries := if m.blockSize > 2048 then 10240 / 4 else 10240
    some (some {
      toMem := m
      blockDevice := dev
      diskCache := if nocache then none else some (Fs.emptyCache cacheEntries)
      cacheTime := 0
      heap := fun i => heap (i + if nocache then 2 else 3) })

def readDescriptors (i : ℕ) : (left : ℕ) → Ext2M Unit
  | 0 => pure ()
  | left + 1 => do
    let m ← this
    let (_, buf) ← readBlock (m.bgdOffset + i) (m.blockGroups.drop (m.blockSize * i))
    setBlockGroups (m.blockGroups.blit (m.blockSize * i) buf m.blockSize)
    readDescriptors (i + 1) left

def ext2Root (inode : Buf) : Option FsNode :=
  let mode := inodeMode inode
  if mode &&& sIfreg = sIfreg then none
  else if mode &&& sIfdir = sIfdir then
    some {
      inode := 2
      name := [0x2F]
      uid := inodeUid inode
      gid := inodeGid inode
      length := inodeLength inode
      mask := mode &&& 0xFFF
      nlink := inodeLinks inode
      flags := (if mode &&& 0x6000 = 0x6000 then 0x08 else 0) ||| (if mode &&& 0x2000 =
        0x2000 then 0x04 else 0) |||
        (if mode &&& 0x1000 = 0x1000 then 0x10 else 0) ||| (if mode &&& sIflnk = sIflnk then 0x20 else 0) |||
          0x02 }
  else none

def loadVolume : Ext2M (Option FsNode) := do
  let m ← this
  readDescriptors 0 m.bgdBlockSpan
  let rootInode ← readInode 2
  let _ ← malloc
  pure (ext2Root rootInode)

def mountExt2 (dev : Buf) (nocache : Bool) (heap : ℕ → Buf) : Option (Option (FsNode × Fs)) := do
  match ← openVolume dev nocache heap with
  | none => some none
  | some fs =>
    let (root, fs) ← loadVolume.run fsHandler fs
    some (root.map (·, fs))

def Mem.descriptorBlocks (m : Mem) : ℕ := (32 * m.blockGroupCount + m.blockSize - 1) / m.blockSize

def Mem.descriptorTable (m : Mem) : List ℕ := List.range' m.bgdOffset m.descriptorBlocks

def Ext2Op.touched {γ : Type} : Ext2Op γ → List ℕ
  | .readBlock b _ => [b]
  | .writeBlock b _ => [b]
  | _ => []

/-- The mounted file system, with a log of the blocks it is asked for. -/
def logHandler : Handler Ext2Op (Fs × List ℕ) := Prog.logging fsHandler Ext2Op.touched

/-- The file system has the fields `m`, but for its copies of the superblock and the descriptors. -/
structure Fs.Mounts (fs : Fs) (m : Mem) : Prop where
  mem : fs.toMem = { m with superblock := fs.superblock, blockGroups := fs.blockGroups }

theorem Fs.Mounts.bgdOffset {fs : Fs} {m : Mem} (h : fs.Mounts m) : fs.bgdOffset = m.bgdOffset := by
  have := congrArg Mem.bgdOffset h.mem
  exact this

theorem Fs.Mounts.blockSize {fs : Fs} {m : Mem} (h : fs.Mounts m) : fs.blockSize = m.blockSize := by
  have := congrArg Mem.blockSize h.mem
  exact this

/-- From every state of the cache that is coherent on the blocks of the loop, mounting reads exactly the
blocks of the descriptor table, and the write-back writes exactly those: they hold the descriptors then, and
every other block what it held. -/
structure Mem.TableExact (m : Mem) : Prop where
  loads : ∀ (S : ℕ → Prop) (fs : Fs), fs.Mounts m → fs.Good S → (∀ i < m.bgdBlockSpan, S (m.bgdOffset + i)) →
    fs.ClockRoom m.bgdBlockSpan →
    ∃ fs', (readDescriptors 0 m.bgdBlockSpan).run logHandler (fs, []) = some ((), fs', m.descriptorTable) ∧
      fs'.synced = fs.synced ∧
      ∀ i < m.descriptorBlocks, ∀ x < m.blockSize, fs'.blockGroups (m.blockSize * i + x) =
        fs.disk.blocks (m.bgdOffset + i) x
  stores : ∀ (S : ℕ → Prop) (fs : Fs), fs.Mounts m → fs.Good S → (∀ i < m.bgdBlockSpan, S (m.bgdOffset + i)) →
    fs.ClockRoom m.bgdBlockSpan →
    ∃ fs', (writeDescriptors 0 m.bgdBlockSpan).run logHandler (fs, []) = some ((), fs', m.descriptorTable) ∧
      (∀ i < m.descriptorBlocks, ∀ x < m.blockSize, fs'.disk.blocks (m.bgdOffset + i) x =
        fs.blockGroups (m.blockSize * i + x)) ∧
      ∀ b, S b → b ∉ m.descriptorTable → fs'.disk.blocks b = fs.disk.blocks b

/-! ### The loops -/

section Loops

theorem log_this (s : Fs × List ℕ) : this.run logHandler s = some (s.1.toMem, s) := by
  simp [this, logHandler, Prog.logging, fsHandler, Ext2Op.touched]

theorem log_setBlockGroups (bgd : Buf) (s : Fs × List ℕ) :
    (setBlockGroups bgd).run logHandler s = some ((), { s.1 with blockGroups := bgd }, s.2) := by
  simp [setBlockGroups, logHandler, Prog.logging, fsHandler, Ext2Op.touched]

theorem log_readBlock (b : ℕ) (buf : Buf) (s : Fs × List ℕ) :
    (readBlock b buf).run logHandler s = (s.1.readBlock b buf).map fun r => (r.1, r.2, s.2 ++ [b]) := by
  simp [readBlock, logHandler, Prog.logging, fsHandler, Ext2Op.touched]

theorem log_writeBlock (b : ℕ) (buf : Buf) (s : Fs × List ℕ) :
    (writeBlock b buf).run logHandler s = (s.1.writeBlock b buf).map fun r => (r.1, r.2, s.2 ++ [b]) := by
  simp [writeBlock, logHandler, Prog.logging, fsHandler, Ext2Op.touched]

variable {S : ℕ → Prop}

theorem writeDescriptors_run (left : ℕ) : ∀ (i : ℕ) (fs : Fs) (log : List ℕ), 0 < fs.bgdOffset → fs.Good S →
    (∀ j < left, S (fs.bgdOffset + (i + j))) → fs.ClockRoom left →
    ∃ fs', (writeDescriptors i left).run logHandler (fs, log) =
      some ((), fs', log ++ List.range' (fs.bgdOffset + i) left) ∧
      (∀ j < left, ∀ x < fs.blockSize, fs'.disk.blocks (fs.bgdOffset + (i + j)) x =
        fs.blockGroups (fs.blockSize * (i + j) + x)) ∧
      ∀ b, S b → (∀ j < left, b ≠ fs.bgdOffset + (i + j)) → fs'.disk.blocks b = fs.disk.blocks b := by
  induction left with
  | zero =>
    intro i fs log _ _ _ _
    exact ⟨fs, by simp [writeDescriptors], by simp, fun _ _ _ => rfl⟩
  | succ left ih =>
    intro i fs log hoff hg hS hclock
    have hb : S (fs.bgdOffset + i) := hS 0 (by omega)
    obtain ⟨fs₁, h1, h2, h3⟩ := hg.write hb (by omega) (fun hc => by have := hclock hc; omega)
      (fs.blockGroups.drop (fs.blockSize * i))
    have hm := h2.mem
    have hput : ∀ c, S c → fs₁.disk.blocks c =
      (fs.disk.put (fs.bgdOffset + i) (fs.blockGroups.drop (fs.blockSize * i))).blocks c :=
      fun c hc => hg.disk_write hb hc hm h3
    have hshift : ∀ j, i + 1 + j = i + (j + 1) := fun j => by omega
    obtain ⟨fs', h4, h5, h6⟩ := ih (i + 1) fs₁ (log ++ [fs.bgdOffset + i]) (by rw [hm]; exact hoff) h2.good
      (fun j hj => by rw [hm, hshift]; exact hS (j + 1) (by omega))
      (fun hc => by
        have := hclock (h2.cached ▸ hc)
        have := h2.time
        omega)
    rw [hm] at h4 h5 h6
    refine ⟨fs', ?_, ?_, ?_⟩
    · rw [writeDescriptors]
      simp only [Prog.run_bind, log_this, log_writeBlock, bind_some, h1, map_some]
      rw [h4, List.append_assoc]
      rfl
    · intro j hj x hx
      cases j with
      | zero =>
        have hrest : fs'.disk.blocks (fs.bgdOffset + i) = fs₁.disk.blocks (fs.bgdOffset + i) :=
          h6 _ hb (fun j _ => by omega)
        rw [Nat.add_zero, hrest, hput _ hb, Disk.put, Disk.setBlock_self,
          blit_in (Nat.zero_le _) (by rw [Nat.zero_add]; exact hx),
          Nat.sub_zero, drop_apply]
      | succ j =>
        rw [← hshift]
        exact h5 j (by omega) x hx
    · intro b hSb hne
      rw [h6 b hSb (fun j hj => by rw [hshift]; exact hne (j + 1) (by omega)), hput b hSb, Disk.put,
        Disk.setBlock_ne _ _ (by simpa using hne 0 (by omega))]

theorem readDescriptors_run (left : ℕ) : ∀ (i : ℕ) (fs : Fs) (log : List ℕ), 0 < fs.bgdOffset → fs.Good S →
    (∀ j < left, S (fs.bgdOffset + (i + j))) → fs.ClockRoom left →
    ∃ fs', (readDescriptors i left).run logHandler (fs, log) =
      some ((), fs', log ++ List.range' (fs.bgdOffset + i) left) ∧
      fs'.synced = fs.synced ∧
      (∀ j < left, ∀ x < fs.blockSize, fs'.blockGroups (fs.blockSize * (i + j) + x) =
        fs.disk.blocks (fs.bgdOffset + (i + j)) x) ∧
      ∀ a < fs.blockSize * i, fs'.blockGroups a = fs.blockGroups a := by
  induction left with
  | zero =>
    intro i fs log _ _ _ _
    exact ⟨fs, by simp [readDescriptors], rfl, by simp, fun _ _ => rfl⟩
  | succ left ih =>
    intro i fs log hoff hg hS hclock
    have hb : S (fs.bgdOffset + i) := hS 0 (by omega)
    obtain ⟨fs₁, h1, h2, h3⟩ := hg.read hb (by omega) (fun hc => by have := hclock hc; omega)
      (fs.blockGroups.drop (fs.blockSize * i))
    have hm := h2.mem
    have hshift : ∀ j, i + 1 + j = i + (j + 1) := fun j => by omega
    set bgd := fs.blockGroups.blit (fs.blockSize * i) ((fs.blockGroups.drop (fs.blockSize * i)).blit 0
      (fs.disk.blocks (fs.bgdOffset + i)) fs.blockSize) fs.blockSize with hbgd
    obtain ⟨fs₂, hfs⟩ : ∃ g : Fs, g = { fs₁ with blockGroups := bgd } := ⟨_, rfl⟩
    have hbs₁ : fs₁.blockSize = fs.blockSize := congrArg Mem.blockSize hm
    have hbo₁ : fs₁.bgdOffset = fs.bgdOffset := congrArg Mem.bgdOffset hm
    have hbs : fs₂.blockSize = fs.blockSize := by rw [hfs]; exact hbs₁
    have hbo : fs₂.bgdOffset = fs.bgdOffset := by rw [hfs]; exact hbo₁
    have hgroups : fs₂.blockGroups = bgd := by rw [hfs]
    have hgood : fs₂.Good S := hfs ▸ ⟨h2.good.size, h2.good.apart, h2.good.cache⟩
    have hsync : fs₂.synced = fs.synced := by
      rw [← h3, hfs]
      exact Fs.synced_congr rfl rfl rfl
    have hdisk : fs₂.disk.blocks = fs.disk.blocks := by simp only [Fs.disk, hsync, hbs]
    have hroom : fs₂.ClockRoom left := by
      intro hc
      rw [hfs] at hc ⊢
      have := hclock (h2.cached ▸ hc)
      have := h2.time
      change fs₁.cacheTime + left < uint32Max
      omega
    obtain ⟨fs', h4, h5, h6, h7⟩ := ih (i + 1) fs₂ (log ++ [fs.bgdOffset + i]) (hbo.symm ▸ hoff) hgood
      (fun j hj => by rw [hbo, hshift]; exact hS (j + 1) (by omega)) hroom
    rw [hbs, hbo, hdisk] at h6
    rw [hbs, hgroups] at h7
    rw [hbo] at h4
    refine ⟨fs', ?_, h5.trans hsync, ?_, ?_⟩
    · rw [readDescriptors]
      simp only [Prog.run_bind, log_this, log_readBlock, log_setBlockGroups, bind_some, h1, map_some]
      rw [← hbgd, ← hfs, h4, List.append_assoc]
      rfl
    · intro j hj x hx
      cases j with
      | zero =>
        have hlt : fs.blockSize * i + x < fs.blockSize * (i + 1) := by rw [Nat.mul_succ]; omega
        rw [Nat.add_zero, h7 _ hlt, hbgd, blit_in (by omega) (by omega), Nat.add_sub_cancel_left,
          blit_in (Nat.zero_le _) (by omega),
          Nat.sub_zero]
      | succ j =>
        rw [← hshift]
        exact h6 j (by omega) x hx
    · intro a ha
      rw [h7 a (by rw [Nat.mul_succ]; omega), hbgd, blit_out (.inl ha)]

end Loops

/-! ### The length of the table -/

/-- What `mount_ext2` makes of a volume of the format. -/
structure Mem.Derived (m : Mem) : Prop where
  size : m.SizeOk
  offset : m.bgdOffset = if m.blockSize > 1024 then 1 else 2
  span : m.bgdBlockSpan = (32 * m.blockGroupCount % 2 ^ 32 / m.blockSize + 1) % 256

theorem mountFields_derived {sb blockGroups : Buf} {m : Mem} (h : mountFields sb blockGroups = some m) :
    m.Derived := by
  simp only [mountFields] at h
  generalize (if sb.u32 32 * (sb.u32 4 / sb.u32 32) < sb.u32 4 then _ else _) = bgds at h
  by_cases hok : sb.u32 24 ≤ 21 ∧ sb.u32 32 ≠ 0 ∧ bgds ≠ 0
  · rw [if_pos hok] at h
    obtain rfl := some.inj h
    exact ⟨⟨_, hok.1, rfl⟩, rfl, rfl⟩
  · rw [if_neg hok] at h
    cases h

theorem openVolume_derived {dev : Buf} {nocache : Bool} {heap : ℕ → Buf} {fs : Fs}
    (h : openVolume dev nocache heap = some (some fs)) : fs.toMem.Derived := by
  unfold openVolume at h
  dsimp only at h
  by_cases hmagic : (readFs dev 1024 1024 (heap 0)).u16 56 ≠ 0xEF53
  · rw [if_pos hmagic] at h
    simp at h
  · rw [if_neg hmagic] at h
    obtain ⟨m, hm, hfs⟩ := bind_eq_some_iff.mp h
    obtain rfl := some.inj (some.inj hfs)
    exact mountFields_derived hm

namespace Mem.Derived

variable {m : Mem} (h : m.Derived)
include h

theorem offset_pos : 0 < m.bgdOffset := by
  rw [h.offset]
  split_ifs <;> omega

/-- The span is the length of the table if and only if the descriptors leave a rest in the last block, fit
into 255 blocks and do not overrun the multiplication. -/
theorem span_iff : m.bgdBlockSpan = m.descriptorBlocks ↔
    32 * m.blockGroupCount < 2 ^ 32 ∧ ¬ m.blockSize ∣ 32 * m.blockGroupCount ∧
      32 * m.blockGroupCount / m.blockSize < 255 := by
  rw [h.span, descriptorBlocks]
  obtain ⟨s, hs⟩ := h.size.dvd
  have hpos : 0 < m.blockSize := by have := h.size.le; omega
  have hs2 : 2 ≤ s := by
    obtain ⟨k, hk, hbs⟩ := h.size
    rw [hbs, Nat.shiftLeft_eq] at hs
    have : 1024 * 2 ^ k ≤ 1024 * 2 ^ 21 := Nat.mul_le_mul_left _ (Nat.pow_le_pow_right (by norm_num) hk)
    by_contra hlt
    have : 1024 * 2 ^ k * s ≤ 1024 * 2 ^ k * 1 := Nat.mul_le_mul_left _ (by omega)
    omega
  have hceil : (32 * m.blockGroupCount + m.blockSize - 1) / m.blockSize =
      32 * m.blockGroupCount / m.blockSize + if m.blockSize ∣ 32 * m.blockGroupCount then 0 else 1 := by
    have h1 := Nat.div_add_mod' (32 * m.blockGroupCount) m.blockSize
    have h2 := Nat.mod_lt (32 * m.blockGroupCount) hpos
    rw [Nat.div_eq_iff hpos, Nat.add_mul]
    split_ifs with hd
    · have h3 := Nat.mod_eq_zero_of_dvd hd
      omega
    · have h3 : 32 * m.blockGroupCount % m.blockSize ≠ 0 := fun h0 => hd (Nat.dvd_of_mod_eq_zero h0)
      omega
  rw [hceil]
  by_cases hlt : 32 * m.blockGroupCount < 2 ^ 32
  · rw [Nat.mod_eq_of_lt hlt]
    simp only [hlt, true_and]
    generalize 32 * m.blockGroupCount / m.blockSize = q
    split_ifs with hd
    · simp only [hd, not_true_eq_false, false_and, iff_false]
      omega
    · simp only [hd, not_false_eq_true, true_and]
      omega
  · -- the product wraps, and a wrapped length is short by more than one block
    have hsplit : 32 * m.blockGroupCount / m.blockSize =
        32 * m.blockGroupCount % 2 ^ 32 / m.blockSize + s * (32 * m.blockGroupCount / 2 ^ 32) := by
      conv_lhs => rw [← Nat.mod_add_div (32 * m.blockGroupCount) (2 ^ 32)]
      rw [hs, Nat.mul_assoc, Nat.add_mul_div_left _ _ hpos]
    have hone : 1 ≤ 32 * m.blockGroupCount / 2 ^ 32 := (Nat.one_le_div_iff (by norm_num)).mpr (by omega)
    have htwo : 2 * 1 ≤ s * (32 * m.blockGroupCount / 2 ^ 32) := Nat.mul_le_mul hs2 hone
    simp only [hlt, false_and, iff_false]
    rw [hsplit]
    generalize 32 * m.blockGroupCount % 2 ^ 32 / m.blockSize = q
    omega

theorem noAlias : NoAlias m.blockSize fun b => ∃ i < m.bgdBlockSpan, b = m.bgdOffset + i := by
  obtain ⟨s, hs⟩ := h.size.dvd
  have hpos : 0 < m.blockSize := by have := h.size.le; omega
  have hspan : m.bgdBlockSpan ≤ s := by
    have h1 : 32 * m.blockGroupCount % 2 ^ 32 < m.blockSize * s := hs ▸ Nat.mod_lt _ (by norm_num)
    have h2 := Nat.div_lt_of_lt_mul h1
    rw [h.span]
    exact (Nat.mod_le _ _).trans h2
  rintro a b ⟨i, hi, rfl⟩ ⟨j, hj, rfl⟩ hne he
  simp only [blockOffset] at he
  rw [Nat.mul_comm, Nat.mul_comm (m.bgdOffset + j), hs, Nat.mul_mod_mul_left, Nat.mul_mod_mul_left] at he
  have hmod := Nat.eq_of_mul_eq_mul_left hpos he
  rcases Nat.lt_or_ge i j with hij | hij
  · have h1 := (Nat.modEq_iff_dvd' (show m.bgdOffset + i ≤ m.bgdOffset + j by omega)).mp hmod
    have h2 := Nat.le_of_dvd (by omega) h1
    omega
  · have h1 := (Nat.modEq_iff_dvd' (show m.bgdOffset + j ≤ m.bgdOffset + i by omega)).mp hmod.symm
    have h2 := Nat.le_of_dvd (by omega) h1
    omega

end Mem.Derived

/-- Without a cache the loop runs from every state, and its log has as many blocks as the span says. -/
theorem span_of_exact {fs : Fs} (hd : fs.Derived) (ht : fs.TableExact) : fs.bgdBlockSpan =
    fs.descriptorBlocks := by
  have hg : fs.uncached.Good fun b => ∃ i < fs.bgdBlockSpan, b = fs.bgdOffset + i :=
    ⟨hd.size.dvd, hd.noAlias, fun dc hdc => by simp [Fs.uncached] at hdc⟩
  have hroom : fs.uncached.ClockRoom fs.bgdBlockSpan := fun hc => by simp [Fs.uncached] at hc
  obtain ⟨fs', h1, -, -⟩ := ht.stores _ fs.uncached ⟨rfl⟩ hg (fun i hi => ⟨i, hi, rfl⟩) hroom
  obtain ⟨fs'', h2, -, -⟩ := writeDescriptors_run fs.bgdBlockSpan 0 fs.uncached [] hd.offset_pos hg
    (fun j hj => ⟨j, hj, by rw [Nat.zero_add]; rfl⟩) hroom
  rw [h1] at h2
  have h3 := congrArg List.length (Prod.mk.inj (Prod.mk.inj (some.inj h2)).2).2
  simpa [Mem.descriptorTable] using h3.symm

/-- The blocks that are read and written back are the descriptor table exactly if its descriptors leave a
rest in their last block, fit into 255 blocks and take less than 4 GiB. -/
theorem descriptor_table_iff (dev : Buf) (nocache : Bool) (heap : ℕ → Buf) (fs : Fs)
    (h : openVolume dev nocache heap = some (some fs)) :
    fs.TableExact ↔ 32 * fs.blockGroupCount < 2 ^ 32 ∧ ¬ fs.blockSize ∣ 32 * fs.blockGroupCount ∧
      32 * fs.blockGroupCount / fs.blockSize < 255 := by
  have hd := openVolume_derived h
  rw [← hd.span_iff]
  constructor
  · exact span_of_exact hd
  · intro hspan
    refine ⟨?_, ?_⟩
    · intro S g hm hg hS hroom
      have hbo := hm.bgdOffset
      have hbs := hm.blockSize
      obtain ⟨g', h1, h2, h3, -⟩ := readDescriptors_run fs.bgdBlockSpan 0 g [] (hbo ▸ hd.offset_pos) hg
        (fun j hj => by rw [hbo, Nat.zero_add]; exact hS j hj) hroom
      refine ⟨g', ?_, h2, ?_⟩
      · rw [h1, hbo, hspan]
        rfl
      · intro i hi x hx
        simpa [hbo, hbs] using h3 i (hspan ▸ hi) x (hbs ▸ hx)
    · intro S g hm hg hS hroom
      have hbo := hm.bgdOffset
      have hbs := hm.blockSize
      obtain ⟨g', h1, h2, h3⟩ := writeDescriptors_run fs.bgdBlockSpan 0 g [] (hbo ▸ hd.offset_pos) hg
        (fun j hj => by rw [hbo, Nat.zero_add]; exact hS j hj) hroom
      refine ⟨g', ?_, ?_, ?_⟩
      · rw [h1, hbo, hspan]
        rfl
      · intro i hi x hx
        simpa [hbo, hbs] using h2 i (hspan ▸ hi) x (hbs ▸ hx)
      · intro b hb hnot
        apply h3 b hb
        intro j hj he
        apply hnot
        rw [Mem.descriptorTable, List.mem_range'_1, ← hspan]
        omega

/-- A device of 262144 blocks of 1 KiB in 32 groups: the descriptors fill block 2, and block 3 is the bitmap
of the first group, with the blocks 6 and 7 free. -/
def fullTable : Buf := fun a =>
  if a = 1025 then 2 else if a = 1030 then 4 else if a = 1036 then 2 else if a = 1057 then 0x20
  else if a = 1080 then 0x53 else if a = 1081 then 0xEF
  else if a = 2048 then 3 else if a = 2052 then 4 else if a = 2056 then 5 else if a = 2060 then 2
  else if a = 3072 then 0x3F else if 3072 < a ∧ a < 4096 then 0xFF else if a = 5249 then 0x41 else 0

/-- One group more than fits leaves a rest in the second block. -/
def partTable : Buf := fun a => if a = 1029 then 0x20 else fullTable a

theorem descriptor_table_part : ∃ fs, openVolume partTable true (fun _ _ => 0) = some (some fs) ∧
    fs.TableExact := by
  have hrun : (openVolume partTable true fun _ _ => 0).map (Option.map fun fs =>
    (fs.blockGroupCount, fs.blockSize)) =
      some (some (33, 1024)) := by decide +kernel
  obtain ⟨r, hr, hr'⟩ := map_eq_some_iff.mp hrun
  obtain ⟨fs, rfl, hfs⟩ := map_eq_some_iff.mp hr'
  obtain ⟨hc, hb⟩ := Prod.mk.inj hfs
  refine ⟨fs, hr, (descriptor_table_iff _ _ _ fs hr).mpr ?_⟩
  rw [hc, hb]
  decide

def loadAndAllocate : Ext2M (Bool × ℕ × ℕ) := do
  let root ← loadVolume
  let a ← allocateBlock
  let b ← allocateBlock
  pure (root.isSome, a, b)

/-- Two blocks are written back for a table of one. The second one is the bitmap as it was at mount time, so
that the same block is allocated again. -/
theorem descriptor_overrun : ∃ fs, openVolume fullTable true (fun _ _ => 0) = some (some fs) ∧
    fs.descriptorTable = [2] ∧ fs.bgdBlockSpan = 2 ∧
    (loadAndAllocate.run fsHandler fs).map Prod.fst = some (true, 6, 6) ∧ ¬ fs.TableExact := by
  have hrun : (openVolume fullTable true fun _ _ => 0).bind (Option.map fun fs =>
    (fs.descriptorTable, fs.bgdBlockSpan,
      (loadAndAllocate.run fsHandler fs).map Prod.fst)) = some ([2], 2, some (true, 6, 6)) := by
    decide +kernel
  obtain ⟨r, hr, hr'⟩ := bind_eq_some_iff.mp hrun
  obtain ⟨fs, rfl, hfs⟩ := map_eq_some_iff.mp hr'
  simp only [Prod.mk.injEq] at hfs
  obtain ⟨htable, hspan, hgiven⟩ := hfs
  refine ⟨fs, hr, htable, hspan, hgiven, fun ht => ?_⟩
  have h1 := span_of_exact (openVolume_derived hr) ht
  have h2 := congrArg List.length htable
  simp only [Mem.descriptorTable, List.length_range', List.length_singleton] at h2
  omega

end ChiffOS.Ext2
