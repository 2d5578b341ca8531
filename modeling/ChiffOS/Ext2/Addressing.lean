import ChiffOS.Ext2.InodeSpec

/-! Which slot of the inode tables `write_inode`, `refresh_inode` and `read_inode` use, for every inode
number and every geometry. The group is taken from the number itself and the index from the number
less one, so that the last inode of a group is looked for in the table of the next group, at index
`2 ^ 32 - 1`. -/

namespace ChiffOS.Ext2

open Buf

/-- The number before a multiple of `q` leaves the greatest remainder, and no other does. -/
theorem pred_mod_iff {q n : ℕ} (hq : 0 < q) (hn : 0 < n) : (n - 1) % q = q - 1 ↔ q ∣ n := by
  constructor
  · intro hr
    have h1 := Nat.div_add_mod (n - 1) q
    refine ⟨(n - 1) / q + 1, ?_⟩
    rw [Nat.mul_succ]
    omega
  · intro hd
    obtain ⟨c, rfl⟩ := hd
    obtain ⟨c, rfl⟩ : ∃ d, c = d + 1 := ⟨c - 1, by have := Nat.pos_of_mul_pos_left hn; omega⟩
    rw [Nat.mul_succ, Nat.add_sub_assoc hq, Nat.mul_add_mod, Nat.mod_eq_of_lt (by omega)]

namespace Mem

/-- The inode tables of the format: records fill their blocks, and the blocks of the tables are apart,
at numbers of 32 bits, none of them block 0. -/
structure Tables (m : Mem) : Prop where
  block_dvd : m.blockSize ∣ 2 ^ 32
  inode_dvd : m.inodeSize ∣ m.blockSize
  inodes_pos : 0 < m.inodesPerGroup
  mem : ∀ g i, Meta.Live m (.inodeTable g i) → 0 < m.inodeTable g + i ∧ m.inodeTable g + i < 2 ^ 32
  apart : ∀ g i h j, Meta.Live m (.inodeTable g i) → Meta.Live m (.inodeTable h j) →
    m.inodeTable g + i = m.inodeTable h + j → g = h ∧ i = j

def Numbered (m : Mem) (n : ℕ) : Prop := 1 ≤ n ∧ n ≤ m.blockGroupCount * m.inodesPerGroup ∧ n < 2 ^ 32

/-- The record starts in the first 4 GiB of its table, and the inode is not the last of its group. -/
def Within (m : Mem) (n : ℕ) : Prop :=
  ¬ m.inodesPerGroup ∣ n ∧ (n - 1) % m.inodesPerGroup * m.inodeSize < 2 ^ 32

def Behind (m : Mem) (n : ℕ) : Prop :=
  m.inodesPerGroup ∣ n ∧ m.blockSize / m.inodeSize ∣ m.inodesPerGroup ∧
    (m.inodeTable (n / m.inodesPerGroup) + (2 ^ 32 / m.blockSize - 1)) % 2 ^ 32 = m.recordBlock n

def Reached (m : Mem) (n : ℕ) : Prop := m.Within n ∨ m.Behind n

instance (m : Mem) (n : ℕ) : Decidable (m.Within n) := by unfold Within; infer_instance
instance (m : Mem) (n : ℕ) : Decidable (m.Behind n) := by unfold Behind; infer_instance
instance (m : Mem) (n : ℕ) : Decidable (m.Reached n) := by unfold Reached; infer_instance

namespace Tables

variable {m : Mem} (h : m.Tables)
include h

theorem block_pos : 0 < m.blockSize := Nat.pos_of_dvd_of_pos h.block_dvd (by norm_num)

theorem inode_pos : 0 < m.inodeSize := Nat.pos_of_dvd_of_pos h.inode_dvd h.block_pos

theorem records_mul : m.blockSize / m.inodeSize * m.inodeSize = m.blockSize := Nat.div_mul_cancel h.inode_dvd

theorem records_pos : 0 < m.blockSize / m.inodeSize := records_pos_of_dvd h.inode_dvd h.block_pos

theorem records_dvd : m.blockSize / m.inodeSize ∣ 2 ^ 32 :=
  (Nat.div_dvd_of_dvd h.inode_dvd).trans h.block_dvd

/-- The byte that the code computes is that of the index, wrapped or not. -/
theorem slot_snd (n : ℕ) : (inodeSlot m n).2 =
    (n - n / m.inodesPerGroup * m.inodesPerGroup + 2 ^ 32 - 1) % 2 ^ 32 % (m.blockSize / m.inodeSize) *
      m.inodeSize := by
  obtain ⟨q, hq⟩ := h.inode_dvd
  obtain ⟨r, hr⟩ := h.block_dvd
  rw [hq, Nat.mul_assoc] at hr
  have hqpos : 0 < q := Nat.pos_of_ne_zero fun h0 => by simp [h0] at hr
  have hi : (n - n / m.inodesPerGroup * m.inodesPerGroup + 2 ^ 32 - 1) % 2 ^ 32 < m.inodeSize * (q * r) :=
    hr ▸ Nat.mod_lt _ (by norm_num)
  have hslot := slot_byte h.inode_pos hqpos hi
  rw [← hr, ← hq] at hslot
  have hdiv : m.blockSize / m.inodeSize = q := by rw [hq, Nat.mul_div_cancel_left _ h.inode_pos]
  simp only [inodeSlot]
  rw [hslot, hdiv, Nat.mul_comm]

/-- The last inode of a group is looked for behind the last block of 4 GiB, as its last record. -/
theorem slot_of_dvd {n : ℕ} (hn : m.inodesPerGroup ∣ n) : inodeSlot m n =
    ((m.inodeTable (n / m.inodesPerGroup) + (2 ^ 32 / m.blockSize - 1)) % 2 ^ 32,
      (m.blockSize / m.inodeSize - 1) * m.inodeSize) := by
  have hidx : (n - n / m.inodesPerGroup * m.inodesPerGroup + 2 ^ 32 - 1) % 2 ^ 32 = 2 ^ 32 - 1 := by
    rw [Nat.div_mul_cancel hn, Nat.sub_self]
    norm_num
  apply Prod.ext
  · -- `(2 ^ 32 - 1) * inode_size` wraps to `2 ^ 32 - inode_size`
    have hle : m.inodeSize ≤ m.blockSize := Nat.le_of_dvd h.block_pos h.inode_dvd
    have hmul : (2 ^ 32 - 1) * m.inodeSize % 2 ^ 32 / m.blockSize = 2 ^ 32 / m.blockSize - 1 := by
      obtain ⟨r, hr⟩ := h.block_dvd
      have hb := h.block_pos
      have hi := h.inode_pos
      have hrpos : 0 < r := Nat.pos_of_ne_zero fun h0 => by simp [h0] at hr
      have hbr : m.blockSize ≤ m.blockSize * r := Nat.le_mul_of_pos_right _ hrpos
      have hmod : (m.blockSize * r - 1) * m.inodeSize % (m.blockSize * r) =
        m.blockSize * r - m.inodeSize := by
        have h1 : (m.blockSize * r - 1) * m.inodeSize =
          m.blockSize * r * (m.inodeSize - 1) + (m.blockSize * r - m.inodeSize) := by
          zify [show 1 ≤ m.blockSize *
            r by omega, show 1 ≤ m.inodeSize by omega, show m.inodeSize ≤ m.blockSize * r by omega]
          ring
        rw [h1, Nat.mul_add_mod, Nat.mod_eq_of_lt (by omega)]
      rw [hr, hmod, Nat.mul_div_cancel_left _ hb, Nat.div_eq_iff hb]
      have h2 : (r - 1) * m.blockSize =
        m.blockSize * r - m.blockSize := by rw [Nat.sub_mul, Nat.one_mul, Nat.mul_comm]
      constructor <;> omega
    unfold inodeSlot
    dsimp only
    rw [hidx, hmul]
  · rw [h.slot_snd, hidx, (pred_mod_iff h.records_pos (by norm_num)).mpr h.records_dvd]

section Number

variable {n : ℕ} (hn : m.Numbered n)
include hn

theorem live : Meta.Live m
    (.inodeTable ((n - 1) / m.inodesPerGroup) ((n - 1) % m.inodesPerGroup / (m.blockSize / m.inodeSize))) :=
  record_live_of_dvd h.inode_dvd h.block_pos h.inodes_pos ⟨hn.1, hn.2.1⟩

theorem recordBlock_pos : 0 < m.recordBlock n := (h.mem _ _ (h.live hn)).1

theorem recordBlock_lt : m.recordBlock n < 2 ^ 32 := (h.mem _ _ (h.live hn)).2

omit hn in
theorem recordByte_le (n : ℕ) : m.recordByte n + m.inodeSize ≤ m.blockSize :=
    recordByte_le_of_dvd h.inode_dvd h.block_pos n

theorem inTable : ¬ n / m.inodesPerGroup > m.blockGroupCount := by
  have h1 := Nat.div_le_div_right (c := m.inodesPerGroup) hn.2.1
  rw [Nat.mul_div_cancel _ h.inodes_pos] at h1
  omega

theorem records_apart {k : ℕ} (hk : m.Numbered k) (hne : k ≠ n) (hb : m.recordBlock k = m.recordBlock n) :
    m.recordByte k + m.inodeSize ≤ m.recordByte n ∨ m.recordByte n + m.inodeSize ≤ m.recordByte k := by
  obtain ⟨hg, hi⟩ := h.apart _ _ _ _ (h.live hk) (h.live hn) hb
  apply recordBytes_apart hn.1 hk.1 hne
  simp only [recordRef, hg, hi]

theorem slot_iff_of_not_dvd (hnd : ¬ m.inodesPerGroup ∣ n) :
    inodeSlot m n = (m.recordBlock n, m.recordByte n) ↔
      (n - 1) % m.inodesPerGroup * m.inodeSize < 2 ^ 32 := by
  have hpos := h.inodes_pos
  have hmod : 0 < n % m.inodesPerGroup := Nat.pos_of_ne_zero fun h0 => hnd (Nat.dvd_of_mod_eq_zero h0)
  have hdiv := Nat.div_add_mod' n m.inodesPerGroup
  have hlt := Nat.mod_lt n hpos
  have hgroup : (n - 1) / m.inodesPerGroup = n / m.inodesPerGroup := by
    rw [Nat.div_eq_iff hpos]
    omega
  have hidx : (n - n / m.inodesPerGroup * m.inodesPerGroup + 2 ^ 32 - 1) % 2 ^ 32 =
    (n - 1) % m.inodesPerGroup := by
    have h1 := Nat.div_add_mod' (n - 1) m.inodesPerGroup
    rw [hgroup] at h1
    have h2 := hn.2.2
    omega
  have hsnd : (inodeSlot m n).2 = m.recordByte n := by rw [h.slot_snd, hidx, recordByte]
  have hfst : (inodeSlot m n).1 =
      (m.inodeTable ((n - 1) / m.inodesPerGroup) + (n - 1) % m.inodesPerGroup * m.inodeSize % 2 ^ 32 /
        m.blockSize) % 2 ^ 32 := by
    unfold inodeSlot
    dsimp only
    rw [hidx, hgroup]
  set i := (n - 1) % m.inodesPerGroup with hi
  have hblk : m.recordBlock n =
    m.inodeTable ((n - 1) / m.inodesPerGroup) + i * m.inodeSize / m.blockSize := by
    have h1 : i * m.inodeSize / (m.blockSize / m.inodeSize * m.inodeSize) = i / (m.blockSize / m.inodeSize) :=
      Nat.mul_div_mul_right _ _ h.inode_pos
    rw [h.records_mul] at h1
    rw [recordBlock, ← hi, h1]
  have hlt32 := h.recordBlock_lt hn
  have hle : i * m.inodeSize % 2 ^ 32 / m.blockSize ≤ i * m.inodeSize / m.blockSize :=
    Nat.div_le_div_right (Nat.mod_le _ _)
  rw [hblk] at hlt32
  have hfst' : (inodeSlot m n).1 =
      m.inodeTable ((n - 1) / m.inodesPerGroup) + i * m.inodeSize % 2 ^ 32 / m.blockSize := by
    rw [hfst, Nat.mod_eq_of_lt (by omega)]
  constructor
  · intro he
    have h1 : (inodeSlot m n).1 = m.recordBlock n := by rw [he]
    rw [hfst', hblk] at h1
    have h2 : i * m.inodeSize / m.blockSize = i * m.inodeSize % 2 ^ 32 / m.blockSize := by omega
    have h3 : i * m.inodeSize % 2 ^ 32 / m.blockSize < 2 ^ 32 / m.blockSize :=
      Nat.div_lt_div_of_lt_of_dvd h.block_dvd (Nat.mod_lt _ (by norm_num))
    rw [← h2] at h3
    exact lt_of_not_ge fun hge => absurd (Nat.div_le_div_right hge) (Nat.not_le.mpr h3)
  · intro hsmall
    apply Prod.ext
    · rw [hfst', hblk, Nat.mod_eq_of_lt hsmall]
    · exact hsnd

theorem slot_iff : inodeSlot m n = (m.recordBlock n, m.recordByte n) ↔ m.Reached n := by
  unfold Reached
  by_cases hd : m.inodesPerGroup ∣ n
  · rw [h.slot_of_dvd hd, Prod.mk.injEq]
    have hidx : (n - 1) % m.inodesPerGroup = m.inodesPerGroup - 1 := (pred_mod_iff h.inodes_pos hn.1).mpr hd
    have hbyte : (m.blockSize / m.inodeSize - 1) * m.inodeSize = m.recordByte n ↔
        m.blockSize / m.inodeSize ∣ m.inodesPerGroup := by
      rw [recordByte, hidx, Nat.mul_left_inj h.inode_pos.ne', eq_comm,
        pred_mod_iff h.records_pos h.inodes_pos]
    rw [hbyte]
    simp only [Within, Behind, hd, not_true_eq_false, false_and, false_or, true_and]
    exact and_comm
  · rw [h.slot_iff_of_not_dvd hn hd]
    simp [Within, Behind, hd]

end Number

end Tables

end Mem

/-! ### Reading and writing a record -/

/-- A range that is copied out, changed in a part and copied back is changed in that part. -/
theorem blit_modified {dev buf blk x : Buf} {base off l len : ℕ} (hle : off + l ≤ len)
    (h : ∀ i < len, blk i = dev (base + i)) :
    dev.blit base ((buf.blit 0 blk len).blit off x l) len = dev.blit (base + off) x l := by
  funext a
  by_cases h1 : base + off ≤ a ∧ a < base + off + l
  · rw [blit_in (by omega) (by omega), blit_in (by omega) (by omega), blit_in (by omega) (by omega)]
    congr 1
    omega
  · have hout : dev.blit (base + off) x l a = dev a := blit_out (by omega)
    rw [hout]
    by_cases h2 : base ≤ a ∧ a < base + len
    · rw [blit_in h2.1 h2.2, blit_out (by omega), blit_in (by omega) (by omega), h _ (by omega)]
      congr 1
      omega
    · exact blit_out (by omega)

section Record

variable {S : ℕ → Prop} {fs : Fs} {n : ℕ}

/-- The next buffer of `malloc` is gone. -/
def Fs.popHeap (fs : Fs) : Fs := { fs with heap := fun i => fs.heap (i + 1) }

theorem Fs.Good.popHeap (hg : fs.Good S) : fs.popHeap.Good S := ⟨hg.size, hg.apart, hg.cache⟩

theorem Fs.popHeap_synced (fs : Fs) : fs.popHeap.synced = fs.synced := synced_congr rfl rfl rfl

theorem Fs.popHeap_disk (fs : Fs) : fs.popHeap.disk = fs.disk := by
  unfold Fs.disk
  rw [popHeap_synced]
  rfl

theorem Fs.record_eq (fs : Fs) (n : ℕ) {i : ℕ} (hi : fs.recordByte n + i < fs.blockSize) :
    fs.disk.record n i = fs.synced (blockOffset fs.blockSize (fs.recordBlock n) + fs.recordByte n + i) := by
  rw [Nat.add_assoc]
  exact take_in hi

variable (h : fs.Tables) (hn : fs.Numbered n)
    (hslot : inodeSlot fs.toMem n = (fs.recordBlock n, fs.recordByte n))
  (hg : fs.Good S) (hS : S (fs.recordBlock n)) 
include h hn hslot hg hS

theorem readInode_run (ht : fs.diskCache.isSome → fs.cacheTime < uint32Max) :
    ∃ r fs', (readInode n).run fsHandler fs = some (r, fs') ∧ fs.Later S fs' 1 ∧ fs'.synced = fs.synced ∧
      SameOn r (fs.disk.record n) 0 fs.inodeSize := by
  obtain ⟨fs', h1, h2, h3⟩ := hg.popHeap.popHeap.read hS
    (h.recordBlock_pos hn).ne' ht (fs.heap 1)
  rw [Fs.popHeap_disk, Fs.popHeap_disk] at h1
  refine ⟨(fs.heap 0).blit 0 (((fs.heap 1).blit 0 (fs.disk.blocks (fs.recordBlock n)) fs.blockSize).drop
    (fs.recordByte n)) fs.inodeSize, fs', ?_, ⟨h2.good, h2.mem, h2.cached, h2.time⟩, ?_, ?_⟩
  · have hin := h.inTable hn
    simp only [readInode, refreshInode, malloc, this, Ext2.readBlock, Prog.run_bind, Prog.run_ask, fsHandler,
      Option.bind_some]
    rw [if_neg hin]
    simp only [Prog.run_bind, Prog.run_ask, fsHandler, Option.bind_some, hslot]
    rw [show (⟨fs.toMem, fs.blockDevice, fs.diskCache, fs.cacheTime, fun i => fs.heap (i + 1 + 1)⟩ : Fs) =
      fs.popHeap.popHeap from rfl, h1]
    rfl
  · rw [h3, Fs.popHeap_synced, Fs.popHeap_synced]
  · intro i h4 h5
    have hle := h.recordByte_le n
    rw [blit_in h4 h5, drop_apply, Nat.sub_zero, blit_in (Nat.zero_le _) (by omega), Nat.sub_zero]
    rfl

theorem writeInode_run (ht : fs.diskCache.isSome → fs.cacheTime + 1 < uint32Max) (x : Buf) :
    ∃ fs', (writeInode x n).run fsHandler fs = some (.success, fs') ∧ fs.Later S fs' 2 ∧
      fs'.synced = fs.synced.blit (blockOffset fs.blockSize (fs.recordBlock n) + fs.recordByte n) x
        fs.inodeSize := by
  obtain ⟨fs₁, h1, h2, h3⟩ := hg.popHeap.read hS (h.recordBlock_pos hn).ne'
    (fun hc => by have := ht hc; change fs.cacheTime < _; omega) (fs.heap 0)
  rw [Fs.popHeap_disk] at h1
  have hbs : fs₁.blockSize = fs.blockSize := congrArg Mem.blockSize h2.mem
  obtain ⟨fs₂, h4, h5, h6⟩ := h2.good.write hS (h.recordBlock_pos hn).ne'
    (fun hc => by
      have h7 := ht (h2.cached ▸ hc)
      have h8 := h2.time
      change _ ≤ fs.cacheTime + 1 at h8
      omega)
    (((fs.heap 0).blit 0 (fs.disk.blocks (fs.recordBlock n)) fs.blockSize).blit (fs.recordByte n) x
      fs.inodeSize)
  have hlater := h2.trans h5
  refine ⟨fs₂, ?_, ⟨hlater.good, hlater.mem, hlater.cached, hlater.time⟩, ?_⟩
  · have hin := h.inTable hn
    simp only [writeInode, malloc, this, Ext2.readBlock, Ext2.writeBlock, Prog.run_bind, Prog.run_ask,
      fsHandler, Option.bind_some]
    rw [if_neg hin]
    simp only [Prog.run_bind, Prog.run_ask, fsHandler, Option.bind_some, hslot]
    rw [show (⟨fs.toMem, fs.blockDevice, fs.diskCache, fs.cacheTime, fun i => fs.heap (i + 1)⟩ : Fs) =
      fs.popHeap from rfl, h1]
    simp only [Option.bind_some]
    rw [show fs.popHeap.blockSize = fs.blockSize from rfl, h4]
    rfl
  · rw [h6, h3, hbs, Fs.popHeap_synced]
    exact blit_modified (h.recordByte_le n) fun i hi => take_in hi

end Record

def rewriteBetween (x : Buf) (n k : ℕ) : Ext2M (Buf × Err × Buf × Buf) := do
  let old ← readInode k
  let e ← writeInode x n
  let self ← readInode n
  let new ← readInode k
  pure (old, e, self, new)

/-- The calls on inodes `n` and `k` use the slots of the format. From every state of the cache that is
coherent on their blocks, a write of `n` changes that record and no other byte of the volume, and is
read back; `k` reads as the format has it, and as before if it is another inode. -/
structure Mem.Addressed (m : Mem) (n k : ℕ) : Prop where
  slot : inodeSlot m n = (m.recordBlock n, m.recordByte n)
  other : inodeSlot m k = (m.recordBlock k, m.recordByte k)
  rewrite : ∀ (S : ℕ → Prop) (fs : Fs) (x : Buf), fs.toMem = m → fs.Good S → S (m.recordBlock n) →
    S (m.recordBlock k) →
    (fs.diskCache.isSome → fs.cacheTime + 5 < uint32Max) →
    ∃ old self new fs', (rewriteBetween x n k).run fsHandler fs = some ((old, .success, self, new), fs') ∧
      SameOn old (fs.disk.record k) 0 m.inodeSize ∧ SameOn self x 0 m.inodeSize ∧
      (k ≠ n → SameOn new old 0 m.inodeSize) ∧
      fs'.synced = fs.synced.blit (blockOffset m.blockSize (m.recordBlock n) + m.recordByte n) x m.inodeSize

/-- On the device, too, the records of different inodes do not overlap. -/
theorem records_disjoint {m : Mem} (h : m.Tables) {S : ℕ → Prop} (hal : NoAlias m.blockSize S) {n k : ℕ}
    (hn : m.Numbered n) (hk : m.Numbered k) (hSn : S (m.recordBlock n)) (hSk : S (m.recordBlock k))
    (hne : k ≠ n) :
    blockOffset m.blockSize (m.recordBlock k) + m.recordByte k + m.inodeSize ≤
        blockOffset m.blockSize (m.recordBlock n) + m.recordByte n ∨
      blockOffset m.blockSize (m.recordBlock n) + m.recordByte n + m.inodeSize ≤
        blockOffset m.blockSize (m.recordBlock k) + m.recordByte k := by
  by_cases hb : m.recordBlock k = m.recordBlock n
  · have h1 := h.records_apart hn hk hne hb
    rw [hb]
    omega
  · have h1 := offsets_apart h.block_dvd (hal _ _ hSk hSn hb)
    have h2 := h.recordByte_le n
    have h3 := h.recordByte_le k
    omega

theorem addressed_of_slots {m : Mem} (h : m.Tables) {n k : ℕ} (hn : m.Numbered n) (hk : m.Numbered k)
    (hsn : inodeSlot m n = (m.recordBlock n, m.recordByte n)) (hsk : inodeSlot m k =
      (m.recordBlock k, m.recordByte k)) :
    m.Addressed n k := by
  refine ⟨hsn, hsk, ?_⟩
  intro S fs x hm hg hSn hSk ht
  subst hm
  obtain ⟨old, fs₁, hrun₁, hl₁, hs₁, hold⟩ := readInode_run h hk hsk hg hSk fun hc => by have := ht hc; omega
  have ht₁ : fs₁.diskCache.isSome → fs₁.cacheTime + 4 < uint32Max := fun hc => by
    have := ht (hl₁.cached ▸ hc)
    have := hl₁.time
    omega
  have hm₁ := hl₁.mem
  obtain ⟨fs₂, hrun₂, hl₂, hs₂⟩ := writeInode_run (show fs₁.Tables from hm₁ ▸ h) (hm₁ ▸ hn) (hm₁ ▸ hsn)
    hl₁.good (hm₁ ▸ hSn)
    (fun hc => by have := ht₁ hc; omega) x
  have hl₂' := hl₁.trans hl₂
  have hm₂ := hl₂'.mem
  obtain ⟨self, fs₃, hrun₃, hl₃, hs₃, hself⟩ := readInode_run (show fs₂.Tables from hm₂ ▸ h) (hm₂ ▸ hn)
    (hm₂ ▸ hsn) hl₂.good (hm₂ ▸ hSn)
    (fun hc => by have := ht (hl₂'.cached ▸ hc); have := hl₂'.time; omega)
  have hl₃' := hl₂'.trans hl₃
  have hm₃ := hl₃'.mem
  obtain ⟨new, fs₄, hrun₄, hl₄, hs₄, hnew⟩ := readInode_run (show fs₃.Tables from hm₃ ▸ h) (hm₃ ▸ hk)
    (hm₃ ▸ hsk) hl₃.good (hm₃ ▸ hSk)
    (fun hc => by have := ht (hl₃'.cached ▸ hc); have := hl₃'.time; omega)
  have hsync : fs₂.synced = fs.synced.blit (blockOffset fs.blockSize (fs.recordBlock n) + fs.recordByte n) x
    fs.inodeSize := by
    rw [hs₂, hs₁, hm₁]
  have hlen := h.recordByte_le n
  refine ⟨old, self, new, fs₄, ?_, hold, ?_, ?_, ?_⟩
  · unfold rewriteBetween
    simp only [Prog.run_bind, hrun₁, hrun₂, hrun₃, hrun₄, Option.bind_some, Prog.run_pure]
  · intro i h1 h2
    have h3 := hself i h1 (by rw [hm₂]; exact h2)
    rw [h3, fs₂.record_eq n (by rw [hm₂]; omega), hsync, hm₂, blit_in (by omega) (by omega)]
    congr 1
    omega
  · intro hne i h1 h2
    have hlek := h.recordByte_le k
    have hdis := records_disjoint h hg.apart hn hk hSn hSk hne
    have h3 := hnew i h1 (by rw [hm₃]; exact h2)
    rw [h3, fs₃.record_eq k (by rw [hm₃]; omega), hs₃, hsync, hm₃, blit_out (by omega), hold i h1 h2,
      fs.record_eq k (by omega)]
  · rw [hs₄, hs₃, hsync]

/-- Exactly when the calls on two inodes use the slots of the format: each is inside its group and in the
first 4 GiB of its table, or is found by the wrapped index all the same. -/
theorem inode_slots_iff (m : Mem) (h : m.Tables) (n k : ℕ) (hn : m.Numbered n) (hk : m.Numbered k) :
    m.Addressed n k ↔ m.Reached n ∧ m.Reached k := by
  constructor
  · intro ha
    exact ⟨(h.slot_iff hn).mp ha.slot, (h.slot_iff hk).mp ha.other⟩
  · rintro ⟨h1, h2⟩
    exact addressed_of_slots h hn hk ((h.slot_iff hn).mpr h1) ((h.slot_iff hk).mpr h2)

def twoTables : Mem where
  superblock := fun _ => 0
  blockGroups := fun i => if i = 8 then 5 else if i = 40 then 9 else 0
  blockSize := 1024
  pointersPerBlock := 256
  inodesPerGroup := 8
  blockGroupCount := 2
  bgdBlockSpan := 1
  bgdOffset := 2
  inodeSize := 128

theorem twoTables_tables : twoTables.Tables := by
  have hone : ∀ g i, Meta.Live twoTables (.inodeTable g i) → (g = 0 ∨ g = 1) ∧ i = 0 := by
    intro g i hl
    simp only [Meta.Live, twoTables] at hl
    omega
  have h0 : twoTables.inodeTable 0 = 5 := by decide
  have h1 : twoTables.inodeTable 1 = 9 := by decide
  refine ⟨by decide, by decide, by decide, ?_, ?_⟩
  · intro g i hl
    obtain ⟨rfl | rfl, rfl⟩ := hone g i hl <;> omega
  · intro g i h j hg hh he
    obtain ⟨rfl | rfl, rfl⟩ := hone g i hg <;> obtain ⟨rfl | rfl, rfl⟩ := hone h j hh <;> omega

theorem inode_slots_small : twoTables.Addressed 3 12 ∧ ¬ twoTables.Addressed 3 16 := by
  have h := inode_slots_iff twoTables twoTables_tables
  have hn : ∀ n, 1 ≤ n → n ≤ 16 → twoTables.Numbered n := fun n h1 h2 => ⟨h1, h2, by omega⟩
  refine ⟨(h 3 12 (hn _ (by omega) (by omega)) (hn _ (by omega) (by omega))).mpr (by decide), ?_⟩
  rw [h 3 16 (hn _ (by omega) (by omega)) (hn _ (by omega) (by omega))]
  decide

/-- The last inode of the first group has its record in block 5. It is looked for in block 4194312, which
the device offsets fold onto block 8, in front of the second table. -/
theorem last_inode_misplaced : (twoTables.recordBlock 8, twoTables.recordByte 8) = (5, 896) ∧
    inodeSlot twoTables 8 = (4194312, 896) ∧ blockOffset twoTables.blockSize 4194312 = 8 * 1024 ∧
    ¬ twoTables.Addressed 8 8 := by
  have hslot : inodeSlot twoTables 8 = (4194312, 896) := by decide
  refine ⟨by decide, hslot, by decide, fun h => ?_⟩
  have h1 := h.slot
  rw [hslot] at h1
  exact absurd h1 (by decide)

end ChiffOS.Ext2
