import ChiffOS.Ext2.WellFormed

/-! The inode table: where `write_inode` and `refresh_inode` find a record, and what rewriting one
record leaves alone. An inode number that is a multiple of `inodes_per_group` is not found where its
record is, so the results are about the others. -/

namespace ChiffOS.Ext2

open Buf

namespace Mem

section Records

/-! ### Whole records in a block -/

variable {m : Mem} (hdvd : m.inodeSize ∣ m.blockSize) (hb : 0 < m.blockSize)
include hdvd hb

theorem records_pos_of_dvd : 0 < m.blockSize / m.inodeSize :=
  Nat.div_pos (Nat.le_of_dvd hb hdvd) (Nat.pos_of_dvd_of_pos hdvd hb)

theorem recordByte_le_of_dvd (n : ℕ) : m.recordByte n + m.inodeSize ≤ m.blockSize := by
  have h1 : (n - 1) % m.inodesPerGroup % (m.blockSize / m.inodeSize) + 1 ≤ m.blockSize / m.inodeSize :=
    Nat.mod_lt _ (records_pos_of_dvd hdvd hb)
  have h2 := Nat.mul_le_mul_right m.inodeSize h1
  rw [Nat.div_mul_cancel hdvd, Nat.add_mul, Nat.one_mul] at h2
  exact h2

theorem record_live_of_dvd (hpos : 0 < m.inodesPerGroup) {n : ℕ}
    (hn : 1 ≤ n ∧ n ≤ m.blockGroupCount * m.inodesPerGroup) :
    Meta.Live m (.inodeTable ((n - 1) / m.inodesPerGroup)
      ((n - 1) % m.inodesPerGroup / (m.blockSize / m.inodeSize))) := by
  refine ⟨(Nat.div_lt_iff_lt_mul hpos).mpr (by omega), ?_⟩
  calc (n - 1) % m.inodesPerGroup / (m.blockSize / m.inodeSize) * m.blockSize
      = (n - 1) % m.inodesPerGroup / (m.blockSize / m.inodeSize) * (m.blockSize / m.inodeSize) *
        m.inodeSize := by
        rw [Nat.mul_assoc, Nat.div_mul_cancel hdvd]
    _ ≤ (n - 1) % m.inodesPerGroup * m.inodeSize := Nat.mul_le_mul_right _ (Nat.div_mul_le_self _ _)
    _ < m.inodesPerGroup * m.inodeSize :=
      Nat.mul_lt_mul_of_pos_right (Nat.mod_lt _ hpos) (Nat.pos_of_dvd_of_pos hdvd hb)

end Records

end Mem

namespace Mem.Geometry

variable {m : Mem} (h : m.Geometry)
include h

theorem sizeOk : m.SizeOk := by
  obtain ⟨k, hk, hs⟩ := h.size
  exact ⟨k, by omega, hs⟩

theorem size_le : m.blockSize ≤ 65536 := by
  obtain ⟨k, hk, hs⟩ := h.size
  rw [hs, Nat.shiftLeft_eq]
  calc 1024 * 2 ^ k ≤ 1024 * 2 ^ 6 := Nat.mul_le_mul_left _ (Nat.pow_le_pow_right (by norm_num) hk)
    _ = 65536 := by norm_num

theorem four_dvd : 4 * m.pointersPerBlock = m.blockSize := by
  obtain ⟨k, -, hs⟩ := h.size
  rw [h.pointers, hs, Nat.shiftLeft_eq]
  omega

theorem pointers_pos : 0 < m.pointersPerBlock := by
  have := h.four_dvd
  have := h.sizeOk.le
  omega

theorem map_lt : 12 + m.pointersPerBlock + m.pointersPerBlock * m.pointersPerBlock + m.pointersPerBlock < 2 ^
    32 := by
  have h1 := h.four_dvd
  have h2 := h.size_le
  have h3 : m.pointersPerBlock ≤ 16384 := by omega
  have h4 : m.pointersPerBlock * m.pointersPerBlock ≤ 16384 * 16384 := Nat.mul_le_mul h3 h3
  omega

theorem records_mul : m.blockSize / m.inodeSize * m.inodeSize = m.blockSize := Nat.div_mul_cancel h.inode_dvd

theorem block_pos : 0 < m.blockSize := Nat.lt_of_lt_of_le (by norm_num) h.sizeOk.le

theorem recordByte_le (n : ℕ) : m.recordByte n + m.inodeSize ≤ m.blockSize :=
    recordByte_le_of_dvd h.inode_dvd h.block_pos n

theorem record_live {n : ℕ} (hn : 1 ≤ n ∧ n ≤ m.blockGroupCount * m.inodesPerGroup) :
    Meta.Live m (.inodeTable ((n - 1) / m.inodesPerGroup)
      ((n - 1) % m.inodesPerGroup / (m.blockSize / m.inodeSize))) :=
  record_live_of_dvd h.inode_dvd h.block_pos h.inodes_pos hn

end Mem.Geometry

def Mem.recordRef (m : Mem) (n : ℕ) : Ref :=
  .table (.inodeTable ((n - 1) / m.inodesPerGroup) ((n - 1) % m.inodesPerGroup / (m.blockSize / m.inodeSize)))

theorem Mem.recordBytes_apart {d : Mem} {n m : ℕ} (hn : 1 ≤ n) (hm : 1 ≤ m) (hne : m ≠ n)
    (href : d.recordRef m = d.recordRef n) :
    d.recordByte m + d.inodeSize ≤ d.recordByte n ∨ d.recordByte n + d.inodeSize ≤ d.recordByte m := by
  simp only [Mem.recordRef, Ref.table.injEq, Meta.inodeTable.injEq] at href
  obtain ⟨hg, hi⟩ := href
  have h3 := Nat.div_add_mod (n - 1) d.inodesPerGroup
  have h4 := Nat.div_add_mod (m - 1) d.inodesPerGroup
  have h5 := Nat.div_add_mod ((n - 1) % d.inodesPerGroup) (d.blockSize / d.inodeSize)
  have h6 := Nat.div_add_mod ((m - 1) % d.inodesPerGroup) (d.blockSize / d.inodeSize)
  have hmod : (m - 1) % d.inodesPerGroup % (d.blockSize / d.inodeSize) ≠
      (n - 1) % d.inodesPerGroup % (d.blockSize / d.inodeSize) := by
    intro he
    rw [hg] at h4
    rw [hi, he] at h6
    omega
  unfold Mem.recordByte
  rcases Nat.lt_or_gt_of_ne hmod with h | h
  · left
    calc _ = ((m - 1) % d.inodesPerGroup % (d.blockSize / d.inodeSize) + 1) * d.inodeSize := by ring
      _ ≤ _ := Nat.mul_le_mul_right _ h
  · right
    calc _ = ((n - 1) % d.inodesPerGroup % (d.blockSize / d.inodeSize) + 1) * d.inodeSize := by ring
      _ ≤ _ := Nat.mul_le_mul_right _ h

namespace WellFormed

variable {S I : ℕ → Prop} {d : Disk} (hw : WellFormed S I d)
include hw

theorem recordRef_live {n : ℕ} (hn : I n) : (d.recordRef n).Live I d := hw.geometry.record_live
    (hw.inodes n hn)

theorem records_apart {n m : ℕ} (hn : I n) (hm : I m) (hne : m ≠ n) (hb : d.recordBlock m = d.recordBlock n) :
    d.recordByte m + d.inodeSize ≤ d.recordByte n ∨ d.recordByte n + d.inodeSize ≤ d.recordByte m :=
  Mem.recordBytes_apart (hw.inodes n hn).1 (hw.inodes m hm).1 hne
    (hw.inj _ _ (hw.recordRef_live hm) (hw.recordRef_live hn) hb)

end WellFormed

namespace Mem

/-- The numbers of the superblock that say how long things are, as in the format. -/
structure Sized (m : Mem) : Prop where
  block : m.blockSize ∣ 2 ^ 32
  inode : m.inodeSize ∣ m.blockSize
  record : 128 ≤ m.inodeSize
  pointers : 4 * m.pointersPerBlock ≤ m.blockSize

/-- The test of `write_inode` and `refresh_inode`. -/
def InTable (m : Mem) (index : ℕ) : Prop := index / m.inodesPerGroup ≤ m.blockGroupCount

instance (m : Mem) (index : ℕ) : Decidable (m.InTable index) := by unfold InTable; infer_instance

end Mem

/-- The byte that `inodeSlot` computes, in words of `a * (q * r)` values, for blocks of `q` records of `a`
bytes. -/
theorem slot_byte {a q r i : ℕ} (ha : 0 < a) (hq : 0 < q) (hi : i < a * (q * r)) :
    (i + a * (q * r) - i * a % (a * (q * r)) / (a * q) * (a * q / a) % (a * (q * r))) % (a * (q * r)) * a %
      (a * (q * r)) =
      a * (i % q) := by
  have hqr : 0 < q * r := Nat.pos_of_ne_zero fun h0 => by rw [h0] at hi; omega
  have hle : i % (q * r) / q * q ≤ i := (Nat.div_mul_le_self _ _).trans (Nat.mod_le _ _)
  rw [Nat.mul_comm i, Nat.mul_mod_mul_left, Nat.mul_div_mul_left _ _ ha, Nat.mul_div_cancel_left _ ha,
    Nat.mod_eq_of_lt (hle.trans_lt hi), show i + a * (q * r) - i % (q * r) / q * q =
      i - i % (q * r) / q * q + a * (q * r) by omega,
    Nat.add_mod_right, Nat.mod_eq_of_lt ((Nat.sub_le _ _).trans_lt hi), Nat.mul_comm _ a,
      Nat.mul_mod_mul_left]
  congr 1
  have h1 := Nat.div_add_mod i (q * r)
  have h2 := Nat.div_add_mod (i % (q * r)) q
  have h3 : i % (q * r) % q = i % q := Nat.mod_mod_of_dvd _ (Nat.dvd_mul_right _ _)
  rw [Nat.mul_comm q (i % (q * r) / q)] at h2
  rw [show i - i % (q * r) / q * q = i % q + q * r * (i / (q * r)) by omega, Nat.add_mul_mod_self_left]
  exact Nat.mod_eq_of_lt ((Nat.mod_lt _ hq).trans_le (Nat.le_of_dvd hqr (Nat.dvd_mul_right _ _)))

theorem Mem.Sized.slot_le {m : Mem} (h : m.Sized) (n : ℕ) :
    (inodeSlot m n).2 + m.inodeSize ≤ m.blockSize := by
  obtain ⟨q, hq⟩ := h.inode
  obtain ⟨r, hr⟩ := h.block
  have ha : 0 < m.inodeSize := by have := h.record; omega
  rw [hq, Nat.mul_assoc] at hr
  have hqpos : 0 < q := Nat.pos_of_ne_zero fun h0 => by simp [h0] at hr
  have hi : (n - n / m.inodesPerGroup * m.inodesPerGroup + 2 ^ 32 - 1) % 2 ^ 32 < m.inodeSize * (q * r) :=
    hr ▸ Nat.mod_lt _ (by norm_num)
  have hslot := slot_byte ha hqpos hi
  rw [← hr, ← hq] at hslot
  simp only [inodeSlot]
  rw [hslot, hq, ← Nat.mul_succ]
  exact Nat.mul_le_mul_left _ (Nat.mod_lt _ hqpos)

section Slot

variable {m : Mem} {n : ℕ}

theorem inodeSlot_eq (h : m.Geometry) (hn : 1 ≤ n ∧ n ≤ m.blockGroupCount * m.inodesPerGroup)
    (hnd : ¬ m.inodesPerGroup ∣ n) (htab : m.inodesPerGroup * m.inodeSize ≤ 2 ^ 32)
    (hblk : m.recordBlock n < 2 ^ 32) :
    inodeSlot m n = (m.recordBlock n, m.recordByte n) := by
  have hpos := h.inodes_pos
  have hmod : 0 < n % m.inodesPerGroup := Nat.pos_of_ne_zero fun h0 => hnd (Nat.dvd_of_mod_eq_zero h0)
  have hlt : n % m.inodesPerGroup < m.inodesPerGroup := Nat.mod_lt _ hpos
  have hdiv := Nat.div_add_mod n m.inodesPerGroup
  have hgroup : (n - 1) / m.inodesPerGroup = n / m.inodesPerGroup := by
    rw [Nat.div_eq_iff hpos]
    rw [Nat.mul_comm] at hdiv
    omega
  have hidx : (n - 1) % m.inodesPerGroup = n % m.inodesPerGroup - 1 := by
    have h1 := Nat.div_add_mod (n - 1) m.inodesPerGroup
    rw [hgroup] at h1
    omega
  have hi : (n - n / m.inodesPerGroup * m.inodesPerGroup + 2 ^ 32 - 1) % 2 ^ 32 =
    (n - 1) % m.inodesPerGroup := by
    have h1 : n < 2 ^ 32 := lt_of_le_of_lt hn.2 h.inodes_lt
    rw [hidx, Nat.mul_comm, show n - m.inodesPerGroup * (n / m.inodesPerGroup) =
      n % m.inodesPerGroup by omega]
    omega
  set i := (n - 1) % m.inodesPerGroup with hidef
  have hisz : i * m.inodeSize < 2 ^ 32 := by
    have h1 : i < m.inodesPerGroup := by omega
    have h2 : i * m.inodeSize < m.inodesPerGroup * m.inodeSize :=
      Nat.mul_lt_mul_of_pos_right h1 (by have := h.inode_ge; omega)
    omega
  -- the byte offset in the table, divided by the block size, is the number of full blocks of records
  have hblock : i * m.inodeSize / m.blockSize = i / (m.blockSize / m.inodeSize) := by
    have h1 := h.records_mul
    conv_lhs => rw [← h1]
    exact Nat.mul_div_mul_right _ _ (by have := h.inode_ge; omega)
  have hrem : (i + 2 ^ 32 - i / (m.blockSize / m.inodeSize) * (m.blockSize / m.inodeSize) % 2 ^ 32) % 2 ^ 32 =
      i % (m.blockSize / m.inodeSize) := by
    have h1 := Nat.div_add_mod i (m.blockSize / m.inodeSize)
    have h2 : i < 2 ^ 32 := lt_of_le_of_lt (Nat.le_mul_of_pos_right _ (by have := h.inode_ge; omega)) hisz
    rw [Nat.mul_comm] at h1
    have h3 : i / (m.blockSize / m.inodeSize) * (m.blockSize / m.inodeSize) % 2 ^ 32 =
      i / (m.blockSize / m.inodeSize) * (m.blockSize / m.inodeSize) := Nat.mod_eq_of_lt (by omega)
    rw [h3]
    omega
  have hbyte : m.recordByte n < 2 ^ 32 := by
    have h1 := h.recordByte_le n
    have h2 := h.size_le
    omega
  unfold inodeSlot
  simp only [hi, Nat.mod_eq_of_lt hisz, hblock, hrem]
  rw [Mem.recordBlock, hgroup] at hblk
  rw [Mem.recordByte] at hbyte
  rw [Mem.recordBlock, Mem.recordByte, hgroup, Nat.mod_eq_of_lt hblk, Nat.mod_eq_of_lt hbyte]

end Slot

/-- The source finds the record of the inode, in a block it can use. -/
structure Mem.Found (m : Mem) (n : ℕ) : Prop where
  geometry : m.Geometry
  range : 1 ≤ n ∧ n ≤ m.blockGroupCount * m.inodesPerGroup
  indivisible : ¬ m.inodesPerGroup ∣ n
  table : m.inodesPerGroup * m.inodeSize ≤ 2 ^ 32
  usable : m.Usable (m.recordBlock n)

theorem Mem.Geometry.found {m : Mem} {n : ℕ} (h : m.Geometry)
    (hn : 1 ≤ n ∧ n ≤ m.blockGroupCount * m.inodesPerGroup)
    (hnd : ¬ m.inodesPerGroup ∣ n) (hu : ∀ r : Meta, r.Live m → m.Usable (r.block m)) : m.Found n := by
  refine ⟨h, hn, hnd, ?_, hu _ (h.record_live hn)⟩
  have hpos : 0 < m.inodesPerGroup * m.inodeSize := Nat.mul_pos h.inodes_pos (by have := h.inode_ge; omega)
  have hbs := h.sizeOk.le
  set i := (m.inodesPerGroup * m.inodeSize - 1) / m.blockSize with hi
  have h1 := Nat.div_mul_le_self (m.inodesPerGroup * m.inodeSize - 1) m.blockSize
  have h2 : m.inodesPerGroup * m.inodeSize - 1 < (i + 1) * m.blockSize := by
    have := Nat.lt_div_mul_add (a := m.inodesPerGroup * m.inodeSize - 1) (b := m.blockSize) (by omega)
    rw [Nat.add_mul, Nat.one_mul, hi]
    exact this
  have hlive : Meta.Live m (.inodeTable ((n - 1) / m.inodesPerGroup) i) :=
    ⟨(h.record_live hn).1, by rw [← hi] at h1; omega⟩
  have hlast := (hu _ hlive).2.2
  have h3 : (i + 1) * m.blockSize ≤ (m.inodeTable ((n - 1) / m.inodesPerGroup) + i + 1) * m.blockSize :=
    Nat.mul_le_mul_right _ (by omega)
  change (m.inodeTable ((n - 1) / m.inodesPerGroup) + i + 1) * m.blockSize ≤ 2 ^ 32 at hlast
  omega

def Disk.putRecord (d : Disk) (n : ℕ) (ino : Buf) : Disk :=
  d.setBlock (d.recordBlock n) ((d.blocks (d.recordBlock n)).blit (d.recordByte n) ino d.inodeSize)

theorem Disk.putRecord_mem (d : Disk) (n : ℕ) (ino : Buf) : (d.putRecord n ino).toMem = d.toMem := rfl

/-- Reading a block, changing a part of the copy and writing it back changes that part. -/
theorem put_modified {d : Disk} {b off len : ℕ} {buf src : Buf} (h : off + len ≤ d.blockSize) :
    d.put b ((buf.blit 0 (d.blocks b) d.blockSize).blit off src len) =
      d.setBlock b ((d.blocks b).blit off src len) := by
  have hbuf : (d.blocks b).blit 0 ((buf.blit 0 (d.blocks b) d.blockSize).blit off src len) d.blockSize =
      (d.blocks b).blit off src len := by
    funext i
    by_cases h1 : off ≤ i ∧ i < off + len
    · rw [blit_in (Nat.zero_le _) (by omega), Nat.sub_zero, blit_in h1.1 h1.2, blit_in h1.1 h1.2]
    · have hout : (d.blocks b).blit off src len i = d.blocks b i := blit_out (by omega)
      rw [hout]
      by_cases h2 : i < d.blockSize
      · rw [blit_in (Nat.zero_le _) (by omega), Nat.sub_zero, blit_out (by omega),
          blit_in (Nat.zero_le _) (by omega),
          Nat.sub_zero]
      · exact blit_out (by omega)
  unfold Disk.put
  rw [hbuf]

theorem put_entry {d : Disk} {b o v : ℕ} {tmp : Buf} (h : SameOn tmp (d.blocks b) 0 d.blockSize)
    (ho : o + 4 ≤ d.blockSize) :
    d.put b (tmp.setU32 o v) = d.setBlock b ((d.blocks b).setU32 o v) := by
  have he : tmp.blit 0 (d.blocks b) d.blockSize = tmp := by
    funext i
    by_cases hi : i < d.blockSize
    · rw [blit_in (Nat.zero_le _) (by omega), Nat.sub_zero, h i (Nat.zero_le _) (by omega)]
    · exact blit_out (by omega)
  have := @put_modified d b o 4 tmp (bytesOf v) ho
  rwa [he] at this

theorem writeInode_slot {d : Disk} {n : ℕ} (hin : ¬ n / d.inodesPerGroup > d.blockGroupCount)
    (hslot : inodeSlot d.toMem n = (d.recordBlock n, d.recordByte n)) (hu : d.Usable (d.recordBlock n))
    (hle : d.recordByte n + d.inodeSize ≤ d.blockSize) (ino : Buf) :
    Does (writeInode ino n) d 2 fun r d' => r = .success ∧ d' = d.putRecord n ino := by
  refine does_this ?_
  rw [if_neg hin]
  refine does_malloc fun buf => ?_
  rw [hslot]
  refine does_readBlock hu (does_writeBlock hu (.pure ⟨rfl, ?_⟩))
  dsimp only
  rw [put_modified hle]
  rfl

namespace Mem.Found

variable {d : Disk} {n : ℕ} (h : d.Found n)
include h

theorem group_le : ¬ n / d.inodesPerGroup > d.blockGroupCount := by
  have h1 := Nat.div_le_div_right (c := d.inodesPerGroup) h.range.2
  rw [Nat.mul_div_cancel _ h.geometry.inodes_pos] at h1
  omega

theorem slot_eq : inodeSlot d.toMem n = (d.recordBlock n, d.recordByte n) :=
  inodeSlot_eq h.geometry h.range h.indivisible h.table (h.usable.lt (by have := h.geometry.sizeOk.le; omega))

theorem writeInode_spec (ino : Buf) : Does (writeInode ino n) d 2 fun _ d' => d' = d.putRecord n ino :=
  (writeInode_slot h.group_le h.slot_eq h.usable (h.geometry.recordByte_le n) ino).mono le_rfl fun _ _ hq =>
    hq.2

theorem refreshInode_spec (ino : Buf) :
    Does (refreshInode ino n) d 1 fun r d' => d' = d ∧ SameOn r (d.record n) 0 d.inodeSize := by
  refine does_this ?_
  rw [if_neg h.group_le]
  refine does_malloc fun buf => ?_
  rw [h.slot_eq]
  refine does_readBlock h.usable (.pure ⟨rfl, fun i h1 h2 => ?_⟩)
  have := h.geometry.recordByte_le n
  dsimp only
  rw [blit_in h1 h2, drop_apply, Nat.sub_zero, blit_in (Nat.zero_le _) (by omega), Nat.sub_zero]
  rfl

theorem readInode_spec : Does (readInode n) d 1 fun r d' => d' = d ∧ SameOn r (d.record n) 0 d.inodeSize :=
  does_malloc fun buf => h.refreshInode_spec buf

end Mem.Found

namespace WellFormed

variable {S I : ℕ → Prop} {d : Disk} (hw : WellFormed S I d) (hS : ∀ b, S b → d.Usable b)
include hw hS

theorem found {n : ℕ} (hn : I n) (hnd : ¬ d.inodesPerGroup ∣ n) : d.Found n :=
  hw.geometry.found (hw.inodes n hn) hnd fun r hr => hS _ (hw.mem (.table r) hr)

theorem writeInode_spec {n : ℕ} (hn : I n) (hnd : ¬ d.inodesPerGroup ∣ n) (ino : Buf) :
    Does (writeInode ino n) d 2 fun _ d' => d' = d.putRecord n ino := (hw.found hS hn hnd).writeInode_spec ino

theorem refreshInode_spec {n : ℕ} (hn : I n) (hnd : ¬ d.inodesPerGroup ∣ n) (ino : Buf) :
    Does (refreshInode ino n) d 1 fun r d' => d' = d ∧ SameOn r (d.record n) 0 d.inodeSize :=
  (hw.found hS hn hnd).refreshInode_spec ino

theorem readInode_spec {n : ℕ} (hn : I n) (hnd : ¬ d.inodesPerGroup ∣ n) :
    Does (readInode n) d 1 fun r d' => d' = d ∧ SameOn r (d.record n) 0 d.inodeSize :=
  (hw.found hS hn hnd).readInode_spec

end WellFormed

end ChiffOS.Ext2
