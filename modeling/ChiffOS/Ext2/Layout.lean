import ChiffOS.Ext2.Inode
import ChiffOS.Ext2.Volume

/-! Where the metadata of a volume lies, and when the free counts agree with the bitmaps. Blocks and
inodes are two pools of the same kind: per group a bitmap and a count, and a total in the
superblock. -/

namespace ChiffOS.Ext2

open Buf

inductive Pool where
  | blocks | inodes
deriving DecidableEq

namespace Pool

def countField : Pool → ℕ
  | blocks => 12
  | inodes => 14

def totalField : Pool → ℕ
  | blocks => 12
  | inodes => 16

def count (P : Pool) (m : Mem) (g : ℕ) : ℕ := m.blockGroups.u16 (32 * g + P.countField)

def total (P : Pool) (m : Mem) : ℕ := m.superblock.u32 P.totalField

def bitmap : Pool → Mem → ℕ → ℕ
  | blocks => Mem.blockBitmap
  | inodes => Mem.inodeBitmap

/-- How many bits of a group's bitmap stand for something. -/
def size : Pool → Mem → ℕ
  | blocks => Mem.blocksPerGroup
  | inodes => Mem.inodesPerGroup

def free (P : Pool) (m : Mem) : ℕ := ∑ g ∈ Finset.range m.blockGroupCount, P.count m g

def Clear (P : Pool) (d : Disk) (g j : ℕ) : Prop :=
  g < d.blockGroupCount ∧ j < P.size d.toMem ∧ (d.blocks (P.bitmap d.toMem g)).bit j = false

structure Counted (P : Pool) (d : Disk) : Prop where
  size_le : P.size d.toMem ≤ 8 * d.blockSize
  count : ∀ g < d.blockGroupCount, P.count d.toMem g =
    (d.blocks (P.bitmap d.toMem g)).clearBits (P.size d.toMem)

/-- The fields in memory after one bit of group `g` was taken. -/
def take (P : Pool) (m : Mem) (g : ℕ) : Mem :=
  { m with
    blockGroups := m.blockGroups.setU16 (32 * g + P.countField) (P.count m g + 2 ^ 16 - 1)
    superblock := m.superblock.setU32 P.totalField (P.total m + 2 ^ 32 - 1) }

section Take

variable (P Q : Pool) (m : Mem) (g h : ℕ)

@[simp] theorem take_blockBitmap : (P.take m g).blockBitmap h = m.blockBitmap h := by
  cases P <;> exact u32_setU16_ne (by simp only [countField]; omega)

@[simp] theorem take_inodeBitmap : (P.take m g).inodeBitmap h = m.inodeBitmap h := by
  cases P <;> exact u32_setU16_ne (by simp only [countField]; omega)

@[simp] theorem take_inodeTable : (P.take m g).inodeTable h = m.inodeTable h := by
  cases P <;> exact u32_setU16_ne (by simp only [countField]; omega)

@[simp] theorem take_blocksPerGroup : (P.take m g).blocksPerGroup = m.blocksPerGroup := by
  cases P <;> exact u32_setU32_ne (by simp only [totalField]; omega)

@[simp] theorem take_bitmap : Q.bitmap (P.take m g) h = Q.bitmap m h := by
  cases Q <;> simp [bitmap]

@[simp] theorem take_size : Q.size (P.take m g) = Q.size m := by
  cases Q
  · simp [size]
  · rfl

variable {P Q m g h}

theorem take_count_self (hc : 0 < P.count m g) : P.count (P.take m g) g + 1 = P.count m g := by
  have hlt : P.count m g < 2 ^ 16 := u16_lt _ _
  simp only [take, count, u16_setU16] at hc hlt ⊢
  omega

theorem take_count_ne (hne : Q ≠ P ∨ h ≠ g) : Q.count (P.take m g) h = Q.count m h := by
  refine u16_setU16_ne ?_
  cases P <;> cases Q <;> simp only [countField] <;> simp at hne <;> omega

theorem take_total_self (ht : 0 < P.total m) : P.total (P.take m g) + 1 = P.total m := by
  have hlt : P.total m < 2 ^ 32 := u32_lt _ _
  simp only [take, total, u32_setU32] at ht hlt ⊢
  omega

theorem take_total_ne (hne : Q ≠ P) : Q.total (P.take m g) = Q.total m := by
  refine u32_setU32_ne ?_
  cases P <;> cases Q <;> simp [totalField] at hne ⊢

theorem take_free_self (hg : g < m.blockGroupCount) (hc : 0 < P.count m g) :
    P.free (P.take m g) + 1 = P.free m := by
  unfold free
  change ∑ h ∈ Finset.range m.blockGroupCount, _ + 1 = _
  rw [← Finset.add_sum_erase _ _ (Finset.mem_range.mpr hg), ← Finset.add_sum_erase _ _
    (Finset.mem_range.mpr hg),
    ← take_count_self hc, Finset.sum_congr rfl fun x hx => take_count_ne (.inr (Finset.ne_of_mem_erase hx))]
  omega

theorem take_free_ne (hne : Q ≠ P) : Q.free (P.take m g) = Q.free m :=
  Finset.sum_congr rfl fun _ _ => take_count_ne (.inl hne)

end Take

end Pool

/-! ### Metadata -/

/-- The blocks that hold metadata of the volume, the superblock apart. -/
inductive Meta where
  | descriptor (i : ℕ)
  | blockBitmap (g : ℕ)
  | inodeBitmap (g : ℕ)
  | inodeTable (g i : ℕ)
deriving DecidableEq

namespace Meta

def block (m : Mem) : Meta → ℕ
  | descriptor i => m.bgdOffset + i
  | blockBitmap g => m.blockBitmap g
  | inodeBitmap g => m.inodeBitmap g
  | inodeTable g i => m.inodeTable g + i

def Live (m : Mem) : Meta → Prop
  | descriptor i => i * m.blockSize < 32 * m.blockGroupCount
  | blockBitmap g => g < m.blockGroupCount
  | inodeBitmap g => g < m.blockGroupCount
  | inodeTable g i => g < m.blockGroupCount ∧ i * m.blockSize < m.inodesPerGroup * m.inodeSize

def ofPool : Pool → ℕ → Meta
  | .blocks => blockBitmap
  | .inodes => inodeBitmap

variable (P : Pool)

@[simp] theorem block_ofPool (m : Mem) (g : ℕ) : (ofPool P g).block m = P.bitmap m g := by
  cases P <;> rfl

@[simp] theorem live_ofPool (m : Mem) (g : ℕ) : (ofPool P g).Live m ↔ g < m.blockGroupCount := by
  cases P <;> rfl

@[simp] theorem ofPool_ne_descriptor (g i : ℕ) : ofPool P g ≠ descriptor i := by
  cases P <;> simp [ofPool]

theorem ofPool_inj {P Q : Pool} {g h : ℕ} : ofPool P g = ofPool Q h ↔ P = Q ∧ g = h := by
  cases P <;> cases Q <;> simp [ofPool]

@[simp] theorem block_take (m : Mem) (g : ℕ) (r : Meta) : r.block (P.take m g) = r.block m := by
  cases r <;> simp [block]
  rfl

@[simp] theorem live_take (m : Mem) (g : ℕ) (r : Meta) : r.Live (P.take m g) ↔ r.Live m := by
  cases r <;> rfl

end Meta

def Mem.metas (m : Mem) : List Meta :=
  let blocks n := List.range ((n + m.blockSize - 1) / m.blockSize)
  (blocks (32 * m.blockGroupCount)).map .descriptor ++ (List.range m.blockGroupCount).flatMap fun g =>
    .blockBitmap g :: .inodeBitmap g :: (blocks (m.inodesPerGroup * m.inodeSize)).map (.inodeTable g)

theorem Meta.Live.mem_metas {m : Mem} (hb : 0 < m.blockSize) {r : Meta} (h : r.Live m) : r ∈ m.metas := by
  have hlt : ∀ {i n : ℕ}, i * m.blockSize < n → i < (n + m.blockSize - 1) / m.blockSize := by
    intro i n hi
    rw [Nat.lt_iff_add_one_le, Nat.le_div_iff_mul_le hb, Nat.add_mul]
    omega
  cases r with
  | descriptor i => simpa [Mem.metas] using hlt h
  | blockBitmap g => simpa [Mem.metas, Live] using h
  | inodeBitmap g => simpa [Mem.metas, Live] using h
  | inodeTable g i => simpa [Mem.metas] using ⟨h.1, hlt h.2⟩

theorem Mem.metas_inj {m : Mem} (hb : 0 < m.blockSize) (h : (m.metas.map (Meta.block m)).Nodup) (r s : Meta)
    (hr : r.Live m) (hs : s.Live m) (he : r.block m = s.block m) : r = s :=
  List.inj_on_of_nodup_map h (hr.mem_metas hb) (hs.mem_metas hb) he

theorem Mem.descriptor_lt {m : Mem} (hspan : m.bgdBlockSpan = 32 * m.blockGroupCount / m.blockSize + 1)
    (hpart : 32 * m.blockGroupCount % m.blockSize ≠ 0) {i : ℕ} (hi : i < m.bgdBlockSpan) :
    i * m.blockSize < 32 * m.blockGroupCount := by
  have h1 : i ≤ 32 * m.blockGroupCount / m.blockSize := by omega
  have h2 := Nat.mul_le_mul_right m.blockSize h1
  have h3 := Nat.div_add_mod' (32 * m.blockGroupCount) m.blockSize
  omega

/-- Different pieces of metadata are in different blocks of the volume `S`, and no more descriptor
blocks are written back than the table has. -/
structure Placed (S : ℕ → Prop) (m : Mem) : Prop where
  span : ∀ i < m.bgdBlockSpan, i * m.blockSize < 32 * m.blockGroupCount
  mem : ∀ r : Meta, r.Live m → S (r.block m)
  inj : ∀ r s : Meta, r.Live m → s.Live m → r.block m = s.block m → r = s

theorem Placed.take {S : ℕ → Prop} {m : Mem} (h : Placed S m) (P : Pool) (g : ℕ) : Placed S (P.take m g) :=
  ⟨h.span, fun r hr => by simpa using h.mem r (by simpa using hr),
    fun r s hr hs he => h.inj r s (by simpa using hr) (by simpa using hs) (by simpa using he)⟩

def Mem.blockAt (m : Mem) (g j : ℕ) : ℕ := j + m.blocksPerGroup * g

def Mem.inodeAt (m : Mem) (g j : ℕ) : ℕ := j + g * m.inodesPerGroup + 1

def Pool.numberAt : Pool → Mem → ℕ → ℕ → ℕ
  | blocks => Mem.blockAt
  | inodes => Mem.inodeAt

theorem Pool.numberAt_take {P Q : Pool} {m : Mem} {g : ℕ} : Q.numberAt (P.take m g) = Q.numberAt m := by
  cases Q
  · funext a b
    simp [numberAt, Mem.blockAt]
  · rfl

theorem Pool.numberAt_inj {P : Pool} {m : Mem} {g h i j : ℕ} (hi : i < P.size m) (hj : j < P.size m)
    (he : P.numberAt m h i = P.numberAt m g j) : h = g ∧ i = j := by
  have key : ∀ n a b x y : ℕ, x < n → y < n → x + n * a = y + n * b → a = b ∧ x = y := by
    intro n a b x y hx hy hxy
    have h1 : (x + n * a) / n =
      a := by rw [Nat.add_mul_div_left _ _ (by omega), Nat.div_eq_of_lt hx, Nat.zero_add]
    have h2 : (y + n * b) / n =
      b := by rw [Nat.add_mul_div_left _ _ (by omega), Nat.div_eq_of_lt hy, Nat.zero_add]
    have hab : a = b := by rw [← h1, ← h2, hxy]
    subst hab
    exact ⟨rfl, by omega⟩
  cases P with
  | blocks => exact key _ _ _ _ _ hi hj he
  | inodes =>
    have he' : i + m.inodesPerGroup * h = j + m.inodesPerGroup * g := by
      simp only [numberAt, Mem.inodeAt] at he
      rw [Nat.mul_comm _ h, Nat.mul_comm _ g]
      omega
    exact key _ _ _ _ _ hi hj he'

def Disk.FreeBlock (d : Disk) (b : ℕ) : Prop := ∃ g j, Pool.blocks.Clear d g j ∧ b = d.blockAt g j

theorem Disk.FreeBlock.of_clear {d : Disk} {P : ℕ → Prop}
    (h : ∀ g < d.blockGroupCount, ∀ j < d.blocksPerGroup,
    (d.blocks (d.blockBitmap g)).bit j = false → P (d.blockAt g j)) {b : ℕ} (hb : d.FreeBlock b) : P b := by
  obtain ⟨g, j, ⟨hg, hj, hbit⟩, rfl⟩ := hb
  exact h g hg j hj hbit

/-- The blocks on offer belong to the volume and hold no metadata. -/
structure FreeOk (S : ℕ → Prop) (d : Disk) : Prop where
  mem : ∀ b, d.FreeBlock b → S b
  unused : ∀ b, d.FreeBlock b → ∀ r : Meta, r.Live d.toMem → r.block d.toMem ≠ b

end ChiffOS.Ext2
