import ChiffOS.Ext2.BlockMap

/-! Well-formed volumes: every block in use has one use. What a file consists of is read off its
inode record and its pointer blocks, so a change to a block shows in no file that does not use it. -/

namespace ChiffOS.Ext2

open Buf

namespace Mem

def recordBlock (m : Mem) (n : ℕ) : ℕ :=
  m.inodeTable ((n - 1) / m.inodesPerGroup) + (n - 1) % m.inodesPerGroup / (m.blockSize / m.inodeSize)

def recordByte (m : Mem) (n : ℕ) : ℕ :=
  (n - 1) % m.inodesPerGroup % (m.blockSize / m.inodeSize) * m.inodeSize

/-- The fixed numbers of a volume, as `mount_ext2` derives them from a superblock of the format. -/
structure Geometry (m : Mem) : Prop where
  size : ∃ k ≤ 6, m.blockSize = 1024 <<< k
  pointers : m.pointersPerBlock = m.blockSize / 4
  inode_ge : 128 ≤ m.inodeSize
  inode_dvd : m.inodeSize ∣ m.blockSize
  inodes_pos : 0 < m.inodesPerGroup
  inodes_lt : m.blockGroupCount * m.inodesPerGroup < 2 ^ 32
  span : m.bgdBlockSpan = 32 * m.blockGroupCount / m.blockSize + 1
  part : 32 * m.blockGroupCount % m.blockSize ≠ 0

/-- The two agree in what does not change while the volume is mounted. -/
structure SameShape (m m' : Mem) : Prop where
  blockSize : m'.blockSize = m.blockSize
  pointers : m'.pointersPerBlock = m.pointersPerBlock
  inodesPerGroup : m'.inodesPerGroup = m.inodesPerGroup
  groups : m'.blockGroupCount = m.blockGroupCount
  span : m'.bgdBlockSpan = m.bgdBlockSpan
  offset : m'.bgdOffset = m.bgdOffset
  inodeSize : m'.inodeSize = m.inodeSize
  blocksPerGroup : m'.blocksPerGroup = m.blocksPerGroup
  blockBitmap : m'.blockBitmap = m.blockBitmap
  inodeBitmap : m'.inodeBitmap = m.inodeBitmap
  inodeTable : m'.inodeTable = m.inodeTable

theorem SameShape.refl (m : Mem) : SameShape m m := ⟨rfl, rfl, rfl, rfl, rfl, rfl, rfl, rfl, rfl, rfl, rfl⟩

theorem SameShape.trans {a b c : Mem} (h : SameShape a b) (h' : SameShape b c) : SameShape a c where
  blockSize := h'.blockSize.trans h.blockSize
  pointers := h'.pointers.trans h.pointers
  inodesPerGroup := h'.inodesPerGroup.trans h.inodesPerGroup
  groups := h'.groups.trans h.groups
  span := h'.span.trans h.span
  offset := h'.offset.trans h.offset
  inodeSize := h'.inodeSize.trans h.inodeSize
  blocksPerGroup := h'.blocksPerGroup.trans h.blocksPerGroup
  blockBitmap := h'.blockBitmap.trans h.blockBitmap
  inodeBitmap := h'.inodeBitmap.trans h.inodeBitmap
  inodeTable := h'.inodeTable.trans h.inodeTable

theorem sameShape_take (P : Pool) (m : Mem) (g : ℕ) : SameShape m (P.take m g) :=
  ⟨rfl, rfl, rfl, rfl, rfl, rfl, rfl, P.take_blocksPerGroup m g, funext fun h => P.take_blockBitmap m g h,
    funext fun h => P.take_inodeBitmap m g h, funext fun h => P.take_inodeTable m g h⟩

variable {m m' : Mem}

theorem SameShape.geometry (h : SameShape m m') (hg : m.Geometry) : m'.Geometry := by
  obtain ⟨h1, h2, h3, h4, h5, h6, h7, h8⟩ := hg
  constructor
  · rwa [h.blockSize]
  · rwa [h.pointers, h.blockSize]
  · rwa [h.inodeSize]
  · rwa [h.inodeSize, h.blockSize]
  · rwa [h.inodesPerGroup]
  · rwa [h.groups, h.inodesPerGroup]
  · rwa [h.span, h.groups, h.blockSize]
  · rwa [h.groups, h.blockSize]

theorem SameShape.recordBlock (h : SameShape m m') (n : ℕ) : m'.recordBlock n = m.recordBlock n := by
  simp only [Mem.recordBlock, h.inodeTable, h.inodesPerGroup, h.blockSize, h.inodeSize]

theorem SameShape.recordByte (h : SameShape m m') (n : ℕ) : m'.recordByte n = m.recordByte n := by
  simp only [Mem.recordByte, h.inodesPerGroup, h.blockSize, h.inodeSize]

theorem SameShape.meta_block (h : SameShape m m') (r : Meta) : r.block m' = r.block m := by
  cases r <;> simp only [Meta.block, h.offset, h.blockBitmap, h.inodeBitmap, h.inodeTable]

theorem SameShape.meta_live (h : SameShape m m') (r : Meta) : r.Live m' ↔ r.Live m := by
  cases r <;> simp only [Meta.Live, h.blockSize, h.groups, h.inodesPerGroup, h.inodeSize]

theorem SameShape.usable (h : SameShape m m') (b : ℕ) : m'.Usable b ↔ m.Usable b := by
  simp only [Mem.Usable, h.blockSize]

end Mem

def Regular (ino : Buf) : Prop := inodeMode ino &&& 0xF000 = 0x8000

instance : DecidablePred Regular := fun ino => by unfold Regular; infer_instance

namespace Disk

def record (d : Disk) (n : ℕ) : Buf := (d.blocks (d.recordBlock n)).drop (d.recordByte n)

def fileLength (d : Disk) (n : ℕ) : ℕ := inodeLength (d.record n)

def fileBlocks (d : Disk) (n : ℕ) : ℕ := d.blocksOf (d.record n)

def nodeBlock (d : Disk) (n : ℕ) (k : Node) : ℕ := k.block (d.record n) d.blocks

def leafBlock (d : Disk) (n l : ℕ) : ℕ := leaf (d.record n) d.blocks d.pointersPerBlock l

def fileByte (d : Disk) (n pos : ℕ) : UInt8 :=
  if pos / d.blockSize < d.fileBlocks n then d.blocks (d.leafBlock n (pos / d.blockSize)) (pos % d.blockSize)
    else 0

/-- The pointer block is in use: some block of the file needs it, or it is set in a regular file. In
other inodes the pointers may be something else, like the text of a short symbolic link. -/
def NodeLive (d : Disk) (n : ℕ) (k : Node) : Prop :=
  (∃ l < d.fileBlocks n, k ∈ spine d.pointersPerBlock l) ∨
    Regular (d.record n) ∧ k.Set (d.record n) d.blocks d.pointersPerBlock

end Disk

/-- What a block may be used for. -/
inductive Ref where
  | table (r : Meta)
  | data (n l : ℕ)
  | node (n : ℕ) (k : Node)
deriving DecidableEq

namespace Ref

def block (d : Disk) : Ref → ℕ
  | table r => r.block d.toMem
  | data n l => d.leafBlock n l
  | node n k => d.nodeBlock n k

/-- The uses that the metadata and the inodes in `I` make of the blocks. -/
def Live (I : ℕ → Prop) (d : Disk) : Ref → Prop
  | table r => r.Live d.toMem
  | data n l => I n ∧ l < d.fileBlocks n
  | node n k => I n ∧ d.NodeLive n k

end Ref

/-- A well-formed volume on the blocks `S` with the inodes `I`: blocks in use have one use and are not
on offer, and the groups count their free blocks. -/
structure WellFormed (S I : ℕ → Prop) (d : Disk) : Prop where
  geometry : d.Geometry
  inodes : ∀ n, I n → 1 ≤ n ∧ n ≤ d.blockGroupCount * d.inodesPerGroup
  mem : ∀ r : Ref, r.Live I d → S (r.block d)
  inj : ∀ r s : Ref, r.Live I d → s.Live I d → r.block d = s.block d → r = s
  free_mem : ∀ b, d.FreeBlock b → S b
  free_unused : ∀ b, d.FreeBlock b → ∀ r : Ref, r.Live I d → r.block d ≠ b
  counted : Pool.blocks.Counted d

structure SameFile (d d' : Disk) (n : ℕ) : Prop where
  record : SameOn (d'.record n) (d.record n) 0 d.inodeSize
  bytes : ∀ pos, d'.fileByte n pos = d.fileByte n pos

/-- The block is taken but nothing uses it yet. -/
structure Reserved (S I : ℕ → Prop) (d : Disk) (b : ℕ) : Prop where
  mem : S b
  taken : ¬ d.FreeBlock b
  unused : ∀ r : Ref, r.Live I d → r.block d ≠ b

/-! ### What a change leaves alone -/

section Frame

variable {d d' : Disk} {n : ℕ}

/-- The pointer blocks stay in use and stay where they are when the inode's pointers, size in blocks
and mode stay and the pointer blocks in use keep their contents. -/
theorem nodeLive_of_pointers (hp : d'.pointersPerBlock = d.pointersPerBlock)
    (hi : ∀ i < 15, inodeBlock (d'.record n) i = inodeBlock (d.record n) i)
    (hb : d'.fileBlocks n = d.fileBlocks n) (hr : Regular (d'.record n) ↔ Regular (d.record n))
    (hnode : ∀ k, d.NodeLive n k → d'.blocks (d.nodeBlock n k) = d.blocks (d.nodeBlock n k))
    {k : Node} (h : d'.NodeLive n k) : d.NodeLive n k ∧ d'.nodeBlock n k = d.nodeBlock n k := by
  rcases h with ⟨l, hl, hk⟩ | ⟨hreg, hk⟩
  · rw [hb] at hl
    rw [hp] at hk
    exact ⟨.inl ⟨l, hl, hk⟩, Node.block_congr (fun i h _ => hi i h) fun a ha =>
      hnode a (.inl ⟨l, hl, spine_above hk ha⟩)⟩
  · rw [hr] at hreg
    rw [hp] at hk
    have hk' := Node.set_congr (fun i h _ => hi i h) (fun a _ ha => hnode a (.inr ⟨hreg, ha⟩)) hk
    exact ⟨.inr ⟨hreg, hk'⟩, Node.block_congr (fun i h _ => hi i h) fun a ha =>
      hnode a (.inr ⟨hreg, hk'.above ha⟩)⟩

theorem leafBlock_of_pointers (hp : d'.pointersPerBlock = d.pointersPerBlock)
    (hi : ∀ i < 15, inodeBlock (d'.record n) i = inodeBlock (d.record n) i)
    (hnode : ∀ k, d.NodeLive n k → d'.blocks (d.nodeBlock n k) = d.blocks (d.nodeBlock n k))
    {l : ℕ} (hl : l < d.fileBlocks n) : d'.leafBlock n l = d.leafBlock n l := by
  unfold Disk.leafBlock
  rw [hp]
  exact leaf_congr hi fun a ha => hnode a (.inl ⟨l, hl, ha⟩)

variable {ino ino' : Buf}

theorem inodeBlock_congr {z : ℕ} (h : SameOn ino' ino 0 z) (hz : 128 ≤ z) :
    ∀ i < 15, inodeBlock ino' i = inodeBlock ino i :=
  fun i hi => u32_congr (h.mono (by omega) (by omega))

theorem inodeBlocks_congr {z : ℕ} (h : SameOn ino' ino 0 z) (hz : 128 ≤ z) :
    inodeBlocks ino' = inodeBlocks ino := u32_congr (h.mono (by omega) (by omega))

theorem inodeLength_congr {z : ℕ} (h : SameOn ino' ino 0 z) (hz : 128 ≤ z) :
    inodeLength ino' = inodeLength ino := u32_congr (h.mono (by omega) (by omega))

theorem regular_congr {z : ℕ} (h : SameOn ino' ino 0 z) (hz : 128 ≤ z) :
    Regular ino' ↔ Regular ino := by
  have h : inodeMode ino' = inodeMode ino := u16_congr (h.mono (by omega) (by omega))
  simp only [Regular, h]

/-- The file's record, pointer blocks and data blocks hold what they held. -/
structure Untouched (d d' : Disk) (n : ℕ) : Prop where
  record : SameOn (d'.record n) (d.record n) 0 d.inodeSize
  nodes : ∀ k, d.NodeLive n k → d'.blocks (d.nodeBlock n k) = d.blocks (d.nodeBlock n k)
  data : ∀ l < d.fileBlocks n, d'.blocks (d.leafBlock n l) = d.blocks (d.leafBlock n l)

namespace Untouched

variable (h : Untouched d d' n) (hs : d.SameShape d'.toMem) (hz : 128 ≤ d.inodeSize)
include h hs hz

theorem fileBlocks : d'.fileBlocks n = d.fileBlocks n := by
  simp only [Disk.fileBlocks, Mem.blocksOf, inodeBlocks_congr h.record hz, hs.blockSize]

theorem nodeLive {k : Node} (hk : d'.NodeLive n k) : d.NodeLive n k ∧ d'.nodeBlock n k = d.nodeBlock n k :=
  nodeLive_of_pointers hs.pointers (inodeBlock_congr h.record hz) (h.fileBlocks hs hz)
    (regular_congr h.record hz)
    h.nodes hk

theorem leafBlock {l : ℕ} (hl : l < d.fileBlocks n) : d'.leafBlock n l = d.leafBlock n l :=
  leafBlock_of_pointers hs.pointers (inodeBlock_congr h.record hz) h.nodes hl

theorem sameFile : SameFile d d' n := by
  refine ⟨h.record, fun pos => ?_⟩
  unfold Disk.fileByte
  rw [hs.blockSize, h.fileBlocks hs hz]
  split_ifs with hl
  · rw [h.leafBlock hs hz hl, h.data _ hl]
  · rfl

theorem refs {I : ℕ → Prop} {r : Ref} (hr : (∃ l, r = .data n l) ∨ ∃ k, r = .node n k) (hl : r.Live I d') :
    r.Live I d ∧ r.block d' = r.block d := by
  rcases hr with ⟨l, rfl⟩ | ⟨k, rfl⟩
  · have hlt : l < d.fileBlocks n := h.fileBlocks hs hz ▸ hl.2
    exact ⟨⟨hl.1, hlt⟩, h.leafBlock hs hz hlt⟩
  · exact ⟨⟨hl.1, (h.nodeLive hs hz hl.2).1⟩, (h.nodeLive hs hz hl.2).2⟩

end Untouched

end Frame

theorem SameFile.refl (d : Disk) (n : ℕ) : SameFile d d n := ⟨fun _ _ _ => rfl, fun _ => rfl⟩

theorem SameFile.trans {a b c : Disk} {n : ℕ} (hs : a.SameShape b.toMem) (h : SameFile a b n)
    (h' : SameFile b c n) :
    SameFile a c n :=
  ⟨(hs.inodeSize ▸ h'.record).trans h.record, fun pos => (h'.bytes pos).trans (h.bytes pos)⟩

/-! ### Steps between volumes -/

section Steps

variable {S I : ℕ → Prop} {d d' : Disk}

/-- A step that adds no use but at most `r₁`, on a reserved block. -/
structure Adds (S I : ℕ → Prop) (d d' : Disk) (r₁ : Option Ref) : Prop where
  shape : d.SameShape d'.toMem
  free : ∀ b, d'.FreeBlock b → d.FreeBlock b
  counted : Pool.blocks.Counted d'
  refs : ∀ r : Ref, r.Live I d' → (r.Live I d ∧ r.block d' = r.block d) ∨
    (r₁ = some r ∧ Reserved S I d (r.block d'))

theorem WellFormed.adds (hw : WellFormed S I d) {r₁ : Option Ref} (h : Adds S I d d' r₁) :
    WellFormed S I d' where
  geometry := h.shape.geometry hw.geometry
  inodes n hn := by rw [h.shape.groups, h.shape.inodesPerGroup]; exact hw.inodes n hn
  mem r hr := by
    rcases h.refs r hr with ⟨h1, h2⟩ | ⟨-, h2⟩
    · exact h2 ▸ hw.mem r h1
    · exact h2.mem
  inj r s hr hs he := by
    rcases h.refs r hr with ⟨h1, h2⟩ | ⟨h1, h2⟩ <;> rcases h.refs s hs with ⟨h3, h4⟩ | ⟨h3, h4⟩
    · exact hw.inj r s h1 h3 (by rw [← h2, ← h4, he])
    · exact absurd (h2.symm.trans he) (h4.unused r h1)
    · exact absurd (h4.symm.trans he.symm) (h2.unused s h3)
    · exact Option.some.inj (h1.symm.trans h3)
  free_mem b hb := hw.free_mem b (h.free b hb)
  free_unused b hb r hr he := by
    rcases h.refs r hr with ⟨h1, h2⟩ | ⟨-, h2⟩
    · exact hw.free_unused b (h.free b hb) r h1 (h2.symm.trans he)
    · exact h2.taken (he ▸ h.free b hb)
  counted := h.counted

/-- Blocks stay reserved unless the step uses them. -/
theorem Adds.reserved {r₁ : Option Ref} (h : Adds S I d d' r₁) {c : ℕ} (hc : Reserved S I d c)
    (hne : ∀ r, r₁ = some r → r.block d' ≠ c) : Reserved S I d' c := by
  refine ⟨hc.mem, fun hf => hc.taken (h.free c hf), fun r hr => ?_⟩
  rcases h.refs r hr with ⟨h1, h2⟩ | ⟨h1, -⟩
  · rw [h2]; exact hc.unused r h1
  · exact hne r h1

namespace WellFormed

theorem allocOk (hw : WellFormed S I d) (hS : ∀ b, S b → d.Usable b) : AllocOk S d where
  usable := hS
  placed :=
    { span := fun i hi => Mem.descriptor_lt hw.geometry.span hw.geometry.part hi
      mem := fun r hr => hw.mem (.table r) hr
      inj := fun r s hr hs he => by simpa using hw.inj (.table r) (.table s) hr hs he }
  free := ⟨hw.free_mem, fun b hb r hr => hw.free_unused b hb (.table r) hr⟩

end WellFormed

end Steps

end ChiffOS.Ext2
