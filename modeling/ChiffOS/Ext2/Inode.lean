import ChiffOS.Ext2.Ops
import ChiffOS.Lib.Bits

/-! Block and inode allocation, the inode table, the map from a file's blocks to device blocks, and
reading and writing a file: `ext2.c` up to `open_ext2`, without the directories. An inode in memory
is a buffer of `inode_size` bytes; `unsigned int` arithmetic is taken modulo `2 ^ 32` where it can
wrap. -/

namespace ChiffOS.Ext2

open Buf

/-! ### Inode fields -/

def inodeMode (inode : Buf) : ℕ := inode.u16 0
def inodeLength (inode : Buf) : ℕ := inode.u32 4
def inodeBlocks (inode : Buf) : ℕ := inode.u32 28
def inodeBlock (inode : Buf) (i : ℕ) : ℕ := inode.u32 (40 + 4 * i)
def setInodeLength (inode : Buf) (v : ℕ) : Buf := inode.setU32 4 v
def setInodeBlocks (inode : Buf) (v : ℕ) : Buf := inode.setU32 28 v
def setInodeBlock (inode : Buf) (i v : ℕ) : Buf := inode.setU32 (40 + 4 * i) v

/-! ### Allocation -/

def scanGroups (count : Mem → ℕ → ℕ) (bitmap : Mem → ℕ → ℕ) : Ext2M (Option (ℕ × ℕ × Buf)) := do
  let m ← this
  let bgBuffer ← malloc
  match (List.range m.blockGroupCount).find? fun i => 0 < count m i with
  | none => pure none
  | some i =>
    let (_, bgBuffer) ← readBlock (bitmap m i) bgBuffer
    match bgBuffer.firstClear (8 * m.blockSize) 0 with
    | none => undefined
    | some offset => pure (some (i, offset, bgBuffer))

def writeDescriptors (i : ℕ) : (left : ℕ) → Ext2M Unit
  | 0 => pure ()
  | left + 1 => do
    let m ← this
    let _ ← writeBlock (m.bgdOffset + i) (m.blockGroups.drop (m.blockSize * i))
    writeDescriptors (i + 1) left

def markUsed (bitmap : Mem → ℕ → ℕ) (groupCount sbCount group offset : ℕ) (bgBuffer : Buf) : Ext2M Unit := do
  let m ← this
  let _ ← writeBlock (bitmap m group) (bgBuffer.setBit offset)
  let count := m.blockGroups.u16 (32 * group + groupCount)
  setBlockGroups (m.blockGroups.setU16 (32 * group + groupCount) (count + 2 ^ 16 - 1))
  writeDescriptors 0 m.bgdBlockSpan
  setSuperblock (m.superblock.setU32 sbCount (m.superblock.u32 sbCount + 2 ^ 32 - 1))
  rewriteSuperblock

def allocateBlock : Ext2M ℕ := do
  let m ← this
  match ← scanGroups Mem.freeBlocks Mem.blockBitmap with
  | none => pure 0
  | some (group, offset, bgBuffer) =>
    let blockNo := (offset + m.blocksPerGroup * group) % 2 ^ 32
    if blockNo = 0 then pure 0
    else do
      markUsed Mem.blockBitmap 12 12 group offset bgBuffer
      let _ ← writeBlock blockNo ((bgBuffer.setBit offset).clear 0 m.blockSize)
      pure blockNo

def allocateInode : Ext2M ℕ := do
  let m ← this
  match ← scanGroups Mem.freeInodes Mem.inodeBitmap with
  | none => pure 0
  | some (group, offset, bgBuffer) =>
    let nodeNo := (offset + group * m.inodesPerGroup + 1) % 2 ^ 32
    if nodeNo = 0 then pure 0
    else do
      markUsed Mem.inodeBitmap 14 16 group offset bgBuffer
      pure nodeNo

/-! ### The inode table -/

def inodeSlot (m : Mem) (index : ℕ) : ℕ × ℕ :=
  let group := index / m.inodesPerGroup
  let i := (index - group * m.inodesPerGroup + 2 ^ 32 - 1) % 2 ^ 32
  let blockOffset := i * m.inodeSize % 2 ^ 32 / m.blockSize
  let offsetInBlock := (i + 2 ^ 32 - blockOffset * (m.blockSize / m.inodeSize) % 2 ^ 32) % 2 ^ 32
  ((m.inodeTable group + blockOffset) % 2 ^ 32, offsetInBlock * m.inodeSize % 2 ^ 32)

def writeInode (inode : Buf) (index : ℕ) : Ext2M Err := do
  let m ← this
  if index / m.inodesPerGroup > m.blockGroupCount then pure .badBlock
  else do
    let slot := inodeSlot m index
    let inodet ← malloc
    let (_, inodet) ← readBlock slot.1 inodet
    let _ ← writeBlock slot.1 (inodet.blit slot.2 inode m.inodeSize)
    pure .success

def refreshInode (inodet : Buf) (index : ℕ) : Ext2M Buf := do
  let m ← this
  if index / m.inodesPerGroup > m.blockGroupCount then pure inodet
  else do
    let slot := inodeSlot m index
    let buf ← malloc
    let (_, buf) ← readBlock slot.1 buf
    pure (inodet.blit 0 (buf.drop slot.2) m.inodeSize)

def readInode (index : ℕ) : Ext2M Buf := do
  let inodet ← malloc
  refreshInode inodet index

/-! ### The block map -/

def ensureSlot (inode : Buf) (inodeNo slot : ℕ) : Ext2M (Option Buf) :=
  if inodeBlock inode slot ≠ 0 then pure (some inode)
  else do
    let blockNo ← allocateBlock
    if blockNo = 0 then pure none
    else do
      let inode := setInodeBlock inode slot blockNo
      let _ ← writeInode inode inodeNo
      pure (some inode)

def ensureEntry (tmp : Buf) (block entry : ℕ) : Ext2M (Option Buf) :=
  if tmp.u32 (4 * entry) ≠ 0 then pure (some tmp)
  else do
    let blockNo ← allocateBlock
    if blockNo = 0 then pure none
    else do
      let tmp := tmp.setU32 (4 * entry) blockNo
      let _ ← writeBlock block tmp
      pure (some tmp)

def storeEntry (tmp : Buf) (block entry value : ℕ) : Ext2M Unit := do
  let (_, tmp) ← readBlock block tmp
  let _ ← writeBlock block (tmp.setU32 (4 * entry) value)

def loadEntry (tmp : Buf) (block entry : ℕ) : Ext2M (ℕ × Buf) := do
  let (_, tmp) ← readBlock block tmp
  pure (tmp.u32 (4 * entry), tmp)

/-- Which branch of the block map a file block takes, with the indices it computes. The last range is
`p` blocks long in the source, not `p * p * p`; its indices divide by `p * p`, which is 0 in 32 bits
for blocks of 256 KiB. -/
inductive MapPath where
  | direct (i : ℕ)
  | single (i : ℕ)
  | double (c d : ℕ)
  | triple (d f g : ℕ)
  | divByZero
  | tooHigh
deriving DecidableEq

def mapPath (p iblock : ℕ) : MapPath :=
  let pp := p * p % 2 ^ 32
  let b := iblock - 12 - p
  let c := b - pp
  let e := c - c / pp * pp
  if iblock < 12 then .direct iblock
  else if iblock < (12 + p) % 2 ^ 32 then .single (iblock - 12)
  else if iblock < (12 + p + pp) % 2 ^ 32 then .double (b / p) (b - b / p * p)
  else if iblock < (12 + p + pp + p) % 2 ^ 32 then
    if pp = 0 then .divByZero else .triple (c / pp) (e / p) (e - e / p * p)
  else .tooHigh

/-- The result is the return value and the inode, which gets the blocks it lacks on the way. In the
last branch the source stores `nblock` and not `rblock`. -/
def setBlockNumber (inode : Buf) (inodeNo iblock rblock : ℕ) : Ext2M (Err × Buf) := do
  let m ← this
  match mapPath m.pointersPerBlock iblock with
  | .direct i => pure (.success, setInodeBlock inode i rblock)
  | .single i => do
    match ← ensureSlot inode inodeNo 12 with
    | none => pure (.noSpace, inode)
    | some inode =>
      let tmp ← malloc
      storeEntry tmp (inodeBlock inode 12) i rblock
      pure (.success, inode)
  | .double c d => do
    match ← ensureSlot inode inodeNo 13 with
    | none => pure (.noSpace, inode)
    | some inode =>
      let tmp ← malloc
      let (_, tmp) ← readBlock (inodeBlock inode 13) tmp
      match ← ensureEntry tmp (inodeBlock inode 13) c with
      | none => pure (.noSpace, inode)
      | some tmp =>
        storeEntry tmp (tmp.u32 (4 * c)) d rblock
        pure (.success, inode)
  | .triple d f g => do
    match ← ensureSlot inode inodeNo 14 with
    | none => pure (.noSpace, inode)
    | some inode =>
      let tmp ← malloc
      let (_, tmp) ← readBlock (inodeBlock inode 14) tmp
      match ← ensureEntry tmp (inodeBlock inode 14) d with
      | none => pure (.noSpace, inode)
      | some tmp =>
        let nblock := tmp.u32 (4 * d)
        let (_, tmp) ← readBlock nblock tmp
        match ← ensureEntry tmp nblock f with
        | none => pure (.noSpace, inode)
        | some tmp =>
          let nblock := tmp.u32 (4 * f)
          storeEntry tmp nblock g nblock
          pure (.success, inode)
  | .divByZero => undefined
  | .tooHigh => pure (.badBlock, inode)

def getBlockNumber (inode : Buf) (iblock : ℕ) : Ext2M ℕ := do
  let m ← this
  match mapPath m.pointersPerBlock iblock with
  | .direct i => pure (inodeBlock inode i)
  | .single i => do
    let tmp ← malloc
    let (out, _) ← loadEntry tmp (inodeBlock inode 12) i
    pure out
  | .double c d => do
    let tmp ← malloc
    let (nblock, tmp) ← loadEntry tmp (inodeBlock inode 13) c
    let (out, _) ← loadEntry tmp nblock d
    pure out
  | .triple d f g => do
    let tmp ← malloc
    let (nblock, tmp) ← loadEntry tmp (inodeBlock inode 14) d
    let (nblock, tmp) ← loadEntry tmp nblock f
    let (out, _) ← loadEntry tmp nblock g
    pure out
  | .divByZero => undefined
  | .tooHigh => pure 0

def Mem.blocksOf (m : Mem) (inode : Buf) : ℕ := inodeBlocks inode / (m.blockSize / 512)

def allocateInodeBlock (inode : Buf) (inodeNo block : ℕ) : Ext2M (Err × Buf) := do
  let m ← this
  let blockNo ← allocateBlock
  if blockNo = 0 then pure (.noSpace, inode)
  else do
    let (_, inode) ← setBlockNumber inode inodeNo block blockNo
    let t := (block + 1) * (m.blockSize / 512) % 2 ^ 32
    let inode := if inodeBlocks inode < t then setInodeBlocks inode t else inode
    let _ ← writeInode inode inodeNo
    pure (.success, inode)

def inodeReadBlock (inode : Buf) (block : ℕ) (buf : Buf) : Ext2M (ℕ × Buf) := do
  let m ← this
  if block ≥ m.blocksOf inode then pure (0, buf.clear 0 m.blockSize)
  else do
    let realBlock ← getBlockNumber inode block
    let (_, buf) ← readBlock realBlock buf
    pure (realBlock, buf)

/-- The loop that allocates every block up to `block`. A round that allocates nothing repeats itself
for ever, and no more than `2 ^ 32` rounds can allocate. -/
def allocateUpTo (inodeNo block : ℕ) : (fuel : ℕ) → Buf → Ext2M Buf
  | 0, _ => undefined
  | fuel + 1, inode => do
    let m ← this
    if block ≥ m.blocksOf inode then do
      let (_, inode) ← allocateInodeBlock inode inodeNo (m.blocksOf inode)
      let inode ← refreshInode inode inodeNo
      allocateUpTo inodeNo block fuel inode
    else pure inode

def inodeWriteBlock (inode : Buf) (inodeNo block : ℕ) (buf : Buf) : Ext2M (ℕ × Buf) := do
  let inode ← allocateUpTo inodeNo block (2 ^ 32) inode
  let realBlock ← getBlockNumber inode block
  let _ ← writeBlock realBlock buf
  pure (realBlock, inode)

/-! ### Files -/

def bufferOffset (m : Mem) (blocksRead offset : ℕ) : ℕ := m.blockSize * blocksRead - offset % m.blockSize

def readBlocks (inode : Buf) (offset startBlock : ℕ) (done : ℕ) : (left : ℕ) → Buf × Buf → Ext2M (Buf × Buf)
  | 0, bufs => pure bufs
  | left + 1, (buf, buffer) => do
    let m ← this
    let (_, buf) ← inodeReadBlock inode (startBlock + done) buf
    let buffer :=
      if done = 0 then buffer.blit 0 (buf.drop (offset % m.blockSize)) (m.blockSize - offset % m.blockSize)
      else buffer.blit (bufferOffset m done offset) buf m.blockSize
    readBlocks inode offset startBlock (done + 1) left (buf, buffer)

/-- The result is the return value and the caller's buffer. Where the range ends before it starts
(`offset` beyond the file), the copy runs on behind the block's buffer, or the copy of the last part
goes to an address before the caller's. -/
def readExt2 (inodeNo offset size : ℕ) (buffer : Buf) : Ext2M (ℕ × Buf) := do
  let m ← this
  let inode ← readInode inodeNo
  if inodeLength inode = 0 then pure (0, buffer)
  else do
    let last := if (offset + size) % 2 ^ 32 > inodeLength inode then inodeLength inode
      else (offset + size) % 2 ^ 32
    let startBlock := offset / m.blockSize
    let endBlock := last / m.blockSize
    let endSize := last - endBlock * m.blockSize
    let sizeToRead := (last + 2 ^ 32 - offset) % 2 ^ 32
    let buf ← malloc
    if startBlock = endBlock then do
      let (_, buf) ← inodeReadBlock inode startBlock buf
      if offset % m.blockSize + sizeToRead > m.blockSize then undefined
      else pure (sizeToRead, buffer.blit 0 (buf.drop (offset % m.blockSize)) sizeToRead)
    else do
      let blocksRead := endBlock - startBlock
      let (buf, buffer) ← readBlocks inode offset startBlock 0 blocksRead (buf, buffer)
      if endSize ≠ 0 then do
        let (_, buf) ← inodeReadBlock inode endBlock buf
        if m.blockSize * blocksRead < offset % m.blockSize then undefined
        else pure (sizeToRead, buffer.blit (bufferOffset m blocksRead offset) buf endSize)
      else pure (sizeToRead, buffer)

def writeBlocks (inodeNo offset startBlock : ℕ) (buffer : Buf) (done : ℕ) : (left : ℕ) → Buf × Buf → Ext2M
    (Buf × Buf)
  | 0, bufs => pure bufs
  | left + 1, (inode, buf) => do
    let m ← this
    let (b, buf) ← inodeReadBlock inode (startBlock + done) buf
    let buf :=
      if done = 0 then buf.blit (offset % m.blockSize) buffer (m.blockSize - offset % m.blockSize)
      else buf.blit 0 (buffer.drop (bufferOffset m done offset)) m.blockSize
    let (_, inode) ← inodeWriteBlock inode inodeNo (startBlock + done) buf
    let inode ← if b = 0 then refreshInode inode inodeNo else pure inode
    writeBlocks inodeNo offset startBlock buffer (done + 1) left (inode, buf)

def writeRange (inode : Buf) (inodeNo offset last : ℕ) (buffer : Buf) : Ext2M (ℕ × Buf) := do
  let m ← this
  let startBlock := offset / m.blockSize
  let endBlock := last / m.blockSize
  let endSize := last - endBlock * m.blockSize
  let sizeToRead := (last + 2 ^ 32 - offset) % 2 ^ 32
  let buf ← malloc
  if startBlock = endBlock then do
    let (_, buf) ← inodeReadBlock inode startBlock buf
    let (_, inode) ← inodeWriteBlock inode inodeNo startBlock
      (buf.blit (offset % m.blockSize) buffer sizeToRead)
    pure (sizeToRead, inode)
  else do
    let blocksRead := endBlock - startBlock
    let (inode, buf) ← writeBlocks inodeNo offset startBlock buffer 0 blocksRead (inode, buf)
    if endSize ≠ 0 then do
      let (_, buf) ← inodeReadBlock inode endBlock buf
      if m.blockSize * blocksRead < offset % m.blockSize then undefined
      else do
        let buf := buf.blit 0 (buffer.drop (bufferOffset m blocksRead offset)) endSize
        let (_, inode) ← inodeWriteBlock inode inodeNo endBlock buf
        pure (sizeToRead, inode)
    else pure (sizeToRead, inode)

def writeInodeBuffer (inode : Buf) (inodeNo offset size : ℕ) (buffer : Buf) : Ext2M (ℕ × Buf) := do
  let last := (offset + size) % 2 ^ 32
  if last > inodeLength inode then do
    let inode := setInodeLength inode last
    let _ ← writeInode inode inodeNo
    writeRange inode inodeNo offset last buffer
  else writeRange inode inodeNo offset last buffer

def writeExt2 (inodeNo offset size : ℕ) (buffer : Buf) : Ext2M ℕ := do
  let inode ← readInode inodeNo
  let (rv, _) ← writeInodeBuffer inode inodeNo offset size buffer
  pure rv

def oTrunc : ℕ := 0x400

def openExt2 (inodeNo flags : ℕ) : Ext2M Unit :=
  if flags &&& oTrunc ≠ 0 then do
    let inode ← readInode inodeNo
    let _ ← writeInode (setInodeLength inode 0) inodeNo
  else pure ()

end ChiffOS.Ext2
