import ChiffOS.Ext2.CacheRefinement
import ChiffOS.Lib.Prog

/-! The code of `ext2.c` above the block layer is written as programs over the operations of this
module: the fields of the file system object, the heap's buffers and the calls into the block
layer. `fsHandler` runs them on the object itself. -/

namespace ChiffOS.Ext2

inductive Ext2Op : Type → Type where
  /-- The fields of `this`. -/
  | this : Ext2Op Mem
  | setSuperblock (sb : Buf) : Ext2Op Unit
  | setBlockGroups (bgd : Buf) : Ext2Op Unit
  /-- A buffer from `malloc`, with whatever it holds. -/
  | malloc : Ext2Op Buf
  | readBlock (blockNo : ℕ) (buf : Buf) : Ext2Op (Err × Buf)
  | writeBlock (blockNo : ℕ) (buf : Buf) : Ext2Op Err
  | rewriteSuperblock : Ext2Op Unit
  | ext2Sync : Ext2Op Unit
  /-- The source has no defined outcome here, or does not return. -/
  | undefined : Ext2Op Empty

abbrev Ext2M := Prog Ext2Op

open Prog

def this : Ext2M Mem := ask .this
def setSuperblock (sb : Buf) : Ext2M Unit := ask (.setSuperblock sb)
def setBlockGroups (bgd : Buf) : Ext2M Unit := ask (.setBlockGroups bgd)
def malloc : Ext2M Buf := ask .malloc
def readBlock (blockNo : ℕ) (buf : Buf) : Ext2M (Err × Buf) := ask (.readBlock blockNo buf)
def writeBlock (blockNo : ℕ) (buf : Buf) : Ext2M Err := ask (.writeBlock blockNo buf)
def rewriteSuperblock : Ext2M Unit := ask .rewriteSuperblock
def ext2Sync : Ext2M Unit := ask .ext2Sync
def undefined {α : Type} : Ext2M α := ask .undefined >>= Empty.elim

def fsHandler : Handler Ext2Op Fs
  | _, .this, fs => some (fs.toMem, fs)
  | _, .setSuperblock sb, fs => some ((), { fs with superblock := sb })
  | _, .setBlockGroups bgd, fs => some ((), { fs with blockGroups := bgd })
  | _, .malloc, fs => some (fs.heap 0, { fs with heap := fun i => fs.heap (i + 1) })
  | _, .readBlock b buf, fs => fs.readBlock b buf
  | _, .writeBlock b buf, fs => fs.writeBlock b buf
  | _, .rewriteSuperblock, fs => some ((), fs.rewriteSuperblock)
  | _, .ext2Sync, fs => some ((), fs.ext2Sync)
  | _, .undefined, _ => none

namespace Mem

/-! Fields of the group descriptors, 32 bytes each, and of the superblock. -/

def blockBitmap (m : Mem) (g : ℕ) : ℕ := m.blockGroups.u32 (32 * g)
def inodeBitmap (m : Mem) (g : ℕ) : ℕ := m.blockGroups.u32 (32 * g + 4)
def inodeTable (m : Mem) (g : ℕ) : ℕ := m.blockGroups.u32 (32 * g + 8)
def freeBlocks (m : Mem) (g : ℕ) : ℕ := m.blockGroups.u16 (32 * g + 12)
def freeInodes (m : Mem) (g : ℕ) : ℕ := m.blockGroups.u16 (32 * g + 14)
def firstDataBlock (m : Mem) : ℕ := m.superblock.u32 20
def blocksPerGroup (m : Mem) : ℕ := m.superblock.u32 32

end Mem

end ChiffOS.Ext2
