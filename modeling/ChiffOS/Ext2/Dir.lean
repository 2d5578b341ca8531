import ChiffOS.Ext2.Inode

/-! The directories of `ext2.c`: looking a name up, entering and removing it, and the calls that make
files, directories and symbolic links. A directory block is a row of entries, each with the length of
its own record; `total_offset` and `dir_offset` are where a loop stands in the directory and in the
block. -/

namespace ChiffOS.Ext2

open Buf

/-! ### Inodes -/

def sIfdir : ℕ := 0x4000
def sIfreg : ℕ := 0x8000
def sIflnk : ℕ := 0xA000

def inodeUid (inode : Buf) : ℕ := inode.u16 2
def inodeGid (inode : Buf) : ℕ := inode.u16 24
def inodeLinks (inode : Buf) : ℕ := inode.u16 26

/-! ### Entries -/

def entInode (block : Buf) (at_ : ℕ) : ℕ := block.u32 at_
def entRecLen (block : Buf) (at_ : ℕ) : ℕ := block.u16 (at_ + 4)
def entNameLen (block : Buf) (at_ : ℕ) : ℕ := (block (at_ + 6)).toNat
def entName (block : Buf) (at_ : ℕ) : List UInt8 := (List.range (entNameLen block at_)).map fun i => block
    (at_ + 8 + i)

def ofBytes (s : List UInt8) : Buf := fun i => s.getD i 0

def setEntry (block : Buf) (at_ inode recLen : ℕ) (name : List UInt8) : Buf :=
  (((block.setU32 at_ inode).setU16 (at_ + 4) recLen).blit (at_ + 6) (ofBytes [UInt8.ofNat name.length, 0])
    2).blit
    (at_ + 8) (ofBytes name) name.length

def recordLen (nameLen : ℕ) : ℕ := 8 + nameLen + if (8 + nameLen) % 4 ≠ 0 then 4 - (8 + nameLen) % 4 else 0

/-- Where a loop stands in a directory. `block_nr` is one byte wide. -/
structure Cursor where
  block : Buf
  blockNr : ℕ
  dirOffset : ℕ
  totalOffset : ℕ

namespace Cursor

def inode (c : Cursor) : ℕ := entInode c.block c.dirOffset
def recLen (c : Cursor) : ℕ := entRecLen c.block c.dirOffset
def nameLen (c : Cursor) : ℕ := entNameLen c.block c.dirOffset
def name (c : Cursor) : List UInt8 := entName c.block c.dirOffset
def sreclen (c : Cursor) : ℕ := recordLen c.nameLen

def skip (c : Cursor) (n : ℕ) : Cursor :=
  { c with dirOffset := (c.dirOffset + n) % 2 ^ 32, totalOffset := (c.totalOffset + n) % 2 ^ 32 }

end Cursor

def openDir (inode : Buf) : Ext2M Cursor := do
  let block ← malloc
  let (_, block) ← inodeReadBlock inode 0 block
  pure ⟨block, 0, 0, 0⟩

/-- The next block, once the entries of this one are through. -/
def turnBlock (inode : Buf) (c : Cursor) : Ext2M Cursor := do
  let m ← this
  if c.dirOffset ≥ m.blockSize then do
    let (_, block) ← inodeReadBlock inode ((c.blockNr + 1) % 256) c.block
    pure { c with block := block, blockNr := (c.blockNr + 1) % 256, dirOffset := c.dirOffset - m.blockSize }
  else pure c

/-- The entry's first bytes. Where they do not lie in the block, the code reads on behind its buffer. -/
def needBytes (c : Cursor) (len : ℕ) : Ext2M Unit := do
  let m ← this
  if c.dirOffset + len > m.blockSize then undefined else pure ()

/-- The entry copied into a buffer of its own length. What the callers read behind the entry is what the
memory holds there. -/
def takeEntry (c : Cursor) : Ext2M Buf := do
  needBytes c c.recLen
  let direntry ← malloc
  pure (direntry.blit 0 (c.block.drop c.dirOffset) c.recLen)

/-- The loop of `finddir_ext2` and `unlink_ext2`. A round that moves on by nothing repeats itself for
ever, and no more than `2 ^ 32` rounds can move on. -/
def searchEntry (inode : Buf) (name : List UInt8) : (fuel : ℕ) → Cursor → Ext2M (Option Cursor)
  | 0, _ => undefined
  | fuel + 1, c =>
    if c.totalOffset < inodeLength inode then do
      let c ← turnBlock inode c
      needBytes c 8
      if c.inode = 0 ∨ name.length ≠ c.nameLen then searchEntry inode name fuel (c.skip c.recLen)
      else do
        let _ ← malloc
        needBytes c (8 + c.nameLen)
        if c.name = name then pure (some c) else searchEntry inode name fuel (c.skip c.recLen)
    else pure none

/-! ### Nodes -/

/-- The fields of `fs_node_t` that `node_from_file` sets and the kernel above reads. -/
structure FsNode where
  inode : ℕ
  name : List UInt8
  uid : ℕ
  gid : ℕ
  length : ℕ
  mask : ℕ
  nlink : ℕ
  flags : ℕ
deriving DecidableEq

/-- The file flags of a mode. A symbolic link has the bits of a regular file. -/
def nodeFlags (mode : ℕ) : ℕ :=
  (if mode &&& sIfreg = sIfreg then 0x01 else 0) ||| (if mode &&& sIfdir = sIfdir then 0x02 else 0) |||
  (if mode &&& 0x6000 = 0x6000 then 0x08 else 0) ||| (if mode &&& 0x2000 = 0x2000 then 0x04 else 0) |||
  (if mode &&& 0x1000 = 0x1000 then 0x10 else 0) ||| (if mode &&& sIflnk = sIflnk then 0x20 else 0)

def nodeFromFile (inode direntry : Buf) : FsNode where
  inode := entInode direntry 0
  name := entName direntry 0
  uid := inodeUid inode
  gid := inodeGid inode
  length := inodeLength inode
  mask := inodeMode inode &&& 0xFFF
  nlink := inodeLinks inode
  flags := nodeFlags (inodeMode inode)

def finddirExt2 (node : ℕ) (name : List UInt8) : Ext2M (Option FsNode) := do
  let inode ← readInode node
  let c ← openDir inode
  match ← searchEntry inode name (2 ^ 32) c with
  | none => pure none
  | some c => do
    let direntry ← takeEntry c
    let _ ← malloc
    let inode ← readInode (entInode direntry 0)
    pure (some (nodeFromFile inode direntry))

def seekEntry (inode : Buf) (index : ℕ) : (fuel dirIndex : ℕ) → Cursor → Ext2M (Option Buf)
  | 0, _, _ => undefined
  | fuel + 1, dirIndex, c =>
    if c.totalOffset < inodeLength inode ∧ dirIndex ≤ index then do
      needBytes c 8
      if c.inode ≠ 0 ∧ dirIndex = index then do
        let out ← takeEntry c
        pure (some out)
      else do
        let next ← turnBlock inode (c.skip c.recLen)
        seekEntry inode index fuel (if c.inode ≠ 0 then dirIndex + 1 else dirIndex) next
    else pure none

def readdirExt2 (node index : ℕ) : Ext2M (Option (ℕ × List UInt8)) := do
  let inode ← readInode node
  let c ← openDir inode
  match ← seekEntry inode index (2 ^ 32) 0 c with
  | none => pure none
  | some direntry => do
    let _ ← malloc
    pure (some (entInode direntry 0 % 2 ^ 16, entName direntry 0))

/-- The inode is freed before it is used again; its fields are still there then. -/
def unlinkExt2 (node : ℕ) (name : List UInt8) : Ext2M Unit := do
  let inode ← readInode node
  let c ← openDir inode
  match ← searchEntry inode name (2 ^ 32) c with
  | none => pure ()
  | some c => do
    let _ ← inodeWriteBlock inode node c.blockNr (c.block.setU32 c.dirOffset 0)
    ext2Sync

/-! ### New entries -/

/-- What the loop of `create_entry` stops for: the last entry reaches to the end of the directory and is
longer than it has to be (with the cursor behind what it needs), or there are no more entries. -/
inductive DirEnd where
  | modify (previous : ℕ) (c : Cursor)
  | past (c : Cursor)

/-- The loop of `create_entry`. A free entry on the way does not end it. -/
def seekEnd (pinode : Buf) : (fuel : ℕ) → Cursor → Ext2M DirEnd
  | 0, _ => undefined
  | fuel + 1, c =>
    if c.totalOffset < inodeLength pinode then do
      let c ← turnBlock pinode c
      needBytes c 8
      needBytes c (8 + c.nameLen)
      if c.recLen ≠ c.sreclen ∧ (c.totalOffset + c.recLen) % 2 ^ 32 = inodeLength pinode then
        pure (.modify c.dirOffset (c.skip c.sreclen))
      else seekEnd pinode fuel (c.skip c.recLen)
    else pure (.past c)

/-- How `create_entry` ends. -/
inductive Entered where
  | badParent | noRoom | written
deriving DecidableEq

def storeEntryAt (pinode : Buf) (parent : ℕ) (c : Cursor) (block : Buf) (name : List UInt8) (inode : ℕ) :
    Ext2M Entered := do
  let m ← this
  if c.dirOffset + 8 + name.length > m.blockSize then undefined
  else do
    let _ ← inodeWriteBlock pinode parent c.blockNr
      (setEntry block c.dirOffset inode (m.blockSize - c.dirOffset) name)
    pure .written

def enterEntry (parent : ℕ) (name : List UInt8) (inode : ℕ) : Ext2M Entered := do
  let m ← this
  let pinode ← readInode parent
  if inodeMode pinode &&& sIfdir = 0 then pure .badParent
  else do
    let c ← openDir pinode
    match ← seekEnd pinode (2 ^ 32) c with
    | .modify previous c =>
      if c.dirOffset + recordLen name.length ≥ m.blockSize then pure .noRoom
      else
        storeEntryAt pinode parent c
          (c.block.setU16 (previous + 4) (recordLen (entNameLen c.block previous))) name inode
    | .past c => storeEntryAt pinode parent c c.block name inode

def createEntry (parent : ℕ) (name : List UInt8) (inode : ℕ) : Ext2M Err := do
  match ← enterEntry parent name inode with
  | .badParent => pure .badParent
  | .noRoom => pure .noSpace
  | .written => pure .noSpace

/-! ### New files -/

/-- The result is the return value and the caller's buffer. -/
def readlinkExt2 (node size : ℕ) (buf : Buf) : Ext2M (ℕ × Buf) := do
  let inode ← readInode node
  let readSize := if inodeLength inode < size then inodeLength inode else size
  let buf ← if inodeLength inode > 60 then do
      let (_, buf) ← readExt2 node 0 readSize buf
      pure buf
    else pure (buf.blit 0 (inode.drop 40) readSize)
  pure (readSize, if readSize < size then buf.blit readSize (fun _ => 0) 1 else buf)

end ChiffOS.Ext2
