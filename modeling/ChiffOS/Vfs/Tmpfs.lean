import ChiffOS.Lib.Bytes
import ChiffOS.Lib.Runs
import ChiffOS.Mem.Frames

/-! The files of `tmpfs.c`. The blocks of a file are physical frames, taken with `first_frame`; they are
reached through one page, the window, that is mapped to the frame of the block at hand. -/

namespace ChiffOS.Vfs

/-- `BLOCKSIZE` -/
def blockSize : ℕ := 0x1000

/-- `blocks` is the table of frames; it has room for `pointers` of them. -/
structure TmpfsFile where
  length : ℕ
  blockCount : ℕ
  pointers : ℕ
  blocks : ℕ → ℕ

/-- The frame bitmap, the contents of the frames, the frame of the window, and the files by their addresses. -/
structure TmpStore where
  map : Mem.Frames
  frame : ℕ → Buf
  window : ℕ
  file : ℕ → Option TmpfsFile

namespace TmpfsFile

def tmpfsFileNew : TmpfsFile := ⟨0, 0, 2, fun _ => 0⟩

/-- `realloc` keeps the entries of the table. -/
def blocksEmbiggen (t : TmpfsFile) : TmpfsFile := { t with pointers := t.pointers * 2 }

def embiggenTo (blockid : ℕ) : ℕ → TmpfsFile → Option TmpfsFile
  | 0, _ => none
  | k + 1, t => if t.pointers ≤ blockid then embiggenTo blockid k t.blocksEmbiggen else some t

/-- So many rounds of `while (blockid >= t->block_count)`. -/
def allocBlocks : ℕ → Mem.Frames → TmpfsFile → Mem.Frames × TmpfsFile
  | 0, m, t => (m, t)
  | k + 1, m, t =>
    let index := m.firstFrame
    let m := m.setFrame (index * 0x1000 % 2 ^ 32)
    allocBlocks k m { t with blocks := Function.update t.blocks t.blockCount index, blockCount :=
      t.blockCount + 1 }

end TmpfsFile

namespace TmpStore

open TmpfsFile

/-- A page entry has 20 bits for the frame. `none` if null is returned, which the callers use. -/
def getsetBlock (s : TmpStore) (f blockid : ℕ) (create : Bool) : Option TmpStore := do
  let t ← s.file f
  if create then
    let t ← embiggenTo blockid 32 t
    let (m, t) := allocBlocks (blockid + 1 - t.blockCount) s.map t
    return { s with map := m, file := Function.update s.file f (some t), window := t.blocks blockid % 2 ^ 20 }
  else if t.blockCount ≤ blockid then none
  else return { s with window := t.blocks blockid % 2 ^ 20 }

def memcpyIn (s : TmpStore) (o : ℕ) (src : Buf) (n : ℕ) : Option TmpStore :=
  if o + n ≤ blockSize then
    some { s with frame := Function.update s.frame s.window ((s.frame s.window).blit o src n) }
  else none

def memcpyOut (s : TmpStore) (dst : Buf) (d o n : ℕ) : Option Buf :=
  if o + n ≤ blockSize then some (dst.blit d ((s.frame s.window).drop o) n) else none

def readRound (f offset : ℕ) (st : TmpStore × Buf) (i : ℕ) : Option (TmpStore × Buf) := do
  let s ← st.1.getsetBlock f (offset / blockSize + i) false
  let buffer ←
    if i = 0 then s.memcpyOut st.2 0 (offset % blockSize) (blockSize - offset % blockSize)
    else s.memcpyOut st.2 (blockSize * i - offset % blockSize) 0 blockSize
  return (s, buffer)

/-- The number of bytes, the buffer and the state after the call. -/
def readTmpfs (s : TmpStore) (f offset size : ℕ) (buffer : Buf) : Option (ℕ × Buf × TmpStore) := do
  let t ← s.file f
  let fin := if t.length < (offset + size) % 2 ^ 32 then t.length else (offset + size) % 2 ^ 32
  let startBlock := offset / blockSize
  let endBlock := fin / blockSize
  let endSize := fin - endBlock * blockSize
  let sizeToRead := (fin + 2 ^ 32 - offset) % 2 ^ 32
  if startBlock = endBlock ∧ offset = fin then return (0, buffer, s)
  else if startBlock = endBlock then
    let s ← s.getsetBlock f startBlock false
    let buffer ← s.memcpyOut buffer 0 (offset % blockSize) sizeToRead
    return (sizeToRead, buffer, s)
  else
    let blocksRead := endBlock - startBlock
    let (s, buffer) ← (List.range blocksRead).foldlM (readRound f offset) (s, buffer)
    if endSize = 0 then return (sizeToRead, buffer, s)
    -- to before the start of the buffer
    else if blockSize * blocksRead < offset % blockSize then none
    else
      let s ← s.getsetBlock f endBlock false
      let buffer ← s.memcpyOut buffer (blockSize * blocksRead - offset % blockSize) 0 endSize
      return (sizeToRead, buffer, s)

def putBlock (s : TmpStore) (f blockid o : ℕ) (src : Buf) (n : ℕ) : Option TmpStore := do
  let s ← s.getsetBlock f blockid true
  s.memcpyIn o src n

def writeRound (f offset : ℕ) (buffer : Buf) (s : TmpStore) (i : ℕ) : Option TmpStore :=
  if i = 0 then s.putBlock f (offset / blockSize + i) (offset % blockSize) buffer
    (blockSize - offset % blockSize)
  else s.putBlock f (offset / blockSize + i) 0 (buffer.drop (blockSize * i - offset % blockSize)) blockSize

def writeTmpfs (s : TmpStore) (f offset size : ℕ) (buffer : Buf) : Option (ℕ × TmpStore) := do
  let t ← s.file f
  let fin := (offset + size) % 2 ^ 32
  let s := if t.length < fin then { s with file := Function.update s.file f (some { t with length := fin }) }
    else s
  let startBlock := offset / blockSize
  let endBlock := fin / blockSize
  let endSize := fin - endBlock * blockSize
  let sizeToRead := (fin + 2 ^ 32 - offset) % 2 ^ 32
  if startBlock = endBlock then
    let s ← s.putBlock f startBlock (offset % blockSize) buffer sizeToRead
    return (sizeToRead, s)
  else
    let blocksRead := endBlock - startBlock
    let s ← (List.range blocksRead).foldlM (writeRound f offset buffer) s
    if endSize = 0 then return (sizeToRead, s)
    -- from before the start of the buffer
    else if blockSize * blocksRead < offset % blockSize then none
    else
      let s ← s.putBlock f endBlock 0 (buffer.drop (blockSize * blocksRead - offset % blockSize)) endSize
      return (sizeToRead, s)

/-! ### Calls -/

inductive TmpfsOp where
  | create (f : ℕ)
  | write (f offset size : ℕ) (buffer : Buf)
  | read (f offset size : ℕ) (buffer : Buf)

def TmpfsOp.target : TmpfsOp → ℕ
  | .create f => f
  | .write f _ _ _ => f
  | .read f _ _ _ => f

inductive TmpfsOut where
  | created
  | wrote (n : ℕ)
  | got (n : ℕ) (buffer : Buf)

def TmpfsOut.byte (i : ℕ) : TmpfsOut → Option UInt8
  | .got _ buffer => some (buffer i)
  | _ => none

def tmpfsCall (s : TmpStore) : TmpfsOp → Option (TmpfsOut × TmpStore)
  | .create f => some (.created, { s with file := Function.update s.file f (some tmpfsFileNew) })
  | .write f offset size buffer => (s.writeTmpfs f offset size buffer).map fun (n, s) => (.wrote n, s)
  | .read f offset size buffer => (s.readTmpfs f offset size buffer).map fun (n, buffer, s) =>
    (.got n buffer, s)

end TmpStore

end ChiffOS.Vfs
