import ChiffOS.Lib.Bytes

/-! The mounted file system object of `ext2.c` and its block layer: the write-back cache with
least recently used eviction in front of the block device. The device is a byte array
behind `read_fs` and `write_fs`, whose offsets are 32-bit. -/

namespace ChiffOS.Ext2

inductive Err where
  | success | badBlock | noSpace | badParent
deriving DecidableEq, Repr

def uint32Max : ℕ := 0xFFFFFFFF

structure CacheEntry where
  blockNo : ℕ
  lastUse : ℕ
  dirty : Bool
  block : Buf

/-- The part of `ext2_fs_t` that the code above the block layer reads and writes. -/
structure Mem where
  superblock : Buf
  blockGroups : Buf
  blockSize : ℕ
  pointersPerBlock : ℕ
  inodesPerGroup : ℕ
  blockGroupCount : ℕ
  bgdBlockSpan : ℕ
  bgdOffset : ℕ
  inodeSize : ℕ

/-- `ext2_fs_t` with its device. `diskCache` is `none` for the null pointer of a file system
mounted with `nocache`; `heap` is what the coming calls of `malloc` find in their buffers. -/
structure Fs extends Mem where
  blockDevice : Buf
  diskCache : Option (List CacheEntry)
  cacheTime : ℕ
  heap : ℕ → Buf

def readFs (dev : Buf) (offset size : ℕ) (buffer : Buf) : Buf := buffer.blit 0 (dev.drop offset) size

def writeFs (dev : Buf) (offset size : ℕ) (buffer : Buf) : Buf := dev.blit offset buffer size

def blockOffset (blockSize blockNo : ℕ) : ℕ := blockNo * blockSize % 2 ^ 32

namespace Fs

def setEntry (fs : Fs) (entNo : ℕ) (e : CacheEntry) : Fs :=
  { fs with diskCache := fs.diskCache.map (·.set entNo e) }

def getCacheTime (fs : Fs) : ℕ × Fs :=
  (fs.cacheTime, { fs with cacheTime := (fs.cacheTime + 1) % 2 ^ 32 })

def cacheFlushDirty (fs : Fs) (entNo : ℕ) (e : CacheEntry) : Fs :=
  { fs with blockDevice := writeFs fs.blockDevice (blockOffset fs.blockSize e.blockNo) fs.blockSize e.block }
    |>.setEntry entNo { e with dirty := false }

def rewriteSuperblock (fs : Fs) : Fs :=
  { fs with blockDevice := writeFs fs.blockDevice 1024 1024 fs.superblock }

/-- The search loop of `read_block` and `write_block`: the entry that holds the block, or the
entry to evict, which is missing (`oldest = -1`) when no entry is older than `UINT32_MAX`. -/
def cacheScan (blockNo : ℕ) : List CacheEntry → (i : ℕ) → (oldest : Option ℕ) → (oldestAge : ℕ) → ℕ ⊕ Option ℕ
  | [], _, oldest, _ => .inr oldest
  | e :: es, i, oldest, oldestAge =>
    if e.blockNo = blockNo then .inl i
    else if e.lastUse < oldestAge then cacheScan blockNo es (i + 1) (some i) e.lastUse
    else cacheScan blockNo es (i + 1) oldest oldestAge

def makeRoom (fs : Fs) (oldest : ℕ) (e : CacheEntry) : Fs :=
  if e.dirty then fs.cacheFlushDirty oldest e else fs

/-- The result is the return value and the contents of `buf` afterwards; `none` is the access
to `DC[-1]`. -/
def readBlock (fs : Fs) (blockNo : ℕ) (buf : Buf) : Option ((Err × Buf) × Fs) :=
  if blockNo = 0 then some ((.badBlock, buf), fs)
  else match fs.diskCache with
  | none =>
    some ((.success, readFs fs.blockDevice (blockOffset fs.blockSize blockNo) fs.blockSize buf), fs)
  | some dc =>
    match cacheScan blockNo dc 0 none uint32Max with
    | .inl i => do
      let e ← dc[i]?
      let (now, fs) := fs.getCacheTime
      some ((.success, buf.blit 0 e.block fs.blockSize), fs.setEntry i { e with lastUse := now })
    | .inr oldest => do
      let oldest ← oldest
      let e ← dc[oldest]?
      let fs := fs.makeRoom oldest e
      let block := readFs fs.blockDevice (blockOffset fs.blockSize blockNo) fs.blockSize e.block
      let (now, fs) := fs.getCacheTime
      some ((.success, buf.blit 0 block fs.blockSize),
        fs.setEntry oldest { blockNo := blockNo, lastUse := now, dirty := false, block := block })

def writeBlock (fs : Fs) (blockNo : ℕ) (buf : Buf) : Option (Err × Fs) :=
  if blockNo = 0 then some (.badBlock, fs)
  else match fs.diskCache with
  | none =>
    let dev := writeFs fs.blockDevice (blockOffset fs.blockSize blockNo) fs.blockSize buf
    some (.success, { fs with blockDevice := dev })
  | some dc =>
    match cacheScan blockNo dc 0 none uint32Max with
    | .inl i => do
      let e ← dc[i]?
      let (now, fs) := fs.getCacheTime
      some (.success, fs.setEntry i
        { e with lastUse := now, dirty := true, block := e.block.blit 0 buf fs.blockSize })
    | .inr oldest => do
      let oldest ← oldest
      let e ← dc[oldest]?
      let fs := fs.makeRoom oldest e
      let (now, fs) := fs.getCacheTime
      some (.success, fs.setEntry oldest
        { blockNo := blockNo, lastUse := now, dirty := true, block := e.block.blit 0 buf fs.blockSize })

/-- The loop of `ext2_sync` over the entries, in order. -/
def syncEntries (blockSize : ℕ) : List CacheEntry → Buf → List CacheEntry × Buf
  | [], dev => ([], dev)
  | e :: es, dev =>
    if e.dirty then
      let r := syncEntries blockSize es (writeFs dev (blockOffset blockSize e.blockNo) blockSize e.block)
      ({ e with dirty := false } :: r.1, r.2)
    else
      let r := syncEntries blockSize es dev
      (e :: r.1, r.2)

def ext2Sync (fs : Fs) : Fs :=
  match fs.diskCache with
  | none => fs
  | some dc =>
    let r := syncEntries fs.blockSize dc fs.blockDevice
    { fs with diskCache := some r.1, blockDevice := r.2 }

/-- The cache as `mount_ext2` builds it: entries for block 0, clean, never used, over
zero-filled memory. -/
def emptyCache (cacheEntries : ℕ) : List CacheEntry :=
  List.replicate cacheEntries { blockNo := 0, lastUse := 0, dirty := false, block := fun _ => 0 }

/-- The file system without its cache, as with `nocache`. -/
def uncached (fs : Fs) : Fs := { fs with diskCache := none }

end Fs

/-- A call into the block layer. -/
inductive Req where
  | read (blockNo : ℕ) (buf : Buf)
  | write (blockNo : ℕ) (buf : Buf)
  | sync

/-- What a call gives back: the return code, and for a read the buffer. -/
inductive Reply where
  | read (r : Err) (buf : Buf)
  | write (r : Err)
  | sync

def Fs.serve (fs : Fs) : Req → Option (Reply × Fs)
  | .read b buf => (fs.readBlock b buf).map fun r => (.read r.1.1 r.1.2, r.2)
  | .write b buf => (fs.writeBlock b buf).map fun r => (.write r.1, r.2)
  | .sync => some (.sync, fs.ext2Sync)

def Fs.serveAll (fs : Fs) : List Req → Option (List Reply × Fs)
  | [] => some ([], fs)
  | r :: rs => do
    let (a, fs) ← fs.serve r
    let (as, fs) ← fs.serveAll rs
    some (a :: as, fs)

end ChiffOS.Ext2
