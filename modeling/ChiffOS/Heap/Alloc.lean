import ChiffOS.Lib.Bytes
import ChiffOS.Lib.SkipList

/-! The kernel heap of `alloc.c` over `sbrk` of `mem.c`: small bins of one page with a stack of
free cells, big bins in a skip list, and the page-aligned `klvalloc` on top of the big bins. The
memory is a byte array and a pointer is its index. The failing asserts of the source only
print, so they are not part of the model. -/

namespace ChiffOS

def bigBin : ℕ := 10
def numBins : ℕ := 11
def smallestBinLog : ℕ := 2
def pageSize : ℕ := 4096
def skipMaxLevel : ℕ := 6
def binMagic : ℕ := 0xDEFAD00D
def kernelHeapEnd : ℕ := 0x20000000

/-- The static state of `klmalloc_skip_rand`. -/
structure SkipRand where
  x : UInt32 := 123456789
  y : UInt32 := 362436069
  z : UInt32 := 521288629
  w : UInt32 := 88675123
deriving DecidableEq

def SkipRand.skipRand (r : SkipRand) : UInt32 × SkipRand :=
  let t := r.x ^^^ (r.x <<< 11)
  let w := r.w ^^^ (r.w >>> 19) ^^^ t ^^^ (t >>> 8)
  (w, { x := r.y, y := r.z, z := r.w, w := w })

def SkipRand.randomLevel (level : ℕ) : (left : ℕ) → SkipRand → ℕ × SkipRand
  | 0, r => (level, r.skipRand.2)
  | left + 1, r =>
    if r.skipRand.1 < 0x7FFFFFFF then randomLevel (level + 1) left r.skipRand.2 else (level, r.skipRand.2)

def adjustBin (bin : ℕ) : ℕ :=
  if bin ≤ smallestBinLog then 0
  else if bin - (smallestBinLog + 1) > bigBin then bigBin
  else bin - (smallestBinLog + 1)

/-- `klmalloc_bin_size`: the bit length, one more unless the size is a power of two. -/
def binSize (size : ℕ) : ℕ := adjustBin (Nat.size size + if size &&& (size - 1) ≠ 0 then 1 else 0)

def ptr (p : ℕ) : Option ℕ := if p = 0 then none else some p

/-- `heap_end`, the bins and the memory they live in. Both bin headers have `next` at offset 0,
`head` at 4, `size` at 8 and `bin_magic` at 12; a big one has `prev` at 16 and the seven words of
`forward` from 20 on, and its 48 bytes are followed by the block. -/
structure Heap where
  mem : Buf
  heapEnd : ℕ
  binHead : ℕ → ℕ := fun _ => 0
  bigForward : ℕ → ℕ := fun _ => 0
  level : ℕ := 0
  newestBig : ℕ := 0
  rand : SkipRand := {}

namespace Heap

def word (h : Heap) (a : ℕ) : ℕ := h.mem.u32 a

def setWord (h : Heap) (a v : ℕ) : Heap := { h with mem := h.mem.setU32 a v }

def sbrk (h : Heap) (increment : ℕ) : ℕ × Heap :=
  (h.heapEnd, { h with heapEnd := (h.heapEnd + increment) % 2 ^ 32, mem := h.mem.clear h.heapEnd increment })

def listInsert (h : Heap) (bucket node : ℕ) : Heap :=
  let h := h.setWord node (h.binHead bucket)
  { h with binHead := Function.update h.binHead bucket node }

def listDecouple (h : Heap) (bucket node : ℕ) : Heap :=
  let next := h.word node
  { h.setWord node 0 with binHead := Function.update h.binHead bucket next }

def stackPop (h : Heap) (header : ℕ) : ℕ × Heap :=
  let item := h.word (header + 4)
  (item, h.setWord (header + 4) (h.word item))

def stackPush (h : Heap) (header p : ℕ) : Heap :=
  (h.setWord p (h.word (header + 4))).setWord (header + 4) p

def stackEmpty (h : Heap) (header : ℕ) : Bool := h.word (header + 4) = 0

/-- `node->forward[i]`; the place `none` is `klmalloc_big_bins.head`. -/
def forward (h : Heap) (i : ℕ) : Option ℕ → Option ℕ
  | none => ptr (h.bigForward i)
  | some a => ptr (h.word (a + 20 + 4 * i))

def setForward (h : Heap) (i : ℕ) (node target : Option ℕ) : Heap :=
  match node with
  | none => { h with bigForward := Function.update h.bigForward i (target.getD 0) }
  | some a => h.setWord (a + 20 + 4 * i) (target.getD 0)

def size (h : Heap) (a : ℕ) : ℕ := h.word (a + 8)

/-- The search that the three skip list functions start with. No list is longer than `heap_end`,
which bounds the steps of its loops. -/
def skipSearch (h : Heap) (searchSize : ℕ) : Option (Option ℕ × (ℕ → Option ℕ)) :=
  SkipList.descend h.forward h.size searchSize h.heapEnd h.level none fun _ => none

def skipListFindbest (h : Heap) (searchSize : ℕ) : Option (Option ℕ) := do
  let (node, _) ← h.skipSearch searchSize
  some (h.forward 0 node)

/-- The loop of `klmalloc_skip_list_insert` over the levels `0 .. level`. -/
def linkLevels (h : Heap) (value : ℕ) (update : ℕ → Option ℕ) : (level : ℕ) → Heap
  | 0 => link h 0
  | i + 1 => link (linkLevels h value update i) (i + 1)
where
  link (h : Heap) (i : ℕ) : Heap :=
    (h.setForward i (some value) (h.forward i (update i))).setForward i (update i) (some value)

def skipListInsert (h : Heap) (value : ℕ) : Option Heap := do
  let (node, update) ← h.skipSearch (h.size value)
  if h.forward 0 node = some value then some h
  else
    let (level, rand) := h.rand.randomLevel 0 skipMaxLevel
    -- the levels above the current one start at the list head
    let update := fun i => if h.level < i then none else update i
    some ({ h with rand := rand, level := max h.level level }.linkLevels value update level)

/-- The loop of `klmalloc_skip_list_delete` over the levels from `i` on, `left` of them. -/
def unlinkLevels (h : Heap) (value : ℕ) (update : ℕ → Option ℕ) (i : ℕ) : (left : ℕ) → Heap
  | 0 => h
  | left + 1 =>
    if h.forward i (update i) ≠ some value then h
    else (h.setForward i (update i) (h.forward i (some value))).unlinkLevels value update (i + 1) left

/-- `while (klmalloc_big_bins.level > 0 && klmalloc_big_bins.head.forward[level] == NULL) --level`. -/
def lowerLevel (h : Heap) : ℕ → ℕ
  | 0 => 0
  | level + 1 => if h.forward (level + 1) none = none then h.lowerLevel level else level + 1

/-- `while (node != value) node = node->forward[0]`. -/
def skipTo (h : Heap) (value : ℕ) : (fuel : ℕ) → Option ℕ → Option ℕ
  | 0, _ => none
  | _, none => none
  | fuel + 1, some a => if a = value then some a else h.skipTo value fuel (h.forward 0 (some a))

def skipListDelete (h : Heap) (value : ℕ) : Option Heap := do
  let (node, update) ← h.skipSearch (h.size value)
  let node ← h.skipTo value h.heapEnd (h.forward 0 node)
  let h := h.unlinkLevels node update 0 (h.level + 1)
  some { h with level := h.lowerLevel h.level }

def initStack (h : Heap) (base bucket : ℕ) : (n : ℕ) → Heap
  | 0 => h
  | n + 1 => (h.initStack base bucket n).setWord (base + 4 * (n <<< bucket)) (base + 4 * ((n + 1) <<< bucket))

def newBin (h : Heap) (bucket : ℕ) : ℕ × Heap :=
  let (header, h) := h.sbrk pageSize
  let h := h.setWord (header + 12) binMagic
  let h := h.setWord (header + 4) (header + 16)
  let h := h.listInsert bucket header
  let available := ((pageSize - 16) >>> (smallestBinLog + bucket)) - 1
  let h := h.initStack (header + 16) bucket available
  let h := h.setWord (header + 16 + 4 * (available <<< bucket)) 0
  (header, h.setWord (header + 8) bucket)

def takeCell (h : Heap) (bucket header : ℕ) : ℕ × Heap :=
  let (item, h) := h.stackPop header
  (item, if h.stackEmpty header then h.listDecouple bucket header else h)

def klmallocSmall (h : Heap) (bucket : ℕ) : ℕ × Heap :=
  let (header, h) := if h.binHead bucket = 0 then h.newBin bucket else (h.binHead bucket, h)
  h.takeCell bucket header

def bigPages (size : ℕ) : ℕ := (size + 48) % 2 ^ 32 / pageSize + 1

def linkNewest (h : Heap) (header : ℕ) : Heap :=
  let h := h.setWord (header + 16) h.newestBig
  let h := if h.newestBig ≠ 0 then h.setWord h.newestBig header else h
  { h.setWord header 0 with newestBig := header }

def newBig (h : Heap) (size : ℕ) : ℕ × Heap :=
  let pages := bigPages size
  let (header, h) := h.sbrk (pageSize * pages % 2 ^ 32)
  let h := h.setWord (header + 12) binMagic
  let h := h.setWord (header + 8) (pages * pageSize - 48)
  let h := h.linkNewest header
  (header + 48, h.setWord (header + 4) 0)

def klmallocBig (h : Heap) (size : ℕ) : Option (ℕ × Heap) := do
  match ← h.skipListFindbest size with
  | some header =>
    let h ← h.skipListDelete header
    some (h.stackPop header)
  | none => some (h.newBig size)

def klmalloc (h : Heap) (size : ℕ) : Option (ℕ × Heap) :=
  if size = 0 then some (0, h)
  else if binSize size < bigBin then some (h.klmallocSmall (binSize size))
  else h.klmallocBig size

/-- The header that `klfree` finds for a pointer: a page-aligned block is one byte past the page
of its header. -/
def headerOf (p : ℕ) : ℕ := (if p % pageSize = 0 then p - 1 else p) / pageSize * pageSize

def klfree (h : Heap) (p : ℕ) : Option Heap :=
  if p = 0 then some h
  else
    let header := headerOf p
    if h.word (header + 12) ≠ binMagic then some h
    else if h.size header > numBins then (h.stackPush header (header + 48)).skipListInsert header
    else
      let h := if h.stackEmpty header then h.listInsert (h.size header) header else h
      some (h.stackPush header (if p % pageSize = 0 then p - 1 else p))

def klvalloc (h : Heap) (size : ℕ) : Option (ℕ × Heap) := do
  let (result, h) ← h.klmalloc ((size + pageSize - 48) % 2 ^ 32)
  some ((result + (pageSize - 48)) % 2 ^ 32, h)

def klcalloc (h : Heap) (nmemb size : ℕ) : Option (ℕ × Heap) := do
  let (p, h) ← h.klmalloc (nmemb * size % 2 ^ 32)
  some (p, if p ≠ 0 then { h with mem := h.mem.clear p (nmemb * size % 2 ^ 32) } else h)

def free (h : Heap) (kernelEnd p : ℕ) : Option Heap := if p > kernelEnd then h.klfree p else some h

def oldSize (h : Heap) (p : ℕ) : ℕ :=
  let s := h.size (p / pageSize * pageSize)
  if s < bigBin then 1 <<< (smallestBinLog + s) else s

def klrealloc (h : Heap) (kernelEnd p size : ℕ) : Option (ℕ × Heap) :=
  if p = 0 then h.klmalloc size
  else if size = 0 then do
    let h ← h.free kernelEnd p
    some (0, h)
  else if h.oldSize p ≥ size then some (p, h)
  else do
    let old := h.oldSize p
    let (newptr, h) ← h.klmalloc size
    if newptr = 0 then some (0, h)
    else
      let h ← { h with mem := h.mem.blit newptr (h.mem.drop p) old }.klfree p
      some (newptr, h)

end Heap
end ChiffOS
