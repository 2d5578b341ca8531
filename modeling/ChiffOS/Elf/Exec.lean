import ChiffOS.Lib.Bytes
import ChiffOS.Mem.Directory

/-! The loader of programs: `exec_elf` of `elf.c`, with `release_directory_for_exec` of `task/proc.c`. Of
the fields of the task only its `image` is kept. A store to a page that is not present ends in the page
fault handler, which does not return. -/

namespace ChiffOS.Mem.Mmu

/-- The `USER_STACK_BOTTOM` of `task/proc.c`. -/
def execStackBottom : ℕ := 0xAFF00000

def releaseTableForExec (dir : ℕ) (s : Mmu) (i : ℕ) : Mmu :=
  let table := (s.dirs dir).tables i
  if table = 0 ∨ table = 0xFFFFFFFF then s
  else if (s.dirs s.kernelDirectory).tables i ≠ table then
    if i * 0x10 * 1024 % 2 ^ 32 < execStackBottom
      then ((List.range 1024).foldl (releasePage table) s).setTable dir i 0 0 else s
  else s

/-- The memory of the tables goes back to the heap. -/
def releaseDirectoryForExec (s : Mmu) (dir : ℕ) : Mmu := (List.range 1024).foldl (releaseTableForExec dir) s

def allocPage (s : Mmu) (dir address : ℕ) : Mmu :=
  match s.getPage address true dir with
  | (some (table, j), s) =>
    let r := s.map.allocFrame (s.tables table j) 0 1
    { s.setPage table j r.1 with map := r.2 }
  | (none, s) => s

/-- The loops over pages, `for (i = start; i < stop; i += 0x1000)`; `none` if there is no end. -/
def allocRange (dir stop : ℕ) : (fuel : ℕ) → (i : ℕ) → Mmu → Option Mmu
  | 0, _, _ => none
  | fuel + 1, i, s => if i < stop then allocRange dir stop fuel ((i + 0x1000) % 2 ^ 32) (s.allocPage dir i)
    else some s

def Present (s : Mmu) (dir n : ℕ) : Prop :=
  (s.dirs dir).tables (n / 1024) ≠ 0 ∧ (s.page dir (n / 1024, n % 1024)).present = true

instance (s : Mmu) (dir n : ℕ) : Decidable (s.Present dir n) := inferInstanceAs (Decidable (_ ∧ _))

def store (s : Mmu) (dir address : ℕ) (b : UInt8) : Option Mmu :=
  let n := address / 0x1000
  if s.Present dir n then
    let frame := (s.page dir (n / 1024, n % 1024)).frame
    some { s with memory :=
      Function.update s.memory frame (Function.update (s.memory frame) (address % 0x1000) b) }
  else none

def storeBytes (dir : ℕ) : (address : ℕ) → List UInt8 → Mmu → Option Mmu
  | _, [], s => some s
  | address, b :: bs, s => do
    let s ← s.store dir address b
    storeBytes dir ((address + 1) % 2 ^ 32) bs s

end ChiffOS.Mem.Mmu

namespace ChiffOS.Elf

open Mem Option

def ptLoad : ℕ := 1
def ptDynamic : ℕ := 2
def userStackBottom : ℕ := 0x190000
def userStackTop : ℕ := 0x190000
def shmStart : ℕ := 0x190000

/-- More rounds than a loop can make that goes through the addresses once. -/
def rounds : ℕ := 2 ^ 32

/-- The fields of `Elf32_Phdr` that are used. -/
structure Phdr where
  pType : ℕ
  pOffset : ℕ
  pVaddr : ℕ
  pFilesz : ℕ
  pMemsz : ℕ
deriving DecidableEq

def Phdr.parse (b : Buf) : Phdr := ⟨b.u32 0, b.u32 4, b.u32 8, b.u32 16, b.u32 20⟩

/-- The file system that a file is in. -/
inductive Driver where
  | ext2 (blockSize : ℕ)
  | tmpfs
deriving DecidableEq

def Driver.blockSize : Driver → ℕ
  | .ext2 blockSize => blockSize
  | .tmpfs => 0x1000

structure RawFile where
  driver : Driver
  length : ℕ
  bytes : Buf

namespace RawFile

/-- The end of a range in the file, as `read_ext2` and `read_tmpfs` compute it. -/
def stop (file : RawFile) (offset size : ℕ) : ℕ :=
  if (offset + size) % 2 ^ 32 > file.length then file.length else (offset + size) % 2 ^ 32

/-- What `read_fs` copies: how far in front of the buffer, and the bytes. Where the range ends before it
begins, these are the first bytes of the block where it ends; if it begins in that block, the size of the
copy is negative, and the copy does not come to an end. -/
def read (file : RawFile) (offset size : ℕ) : Option (ℕ × List UInt8) :=
  let stop := file.stop offset size
  let block := file.driver.blockSize
  if offset ≤ stop then some (0, (List.range (stop - offset)).map fun i => file.bytes (offset + i))
  else if file.driver ≠ .tmpfs ∧ file.length = 0 then some (0, [])
  else if offset / block = stop / block then none
  else some (offset % block, (List.range (stop % block)).map fun i => file.bytes (stop / block * block + i))

end RawFile

/-- A file with its whole header, and the whole of each program header. -/
structure ElfFile extends RawFile where
  header : 52 ≤ length
  programHeaders : ∀ k < bytes.u16 44, bytes.u16 42 ≠ 0 → bytes.u32 28 + k * bytes.u16 42 + 32 ≤ length
  length_lt : length < 2 ^ 32

namespace ElfFile

def eEntry (file : ElfFile) : ℕ := file.bytes.u32 24
def ePhoff (file : ElfFile) : ℕ := file.bytes.u32 28
def ePhentsize (file : ElfFile) : ℕ := file.bytes.u16 42
def ePhnum (file : ElfFile) : ℕ := file.bytes.u16 44

def Magic (file : ElfFile) : Prop :=
  file.bytes 0 = 0x7f ∧ file.bytes 1 = 0x45 ∧ file.bytes 2 = 0x4c ∧ file.bytes 3 = 0x46

instance (file : ElfFile) : Decidable file.Magic := inferInstanceAs (Decidable (_ ∧ _))

/-- The headers in the order of the loops; with entries of size 0 they make no round. -/
def phdrs (file : ElfFile) : List Phdr :=
  (List.range (if file.ePhentsize = 0 then 0 else file.ePhnum)).map fun k =>
    Phdr.parse (file.bytes.drop (file.ePhoff + k * file.ePhentsize))

end ElfFile

def imageBounds (phdrs : List Phdr) : ℕ × ℕ :=
  phdrs.foldl (fun (baseAddr, endAddr) ph =>
    if ph.pType = ptLoad then
      (if ph.pVaddr < baseAddr then ph.pVaddr else baseAddr,
        if (ph.pMemsz + ph.pVaddr) % 2 ^ 32 > endAddr then (ph.pMemsz + ph.pVaddr) % 2 ^ 32 else endAddr)
    else (baseAddr, endAddr)) (0xFFFFFFFF, 0)

def inFront (address before : ℕ) : ℕ := (((address : ℤ) - before) % 2 ^ 32).toNat

def copySegment (file : RawFile) (dir : ℕ) (ph : Phdr) (s : Mmu) : Option Mmu := do
  let (before, bs) ← file.read ph.pOffset ph.pFilesz
  let s ← s.storeBytes dir (inFront ph.pVaddr before) bs
  s.storeBytes dir ((ph.pVaddr + ph.pFilesz) % 2 ^ 32) (List.replicate (ph.pMemsz - ph.pFilesz) 0)

/-- The segments that are copied, each with the memory as it is before its copy, and the memory at the end;
`none` if the end is not reached. -/
def loadSegments (file : RawFile) (dir : ℕ) : List Phdr → Mmu → List (Phdr × Mmu) × Option Mmu
  | [], s => ([], some s)
  | ph :: phs, s =>
    if ph.pType = ptLoad then
      match s.allocRange dir ((ph.pVaddr + ph.pMemsz) % 2 ^ 32) rounds ph.pVaddr with
      | none => ([], none)
      | some s =>
        match copySegment file dir ph s with
        | none => ([(ph, s)], none)
        | some s' =>
          let (copies, last) := loadSegments file dir phs s'
          ((ph, s) :: copies, last)
    else loadSegments file dir phs s

structure Image where
  entry : ℕ
  size : ℕ
  heap : ℕ
  heapActual : ℕ
  userStack : ℕ
  shmHeap : ℕ
  start : ℕ
deriving DecidableEq

def pageUp (heap : ℕ) : ℕ := if heap % 0x1000 = 0 then heap else (heap + (0x1000 - heap % 0x1000)) % 2 ^ 32

def placeStrings (dir table : ℕ) : List (List UInt8) → ℕ → Mmu → Option (ℕ × Mmu)
  | [], heap, s => some (heap, s)
  | string :: strings, heap, s => do
    let size := string.length + 1
    let s ← s.allocRange dir ((heap + size + 0x1000) % 2 ^ 32) rounds heap
    let s ← s.storeBytes dir table (Buf.bytesOf heap |> fun b => [b 0, b 1, b 2, b 3])
    let s ← s.storeBytes dir heap (string ++ [0])
    placeStrings dir ((table + 4) % 2 ^ 32) strings ((heap + size) % 2 ^ 32) s

def auxv : List UInt8 := [0, 1, 0, 0, 0xEF, 0xBE, 0xAD, 0xDE, 0, 0, 0, 0, 0, 0, 0, 0]

def placeArguments (dir : ℕ) (argv env : List (List UInt8)) (image : Image) (s : Mmu) : Option
    (ℕ × ℕ × Mmu) := do
  let heap := pageUp ((image.entry + image.size) % 2 ^ 32)
  let s := s.allocPage dir heap
  let argv_ := heap
  let env_ := (argv_ + 4 * (argv.length + 1)) % 2 ^ 32
  let auxvPtr := (env_ + 4 * (env.length + 1)) % 2 ^ 32
  let heap := (auxvPtr + 16) % 2 ^ 32
  let (heap, s) ← placeStrings dir argv_ argv heap s
  let s ← s.storeBytes dir ((argv_ + 4 * argv.length) % 2 ^ 32) [0, 0, 0, 0]
  let (heap, s) ← placeStrings dir env_ env heap s
  let s ← s.storeBytes dir ((env_ + 4 * env.length) % 2 ^ 32) [0, 0, 0, 0]
  let s ← s.storeBytes dir auxvPtr auxv
  return (argv_, heap, s)

/-- What is handed to `enter_user_jmp`. -/
structure Entered where
  image : Image
  argv : ℕ
  memory : Mmu

def enterImage (dir entry : ℕ) (argv env : List (List UInt8)) (image : Image) (s : Mmu) : Option Entered := do
  let s ← s.allocRange dir userStackTop rounds userStackBottom
  let image := { image with entry := 0, heap := 0, heapActual := 0, userStack := 0, size := 0, shmHeap :=
    shmStart }
  let (argv_, heap, s) ← placeArguments dir argv env image s
  let heapActual := (heap + (0x1000 - heap % 0x1000)) % 2 ^ 32
  let s := s.allocPage dir heapActual
  return ⟨{ image with heap := heap, heapActual := heapActual, userStack := userStackTop, start := entry },
    argv_, s⟩

def interpreterArgs (name : List UInt8) (argv : List (List UInt8)) : List (List UInt8) :=
  [0x6c, 0x64, 0x2e, 0x73, 0x6f] :: [0x2d, 0x65] :: name :: argv

def ElfFile.Dynamic (file : ElfFile) : Prop := ∃ ph ∈ file.phdrs, ph.pType = ptDynamic

instance (file : ElfFile) : Decidable file.Dynamic := inferInstanceAs (Decidable (∃ ph ∈ file.phdrs, _))

def execElf (ldSo : Option ElfFile) (name : List UInt8) (env : List (List UInt8)) (dir : ℕ) (image : Image)
    (s : Mmu) :
    (fuel : ℕ) → ElfFile → (argv : List (List UInt8)) → Option (Option Entered)
  | 0, _, _ => none
  | fuel + 1, file, argv =>
    if ¬ file.Magic then some none
    else if file.Dynamic then
      match ldSo with
      | none => some none
      | some interpreter => execElf ldSo name env dir image s fuel interpreter (interpreterArgs name argv)
    else do
      let (baseAddr, endAddr) := imageBounds file.phdrs
      let image := { image with entry := baseAddr, size := (endAddr + 2 ^ 32 - baseAddr) % 2 ^ 32 }
      let s ← (loadSegments file.toRawFile dir file.phdrs (s.releaseDirectoryForExec dir)).2
      let e ← enterImage dir file.eEntry argv env image s
      return some e

/-! ### Where the heap is -/

def ElfFile.loads (file : ElfFile) : List Phdr := file.phdrs.filter (·.pType = ptLoad)

/-- The entry is the lowest address of the segments, and the arguments and the heap are behind the last page
of all of them. -/
structure AboveImage (phs : List Phdr) (e : Entered) : Prop where
  entry_mem : ∃ ph ∈ phs, ph.pVaddr = e.image.entry
  entry_le : ∀ ph ∈ phs, e.image.entry ≤ ph.pVaddr
  argv : ∀ ph ∈ phs, (ph.pVaddr + ph.pMemsz + 0xFFF) / 0x1000 * 0x1000 ≤ e.argv
  heap : ∀ ph ∈ phs, (ph.pVaddr + ph.pMemsz + 0xFFF) / 0x1000 * 0x1000 ≤ e.image.heap

theorem placeArguments_argv {dir : ℕ} {argv env : List (List UInt8)} {image : Image} {s : Mmu}
    {r : ℕ × ℕ × Mmu}
    (h : placeArguments dir argv env image s = some r) : r.1 =
      pageUp ((image.entry + image.size) % 2 ^ 32) := by
  unfold placeArguments at h
  obtain ⟨_, _, h⟩ := bind_eq_some_iff.mp h
  obtain ⟨_, _, h⟩ := bind_eq_some_iff.mp h
  obtain ⟨_, _, h⟩ := bind_eq_some_iff.mp h
  obtain ⟨_, _, h⟩ := bind_eq_some_iff.mp h
  obtain ⟨_, _, h⟩ := bind_eq_some_iff.mp h
  obtain rfl := some.inj h
  rfl

theorem enterImage_zero {dir entry : ℕ} {argv env : List (List UInt8)} {image : Image} {s : Mmu} {e : Entered}
    (h : enterImage dir entry argv env image s = some e) : e.image.entry = 0 ∧ e.argv = 0 := by
  unfold enterImage at h
  obtain ⟨_, _, h⟩ := bind_eq_some_iff.mp h
  obtain ⟨_, hargs, h⟩ := bind_eq_some_iff.mp h
  obtain rfl := some.inj h
  exact ⟨rfl, placeArguments_argv hargs⟩

theorem execElf_zero {ldSo : Option ElfFile} {name : List UInt8} {env : List (List UInt8)} {dir : ℕ}
    {image : Image} {s : Mmu}
    {e : Entered} (fuel : ℕ) : ∀ (file : ElfFile) (argv : List (List UInt8)),
      execElf ldSo name env dir image s fuel file argv = some (some e) → e.image.entry = 0 ∧ e.argv = 0 := by
  induction fuel with
  | zero =>
    intro file argv h
    exact absurd h (by simp [execElf])
  | succ fuel ih =>
    intro file argv h
    rw [execElf.eq_def] at h
    dsimp only at h
    split_ifs at h with hm hd
    · cases ldSo with
      | none => exact absurd (some.inj h) (by simp)
      | some interpreter => exact ih interpreter (interpreterArgs name argv) h
    · obtain ⟨_, _, h⟩ := bind_eq_some_iff.mp h
      obtain ⟨_, henter, h⟩ := bind_eq_some_iff.mp h
      obtain rfl := some.inj (some.inj h)
      exact enterImage_zero henter
    · exact absurd (some.inj h) (by simp)

def fileBytes (vaddr memsz : ℕ) : Buf :=
  ((((((((Buf.setU32 (fun _ => 0) 0 0x464c457f).setU32 24 vaddr).setU32 28 52).setU16 42 32).setU16 44
    1).setU32 52 ptLoad).setU32 60
    vaddr).setU32 72 memsz)

def oneSegment (vaddr memsz : ℕ) : ElfFile where
  driver := .ext2 1024
  length := 200
  bytes := fileBytes vaddr memsz
  header := by decide
  programHeaders := by
    have h28 : (fileBytes vaddr memsz).u32 28 = 52 := by
      simp [fileBytes, Buf.u32_setU32_ne, Buf.u32_setU16_ne, Buf.u32_setU32]
    have h42 : (fileBytes vaddr memsz).u16 42 = 32 := by
      simp [fileBytes, Buf.u16_setU32_ne, Buf.u16_setU16_ne, Buf.u16_setU16]
    have h44 : (fileBytes vaddr memsz).u16 44 = 1 := by simp [fileBytes, Buf.u16_setU32_ne, Buf.u16_setU16]
    rw [h28, h42, h44]
    intro k hk _
    omega
  length_lt := by decide

def emptyMmu : Mmu where
  map := ⟨64, fun i => if i = 0 then 1#32 else 0#32⟩
  dirs _ := Directory.zero
  tables _ _ := Page.zero
  memory _ _ := 0
  kernelDirectory := 1
  heap n := (100 + n, n * 0x1000)
  calls := 0

theorem releaseDirectoryForExec_emptyMmu : emptyMmu.releaseDirectoryForExec 2 = emptyMmu := by
  have hstep : ∀ i, Mmu.releaseTableForExec 2 emptyMmu i = emptyMmu := fun i => rfl
  have hall : ∀ is : List ℕ, is.foldl (Mmu.releaseTableForExec 2) emptyMmu = emptyMmu := by
    intro is
    induction is with
    | nil => rfl
    | cons i is ih => rw [List.foldl_cons, hstep, ih]
  exact hall _

def runImage (file : ElfFile) : Option Entered :=
  (loadSegments file.toRawFile 2 file.phdrs emptyMmu).2.bind
    (enterImage 2 file.eEntry [] [] ⟨0, 0, 0, 0, 0, 0, 0⟩)

theorem execElf_emptyMmu {file : ElfFile} (hm : file.Magic) (hd : ¬ file.Dynamic) :
    execElf none [] [] 2 ⟨0, 0, 0, 0, 0, 0, 0⟩ emptyMmu 1 file [] = (runImage file).map some := by
  rw [execElf.eq_def]
  simp only [if_neg (not_not.mpr hm), if_neg hd, releaseDirectoryForExec_emptyMmu, runImage]
  cases (loadSegments file.toRawFile 2 file.phdrs emptyMmu).2 with
  | none => rfl
  | some s =>
    rw [bind_eq_bind, bind_some, bind_some]
    exact (map_eq_bind).symm

end ChiffOS.Elf
