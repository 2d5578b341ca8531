import ChiffOS.Mem.Frames

/-! Page directories of `mem.c`: the tables and directories live in the kernel heap under their
addresses, physical memory is a page of bytes for each frame. -/

namespace ChiffOS.Mem

open Function List

structure Directory where
  tables : ℕ → ℕ
  physicalTables : ℕ → ℕ
  physicalAddress : ℕ
  refCount : ℕ

def Directory.zero : Directory := ⟨fun _ => 0, fun _ => 0, 0, 0⟩

/-- `heap` are the addresses, virtual and physical, that the calls of `kvmalloc_p` return. -/
structure Mmu where
  map : Frames
  dirs : ℕ → Directory
  tables : ℕ → ℕ → Page
  memory : ℕ → ℕ → UInt8
  kernelDirectory : ℕ
  heap : ℕ → ℕ × ℕ
  calls : ℕ

namespace Mmu

def kvmallocP (s : Mmu) : (ℕ × ℕ) × Mmu := (s.heap s.calls, { s with calls := s.calls + 1 })

def setPage (s : Mmu) (table i : ℕ) (page : Page) : Mmu :=
  { s with tables := update s.tables table (update (s.tables table) i page) }

def setTable (s : Mmu) (dir i table phys : ℕ) : Mmu :=
  let d := s.dirs dir
  { s with dirs := update s.dirs dir { d with
      tables := update d.tables i table
      physicalTables := update d.physicalTables i phys } }

def getPage (s : Mmu) (address : ℕ) (make : Bool) (dir : ℕ) : Option (ℕ × ℕ) × Mmu :=
  let address := address / 0x1000
  let tableIndex := address / 1024
  if (s.dirs dir).tables tableIndex ≠ 0 then (some ((s.dirs dir).tables tableIndex, address % 1024), s)
  else if make then
    let r := s.kvmallocP
    let s := { r.2 with tables := update r.2.tables r.1.1 fun _ => Page.zero }
    (some (r.1.1, address % 1024), s.setTable dir tableIndex r.1.1 (r.1.2 ||| 0x7))
  else (none, s)

def releasePage (table : ℕ) (s : Mmu) (j : ℕ) : Mmu :=
  if (s.tables table j).frame ≠ 0 then
    let r := s.map.freeFrame (s.tables table j)
    { s.setPage table j r.1 with map := r.2 }
  else s

def Kernel (s : Mmu) (src i : ℕ) : Prop := (s.dirs s.kernelDirectory).tables i = (s.dirs src).tables i

def page (s : Mmu) (dir : ℕ) (p : ℕ × ℕ) : Page := s.tables ((s.dirs dir).tables p.1) p.2

end Mmu

end ChiffOS.Mem
