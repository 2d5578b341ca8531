import ChiffOS.Ext2.FileSpec
import ChiffOS.Ext2.AllocRuns

/-! A write to a file of the mounted file system, and the reads after it. -/

namespace ChiffOS.Ext2

open Buf Prog

/-- A block that may be in use: neither block 0 nor the superblock's. -/
def Mem.Proper (m : Mem) (b : ℕ) : Prop := b ≠ 0 ∧ b ≠ 1024 / m.blockSize

/-- A write of `size` bytes at `offset` to the regular file `n` of a well-formed volume that has the
blocks for it. Behind its end the file's blocks hold zeros. -/
structure Writable (I : ℕ → Prop) (d : Disk) (n offset size : ℕ) : Prop where
  wf : WellFormed d.Proper I d
  inode : I n
  found : ¬ d.inodesPerGroup ∣ n
  regular : Regular (d.record n)
  tail : ∀ pos, d.fileLength n ≤ pos → d.fileByte n pos = 0
  range : offset + size < 2 ^ 32
  map : d.lastBlock offset size < 12 + d.pointersPerBlock + d.pointersPerBlock * d.pointersPerBlock
  room : d.need n (d.lastBlock offset size) ≤ d.freeBlocks

/-- No block in use and no free block lies beyond 4 GiB, where the device offset wraps. -/
structure Below (I : ℕ → Prop) (d : Disk) : Prop where
  used : ∀ r : Ref, r.Live I d → (r.block d + 1) * d.blockSize ≤ 2 ^ 32
  free : ∀ b, d.FreeBlock b → (b + 1) * d.blockSize ≤ 2 ^ 32

def Disk.written (d : Disk) (n offset size : ℕ) (buffer : Buf) (pos : ℕ) : UInt8 :=
  if offset ≤ pos ∧ pos < offset + size then buffer (pos - offset)
  else if pos < d.fileLength n then d.fileByte n pos else 0

/-- The write returns, the length covers the range, every read inside the file gives the new bytes in
the range and the old ones or zeros outside it, and the other files are as before. -/
def WriteThenRead (I : ℕ → Prop) (fs : Fs) (n offset size : ℕ) (buffer : Buf) : Prop :=
  ∃ fs', (writeExt2 n offset size buffer).run fsHandler fs = some (size, fs') ∧
    fs'.disk.fileLength n = max (fs.disk.fileLength n) (offset + size) ∧
    (∀ start count readBuffer, start + count ≤ fs'.disk.fileLength n → ∃ out fs'',
      (readExt2 n start count readBuffer).run fsHandler fs' = some ((count, out), fs'') ∧
      ∀ i < count, out i = fs.disk.written n offset size buffer (start + i)) ∧
    ∀ m, I m → m ≠ n → SameFile fs.disk fs'.disk m

variable {S I : ℕ → Prop}

theorem WellFormed.usable {d : Disk} (hw : WellFormed d.Proper I d) (hb : Below I d) :
    WellFormed d.Usable I d :=
  { hw with
    mem := fun r hr => ⟨(hw.mem r hr).1, (hw.mem r hr).2, hb.used r hr⟩
    free_mem := fun b h => ⟨(hw.free_mem b h).1, (hw.free_mem b h).2, hb.free b h⟩ }

/-- The files of the volume are those that the object shows. -/
theorem Fs.Shows.sameFile {fs : Fs} {v : Vol} (h : fs.Shows v) (hw : WellFormed S I v.toDisk)
    (hS : ∀ b, S b → v.Usable b) {m : ℕ} (hm : I m) : SameFile v.toDisk fs.disk m := by
  have hs : v.SameShape fs.disk.toMem := by
    rw [show fs.disk.toMem = v.toMem from h.mem.symm]
    exact .refl _
  have hkeep : ∀ r : Ref, r.Live I v.toDisk → fs.disk.blocks (r.block v.toDisk) =
    v.blocks (r.block v.toDisk) :=
    fun r hr => (h.block _ ((h.usable_iff _).mp (hS _ (hw.mem r hr)))).symm
  have hu : Untouched v.toDisk fs.disk m := by
    refine ⟨fun i _ _ => ?_, fun k hk => hkeep (.node m k) ⟨hm, hk⟩, fun l hl => hkeep (.data m l) ⟨hm, hl⟩⟩
    unfold Disk.record
    rw [hs.recordBlock, hs.recordByte]
    exact congrFun (hkeep (v.recordRef m) (hw.recordRef_live hm)) _
  exact hu.sameFile hs hw.geometry.inode_ge

theorem SameFile.fileLength {d d' : Disk} {n : ℕ} (h : SameFile d d' n) (hz : 128 ≤ d.inodeSize) :
    d'.fileLength n = d.fileLength n := inodeLength_congr h.record hz

theorem Ref.Live.direct {d : Disk} {r : Ref} (h : r.Live I d) (hb : ∀ n, I n → d.fileBlocks n ≤ 12)
    (hp : ∀ n, I n → Regular (d.record n) → ∀ i < 15, 12 ≤ i → inodeBlock (d.record n) i = 0) :
    (∃ x, r = .table x ∧ x.Live d.toMem) ∨ ∃ n l, r = .data n l ∧ I n ∧ l < d.fileBlocks n := by
  cases r with
  | table x => exact .inl ⟨x, rfl, h⟩
  | data n l => exact .inr ⟨n, l, rfl, h⟩
  | node n k =>
    rcases h.2 with ⟨l, hl, hk⟩ | ⟨hreg, hk⟩
    · rw [spine_direct (by have := hb n h.1; omega)] at hk
      simp at hk
    · exact absurd hk (Node.not_set (hp n h.1 hreg) k)

theorem need_direct {d : Disk} {n L : ℕ} (hL : L < 12) : d.need n L = L + 1 - d.fileBlocks n := by
  simp [Disk.need, Disk.missing, nodesTo_direct hL]

/-- The uses of blocks, in a list, on a volume with the inodes up to `N` and no pointer blocks. -/
def Disk.refs (d : Disk) (N : ℕ) : List Ref :=
  d.metas.map .table ++ (List.range (N + 1)).flatMap fun n => (List.range (d.fileBlocks n)).map (.data n)

theorem wellFormed_of_refs {S : ℕ → Prop} {d : Disk} {N : ℕ} (hg : d.Geometry)
    (hN : N ≤ d.blockGroupCount * d.inodesPerGroup)
    (hdirect : ∀ n ≤ N, d.fileBlocks n ≤ 12 ∧ ∀ i < 15, 12 ≤ i → inodeBlock (d.record n) i = 0)
    (hmem : ∀ r ∈ d.refs N, S (r.block d)) (hinj : ((d.refs N).map (Ref.block d)).Nodup)
    (hfree : ∀ b, d.FreeBlock b → S b ∧ ∀ r ∈ d.refs N, r.block d ≠ b) (hc : Pool.blocks.Counted d) :
    WellFormed S (fun n => 1 ≤ n ∧ n ≤ N) d := by
  have hrefs : ∀ r : Ref, r.Live (fun n => 1 ≤ n ∧ n ≤ N) d → r ∈ d.refs N := by
    intro r hr
    have hpos : 0 < d.blockSize := by
      obtain ⟨k, -, hk⟩ := hg.size
      rw [hk, Nat.shiftLeft_eq]
      positivity
    rcases hr.direct (fun n hn => (hdirect n hn.2).1) fun n hn _ =>
      (hdirect n hn.2).2 with ⟨x, rfl, hx⟩ | ⟨n, l, rfl, hn, hl⟩
    · simpa [Disk.refs] using hx.mem_metas hpos
    · simpa [Disk.refs] using ⟨hn.2, hl⟩
  exact ⟨hg, fun n hn => ⟨hn.1, hn.2.trans hN⟩, fun r hr => hmem r (hrefs r hr),
    fun r s hr hs he => List.inj_on_of_nodup_map hinj (hrefs r hr) (hrefs s hs) he, fun b hb =>
      (hfree b hb).1,
    fun b hb r hr => (hfree b hb).2 r (hrefs r hr), hc⟩

theorem smallFs_wellFormed : WellFormed smallFs.disk.Usable (fun n => 1 ≤ n ∧ n ≤ 8) smallFs.disk :=
  wellFormed_of_refs ⟨⟨0, by norm_num, rfl⟩, rfl, by decide, by decide, by decide, by decide, rfl, by decide⟩
    (by decide)
    (by decide +kernel) (by decide +kernel) (by decide +kernel)
    (fun _ h => h.of_clear (P := fun b => smallFs.disk.Usable b ∧ ∀ r ∈ smallFs.disk.refs 8,
      r.block smallFs.disk ≠ b)
      (by decide +kernel))
    (smallFs_balanced.counted .blocks)

theorem largeFs_wellFormed : WellFormed (largeFs 4).disk.Proper (fun n => 1 ≤ n ∧ n ≤ 32)
    (largeFs 4).disk := by
  have hrefs : (largeFs 4).disk.refs 32 = largeMem.metas.map .table := by decide +kernel
  refine wellFormed_of_refs ⟨⟨6, by norm_num, rfl⟩,
    rfl, by decide, by decide, by decide, by decide, by decide, by decide⟩
    (by decide) (by decide +kernel) ?_ ?_ (fun b hb => ?_) ((largeFs_balanced (by norm_num)).counted .blocks)
  all_goals rw [hrefs]
  · unfold Mem.Proper
    decide
  · decide
  · rw [largeFs_free (by norm_num) hb]
    unfold Mem.Proper
    decide

end ChiffOS.Ext2
