import ChiffOS.Ext2.FileRuns
import ChiffOS.Ext2.Footprint
import ChiffOS.Vfs.TmpfsRuns

/-! Reads at any offset and of any size, from ext2 and from tmpfs. The end of the range is a sum in 32 bits
and the length of the range a difference in 32 bits, which is the number of bytes left only for an offset
inside the file and a range that ends below 4 GiB. -/

namespace ChiffOS

open Prog

def sizeToRead (length offset size : ℕ) : ℕ :=
  ((if (offset + size) % 2 ^ 32 > length then length else (offset + size) % 2 ^ 32) + 2 ^ 32 - offset) % 2 ^
    32

theorem sizeToRead_iff {length offset size : ℕ} (hl : length < 2 ^ 32) (ho : offset < 2 ^ 32)
    (hs : size < 2 ^ 32) :
    sizeToRead length offset size = min size (length - offset) ↔ offset ≤ length ∧
      offset + size < 2 ^ 32 := by
  unfold sizeToRead
  split_ifs <;> omega

namespace Ext2

/-- The read returns what the file has left of the range, and puts those bytes into the buffer and no
others. -/
def Fs.ReadClipped (fs : Fs) (n offset size : ℕ) (buffer : Buf) : Prop :=
  ∃ out fs', (readExt2 n offset size buffer).run fsHandler fs =
    some ((min size (fs.disk.fileLength n - offset), out), fs') ∧
    ∀ i, out i = if i < min size (fs.disk.fileLength n - offset) then fs.disk.fileByte n (offset + i)
      else buffer i

section Read

variable {fs fs₁ : Fs} {n offset size : ℕ} {ino : Buf}
    (hino : (readInode n).run fsHandler fs = some (ino, fs₁)) (buffer : Buf)
include hino

/-- Whatever is copied, the return value is the difference. -/
theorem post_readExt2 (h0 : inodeLength ino ≠ 0) : Post fsHandler (readExt2 n offset size buffer) fs
    fun r _ => r.1 = sizeToRead (inodeLength ino) offset size := by
  have any : ∀ {α : Type} (p : Ext2M α) (g : Fs), Post fsHandler p g fun _ _ => True := fun _ _ _ _ _ =>
    trivial
  refine post_this (.bind (P := fun a _ => a = ino) ?_ ?_)
  · intro a g hr
    rw [hino] at hr
    exact (Prod.mk.inj (Option.some.inj hr)).1.symm
  · rintro _ g rfl
    rw [if_neg h0]
    refine .bind (any _ _) fun buf g _ => .ite (fun _ => ?_) fun _ => .bind (any _ _) fun bufs g _ =>
      .ite (fun _ => ?_) fun _ => ?_
    · exact .bind (any _ _) fun r g _ => .ite (fun _ => post_undefined) fun _ => .pure rfl
    · exact .bind (any _ _) fun r g _ => .ite (fun _ => post_undefined) fun _ => .pure rfl
    · exact .pure rfl

theorem readExt2_empty (h0 : inodeLength ino = 0) :
    (readExt2 n offset size buffer).run fsHandler fs = some ((0, buffer), fs₁) := by
  simp [readExt2, this, fsHandler, hino, h0]

end Read

theorem read_clipped_iff {I : ℕ → Prop} {fs : Fs} {n offset size : ℕ} (hw : WellFormed fs.Usable I fs.disk)
    (hn : I n)
    (hnd : ¬ fs.inodesPerGroup ∣ n) (hcache : fs.Good fs.Usable)
    (hclock : fs.ClockRoom (fs.readCost offset size)) (buffer : Buf) (ho : offset < 2 ^ 32)
    (hs : size < 2 ^ 32) : fs.ReadClipped n offset size buffer ↔
      fs.disk.fileLength n = 0 ∨ offset ≤ fs.disk.fileLength n ∧ offset + size < 2 ^ 32 := by
  have hshow := Fs.shows_self hw.geometry.sizeOk hcache
  have hfound := hw.found (fun _ h => h) hn hnd
  obtain ⟨ino, fs₁, v₁, hino, -, -, -, -, hold⟩ := hshow.does hfound.readInode_spec fun hc => by
    have := hclock hc
    unfold Mem.readCost at this
    change fs.cacheTime + 1 < uint32Max
    omega
  have hlen : inodeLength ino = fs.disk.fileLength n := inodeLength_congr hold hfound.geometry.inode_ge
  have hiff := sizeToRead_iff (show fs.disk.fileLength n < 2 ^ 32 from Buf.u32_lt _ _) ho hs
  constructor
  · rintro ⟨out, fs', hrun, -⟩
    refine or_iff_not_imp_left.mpr fun h0 => hiff.mp ?_
    exact hlen ▸ (post_readExt2 hino buffer (hlen ▸ h0) _ _ hrun).symm
  · rintro (h0 | ⟨hle, h32⟩)
    · refine ⟨buffer, fs₁, ?_, fun i => ?_⟩
      · rw [readExt2_empty hino buffer (hlen.trans h0), h0, Nat.zero_sub, Nat.min_zero]
      · rw [h0, Nat.zero_sub, Nat.min_zero, if_neg (Nat.not_lt_zero i)]
    · obtain ⟨⟨count, out⟩, fs', v', hrun, -, -, -, -, hcount, hout⟩ :=
        hshow.does (readExt2_clipped hw (fun _ h => h) hn hnd hle h32 buffer) fun hc => by
        have hroom := hclock hc
        have hmono : (offset + min size (fs.disk.fileLength n - offset)) / fs.blockSize ≤ (offset + size) /
          fs.blockSize :=
          Nat.div_le_div_right (by omega)
        unfold Mem.readCost at hroom ⊢
        change fs.cacheTime +
          (4 * ((offset + min size (fs.disk.fileLength n - offset)) / fs.blockSize - offset / fs.blockSize) +
          5) <
          uint32Max
        omega
      obtain rfl : count = _ := hcount
      exact ⟨out, fs', hrun, hout⟩

end Ext2

namespace Vfs.TmpStore

def ReadClipped (s : TmpStore) (f : ℕ) (d : TmpData) (offset size : ℕ) (buffer : Buf) : Prop :=
  ∃ s', s.readTmpfs f offset size buffer = some (min size (d.length - offset),
    buffer.blit 0 (d.bytes.drop offset) (min size (d.length - offset)), s')

theorem readTmpfs_count {s s' : TmpStore} {f offset size r : ℕ} {t : TmpfsFile} {buffer out : Buf}
    (ht : s.file f = some t)
    (h : s.readTmpfs f offset size buffer = some (r, out, s')) : r = sizeToRead t.length offset size := by
  simp only [readTmpfs, ht, Option.bind_eq_bind, Option.bind_some] at h
  change r = ((if t.length < (offset + size) % 2 ^ 32 then t.length else (offset + size) % 2 ^ 32) + 2 ^ 32 -
    offset) % 2 ^ 32
  generalize (if t.length < (offset + size) % 2 ^ 32 then t.length else (offset + size) % 2 ^ 32) = fin at h ⊢
  split_ifs at h with h1 h2
  · obtain ⟨rfl, -⟩ := Prod.mk.inj (Option.some.inj h)
    omega
  · obtain ⟨s₁, -, h⟩ := Option.bind_eq_some_iff.mp h
    obtain ⟨b, -, h⟩ := Option.bind_eq_some_iff.mp h
    exact (Prod.mk.inj (Option.some.inj h)).1.symm
  · obtain ⟨⟨s₁, b₁⟩, -, h⟩ := Option.bind_eq_some_iff.mp h
    exact (Prod.mk.inj (Option.some.inj h)).1.symm
  · obtain ⟨⟨s₁, b₁⟩, -, h⟩ := Option.bind_eq_some_iff.mp h
    cases h
  · obtain ⟨⟨s₁, b₁⟩, -, h⟩ := Option.bind_eq_some_iff.mp h
    obtain ⟨s₂, -, h⟩ := Option.bind_eq_some_iff.mp h
    obtain ⟨b, -, h⟩ := Option.bind_eq_some_iff.mp h
    exact (Prod.mk.inj (Option.some.inj h)).1.symm

theorem tmpfs_clipped_iff {s : TmpStore} {a : TmpState} {f offset size : ℕ} {d : TmpData} (h : Refines s a)
    (hd : a.file f = some d) (hl : d.length < 2 ^ 32) (buffer : Buf) (ho : offset < 2 ^ 32)
    (hs : size < 2 ^ 32) :
    s.ReadClipped f d offset size buffer ↔ offset ≤ d.length ∧ offset + size < 2 ^ 32 := by
  obtain ⟨t, ht, hlen⟩ := h.file hd
  rw [← sizeToRead_iff hl ho hs]
  constructor
  · rintro ⟨s', hrun⟩
    exact hlen ▸ (readTmpfs_count ht hrun).symm
  · intro hcount
    obtain ⟨hle, h32⟩ := (sizeToRead_iff hl ho hs).mp hcount
    obtain ⟨w, hw⟩ := h.holds.readTmpfs ht hd hlen hle h32 buffer
    rw [show min d.length (offset + size) - offset = min size (d.length - offset) by omega] at hw
    exact ⟨_, hw⟩

end Vfs.TmpStore

namespace Vfs

open Ext2 TmpStore

/-- Both drivers clip a read just when the offset is in the file and the range ends below 4 GiB. An empty
file of ext2 gives nothing in any case. -/
theorem reads_clipped_iff (I : ℕ → Prop) (fs : Fs) (n offset size : ℕ) (hw : WellFormed fs.Usable I fs.disk)
    (hn : I n)
    (hnd : ¬ fs.inodesPerGroup ∣ n) (hcache : fs.Good fs.Usable)
    (hclock : fs.ClockRoom (fs.readCost offset size)) (s : TmpStore) (a : TmpState) (f : ℕ)
    (d : TmpData) (h : Refines s a) (hd : a.file f = some d) (hl : d.length < 2 ^ 32) (buffer : Buf)
    (ho : offset < 2 ^ 32)
    (hs : size < 2 ^ 32) :
    (fs.ReadClipped n offset size buffer ↔
      fs.disk.fileLength n = 0 ∨ offset ≤ fs.disk.fileLength n ∧ offset + size < 2 ^ 32) ∧
    (s.ReadClipped f d offset size buffer ↔ offset ≤ d.length ∧ offset + size < 2 ^ 32) :=
  ⟨read_clipped_iff hw hn hnd hcache hclock buffer ho hs, tmpfs_clipped_iff h hd hl buffer ho hs⟩

/-- Ten bytes asked for at 1, from the three bytes of inode 3 and from two bytes in a tmpfs. -/
theorem reads_clipped_small : ∃ s d, d.length = 2 ∧ smallFs.ReadClipped 3 1 10 (fun _ => 0) ∧
    ReadClipped s 1 d 1 10 fun _ => 0 := by
  have hwrite :
    ((TmpState.call ⟨Function.update (fun _ => none) 1 (some ⟨0, fun _ => 0, 0⟩),
    (sampleTmpfs 64 0).map.markable.length⟩
      (.write 1 0 2 fun _ => 7)).bind fun r => (r.2.file 1).map (·.length)) = some 2 := by decide +kernel
  obtain ⟨⟨out, a⟩, ha, hwrite⟩ := Option.bind_eq_some_iff.mp hwrite
  obtain ⟨d, hd, hlen⟩ := Option.map_eq_some_iff.mp hwrite
  obtain ⟨s₁, -, h₁, -⟩ := (Refines.empty (sampleTmpfs 64 0) fun _ => rfl).call (.create 1) _ rfl
  obtain ⟨s₂, -, h₂, -⟩ := h₁.call _ _ ha
  have hcache : smallFs.Good smallFs.Usable :=
    Fs.good_emptyCache (n := 2) (by norm_num) (by decide) (Mem.usable_noAlias ⟨0, by norm_num, rfl⟩) rfl
  have h := reads_clipped_iff _ smallFs 3 1 10 smallFs_wellFormed (by decide) (by decide) hcache
    (fun _ => by decide +kernel) s₂ a 1 d h₂ hd (by omega) (fun _ => 0) (by norm_num) (by norm_num)
  exact ⟨s₂, d, hlen, h.1.mpr (.inr (by decide +kernel)), h.2.mpr (by omega)⟩

def freshTmpfs : TmpStore :=
  { sampleTmpfs 64 0 with file := fun f => if f = 1 then some TmpfsFile.tmpfsFileNew else none }

/-- At an offset behind the end neither driver returns 0: the difference is nearly `2^32` bytes, which are
copied. -/
theorem reads_past_end : ¬ smallFs.ReadClipped 3 4 1 (fun _ => 0) ∧
    ¬ freshTmpfs.ReadClipped 1 ⟨0, fun _ => 0, 0⟩ 4 1 fun _ => 0 := by
  constructor
  · rintro ⟨out, fs', hrun, -⟩
    have hnone : ((readExt2 3 4 1 fun _ => 0).run fsHandler smallFs).isNone := by decide +kernel
    rw [hrun] at hnone
    cases hnone
  · rintro ⟨s', hrun⟩
    have hnone : (freshTmpfs.readTmpfs 1 4 1 fun _ => 0).isNone := by decide +kernel
    rw [hrun] at hnone
    cases hnone

end Vfs

end ChiffOS
