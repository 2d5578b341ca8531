import ChiffOS.Ext2.FileRuns
import ChiffOS.Ext2.Dir
import ChiffOS.Vfs.Path

/-! `readlink` of tmpfs and of ext2, and the test that `kopen_recur` makes of what it gets. Where the buffer
is too short, tmpfs writes a zero behind it and counts the last byte of the text as the zero; ext2 fills the
buffer, and its return value is then the index of no byte of it. -/

namespace ChiffOS

/-- Only the first `size` bytes are written to, those up to the return value are the text's, and a zero
follows in a buffer that has room for it. -/
structure LinkRead (text : Buf) (length size : ℕ) (buf : Buf) (r : ℕ × Buf) : Prop where
  inside : ∀ i, size ≤ i → r.2 i = buf i
  length_le : r.1 ≤ length
  text : ∀ i < r.1, r.2 i = text i
  ends : r.1 < size → r.2 r.1 = 0

namespace Ext2

open Prog Buf

/-- The text of a symbolic link: a short one is in the pointers of the inode. -/
def Disk.linkByte (d : Disk) (n i : ℕ) : UInt8 := if d.fileLength n ≤ 60 then d.record n
    (40 + i) else d.fileByte n i

theorem readlinkExt2_spec {S I : ℕ → Prop} {d : Disk} {n : ℕ} (hw : WellFormed S I d)
    (hS : ∀ b, S b → d.Usable b)
    (hn : I n) (hnd : ¬ d.inodesPerGroup ∣ n) {size : ℕ} (buf : Buf) :
    Does (readlinkExt2 n size buf) d (d.readCost 0 size + 1) fun r d' =>
      d' = d ∧ r.1 = min (d.fileLength n) size ∧ LinkRead (d.linkByte n) (d.fileLength n) size buf r := by
  have hfound := hw.found hS hn hnd
  have hlen32 : d.fileLength n < 2 ^ 32 := u32_lt _ _
  have hend : ∀ out : Buf, (∀ i, out i = if i < min (d.fileLength n) size then d.linkByte n i else buf i) →
      LinkRead (d.linkByte n) (d.fileLength n) size buf (min (d.fileLength n) size,
        if min (d.fileLength n) size < size then out.blit (min (d.fileLength n) size) (fun _ => 0) 1
          else out) := by
    intro out hout
    refine ⟨fun i hi => ?_, Nat.min_le_left _ _, fun i hi => ?_, fun hlt => ?_⟩
    · dsimp only
      split_ifs with hlt
      · rw [blit_out (by omega), hout, if_neg (by omega)]
      · rw [hout, if_neg (by omega)]
    · dsimp only at hi ⊢
      split_ifs with hlt
      · rw [blit_out (by omega), hout, if_pos hi]
      · rw [hout, if_pos hi]
    · dsimp only at hlt ⊢
      rw [if_pos hlt, blit_in le_rfl (by omega)]
  rw [Nat.add_comm]
  refine hfound.readInode_spec.bind ?_
  rintro ino d ⟨rfl, hold⟩
  have hlen : inodeLength ino = d.fileLength n := inodeLength_congr hold hfound.geometry.inode_ge
  rw [hlen, show (if d.fileLength n < size then d.fileLength n else size) =
    min (d.fileLength n) size by split_ifs <;> omega]
  dsimp only
  by_cases hlong : d.fileLength n > 60
  · rw [if_pos hlong]
    have hread :=
      readExt2_clipped hw hS hn hnd (Nat.zero_le _) (show 0 + min (d.fileLength n) size < 2 ^ 32 by omega) buf
    rw [show min (min (d.fileLength n) size) (d.fileLength n - 0) =
      min (d.fileLength n) size by omega] at hread
    have hcost : d.readCost 0 (min (d.fileLength n) size) ≤ d.readCost 0 size := by
      have : (0 + min (d.fileLength n) size) / d.blockSize ≤ (0 + size) / d.blockSize :=
        Nat.div_le_div_right (by omega)
      unfold Mem.readCost
      omega
    refine (hread.bind (m := 0) ?_).mono hcost fun _ _ h => h
    rintro ⟨count, out⟩ d ⟨rfl, -, hout⟩
    refine .pure ⟨rfl, rfl, hend out fun i => ?_⟩
    have hbyte := hout i
    rw [Nat.zero_add] at hbyte
    rwa [Disk.linkByte, if_neg (Nat.not_le.mpr hlong)]
  · rw [if_neg hlong]
    refine .pure ⟨rfl, rfl, hend _ fun i => ?_⟩
    have hz := hfound.geometry.inode_ge
    rw [Disk.linkByte, if_pos (Nat.not_lt.mp hlong)]
    split_ifs with hi
    · rw [blit_in (Nat.zero_le _) (by omega), Nat.sub_zero, drop]
      exact hold (40 + i) (by omega) (by omega)
    · exact blit_out (by omega)

end Ext2

namespace Vfs

open Ext2 Prog

def maxSymlinkSize : ℕ := 4096

inductive TmpfsType where
  | file | dir | link
deriving DecidableEq

/-- Of what both structs begin with, the type, and the target of a link. -/
structure TmpfsHead where
  type : TmpfsType
  target : CStr
deriving DecidableEq

def TmpfsHead.readlinkTmpfs (t : TmpfsHead) (size : ℕ) (buf : Buf) : Option (ℕ × Buf) :=
  if t.type ≠ .link then none
  else if size < t.target.length + 1 then
    some (size - 1, (buf.blit 0 (ofBytes t.target) size).blit size (fun _ => 0) 1)
  else some (t.target.length, buf.blit 0 (ofBytes t.target) (t.target.length + 1))

/-- The bytes of `symlink_buf` that `kopen_recur` looks at when `readlink_fs` gave `r`: the one at `len`
and, if that is zero, the string at the start of the buffer. -/
def SymlinkBufRead (r : ℕ × Buf) (i : ℕ) : Prop := i = r.1 ∨ r.2 r.1 = 0 ∧ ∀ j < i, r.2 j ≠ 0

theorem symlinkBufRead_lt {r : ℕ × Buf} {size : ℕ} : (∀ i, SymlinkBufRead r i → i < size) ↔ r.1 < size := by
  refine ⟨fun h => h _ (.inl rfl), fun hlt i hi => ?_⟩
  rcases hi with rfl | ⟨hzero, hstr⟩
  · exact hlt
  · by_contra hle
    exact hstr r.1 (by omega) hzero

section Tmpfs

variable {t : TmpfsHead} (hlink : t.type = .link) (size : ℕ) (buf : Buf)
include hlink

theorem readlinkTmpfs_short (h : t.target.length < size) :
    t.readlinkTmpfs size buf =
      some (t.target.length, buf.blit 0 (ofBytes t.target) (t.target.length + 1)) := by
  rw [TmpfsHead.readlinkTmpfs, if_neg (not_not.mpr hlink), if_neg (by omega)]

theorem readlinkTmpfs_long (h : size ≤ t.target.length) : t.readlinkTmpfs size buf =
    some (size - 1, (buf.blit 0 (ofBytes t.target) size).blit size (fun _ => 0) 1) := by
  rw [TmpfsHead.readlinkTmpfs, if_neg (not_not.mpr hlink), if_pos (by omega)]

theorem readlinkTmpfs_iff (htext : 0 ∉ t.target) (hsize : 1 ≤ size) :
    (∃ r, t.readlinkTmpfs size buf = some r ∧ LinkRead (ofBytes t.target) t.target.length size buf r) ↔
      t.target.length < size := by
  constructor
  · rintro ⟨r, hrun, hr⟩
    by_contra hlong
    rw [readlinkTmpfs_long hlink size buf (by omega)] at hrun
    obtain rfl := Option.some.inj hrun
    -- the byte that should be the zero is one of the text
    have hzero := hr.ends (Nat.sub_lt hsize one_pos)
    dsimp only at hzero
    rw [Buf.blit_out (by omega), Buf.blit_in (Nat.zero_le _) (by omega), Nat.sub_zero] at hzero
    have hlt : size - 1 < t.target.length := by omega
    have hbyte : ofBytes t.target (size - 1) = t.target.get ⟨size - 1, hlt⟩ := by simp [ofBytes, hlt]
    exact htext (hzero ▸ hbyte ▸ List.get_mem _ _)
  · intro hlt
    refine ⟨_, readlinkTmpfs_short hlink size buf hlt, ?_⟩
    refine ⟨fun i hi => Buf.blit_out (by omega), le_rfl, fun i hi => ?_, fun _ => ?_⟩
    · dsimp only at hi ⊢
      rw [Buf.blit_in (Nat.zero_le _) (by omega), Nat.sub_zero]
    · dsimp only
      rw [Buf.blit_in (Nat.zero_le _) (by omega), Nat.sub_zero]
      simp [ofBytes]

theorem readlinkTmpfs_lt (hsize : 1 ≤ size) : ∃ r, t.readlinkTmpfs size buf = some r ∧ r.1 < size := by
  by_cases h : t.target.length < size
  · exact ⟨_, readlinkTmpfs_short hlink size buf h, h⟩
  · exact ⟨_, readlinkTmpfs_long hlink size buf (by omega), Nat.sub_lt hsize one_pos⟩

end Tmpfs

theorem readlinkExt2_run {I : ℕ → Prop} {fs : Fs} {n size : ℕ} (hw : WellFormed fs.Usable I fs.disk)
    (hn : I n)
    (hnd : ¬ fs.inodesPerGroup ∣ n) (hcache : fs.Good fs.Usable)
    (hclock : fs.ClockRoom (fs.readCost 0 size + 1)) (buf : Buf) :
    ∃ r fs', (readlinkExt2 n size buf).run fsHandler fs = some (r, fs') ∧ r.1 =
      min (fs.disk.fileLength n) size ∧
      LinkRead (fs.disk.linkByte n) (fs.disk.fileLength n) size buf r := by
  obtain ⟨r, fs', -, hrun, -, -, -, -, hcount, hread⟩ :=
    (Fs.shows_self hw.geometry.sizeOk hcache).does (readlinkExt2_spec hw (fun _ h => h) hn hnd buf) hclock
  exact ⟨r, fs', hrun, hcount, hread⟩

/-- tmpfs respects a buffer that is longer than the text and no other, ext2 respects every buffer. What
`kopen_recur` looks at is in its buffer for every link of tmpfs, and for the links of ext2 that are shorter
than the buffer. -/
theorem readlink_respects_iff (I : ℕ → Prop) (fs : Fs) (n size : ℕ) (hw : WellFormed fs.Usable I fs.disk)
    (hn : I n)
    (hnd : ¬ fs.inodesPerGroup ∣ n) (hcache : fs.Good fs.Usable)
    (hclock : fs.ClockRoom (fs.readCost 0 (max size maxSymlinkSize) + 1))
    (t : TmpfsHead) (hlink : t.type = .link) (htext : 0 ∉ t.target) (hsize : 1 ≤ size) (buf : Buf) :
    ((∃ r, t.readlinkTmpfs size buf = some r ∧ LinkRead (ofBytes t.target) t.target.length size buf r) ↔
      t.target.length < size) ∧
    (∃ r fs', (readlinkExt2 n size buf).run fsHandler fs = some (r, fs') ∧
      LinkRead (fs.disk.linkByte n) (fs.disk.fileLength n) size buf r) ∧
    (∃ r, t.readlinkTmpfs maxSymlinkSize buf = some r ∧ ∀ i, SymlinkBufRead r i → i < maxSymlinkSize) ∧
    ((∃ r fs', (readlinkExt2 n maxSymlinkSize buf).run fsHandler fs = some (r, fs') ∧
      ∀ i, SymlinkBufRead r i → i < maxSymlinkSize) ↔ fs.disk.fileLength n < maxSymlinkSize) := by
  have hroom : ∀ k, k ≤ max size maxSymlinkSize → fs.ClockRoom (fs.readCost 0 k + 1) := by
    intro k hk hc
    have h := hclock hc
    have hmono : (0 + k) / fs.blockSize ≤ (0 + max size maxSymlinkSize) / fs.blockSize :=
      Nat.div_le_div_right (by omega)
    unfold Mem.readCost at h ⊢
    omega
  obtain ⟨r, fs', hrun, -, hread⟩ := readlinkExt2_run hw hn hnd hcache (hroom size (Nat.le_max_left _ _)) buf
  obtain ⟨r₁, fs₁, hrun₁, hcount, -⟩ :=
    readlinkExt2_run hw hn hnd hcache (hroom maxSymlinkSize (Nat.le_max_right _ _)) buf
  obtain ⟨q, hq, hlt⟩ := readlinkTmpfs_lt hlink maxSymlinkSize buf (by decide)
  refine ⟨readlinkTmpfs_iff hlink size buf htext hsize, ⟨r, fs', hrun, hread⟩,
    ⟨q, hq, symlinkBufRead_lt.mpr hlt⟩, ?_⟩
  constructor
  · rintro ⟨r₂, fs₂, hrun₂, hreads⟩
    obtain ⟨rfl, rfl⟩ := Prod.mk.inj (Option.some.inj (hrun₁.symm.trans hrun₂))
    have := symlinkBufRead_lt.mp hreads
    omega
  · intro hshort
    exact ⟨r₁, fs₁, hrun₁, symlinkBufRead_lt.mpr (by omega)⟩

def linkHead (target : CStr) : TmpfsHead := ⟨.link, target⟩

theorem readlink_respects_small : ∃ r fs', (readlinkExt2 3 2 fun _ => 9).run fsHandler smallFs =
    some (r, fs') ∧
    LinkRead (smallFs.disk.linkByte 3) (smallFs.disk.fileLength 3) 2 (fun _ => 9) r :=
  (readlink_respects_iff _ smallFs 3 2 smallFs_wellFormed (by decide) (by decide)
    (Fs.good_emptyCache (n := 2) (by norm_num) (by decide) (Mem.usable_noAlias ⟨0, by norm_num, rfl⟩) rfl)
    (fun _ => by decide +kernel) (linkHead [0x61]) rfl (by decide) (by decide) _).2.1

/-- Two bytes of room for the text `ab`: the byte behind them is set to zero, and the `b` is where the zero
should be. -/
theorem readlink_overruns : (linkHead [0x61, 0x62]).readlinkTmpfs 2 (fun _ => 9) =
      some (1, fun i => if i = 0 then 0x61 else if i = 1 then 0x62 else if i = 2 then 0 else 9) ∧
    ¬ ∃ r, (linkHead [0x61, 0x62]).readlinkTmpfs 2 (fun _ => 9) = some r ∧
      LinkRead (ofBytes [0x61, 0x62]) 2 2 (fun _ => 9) r := by
  refine ⟨?_, fun h => absurd ((readlinkTmpfs_iff rfl 2 _ (by decide) (by decide)).mp h) (by decide)⟩
  rw [readlinkTmpfs_long rfl 2 _ (by decide)]
  refine congrArg (fun b => some (1, b)) (funext fun i => ?_)
  rcases i with _ | _ | _ | i
  · rfl
  · rfl
  · rfl
  · rw [Buf.blit_out (by omega), Buf.blit_out (by omega), if_neg (by omega), if_neg (by omega),
      if_neg (by omega)]

end Vfs

end ChiffOS
