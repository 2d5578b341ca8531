import ChiffOS.Ext2.AllocRuns
import ChiffOS.Ext2.InodeSpec
import ChiffOS.Ext2.Footprint

/-! What `create_entry` leaves behind. The record of inode 0 lies in front of the inode table of the first
group, where `write_inode` writes it. -/

namespace ChiffOS.Ext2

open Buf Prog Option

namespace Fs

def strayBlock (fs : Fs) : ℕ := (inodeSlot fs.toMem 0).1

/-- A volume whose sizes the driver can work with. The cache has nothing wrong about the blocks of `S`. -/
structure Ready (S : ℕ → Prop) (fs : Fs) : Prop where
  sized : fs.Sized
  size_le : fs.blockSize ≤ 65536
  pointers : 0 < fs.pointersPerBlock
  sound : fs.Sound S

structure Own (S : ℕ → Prop) (fs : Fs) (b : ℕ) : Prop where
  mem : S b
  ne : b ≠ 0
  apart : b ≠ fs.strayBlock

def storedInode (fs : Fs) (n : ℕ) : Buf := (fs.disk.blocks (inodeSlot fs.toMem n).1).drop
    (inodeSlot fs.toMem n).2

def dirBlocks (fs : Fs) (n : ℕ) : ℕ := inodeLength (fs.storedInode n) / fs.blockSize

/-- The device block with the directory's entries, the `l`-th of them. -/
def dirBlock (fs : Fs) (n l : ℕ) : ℕ := leaf (fs.storedInode n) fs.disk.blocks fs.pointersPerBlock l

/-- A directory as the format has it: whole blocks of entries, at least one, and all of them there. -/
structure Directory (S : ℕ → Prop) (fs : Fs) (n : ℕ) : Prop where
  table : fs.InTable n
  record : fs.Own S (inodeSlot fs.toMem n).1
  length : inodeLength (fs.storedInode n) = fs.dirBlocks n * fs.blockSize
  pos : 0 < fs.dirBlocks n
  counted : fs.dirBlocks n ≤ fs.blocksOf (fs.storedInode n)
  nodes : ∀ l < fs.dirBlocks n, ∀ k ∈ spine fs.pointersPerBlock l,
    fs.Own S (k.block (fs.storedInode n) fs.disk.blocks)
  blocks : ∀ l < fs.dirBlocks n, fs.Own S (fs.dirBlock n l)

end Fs

section Looks

variable {α β : Type} {S : ℕ → Prop} {fs g : Fs} {Q : β → Fs → Prop} (hg : fs.Looked S g)
include hg

theorem post_looks {p : Ext2M α} {f : α → Ext2M β} (hp : Only Reading p)
    (h : ∀ a g', fs.Looked S g' → Post fsHandler (f a) g' Q) : Post fsHandler (p >>= f) g Q :=
  Post.bind (fun a g' hr => hg.trans (Only.looks hp S g a g' hr hg.sound)) h

theorem post_readBlock {b : ℕ} {buf : Buf} {f : Err × Buf → Ext2M β} (hb : S b) (hb0 : b ≠ 0)
    (h : ∀ buf' g', fs.Looked S g' → SameOn buf' (fs.disk.blocks b) 0 fs.blockSize →
      Post fsHandler (f (.success, buf')) g' Q) : Post fsHandler (readBlock b buf >>= f) g Q := by
  refine .bind (P := fun r g' => fs.Looked S g' ∧ r.1 = .success ∧
    SameOn r.2 (fs.disk.blocks b) 0 fs.blockSize)
    (.ask fun r g' hr => ?_) ?_
  · obtain ⟨hs, hsync, hframe, hread⟩ := hg.sound.readBlock hr
    have hbs : g.blockSize = fs.blockSize := congrArg Mem.blockSize hg.mem
    obtain rfl := hread hb hb0
    refine ⟨hg.trans ⟨hs, hsync, hframe.mem⟩, rfl, ?_⟩
    rw [hbs, hg.synced]
    intro i h1 h2
    exact (blit_in h1 h2).trans (take_in (by omega)).symm
  · rintro ⟨e, buf'⟩ g' ⟨h1, rfl, h2⟩
    exact h buf' g' h1 h2

theorem post_loadEntry {tmp : Buf} {b i : ℕ} {f : ℕ × Buf → Ext2M β} (hb : S b) (hb0 : b ≠ 0)
    (hi : 4 * i + 4 ≤ fs.blockSize)
    (h : ∀ tmp' g', fs.Looked S g' → Post fsHandler (f ((fs.disk.blocks b).u32 (4 * i), tmp')) g' Q) :
    Post fsHandler (loadEntry tmp b i >>= f) g Q := by
  refine .bind (P := fun r g' => fs.Looked S g' ∧ r.1 = (fs.disk.blocks b).u32 (4 * i))
    (post_readBlock hg hb hb0 fun buf' g' h1 h2 => .pure ⟨h1, u32_congr (h2.mono (by omega) (by omega))⟩) ?_
  rintro ⟨x, tmp'⟩ g' ⟨h1, rfl⟩
  exact h tmp' g' h1

theorem post_getBlockNumber (hm : fs.Ready S) {ino : Buf} {l : ℕ}
    (hu : ∀ a ∈ spine fs.pointersPerBlock l, S (a.block ino fs.disk.blocks) ∧
      a.block ino fs.disk.blocks ≠ 0) :
    Post fsHandler (getBlockNumber ino l) g fun b g' =>
      fs.Looked S g' ∧ b = leaf ino fs.disk.blocks fs.pointersPerBlock l := by
  refine post_this ?_
  rw [show g.toMem = fs.toMem from hg.mem]
  have hbs := hm.sized.pointers
  have hle : fs.pointersPerBlock ≤ 16384 := by have := hm.size_le; omega
  have hsq := Nat.mul_le_mul hle hle
  rw [mapPath_eq hm.pointers (by omega)]
  unfold leaf spine at *
  set p := fs.pointersPerBlock
  by_cases h1 : l < 12
  · simp only [h1, if_true]
    exact .pure ⟨hg, by simp [place, h1, Slot.value]⟩
  simp only [h1, if_false]
  by_cases h2 : l < 12 + p
  · have hpl : place p l = some (.entry .single (l - 12)) := by simp [place, h1, h2]
    have hi := place_index hpl
    simp only [h2, if_true, hpl, map_some, getD_some] at hu ⊢
    obtain ⟨hs, hs0⟩ := hu .single (by simp [Slot.spine])
    refine post_looks hg (.ask trivial) fun tmp g₁ hg₁ => ?_
    exact post_loadEntry hg₁ hs hs0 (by omega) fun _ g₂ hg₂ => .pure ⟨hg₂, rfl⟩
  simp only [h2, if_false]
  by_cases h3 : l < 12 + p + p * p
  · have hpl : place p l = some (.entry (.child ((l - 12 - p) / p)) ((l - 12 - p) % p)) := by
      simp [place, h1, h2, h3]
    have hi := place_index hpl
    have hc : (l - 12 - p) / p < p := Nat.div_lt_of_lt_mul (by omega)
    simp only [h3, if_true, hpl, map_some, getD_some] at hu ⊢
    obtain ⟨hd, hd0⟩ := hu .double (by simp [Slot.spine, Node.above])
    obtain ⟨hs, hs0⟩ := hu (.child ((l - 12 - p) / p)) (by simp [Slot.spine])
    refine post_looks hg (.ask trivial) fun tmp g₁ hg₁ => ?_
    refine post_loadEntry hg₁ hd hd0 (by omega) fun _ g₂ hg₂ => ?_
    exact post_loadEntry hg₂ hs hs0 (by omega) fun _ g₃ hg₃ => .pure ⟨hg₃, rfl⟩
  simp only [h3, if_false]
  by_cases h4 : l < 12 + p + p * p + p
  · have hpl : place p l = some (.entry .tripleGrandchild (l - 12 - p - p * p)) := by
      simp [place, h1, h2, h3, h4]
    have hi := place_index hpl
    simp only [h4, if_true, hpl, map_some, getD_some] at hu ⊢
    obtain ⟨ht, ht0⟩ := hu .triple (by simp [Slot.spine, Node.above])
    obtain ⟨hc, hc0⟩ := hu .tripleChild (by simp [Slot.spine, Node.above])
    obtain ⟨hs, hs0⟩ := hu .tripleGrandchild (by simp [Slot.spine])
    refine post_looks hg (.ask trivial) fun tmp g₁ hg₁ => ?_
    refine post_loadEntry hg₁ ht ht0 (by omega) fun _ g₂ hg₂ => ?_
    refine post_loadEntry hg₂ hc hc0 (by omega) fun _ g₃ hg₃ => ?_
    exact post_loadEntry hg₃ hs hs0 (by omega) fun _ g₄ hg₄ => .pure ⟨hg₄, rfl⟩
  simp only [h4, if_false]
  exact .pure ⟨hg, by simp [place, h1, h2, h3, h4]⟩

theorem post_refreshInode (hm : fs.Ready S) {ino : Buf} {n : ℕ} (hn : fs.InTable n)
    (hs : S (inodeSlot fs.toMem n).1)
    (hs0 : (inodeSlot fs.toMem n).1 ≠ 0) : Post fsHandler (refreshInode ino n) g fun out g' =>
      fs.Looked S g' ∧ out = ino.blit 0 (fs.storedInode n) fs.inodeSize := by
  refine post_this ?_
  rw [show g.toMem = fs.toMem from hg.mem, if_neg (Nat.not_lt.mpr hn)]
  refine post_looks hg (.ask trivial) fun buf g₁ hg₁ => post_readBlock hg₁ hs hs0 fun buf' g₂ hg₂ hbuf =>
    .pure ⟨hg₂, ?_⟩
  have hle := hm.sized.slot_le n
  exact blit_congr fun i hi => hbuf _ (Nat.zero_le _) (by omega)

theorem post_readInode (hm : fs.Ready S) {n : ℕ} (hn : fs.InTable n) (hs : S (inodeSlot fs.toMem n).1)
    (hs0 : (inodeSlot fs.toMem n).1 ≠ 0) : Post fsHandler (readInode n) g fun out g' =>
      fs.Looked S g' ∧ SameOn out (fs.storedInode n) 0 fs.inodeSize := by
  refine post_looks hg (.ask trivial) fun ino g₁ hg₁ => (post_refreshInode hg₁ hm hn hs hs0).mono ?_
  rintro out g₂ ⟨hg₂, rfl⟩
  exact ⟨hg₂, blit_sameOn _ _ _⟩

end Looks

/-! ### The record of inode 0 -/

namespace Fs

variable {S : ℕ → Prop} {fs g : Fs}

theorem Ready.of_mem (hm : fs.Ready S) (hs : g.Sound S) (hmem : g.toMem = fs.toMem) : g.Ready S :=
  ⟨hmem ▸ hm.sized, hmem ▸ hm.size_le, hmem ▸ hm.pointers, hs⟩

theorem Own.of_mem {b : ℕ} (h : fs.Own S b) (hmem : g.toMem = fs.toMem) : g.Own S b :=
  ⟨h.mem, h.ne, by unfold strayBlock; rw [hmem]; exact h.apart⟩

theorem block_eq {b : ℕ} (hmem : g.toMem = fs.toMem)
    (h : ∀ i < fs.blockSize, g.synced (blockOffset fs.blockSize b + i) =
      fs.synced (blockOffset fs.blockSize b + i)) :
    g.disk.blocks b = fs.disk.blocks b := by
  simp only [disk]
  rw [congrArg Mem.blockSize hmem]
  exact take_congr h

section Same

variable {n : ℕ} (hd : fs.Directory S n) (hmem : g.toMem = fs.toMem)
  (hrec : g.disk.blocks (inodeSlot fs.toMem n).1 = fs.disk.blocks (inodeSlot fs.toMem n).1)
include hmem hrec

theorem storedInode_eq : g.storedInode n = fs.storedInode n := by
  unfold storedInode
  rw [hmem, hrec]

theorem dirBlocks_eq : g.dirBlocks n = fs.dirBlocks n := by
  unfold dirBlocks
  rw [storedInode_eq hmem hrec, congrArg Mem.blockSize hmem]

variable (hnodes : ∀ l < fs.dirBlocks n, ∀ k ∈ spine fs.pointersPerBlock l,
  g.disk.blocks (k.block (fs.storedInode n) fs.disk.blocks) =
    fs.disk.blocks (k.block (fs.storedInode n) fs.disk.blocks))
include hnodes

theorem dirBlock_eq {l : ℕ} (hl : l < fs.dirBlocks n) : g.dirBlock n l = fs.dirBlock n l := by
  unfold dirBlock
  rw [storedInode_eq hmem hrec, congrArg Mem.pointersPerBlock hmem]
  exact leaf_congr (fun _ _ => rfl) fun a ha => hnodes l hl a ha

theorem nodeBlock_eq {l : ℕ} (hl : l < fs.dirBlocks n) {k : Node} (hk : k ∈ spine fs.pointersPerBlock l) :
    k.block (g.storedInode n) g.disk.blocks = k.block (fs.storedInode n) fs.disk.blocks := by
  rw [storedInode_eq hmem hrec]
  exact Node.block_congr (fun _ _ _ => rfl) fun a ha => hnodes l hl a (spine_above hk ha)

include hd

theorem Directory.of_blocks : g.Directory S n := by
  have hino := storedInode_eq hmem hrec
  have hlen := dirBlocks_eq hmem hrec
  have hp : g.pointersPerBlock = fs.pointersPerBlock := congrArg Mem.pointersPerBlock hmem
  refine ⟨?_, ?_, ?_, ?_, ?_, fun l hl k hk => ?_, fun l hl => ?_⟩
  · rw [hmem]
    exact hd.table
  · rw [hmem]
    exact hd.record.of_mem hmem
  · rw [hino, hlen, congrArg Mem.blockSize hmem]
    exact hd.length
  · rw [hlen]
    exact hd.pos
  · rw [hlen, hino, hmem]
    exact hd.counted
  · rw [hlen] at hl
    rw [hp] at hk
    rw [nodeBlock_eq hmem hrec hnodes hl hk]
    exact (hd.nodes l hl k hk).of_mem hmem
  · rw [hlen] at hl
    rw [dirBlock_eq hmem hrec hnodes hl]
    exact (hd.blocks l hl).of_mem hmem

end Same

end Fs

/-! ### The entry -/

theorem recordLen_le {n : ℕ} (h : n < 256) : recordLen n ≤ 266 := by
  unfold recordLen
  split_ifs <;> omega

theorem le_recordLen (n : ℕ) : 8 ≤ recordLen n := by
  unfold recordLen
  omega

theorem entNameLen_lt (block : Buf) (at_ : ℕ) : entNameLen block at_ < 256 := (block (at_ + 6)).toNat_lt

namespace Fs

/-- The loop of `create_entry` stands in a block of the directory, of which it has a copy. -/
structure Stands (fs : Fs) (parent : ℕ) (c : Cursor) : Prop where
  nr : c.blockNr < fs.dirBlocks parent
  block : SameOn c.block (fs.disk.blocks (fs.dirBlock parent c.blockNr)) 0 fs.blockSize

/-- The two offsets of the loop. The block number, of one byte, does not wrap in directories of less than
256 blocks; it is always that of a block of the directory. -/
structure OffsetsOk (fs : Fs) (parent : ℕ) (c : Cursor) : Prop where
  total : 256 ≤ fs.dirBlocks parent ∨ c.totalOffset = c.blockNr * fs.blockSize + c.dirOffset
  mod : c.totalOffset % fs.blockSize = c.dirOffset % fs.blockSize
  past : fs.dirBlocks parent * fs.blockSize ≤ c.totalOffset → fs.blockSize ≤ c.dirOffset

end Fs

theorem Fs.OffsetsOk.skip {S : ℕ → Prop} {fs : Fs} {parent len : ℕ} {c : Cursor} (hm : fs.Ready S)
    (ho : fs.OffsetsOk parent c)
    (hlt : c.totalOffset < fs.dirBlocks parent * fs.blockSize) (hin : c.dirOffset + 8 ≤ fs.blockSize)
    (hlen : len < 2 ^ 16) :
    fs.OffsetsOk parent (c.skip len) := by
  have hbs := hm.size_le
  have hdir : (c.dirOffset + len) % 2 ^ 32 = c.dirOffset + len := Nat.mod_eq_of_lt (by omega)
  constructor
  · by_cases h256 : 256 ≤ fs.dirBlocks parent
    · exact .inl h256
    have hle : fs.dirBlocks parent * fs.blockSize ≤ 256 * 65536 := Nat.mul_le_mul (by omega) hbs
    have htot := ho.total.resolve_left h256
    have hmod : (c.totalOffset + len) % 2 ^ 32 = c.totalOffset + len := Nat.mod_eq_of_lt (by omega)
    right
    simp only [Cursor.skip, hdir, hmod]
    omega
  · simp only [Cursor.skip, hdir]
    rw [Nat.mod_mod_of_dvd _ hm.sized.block, Nat.add_mod, ho.mod, ← Nat.add_mod]
  · intro h
    simp only [Cursor.skip, hdir] at h ⊢
    have hle := h.trans (Nat.mod_le _ _)
    have hd := Nat.div_add_mod c.totalOffset fs.blockSize
    rw [ho.mod, Nat.mod_eq_of_lt (by omega), Nat.mul_comm] at hd
    have hq : c.totalOffset / fs.blockSize < fs.dirBlocks parent :=
      Nat.div_lt_of_lt_mul (by rwa [Nat.mul_comm])
    have hmul := Nat.mul_le_mul_right fs.blockSize (Nat.succ_le_of_lt hq)
    rw [Nat.succ_mul] at hmul
    omega

theorem post_needBytes {α : Type} {g : Fs} {Q : α → Fs → Prop} {c : Cursor} {len : ℕ} {f : Unit → Ext2M α}
    (h : c.dirOffset + len ≤ g.blockSize → Post fsHandler (f ()) g Q) :
      Post fsHandler (needBytes c len >>= f) g Q := by
  refine .bind (P := fun _ g' => g' = g ∧ c.dirOffset + len ≤ g.blockSize) (post_this ?_) ?_
  · exact .ite (fun _ => post_undefined) fun hle => .pure ⟨rfl, Nat.not_lt.mp hle⟩
  · rintro _ g' ⟨rfl, hle⟩
    exact h hle

/-- The blocks of the file reach far enough already. -/
theorem post_allocateUpTo {g : Fs} {n block : ℕ} {ino : Buf} (h : block < g.blocksOf ino) (fuel : ℕ) :
    Post fsHandler (allocateUpTo n block fuel ino) g fun out g' => out = ino ∧ g' = g := by
  cases fuel with
  | zero => exact post_undefined
  | succ fuel => exact post_this (.ite (fun hge => absurd h (Nat.not_lt.mpr hge)) fun _ => .pure ⟨rfl, rfl⟩)

theorem setEntry_u16 {block : Buf} {at_ inode recLen o : ℕ} {name : List UInt8} (h : o + 2 ≤ at_) :
    (setEntry block at_ inode recLen name).u16 o = block.u16 o := by
  unfold setEntry
  rw [u16_blit_out (by omega), u16_blit_out (by omega), u16_setU16_ne (by omega), u16_setU32_ne (by omega)]

/-- The entry that makes room gets another length. -/
theorem entry_changes {b c : Buf} {o inode size : ℕ} {name : List UInt8} (h8 : o + 8 ≤ size)
    (hsame : SameOn b c 0 size)
    (hne : entRecLen b o ≠ recordLen (entNameLen b o)) :
    ∃ i < size, setEntry (b.setU16 (o + 4) (recordLen (entNameLen b o))) (o + recordLen (entNameLen b o))
      inode
      (size - (o + recordLen (entNameLen b o))) name i ≠ c i := by
  by_contra hall
  push Not at hall
  apply hne
  have h1 := le_recordLen (entNameLen b o)
  have h2 := recordLen_le (entNameLen_lt b o)
  calc entRecLen b o = c.u16 (o + 4) := u16_congr (hsame.mono (by omega) (by omega))
    _ = (setEntry (b.setU16 (o + 4) (recordLen (entNameLen b o))) (o + recordLen (entNameLen b o)) inode
          (size - (o + recordLen (entNameLen b o))) name).u16 (o + 4) :=
            (u16_congr fun i _ hi => hall i (by omega)).symm
    _ = recordLen (entNameLen b o) := by
        rw [setEntry_u16 (by omega), u16_setU16]
        exact Nat.mod_eq_of_lt (by omega)

namespace Fs

structure Rewrote (S : ℕ → Prop) (fs : Fs) (b : ℕ) (buf : Buf) (g : Fs) : Prop where
  sound : g.Sound S
  mem : g.toMem = fs.toMem
  synced : g.synced = writeFs fs.synced (blockOffset fs.blockSize b) fs.blockSize buf

end Fs

section Entry

variable {S : ℕ → Prop} {fs g : Fs} {parent : ℕ} {pinode : Buf} (hm : fs.Ready S) (hd : fs.Directory S parent)
  (hp : SameOn pinode (fs.storedInode parent) 0 fs.inodeSize) (hg : fs.Looked S g)
include hm hd hp hg

theorem post_dirBlockNumber {l : ℕ} (hl : l < fs.dirBlocks parent) : Post fsHandler
    (getBlockNumber pinode l) g fun b g' =>
    fs.Looked S g' ∧ b = fs.dirBlock parent l := by
  have hi := inodeBlock_congr hp hm.sized.record
  refine (post_getBlockNumber hg hm fun a ha => ?_).mono fun b g' h => ?_
  · have hown := hd.nodes l hl a ha
    rw [Node.block_congr (fun i h _ => hi i h) fun _ _ => rfl]
    exact ⟨hown.mem, hown.ne⟩
  · exact ⟨h.1, h.2.trans (leaf_congr hi fun _ _ => rfl)⟩

theorem post_readDirBlock {l : ℕ} (hl : l < fs.dirBlocks parent) (buf : Buf) :
    Post fsHandler (inodeReadBlock pinode l buf) g fun r g' =>
      fs.Looked S g' ∧ SameOn r.2 (fs.disk.blocks (fs.dirBlock parent l)) 0 fs.blockSize := by
  refine post_this ?_
  have hcount : fs.blocksOf pinode = fs.blocksOf (fs.storedInode parent) := by
    unfold Mem.blocksOf
    rw [inodeBlocks_congr hp hm.sized.record]
  rw [show g.toMem = fs.toMem from hg.mem, if_neg (by have := hd.counted; omega)]
  refine .bind (post_dirBlockNumber hm hd hp hg hl) ?_
  rintro b g₁ ⟨hg₁, rfl⟩
  have hown := hd.blocks l hl
  exact post_readBlock hg₁ hown.mem hown.ne fun buf' g₂ hg₂ hbuf => .pure ⟨hg₂, hbuf⟩

theorem post_turnBlock {c : Cursor} (hc : fs.Stands parent c) (ho : fs.OffsetsOk parent c)
    (hlt : c.totalOffset < fs.dirBlocks parent * fs.blockSize) :
      Post fsHandler (turnBlock pinode c) g fun c' g' =>
      fs.Looked S g' ∧ fs.Stands parent c' ∧ fs.OffsetsOk parent c' ∧
        c'.totalOffset < fs.dirBlocks parent * fs.blockSize ∧
      c' = if fs.blockSize ≤ c.dirOffset then ⟨c'.block, (c.blockNr + 1) % 256, c.dirOffset - fs.blockSize,
        c.totalOffset⟩ else c := by
  refine post_this ?_
  rw [show g.toMem = fs.toMem from hg.mem]
  refine .ite (fun hge => ?_) fun hlow => .pure ⟨hg, hc, ho, hlt, (if_neg hlow).symm⟩
  have hnr : (c.blockNr + 1) % 256 < fs.dirBlocks parent ∧
      (256 ≤ fs.dirBlocks parent ∨ (c.blockNr + 1) % 256 = c.blockNr + 1) := by
    rcases ho.total with h | h
    · exact ⟨(Nat.mod_lt _ (by norm_num)).trans_le h, .inl h⟩
    · have hmul : (c.blockNr + 1) * fs.blockSize < fs.dirBlocks parent * fs.blockSize := by
        rw [Nat.add_mul, Nat.one_mul]
        omega
      have := Nat.lt_of_mul_lt_mul_right hmul
      by_cases h256 : 256 ≤ fs.dirBlocks parent
      · exact ⟨(Nat.mod_lt _ (by norm_num)).trans_le h256, .inl h256⟩
      · rw [Nat.mod_eq_of_lt (by omega)]
        exact ⟨this, .inr rfl⟩
  refine .bind (post_readDirBlock hm hd hp hg hnr.1 _) ?_
  rintro ⟨b, block⟩ g₁ ⟨hg₁, hblock⟩
  refine .pure ⟨hg₁, ⟨hnr.1, hblock⟩, ⟨?_, ?_, fun h => absurd h (Nat.not_le.mpr hlt)⟩, hlt,
    (if_pos hge).symm⟩
  · rcases ho.total with h | h
    · exact .inl h
    · refine hnr.2.imp id fun hone => ?_
      dsimp only
      rw [hone, Nat.add_mul, Nat.one_mul]
      omega
  · dsimp only
    rw [ho.mod]
    conv_lhs => rw [← Nat.sub_add_cancel hge]
    exact Nat.add_mod_right _ _

theorem post_writeDirBlock {l : ℕ} (hl : l < fs.dirBlocks parent) (buf : Buf) :
    Post fsHandler (inodeWriteBlock pinode parent l buf) g fun _ g' =>
      fs.Rewrote S (fs.dirBlock parent l) buf g' := by
  have hcount : g.blocksOf pinode = fs.blocksOf (fs.storedInode parent) := by
    unfold Mem.blocksOf
    rw [inodeBlocks_congr hp hm.sized.record, congrArg Mem.blockSize hg.mem]
  refine .bind (post_allocateUpTo (by have := hd.counted; omega) _) ?_
  rintro _ _ ⟨rfl, rfl⟩
  refine .bind (post_dirBlockNumber hm hd hp hg hl) ?_
  rintro b g₁ ⟨hg₁, rfl⟩
  have hown := hd.blocks l hl
  refine .bind (P := fun _ g' => fs.Rewrote S (fs.dirBlock parent l) buf g') (.ask fun _ g₂ hr => ?_)
    fun _ _ h => .pure h
  obtain ⟨hs, hsync, hframe⟩ := hg₁.sound.writeBlock hown.mem hown.ne hr
  refine ⟨hs, hframe.mem.trans hg₁.mem, ?_⟩
  rw [hsync, hg₁.synced, congrArg Mem.blockSize hg₁.mem]

end Entry

end ChiffOS.Ext2
