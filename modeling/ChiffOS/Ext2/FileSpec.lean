import ChiffOS.Ext2.Extend

/-! `read_ext2` and `write_ext2` on a regular file: the head, the whole blocks and the tail of the
range, over the blocks the file has or gets. -/

namespace ChiffOS.Ext2

open Buf

variable {S I : ℕ → Prop} {d d' : Disk} {n L : ℕ}

theorem Ready.size_pos (hr : Ready S I n d) : 0 < d.blockSize := by
  have := hr.wf.geometry.sizeOk.le
  omega

/-! ### One block -/

theorem fileByte_block (hbs : 0 < d.blockSize) {l i : ℕ} (hi : i < d.blockSize) :
    d.fileByte n (l * d.blockSize + i) = if l < d.fileBlocks n then d.blocks (d.leafBlock n l) i else 0 := by
  have h1 : (l * d.blockSize + i) / d.blockSize = l := by
    rw [Nat.mul_comm, Nat.mul_add_div hbs, Nat.div_eq_of_lt hi, Nat.add_zero]
  have h2 : (l * d.blockSize + i) % d.blockSize = i := by
    rw [Nat.mul_comm, Nat.mul_add_mod, Nat.mod_eq_of_lt hi]
  unfold Disk.fileByte
  rw [h1, h2]

variable {ino : Buf}

theorem Holds.blocksOf (hold : Holds d n ino) (hz : 128 ≤ d.inodeSize) :
    d.blocksOf ino = d.fileBlocks n := by
  simp only [Disk.fileBlocks, Mem.blocksOf, inodeBlocks_congr hold hz]

section Leaves

variable (hw : WellFormed S I d) (hS : ∀ b, S b → d.Usable b) (hn : I n) (hold : Holds d n ino)
include hw hS hn hold

theorem getBlockNumber_holds {l : ℕ} (hl : l < d.fileBlocks n) :
    Does (getBlockNumber ino l) d 3 fun b d' => d' = d ∧ b = d.leafBlock n l := by
  have hg := hw.geometry
  have hptr := inodeBlock_congr hold hg.inode_ge
  have hlive : ∀ a ∈ spine d.pointersPerBlock l, (Ref.node n a).Live I d := fun a ha => ⟨hn, .inl ⟨l, hl, ha⟩⟩
  refine (getBlockNumber_spec hg.pointers_pos hg.map_lt hg.four_dvd.le fun a ha => ?_).mono le_rfl ?_
  · rw [show a.block ino d.blocks = d.nodeBlock n a from Node.block_congr (fun i hi _ => hptr i hi) fun _ _ =>
      rfl]
    exact hS _ (hw.mem _ (hlive a ha))
  · rintro b d' ⟨rfl, rfl⟩
    exact ⟨rfl, leaf_congr hptr fun _ _ => rfl⟩

theorem WellFormed.inodeReadBlock_spec (l : ℕ) (buf : Buf) : Does (inodeReadBlock ino l buf) d 4 fun r d' =>
    d' = d ∧ ∀ i < d.blockSize, r.2 i = d.fileByte n (l * d.blockSize + i) := by
  have hbs : 0 < d.blockSize := by have := hw.geometry.sizeOk.le; omega
  refine does_this ?_
  rw [hold.blocksOf hw.geometry.inode_ge]
  split_ifs with h
  · refine .pure ⟨rfl, fun i hi => ?_⟩
    rw [fileByte_block hbs hi, if_neg (by omega)]
    exact clear_in (Nat.zero_le _) (by omega)
  · refine (getBlockNumber_holds hw hS hn hold (by omega)).bind (m := 1) ?_
    rintro _ d' ⟨rfl, rfl⟩
    have hu := hS _ (hw.mem (.data n l) ⟨hn, by omega⟩)
    refine does_readBlock hu (.pure ⟨rfl, fun i hi => ?_⟩)
    rw [fileByte_block hbs hi, if_pos (by omega)]
    exact blit_in (Nat.zero_le _) (by omega)

end Leaves

theorem inodeReadBlock_spec (hr : Ready S I n d) (hold : Holds d n ino) (l : ℕ) (buf : Buf) :
    Does (inodeReadBlock ino l buf) d 4 fun r d' =>
      d' = d ∧ ∀ i < d.blockSize, r.2 i = d.fileByte n (l * d.blockSize + i) :=
  hr.wf.inodeReadBlock_spec hr.usable hr.inode hold l buf

theorem changes_of_pointers (hr : Ready S I n d) {r : Ref} {buf : Buf} (hlive : r.Live I d)
    (hb : ∀ g, r ≠ .table (.blockBitmap g)) (hother : ∀ m, I m → m ≠ n →
      Untouched d (d.setBlock (r.block d) buf) m)
    (hptr : ∀ i < 15, inodeBlock ((d.setBlock (r.block d) buf).record n) i = inodeBlock (d.record n) i)
    (hblocks : (d.setBlock (r.block d) buf).fileBlocks n = d.fileBlocks n)
    (hreg : Regular ((d.setBlock (r.block d) buf).record n))
    (hnode : ∀ k, d.NodeLive n k → (d.setBlock (r.block d) buf).blocks (d.nodeBlock n k) =
      d.blocks (d.nodeBlock n k)) :
    Changes S I n L d (d.setBlock (r.block d) buf) ∧
      ∀ l < d.fileBlocks n, (d.setBlock (r.block d) buf).leafBlock n l = d.leafBlock n l := by
  have hw := hr.wf
  have hp : (d.setBlock (r.block d) buf).pointersPerBlock = d.pointersPerBlock := rfl
  have hleaf : ∀ l < d.fileBlocks n, (d.setBlock (r.block d) buf).leafBlock n l = d.leafBlock n l := by
    intro l hl
    exact leafBlock_of_pointers hp hptr hnode hl
  have hadds : Adds S I d (d.setBlock (r.block d) buf) none := by
    apply hw.setBlock_adds hlive hb hother
    rintro s (⟨l, rfl⟩ | ⟨k, rfl⟩) hs
    · have hl : l < d.fileBlocks n := hblocks ▸ hs.2
      exact .inl ⟨⟨hr.inode, hl⟩, hleaf l hl⟩
    · have := nodeLive_of_pointers hp hptr hblocks (by simp [hreg, hr.regular]) hnode hs.2
      exact .inl ⟨⟨hr.inode, this.1⟩, this.2⟩
  have hlv := fun k => hw.nodeLive_iff hr.usable hr.inode hr.regular (k := k)
  have hset : ∀ k : Node, k.Set ((d.setBlock (r.block d) buf).record n) (d.setBlock (r.block d) buf).blocks
      d.pointersPerBlock ↔ k.Set (d.record n) d.blocks d.pointersPerBlock := by
    intro k
    constructor
    · exact Node.set_congr (fun i h _ => hptr i h) fun a _ ha => hnode a ((hlv a).mpr ha)
    · intro hk
      apply hk.of_block
      intro a ha
      exact Node.block_congr (fun i h _ => hptr i h) fun c hc => hnode c ((hlv c).mpr (ha.above hc))
  refine ⟨⟨hw.adds hadds, .refl _, fun m hm hne => (hother m hm hne).sameFile (.refl _) hw.geometry.inode_ge,
    hreg, ?_⟩,
    hleaf⟩
  unfold Disk.need
  rw [hblocks, missing_congr hp hset]
  rfl

theorem write_data (hr : Ready S I n d) {l : ℕ} (hl : l < d.fileBlocks n) (buf : Buf) :
    Changes S I n L d (d.put (d.leafBlock n l) buf) ∧ (d.put (d.leafBlock n l) buf).record n = d.record n ∧
      ∀ pos, (d.put (d.leafBlock n l) buf).fileByte n pos =
        if pos / d.blockSize = l then buf (pos % d.blockSize) else d.fileByte n pos := by
  have hw := hr.wf
  have hlive : (Ref.data n l).Live I d := ⟨hr.inode, hl⟩
  have hrec : ∀ m, I m → (d.put (d.leafBlock n l) buf).record m = d.record m := fun m hm =>
    hw.setBlock_record hlive hm (by simp [Mem.recordRef])
  have hkeep : ∀ r : Ref, r.Live I d → r ≠ .data n l →
      (d.put (d.leafBlock n l) buf).blocks (r.block d) = d.blocks (r.block d) :=
    fun r hr hx => d.setBlock_ne _ fun he => hx (hw.inj r _ hr hlive he)
  have hblocks : (d.put (d.leafBlock n l) buf).fileBlocks n = d.fileBlocks n := by
    simp only [Disk.fileBlocks, hrec n hr.inode]
    rfl
  have hother : ∀ m, I m → m ≠ n → Untouched d (d.put (d.leafBlock n l) buf) m := fun m hm hne =>
    hw.setBlock_untouched hlive hm (fun i _ _ => congrFun (hrec m hm) i) (by simp) (by simp [Ne.symm hne])
  obtain ⟨hc, hleaf⟩ := changes_of_pointers (L := L) hr hlive (by simp) hother
    (fun i _ => congrArg (fun x : Buf => inodeBlock x i) (hrec n hr.inode)) hblocks
    (show Regular ((d.put (d.leafBlock n l) buf).record n) by rw [hrec n hr.inode]; exact hr.regular)
    fun k hk => hkeep (.node n k) ⟨hr.inode, hk⟩ (by simp)
  refine ⟨hc, hrec n hr.inode, fun pos => ?_⟩
  have hbs : (d.put (d.leafBlock n l) buf).blockSize = d.blockSize := rfl
  have hleaf' : ∀ l' < d.fileBlocks n, (d.put (d.leafBlock n l) buf).leafBlock n l' = d.leafBlock n l' :=
    hleaf
  unfold Disk.fileByte
  rw [hblocks, hbs]
  by_cases hpos : pos / d.blockSize = l
  · rw [if_pos (hpos ▸ hl), if_pos hpos, hpos, hleaf' l hl]
    simp only [Disk.put, Disk.setBlock_self]
    exact blit_in (Nat.zero_le _) (by have := Nat.mod_lt pos hr.size_pos; omega)
  · rw [if_neg hpos]
    split_ifs with h
    · rw [hleaf' _ h]
      exact congrFun (hkeep (.data n (pos / d.blockSize)) ⟨hr.inode, h⟩ (by simpa using hpos)) _
    · rfl

theorem inodeWriteBlock_spec (hr : Ready S I n d) (hold : Holds d n ino) (hf : Fits n L d) {l : ℕ}
    (hlL : l ≤ L) (buf : Buf) :
    Does (inodeWriteBlock ino n l buf) d ((l + 1 - d.fileBlocks n) * (3 * d.bgdBlockSpan + 18) + 4)
      fun r d' =>
      Holds d' n r.2 ∧ Changes S I n L d d' ∧ d'.fileLength n = d.fileLength n ∧
      d'.fileBlocks n = max (d.fileBlocks n) (l + 1) ∧
      ∀ pos, d'.fileByte n pos = if pos / d.blockSize =
        l then buf (pos % d.blockSize) else d.fileByte n pos := by
  have hfuel : l + 1 - d.fileBlocks n < 2 ^ 32 := by
    have h1 : l * 1024 ≤ L * d.blockSize := Nat.mul_le_mul hlL hr.wf.geometry.sizeOk.le
    have h2 := hf.bytes
    omega
  refine (allocateUpTo_spec hlL (2 ^ 32) d ino hr hold hf hfuel).bind (m := 4) ?_
  rintro ino₁ d₁ ⟨hold₁, hc₁, hbyte₁, hlen₁, hfb₁⟩
  have hr₁ := hc₁.ready hr
  have hl₁ : l < d₁.fileBlocks n := by omega
  refine (getBlockNumber_holds hr₁.wf hr₁.usable hr₁.inode hold₁ hl₁).bind (m := 1) ?_
  rintro _ d₂ ⟨rfl, rfl⟩
  have hu := hr₁.usable _ (hr₁.wf.mem (.data n l) ⟨hr.inode, hl₁⟩)
  obtain ⟨hc₂, hrec, hbyte₂⟩ := write_data (L := L) hr₁ hl₁ buf
  refine does_writeBlock hu (.pure ⟨?_, hc₁.trans hc₂, ?_, ?_, fun pos => ?_⟩)
  · unfold Holds
    rw [hrec]
    exact hold₁
  · simp only [Disk.fileLength, hrec]
    exact hlen₁
  · simp only [Disk.fileBlocks, hrec]
    exact hfb₁
  · rw [hbyte₂ pos, hc₁.shape.blockSize, hbyte₁ pos]

/-! ### Runs of blocks -/

section Loops

section Read

variable {f : ℕ → UInt8} {offset : ℕ}

theorem readRound {m : Mem} (hbs : 0 < m.blockSize) {buf buffer : Buf} {done : ℕ}
    (hbuf : ∀ i < m.blockSize, buf i = f ((offset / m.blockSize + done) * m.blockSize + i)) (i : ℕ) :
    (if done = 0 then buffer.blit 0 (buf.drop (offset % m.blockSize)) (m.blockSize - offset % m.blockSize)
      else buffer.blit (bufferOffset m done offset) buf m.blockSize) i =
    if m.blockSize * done - offset % m.blockSize ≤ i ∧ i < m.blockSize * (done + 1) - offset % m.blockSize
      then f (offset + i) else buffer i := by
  have hoff := Nat.mod_lt offset hbs
  have hdiv := Nat.div_add_mod' offset m.blockSize
  rw [Nat.mul_succ]
  rw [Nat.add_mul, Nat.mul_comm done] at hbuf
  split_ifs with h0 h1 h1
  · subst h0
    rw [blit_in (by omega) (by omega), drop_apply, Nat.sub_zero, hbuf _ (by omega)]
    exact congrArg f (by omega)
  · subst h0
    exact blit_out (by omega)
  · have hle : m.blockSize ≤ m.blockSize * done := Nat.le_mul_of_pos_right _ (by omega)
    unfold bufferOffset
    rw [blit_in h1.1 (by omega), hbuf _ (by omega)]
    exact congrArg f (by omega)
  · have hle : m.blockSize ≤ m.blockSize * done := Nat.le_mul_of_pos_right _ (by omega)
    unfold bufferOffset
    exact blit_out (by omega)

theorem readBlocks_bytes (hbs : 0 < d.blockSize) {ino : Buf} (left done : ℕ)
    (hread : ∀ l < offset / d.blockSize + done + left, ∀ buf, Does (inodeReadBlock ino l buf) d 4 fun r d' =>
      d' = d ∧ ∀ i < d.blockSize, r.2 i = f (l * d.blockSize + i)) (buf buffer : Buf) :
    Does (readBlocks ino offset (offset / d.blockSize) done left (buf, buffer)) d (4 * left) fun r d' =>
      d' = d ∧ ∀ i, r.2 i =
        if d.blockSize * done - offset % d.blockSize ≤ i ∧
          i < d.blockSize * (done + left) - offset % d.blockSize
        then f (offset + i) else buffer i := by
  induction left generalizing done buf buffer with
  | zero => exact .pure ⟨rfl, fun i => by rw [Nat.add_zero, if_neg (by omega)]⟩
  | succ left ih =>
    refine does_this (((hread _ (by omega) buf).bind (m := 4 * left) ?_).mono (by omega) fun _ _ hq => hq)
    rintro ⟨_, buf₁⟩ d₁ ⟨rfl, hbuf⟩
    refine (ih (done + 1) (fun l hl => hread l (by omega)) buf₁ _).mono le_rfl ?_
    rintro r d₂ ⟨rfl, hbytes⟩
    refine ⟨rfl, fun i => ?_⟩
    rw [hbytes, readRound hbs hbuf, show done + 1 + left = done + (left + 1) by omega]
    have h1 : d₂.blockSize * (done + 1) ≤ d₂.blockSize * (done + (left + 1)) :=
      Nat.mul_le_mul_left _ (by omega)
    have h2 : d₂.blockSize * done ≤ d₂.blockSize * (done + 1) := Nat.mul_le_mul_left _ (by omega)
    split_ifs <;> first | rfl | omega

end Read

variable (hr : Ready S I n d)
include hr

theorem writeRound {buf buffer : Buf} {offset done : ℕ}
    (hbuf : ∀ i < d.blockSize, buf i = d.fileByte n ((offset / d.blockSize + done) * d.blockSize + i))
    (pos : ℕ) :
    (if pos / d.blockSize = offset / d.blockSize + done
      then (if done = 0 then buf.blit (offset % d.blockSize) buffer (d.blockSize - offset % d.blockSize)
        else buf.blit 0 (buffer.drop (bufferOffset d.toMem done offset)) d.blockSize) (pos % d.blockSize)
      else d.fileByte n pos) =
    if offset + (d.blockSize * done - offset % d.blockSize) ≤ pos ∧
        pos < offset + (d.blockSize * (done + 1) - offset % d.blockSize)
      then buffer (pos - offset) else d.fileByte n pos := by
  have hoff := Nat.mod_lt offset hr.size_pos
  have hmod := Nat.mod_lt pos hr.size_pos
  have hdiv := Nat.div_add_mod' offset d.blockSize
  have hpos := Nat.div_add_mod' pos d.blockSize
  have hl : (offset / d.blockSize + done) * d.blockSize =
    offset / d.blockSize * d.blockSize + d.blockSize * done := by
    ring
  have hle : done ≠ 0 → d.blockSize ≤ d.blockSize * done := fun h => Nat.le_mul_of_pos_right _ (by omega)
  rw [Nat.mul_succ]
  by_cases hb : pos / d.blockSize = offset / d.blockSize + done
  · rw [if_pos hb]
    rw [hb] at hpos
    by_cases h0 : done = 0
    · subst h0
      rw [if_pos rfl]
      by_cases hin : offset % d.blockSize ≤ pos % d.blockSize
      · rw [blit_in hin (by omega), if_pos (by omega)]
        exact congrArg buffer (by omega)
      · rw [blit_out (by omega), hbuf _ hmod, hpos, if_neg (by omega)]
    · have := hle h0
      rw [if_neg h0, blit_in (Nat.zero_le _) (by omega), drop_apply, if_pos (by omega)]
      unfold bufferOffset
      exact congrArg buffer (by omega)
  · rw [if_neg hb, if_neg]
    rintro ⟨h1, h2⟩
    refine hb (Nat.div_eq_of_lt_le ?_ ?_)
    · rw [hl]
      by_cases h0 : done = 0
      · subst h0; omega
      · have := hle h0; omega
    · rw [Nat.succ_mul, hl]
      omega

end Loops

/-- The bytes from `lo` to `hi` are written, from the buffer that belongs at `offset`. -/
structure Wrote (S I : ℕ → Prop) (n L offset : ℕ) (buffer : Buf) (lo hi : ℕ) (d d' : Disk) : Prop
    extends Changes S I n L d d' where
  length : d'.fileLength n = d.fileLength n
  blocks : d.fileBlocks n ≤ d'.fileBlocks n
  bytes : ∀ pos, d'.fileByte n pos = if lo ≤ pos ∧ pos < hi then buffer (pos - offset) else d.fileByte n pos

theorem Wrote.trans {offset lo mid hi : ℕ} {buffer : Buf} {d₁ d₂ d₃ : Disk}
    (h : Wrote S I n L offset buffer lo mid d₁ d₂) (h' : Wrote S I n L offset buffer mid hi d₂ d₃)
    (h1 : lo ≤ mid) (h2 : mid ≤ hi) : Wrote S I n L offset buffer lo hi d₁ d₃ :=
  { h.toChanges.trans h'.toChanges with
    length := h'.length.trans h.length
    blocks := h.blocks.trans h'.blocks
    bytes := fun pos => by
      rw [h'.bytes, h.bytes]
      split_ifs <;> first | rfl | omega }

theorem writeBlocks_spec (offset : ℕ) (buffer : Buf) : ∀ (left done : ℕ) (d : Disk) (ino buf : Buf),
    Ready S I n d →
    Holds d n ino → Fits n L d → offset / d.blockSize + done + left ≤ L + 1 →
    Does (writeBlocks n offset (offset / d.blockSize) buffer done left (ino, buf)) d
      ((offset / d.blockSize + done + left - d.fileBlocks n) * (3 * d.bgdBlockSpan + 18) + 9 * left)
        fun r d' =>
      Holds d' n r.1 ∧
      Wrote S I n L offset buffer (offset + (d.blockSize * done - offset % d.blockSize))
        (offset + (d.blockSize * (done + left) - offset % d.blockSize)) d d' ∧
      (0 < left → offset / d.blockSize + done + left ≤ d'.fileBlocks n)
  | 0, done, d, ino, buf, hr, hold, _, _ =>
    .pure ⟨hold, ⟨⟨hr.wf, .refl _, fun m _ _ => .refl d m, hr.regular, rfl⟩, rfl, le_rfl, fun pos => by
      rw [Nat.add_zero, if_neg (by omega)]⟩, by simp⟩
  | left + 1, done, d, ino, buf, hr, hold, hf, hL => by
    set l := offset / d.blockSize + done with hl
    have hcost : (l + (left + 1) - d.fileBlocks n) * (3 * d.bgdBlockSpan + 18) =
        (l + 1 - d.fileBlocks n) * (3 * d.bgdBlockSpan + 18) +
          (l + 1 + left - max (d.fileBlocks n) (l + 1)) * (3 * d.bgdBlockSpan + 18) := by
      rw [← Nat.add_mul]
      congr 1
      omega
    set rest := (l + 1 + left - max (d.fileBlocks n) (l + 1)) * (3 * d.bgdBlockSpan + 18) + 9 * left
    refine does_this (((inodeReadBlock_spec hr hold l buf).bind (m := (l + 1 - d.fileBlocks n) *
      (3 * d.bgdBlockSpan + 18) + 5 + rest) ?_).mono (by omega) fun _ _ hq => hq)
    rintro ⟨b, buf₁⟩ d₀ ⟨rfl, hbuf⟩
    dsimp only
    refine ((inodeWriteBlock_spec hr hold hf (l := l) (by omega) _).bind (m := 1 + rest) ?_).mono
      (by omega) fun _ _ hq => hq
    rintro ⟨_, ino₁⟩ d₁ ⟨hold₁, hc₁, hlen₁, hfb₁, hbyte₁⟩
    have hr₁ := hc₁.ready hr
    have hbs := hc₁.shape.blockSize
    have hw₁ : Wrote S I n L offset buffer (offset + (d₀.blockSize * done - offset % d₀.blockSize))
        (offset + (d₀.blockSize * (done + 1) - offset % d₀.blockSize)) d₀ d₁ :=
      ⟨hc₁, hlen₁, by omega, fun pos => (hbyte₁ pos).trans (writeRound hr hbuf pos)⟩
    have hm1 : d₀.blockSize * (done + 1) ≤ d₀.blockSize * (done + (left + 1)) :=
      Nat.mul_le_mul_left _ (by omega)
    have hm2 : d₀.blockSize * done ≤ d₀.blockSize * (done + 1) := Nat.mul_le_mul_left _ (by omega)
    have hgo : ∀ ino₂ buf₂, Holds d₁ n ino₂ →
        Does (writeBlocks n offset (offset / d₀.blockSize) buffer (done + 1) left (ino₂, buf₂)) d₁ rest
          fun r d' =>
          Holds d' n r.1 ∧
            Wrote S I n L offset buffer (offset + (d₀.blockSize * done - offset % d₀.blockSize))
            (offset + (d₀.blockSize * (done + (left + 1)) - offset % d₀.blockSize)) d₀ d' ∧
          (0 < left + 1 → l + (left + 1) ≤ d'.fileBlocks n) := by
      intro ino₂ buf₂ hold₂
      have h := writeBlocks_spec offset buffer left (done + 1) d₁ ino₂ buf₂ hr₁ hold₂ (hc₁.fits hf)
        (by rw [hbs]; omega)
      rw [hbs, hfb₁, hc₁.shape.span, ← Nat.add_assoc, ← hl, show done + 1 + left =
        done + (left + 1) by omega] at h
      refine h.mono le_rfl ?_
      rintro r d' ⟨h1, h2, h3⟩
      have h4 := h2.blocks
      exact ⟨h1, hw₁.trans h2 (by omega) (by omega), fun _ => by omega⟩
    -- the inode in memory is current, whether the source reads it again or not
    by_cases hb : b = 0
    · rw [if_pos hb]
      refine (hr₁.wf.refreshInode_spec hr₁.usable hr.inode hr₁.found ino₁).bind ?_
      rintro ino₂ d₂ ⟨rfl, hold₂⟩
      exact hgo ino₂ _ hold₂
    · rw [if_neg hb]
      exact (hgo ino₁ _ hold₁).mono (by omega) fun _ _ hq => hq

/-! ### `read_ext2` -/

def Mem.readCost (m : Mem) (offset size : ℕ) : ℕ :=
    4 * ((offset + size) / m.blockSize - offset / m.blockSize) + 5

theorem readExt2_bytes (hn : d.Found n) {f : ℕ → UInt8} {offset size count : ℕ}
    (hoff : offset ≤ d.fileLength n)
    (h32 : offset + size < 2 ^ 32) (hcount : count = min size (d.fileLength n - offset))
    (hread : ∀ ino, Holds d n ino → ∀ l, l * d.blockSize < offset + count ∨ count = 0 → ∀ buf,
      Does (inodeReadBlock ino l buf) d 4 fun r d' => d' = d ∧ ∀ i < d.blockSize, r.2 i =
        f (l * d.blockSize + i))
    (buffer : Buf) : Does (readExt2 n offset size buffer) d (d.readCost offset count) fun r d' =>
      d' = d ∧ r.1 = count ∧ ∀ i, r.2 i = if i < count then f (offset + i) else buffer i := by
  have hrange : offset + count ≤ d.fileLength n := by omega
  have hlen32 : d.fileLength n < 2 ^ 32 := u32_lt _ _
  have hbs : 0 < d.blockSize := by have := hn.geometry.sizeOk.le; omega
  have hcost : d.readCost offset count =
    1 + (4 * ((offset + count) / d.blockSize - offset / d.blockSize) + 4) := by
    unfold Mem.readCost
    omega
  rw [hcost]
  obtain ⟨bs, hbse⟩ : ∃ bs, d.blockSize = bs := ⟨_, rfl⟩
  rw [hbse] at hbs ⊢
  have hoff := Nat.div_add_mod' offset bs
  have hend := Nat.div_add_mod' (offset + count) bs
  have hoffl := Nat.mod_lt offset hbs
  have hendl := Nat.mod_lt (offset + count) hbs
  have hmono : offset / bs ≤ (offset + count) / bs := Nat.div_le_div_right (by omega)
  refine does_this (hn.readInode_spec.bind ?_)
  rintro ino d₁ ⟨rfl, hold⟩
  have hilen : inodeLength ino = d₁.fileLength n := inodeLength_congr hold hn.geometry.inode_ge
  rw [hilen]
  by_cases hz : d₁.fileLength n = 0
  · rw [if_pos hz]
    exact .pure ⟨rfl, by omega, fun i => by rw [if_neg (by omega)]⟩
  rw [if_neg hz]
  have hlast :
    (if (offset + size) % 2 ^ 32 > d₁.fileLength n then d₁.fileLength n else (offset + size) % 2 ^ 32) =
      offset + count := by
    rw [Nat.mod_eq_of_lt h32]
    split_ifs <;> omega
  have hsize : (offset + count + 2 ^ 32 - offset) % 2 ^ 32 = count := by omega
  simp only [hlast, hsize, hbse]
  clear hlast hsize hcount h32
  refine does_malloc fun buf => ?_
  replace hread := hread ino hold
  by_cases hse : offset / bs = (offset + count) / bs
  · rw [if_pos hse]
    refine ((hread (offset / bs) (by rw [hbse]; omega) buf).bind (m := 0) ?_).mono (by omega) fun _ _ hq => hq
    rintro ⟨_, buf₁⟩ d₂ ⟨rfl, hbuf⟩
    rw [← hse] at hend
    rw [if_neg (by omega)]
    refine .pure ⟨rfl, rfl, fun i => ?_⟩
    rw [hbse] at hbuf
    dsimp only at hbuf ⊢
    split_ifs with hi
    · rw [blit_in (Nat.zero_le _) (by omega), drop_apply, Nat.sub_zero, hbuf _ (by omega)]
      exact congrArg f (by omega)
    · exact blit_out (by omega)
  · rw [if_neg hse]
    obtain ⟨br, hbr⟩ : ∃ br, (offset + count) / bs = offset / bs + br := ⟨_, (Nat.add_sub_cancel' hmono).symm⟩
    rw [hbr, Nat.add_mul, Nat.mul_comm br] at hend
    rw [hbr, Nat.add_sub_cancel_left, Nat.add_mul, Nat.mul_comm br]
    have hle : bs ≤ bs * br := Nat.le_mul_of_pos_right _ (by omega)
    have hloop := readBlocks_bytes (f := f) (by rw [hbse]; exact hbs) br 0
      (fun l (hl : l < offset / d₁.blockSize + 0 + br) => hread l (.inl ?_)) buf buffer
    · rw [hbse, Nat.zero_add, Nat.mul_zero] at hloop
      refine hloop.bind ?_
      rintro ⟨buf₁, buffer₁⟩ d₂ ⟨rfl, hbytes⟩
      dsimp only at hbytes ⊢
      by_cases he : offset + count - (offset / bs * bs + bs * br) ≠ 0
      · rw [if_pos he]
        refine (hread (offset / bs + br) (.inl (by rw [hbse, Nat.add_mul, Nat.mul_comm br]; omega)) buf₁).bind
          (m := 0) ?_
        rintro ⟨_, buf₂⟩ d₃ ⟨rfl, hbuf⟩
        rw [hbse] at hbuf
        dsimp only at hbuf ⊢
        rw [if_neg (by omega)]
        refine .pure ⟨rfl, rfl, fun i => ?_⟩
        unfold bufferOffset
        dsimp only
        rw [hbse]
        by_cases hi : bs * br - offset % bs ≤ i ∧ i < count
        · rw [blit_in hi.1 (by omega), hbuf _ (by omega), Nat.add_mul, Nat.mul_comm br, if_pos hi.2]
          exact congrArg f (by omega)
        · rw [blit_out (by omega), hbytes]
          split_ifs <;> first | rfl | omega
      · rw [if_neg he]
        refine .pure ⟨rfl, rfl, fun i => ?_⟩
        dsimp only
        rw [hbytes]
        split_ifs <;> first | rfl | omega
    · rw [hbse] at hl ⊢
      have := Nat.mul_le_mul_right bs (Nat.succ_le_of_lt hl)
      rw [Nat.succ_mul, Nat.add_zero, Nat.add_mul, Nat.mul_comm br] at this
      omega

theorem readExt2_clipped (hw : WellFormed S I d) (hS : ∀ b, S b → d.Usable b) (hn : I n)
    (hnd : ¬ d.inodesPerGroup ∣ n)
    {offset size : ℕ} (hoff : offset ≤ d.fileLength n) (h32 : offset + size < 2 ^ 32) (buffer : Buf) :
    Does (readExt2 n offset size buffer) d (d.readCost offset (min size (d.fileLength n - offset)))
      fun r d' => d' = d ∧ r.1 = min size (d.fileLength n - offset) ∧
        ∀ i, r.2 i = if i < min size (d.fileLength n - offset) then d.fileByte n (offset + i) else buffer i :=
  readExt2_bytes (hw.found hS hn hnd) hoff h32 rfl (fun _ hold l _ => hw.inodeReadBlock_spec hS hn hold l)
    buffer

theorem readExt2_spec (hr : Ready S I n d) {offset size : ℕ} (hrange : offset + size ≤ d.fileLength n)
    (buffer : Buf) :
    Does (readExt2 n offset size buffer) d (d.readCost offset size) fun r d' =>
      d' = d ∧ r.1 = size ∧ ∀ i < size, r.2 i = d.fileByte n (offset + i) := by
  have hlen32 : d.fileLength n < 2 ^ 32 := u32_lt _ _
  have := readExt2_clipped hr.wf hr.usable hr.inode hr.found (show offset ≤ d.fileLength n by omega)
    (show offset + size < 2 ^ 32 by omega) buffer
  rw [show min size (d.fileLength n - offset) = size by omega] at this
  exact this.mono le_rfl fun r d' hq => ⟨hq.1, hq.2.1, fun i hi => by rw [hq.2.2, if_pos hi]⟩

/-! ### `write_ext2` -/

/-- The last block that a write touches; a write of no bytes still touches one. -/
def Mem.lastBlock (m : Mem) (offset size : ℕ) : ℕ := (offset + (size - 1)) / m.blockSize

def Disk.writeCost (d : Disk) (n offset size : ℕ) : ℕ :=
  (d.lastBlock offset size + 1 - d.fileBlocks n) * (3 * d.bgdBlockSpan + 18) +
    9 * (d.lastBlock offset size - offset / d.blockSize) + 20

theorem set_length (hr : Ready S I n d) (hold : Holds d n ino) {v : ℕ} (hv : v < 2 ^ 32) :
    let d' := d.putRecord n (setInodeLength ino v)
    Changes S I n L d d' ∧ d'.fileLength n = v ∧ d'.fileBlocks n = d.fileBlocks n ∧
      ∀ pos, d'.fileByte n pos = d.fileByte n pos := by
  intro d'
  have hw := hr.wf
  have hz := hw.geometry.inode_ge
  have hrec : SameOn (d'.record n) (setInodeLength ino v) 0 d.inodeSize := putRecord_self d n _
  have hptr : ∀ i < 15, inodeBlock (d'.record n) i = inodeBlock (d.record n) i := fun i hi => by
    rw [inodeBlock_congr hrec hz i hi, inodeBlock_setInodeLength, inodeBlock_congr hold hz i hi]
  have hblocks : d'.fileBlocks n = d.fileBlocks n := by
    have h1 : inodeBlocks (d'.record n) = inodeBlocks (d.record n) := by
      rw [inodeBlocks_congr hrec hz, inodeBlocks_setInodeLength, inodeBlocks_congr hold hz]
    simp only [Disk.fileBlocks, Mem.blocksOf, h1]
    rfl
  have hreg : Regular (d'.record n) := by
    rw [regular_congr hrec hz]
    simp only [Regular, inodeMode_setInodeLength]
    exact (regular_congr hold hz).mpr hr.regular
  have hkeep : ∀ r : Ref, r.Live I d → (∀ x, r ≠ .table x) → d'.blocks (r.block d) = d.blocks (r.block d) :=
    fun r h hx => putRecord_keeps hw hr.inode h hx
  obtain ⟨hc, hleaf⟩ := changes_of_pointers (L := L) hr (hw.recordRef_live hr.inode) (by simp [Mem.recordRef])
    (fun m hm hne => putRecord_untouched hw hr.inode hm hne) hptr hblocks hreg
    fun k hk => hkeep (.node n k) ⟨hr.inode, hk⟩ (by simp)
  refine ⟨hc, ?_, hblocks, ?_⟩
  · simp only [Disk.fileLength]
    rw [inodeLength_congr hrec hz, inodeLength, setInodeLength, u32_setU32, Nat.mod_eq_of_lt hv]
  · exact fileByte_congr rfl hblocks hleaf fun l hl => hkeep (.data n l) ⟨hr.inode, hl⟩ (by simp)

section Write

variable {offset size : ℕ}

/-- Where the last block touched lies, seen from the first and the one behind the range. -/
theorem lastBlock_bounds {m : Mem} (hbs : 0 < m.blockSize) (offset size : ℕ) :
    offset / m.blockSize ≤ m.lastBlock offset size ∧ (offset + size) / m.blockSize ≤ m.lastBlock offset
      size + 1 ∧
      m.lastBlock offset size ≤ (offset + size) / m.blockSize ∧
      ((offset + size) % m.blockSize ≠ 0 → offset / m.blockSize ≠ (offset + size) / m.blockSize →
        m.lastBlock offset size = (offset + size) / m.blockSize) := by
  unfold Mem.lastBlock
  refine ⟨Nat.div_le_div_right (by omega), ?_, Nat.div_le_div_right (by omega), fun h1 h2 => ?_⟩
  · calc (offset + size) / m.blockSize ≤ (offset + (size - 1) + m.blockSize) / m.blockSize :=
        Nat.div_le_div_right (by omega)
      _ = _ := Nat.add_div_right _ hbs
  · have h3 := Nat.div_add_mod' (offset + size) m.blockSize
    have h4 := Nat.mod_lt (offset + size) hbs
    have h5 : 0 < size := Nat.pos_of_ne_zero fun h0 => h2 (by rw [h0, Nat.add_zero])
    exact Nat.div_eq_of_lt_le (by omega) (by rw [Nat.succ_mul]; omega)

/-- A block that is read, changed in one place and written back. -/
theorem patched_byte {f f' : ℕ → UInt8} {bs b start len lo hi offset : ℕ} {buf src buffer : Buf}
    (hbs : 0 < bs)
    (hbuf : ∀ i < bs, buf i = f (b * bs + i))
    (hbyte : ∀ pos, f' pos = if pos / bs = b then buf.blit start src len (pos % bs) else f pos)
    (hlo : lo = b * bs + start) (hhi : hi = lo + len) (hfit : start + len ≤ bs)
    (hsrc : ∀ i < len, src i = buffer (lo + i - offset)) (pos : ℕ) :
    f' pos = if lo ≤ pos ∧ pos < hi then buffer (pos - offset) else f pos := by
  have hpos := Nat.div_add_mod' pos bs
  have hmod := Nat.mod_lt pos hbs
  rw [hbyte]
  by_cases hp : pos / bs = b
  · rw [if_pos hp]
    rw [hp] at hpos
    by_cases hin : lo ≤ pos ∧ pos < hi
    · rw [if_pos hin, blit_in (by omega) (by omega), hsrc _ (by omega)]
      exact congrArg buffer (by omega)
    · rw [if_neg hin, blit_out (by omega), hbuf _ hmod, hpos]
  · rw [if_neg hp, if_neg]
    rintro ⟨h1, h2⟩
    exact hp (Nat.div_eq_of_lt_le (by omega) (by rw [Nat.succ_mul]; omega))

theorem writeRange_upTo (hr : Ready S I n d) {ino : Buf} (hold : Holds d n ino) (hlt : offset + size < 2 ^ 32)
    {M : ℕ}
    (hM : d.lastBlock offset size = M) (hML : M ≤ L) (hf : Fits n L d) (buffer : Buf) :
    Does (writeRange ino n offset (offset + size) buffer) d
      ((M + 1 - d.fileBlocks n) * (3 * d.bgdBlockSpan + 18) + 9 * (M - offset / d.blockSize) + 17) fun r d' =>
      r.1 = size ∧ Wrote S I n L offset buffer offset (offset + size) d d' := by
  have hbs := hr.size_pos
  obtain ⟨hb1, hb2, hb3, hb4⟩ := lastBlock_bounds (m := d.toMem) hbs offset size
  rw [hM] at hb1 hb2 hb3 hb4
  obtain ⟨bs, hbse⟩ : ∃ bs, d.blockSize = bs := ⟨_, rfl⟩
  refine does_this ?_
  rw [hbse] at hbs hb1 hb2 hb3 hb4 ⊢
  have hoff := Nat.div_add_mod' offset bs
  have hend := Nat.div_add_mod' (offset + size) bs
  have hoffl := Nat.mod_lt offset hbs
  have hendl := Nat.mod_lt (offset + size) hbs
  have hmono : offset / bs ≤ (offset + size) / bs := Nat.div_le_div_right (by omega)
  have hsize : (offset + size + 2 ^ 32 - offset) % 2 ^ 32 = size := by omega
  simp only [hsize]
  refine does_malloc fun buf => ?_
  by_cases hse : offset / bs = (offset + size) / bs
  · rw [if_pos hse]
    obtain rfl : offset / bs = M := by omega
    refine ((inodeReadBlock_spec hr hold (offset / bs) buf).bind (m := (offset / bs + 1 - d.fileBlocks n) *
      (3 * d.bgdBlockSpan + 18) + 4) ?_).mono (by omega) fun _ _ hq => hq
    rintro ⟨_, buf₁⟩ d₁ ⟨rfl, hbuf⟩
    refine (inodeWriteBlock_spec hr hold hf hML _).bind (m := 0) ?_
    rintro ⟨_, ino₁⟩ d₂ ⟨-, hc, hlen, hfb, hbyte⟩
    rw [← hse] at hend
    rw [hbse] at hbyte hbuf
    refine .pure ⟨rfl, hc, hlen, by omega, patched_byte hbs hbuf hbyte hoff.symm rfl (by omega) fun i _ => ?_⟩
    exact congrArg buffer (by omega)
  · rw [if_neg hse]
    obtain ⟨br, hbr⟩ : ∃ br, (offset + size) / bs = offset / bs + br := ⟨_, (Nat.add_sub_cancel' hmono).symm⟩
    rw [hbr] at hb2 hb3 hb4
    rw [hbr, Nat.add_mul, Nat.mul_comm br] at hend
    rw [hbr, Nat.add_sub_cancel_left, Nat.add_mul, Nat.mul_comm br]
    have hle : bs ≤ bs * br := Nat.le_mul_of_pos_right _ (by omega)
    have hloop := writeBlocks_spec offset buffer br 0 d ino buf hr hold hf (by rw [hbse]; omega)
    rw [hbse, Nat.add_zero, Nat.zero_add, Nat.mul_zero, Nat.zero_sub, Nat.add_zero] at hloop
    by_cases he : offset + size - (offset / bs * bs + bs * br) ≠ 0
    · have hMe : M = offset / bs + br := hb4 (by omega) (by omega)
      have hcost : (offset / bs + br - d.fileBlocks n) * (3 * d.bgdBlockSpan + 18) +
          (M + 1 - max (d.fileBlocks n) (offset / bs + br)) * (3 * d.bgdBlockSpan + 18) =
          (M + 1 - d.fileBlocks n) * (3 * d.bgdBlockSpan + 18) := by
        rw [← Nat.add_mul]
        congr 1
        omega
      refine (hloop.bind (m :=
        (M + 1 - max (d.fileBlocks n) (offset / bs + br)) * (3 * d.bgdBlockSpan + 18) + 8) ?_).mono
        (by omega) fun _ _ hq => hq
      rintro ⟨ino₁, buf₁⟩ d₁ ⟨hold₁, hw₁, hreach⟩
      have hr₁ := hw₁.ready hr
      have hbs₁ : d₁.blockSize = bs := hw₁.shape.blockSize.trans hbse
      have hfb := hw₁.blocks
      dsimp only at hold₁ ⊢
      rw [if_pos he]
      refine ((inodeReadBlock_spec hr₁ hold₁ (offset / bs + br) buf₁).bind (m := (M + 1 - d₁.fileBlocks n) *
        (3 * d₁.bgdBlockSpan + 18) + 4) ?_).mono ?_ fun _ _ hq => hq
      · rintro ⟨_, buf₂⟩ d₂ ⟨rfl, hbuf⟩
        dsimp only at hbuf ⊢
        rw [if_neg (by omega), ← hMe]
        refine (inodeWriteBlock_spec hr₁ hold₁ (hw₁.fits hf) hML _).bind (m := 0) ?_
        rintro ⟨_, ino₂⟩ d₃ ⟨-, hc, hlen, hfb₃, hbyte⟩
        rw [hbs₁] at hbyte hbuf
        -- the tail of the range is the head of the last block
        have hw₂ : Wrote S I n L offset buffer (offset + (bs * br - offset % bs)) (offset + size) d₂ d₃ := by
          have hMbs : M * bs = offset / bs * bs + bs * br := by rw [hMe]; ring
          rw [← hMe] at hbuf
          have hstart : offset + (bs * br - offset % bs) = M * bs + 0 := by omega
          have hlast : offset + size =
            offset + (bs * br - offset % bs) + (offset + size - (offset / bs * bs + bs * br)) := by omega
          refine ⟨hc, hlen, by omega, patched_byte hbs hbuf hbyte hstart hlast (by omega) fun i _ => ?_⟩
          rw [bufferOffset, hbse, drop_apply]
          exact congrArg buffer (by omega)
        exact .pure ⟨rfl, hw₁.trans hw₂ (by omega) (by omega)⟩
      · rw [hw₁.shape.span]
        have := Nat.mul_le_mul_right (3 * d.bgdBlockSpan + 18)
          (show M + 1 - d₁.fileBlocks n ≤ M + 1 - max (d.fileBlocks n) (offset / bs + br) by omega)
        omega
    · have hmul := Nat.mul_le_mul_right (3 * d.bgdBlockSpan + 18)
        (show offset / bs + br - d.fileBlocks n ≤ M + 1 - d.fileBlocks n by omega)
      refine (hloop.bind (m := 0) ?_).mono (by omega) fun _ _ hq => hq
      rintro ⟨ino₁, buf₁⟩ d₁ ⟨-, hw₁, -⟩
      dsimp only
      rw [if_neg he]
      refine .pure ⟨rfl, ?_⟩
      rwa [show offset + (bs * br - offset % bs) = offset + size by omega] at hw₁

theorem writeExt2_upTo (hr : Ready S I n d) (hlt : offset + size < 2 ^ 32) (hL : d.lastBlock offset size ≤ L)
    (hf : Fits n L d) (buffer : Buf) :
    Does (writeExt2 n offset size buffer) d (d.writeCost n offset size) fun r d' =>
      r = size ∧ Changes S I n L d d' ∧ d'.fileLength n = max (d.fileLength n) (offset + size) ∧
      ∀ pos, d'.fileByte n pos = if offset ≤ pos ∧
        pos < offset + size then buffer (pos - offset) else d.fileByte n pos := by
  unfold Disk.writeCost
  obtain ⟨M, hM⟩ : ∃ M, d.lastBlock offset size = M := ⟨_, rfl⟩
  rw [hM] at hL ⊢
  set c := (M + 1 - d.fileBlocks n) * (3 * d.bgdBlockSpan + 18) + 9 * (M - offset / d.blockSize) + 17 with hc
  refine ((hr.wf.readInode_spec hr.usable hr.inode hr.found).bind (m := c + 2) ?_).mono (by omega)
    fun _ _ hq => hq
  rintro ino d₁ ⟨rfl, hold⟩
  have hilen : inodeLength ino = d₁.fileLength n := inodeLength_congr hold hr.wf.geometry.inode_ge
  have hbuf : Does (writeInodeBuffer ino n offset size buffer) d₁ (c + 2) fun r d' =>
      r.1 = size ∧ Changes S I n L d₁ d' ∧ d'.fileLength n = max (d₁.fileLength n) (offset + size) ∧ ∀ pos,
      d'.fileByte n pos = if offset ≤ pos ∧ pos < offset + size then buffer (pos - offset) else d₁.fileByte n
        pos := by
    unfold writeInodeBuffer
    rw [Nat.mod_eq_of_lt hlt, hilen]
    dsimp only
    split_ifs with hgt
    · refine ((hr.wf.writeInode_spec hr.usable hr.inode hr.found _).bind (m := c) ?_).mono (by omega)
        fun _ _ hq => hq
      rintro - d₂ rfl
      obtain ⟨hc₁, hlen, hfb, hbyte⟩ := set_length (L := L) hr hold hlt
      have hrange := writeRange_upTo (hc₁.ready hr) (putRecord_self d₁ n _).symm hlt hM hL (hc₁.fits hf)
        buffer
      rw [hfb] at hrange
      refine hrange.mono le_rfl ?_
      rintro r d' ⟨h1, h2⟩
      exact ⟨h1, hc₁.trans h2.toChanges, by rw [h2.length, hlen]; omega, fun pos => by rw [h2.bytes, hbyte]⟩
    · refine (writeRange_upTo hr hold hlt hM hL hf buffer).mono (by omega) ?_
      rintro r d' ⟨h1, h2⟩
      exact ⟨h1, h2.toChanges, by rw [h2.length]; omega, h2.bytes⟩
  refine hbuf.bind (m := 0) ?_
  rintro ⟨r, ino'⟩ d' hq
  exact .pure hq

theorem writeExt2_spec (hr : Ready S I n d) (hlt : offset + size < 2 ^ 32)
    (hf : Fits n (d.lastBlock offset size) d) (buffer : Buf) :
    Does (writeExt2 n offset size buffer) d (d.writeCost n offset size) fun r d' =>
      r = size ∧ Changes S I n (d.lastBlock offset size) d d' ∧
      d'.fileLength n = max (d.fileLength n) (offset + size) ∧
      ∀ pos, d'.fileByte n pos = if offset ≤ pos ∧
        pos < offset + size then buffer (pos - offset) else d.fileByte n pos :=
  writeExt2_upTo hr hlt le_rfl hf buffer

end Write

end ChiffOS.Ext2
