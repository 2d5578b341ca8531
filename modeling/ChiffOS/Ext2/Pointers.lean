import ChiffOS.Ext2.Extend

/-! The pointer blocks of an inode when blocks run short. Each pointer block hangs in one slot, of the
inode or of another pointer block; the driver fills the slots on the way to a file block one by one and
stops at the first for which it gets no block. The blocks of data are not looked at. -/

namespace ChiffOS.Ext2

open Buf

namespace Node

def slot : Node → Slot
  | single => .inode 12
  | double => .inode 13
  | triple => .inode 14
  | child c => .entry double c
  | tripleChild => .entry triple 0
  | tripleGrandchild => .entry tripleChild 0

/-- The pointer is one of the `p` of its block. -/
def Within (p : ℕ) (k : Node) : Prop := ∀ a i, k.slot = .entry a i → i < p

variable {p : ℕ} {k a : Node} {i : ℕ}

theorem block_slot (ino : Buf) (blk : ℕ → Buf) (k : Node) : k.block ino blk = k.slot.value ino blk := by
  cases k <;> rfl

theorem slot_inj (h : k.slot = a.slot) : k = a := by
  cases k <;> cases a <;> simp_all [slot]

theorem slot_inode (h : k.slot = .inode i) : 12 ≤ i ∧ i < 15 := by
  cases k <;> simp [slot] at h <;> omega

theorem slot_induction {P : Node → Prop} (h : ∀ k : Node, (∀ a i, k.slot = .entry a i → P a) → P k)
    (k : Node) : P k := by
  have top : ∀ k : Node, (∀ a i, k.slot ≠ .entry a i) → P k := fun k hk => h k fun a i hs =>
    absurd hs (hk a i)
  have hd := top double (by simp [slot])
  have ht := top triple (by simp [slot])
  have hc : P tripleChild := h _ fun a i hs => by
    obtain ⟨rfl, -⟩ : triple = a ∧ 0 = i := by simpa [slot] using hs
    exact ht
  cases k with
  | single => exact top _ (by simp [slot])
  | double => exact hd
  | triple => exact ht
  | tripleChild => exact hc
  | child c =>
    apply h
    intro a i hs
    obtain ⟨rfl, -⟩ : double = a ∧ c = i := by simpa [slot] using hs
    exact hd
  | tripleGrandchild =>
    apply h
    intro a i hs
    obtain ⟨rfl, -⟩ : tripleChild = a ∧ 0 = i := by simpa [slot] using hs
    exact hc

variable {ino ino' : Buf} {blk blk' : ℕ → Buf} {k₁ : Node} {b : ℕ}

theorem set_iff (hp : 0 < p) :
    k.Set ino blk p ↔ k.Within p ∧ k.block ino blk ≠ 0 ∧ ∀ a i, k.slot = .entry a i → a.Set ino blk p := by
  cases k <;> simp [Set, slot, Within, hp] <;> tauto

theorem linked (hp : 0 < p) (hin : k₁.Within p) (habove : ∀ a i, k₁.slot = .entry a i → a.Set ino blk p)
    (h0 : k₁.block ino blk = 0) (hb : b ≠ 0)
    (hptr : ∀ j < 15, 12 ≤ j → inodeBlock ino' j = if k₁.slot = .inode j then b else inodeBlock ino j)
    (hent : ∀ a : Node, a.Set ino blk p → ∀ i < p, (blk' (a.block ino blk)).u32 (4 * i) =
      if k₁.slot = .entry a i then b else (blk (a.block ino blk)).u32 (4 * i))
    (hzero : ∀ i < p, (blk' b).u32 (4 * i) = 0) : Linked p ino ino' blk blk' k₁ b := by
  have step : ∀ k : Node, k.Within p →
      (∀ a i, k.slot = .entry a i → a.Set ino blk p ∧ a.block ino' blk' = a.block ino blk) →
      k.block ino' blk' = if k = k₁ then b else k.block ino blk := by
    intro k hk ha
    have hiff : k₁.slot = k.slot ↔ k = k₁ := ⟨fun h => (slot_inj h).symm, fun h => by rw [h]⟩
    rw [block_slot ino' blk' k, block_slot ino blk k]
    cases hs : k.slot with
    | inode j =>
      have hj := slot_inode hs
      rw [hs] at hiff
      simp only [Slot.value, hptr j hj.2 hj.1, hiff]
    | entry a i =>
      obtain ⟨hset, hblk⟩ := ha a i hs
      rw [hs] at hiff
      simp only [Slot.value, hblk, hent a hset i (hk a i hs), hiff]
  have old : ∀ k : Node, k.Set ino blk p → k.block ino' blk' = k.block ino blk ∧ k.Set ino' blk' p := by
    apply slot_induction
    intro k ih hset
    obtain ⟨hw, hne, hab⟩ := (set_iff hp).mp hset
    have hblk := step k hw fun a i hs => ⟨hab a i hs, (ih a i hs (hab a i hs)).1⟩
    have hk : k ≠ k₁ := by
      intro he
      exact hne (he ▸ h0)
    rw [if_neg hk] at hblk
    exact ⟨hblk, (set_iff hp).mpr ⟨hw, hblk ▸ hne, fun a i hs => (ih a i hs (hab a i hs)).2⟩⟩
  have hblock : k₁.block ino' blk' = b := by
    rw [step k₁ hin fun a i hs => ⟨habove a i hs, (old a (habove a i hs)).1⟩, if_pos rfl]
  refine ⟨old, ?_, hblock, (set_iff hp).mpr ⟨hin, hblock ▸ hb, fun a i hs => (old a (habove a i hs)).2⟩⟩
  apply slot_induction
  intro k ih hset
  obtain ⟨hw, hne, hab⟩ := (set_iff hp).mp hset
  by_cases hk : k = k₁
  · exact .inr hk
  -- nothing hangs below the new block yet
  have hold : ∀ a i, k.slot = .entry a i → a.Set ino blk p := by
    intro a i hs
    rcases ih a i hs (hab a i hs) with ha | rfl
    · exact ha
    · rw [block_slot, hs, Slot.value, hblock, hzero i (hw a i hs)] at hne
      exact absurd rfl hne
  rw [step k hw fun a i hs => ⟨hold a i hs, (old a (hold a i hs)).1⟩, if_neg hk] at hne
  exact .inl ((set_iff hp).mpr ⟨hw, hne, hold⟩)

end Node

/-! ### The volume and one inode on it -/

def Disk.Has (d : Disk) (n : ℕ) (k : Node) : Prop := k.Set (d.record n) d.blocks d.pointersPerBlock

instance (d : Disk) (n : ℕ) : DecidablePred (d.Has n) := fun k => by unfold Disk.Has; infer_instance

/-- No inode is looked at: what is left of a well-formed volume is its metadata and its free blocks. -/
def noInode (_ : ℕ) : Prop := False

/-- The metadata of the volume is in order, the record of inode `n` is found, and its pointer blocks are
different blocks in use that hold no metadata. -/
structure Orderly (S : ℕ → Prop) (n : ℕ) (d : Disk) : Prop where
  wf : WellFormed S noInode d
  usable : ∀ b, S b → d.Usable b
  range : 1 ≤ n ∧ n ≤ d.blockGroupCount * d.inodesPerGroup
  indivisible : ¬ d.inodesPerGroup ∣ n
  pointer : ∀ k, d.Has n k → Reserved S noInode d (d.nodeBlock n k)
  inj : ∀ k a, d.Has n k → d.Has n a → d.nodeBlock n k = d.nodeBlock n a → k = a

variable {S I : ℕ → Prop} {n : ℕ} {d d' : Disk} {k₁ : Node} {b : ℕ}

theorem Ref.Live.table {r : Ref} (h : r.Live noInode d) : ∃ x, r = .table x ∧ x.Live d.toMem := by
  cases r with
  | table x => exact ⟨x, rfl, h⟩
  | data m l => exact absurd h.1 id
  | node m k => exact absurd h.1 id

theorem reserved_noInode : Reserved S noInode d b ↔
    S b ∧ ¬ d.FreeBlock b ∧ ∀ r : Meta, r.Live d.toMem → r.block d.toMem ≠ b := by
  constructor
  · intro h
    exact ⟨h.mem, h.taken, fun r hr => h.unused (.table r) hr⟩
  · intro h
    refine ⟨h.1, h.2.1, fun r hr => ?_⟩
    obtain ⟨x, rfl, hx⟩ := hr.table
    exact h.2.2 x hx

theorem WellFormed.orderly (hw : WellFormed S I d) (hS : ∀ b, S b → d.Usable b) (hn : I n)
    (hnd : ¬ d.inodesPerGroup ∣ n) (hlive : ∀ k, d.Has n k → d.NodeLive n k) : Orderly S n d where
  wf :=
    { geometry := hw.geometry
      inodes := fun m hm => absurd hm id
      mem := fun r hr => by
        obtain ⟨x, rfl, hx⟩ := hr.table
        exact hw.mem (.table x) hx
      inj := fun r s hr hs he => by
        obtain ⟨x, rfl, hx⟩ := hr.table
        obtain ⟨y, rfl, hy⟩ := hs.table
        exact hw.inj (.table x) (.table y) hx hy he
      free_mem := hw.free_mem
      free_unused := fun b hb r hr => by
        obtain ⟨x, rfl, hx⟩ := hr.table
        exact hw.free_unused b hb (.table x) hx
      counted := hw.counted }
  usable := hS
  range := hw.inodes n hn
  indivisible := hnd
  pointer k hk := by
    have hr : (Ref.node n k).Live I d := ⟨hn, hlive k hk⟩
    refine reserved_noInode.mpr ⟨hw.mem _ hr, fun hf => hw.free_unused _ hf _ hr rfl, fun x hx he => ?_⟩
    exact Ref.noConfusion (hw.inj (.table x) (.node n k) hx hr he)
  inj k a hk ha he := by
    have := hw.inj (.node n k) (.node n a) ⟨hn, hlive k hk⟩ ⟨hn, hlive a ha⟩ he
    exact (Ref.node.inj this).2

namespace Orderly

variable (h : Orderly S n d)
include h

theorem found : d.Found n :=
  h.wf.geometry.found h.range h.indivisible fun r hr => h.usable _ (h.wf.mem (.table r) hr)

theorem record_live : (d.recordRef n).Live noInode d := h.wf.geometry.record_live h.range

theorem ne_record {c : ℕ} (hc : Reserved S noInode d c) : c ≠ d.recordBlock n :=
  fun he => hc.unused _ h.record_live he.symm

theorem node_usable {k : Node} (hk : d.Has n k) : d.Usable (d.nodeBlock n k) := h.usable _
    (h.pointer k hk).mem

theorem step (k₁ : Node) (hw : WellFormed S noInode d') (hs : d.SameShape d'.toMem)
    (hres : ∀ c, Reserved S noInode d c → Reserved S noInode d' c)
    (hk : ∀ k, d'.Has n k → d.Has n k ∧ d'.nodeBlock n k = d.nodeBlock n k ∨
      k = k₁ ∧ Reserved S noInode d (d'.nodeBlock n k) ∧ ∀ a, d.Has n a →
        d.nodeBlock n a ≠ d'.nodeBlock n k) :
    Orderly S n d' where
  wf := hw
  usable c hc := (hs.usable c).mpr (h.usable c hc)
  range := by rw [hs.groups, hs.inodesPerGroup]; exact h.range
  indivisible := by rw [hs.inodesPerGroup]; exact h.indivisible
  pointer k hk' := by
    rcases hk k hk' with ⟨hold, he⟩ | ⟨-, hnew, -⟩
    · rw [he]
      exact hres _ (h.pointer k hold)
    · exact hres _ hnew
  inj k a hk' ha' he := by
    rcases hk k hk' with ⟨hko, hke⟩ | ⟨rfl, -, hkn⟩ <;> rcases hk a ha' with ⟨hao, hae⟩ | ⟨rfl, -, han⟩
    · exact h.inj k a hko hao (by rw [← hke, ← hae, he])
    · exact absurd (hke.symm.trans he) (han k hko)
    · exact absurd (hae.symm.trans he.symm) (hkn a hao)
    · rfl

theorem setBlock {x : ℕ} (buf : Buf) (hx : ∀ g < d.blockGroupCount, d.blockBitmap g ≠ x) :
    WellFormed S noInode (d.setBlock x buf) ∧
      ∀ c, Reserved S noInode d c → Reserved S noInode (d.setBlock x buf) c := by
  have hkeep : ∀ g < d.blockGroupCount, (d.setBlock x buf).blocks (Pool.blocks.bitmap d.toMem g) =
      d.blocks (Pool.blocks.bitmap d.toMem g) := fun g hg => d.setBlock_ne buf (hx g hg)
  have hmem : (d.setBlock x buf).toMem = d.toMem := rfl
  have hfree : ∀ c, (d.setBlock x buf).FreeBlock c ↔ d.FreeBlock c := fun c =>
    exists_congr fun g => exists_congr fun j => and_congr_left fun _ => Pool.clear_congr hmem hkeep
  refine ⟨?_, fun c hc => ?_⟩
  · have hadds : Adds S noInode d (d.setBlock x buf) none :=
      { shape := .refl _
        free := fun c hc => (hfree c).mp hc
        counted := h.wf.counted.congr hmem hkeep
        refs := fun r hr => by
          obtain ⟨y, rfl, hy⟩ := hr.table
          exact .inl ⟨hy, rfl⟩ }
    exact h.wf.adds hadds
  · obtain ⟨h1, h2, h3⟩ := reserved_noInode.mp hc
    exact reserved_noInode.mpr ⟨h1, fun hf => h2 ((hfree c).mp hf), h3⟩

theorem bitmap_ne_record {g : ℕ} (hg : g < d.blockGroupCount) : d.blockBitmap g ≠ d.recordBlock n := by
  intro he
  have := h.wf.inj (.table (.blockBitmap g)) (d.recordRef n) hg h.record_live he
  simp [Mem.recordRef] at this

end Orderly

/-! ### Taking a block -/

structure Gives (S : ℕ → Prop) (n : ℕ) (d : Disk) (b : ℕ) (d' : Disk) : Prop where
  orderly : Orderly S n d'
  shape : d.SameShape d'.toMem
  record : d'.record n = d.record n
  has : ∀ k, d'.Has n k ↔ d.Has n k
  node : ∀ k, d.Has n k → d'.nodeBlock n k = d.nodeBlock n k ∧ d'.blocks (d.nodeBlock n k) =
    d.blocks (d.nodeBlock n k)
  block : Reserved S noInode d' b
  fresh : ∀ k, d'.Has n k → d'.nodeBlock n k ≠ b
  zero : ∀ x < d.blockSize, d'.blocks b x = 0
  free : d'.freeBlocks + 1 = d.freeBlocks

theorem Took.gives {g j : ℕ} (h : Orderly S n d) (ht : Took .blocks g j d d') : Gives S n d
    (d.blockAt g j) d' := by
  have hs := ht.shape
  have hrec : d'.record n = d.record n := by
    unfold Disk.record
    rw [hs.recordBlock, hs.recordByte]
    exact congrArg (fun c : Buf => c.drop (d.recordByte n))
      (Took.keeps h.wf h.usable ht h.record_live (by simp [Mem.recordRef]) (by simp [Mem.recordRef]))
  have hkeep : ∀ k, d.Has n k → d'.blocks (d.nodeBlock n k) = d.blocks (d.nodeBlock n k) :=
    fun k hk => (Took.reserved_old h.wf h.usable ht (h.pointer k hk)).2
  have hblock : ∀ k, d.Has n k → d'.nodeBlock n k = d.nodeBlock n k :=
    fun k hk => Node.block_congr (fun _ _ _ => by rw [hrec]) fun a ha => hkeep a (hk.above ha)
  have hhas : ∀ k, d'.Has n k ↔ d.Has n k := by
    intro k
    unfold Disk.Has
    rw [hs.pointers]
    constructor
    · exact Node.set_congr (fun _ _ _ => by rw [hrec]) fun a _ ha => hkeep a ha
    · exact fun hk => hk.of_block hblock
  have hfree : d.FreeBlock (d.blockAt g j) := ⟨g, j, ht.clear, rfl⟩
  refine ⟨?_, hs, hrec, hhas, fun k hk => ⟨hblock k hk, hkeep k hk⟩, Took.reserved h.wf h.usable ht,
    fun k hk he => ?_,
    ht.zero rfl, ?_⟩
  · exact h.step .single (h.wf.adds (Took.adds h.wf h.usable ht)) hs
      (fun c hc => (Took.reserved_old h.wf h.usable ht hc).1)
      fun k hk => .inl ⟨(hhas k).mp hk, hblock k ((hhas k).mp hk)⟩
  · have hold := (hhas k).mp hk
    rw [hblock k hold] at he
    exact (h.pointer k hold).taken (he ▸ hfree)
  · rw [Disk.freeBlocks, ht.mem]
    exact Pool.take_free_self ht.clear.1 ht.pos

theorem freeBlocks_pos (hfree : 0 < d.freeBlocks) : ∃ g < d.blockGroupCount,
    0 < Pool.blocks.count d.toMem g := by
  by_contra hc
  push Not at hc
  have : d.freeBlocks = 0 := Finset.sum_eq_zero fun g hg => Nat.le_zero.mp (hc g (Finset.mem_range.mp hg))
  omega

theorem count_eq_zero (hfree : d.freeBlocks = 0) {g : ℕ} (hg : g < d.blockGroupCount) :
    Pool.blocks.count d.toMem g = 0 := by
  unfold Disk.freeBlocks Pool.free at hfree
  exact Finset.sum_eq_zero_iff.mp hfree g (Finset.mem_range.mpr hg)

theorem allocateBlock_gives (h : Orderly S n d) :
    Does allocateBlock d (d.bgdBlockSpan + 3) fun b d' =>
      b = 0 ∧ d' = d ∧ d.freeBlocks = 0 ∨ b ≠ 0 ∧ Gives S n d b d' := by
  rcases Nat.eq_zero_or_pos d.freeBlocks with h0 | hpos
  · refine (allocateBlock_none fun g hg => count_eq_zero h0 hg).mono (by omega) ?_
    intro b d' hq
    exact .inl ⟨hq.1, hq.2, h0⟩
  · refine (allocateBlock_spec (h.wf.allocOk h.usable) h.wf.counted (freeBlocks_pos hpos)).mono le_rfl ?_
    rintro b d' ⟨g, j, rfl, ht⟩
    have hg := Took.gives h ht
    exact .inr ⟨(h.usable _ hg.block.mem).1, hg⟩

/-! ### Filling a slot -/

/-- The pointer block `k₁` is there afterwards; it took a block if it was not there before. -/
structure Reaches (S : ℕ → Prop) (n : ℕ) (d : Disk) (k₁ : Node) (d' : Disk) : Prop where
  orderly : Orderly S n d'
  shape : d.SameShape d'.toMem
  size : inodeBlocks (d'.record n) = inodeBlocks (d.record n)
  has : ∀ k, d'.Has n k ↔ d.Has n k ∨ k = k₁
  free : d'.freeBlocks + (if d.Has n k₁ then 0 else 1) = d.freeBlocks

theorem Reaches.refl (h : Orderly S n d) (hk : d.Has n k₁) : Reaches S n d k₁ d where
  orderly := h
  shape := .refl _
  size := rfl
  has k := ⟨.inl, fun hk' => hk'.elim id fun he => he ▸ hk⟩
  free := by rw [if_pos hk, Nat.add_zero]

theorem Gives.reaches {d₁ : Disk} {x : ℕ} {buf : Buf} (hg : Gives S n d b d₁) (h0 : ¬ d.Has n k₁)
    (hx : ∀ g < d₁.blockGroupCount, d₁.blockBitmap g ≠ x)
    (hsize : inodeBlocks ((d₁.setBlock x buf).record n) = inodeBlocks (d₁.record n))
    (hlink : Node.Linked d₁.pointersPerBlock (d₁.record n) ((d₁.setBlock x buf).record n) d₁.blocks
      (d₁.setBlock x buf).blocks k₁ b) : Reaches S n d k₁ (d₁.setBlock x buf) := by
  obtain ⟨hw, hres⟩ := hg.orderly.setBlock buf hx
  have honly : ∀ k, (d₁.setBlock x buf).Has n k → d₁.Has n k ∧ (d₁.setBlock x buf).nodeBlock n k =
    d₁.nodeBlock n k ∨
      k = k₁ ∧ Reserved S noInode d₁ ((d₁.setBlock x buf).nodeBlock n k) ∧
        ∀ a, d₁.Has n a → d₁.nodeBlock n a ≠ (d₁.setBlock x buf).nodeBlock n k := by
    intro k hk
    rcases hlink.only k hk with hold | rfl
    · exact .inl ⟨hold, (hlink.old k hold).1⟩
    · have hb : (d₁.setBlock x buf).nodeBlock n k = b := hlink.block
      rw [hb]
      exact .inr ⟨rfl, hg.block, hg.fresh⟩
  refine ⟨hg.orderly.step k₁ hw (.refl _) hres honly, hg.shape, by rw [hsize, hg.record], fun k => ?_, ?_⟩
  · rw [← hg.has k]
    constructor
    · exact hlink.only k
    · rintro (hk | rfl)
      · exact (hlink.old k hk).2
      · exact hlink.set
  · rw [if_neg h0]
    exact hg.free

theorem Gives.pointers_zero {d₁ : Disk} (hg : Gives S n d b d₁) {x : ℕ} {buf : Buf} (hx : b ≠ x) {i : ℕ}
    (hi : i < d₁.pointersPerBlock) : ((d₁.setBlock x buf).blocks b).u32 (4 * i) = 0 := by
  have h4 := hg.orderly.wf.geometry.four_dvd
  have hbs := hg.shape.blockSize
  rw [d₁.setBlock_ne buf hx]
  simp only [u32, u16]
  rw [hg.zero _ (by omega), hg.zero _ (by omega), hg.zero _ (by omega), hg.zero _ (by omega)]
  rfl

theorem Gives.lt {d₁ : Disk} (hg : Gives S n d b d₁) : b < 2 ^ 32 :=
  (hg.orderly.usable b hg.block.mem).lt (by have := hg.orderly.wf.geometry.sizeOk.le; omega)

section Fill

variable (h : Orderly S n d)
include h

theorem ensureSlot_reaches (k₁ : Node) {ino : Buf} (hold : Holds d n ino) {j : ℕ} (hs : k₁.slot = .inode j) :
    Does (ensureSlot ino n j) d (d.bgdBlockSpan + 5) fun r d' =>
      r = none ∧ d' = d ∧ d.freeBlocks = 0 ∧ ¬ d.Has n k₁ ∨
      ∃ ino', r = some ino' ∧ Holds d' n ino' ∧ Reaches S n d k₁ d' := by
  have hz := h.wf.geometry.inode_ge
  have hp := h.wf.geometry.pointers_pos
  have hj := Node.slot_inode hs
  have hnone : ∀ a i, k₁.slot ≠ .entry a i := by simp [hs]
  have hval : d.Has n k₁ ↔ inodeBlock ino j ≠ 0 := by
    unfold Disk.Has
    rw [Node.set_iff hp, Node.block_slot, hs, inodeBlock_congr hold hz j hj.2]
    exact ⟨fun hq => hq.2.1, fun hq =>
      ⟨fun a i he => absurd (hs ▸ he) (by simp), hq, fun a i he => by simp at he⟩⟩
  unfold ensureSlot
  split_ifs with h0
  · exact .pure (.inr ⟨ino, rfl, hold, .refl h (hval.mpr h0)⟩)
  have hns : ¬ d.Has n k₁ := fun hk => h0 (hval.mp hk)
  refine ((allocateBlock_gives h).bind (m := 2) ?_).mono (by omega) fun _ _ hq => hq
  rintro b d₁ (⟨rfl, rfl, hfree⟩ | ⟨hb0, hg⟩)
  · rw [if_pos rfl]
    exact .pure (.inl ⟨rfl, rfl, hfree, hns⟩)
  rw [if_neg hb0]
  have hz₁ := hg.orderly.wf.geometry.inode_ge
  have hold₁ : Holds d₁ n ino := by
    unfold Holds
    rw [hg.record, hg.shape.inodeSize]
    exact hold
  refine ((hg.orderly.found.writeInode_spec _).bind (m := 0) ?_).mono (by omega) fun _ _ hq => hq
  rintro - d₂ rfl
  have hrec : SameOn ((d₁.putRecord n (setInodeBlock ino j b)).record n) (setInodeBlock ino j b) 0
    d₁.inodeSize :=
    putRecord_self d₁ n _
  refine .pure (.inr ⟨_, rfl, hrec.symm, hg.reaches hns (fun g hgt => hg.orderly.bitmap_ne_record hgt) ?_ ?_⟩)
  · exact (inodeBlocks_congr hrec hz₁).trans (inodeBlocks_setInodeBlock.trans (inodeBlocks_congr hold₁ hz₁))
  · refine Node.linked hg.orderly.wf.geometry.pointers_pos (fun a i he => absurd he (hnone a i))
      (fun a i he => absurd he (hnone a i)) ?_ hb0 (fun i hi hi' => ?_) (fun a ha i hi => ?_) fun i hi => ?_
    · rw [Node.block_slot, hs]
      exact (inodeBlock_congr hold₁ hz₁ j hj.2).symm.trans (not_ne_iff.mp h0)
    · have hw : inodeBlock ((d₁.putRecord n (setInodeBlock ino j b)).record n) i =
          inodeBlock (setInodeBlock ino j b) i := inodeBlock_congr hrec hz₁ i hi
      refine hw.trans ?_
      rw [inodeBlock_setInodeBlock hg.lt, hs, inodeBlock_congr hold₁ hz₁ i hi]
      simp only [Slot.inode.injEq, eq_comm (a := i)]
    · rw [if_neg (hnone a i)]
      exact congrArg (fun c : Buf => c.u32 (4 * i))
        (d₁.setBlock_ne _ (hg.orderly.ne_record (hg.orderly.pointer a ha)))
    · exact hg.pointers_zero (hg.orderly.ne_record hg.block) hi

theorem ensureEntry_reaches (k₁ : Node) {tmp : Buf} {a : Node} {i : ℕ} (hs : k₁.slot = .entry a i)
    (hi : i < d.pointersPerBlock)
    (ha : d.Has n a) (htmp : SameOn tmp (d.blocks (d.nodeBlock n a)) 0 d.blockSize) :
    Does (ensureEntry tmp (d.nodeBlock n a) i) d (d.bgdBlockSpan + 4) fun r d' =>
      r = none ∧ d' = d ∧ d.freeBlocks = 0 ∧ ¬ d.Has n k₁ ∨
      ∃ tmp', r = some tmp' ∧ tmp'.u32 (4 * i) = d'.nodeBlock n k₁ ∧ d'.record n = d.record n ∧
        Reaches S n d k₁ d' := by
  have h4 := h.wf.geometry.four_dvd
  have hp := h.wf.geometry.pointers_pos
  have hself : ∀ x y, k₁.slot = .entry x y → x = a ∧ y = i := by
    intro x y he
    rw [hs] at he
    simpa [eq_comm] using he
  have hblk : d.nodeBlock n k₁ = (d.blocks (d.nodeBlock n a)).u32 (4 * i) := by
    unfold Disk.nodeBlock
    rw [Node.block_slot, hs]
    rfl
  have hentry : tmp.u32 (4 * i) = d.nodeBlock n k₁ := hblk ▸ u32_congr (htmp.mono (by omega) (by omega))
  have hval : d.Has n k₁ ↔ tmp.u32 (4 * i) ≠ 0 := by
    unfold Disk.Has
    rw [Node.set_iff hp, hentry]
    exact ⟨fun hq => hq.2.1, fun hq => ⟨fun x y he => (hself x y he).2 ▸ hi, hq, fun x y he =>
      (hself x y he).1 ▸ ha⟩⟩
  unfold ensureEntry
  split_ifs with h0
  · exact .pure (.inr ⟨tmp, rfl, hentry, rfl, .refl h (hval.mpr h0)⟩)
  have hns : ¬ d.Has n k₁ := fun hk => h0 (hval.mp hk)
  refine ((allocateBlock_gives h).bind (m := 1) ?_).mono (by omega) fun _ _ hq => hq
  rintro b d₁ (⟨rfl, rfl, hfree⟩ | ⟨hb0, hg⟩)
  · rw [if_pos rfl]
    exact .pure (.inl ⟨rfl, rfl, hfree, hns⟩)
  rw [if_neg hb0]
  obtain ⟨hnb, hcont⟩ := hg.node a ha
  have ha₁ : d₁.Has n a := (hg.has a).mpr ha
  have hres := hg.orderly.pointer a ha₁
  have hput : d₁.put (d₁.nodeBlock n a) (tmp.setU32 (4 * i) b) =
      d₁.setBlock (d₁.nodeBlock n a) ((d₁.blocks (d₁.nodeBlock n a)).setU32 (4 * i) b) := by
    have hbs := hg.shape.blockSize
    refine put_entry ?_ (by omega)
    rw [hnb, hcont, hbs]
    exact htmp
  rw [← hnb]
  refine does_writeBlock (hg.orderly.node_usable ha₁) ?_
  rw [hput]
  set d₂ := d₁.setBlock (d₁.nodeBlock n a) ((d₁.blocks (d₁.nodeBlock n a)).setU32 (4 * i) b) with hd₂
  have hrec : d₂.record n = d₁.record n :=
    congrArg (fun c : Buf => c.drop (d₁.recordByte n)) (d₁.setBlock_ne _ (hg.orderly.ne_record hres).symm)
  have hat : d₂.blocks (d₁.nodeBlock n a) = (d₁.blocks (d₁.nodeBlock n a)).setU32 (4 * i) b :=
    d₁.setBlock_self _ _
  have hlink : Node.Linked d₁.pointersPerBlock (d₁.record n) (d₂.record n) d₁.blocks d₂.blocks k₁ b := by
    refine Node.linked hg.orderly.wf.geometry.pointers_pos (fun x y he => ?_) (fun x y he =>
      (hself x y he).1 ▸ ha₁) ?_ hb0
      (fun j _ _ => ?_) (fun x hx y hy => ?_) fun y hy => ?_
    · rw [(hself x y he).2, hg.shape.pointers]
      exact hi
    · rw [Node.block_slot, hs]
      change (d₁.blocks (d₁.nodeBlock n a)).u32 (4 * i) = 0
      rw [hnb, hcont, ← hblk, ← hentry]
      exact not_ne_iff.mp h0
    · rw [hrec, if_neg (by simp [hs])]
    · change (d₂.blocks (d₁.nodeBlock n x)).u32 (4 * y) = if _ then b else (d₁.blocks (d₁.nodeBlock n x)).u32
        (4 * y)
      by_cases hxa : x = a
      · subst hxa
        rw [hat, u32_entry hg.lt, hs]
        simp only [Slot.entry.injEq, true_and, eq_comm (a := y)]
      · rw [if_neg fun he => hxa (hself x y he).1]
        exact congrArg (fun c : Buf => c.u32 (4 * y))
          (d₁.setBlock_ne _ fun he => hxa (hg.orderly.inj x a hx ha₁ he))
    · exact hg.pointers_zero (fun he => hg.fresh a ha₁ he.symm) hy
  refine .pure
    (.inr ⟨_, rfl, ?_, hrec.trans hg.record, hg.reaches hns (fun g hgt => ?_) (by rw [← hd₂, hrec]) hlink⟩)
  · rw [u32_setU32, Nat.mod_eq_of_lt hg.lt]
    exact hlink.block.symm
  · exact hres.unused (.table (.blockBitmap g)) hgt

end Fill

/-! ### `set_block_number` -/

/-- How many of the pointer blocks the inode lacks. -/
def Disk.lack (d : Disk) (n : ℕ) (ks : List Node) : ℕ := ks.countP fun k => ¬ d.Has n k

def Mem.mapEnd (m : Mem) : ℕ :=
    12 + m.pointersPerBlock + m.pointersPerBlock * m.pointersPerBlock + m.pointersPerBlock

/-- The pointer blocks `ks` are there afterwards, at the cost of those that were lacking. -/
structure Climbs (S : ℕ → Prop) (n : ℕ) (d : Disk) (ks : List Node) (d' : Disk) : Prop where
  orderly : Orderly S n d'
  shape : d.SameShape d'.toMem
  size : inodeBlocks (d'.record n) = inodeBlocks (d.record n)
  has : ∀ k, d'.Has n k ↔ d.Has n k ∨ k ∈ ks
  free : d'.freeBlocks + d.lack n ks = d.freeBlocks

namespace Climbs

variable {ks : List Node} {d₁ : Disk}

theorem refl (h : Orderly S n d) : Climbs S n d [] d :=
  ⟨h, .refl _, rfl, fun k => by simp, by simp [Disk.lack]⟩

variable (h : Climbs S n d ks d₁) (hk : k₁ ∉ ks)
include h hk

theorem has_next : d₁.Has n k₁ ↔ d.Has n k₁ := by
  rw [h.has]
  exact or_iff_left hk

theorem next (hr : Reaches S n d₁ k₁ d') : Climbs S n d (ks ++ [k₁]) d' where
  orderly := hr.orderly
  shape := h.shape.trans hr.shape
  size := hr.size.trans h.size
  has k := by
    rw [hr.has, h.has, List.mem_append, List.mem_singleton, or_assoc]
  free := by
    have h1 := hr.free
    have h2 := h.free
    have h3 : d.lack n [k₁] = if d₁.Has n k₁ then 0 else 1 := by
      simp only [Disk.lack, List.countP_singleton, h.has_next hk, decide_not, Bool.not_eq_true',
        decide_eq_false_iff_not]
      split_ifs <;> rfl
    unfold Disk.lack at *
    rw [List.countP_append, h3]
    omega

/-- The way ends where the blocks run out. -/
theorem short (hfree : d₁.freeBlocks = 0) (hno : ¬ d₁.Has n k₁) (rest : List Node) :
    d.freeBlocks < d.lack n (ks ++ k₁ :: rest) := by
  have h1 := h.free
  have h2 : ¬ d.Has n k₁ := fun hd => hno ((h.has_next hk).mpr hd)
  unfold Disk.lack at *
  rw [List.countP_append, List.countP_cons_of_pos (by simpa using h2)]
  omega

end Climbs

/-- What `set_block_number` leaves for file block `l`: the way to it is there, or the blocks ran out on
the way, or the block map does not reach it. -/
structure Tries (S : ℕ → Prop) (n l : ℕ) (d : Disk) (r : Err × Buf) (d' : Disk) : Prop where
  orderly : Orderly S n d'
  shape : d.SameShape d'.toMem
  size : inodeBlocks (d'.record n) = inodeBlocks (d.record n)
  units : inodeBlocks r.2 = inodeBlocks (d'.record n)
  pointers : ∀ j < 15, 12 ≤ j → inodeBlock r.2 j = inodeBlock (d'.record n) j
  result : (r.1 = .success ∧ l < d.mapEnd ∨ r.1 = .badBlock ∧ d.mapEnd ≤ l) ∧
      (∀ k, d'.Has n k ↔ d.Has n k ∨ k ∈ spine d.pointersPerBlock l) ∧
      d'.freeBlocks + d.lack n (spine d.pointersPerBlock l) = d.freeBlocks ∨
    r.1 = .noSpace ∧ d.freeBlocks < d.lack n (spine d.pointersPerBlock l) ∧ d'.freeBlocks = 0

section Set

variable {ino : Buf} {l : ℕ} {ks : List Node} {d₁ : Disk}

theorem Climbs.noSpace (h : Climbs S n d ks d₁) (hk : k₁ ∉ ks) (hfree : d₁.freeBlocks = 0)
    (hno : ¬ d₁.Has n k₁)
    (hold : Holds d₁ n ino) (rest : List Node) (hspine : spine d.pointersPerBlock l = ks ++ k₁ :: rest) :
    Tries S n l d (.noSpace, ino) d₁ where
  orderly := h.orderly
  shape := h.shape
  size := h.size
  units := inodeBlocks_congr hold h.orderly.wf.geometry.inode_ge
  pointers j hj _ := inodeBlock_congr hold h.orderly.wf.geometry.inode_ge j hj
  result := .inr ⟨rfl, hspine ▸ h.short hk hfree hno rest, hfree⟩

theorem Climbs.success (h : Climbs S n d (spine d.pointersPerBlock l) d₁) (hl : l < d.mapEnd)
    (hold : Holds d₁ n ino) :
    Tries S n l d (.success, ino) d₁ where
  orderly := h.orderly
  shape := h.shape
  size := h.size
  units := inodeBlocks_congr hold h.orderly.wf.geometry.inode_ge
  pointers j hj _ := inodeBlock_congr hold h.orderly.wf.geometry.inode_ge j hj
  result := .inl ⟨.inl ⟨rfl, hl⟩, h.has, h.free⟩

theorem Climbs.store (h : Climbs S n d ks d₁) {tmp : Buf} {k : Node} {i v : ℕ}
    (hpl : place d.pointersPerBlock l = some (.entry k i)) (hk : k ∈ ks) :
    Does (storeEntry tmp (d₁.nodeBlock n k) i v) d₁ 2 fun _ d' => d'.record n = d₁.record n ∧ d'.inodeSize =
      d₁.inodeSize ∧
      Climbs S n d ks d' := by
  have ho := h.orderly
  have hset : d₁.Has n k := (h.has k).mpr (.inr hk)
  have hu := ho.node_usable hset
  have hres := ho.pointer k hset
  have h4 := ho.wf.geometry.four_dvd
  have hi := place_index hpl
  have hp := h.shape.pointers
  refine does_readBlock hu (does_writeBlock hu ?_)
  rw [put_entry (blit_sameOn _ _ _) (by omega)]
  set d₂ := d₁.setBlock (d₁.nodeBlock n k) ((d₁.blocks (d₁.nodeBlock n k)).setU32 (4 * i) v)
  have hrec : d₂.record n = d₁.record n :=
    congrArg (fun c : Buf => c.drop (d₁.recordByte n)) (d₁.setBlock_ne _ (ho.ne_record hres).symm)
  have hkeep : ∀ a c : Node, c ∈ a.above → d₁.Has n c → d₂.blocks (d₁.nodeBlock n c) =
    d₁.blocks (d₁.nodeBlock n c) :=
    fun a c hc hcs => d₁.setBlock_ne _ fun he => not_above_of_place hpl a c hc (ho.inj c k hcs hset he)
  have hblock : ∀ a, d₁.Has n a → d₂.nodeBlock n a = d₁.nodeBlock n a := fun a ha =>
    Node.block_congr (fun _ _ _ => by rw [hrec]) fun c hc => hkeep a c hc (ha.above hc)
  have hhas : ∀ a, d₂.Has n a ↔ d₁.Has n a := fun a =>
    ⟨Node.set_congr (fun _ _ _ => by rw [hrec]) fun c hc hcs => hkeep a c hc hcs, fun ha =>
      ha.of_block hblock⟩
  obtain ⟨hw, hstill⟩ := ho.setBlock ((d₁.blocks (d₁.nodeBlock n k)).setU32 (4 * i) v)
    fun g hg => hres.unused (.table (.blockBitmap g)) hg
  refine .pure ⟨hrec, rfl, ?_, h.shape, by rw [hrec, h.size], fun a => (hhas a).trans (h.has a), h.free⟩
  exact ho.step .single hw (.refl _) hstill fun a ha => .inl ⟨(hhas a).mp ha, hblock a ((hhas a).mp ha)⟩

theorem holds_of_record (hold : Holds d₁ n ino) (hrec : d'.record n = d₁.record n)
    (hz : d'.inodeSize = d₁.inodeSize) :
    Holds d' n ino := by
  unfold Holds
  rw [hrec, hz]
  exact hold

theorem Holds.slot (hold : Holds d₁ n ino) (ho : Orderly S n d₁) (k₁ : Node) {j : ℕ}
    (hs : k₁.slot = .inode j) :
    inodeBlock ino j = d₁.nodeBlock n k₁ := by
  unfold Disk.nodeBlock
  rw [Node.block_slot, hs]
  exact inodeBlock_congr hold ho.wf.geometry.inode_ge j (Node.slot_inode hs).2

variable (h : Orderly S n d) (hold : Holds d n ino) (v : ℕ)
include h hold

theorem setBlockNumber_tries :
    Does (setBlockNumber ino n l v) d (3 * d.bgdBlockSpan + 17) fun r d' => Tries S n l d r d' := by
  have hgeo := h.wf.geometry
  have h0 := Climbs.refl h
  refine does_this ?_
  rw [mapPath_eq hgeo.pointers_pos hgeo.map_lt]
  set p := d.pointersPerBlock with hp
  by_cases h1 : l < 12
  · -- the pointer is set in the inode in memory only
    have hspine : spine d.pointersPerBlock l = [] := spine_direct h1
    simp only [h1, if_true]
    refine .pure ⟨h, .refl _, rfl, ?_, fun j hj hj' => ?_,
      .inl ⟨.inl ⟨rfl, ?_⟩, hspine ▸ h0.has, hspine ▸ h0.free⟩⟩
    · exact inodeBlocks_setInodeBlock.trans (inodeBlocks_congr hold hgeo.inode_ge)
    · refine Eq.trans (u32_setU32_ne ?_) (inodeBlock_congr hold hgeo.inode_ge j hj)
      omega
    · unfold Mem.mapEnd
      omega
  simp only [h1, if_false]
  by_cases h2 : l < 12 + p
  · have hpl : place p l = some (.entry .single (l - 12)) := by simp [place, h1, h2]
    have hspine : spine p l = [.single] := by simp [spine, hpl, Slot.spine, Node.above]
    simp only [h2, if_true]
    refine ((ensureSlot_reaches h .single hold rfl).bind (m := 2) ?_).mono (by omega) fun _ _ hq => hq
    rintro _ d₁ (⟨rfl, rfl, hfree, hno⟩ | ⟨ino₁, rfl, hold₁, hr₁⟩)
    · exact .pure (h0.noSpace (by simp) hfree hno hold [] hspine)
    have hc₁ := h0.next (by simp) hr₁
    refine does_malloc fun tmp => ?_
    rw [hold₁.slot hc₁.orderly .single rfl]
    refine (hc₁.store hpl (by simp)).bind (m := 0) ?_
    rintro - d₂ ⟨hrec, hz, hc₂⟩
    refine .pure (Climbs.success (hspine ▸ hc₂) ?_ (holds_of_record hold₁ hrec hz))
    unfold Mem.mapEnd
    omega
  simp only [h2, if_false]
  by_cases h3 : l < 12 + p + p * p
  · have hpl : place p l = some (.entry (.child ((l - 12 - p) / p)) ((l - 12 - p) % p)) := by
      simp [place, h1, h2, h3]
    have hc : (l - 12 - p) / p < p := Nat.div_lt_of_lt_mul (by omega)
    simp only [h3, if_true]
    set c := (l - 12 - p) / p
    have hspine : spine p l = [.double, .child c] := by simp [spine, hpl, Slot.spine, Node.above]
    refine ((ensureSlot_reaches h .double hold rfl).bind (m := d.bgdBlockSpan + 7) ?_).mono (by omega)
      fun _ _ hq => hq
    rintro _ d₁ (⟨rfl, rfl, hfree, hno⟩ | ⟨ino₁, rfl, hold₁, hr₁⟩)
    · exact .pure (h0.noSpace (by simp) hfree hno hold [.child c] hspine)
    have hc₁ := h0.next (by simp) hr₁
    have hd₁ : d₁.Has n .double := (hr₁.has _).mpr (.inr rfl)
    refine does_malloc fun tmp => ?_
    rw [hold₁.slot hc₁.orderly .double rfl]
    refine does_readBlock (hc₁.orderly.node_usable hd₁) ?_
    refine ((ensureEntry_reaches hc₁.orderly (.child c) rfl (hc₁.shape.pointers ▸ hc) hd₁
      (blit_sameOn _ _ _)).bind (m := 2) ?_).mono (by rw [hc₁.shape.span]) fun _ _ hq => hq
    rintro _ d₂ (⟨rfl, rfl, hfree, hno⟩ | ⟨tmp₁, rfl, htmp, hrec₂, hr₂⟩)
    · exact .pure (hc₁.noSpace (by simp) hfree hno hold₁ [] hspine)
    have hc₂ := hc₁.next (by simp) hr₂
    dsimp only
    rw [htmp]
    refine (hc₂.store hpl (by simp)).bind (m := 0) ?_
    rintro - d₃ ⟨hrec₃, hz₃, hc₃⟩
    refine .pure (Climbs.success (hspine ▸ hc₃) ?_ ?_)
    · rw [Mem.mapEnd, ← hp]
      omega
    · exact holds_of_record hold₁ (hrec₃.trans hrec₂) (hz₃.trans hr₂.shape.inodeSize)
  simp only [h3, if_false]
  by_cases h4 : l < 12 + p + p * p + p
  · have hpl : place p l =
      some (.entry .tripleGrandchild (l - 12 - p - p * p)) := by simp [place, h1, h2, h3, h4]
    have hspine : spine p l =
      [.triple, .tripleChild, .tripleGrandchild] := by simp [spine, hpl, Slot.spine, Node.above]
    simp only [h4, if_true]
    refine ((ensureSlot_reaches h .triple hold rfl).bind (m := 2 * d.bgdBlockSpan + 12) ?_).mono (by omega)
      fun _ _ hq => hq
    rintro _ d₁ (⟨rfl, rfl, hfree, hno⟩ | ⟨ino₁, rfl, hold₁, hr₁⟩)
    · exact .pure (h0.noSpace (by simp) hfree hno hold [.tripleChild, .tripleGrandchild] hspine)
    have hc₁ := h0.next (by simp) hr₁
    have hd₁ : d₁.Has n .triple := (hr₁.has _).mpr (.inr rfl)
    refine does_malloc fun tmp => ?_
    rw [hold₁.slot hc₁.orderly .triple rfl]
    refine does_readBlock (hc₁.orderly.node_usable hd₁) ?_
    refine ((ensureEntry_reaches hc₁.orderly .tripleChild rfl hc₁.orderly.wf.geometry.pointers_pos hd₁
      (blit_sameOn _ _ _)).bind (m := d.bgdBlockSpan + 7) ?_).mono (by rw [hc₁.shape.span]; omega)
        fun _ _ hq => hq
    rintro _ d₂ (⟨rfl, rfl, hfree, hno⟩ | ⟨tmp₁, rfl, htmp, hrec₂, hr₂⟩)
    · exact .pure (hc₁.noSpace (by simp) hfree hno hold₁ [.tripleGrandchild] hspine)
    have hc₂ := hc₁.next (by simp) hr₂
    have hd₂ : d₂.Has n .tripleChild := (hr₂.has _).mpr (.inr rfl)
    have hold₂ : Holds d₂ n ino₁ := holds_of_record hold₁ hrec₂ hr₂.shape.inodeSize
    dsimp only
    rw [htmp]
    refine does_readBlock (hc₂.orderly.node_usable hd₂) ?_
    refine ((ensureEntry_reaches hc₂.orderly .tripleGrandchild rfl hc₂.orderly.wf.geometry.pointers_pos hd₂
      (blit_sameOn _ _ _)).bind (m := 2) ?_).mono (by rw [hc₂.shape.span]) fun _ _ hq => hq
    rintro _ d₃ (⟨rfl, rfl, hfree, hno⟩ | ⟨tmp₂, rfl, htmp₂, hrec₃, hr₃⟩)
    · exact .pure (hc₂.noSpace (by simp) hfree hno hold₂ [] hspine)
    have hc₃ := hc₂.next (by simp) hr₃
    dsimp only
    rw [htmp₂]
    refine (hc₃.store hpl (by simp)).bind (m := 0) ?_
    rintro - d₄ ⟨hrec₄, hz₄, hc₄⟩
    exact .pure (Climbs.success (hspine ▸ hc₄) h4
      (holds_of_record hold₂ (hrec₄.trans hrec₃) (hz₄.trans hr₃.shape.inodeSize)))
  · have hspine : spine d.pointersPerBlock l = [] := by simp [spine, place, ← hp, h1, h2, h3, h4]
    simp only [h4, if_false]
    refine .pure ⟨h, .refl _, rfl, inodeBlocks_congr hold hgeo.inode_ge, fun j hj _ =>
      inodeBlock_congr hold hgeo.inode_ge j hj,
      .inl ⟨.inr ⟨rfl, ?_⟩, hspine ▸ h0.has, hspine ▸ h0.free⟩⟩
    rw [Mem.mapEnd, ← hp]
    omega

end Set

end ChiffOS.Ext2
