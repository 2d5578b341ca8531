import ChiffOS.Ext2.OutOfSpace

/-! The loop of `inode_write_block`, which gives the file one block a round until it reaches the block to
write. It ends if every round finds a free block and the size in units does not wrap. A round that finds none
changes nothing, on the disk or in the cache, that the next one looks at. -/

namespace ChiffOS.Ext2

open Buf Prog Option

variable {S : ℕ → Prop} {n l : ℕ} {d d' : Disk} {ino : Buf}

/-! ### What the loop takes -/

def Disk.lacking (d : Disk) (n lo hi : ℕ) : Finset Node :=
  ((Finset.Ico lo hi).biUnion fun l => (spine d.pointersPerBlock l).toFinset).filter fun k => ¬ d.Has n k

/-- Block `l` can be made a block of the file: its number fits the size in units, and the volume has a block
for each file block up to it and for the pointer blocks of those before it. -/
structure Disk.Fillable (d : Disk) (n l : ℕ) : Prop where
  units : (l + 1) * (d.blockSize / 512) < 2 ^ 32
  room : (l + 1 - d.fileBlocks n) + (d.lacking n (d.fileBlocks n) l).card ≤ d.freeBlocks

theorem spine_nodup (p l : ℕ) : (spine p l).Nodup := by
  unfold spine place
  split_ifs <;> simp [Slot.spine, Node.above]

theorem lack_eq_card (d : Disk) (n : ℕ) {ks : List Node} (hk : ks.Nodup) :
    d.lack n ks = (ks.toFinset.filter fun k => ¬ d.Has n k).card := by
  have he : (ks.toFinset.filter fun k => ¬ d.Has n k) = (ks.filter fun k => ¬ d.Has n k).toFinset := by
    ext k
    simp
  rw [he, List.toFinset_card_of_nodup (hk.filter _), Disk.lack, List.countP_eq_length_filter]

theorem lacking_self (d : Disk) (n lo : ℕ) : d.lacking n lo lo = ∅ := by
  simp [Disk.lacking]

theorem lacking_step {lo : ℕ} (hlo : lo < l) (hp : d'.pointersPerBlock = d.pointersPerBlock)
    (hhas : ∀ k, d'.Has n k ↔ d.Has n k ∨ k ∈ spine d.pointersPerBlock lo) :
    (d.lacking n lo l).card = d.lack n (spine d.pointersPerBlock lo) + (d'.lacking n (lo + 1) l).card := by
  have hsplit : d.lacking n lo l = ((spine d.pointersPerBlock lo).toFinset.filter fun k => ¬ d.Has n k) ∪
      d'.lacking n (lo + 1) l := by
    ext k
    simp only [Disk.lacking, Finset.mem_filter, Finset.mem_biUnion, Finset.mem_Ico, List.mem_toFinset,
      Finset.mem_union, hp, hhas]
    constructor
    · rintro ⟨⟨m, ⟨h1, h2⟩, hk⟩, hno⟩
      by_cases hin : k ∈ spine d.pointersPerBlock lo
      · exact .inl ⟨hin, hno⟩
      · have hm : m ≠ lo := fun he => hin (he ▸ hk)
        exact .inr ⟨⟨m, ⟨by omega, h2⟩, hk⟩, fun hq => hq.elim hno hin⟩
    · rintro (⟨hin, hno⟩ | ⟨⟨m, ⟨h1, h2⟩, hk⟩, hno⟩)
      · exact ⟨⟨lo, ⟨le_rfl, hlo⟩, hin⟩, hno⟩
      · exact ⟨⟨m, ⟨by omega, h2⟩, hk⟩, fun hd => hno (.inl hd)⟩
  rw [hsplit, Finset.card_union_of_disjoint, lack_eq_card d n (spine_nodup _ _)]
  rw [Finset.disjoint_left]
  intro k hk hk'
  have h1 : k ∈ spine d.pointersPerBlock lo := List.mem_toFinset.mp (Finset.mem_filter.mp hk).1
  exact (Finset.mem_filter.mp hk').2 ((hhas k).mpr (.inr h1))

theorem Round.fileBlocks (h : Orderly S n d) (hr : Round S n (d.fileBlocks n) d d') :
    d'.fileBlocks n = if (d.fileBlocks n + 1) * (d.blockSize / 512) < 2 ^ 32 then d.fileBlocks n + 1
      else d.fileBlocks n := by
  have hsize := hr.size
  have hle := h.wf.geometry.size_le
  have hge := h.wf.geometry.sizeOk.le
  have hlt : inodeBlocks (d.record n) < 2 ^ 32 := u32_lt _ _
  have hB : d.fileBlocks n = inodeBlocks (d.record n) / (d.blockSize / 512) := rfl
  have hB' : d'.fileBlocks n = inodeBlocks (d'.record n) / (d.blockSize / 512) := by
    rw [← hr.shape.blockSize]
    rfl
  set u := d.blockSize / 512 with hu
  have hupos : 0 < u := by omega
  have hu128 : u ≤ 128 := by omega
  have h1 : d.fileBlocks n * u ≤ inodeBlocks (d.record n) := hB ▸ Nat.div_mul_le_self _ _
  have h2 : inodeBlocks (d.record n) < (d.fileBlocks n + 1) * u :=
    (Nat.div_lt_iff_lt_mul hupos).mp (by omega)
  have h3 : (d.fileBlocks n + 1) * u = d.fileBlocks n * u + u := by ring
  rw [hB', hsize]
  split_ifs with hw
  · rw [Nat.mod_eq_of_lt hw, max_eq_right h2.le, Nat.mul_div_cancel _ hupos]
  · have h4 : (d.fileBlocks n + 1) * u % 2 ^ 32 ≤ inodeBlocks (d.record n) := by
      rw [Nat.mod_eq_sub_mod (by omega), Nat.mod_eq_of_lt (by omega)]
      omega
    rw [max_eq_left h4, ← hB]

/-! ### The loop ends -/

theorem blocksOf_eq (h : Orderly S n d) (hold : Holds d n ino) : d.blocksOf ino = d.fileBlocks n := by
  simp only [Disk.fileBlocks, Mem.blocksOf, inodeBlocks_congr hold h.wf.geometry.inode_ge]

theorem Disk.Fillable.next (h : Orderly S n d) (hf : d.Fillable n l) (hle : d.fileBlocks n ≤ l)
    (hr : Round S n (d.fileBlocks n) d d') :
    d'.fileBlocks n = d.fileBlocks n + 1 ∧ (l < d'.fileBlocks n ∨ d'.Fillable n l) := by
  have hunits : (d.fileBlocks n + 1) * (d.blockSize / 512) < 2 ^ 32 :=
    lt_of_le_of_lt (Nat.mul_le_mul_right _ (by omega)) hf.units
  have hB := hr.fileBlocks h
  rw [if_pos hunits] at hB
  refine ⟨hB, ?_⟩
  rcases Nat.lt_or_ge l (d.fileBlocks n + 1) with hlt | hge
  · exact .inl (hB ▸ hlt)
  right
  have hroom := hf.room
  refine ⟨by rw [hr.shape.blockSize]; exact hf.units, ?_⟩
  rw [hB]
  rcases hr.result with ⟨hhas, hfree⟩ | ⟨hshort, -⟩
  · have := lacking_step (show d.fileBlocks n < l by omega) hr.shape.pointers hhas
    omega
  · -- the last block before the end would be one too few
    have hmono :
      d.lack n (spine d.pointersPerBlock (d.fileBlocks n)) ≤ (d.lacking n (d.fileBlocks n) l).card := by
      rw [lack_eq_card d n (spine_nodup _ _)]
      refine Finset.card_le_card (Finset.filter_subset_filter _ ?_)
      exact Finset.subset_biUnion_of_mem (fun l => (spine d.pointersPerBlock l).toFinset)
        (Finset.mem_Ico.mpr ⟨le_rfl, by omega⟩)
    omega

theorem allocateUpTo_ends : ∀ (fuel : ℕ) (d : Disk) (ino : Buf), Orderly S n d → Holds d n ino →
    l < d.fileBlocks n ∨ d.Fillable n l → l + 1 - d.fileBlocks n < fuel →
    Does (allocateUpTo n l fuel ino) d ((l + 1 - d.fileBlocks n) * (4 * d.bgdBlockSpan + 23)) fun _ d' =>
      Orderly S n d'
  | 0, _, _, _, _, _, hfuel => by omega
  | fuel + 1, d, ino, h, hold, hcond, hfuel => by
    refine does_this ?_
    rw [blocksOf_eq h hold]
    by_cases hge : l ≥ d.fileBlocks n
    · rw [if_pos hge]
      have hf : d.Fillable n l := hcond.resolve_left (by omega)
      have hcost : l + 1 - d.fileBlocks n = (l + 1 - (d.fileBlocks n + 1)) + 1 := by omega
      rw [hcost, Nat.add_mul, Nat.one_mul, Nat.add_comm]
      refine ((allocateInodeBlock_round h hold (d.fileBlocks n)).bind
        (m := 1 + (l + 1 - (d.fileBlocks n + 1)) * (4 * d.bgdBlockSpan + 23)) ?_).mono (by omega)
          fun _ _ hq => hq
      rintro ⟨_, ino₁⟩ d₁ (⟨-, -, h0⟩ | ⟨-, hold₁, hr⟩)
      · have := hf.room
        omega
      obtain ⟨hB, hcond₁⟩ := hf.next h hge hr
      refine (hr.orderly.found.refreshInode_spec ino₁).bind ?_
      rintro ino₂ d₂ ⟨rfl, hold₂⟩
      exact (allocateUpTo_ends fuel d₂ ino₂ hr.orderly hold₂ hcond₁ (by omega)).mono
        (by rw [hB, hr.shape.span])
        fun _ _ hq => hq
    · rw [if_neg hge]
      exact .pure h

/-! ### The same block again -/

section Scan

variable {b : ℕ} {e : CacheEntry}

/-- The search stops at the first entry that holds the block. -/
theorem cacheScan_inl {dc : List CacheEntry} {k : ℕ} (hk : dc[k]? = some e) (hb : e.blockNo = b)
    (hfirst : ∀ j < k, ∀ f, dc[j]? = some f → f.blockNo ≠ b) (i : ℕ) (o : Option ℕ) (age : ℕ) :
    Fs.cacheScan b dc i o age = .inl (i + k) := by
  induction dc generalizing k i o age with
  | nil => simp at hk
  | cons f fs ih =>
    cases k with
    | zero =>
      obtain rfl : f = e := by simpa using hk
      rw [Fs.cacheScan, if_pos hb, Nat.add_zero]
    | succ k =>
      have hk' : fs[k]? = some e := by simpa using hk
      have hne : f.blockNo ≠ b := hfirst 0 (by omega) f (by simp)
      have hrest : ∀ j < k, ∀ g, fs[j]? = some g → g.blockNo ≠ b :=
        fun j hj g hg => hfirst (j + 1) (by omega) g (by simpa using hg)
      rw [Fs.cacheScan, if_neg hne, ih hk' hrest, ih hk' hrest, ite_self, Nat.add_assoc, Nat.add_comm 1]

theorem cacheScan_first {dc : List CacheEntry} {k i : ℕ} {o : Option ℕ} {age : ℕ}
    (h : Fs.cacheScan b dc i o age = .inl k) :
    ∀ j < k - i, ∀ f, dc[j]? = some f → f.blockNo ≠ b := by
  induction dc generalizing i o age with
  | nil => simp [Fs.cacheScan] at h
  | cons f fs ih =>
    intro j hj g hg
    unfold Fs.cacheScan at h
    split_ifs at h with hf hage
    · obtain rfl : i = k := by simpa using h
      omega
    all_goals
      cases j with
      | zero =>
        obtain rfl : f = g := by simpa using hg
        exact hf
      | succ j => exact ih h j (by omega) g (by simpa using hg)

end Scan

namespace Fs

variable {fs fs' : Fs} {b k : ℕ} {c : Buf}

def Rereads (fs : Fs) (b : ℕ) (c : Buf) : Prop :=
  match fs.diskCache with
  | none => ∀ i < fs.blockSize, fs.blockDevice (blockOffset fs.blockSize b + i) = c i
  | some dc => ∃ k e, cacheScan b dc 0 none uint32Max = .inl k ∧ dc[k]? = some e ∧
    SameOn e.block c 0 fs.blockSize

/-- An entry that is written where the search stopped is found there. -/
theorem rereads_renewed {dc : List CacheEntry} {e f : CacheEntry} (dev : Buf) (hk : dc[k]? = some e)
    (hf : f.blockNo = b)
    (hfirst : ∀ j < k, ∀ g, dc[j]? = some g → g.blockNo ≠ b) (hc : SameOn f.block c 0 fs.blockSize) :
    (fs.renewed dc dev k f).Rereads b c := by
  have hlt : k < dc.length := (List.getElem?_eq_some_iff.mp hk).1
  have hself : (dc.set k f)[k]? = some f := by simp [hlt]
  refine ⟨k, f, ?_, hself, hc⟩
  rw [cacheScan_inl hself hf (fun j hj g hg => ?_), Nat.zero_add]
  rw [List.getElem?_set_ne (by omega)] at hg
  exact hfirst j hj g hg

theorem rereads_of_read {buf out : Buf} {r : Err} (hb0 : b ≠ 0)
    (h : fs.readBlock b buf = some ((r, out), fs')) :
    fs'.Rereads b out := by
  cases hdc : fs.diskCache with
  | none =>
    simp only [readBlock, hb0, if_false, hdc, some.injEq, Prod.mk.injEq] at h
    obtain ⟨⟨-, rfl⟩, rfl⟩ := h
    unfold Rereads
    rw [hdc]
    intro i hi
    rw [readFs, blit_in (Nat.zero_le _) (by omega), Nat.sub_zero, drop_apply]
  | some dc =>
    rcases picks_or fs dc b with ⟨k, e, dev, hp⟩ | ⟨hs, -⟩
    · cases hp with
      | hit hs hk hb =>
        rw [readBlock_hit hb0 hdc hs hk, some.injEq, Prod.mk.injEq, Prod.mk.injEq] at h
        obtain ⟨⟨-, rfl⟩, rfl⟩ := h
        have hfirst := cacheScan_first hs
        rw [Nat.sub_zero] at hfirst
        exact rereads_renewed _ hk hb hfirst (blit_sameOn _ _ _).symm
      | miss hs hk hno =>
        rw [readBlock_miss hb0 hdc hs hk, some.injEq, Prod.mk.injEq, Prod.mk.injEq] at h
        obtain ⟨⟨-, rfl⟩, rfl⟩ := h
        exact rereads_renewed _ hk rfl (fun j _ g hg => hno g (List.mem_of_getElem? hg))
          (blit_sameOn _ _ _).symm
    · rw [readBlock_overrun hb0 hdc hs] at h
      simp at h

theorem Rereads.read (h : fs.Rereads b c) (hb0 : b ≠ 0) (buf : Buf) : ∃ r out fs',
    fs.readBlock b buf = some ((r, out), fs') ∧ SameOn out c 0 fs.blockSize ∧ fs'.Rereads b c ∧ fs'.toMem =
      fs.toMem := by
  unfold Rereads at h
  cases hdc : fs.diskCache with
  | none =>
    rw [hdc] at h
    have hrun : fs.readBlock b buf =
        some ((.success, readFs fs.blockDevice (blockOffset fs.blockSize b) fs.blockSize buf), fs) := by
      simp only [readBlock, hb0, if_false, hdc]
    refine ⟨_, _, fs, hrun, fun i _ hi => ?_, by unfold Rereads; rw [hdc]; exact h, rfl⟩
    rw [readFs, blit_in (Nat.zero_le _) hi, Nat.sub_zero, drop_apply]
    exact h i (by omega)
  | some dc =>
    rw [hdc] at h
    obtain ⟨k, e, hs, hk, hc⟩ := h
    have hfirst := cacheScan_first hs
    rw [Nat.sub_zero] at hfirst
    obtain ⟨-, f, hf, hfb⟩ := cacheScan_hit hs
    rw [Nat.sub_zero, hk] at hf
    obtain rfl := some.inj hf
    exact ⟨_, _, _, readBlock_hit hb0 hdc hs hk, (blit_sameOn _ _ _).trans hc,
      rereads_renewed _ hk hfb hfirst hc, rfl⟩

end Fs

/-! ### The loop does not end -/

section Rounds

variable {fs : Fs} {fuel : ℕ}

theorem allocateUpTo_zero (ino : Buf) : (allocateUpTo n l 0 ino).run fsHandler fs = none := rfl

theorem allocateUpTo_succ (hge : fs.blocksOf ino ≤ l) : (allocateUpTo n l (fuel + 1) ino).run fsHandler fs =
    ((allocateInodeBlock ino n (fs.blocksOf ino)).run fsHandler fs).bind fun r =>
      ((refreshInode r.1.2 n).run fsHandler r.2).bind fun q =>
        (allocateUpTo n l fuel q.1).run fsHandler q.2 := by
  rw [allocateUpTo, run_bind]
  simp only [this, run_ask, fsHandler, bind_some, hge, ge_iff_le, if_true, run_bind]

def Fs.mallocs (fs : Fs) (k : ℕ) : Fs := { fs with heap := fun i => fs.heap (i + k) }

theorem Fs.Rereads.mallocs {b : ℕ} {c : Buf} (h : fs.Rereads b c) (k : ℕ) : (fs.mallocs k).Rereads b c := h

/-- Without a free block nothing is read or written. -/
theorem allocateInodeBlock_full (hz : ∀ g < fs.blockGroupCount, fs.freeBlocks g = 0) (ino : Buf) (n l : ℕ) :
    (allocateInodeBlock ino n l).run fsHandler fs = some ((.noSpace, ino), fs.mallocs 1) := by
  have hfind : ((List.range fs.blockGroupCount).find? fun i => decide (0 < fs.freeBlocks i)) = none := by
    rw [List.find?_eq_none]
    intro g hg
    simp [hz g (List.mem_range.mp hg)]
  simp only [allocateInodeBlock, allocateBlock, scanGroups, this, malloc, run_bind, run_ask, fsHandler,
    bind_some, hfind, run_pure, if_true]
  rfl

theorem refreshInode_run (hin : ¬ n / fs.inodesPerGroup > fs.blockGroupCount) (ino : Buf) :
    (refreshInode ino n).run fsHandler fs =
      ((fs.mallocs 1).readBlock (inodeSlot fs.toMem n).1 (fs.heap 0)).bind fun r =>
        some (ino.blit 0 (r.1.2.drop (inodeSlot fs.toMem n).2) fs.inodeSize, r.2) := by
  unfold refreshInode
  rw [run_bind]
  simp only [this, run_ask]
  rw [show fsHandler Ext2Op.this fs = some (fs.toMem, fs) from rfl, bind_some, if_neg hin, run_bind, malloc,
    run_ask,
    show fsHandler Ext2Op.malloc fs = some (fs.heap 0, fs.mallocs 1) from rfl, bind_some, run_bind, readBlock,
      run_ask]
  rfl

theorem allocateUpTo_full_round (hz : ∀ g < fs.blockGroupCount, fs.freeBlocks g = 0)
    (hin : ¬ n / fs.inodesPerGroup > fs.blockGroupCount) (hge : fs.blocksOf ino ≤ l) :
    (allocateUpTo n l (fuel + 1) ino).run fsHandler fs =
      ((fs.mallocs 2).readBlock (inodeSlot fs.toMem n).1 (fs.heap 1)).bind fun r =>
        (allocateUpTo n l fuel (ino.blit 0 (r.1.2.drop (inodeSlot fs.toMem n).2) fs.inodeSize)).run fsHandler
          r.2 := by
  have hrefresh :=
    refreshInode_run (show ¬ n / (fs.mallocs 1).inodesPerGroup > (fs.mallocs 1).blockGroupCount from hin) ino
  rw [allocateUpTo_succ hge, allocateInodeBlock_full hz, bind_some, hrefresh, bind_assoc]
  rfl

theorem allocateUpTo_rereads {m : Mem} {c : Buf} (hz : ∀ g < m.blockGroupCount, m.freeBlocks g = 0)
    (hin : ¬ n / m.inodesPerGroup > m.blockGroupCount) (hb0 : (inodeSlot m n).1 ≠ 0)
    (hbyte : (inodeSlot m n).2 + m.inodeSize ≤ m.blockSize) (hsize : 128 ≤ m.inodeSize)
    (hc : m.blocksOf (c.drop (inodeSlot m n).2) ≤ l) (fuel : ℕ) :
    ∀ (fs : Fs) (ino : Buf), fs.toMem = m → fs.Rereads (inodeSlot m n).1 c → m.blocksOf ino ≤ l →
      (allocateUpTo n l fuel ino).run fsHandler fs = none := by
  induction fuel with
  | zero =>
    intro fs ino _ _ _
    exact allocateUpTo_zero ino
  | succ fuel ih =>
    intro fs ino hm hread hge
    subst hm
    obtain ⟨r, out, fs', hrun, hout, hread', hmem⟩ := (hread.mallocs 2).read hb0 (fs.heap 1)
    rw [allocateUpTo_full_round hz hin hge, hrun, bind_some]
    have hsame : SameOn (ino.blit 0 (out.drop (inodeSlot fs.toMem n).2) fs.inodeSize)
      (c.drop (inodeSlot fs.toMem n).2) 0
        fs.inodeSize := (blit_sameOn _ _ _).trans (hout.drop hbyte)
    refine ih fs' _ hmem hread' ?_
    rw [Mem.blocksOf, inodeBlocks_congr hsame hsize]
    exact hc

end Rounds

section Never

variable {fs : Fs} {v : Vol}

theorem allocateUpTo_full (hshow : fs.Shows v) (h : Orderly S n v.toDisk) (hold : Holds v.toDisk n ino)
    (hfree : v.freeBlocks = 0) (hge : v.fileBlocks n ≤ l) (hclock : fs.diskCache.isSome →
      v.ticks + 1 < uint32Max) (fuel : ℕ) :
    (allocateUpTo n l fuel ino).run fsHandler fs = none := by
  cases fuel with
  | zero => exact allocateUpTo_zero ino
  | succ fuel =>
    have hm : fs.toMem = v.toMem := hshow.mem.symm
    have hz : ∀ g < fs.blockGroupCount, fs.freeBlocks g = 0 := by
      rw [hm]
      exact fun g hg => count_eq_zero hfree hg
    have hin : ¬ n / fs.inodesPerGroup > fs.blockGroupCount := by
      rw [hm]
      exact h.found.group_le
    have hslot : inodeSlot fs.toMem n = (v.recordBlock n, v.recordByte n) := by
      rw [hm]
      exact h.found.slot_eq
    have hbyte : (inodeSlot fs.toMem n).2 + fs.inodeSize ≤ fs.blockSize := by
      rw [hslot, hm]
      exact h.found.geometry.recordByte_le n
    have hz128 : 128 ≤ fs.inodeSize := by
      rw [hm]
      exact h.found.geometry.inode_ge
    have hb0 : (inodeSlot fs.toMem n).1 ≠ 0 := by
      rw [hslot]
      exact h.found.usable.1
    have hle : fs.blocksOf ino ≤ l := by
      rw [hm, blocksOf_eq h hold]
      exact hge
    rw [allocateUpTo_full_round hz hin hle]
    -- the first read is the only one that may have to look at the device
    have hshow₁ : (fs.mallocs 2).Shows { v with heap := fun i => v.heap (i + 2) } :=
      hshow.congr rfl rfl rfl rfl hshow.mem (by rw [hshow.heap]; rfl) rfl rfl rfl
    have hu : (fs.mallocs 2).Usable (inodeSlot fs.toMem n).1 := by
      rw [hslot]
      exact (hshow.usable_iff _).mp h.found.usable
    obtain ⟨fs₂, hread, -⟩ := hshow₁.read hu (fs.heap 1) fun hc => by
      have := hshow.clock hc
      have := hclock hc
      change fs.cacheTime < uint32Max
      omega
    rw [hread, bind_some]
    set out := (fs.heap 1).blit 0 (v.blocks (inodeSlot fs.toMem n).1) v.blockSize with hout
    have hrec : SameOn (out.drop (inodeSlot fs.toMem n).2) (v.record n) 0 fs.inodeSize := by
      have hcopy : SameOn out (v.blocks (inodeSlot fs.toMem n).1) 0 fs.blockSize := by
        rw [hout, hm]
        exact blit_sameOn _ _ _
      have := hcopy.drop hbyte
      rw [hslot] at this ⊢
      exact this
    have hsize : ∀ buf : Buf, SameOn buf (v.record n) 0 fs.inodeSize → fs.blocksOf buf ≤ l := by
      intro buf hbuf
      rw [hm] at hbuf ⊢
      rw [blocksOf_eq h hbuf]
      exact hge
    exact allocateUpTo_rereads hz hin hb0 hbyte hz128 (hsize _ hrec) fuel fs₂ _
      (show fs₂.toMem = (fs.mallocs 2).toMem from Fs.readBlock_mem hread)
      (Fs.rereads_of_read hb0 hread) (hsize _ ((blit_sameOn _ _ _).trans hrec))

/-- A round leaves a block that cannot be reached out of reach. -/
theorem Round.not_fillable (h : Orderly S n d) (hr : Round S n (d.fileBlocks n) d d')
    (hle : d.fileBlocks n ≤ l)
    (hno : ¬ d.Fillable n l) : d'.freeBlocks < d.freeBlocks ∧ d'.fileBlocks n ≤ l ∧ ¬ d'.Fillable n l := by
  have hfewer : d'.freeBlocks < d.freeBlocks := by
    have := hr.pos
    rcases hr.result with ⟨-, hfree⟩ | ⟨-, hfree⟩ <;> omega
  have hB := hr.fileBlocks h
  refine ⟨hfewer, ?_⟩
  by_cases hunits : (l + 1) * (d.blockSize / 512) < 2 ^ 32
  · have hroom : d.freeBlocks < (l + 1 - d.fileBlocks n) + (d.lacking n (d.fileBlocks n) l).card := by
      by_contra hge
      exact hno ⟨hunits, by omega⟩
    rw [if_pos (lt_of_le_of_lt (Nat.mul_le_mul_right _ (by omega)) hunits)] at hB
    have hlt : d.fileBlocks n < l := by
      by_contra hge
      have he : l = d.fileBlocks n := by omega
      have := hr.pos
      rw [he, lacking_self, Finset.card_empty] at hroom
      omega
    refine ⟨by omega, fun hf => ?_⟩
    have hroom' := hf.room
    rw [hB] at hroom'
    rcases hr.result with ⟨hhas, hfree⟩ | ⟨-, hfree⟩
    · have := lacking_step hlt hr.shape.pointers hhas
      omega
    · omega
  · refine ⟨?_, fun hf => hunits (hr.shape.blockSize ▸ hf.units)⟩
    rw [hB]
    split_ifs with hw
    · by_contra hge
      have he : l = d.fileBlocks n := by omega
      exact hunits (he ▸ hw)
    · exact hle

/-- A block that the file cannot get keeps the loop going for ever. -/
theorem allocateUpTo_never (free : ℕ) : ∀ (fs : Fs) (v : Vol) (ino : Buf) (fuel : ℕ), fs.Shows v →
    Orderly S n v.toDisk →
    Holds v.toDisk n ino → v.freeBlocks = free → v.fileBlocks n ≤ l → ¬ v.Fillable n l →
    (fs.diskCache.isSome → v.ticks + free * (4 * v.bgdBlockSpan + 23) + 1 < uint32Max) →
    (allocateUpTo n l fuel ino).run fsHandler fs = none := by
  induction free using Nat.strongRecOn with
  | ind free ih =>
    intro fs v ino fuel hshow h hold hfree hle hno hclock
    rcases Nat.eq_zero_or_pos free with rfl | hpos
    · exact allocateUpTo_full hshow h hold hfree hle (fun hc => by have := hclock hc; omega) fuel
    cases fuel with
    | zero => exact allocateUpTo_zero ino
    | succ fuel =>
      have hround : Does (allocateInodeBlock ino n (v.fileBlocks n) >>= fun r => refreshInode r.2 n) v.toDisk
          (4 * v.bgdBlockSpan + 23) fun ino' d' => Holds d' n ino' ∧
            Round S n (v.fileBlocks n) v.toDisk d' := by
        refine ((allocateInodeBlock_round h hold (v.fileBlocks n)).bind (m := 1) ?_).mono (by omega)
          fun _ _ hq => hq
        rintro r d₁ (⟨-, -, h0⟩ | ⟨-, -, hr⟩)
        · omega
        · refine (hr.orderly.found.refreshInode_spec r.2).mono le_rfl ?_
          rintro ino' d₂ ⟨rfl, hold'⟩
          exact ⟨hold', hr⟩
      have hcost : 4 * v.bgdBlockSpan + 23 ≤ free * (4 * v.bgdBlockSpan + 23) := Nat.le_mul_of_pos_left _ hpos
      obtain ⟨ino₁, fs₁, v₁, hrun, hshow₁, hc₁, ht₁, hold₁, hr⟩ := hshow.does hround fun hc => by
        have := hclock hc
        omega
      have hm : fs.toMem = v.toMem := hshow.mem.symm
      have hbl : fs.blocksOf ino = v.fileBlocks n := by
        rw [hm]
        exact blocksOf_eq h hold
      obtain ⟨hfewer, hle₁, hno₁⟩ := hr.not_fillable h hle hno
      rw [allocateUpTo_succ (hbl.le.trans hle), hbl, ← bind_assoc]
      rw [run_bind] at hrun
      rw [hrun, bind_some]
      refine ih v₁.freeBlocks (by omega) fs₁ v₁ ino₁ fuel hshow₁ hr.orderly hold₁ rfl hle₁ hno₁ fun hc => ?_
      have h1 := hclock (hc₁ ▸ hc)
      have h2 : v₁.bgdBlockSpan = v.bgdBlockSpan := hr.shape.span
      have h3 : (v₁.freeBlocks + 1) * (4 * v.bgdBlockSpan + 23) ≤ free * (4 * v.bgdBlockSpan + 23) :=
        Nat.mul_le_mul_right _ (by omega)
      rw [Nat.add_mul, Nat.one_mul] at h3
      rw [h2]
      omega

end Never

/-! ### After the loop -/

namespace Fs

variable {fs : Fs} {k : ℕ}

/-- The next `k` accesses find an entry of the cache to use, whatever blocks they name. -/
def Awake (fs : Fs) (k : ℕ) : Prop :=
  ∀ dc, fs.diskCache = some dc → dc ≠ [] ∧ (∀ e ∈ dc, e.lastUse < uint32Max) ∧ fs.cacheTime + k ≤ uint32Max

namespace Awake

theorem less (h : fs.Awake (k + 1)) : fs.Awake k := by
  intro dc hdc
  obtain ⟨h1, h2, h3⟩ := h dc hdc
  exact ⟨h1, h2, by omega⟩

theorem renewed {dc : List CacheEntry} {e f : CacheEntry} {b j : ℕ} {dev dev' : Buf} (h : fs.Awake (k + 1))
    (hdc : fs.diskCache = some dc) (hp : Picks fs dc b j e dev) (hf : f.lastUse = fs.cacheTime) :
    (fs.renewed dc dev' j f).Awake k := by
  obtain ⟨h1, h2, h3⟩ := h dc hdc
  intro dc' hdc'
  obtain rfl : dc.set j f = dc' := some.inj hdc'
  have hmod := Nat.mod_le (fs.cacheTime + 1) (2 ^ 32)
  refine ⟨by simpa using h1, fun x hx => ?_, ?_⟩
  · rcases mem_set hp.entry hx with rfl | ⟨i, -, hi⟩
    · omega
    · exact h2 x (List.mem_of_getElem? hi)
  · change (fs.cacheTime + 1) % 2 ^ 32 + k ≤ uint32Max
    omega

theorem picks {dc : List CacheEntry} (h : fs.Awake (k + 1)) (hdc : fs.diskCache = some dc) (b : ℕ) :
    ∃ j e dev, Picks fs dc b j e dev := by
  rcases picks_or fs dc b with hp | ⟨-, hage⟩
  · exact hp
  · obtain ⟨h1, h2, -⟩ := h dc hdc
    obtain ⟨e, he⟩ := List.exists_mem_of_ne_nil dc h1
    exact absurd (hage e he) (Nat.not_le.mpr (h2 e he))

theorem read (h : fs.Awake (k + 1)) (b : ℕ) (buf : Buf) : ∃ r fs', fs.readBlock b buf = some (r, fs') ∧
    fs'.Awake k := by
  rcases Nat.eq_zero_or_pos b with rfl | hpos
  · exact ⟨_, fs, rfl, h.less⟩
  have hb0 : b ≠ 0 := by omega
  cases hdc : fs.diskCache with
  | none =>
    refine ⟨_, fs, by simp only [readBlock, hb0, if_false, hdc]; rfl, fun dc hc => ?_⟩
    rw [hdc] at hc
    exact absurd hc (by simp)
  | some dc =>
    obtain ⟨j, e, dev, hp⟩ := h.picks hdc b
    have hp' := hp
    cases hp with
    | hit hs hk hb => exact ⟨_, _, readBlock_hit hb0 hdc hs hk, h.renewed hdc hp' rfl⟩
    | miss hs hk hno => exact ⟨_, _, readBlock_miss hb0 hdc hs hk, h.renewed hdc hp' rfl⟩

theorem write (h : fs.Awake (k + 1)) (b : ℕ) (buf : Buf) : ∃ r fs', fs.writeBlock b buf = some (r, fs') ∧
    fs'.Awake k := by
  rcases Nat.eq_zero_or_pos b with rfl | hpos
  · exact ⟨_, fs, rfl, h.less⟩
  have hb0 : b ≠ 0 := by omega
  cases hdc : fs.diskCache with
  | none =>
    refine ⟨_, { fs with blockDevice := writeFs fs.blockDevice (blockOffset fs.blockSize b) fs.blockSize buf
      }, by simp only [writeBlock, hb0, if_false, hdc]; rfl, fun dc hc => ?_⟩
    rw [show fs.diskCache = some dc from hc] at hdc
    exact absurd hdc (by simp)
  | some dc =>
    obtain ⟨j, e, dev, hp⟩ := h.picks hdc b
    have hp' := hp
    cases hp with
    | hit hs hk hb => exact ⟨_, _, writeBlock_hit hb0 hdc hs hk, h.renewed hdc hp' rfl⟩
    | miss hs hk hno => exact ⟨_, _, writeBlock_miss hb0 hdc hs hk, h.renewed hdc hp' rfl⟩

end Awake

/-- The program returns, and leaves the cache with room for `k` more accesses. -/
def Returns {α : Type} (fs : Fs) (p : Ext2M α) (k : ℕ) : Prop := ∃ r fs', p.run fsHandler fs = some (r, fs') ∧
    fs'.Awake k

section Returns

variable {α β : Type} {p : Ext2M α} {j : ℕ}

theorem Returns.bind {f : α → Ext2M β} (h : fs.Returns p k)
    (hf : ∀ r (fs' : Fs), fs'.Awake k → fs'.Returns (f r) j) :
    fs.Returns (p >>= f) j := by
  obtain ⟨r, fs₁, h1, h2⟩ := h
  obtain ⟨q, fs₂, h3, h4⟩ := hf r fs₁ h2
  exact ⟨q, fs₂, by rw [run_bind, h1, bind_some, h3], h4⟩

theorem returns_pure (h : fs.Awake k) (a : α) : fs.Returns (Pure.pure a) k := ⟨a, fs, rfl, h⟩

theorem returns_malloc (h : fs.Awake k) : fs.Returns malloc k := ⟨fs.heap 0, fs.mallocs 1, rfl, h⟩

theorem returns_read (h : fs.Awake (k + 1)) (b : ℕ) (buf : Buf) : fs.Returns (Ext2.readBlock b buf) k := by
  obtain ⟨r, fs', hr, h'⟩ := h.read b buf
  exact ⟨r, fs', by rw [Ext2.readBlock, run_ask]; exact hr, h'⟩

theorem returns_write (h : fs.Awake (k + 1)) (b : ℕ) (buf : Buf) : fs.Returns (Ext2.writeBlock b buf) k := by
  obtain ⟨r, fs', hr, h'⟩ := h.write b buf
  exact ⟨r, fs', by rw [Ext2.writeBlock, run_ask]; exact hr, h'⟩

theorem returns_load (h : fs.Awake (k + 1)) (tmp : Buf) (b i : ℕ) : fs.Returns (loadEntry tmp b i) k :=
  (returns_read h b tmp).bind fun _ _ h' => returns_pure h' _

theorem returns_getBlockNumber (h : fs.Awake (k + 3)) (ino : Buf) (l : ℕ)
    (hmap : mapPath fs.pointersPerBlock l ≠ .divByZero) :
    fs.Returns (getBlockNumber ino l) k := by
  change ∃ r fs', (this >>= _).run fsHandler fs = _ ∧ _
  rw [run_bind, this, run_ask, show fsHandler Ext2Op.this fs = some (fs.toMem, fs) from rfl, bind_some]
  cases hp : mapPath fs.pointersPerBlock l with
  | direct i => exact returns_pure h.less.less.less _
  | single i =>
    refine (returns_malloc h).bind fun tmp fs₁ h₁ => ?_
    exact (returns_load h₁ _ _ _).bind fun _ _ h₂ => returns_pure h₂.less.less _
  | double c d =>
    refine (returns_malloc h).bind fun tmp fs₁ h₁ => ?_
    refine (returns_load h₁ _ _ _).bind fun _ fs₂ h₂ => ?_
    exact (returns_load h₂ _ _ _).bind fun _ _ h₃ => returns_pure h₃.less _
  | triple d f g =>
    refine (returns_malloc h).bind fun tmp fs₁ h₁ => ?_
    refine (returns_load h₁ _ _ _).bind fun _ fs₂ h₂ => ?_
    refine (returns_load h₂ _ _ _).bind fun _ fs₃ h₃ => ?_
    exact (returns_load h₃ _ _ _).bind fun _ _ h₄ => returns_pure h₄ _
  | divByZero => exact absurd hp hmap
  | tooHigh => exact returns_pure h.less.less.less _

end Returns

end Fs

/-- The size of the inode's file and what the volume has free decide whether the call returns. The clock of
the cache must have room for the rounds that find a block. -/
theorem inode_write_block_returns_iff (fs : Fs) (n block : ℕ) (ino buf : Buf)
    (h : Orderly fs.Usable n fs.disk)
    (hold : Holds fs.disk n ino) (hcache : fs.Good fs.Usable)
    (hclock : fs.ClockRoom (fs.disk.freeBlocks * (4 * fs.bgdBlockSpan + 23) + 4)) :
    (∃ r, (inodeWriteBlock ino n block buf).run fsHandler fs = some r) ↔
      block < fs.disk.fileBlocks n ∨ fs.disk.Fillable n block := by
  have hshow := Fs.shows_self h.wf.geometry.sizeOk hcache
  constructor
  · rintro ⟨r, hr⟩
    by_contra hno
    push Not at hno
    have hrun := allocateUpTo_never fs.disk.freeBlocks fs _ ino (2 ^ 32) hshow h hold rfl hno.1 hno.2
      fun hc => by
      have := hclock hc
      change fs.cacheTime + fs.disk.freeBlocks * (4 * fs.bgdBlockSpan + 23) + 1 < uint32Max
      omega
    rw [inodeWriteBlock, run_bind, hrun] at hr
    simp at hr
  · intro hcond
    have hrounds : block + 1 - fs.disk.fileBlocks n ≤ fs.disk.freeBlocks := by
      rcases hcond with hlt | hf
      · omega
      · have := hf.room
        omega
    have hfuel : block + 1 - fs.disk.fileBlocks n < 2 ^ 32 := by
      rcases hcond with hlt | hf
      · omega
      · have h1 := hf.units
        have h2 : 1 ≤ fs.disk.blockSize / 512 := by
          have := h.wf.geometry.sizeOk.le
          omega
        have h3 := Nat.le_mul_of_pos_right (block + 1) h2
        omega
    have hcost := Nat.mul_le_mul_right (4 * fs.bgdBlockSpan + 23) hrounds
    obtain ⟨ino₁, fs₁, v₁, hrun, hshow₁, hc₁, ht₁, h₁⟩ :=
      hshow.does (allocateUpTo_ends (2 ^ 32) fs.disk ino h hold hcond hfuel)
      fun hc => by
        have := hclock hc
        change fs.cacheTime + (block + 1 - fs.disk.fileBlocks n) * (4 * fs.bgdBlockSpan + 23) < uint32Max
        omega
    change v₁.ticks ≤ fs.cacheTime + (block + 1 - fs.disk.fileBlocks n) * (4 * fs.bgdBlockSpan + 23) at ht₁
    have hawake : fs₁.Awake 4 := by
      intro dc hdc
      obtain ⟨hne, hco⟩ := hshow₁.good.cache dc hdc
      have hc : fs₁.diskCache.isSome := by simp [hdc]
      have h1 := hshow₁.clock hc
      have h2 := hclock (hc₁ ▸ hc)
      exact ⟨hne, hco.age, by omega⟩
    have hmap : mapPath fs₁.pointersPerBlock block ≠ .divByZero := by
      rw [← hshow₁.mem, mapPath_eq h₁.wf.geometry.pointers_pos h₁.wf.geometry.map_lt]
      split_ifs <;> simp
    obtain ⟨r, fs₂, hr, -⟩ := (Fs.returns_getBlockNumber hawake ino₁ block hmap).bind fun b fs₂ h₂ =>
      (Fs.returns_write h₂ b buf).bind fun _ fs₃ h₃ => Fs.returns_pure h₃ (b, ino₁)
    refine ⟨(r, fs₂), ?_⟩
    rw [inodeWriteBlock, run_bind, hrun, bind_some]
    exact hr

theorem inode_write_block_returns_small :
    ∃ r, (inodeWriteBlock (smallFs.disk.record 3) 3 9 (fun _ => 1)).run fsHandler smallFs = some r := by
  have hB : smallFs.disk.fileBlocks 3 = 1 := by decide +kernel
  have h : Orderly smallFs.Usable 3 smallFs.disk :=
    smallFs_wellFormed.orderly (fun _ hb => hb) (by decide) (by decide) fun k hk =>
      .inr ⟨by decide +kernel, hk⟩
  refine (inode_write_block_returns_iff smallFs 3 9 (smallFs.disk.record 3) (fun _ => 1) h (fun _ _ _ => rfl)
    ?_ ?_).mpr
    (.inr ⟨by decide, ?_⟩)
  · exact Fs.good_emptyCache (n := 2) (by norm_num) (by decide) (Mem.usable_noAlias ⟨0, by norm_num, rfl⟩) rfl
  · exact fun _ => by decide +kernel
  · rw [hB]
    decide +kernel

/-- For block 10 there is one too few, and the call does not return. -/
theorem inode_write_block_hangs :
    ¬ ∃ r, (inodeWriteBlock (smallFs.disk.record 3) 3 10 (fun _ => 1)).run fsHandler smallFs = some r := by
  have hB : smallFs.disk.fileBlocks 3 = 1 := by decide +kernel
  have h : Orderly smallFs.Usable 3 smallFs.disk :=
    smallFs_wellFormed.orderly (fun _ hb => hb) (by decide) (by decide) fun k hk =>
      .inr ⟨by decide +kernel, hk⟩
  have hcache : smallFs.Good smallFs.Usable :=
    Fs.good_emptyCache (n := 2) (by norm_num) (by decide) (Mem.usable_noAlias ⟨0, by norm_num, rfl⟩) rfl
  rintro ⟨r, hr⟩
  have hrun := allocateUpTo_never (l := 10) smallFs.disk.freeBlocks smallFs _ (smallFs.disk.record 3) (2 ^ 32)
    (Fs.shows_self h.wf.geometry.sizeOk hcache) h (fun _ _ _ => rfl) rfl ?_ ?_ ?_
  · rw [inodeWriteBlock, run_bind, hrun] at hr
    simp at hr
  · change smallFs.disk.fileBlocks 3 ≤ 10
    rw [hB]
    norm_num
  · intro hf
    have hroom := hf.room
    change (10 + 1 - smallFs.disk.fileBlocks 3) + _ ≤ smallFs.disk.freeBlocks at hroom
    rw [hB, show smallFs.disk.freeBlocks = 9 by decide +kernel] at hroom
    omega
  · exact fun _ => by decide +kernel

end ChiffOS.Ext2
