import ChiffOS.Ext2.Ops

/-! The volume behind the file system object: a table of blocks, without cache and without device
offsets. A program over the operations that runs on the volume runs the same way on the object,
as long as the blocks it names lie in the first 4 GiB and the cache's clock does not run out. So
what the driver does is proved on the volume. -/

namespace ChiffOS.Ext2

open Buf Prog Option

/-- Block 0 is never read or written, the superblock's block goes around the cache, and the device
offset of the block must not wrap. -/
def Mem.Usable (m : Mem) (b : ℕ) : Prop :=
  b ≠ 0 ∧ b ≠ 1024 / m.blockSize ∧ (b + 1) * m.blockSize ≤ 2 ^ 32

instance (m : Mem) : DecidablePred m.Usable := fun b => by unfold Mem.Usable; infer_instance

/-- What the driver keeps in memory and what the blocks hold. -/
structure Disk extends Mem where
  blocks : ℕ → Buf
  sbCopy : Buf

structure Vol extends Disk where
  heap : ℕ → Buf
  ticks : ℕ

def Disk.setBlock (d : Disk) (b : ℕ) (buf : Buf) : Disk := { d with blocks := Function.update d.blocks b buf }

def Disk.put (d : Disk) (b : ℕ) (buf : Buf) : Disk := d.setBlock b ((d.blocks b).blit 0 buf d.blockSize)

variable (d : Disk)

theorem Disk.setBlock_mem (b : ℕ) (buf : Buf) : (d.setBlock b buf).toMem = d.toMem := rfl

@[simp] theorem Disk.setBlock_self (b : ℕ) (buf : Buf) : (d.setBlock b buf).blocks b = buf :=
  Function.update_self _ _ _

theorem Disk.setBlock_ne {b c : ℕ} (buf : Buf) (h : c ≠ b) : (d.setBlock b buf).blocks c = d.blocks c :=
  Function.update_of_ne h _ _

/-- A write stays within the length of a block. -/
theorem Disk.put_beyond (b : ℕ) (buf : Buf) (c : ℕ) {x : ℕ} (hx : d.blockSize ≤ x) :
    (d.put b buf).blocks c x = d.blocks c x := by
  unfold Disk.put
  by_cases hc : c = b
  · subst hc
    rw [Disk.setBlock_self, blit_out (by omega)]
  · rw [Disk.setBlock_ne _ _ hc]

def volHandler : Handler Ext2Op Vol
  | _, .this, v => some (v.toMem, v)
  | _, .setSuperblock sb, v => some ((), { v with superblock := sb })
  | _, .setBlockGroups bgd, v => some ((), { v with blockGroups := bgd })
  | _, .malloc, v => some (v.heap 0, { v with heap := fun i => v.heap (i + 1) })
  | _, .readBlock b buf, v =>
    if b = 0 then some ((.badBlock, buf), v)
    else if v.Usable b then
      some ((.success, buf.blit 0 (v.blocks b) v.blockSize), { v with ticks := v.ticks + 1 })
    else none
  | _, .writeBlock b buf, v =>
    if b = 0 then some (.badBlock, v)
    else if v.Usable b then some (.success, { v with toDisk := v.put b buf, ticks := v.ticks + 1 })
    else none
  | _, .rewriteSuperblock, v => some ((), { v with sbCopy := v.superblock.take 1024 })
  | _, .ext2Sync, v => some ((), v)
  | _, .undefined, _ => none

/-- What a program of the driver does to a disk, within a number of block accesses. -/
abbrev Does {α : Type} (p : Ext2M α) (d : Disk) (k : ℕ) (Q : α → Disk → Prop) : Prop :=
  Prog.Does volHandler Vol.toDisk Vol.ticks p d k Q

/-! ### The object shows a volume -/

def Fs.disk (fs : Fs) : Disk where
  toMem := fs.toMem
  blocks := fun b => (fs.synced.drop (blockOffset fs.blockSize b)).take fs.blockSize
  sbCopy := (fs.synced.drop 1024).take 1024

/-- The block size as `mount_ext2` computes it. -/
def Mem.SizeOk (m : Mem) : Prop := ∃ k ≤ 21, m.blockSize = 1024 <<< k

/-- The file system object stands for the volume: the cache is coherent, and the blocks the driver may
use hold the same bytes. -/
structure Fs.Shows (fs : Fs) (v : Vol) : Prop where
  size : fs.SizeOk
  good : fs.Good fs.Usable
  mem : v.toMem = fs.toMem
  heap : v.heap = fs.heap
  clock : fs.diskCache.isSome → fs.cacheTime ≤ v.ticks
  block : ∀ b, fs.Usable b → v.blocks b = fs.disk.blocks b
  sbCopy : v.sbCopy = fs.disk.sbCopy

section Offsets

variable {m : Mem} {b : ℕ}

theorem Mem.SizeOk.dvd (h : m.SizeOk) : m.blockSize ∣ 2 ^ 32 := by
  obtain ⟨k, hk, h⟩ := h
  rw [h, Nat.shiftLeft_eq, show 1024 = 2 ^ 10 from rfl, ← pow_add]
  exact pow_dvd_pow 2 (by omega)

theorem Mem.SizeOk.le (h : m.SizeOk) : 1024 ≤ m.blockSize := by
  obtain ⟨k, -, h⟩ := h
  rw [h, Nat.shiftLeft_eq]
  exact Nat.le_mul_of_pos_right _ (by positivity)

theorem Mem.SizeOk.two_mul_le (h : m.SizeOk) (hne : m.blockSize ≠ 1024) : 2048 ≤ m.blockSize := by
  obtain ⟨k, -, h⟩ := h
  cases k with
  | zero => exact absurd h hne
  | succ k =>
    rw [h, Nat.shiftLeft_eq, pow_succ]
    have : 1 ≤ 2 ^ k := Nat.one_le_two_pow
    omega

theorem Mem.Usable.offset (h : m.Usable b) (hs : m.SizeOk) : blockOffset m.blockSize b = b * m.blockSize := by
  have := h.2.2
  have := hs.le
  exact Nat.mod_eq_of_lt (by linarith [Nat.succ_mul b m.blockSize])

theorem Mem.Usable.behind (h : m.Usable b) (hs : m.SizeOk) : 2048 ≤ b * m.blockSize := by
  obtain ⟨h0, h1, -⟩ := h
  by_cases hbs : m.blockSize = 1024
  · rw [hbs] at h1 ⊢
    omega
  · calc 2048 ≤ m.blockSize := hs.two_mul_le hbs
      _ ≤ b * m.blockSize := Nat.le_mul_of_pos_left _ (by omega)

theorem Mem.usable_noAlias (hs : m.SizeOk) : NoAlias m.blockSize m.Usable := by
  intro a b ha hb hne h
  rw [ha.offset hs, hb.offset hs] at h
  have := hs.le
  exact hne (Nat.eq_of_mul_eq_mul_right (by omega) h)

theorem Mem.Usable.apart {c : ℕ} (hb : m.Usable b) (hc : m.Usable c) (hs : m.SizeOk) (hne : c ≠ b) :
    blockOffset m.blockSize c + m.blockSize ≤ blockOffset m.blockSize b ∨
      blockOffset m.blockSize b + m.blockSize ≤ blockOffset m.blockSize c :=
  offsets_apart hs.dvd (m.usable_noAlias hs c b hc hb hne)

end Offsets

theorem Fs.synced_congr {fs fs' : Fs} (hbs : fs'.blockSize = fs.blockSize)
    (hdev : fs'.blockDevice = fs.blockDevice)
    (hdc : fs'.diskCache = fs.diskCache) : fs'.synced = fs.synced := by
  rcases eq_none_or_eq_some fs.diskCache with h | ⟨dc, h⟩
  · rw [synced_none h, synced_none (hdc.trans h), hdev]
  · rw [synced_some h, synced_some (hdc.trans h), hdev, hbs]

theorem Fs.shows_self {fs : Fs} (hs : fs.SizeOk) (hg : fs.Good fs.Usable) :
    fs.Shows { fs.disk with heap := fs.heap, ticks := fs.cacheTime } :=
  ⟨hs, hg, rfl, rfl, fun _ => le_rfl, fun _ _ => rfl, rfl⟩

theorem Fs.write_synced {fs : Fs} {b c : ℕ}
    (hal : c ≠ b → blockOffset fs.blockSize c + fs.blockSize ≤ blockOffset fs.blockSize b ∨
      blockOffset fs.blockSize b + fs.blockSize ≤ blockOffset fs.blockSize c) (buf : Buf) :
    ((writeFs fs.synced (blockOffset fs.blockSize b) fs.blockSize buf).drop (blockOffset fs.blockSize c)).take
      fs.blockSize =
      (fs.disk.put b buf).blocks c := by
  simp only [Disk.put, Disk.setBlock, Fs.disk]
  by_cases hcb : c = b
  · subst hcb
    rw [Function.update_self, take_blit]
    refine take_congr fun i hi => ?_
    rw [drop_apply, writeFs, blit_in (by omega) (by omega), Nat.add_sub_cancel_left]
  · rw [Function.update_of_ne hcb]
    refine take_congr fun i hi => ?_
    have := hal hcb
    rw [drop_apply, drop_apply, writeFs, blit_out (by omega)]

theorem Disk.put_congr {d d' : Disk} {b c : ℕ} {buf : Buf} (hbs : d.blockSize = d'.blockSize)
    (h : d.blocks c = d'.blocks c) : (d.put b buf).blocks c = (d'.put b buf).blocks c := by
  unfold Disk.put
  by_cases hcb : c = b
  · subst hcb
    rw [Disk.setBlock_self, Disk.setBlock_self, h, hbs]
  · rw [Disk.setBlock_ne _ _ hcb, Disk.setBlock_ne _ _ hcb, h]

theorem flush_congr {bs a : ℕ} {dev dev' : Buf} (dc : List CacheEntry) (h : dev a = dev' a) :
    flush bs dev dc a = flush bs dev' dc a := by
  induction dc generalizing dev dev' with
  | nil => exact h
  | cons e es ih =>
    rw [flush_cons, flush_cons]
    refine ih ?_
    split_ifs
    · unfold writeFs blit
      rw [h]
    · exact h

theorem Fs.rewriteSuperblock_spec {fs : Fs} (hs : fs.SizeOk) (hg : fs.Good fs.Usable) :
    fs.rewriteSuperblock.Good fs.Usable ∧
      fs.rewriteSuperblock.synced = fs.synced.blit 1024 fs.superblock 1024 := by
  have hfar : ∀ b, fs.Usable b → 2048 ≤ blockOffset fs.blockSize b := fun b hb =>
    (hb.offset hs).symm ▸ hb.behind hs
  cases hdc : fs.diskCache with
  | none =>
    have hdc' : fs.rewriteSuperblock.diskCache = none := hdc
    exact ⟨⟨hg.size, hg.apart,
      fun dc h => by simp [hdc'] at h⟩, by rw [synced_none hdc, synced_none hdc']; rfl⟩
  | some dc =>
    obtain ⟨hne, hc⟩ := hg.cache dc hdc
    have hdc' : fs.rewriteSuperblock.diskCache = some dc := hdc
    refine ⟨⟨hg.size, hg.apart, fun dc' h => ?_⟩, ?_⟩
    · obtain rfl := some.inj (hdc'.symm.trans h)
      refine ⟨hne, hc.inj, hc.used, hc.empty, fun e he h0 hd i hi => ?_, hc.age⟩
      have := hfar _ (hc.used e he h0)
      rw [hc.clean e he h0 hd i hi]
      exact (blit_out (by omega)).symm
    · rw [synced_some hdc, synced_some hdc']
      funext a
      by_cases ha : 1024 ≤ a ∧ a < 1024 + 1024
      · rw [blit_in ha.1 ha.2, flush_uncovered]
        · exact blit_in ha.1 ha.2
        · rintro e he ⟨hd, h1, -⟩
          have he0 : e.blockNo ≠ 0 := fun h => by simp [hc.empty e he h] at hd
          have := hfar _ (hc.used e he he0)
          change blockOffset fs.blockSize e.blockNo ≤ a at h1
          omega
      · rw [blit_out (by omega)]
        exact flush_congr dc (blit_out (by omega))

namespace Fs.Shows

variable {fs : Fs} {v : Vol}

/-- Fields that the block layer does not look at may change on both sides. -/
theorem congr (h : fs.Shows v) {fs' : Fs} {v' : Vol} (hbs : fs'.blockSize = fs.blockSize)
    (hdev : fs'.blockDevice = fs.blockDevice) (hdc : fs'.diskCache = fs.diskCache)
    (ht : fs'.cacheTime = fs.cacheTime) (hmem : v'.toMem = fs'.toMem) (hheap : v'.heap = fs'.heap)
    (hticks : v'.ticks = v.ticks) (hblocks : v'.blocks = v.blocks) (hsb : v'.sbCopy = v.sbCopy) :
      fs'.Shows v' := by
  have hsync : fs'.synced = fs.synced := synced_congr hbs hdev hdc
  have hu : fs'.Usable = fs.Usable := by funext b; simp only [Mem.Usable, hbs]
  have hg := h.good
  refine ⟨by unfold Mem.SizeOk; rw [hbs]; exact h.size, ?_, hmem, hheap, ?_, fun b hb => ?_, ?_⟩
  · rw [hu]
    exact ⟨hbs ▸ hg.size, hbs ▸ hg.apart, fun dc hd => by rw [hbs, hdev]; exact hg.cache dc (hdc ▸ hd)⟩
  · rw [hdc, ht, hticks]
    exact h.clock
  · rw [hblocks, h.block b (hu ▸ hb)]
    simp only [Fs.disk, hsync, hbs]
  · rw [hsb, h.sbCopy]
    simp only [Fs.disk, hsync]

theorem usable_iff (h : fs.Shows v) (b : ℕ) : v.Usable b ↔ fs.Usable b := by
  rw [h.mem]

theorem read (h : fs.Shows v) {b : ℕ} (hb : fs.Usable b) (buf : Buf)
    (ht : fs.diskCache.isSome → fs.cacheTime < uint32Max) :
    ∃ fs', fs.readBlock b buf = some ((.success, buf.blit 0 (v.blocks b) v.blockSize), fs') ∧
      fs'.Shows { v with ticks := v.ticks + 1 } ∧ fs'.diskCache.isSome = fs.diskCache.isSome := by
  obtain ⟨fs', h1, h2, h3, h4⟩ := readBlock_spec buf h.good hb hb.1 ht
  have hm : fs'.toMem = fs.toMem := h4.mem
  have hbs : fs'.blockSize = fs.blockSize := congrArg Mem.blockSize hm
  refine ⟨fs', ?_, ⟨?_, ?_, h.mem.trans hm.symm, h.heap.trans h4.heap.symm, ?_, ?_, ?_⟩, h4.cached⟩
  · rw [h1, readFs, h.block b hb, congrArg Mem.blockSize h.mem]
    exact congrArg (fun x => some ((Err.success, x), fs')) (blit_take _ _ _ _).symm
  · rw [hm]; exact h.size
  · rw [hm]; exact h2
  · intro hc
    have h5 : fs'.cacheTime ≤ fs.cacheTime + 1 := by
      have hserve : fs.serve (.read b buf) =
          some (.read .success (readFs fs.synced (blockOffset fs.blockSize b) fs.blockSize buf), fs') := by
        simp [serve, h1]
      exact serve_cacheTime hserve
    have h6 := h.clock (h4.cached ▸ hc)
    change fs'.cacheTime ≤ v.ticks + 1
    omega
  · intro c hc
    rw [hm] at hc
    simp only [Fs.disk, h3, hbs]
    exact h.block c hc
  · simp only [Fs.disk, h3]
    exact h.sbCopy

theorem write (h : fs.Shows v) {b : ℕ} (hb : fs.Usable b) (buf : Buf)
    (ht : fs.diskCache.isSome → fs.cacheTime < uint32Max) :
    ∃ fs', fs.writeBlock b buf = some (.success, fs') ∧
      fs'.Shows { v with toDisk := v.put b buf, ticks := v.ticks + 1 } ∧
      fs'.diskCache.isSome = fs.diskCache.isSome := by
  obtain ⟨fs', h1, h2, h3, h4⟩ := writeBlock_spec buf h.good hb hb.1 ht
  have hm : fs'.toMem = fs.toMem := h4.mem
  have hbs : fs'.blockSize = fs.blockSize := congrArg Mem.blockSize hm
  refine ⟨fs', h1, ⟨?_, ?_, h.mem.trans hm.symm, h.heap.trans h4.heap.symm, ?_, ?_, ?_⟩, h4.cached⟩
  · rw [hm]; exact h.size
  · rw [hm]; exact h2
  · intro hc
    have h5 : fs'.cacheTime ≤ fs.cacheTime + 1 :=
      serve_cacheTime (r := .write b buf) (a := .write .success) (by simp [serve, h1])
    have h6 := h.clock (h4.cached ▸ hc)
    change fs'.cacheTime ≤ v.ticks + 1
    omega
  · intro c hc
    rw [hm] at hc
    change (v.put b buf).blocks c = _
    rw [Disk.put_congr (congrArg Mem.blockSize h.mem) (h.block c hc), ← Fs.write_synced (hb.apart hc h.size)
      buf]
    simp only [Fs.disk, h3, hbs]
  · simp only [Disk.put, Disk.setBlock, Fs.disk, h3]
    rw [h.sbCopy]
    refine take_congr fun i hi => ?_
    have := hb.behind h.size
    rw [drop_apply, drop_apply, writeFs, blit_out (by rw [hb.offset h.size]; omega)]

theorem rewriteSuperblock (h : fs.Shows v) :
    fs.rewriteSuperblock.Shows { v with sbCopy := v.superblock.take 1024 } := by
  obtain ⟨h1, h2⟩ := Fs.rewriteSuperblock_spec h.size h.good
  refine ⟨h.size, h1, h.mem, h.heap, h.clock, fun b hb => ?_, ?_⟩
  · rw [show ({ v with sbCopy := v.superblock.take 1024 } : Vol).blocks b = v.blocks b from rfl, h.block b hb]
    simp only [Fs.disk, h2]
    refine take_congr fun i hi => ?_
    have hfar := hb.behind h.size
    rw [← hb.offset h.size] at hfar
    change _ = (fs.synced.blit 1024 fs.superblock 1024) (blockOffset fs.blockSize b + i)
    rw [drop_apply, blit_out]
    change 2048 ≤ blockOffset fs.blockSize b at hfar
    omega
  · simp only [Fs.disk, h2, congrArg Mem.superblock h.mem]
    refine take_congr fun i hi => ?_
    rw [drop_apply, blit_in (by omega) (by omega), Nat.add_sub_cancel_left]

theorem ext2Sync (h : fs.Shows v) :
    fs.ext2Sync.Shows v ∧ fs.ext2Sync.diskCache.isSome = fs.diskCache.isSome := by
  obtain ⟨h1, h2, h3⟩ := ext2Sync_spec h.good
  have hm : fs.ext2Sync.toMem = fs.toMem := h3.mem
  have ht : fs.ext2Sync.cacheTime = fs.cacheTime := by unfold Fs.ext2Sync; split <;> rfl
  refine ⟨⟨hm ▸ h.size, by rw [hm]; exact h1, h.mem.trans hm.symm, h.heap.trans h3.heap.symm, ?_, ?_, ?_⟩,
    h3.cached⟩
  · rw [h3.cached, ht]; exact h.clock
  · intro b hb
    rw [hm] at hb
    simp only [Fs.disk, h2, congrArg Mem.blockSize hm]
    exact h.block b hb
  · simp only [Fs.disk, h2]
    exact h.sbCopy

theorem ticks_le {γ : Type} {o : Ext2Op γ} {b : γ} {v' : Vol} (h : volHandler o v = some (b, v')) :
    v.ticks ≤ v'.ticks := by
  cases o <;> simp only [volHandler] at h
  case readBlock c buf => split_ifs at h <;> simp [← (Prod.mk.inj (some.inj h)).2]
  case writeBlock c buf => split_ifs at h <;> simp [← (Prod.mk.inj (some.inj h)).2]
  case undefined => simp at h
  all_goals simp [← (Prod.mk.inj (some.inj h)).2]

theorem step {γ : Type} {o : Ext2Op γ} {b : γ} {v' : Vol} (h : fs.Shows v)
    (hv : volHandler o v = some (b, v'))
    (ht : fs.diskCache.isSome → v'.ticks < uint32Max) :
    ∃ fs', fsHandler o fs = some (b, fs') ∧ fs'.Shows v' ∧ fs'.diskCache.isSome = fs.diskCache.isSome := by
  have htime : fs.diskCache.isSome → fs.cacheTime < uint32Max := fun hc =>
    (h.clock hc).trans_lt ((ticks_le hv).trans_lt (ht hc))
  cases o <;> simp only [volHandler] at hv
  case this =>
    obtain ⟨rfl, rfl⟩ := Prod.mk.inj (some.inj hv)
    exact ⟨fs, by simp [fsHandler, h.mem], h, rfl⟩
  case setSuperblock sb =>
    obtain ⟨rfl, rfl⟩ := Prod.mk.inj (some.inj hv)
    exact ⟨_, rfl, h.congr rfl rfl rfl rfl (by simp [h.mem]) h.heap rfl rfl rfl, rfl⟩
  case setBlockGroups bgd =>
    obtain ⟨rfl, rfl⟩ := Prod.mk.inj (some.inj hv)
    exact ⟨_, rfl, h.congr rfl rfl rfl rfl (by simp [h.mem]) h.heap rfl rfl rfl, rfl⟩
  case malloc =>
    obtain ⟨rfl, rfl⟩ := Prod.mk.inj (some.inj hv)
    exact ⟨{ fs with heap := fun i => fs.heap (i + 1) }, by rw [fsHandler, h.heap],
      h.congr rfl rfl rfl rfl h.mem (by simp [h.heap]) rfl rfl rfl, rfl⟩
  case readBlock c buf =>
    split_ifs at hv with h0 hu
    · obtain ⟨rfl, rfl⟩ := Prod.mk.inj (some.inj hv)
      exact ⟨fs, by simp [fsHandler, readBlock, h0], h, rfl⟩
    · obtain ⟨rfl, rfl⟩ := Prod.mk.inj (some.inj hv)
      exact h.read ((h.usable_iff c).mp hu) buf htime
  case writeBlock c buf =>
    split_ifs at hv with h0 hu
    · obtain ⟨rfl, rfl⟩ := Prod.mk.inj (some.inj hv)
      exact ⟨fs, by simp [fsHandler, writeBlock, h0], h, rfl⟩
    · obtain ⟨rfl, rfl⟩ := Prod.mk.inj (some.inj hv)
      exact h.write ((h.usable_iff c).mp hu) buf htime
  case rewriteSuperblock =>
    obtain ⟨rfl, rfl⟩ := Prod.mk.inj (some.inj hv)
    exact ⟨_, rfl, h.rewriteSuperblock, rfl⟩
  case ext2Sync =>
    obtain ⟨rfl, rfl⟩ := Prod.mk.inj (some.inj hv)
    exact ⟨_, rfl, h.ext2Sync⟩
  case undefined => simp at hv

theorem does {α : Type} {p : Ext2M α} {k : ℕ} {Q : α → Disk → Prop} (h : fs.Shows v)
    (hp : Does p v.toDisk k Q) (ht : fs.diskCache.isSome → v.ticks + k < uint32Max) :
    ∃ a fs' v', p.run fsHandler fs = some (a, fs') ∧ fs'.Shows v' ∧
      fs'.diskCache.isSome = fs.diskCache.isSome ∧ v'.ticks ≤ v.ticks + k ∧ Q a v'.toDisk := by
  obtain ⟨a, v', h1, h2, h3⟩ := hp v rfl
  obtain ⟨fs', h4, h5, h6⟩ :=
    simulate (H := fsHandler) (G := volHandler)
      (R := fun s t => s.Shows t ∧ s.diskCache.isSome = fs.diskCache.isSome)
      (P := fun t => fs.diskCache.isSome → t.ticks < uint32Max)
      (fun o t b t' ho hP hc => (ticks_le ho).trans_lt (hP hc))
      (fun o s t b t' hR ho hP => by
        obtain ⟨s', hs1, hs2, hs3⟩ := hR.1.step ho (hR.2 ▸ hP)
        exact ⟨s', hs1, hs2, hs3.trans hR.2⟩)
      p fs v v' a ⟨h, rfl⟩ h1 (fun hc => h2.trans_lt (ht hc))
  exact ⟨a, fs', v', h4, h5, h6, h2, h3⟩

end Fs.Shows

/-! ### One access, with the cache coherent on a set of blocks -/

/-- A state that a call leaves: the cache is still coherent on `S`, and at most `k` accesses were made. -/
structure Fs.Later (S : ℕ → Prop) (fs fs' : Fs) (k : ℕ) : Prop where
  good : fs'.Good S
  mem : fs'.toMem = fs.toMem
  cached : fs'.diskCache.isSome = fs.diskCache.isSome
  time : fs'.cacheTime ≤ fs.cacheTime + k

theorem Fs.Later.trans {S : ℕ → Prop} {fs fs' fs'' : Fs} {k l : ℕ} (h : fs.Later S fs' k)
    (h' : fs'.Later S fs'' l) :
    fs.Later S fs'' (k + l) :=
  ⟨h'.good, h'.mem.trans h.mem, h'.cached.trans h.cached, by have := h.time; have := h'.time; omega⟩

section Access

variable {S : ℕ → Prop} {fs : Fs}

theorem Fs.Good.read (hg : fs.Good S) {b : ℕ} (hb : S b) (hb0 : b ≠ 0)
    (ht : fs.diskCache.isSome → fs.cacheTime < uint32Max)
    (buf : Buf) : ∃ fs', fs.readBlock b buf = some ((.success, buf.blit 0 (fs.disk.blocks b) fs.blockSize),
      fs') ∧
      fs.Later S fs' 1 ∧ fs'.synced = fs.synced := by
  obtain ⟨fs', h1, h2, h3, h4⟩ := Fs.readBlock_spec buf hg hb hb0 ht
  have htime : fs'.cacheTime ≤ fs.cacheTime + 1 :=
    Fs.serve_cacheTime (r := .read b buf) (a :=
      .read .success (readFs fs.synced (blockOffset fs.blockSize b) fs.blockSize buf))
      (by simp [Fs.serve, h1])
  refine ⟨fs', ?_, ⟨h2, h4.mem, h4.cached, htime⟩, h3⟩
  rw [h1, readFs]
  exact congrArg (fun x => some ((Err.success, x), fs')) (blit_take _ _ _ _).symm

theorem Fs.Good.write (hg : fs.Good S) {b : ℕ} (hb : S b) (hb0 : b ≠ 0)
    (ht : fs.diskCache.isSome → fs.cacheTime < uint32Max)
    (buf : Buf) : ∃ fs', fs.writeBlock b buf = some (.success, fs') ∧
      fs.Later S fs' 1 ∧ fs'.synced = writeFs fs.synced (blockOffset fs.blockSize b) fs.blockSize buf := by
  obtain ⟨fs', h1, h2, h3, h4⟩ := Fs.writeBlock_spec buf hg hb hb0 ht
  have htime : fs'.cacheTime ≤ fs.cacheTime + 1 :=
    Fs.serve_cacheTime (r := .write b buf) (a := .write .success) (by simp [Fs.serve, h1])
  exact ⟨fs', h1, ⟨h2, h4.mem, h4.cached, htime⟩, h3⟩

theorem Fs.Good.disk_write (hg : fs.Good S) {b c : ℕ} (hb : S b) (hc : S c) {buf : Buf} {fs' : Fs}
    (hm : fs'.toMem = fs.toMem)
    (h : fs'.synced = writeFs fs.synced (blockOffset fs.blockSize b) fs.blockSize buf) :
    fs'.disk.blocks c = (fs.disk.put b buf).blocks c := by
  rw [← Fs.write_synced (fun hcb => offsets_apart hg.size (hg.apart c b hc hb hcb)) buf]
  simp only [Fs.disk, h, congrArg Mem.blockSize hm]

end Access

/-! ### Rules for the operations -/

section Rules

variable {α : Type} {d : Disk} {k : ℕ} {Q : α → Disk → Prop}

theorem does_this {f : Mem → Ext2M α} (h : Does (f d.toMem) d k Q) : Does (this >>= f) d k Q := by
  rintro s rfl
  simpa [this, volHandler] using h s rfl

theorem does_malloc {f : Buf → Ext2M α} (h : ∀ buf, Does (f buf) d k Q) : Does (malloc >>= f) d k Q := by
  rintro s rfl
  simpa [malloc, volHandler] using h (s.heap 0) { s with heap := fun i => s.heap (i + 1) } rfl

theorem does_setSuperblock {f : Unit → Ext2M α} {sb : Buf} (h : Does (f ()) { d with superblock := sb } k Q) :
    Does (setSuperblock sb >>= f) d k Q := by
  rintro s rfl
  simpa [setSuperblock, volHandler] using h { s with superblock := sb } rfl

theorem does_setBlockGroups {f : Unit → Ext2M α} {bgd : Buf}
    (h : Does (f ()) { d with blockGroups := bgd } k Q) :
    Does (setBlockGroups bgd >>= f) d k Q := by
  rintro s rfl
  simpa [setBlockGroups, volHandler] using h { s with blockGroups := bgd } rfl

theorem does_rewriteSuperblock {Q : Unit → Disk → Prop}
    (h : Q () { d with sbCopy := d.superblock.take 1024 }) :
    Does rewriteSuperblock d k Q := by
  rintro s rfl
  exact ⟨(), { s with sbCopy := s.superblock.take 1024 }, by simp [rewriteSuperblock, volHandler], by simp, h⟩

theorem does_readBlock {f : Err × Buf → Ext2M α} {b : ℕ} {buf : Buf} (hb : d.Usable b)
    (h : Does (f (.success, buf.blit 0 (d.blocks b) d.blockSize)) d k Q) :
    Does (readBlock b buf >>= f) d (k + 1) Q := by
  rintro s rfl
  obtain ⟨a, t, h1, h2, h3⟩ := h { s with ticks := s.ticks + 1 } rfl
  refine ⟨a, t, ?_, by change _ ≤ s.ticks + 1 + k at h2; omega, h3⟩
  simpa [readBlock, volHandler, hb, hb.1] using h1

theorem does_writeBlock {f : Err → Ext2M α} {b : ℕ} {buf : Buf} (hb : d.Usable b)
    (h : Does (f .success) (d.put b buf) k Q) : Does (writeBlock b buf >>= f) d (k + 1) Q := by
  rintro s rfl
  obtain ⟨a, t, h1, h2, h3⟩ := h { s with toDisk := s.put b buf, ticks := s.ticks + 1 } rfl
  refine ⟨a, t, ?_, by change _ ≤ s.ticks + 1 + k at h2; omega, h3⟩
  simpa [writeBlock, volHandler, hb, hb.1] using h1

end Rules

end ChiffOS.Ext2
