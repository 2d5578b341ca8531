import ChiffOS.Ext2.Addressing
import ChiffOS.Ext2.Grow
import ChiffOS.Ext2.AllocRuns

/-! The block map of an inode as `set_block_number` and `get_block_number` see it. Up to the double indirect
range a call may take two blocks for pointers. What is set is found again, and the rest of the map stays, if
the second block is not the first one once more: the write-back of the descriptors can undo the bitmap in
between. In the triple indirect range the block to set is lost. -/

namespace ChiffOS.Ext2

open Buf

/-! ### The accesses of the driver -/

def mapAndLook (n iblock rblock : ℕ) : Ext2M (Err × ℕ) := do
  let (e, ino) ← setBlockNumber (fun _ => 0) n iblock rblock
  let b ← getBlockNumber ino iblock
  pure (e, b)

/-! ### The triple indirect range -/

def Fs.SetsTriple (fs : Fs) (ino : Buf) (n iblock rblock : ℕ) : Prop :=
  ∃ ino' fs', (setBlockNumber ino n iblock rblock).run fsHandler fs = some ((.success, ino'), fs') ∧
    (∃ fs'', (getBlockNumber ino' iblock).run fsHandler fs' = some (rblock, fs'')) ∧
    ∀ k b fs₁, k ≠ iblock → (getBlockNumber ino k).run fsHandler fs = some (b, fs₁) →
      ∃ fs₂, (getBlockNumber ino' k).run fsHandler fs' = some (b, fs₂)

theorem setBlockNumber_triple {fs : Fs} {ino : Buf} {n iblock : ℕ} (hp : 0 < fs.pointersPerBlock)
    (hwrap : 12 + fs.pointersPerBlock + fs.pointersPerBlock * fs.pointersPerBlock + fs.pointersPerBlock < 2 ^
      32)
    (hlo : 12 + fs.pointersPerBlock + fs.pointersPerBlock * fs.pointersPerBlock ≤ iblock) (r r' : ℕ) :
    (setBlockNumber ino n iblock r).run fsHandler fs = (setBlockNumber ino n iblock r').run fsHandler fs := by
  have hpath := mapPath_eq (l := iblock) hp hwrap
  rw [if_neg (by omega), if_neg (by omega), if_neg (by omega)] at hpath
  simp only [setBlockNumber, this, Prog.run_bind, Prog.run_ask, fsHandler, Option.bind_some]
  rw [hpath]
  by_cases hhi : iblock < 12 + fs.pointersPerBlock + fs.pointersPerBlock * fs.pointersPerBlock +
    fs.pointersPerBlock
  · rw [if_pos hhi]
  · rw [if_neg hhi]

/-- At most one block can be set in the triple indirect range, the pointer block itself. -/
theorem triple_indirect_never (fs : Fs) (ino : Buf) (n iblock : ℕ)
    (hlo : 12 + fs.pointersPerBlock + fs.pointersPerBlock * fs.pointersPerBlock ≤ iblock)
    (hhi : iblock < 12 + fs.pointersPerBlock + fs.pointersPerBlock * fs.pointersPerBlock +
      fs.pointersPerBlock * fs.pointersPerBlock * fs.pointersPerBlock)
    (hwrap : 12 + fs.pointersPerBlock + fs.pointersPerBlock * fs.pointersPerBlock +
      fs.pointersPerBlock * fs.pointersPerBlock * fs.pointersPerBlock < 2 ^ 32) :
    (∀ r r', fs.SetsTriple ino n iblock r → fs.SetsTriple ino n iblock r' → r = r') ∧
      ¬ ∀ rblock < 2 ^ 32, fs.SetsTriple ino n iblock rblock := by
  have hp : 0 < fs.pointersPerBlock := by
    by_contra h0
    obtain h0 : fs.pointersPerBlock = 0 := by omega
    rw [h0] at hlo hhi
    omega
  have hcube : fs.pointersPerBlock ≤ fs.pointersPerBlock * fs.pointersPerBlock * fs.pointersPerBlock :=
    Nat.le_mul_of_pos_left _ (Nat.mul_pos hp hp)
  have hone : ∀ r r', fs.SetsTriple ino n iblock r → fs.SetsTriple ino n iblock r' → r = r' := by
    rintro r r' ⟨ino', fs', hrun, ⟨fs₁, hget⟩, -⟩ ⟨ino'', fs'', hrun', ⟨fs₂, hget'⟩, -⟩
    rw [setBlockNumber_triple hp (by omega) hlo r r'] at hrun
    obtain ⟨⟨-, rfl⟩, rfl⟩ := Prod.mk.inj (Option.some.inj (hrun.symm.trans hrun'))
    exact (Prod.mk.inj (Option.some.inj (hget.symm.trans hget'))).1
  refine ⟨hone, fun hall => ?_⟩
  have := hone 0 1 (hall 0 (by norm_num)) (hall 1 (by norm_num))
  omega

theorem triple_indirect_small : ¬ ∀ rblock < 2 ^ 32, smallFs.SetsTriple (fun _ => 0) 3 65804 rblock :=
  (triple_indirect_never smallFs (fun _ => 0) 3 65804 (by decide) (by decide) (by decide)).2

/-- Three pointer blocks are taken for the first block of the range. The last of them is stored in its own
entry, and 256 blocks further the range ends. -/
theorem triple_indirect_self :
    ((mapAndLook 3 65804 100).run fsHandler smallFs).map Prod.fst = some (.success, 8) ∧
    ((mapAndLook 3 66060 100).run fsHandler smallFs).map Prod.fst = some (.badBlock, 0) := by
  decide +kernel

end ChiffOS.Ext2
