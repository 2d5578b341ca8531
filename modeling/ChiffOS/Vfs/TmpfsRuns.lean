import ChiffOS.Vfs.TmpfsSpec

/-! Rows of calls of `tmpfs.c` against files that are byte arrays. `set_frame` marks no frame from `nframes`
mod `2^20` on: a file is a byte array as long as the blocks it gets can be marked. -/

namespace ChiffOS.Vfs

namespace TmpState

open TmpStore

/-- The calls on byte arrays: a write puts its bytes in their places, and a read returns those of the range
that are in the file. `none` for a call that leaves a gap or is out of the file, whose end is not below
`2^32`, or that takes too many blocks. -/
def call (a : TmpState) : TmpfsOp → Option (TmpfsOut × TmpState)
  | .create f =>
    if (a.file f).isNone then some (.created, ⟨Function.update a.file f (some ⟨0, fun _ => 0, 0⟩), a.avail⟩)
      else none
  | .write f offset size buffer => (a.file f).bind fun d =>
    if offset ≤ d.length ∧ offset + size < 2 ^ 32 ∧ writeBlocks offset size - d.blocks ≤ a.avail then
      some (.wrote size, a.put f d offset buffer size (writeBlocks offset size))
    else none
  | .read f offset size buffer => (a.file f).bind fun d =>
    if offset ≤ d.length ∧ offset + size < 2 ^ 32 then
      let n := min d.length (offset + size) - offset
      some (.got n (buffer.blit 0 (d.bytes.drop offset) n), a)
    else none

end TmpState

namespace TmpStore

/-- The files are the byte arrays, and have their lengths. -/
structure Refines (s : TmpStore) (a : TmpState) : Prop where
  holds : Holds s a
  length : ∀ f t d, s.file f = some t → a.file f = some d → t.length = d.length

variable {s s' : TmpStore} {a a' : TmpState} {f : ℕ} {t : TmpfsFile} {d : TmpData}

theorem Refines.empty (s : TmpStore) (h : ∀ f, s.file f = none) :
    Refines s ⟨fun _ => none, s.map.markable.length⟩ := by
  refine ⟨⟨fun f _ => h f, ?_, ?_, rfl⟩, ?_⟩
  · intro f d hd
    cases hd
  · intro f g t u i j ht
    rw [h f] at ht
    cases ht
  · intro f t d ht hd
    cases hd

theorem Refines.file (h : Refines s a) (hd : a.file f = some d) : ∃ t, s.file f = some t ∧ t.length =
    d.length := by
  obtain ⟨t, ht, -⟩ := h.holds.stored f d hd
  exact ⟨t, ht, h.length f t d ht hd⟩

theorem Refines.update (h : Refines s a) {t' : TmpfsFile} {d' : TmpData} (hh : Holds s' a')
    (hfile : s'.file = Function.update s.file f (some t')) (hdata : a'.file =
      Function.update a.file f (some d'))
    (hlen : t'.length = d'.length) : Refines s' a' := by
  refine ⟨hh, ?_⟩
  intro g u e hu he
  rw [hfile] at hu
  rw [hdata] at he
  by_cases hg : g = f
  · rw [hg, Function.update_self] at hu he
    rw [← Option.some.inj hu, ← Option.some.inj he, hlen]
  · rw [Function.update_of_ne hg] at hu he
    exact h.length g u e hu he

theorem Holds.create (h : Holds s a) :
    Holds { s with file := Function.update s.file f (some TmpfsFile.tmpfsFileNew) }
      ⟨Function.update a.file f (some ⟨0, fun _ => 0, 0⟩), a.avail⟩ := by
  refine h.update rfl rfl ⟨rfl, Nat.zero_le _, le_rfl, ?_, ?_⟩ ?_ ?_ ?_ h.avail
  · intro i hi
    exact absurd hi (Nat.not_lt_zero i)
  · intro i hi
    exact absurd hi (Nat.not_lt_zero i)
  · intro g u e _ _ hst
    exact ⟨hst.blocks, hst.room, hst.pointers, hst.used, hst.data⟩
  · intro i hi
    exact absurd hi (Nat.not_lt_zero i)
  · intro g u _ _ i hi
    exact absurd hi (Nat.not_lt_zero i)

theorem Refines.call (h : Refines s a) (op : TmpfsOp) (out : TmpfsOut) (ha : a.call op = some (out, a')) :
    ∃ s', s.tmpfsCall op = some (out, s') ∧ Refines s' a' ∧ Others op.target s s' := by
  cases op with
  | create f =>
    rw [TmpState.call] at ha
    obtain ⟨-, ha⟩ := Option.ite_none_right_eq_some.mp ha
    obtain ⟨rfl, rfl⟩ := Prod.mk.inj (Option.some.inj ha)
    refine ⟨_, rfl, h.update h.holds.create rfl rfl rfl, ?_⟩
    exact ⟨fun g hg => Function.update_of_ne hg _ _, fun _ _ _ _ _ _ => rfl⟩
  | write f offset size buffer =>
    obtain ⟨d, hd, ha⟩ := Option.bind_eq_some_iff.mp ha
    obtain ⟨⟨hoff, hsize, hav⟩, ha⟩ := Option.ite_none_right_eq_some.mp ha
    obtain ⟨rfl, rfl⟩ := Prod.mk.inj (Option.some.inj ha)
    obtain ⟨t, ht, hlen⟩ := h.file hd
    obtain ⟨s', t', hs', hfile, hlen', hoth, hh⟩ := h.holds.writeTmpfs ht hd hlen hoff hsize hav buffer
    exact ⟨s', by rw [tmpfsCall, hs']; rfl, h.update hh hfile rfl hlen', hoth⟩
  | read f offset size buffer =>
    obtain ⟨d, hd, ha⟩ := Option.bind_eq_some_iff.mp ha
    obtain ⟨⟨hoff, hsize⟩, ha⟩ := Option.ite_none_right_eq_some.mp ha
    obtain ⟨rfl, rfl⟩ := Prod.mk.inj (Option.some.inj ha)
    obtain ⟨t, ht, hlen⟩ := h.file hd
    obtain ⟨w, hw⟩ := h.holds.readTmpfs ht hd hlen hoff hsize buffer
    refine ⟨{ s with window := w }, by rw [tmpfsCall, hw]; rfl, ⟨h.holds.congr rfl rfl rfl, h.length⟩, ?_⟩
    exact ⟨fun _ _ => rfl, fun _ _ _ _ _ _ => rfl⟩

/-- Whatever the byte arrays answer to a row of calls the files answer too, and the call after it changes no
frame of another file. -/
theorem tmpfs_byte_arrays (s : TmpStore) (a : TmpState) (h : Refines s a) (ops : List TmpfsOp)
    (outs : List TmpfsOut)
    (a' : TmpState) (ha : Machine.answers TmpState.call a ops = some (outs, a')) :
    ∃ s', Machine.answers tmpfsCall s ops = some (outs, s') ∧ Refines s' a' ∧
      ∀ op out a'', a'.call op = some (out, a'') → ∃ s'', s'.tmpfsCall op = some (out, s'') ∧
        Others op.target s' s'' := by
  obtain ⟨s', hs', hr⟩ :=
    (Machine.specRun_of_answers ha).refines (I := Refines) (fun s a e o a' hi hspec => by
    obtain ⟨s', h1, h2, -⟩ := hi.call e o hspec
    exact ⟨s', h1, h2⟩) s h
  refine ⟨s', hs', hr, ?_⟩
  intro op out a'' ha''
  obtain ⟨s'', h1, -, h3⟩ := hr.call op out ha''
  exact ⟨s'', h1, h3⟩

/-- No files, and three frames in use; the others hold something old. -/
def sampleTmpfs (nframes : ℕ) (stale : UInt8) : TmpStore :=
  ⟨⟨nframes, fun i => if i = 0 then 7#32 else 0#32⟩, fun x _ => if x < 3 then 0 else stale, 0, fun _ => none⟩

/-- Two blocks are written, the first byte of the first with 1; then it is read. -/
def sampleOps : List TmpfsOp :=
  [.create 1, .write 1 0 4097 fun i => if i = 0 then 1 else 0, .read 1 0 1 fun _ => 0]

theorem tmpfs_byte_arrays_small : ∃ outs a' s',
    Machine.answers TmpState.call ⟨fun _ => none, (sampleTmpfs 64 0).map.markable.length⟩ sampleOps =
      some (outs, a') ∧
      Machine.answers tmpfsCall (sampleTmpfs 64 0) sampleOps = some (outs, s') ∧ outs.map (·.byte 0) =
        [none, none, some 1] := by
  have hbytes :
    (Machine.answers TmpState.call ⟨fun _ => none, (sampleTmpfs 64 0).map.markable.length⟩ sampleOps).map
      (fun r => r.1.map (·.byte 0)) = some [none, none, some 1] := by decide +kernel
  obtain ⟨⟨outs, a'⟩, ha, hb⟩ := Option.map_eq_some_iff.mp hbytes
  obtain ⟨s', hs', -, -⟩ := tmpfs_byte_arrays (sampleTmpfs 64 0) _ (Refines.empty _ fun _ => rfl) sampleOps
    outs a' ha
  exact ⟨outs, a', s', ha, hs', hb⟩

/-- With 4 GiB of memory nothing is marked: the two blocks are one frame, and the first byte is lost. -/
theorem tmpfs_byte_lost : 2 ≤ (sampleTmpfs (2 ^ 20) 0).map.freeFrames.length ∧
    (Machine.answers TmpState.call ⟨fun _ => none, 2⟩ sampleOps).map (fun r => r.1.map (·.byte 0)) =
      some [none, none, some 1] ∧
    (Machine.answers tmpfsCall (sampleTmpfs (2 ^ 20) 0) sampleOps).map (fun r => r.1.map (·.byte 0)) =
      some [none, none, some 0] := by
  refine ⟨?_, by decide +kernel, by decide +kernel⟩
  have hsub : [3, 4] ⊆ (sampleTmpfs (2 ^ 20) 0).map.freeFrames := by
    intro f hmem
    rw [Mem.Frames.mem_freeFrames]
    fin_cases hmem <;> decide +kernel
  exact (List.subperm_of_subset (by decide) hsub).length_le

end TmpStore

end ChiffOS.Vfs
