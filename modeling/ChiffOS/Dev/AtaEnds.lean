import ChiffOS.Dev.Ata

/-! Requests to the devices of `ata.c` that begin or end inside a sector, and those that cross the end of the
device. A request that does not reach the end of its first sector still moves the rest of that sector, and one
inside sector 0 has the loop count below 0. The last sector is computed before the size is cut. -/

namespace ChiffOS.Dev

open Buf

/-! ### The parts of a transfer -/

def wholeFrom (offset : ℕ) : ℕ := (offset + 511) / 512

def headPart (offset : ℕ) (step : ℕ → Buf → Buf) (data : Buf) : Buf :=
  if offset % 512 = 0 then data else step (offset / 512) data

def tailPart (last : ℕ) (step : ℕ → Buf → Buf) (data : Buf) : Buf :=
  if last % 512 = 0 then data else step (last / 512) data

theorem takePrefix_eq (offset endBlock : ℕ) (data : Buf) (step : ℕ → Buf → Buf) :
    takePrefix 512 offset ⟨offset / 512, endBlock, 0, data⟩ step =
      ⟨wholeFrom offset, endBlock, wholeFrom offset * 512 - offset, headPart offset step data⟩ := by
  unfold headPart wholeFrom
  by_cases h : offset % 512 = 0
  · rw [takePrefix, if_neg (by simpa using h), if_pos h]
    congr 1 <;> omega
  · rw [takePrefix, if_pos h, if_neg h]
    dsimp only
    congr 1 <;> omega

theorem takePostfix_none {offset size : ℕ} (h : (offset + size) % 2 ^ 32 % 512 = 0) (t : Transfer)
    (step : ℕ → Buf → Buf) :
    takePostfix 512 offset size t step = t := if_neg fun hs => hs.1 h

section Transfer

variable {maxOffset offset size : ℕ} (data : Buf) (first last : ℕ → ℕ → Buf → Buf)
  (whole : (left startBlock xOffset : ℕ) → Buf → Buf)

/-- The request reaches the end of its first sector, or it begins with a sector that is not the first of
all. -/
def Filled (offset size : ℕ) : Prop := 512 ≤ offset % 512 + size ∨ offset % 512 = 0 ∧ 512 ≤ offset

instance (offset size : ℕ) : Decidable (Filled offset size) := by unfold Filled; infer_instance

theorem transfer_kept (ho : offset ≤ maxOffset) (hkeep : (offset + size) % 2 ^ 32 ≤ maxOffset) {t : Transfer}
    (ht : takePostfix 512 offset size ⟨wholeFrom offset, (offset + size + 2 ^ 32 - 1) % 2 ^ 32 / 512,
      wholeFrom offset * 512 - offset, headPart offset (first size) data⟩ (last size) = t) :
    transfer 512 maxOffset offset size data first last whole = if t.endBlock = 2 ^ 32 - 1 then none
      else some (size, whole (t.endBlock + 1 - t.startBlock) t.startBlock t.xOffset t.data) := by
  have hsize : ¬ (offset + size) % 2 ^ 32 > maxOffset := by omega
  unfold transfer
  rw [if_neg (by norm_num), if_neg (by omega)]
  dsimp only
  rw [if_neg hsize, takePrefix_eq, ht]

theorem transfer_filled (hpos : 0 < size) (hmax : offset + size ≤ maxOffset) (hle : offset + size ≤ 2 ^ 32)
    (hf : Filled offset size) : transfer 512 maxOffset offset size data first last whole =
      some (size, whole ((offset + size) / 512 - wholeFrom offset) (wholeFrom offset)
        (wholeFrom offset * 512 - offset)
        (tailPart (offset + size) (last size) (headPart offset (first size) data))) := by
  unfold Filled at hf
  unfold tailPart
  by_cases h : (offset + size) % 512 = 0
  · have hend : (offset + size + 2 ^ 32 - 1) % 2 ^ 32 / 512 + 1 = (offset + size) / 512 := by omega
    rw [transfer_kept _ _ _ _ (by omega) (by omega) (takePostfix_none (by omega) _ _),
      if_neg (by dsimp only; omega), if_pos h]
    dsimp only
    rw [hend]
  · have hend : (offset + size + 2 ^ 32 - 1) % 2 ^ 32 / 512 = (offset + size) / 512 := by omega
    have hone : ((offset + size) / 512 + 2 ^ 32 - 1) % 2 ^ 32 + 1 = (offset + size) / 512 := by omega
    rw [transfer_kept _ _ _ _ (by omega) (by omega) (if_pos (by unfold wholeFrom; dsimp only; omega)),
      if_neg (by dsimp only; omega), if_neg h]
    dsimp only
    rw [hend, hone]

theorem transfer_head (hmax : offset + size ≤ maxOffset)
    (hend : (offset + size + 2 ^ 32 - 1) % 2 ^ 32 / 512 < wholeFrom offset) :
    transfer 512 maxOffset offset size data first last whole =
      some (size, whole 0 (wholeFrom offset) (wholeFrom offset * 512 - offset)
        (headPart offset (first size) data)) := by
  rw [transfer_kept _ _ _ _ (by omega) ((Nat.mod_le _ _).trans hmax) (if_neg fun h =>
    absurd h.2 (Nat.not_le.mpr hend)),
    if_neg (by dsimp only; omega)]
  dsimp only
  rw [Nat.sub_eq_zero_of_le hend]

/-- Inside sector 0 the loop does not end. -/
theorem transfer_zero (hpos : 0 < size) (hmax : size ≤ maxOffset) (hs : size < 512) :
    transfer 512 maxOffset 0 size data first last whole = none := by
  rw [transfer_kept _ _ _ _ (by omega) (by omega) (if_pos (by unfold wholeFrom; dsimp only; omega)),
    if_pos (by dsimp only; omega)]

/-- A request over the end of the device moves whole sectors up to the end that was asked for. -/
theorem transfer_over (hdvd : maxOffset % 512 = 0) (ho : offset ≤ maxOffset)
    (hover : maxOffset < offset + size)
    (hlt : offset + size < 2 ^ 32) : transfer 512 maxOffset offset size data first last whole =
      some (maxOffset - offset, whole ((offset + size - 1) / 512 + 1 - wholeFrom offset) (wholeFrom offset)
        (wholeFrom offset * 512 - offset) (headPart offset (first (maxOffset - offset)) data)) := by
  have hsize : (offset + size) % 2 ^ 32 > maxOffset := by omega
  have hpost : (offset + (maxOffset - offset)) % 2 ^ 32 % 512 = 0 := by omega
  unfold transfer
  rw [if_neg (by norm_num), if_neg (by omega)]
  dsimp only
  rw [if_pos hsize, show (maxOffset - offset) % 2 ^ 32 =
    maxOffset - offset by omega, takePrefix_eq, takePostfix_none hpost]
  dsimp only
  rw [if_neg (by omega), show (offset + size + 2 ^ 32 - 1) % 2 ^ 32 = offset + size - 1 by omega]

/-- Where the end is beyond 4 GiB, the size is not cut. -/
theorem transfer_over_wrapped (ho : offset ≤ maxOffset) (hsize : size < 2 ^ 32) (hoff : offset < 2 ^ 32)
    (hw : 2 ^ 32 ≤ offset + size) {n : ℕ} {out : Buf}
    (h : transfer 512 maxOffset offset size data first last whole = some (n, out)) : n = size := by
  rw [transfer_kept _ _ _ _ ho (by omega) rfl] at h
  split_ifs at h
  exact (congrArg Prod.fst (Option.some.inj h)).symm

end Transfer

/-! ### Bytes -/

theorem writeSector_part {disk buffer : Buf} {block o n : ℕ} (h : o + n ≤ 512) :
    writeSector 512 disk block ((readSector 512 disk block (fun _ => 0) 0).blit o buffer n) =
      disk.blit (block * 512 + o) buffer n :=
  blit_patched h (blit_sameOn _ _ _)

section Moves

variable {offset size : ℕ}

/-- The part of the first sector to the buffer, and that from the buffer to the sector. -/
def readHead (disk : Buf) (offset block : ℕ) (b : Buf) : Buf :=
  b.blit 0 (disk.drop (block * 512 + offset % 512)) (512 - offset % 512)

def writeHead (buffer : Buf) (offset block : ℕ) (disk : Buf) : Buf :=
  writeSector 512 disk block ((readSector 512 disk block (fun _ => 0) 0).blit (offset % 512) buffer
    (512 - offset % 512))

def readTail (disk : Buf) (offset size block : ℕ) (b : Buf) : Buf :=
  b.blit (size - (offset + size) % 2 ^ 32 % 512) (disk.drop (block * 512)) ((offset + size) % 2 ^ 32 % 512)

def writeTail (buffer : Buf) (offset size block : ℕ) (disk : Buf) : Buf :=
  writeSector 512 disk block ((readSector 512 disk block (fun _ => 0) 0).blit 0
    (buffer.drop (size - (offset + size) % 2 ^ 32 % 512)) ((offset + size) % 2 ^ 32 % 512))

theorem readAta_eq (dev : AtaDevice) (offset size : ℕ) (buffer : Buf) : readAta dev offset size buffer =
    transfer 512 (ataMaxOffset dev) offset size buffer (fun _ => readHead dev.disk offset)
      (readTail dev.disk offset)
      (readSectors 512 dev.disk) := rfl

theorem writeAta_eq (dev : AtaDevice) (offset size : ℕ) (buffer : Buf) : writeAta dev offset size buffer =
    (transfer 512 (ataMaxOffset dev) offset size dev.disk (fun _ => writeHead buffer offset)
      (writeTail buffer offset)
      (writeSectors 512 buffer)).map fun r => (r.1, { dev with disk := r.2 }) :=
  Option.map_eq_bind.symm

theorem read_head (disk b : Buf) : headPart offset (readHead disk offset) b =
    b.blit 0 ((disk.drop offset).drop 0) (wholeFrom offset * 512 - offset) := by
  unfold headPart wholeFrom readHead
  by_cases h : offset % 512 = 0
  · rw [if_pos h, show (offset + 511) / 512 * 512 - offset = 0 by omega, blit_nothing]
  · rw [if_neg h, drop_zero, show offset / 512 * 512 + offset % 512 = offset by omega,
      show (offset + 511) / 512 * 512 - offset = 512 - offset % 512 by omega]

theorem write_head (buffer disk : Buf) : headPart offset (writeHead buffer offset) disk =
    disk.blit offset buffer (wholeFrom offset * 512 - offset) := by
  unfold headPart wholeFrom writeHead
  by_cases h : offset % 512 = 0
  · rw [if_pos h, show (offset + 511) / 512 * 512 - offset = 0 by omega, blit_nothing]
  · rw [if_neg h, writeSector_part (by omega), show offset / 512 * 512 + offset % 512 = offset by omega,
      show (offset + 511) / 512 * 512 - offset = 512 - offset % 512 by omega]

theorem read_tail (hs : (offset + size) % 512 ≤ size) (disk b : Buf) : tailPart (offset + size)
    (readTail disk offset size) b =
    b.blit (size - (offset + size) % 512) ((disk.drop offset).drop (size - (offset + size) % 512))
      ((offset + size) % 512) := by
  unfold tailPart readTail
  by_cases h : (offset + size) % 512 = 0
  · rw [if_pos h, h, blit_nothing]
  · rw [if_neg h, drop_drop, show (offset + size) % 2 ^ 32 % 512 = (offset + size) % 512 by omega,
      show (offset + size) / 512 * 512 = offset + (size - (offset + size) % 512) by omega]

theorem write_tail (buffer disk : Buf) : tailPart (offset + size) (writeTail buffer offset size) disk =
    disk.blit ((offset + size) / 512 * 512) (buffer.drop (size - (offset + size) % 512))
      ((offset + size) % 512) := by
  unfold tailPart writeTail
  by_cases h : (offset + size) % 512 = 0
  · rw [if_pos h, h, blit_nothing]
  · rw [if_neg h, writeSector_part (by omega), show (offset + size) % 2 ^ 32 % 512 =
      (offset + size) % 512 by omega, Nat.add_zero]

end Moves

/-! ### Requests inside the device -/

/-- A request moves exactly the bytes that it names, and a write does not look at others of the buffer. -/
structure ExactTransfer (dev : AtaDevice) (offset size : ℕ) (buffer : Buf) : Prop where
  read : ∃ out, readAta dev offset size buffer = some (size, out) ∧
    ∀ i, out i = if i < size then dev.disk (offset + i) else buffer i
  write : ∃ disk, writeAta dev offset size buffer = some (size, { dev with disk := disk }) ∧
    ∀ a, disk a = if offset ≤ a ∧ a < offset + size then buffer (a - offset) else dev.disk a
  unread : ∀ buffer' : Buf, (∀ i < size, buffer' i = buffer i) →
    writeAta dev offset size buffer' = writeAta dev offset size buffer

section Inside

variable {dev : AtaDevice} {offset size : ℕ} (hpos : 0 < size) (hsize : size < 2 ^ 32)
    (hmax : offset + size ≤ ataMaxOffset dev)
  (hle : offset + size ≤ 2 ^ 32) (hf : Filled offset size)
include hpos hsize hmax hle hf

theorem read_filled (buffer : Buf) : ∃ out, readAta dev offset size buffer = some (size, out) ∧
    ∀ i, out i = if i < size then dev.disk (offset + i) else buffer i := by
  rw [readAta_eq, transfer_filled _ _ _ _ hpos hmax hle hf]
  unfold Filled at hf
  refine ⟨_, rfl, fun i => ?_⟩
  have hstart : dev.disk.drop (wholeFrom offset * 512) =
    (dev.disk.drop offset).drop (wholeFrom offset * 512 - offset) := by
    rw [drop_drop]
    congr 1
    unfold wholeFrom
    omega
  rw [readSectors_eq (by norm_num) _ _ _ _ _ (by unfold wholeFrom; omega), read_head, read_tail (by omega),
    hstart, blit_drop_apply,
    blit_drop_apply, blit_drop_apply]
  unfold wholeFrom
  split_ifs <;> first | rfl | omega

theorem write_filled (buffer : Buf) : ∃ disk, writeAta dev offset size buffer =
    some (size, { dev with disk := disk }) ∧
    ∀ a, disk a = if offset ≤ a ∧ a < offset + size then buffer (a - offset) else dev.disk a := by
  rw [writeAta_eq, transfer_filled _ _ _ _ hpos hmax hle hf]
  unfold Filled at hf
  refine ⟨_, rfl, fun a => ?_⟩
  -- the buffer as it lies on the medium
  obtain ⟨src, hsrc⟩ : ∃ src : Buf, src = fun a => buffer (a - offset) := ⟨_, rfl⟩
  have hdrop : ∀ o, offset ≤ o → buffer.drop (o - offset) = src.drop o := by
    intro o ho
    funext i
    rw [hsrc, drop_apply, drop_apply]
    congr 1
    omega
  have h0 : buffer = src.drop offset := by simpa using hdrop offset le_rfl
  have h1 := hdrop (wholeFrom offset * 512) (by unfold wholeFrom; omega)
  have h2 : buffer.drop (size - (offset + size) % 512) = src.drop ((offset + size) / 512 * 512) := by
    rw [← hdrop _ (by omega)]
    congr 1
    omega
  rw [writeSectors_eq (by norm_num) _ _ _ _ _ (by unfold wholeFrom; omega), write_head, write_tail, h1, h2]
  nth_rewrite 1 [h0]
  dsimp only
  rw [blit_drop_apply, blit_drop_apply, blit_drop_apply, hsrc]
  unfold wholeFrom
  split_ifs <;> first | rfl | omega

theorem exact_filled (buffer : Buf) : ExactTransfer dev offset size buffer := by
  refine ⟨read_filled hpos hsize hmax hle hf buffer, write_filled hpos hsize hmax hle hf buffer,
    fun buffer' hsame => ?_⟩
  obtain ⟨disk, hw, hd⟩ := write_filled hpos hsize hmax hle hf buffer
  obtain ⟨disk', hw', hd'⟩ := write_filled hpos hsize hmax hle hf buffer'
  have hdisk : disk' = disk := by
    funext a
    rw [hd, hd']
    split_ifs with ha
    · exact hsame _ (by omega)
    · rfl
  rw [hw, hw', hdisk]

end Inside

/-- A read that stops before the loop, if it comes so far. -/
theorem readAta_head {dev : AtaDevice} {offset size : ℕ} (hmax : offset + size ≤ ataMaxOffset dev)
    (hend : (offset + size + 2 ^ 32 - 1) % 2 ^ 32 / 512 < wholeFrom offset) (buffer : Buf) :
    readAta dev offset size buffer =
      some (size, buffer.blit 0 (dev.disk.drop offset) (wholeFrom offset * 512 - offset)) := by
  rw [readAta_eq, transfer_head _ _ _ _ hmax hend, read_head, drop_zero]
  rfl

/-- Requests inside the device are exact under these conditions only: the end is not beyond 4 GiB, and the
first sector is filled up to its end, or it is begun at its start and not sector 0. -/
theorem unaligned_transfers_iff (dev : AtaDevice) (offset size : ℕ) (hoff : offset < 2 ^ 32)
    (hsize : size < 2 ^ 32)
    (hpos : 0 < size) (hmax : offset + size ≤ ataMaxOffset dev) :
    (∀ buffer, ExactTransfer dev offset size buffer) ↔ offset + size ≤ 2 ^ 32 ∧ Filled offset size := by
  constructor
  · intro h
    by_contra hnot
    by_cases hzero : offset = 0
    · -- inside sector 0
      subst hzero
      obtain ⟨out, hr, -⟩ := (h dev.disk).read
      rw [readAta_eq, transfer_zero _ _ _ _ hpos (by omega) (by unfold Filled at hnot; omega)] at hr
      cases hr
    · have hend : (offset + size + 2 ^ 32 - 1) % 2 ^ 32 / 512 < wholeFrom offset := by
        unfold Filled at hnot
        unfold wholeFrom
        omega
      -- one byte is missing, or one too many is there
      obtain ⟨i, hi⟩ : ∃ i, (i < wholeFrom offset * 512 - offset ↔ ¬ i < size) := by
        unfold Filled at hnot
        unfold wholeFrom
        by_cases hlong : size < (offset + 511) / 512 * 512 - offset
        · exact ⟨size, by omega⟩
        · exact ⟨(offset + 511) / 512 * 512 - offset, by omega⟩
      obtain ⟨out, hr, hout⟩ := (h fun j => dev.disk (offset + j) + 1).read
      rw [readAta_head hmax hend] at hr
      obtain ⟨-, rfl⟩ := Prod.mk.inj (Option.some.inj hr)
      have hbyte := hout i
      by_cases hin : i < wholeFrom offset * 512 - offset
      · rw [blit_in (Nat.zero_le _) (by omega), if_neg (hi.mp hin)] at hbyte
        simp at hbyte
      · rw [blit_out (by omega), if_pos (by by_contra hn; exact hin (hi.mpr hn))] at hbyte
        simp at hbyte
  · rintro ⟨hle, hf⟩ buffer
    exact exact_filled hpos hsize hmax hle hf buffer

/-- From inside the second sector of a device to inside the fourth. -/
theorem unaligned_transfers_iff_across :
    (∀ buffer, ExactTransfer ⟨0, 4, 0, 0, fun a => UInt8.ofNat (a / 512)⟩ 700 1000 buffer) ↔
      700 + 1000 ≤ 2 ^ 32 ∧ Filled 700 1000 :=
  unaligned_transfers_iff ⟨0, 4, 0, 0, fun a => UInt8.ofNat (a / 512)⟩ 700 1000 (by decide) (by decide)
    (by decide) (by decide)

theorem read_one_byte_overruns :
    ¬ ExactTransfer ⟨0, 4, 0, 0, fun _ => 5⟩ 1 1 (fun _ => 9) := by
  intro h
  obtain ⟨out, hr, hout⟩ := h.read
  have hbyte : _ = some (out 1) := congrArg (Option.map fun r : ℕ × Buf => r.2 1) hr
  rw [hout 1] at hbyte
  revert hbyte
  decide

/-! ### Requests over the end of the device -/

def sectorCount (dev : AtaDevice) : ℕ := if dev.sectors48 = 0 then dev.sectors28 else dev.sectors48

/-- A read is cut at the end of the device: it returns what is left there, looks only at sectors that exist
and puts only so many bytes into the buffer. -/
structure ReadClipped (dev : AtaDevice) (offset size : ℕ) (buffer : Buf) : Prop where
  returns : ∃ out, readAta dev offset size buffer = some (ataMaxOffset dev - offset, out) ∧
    ∀ i, ataMaxOffset dev - offset ≤ i → out i = buffer i
  sectors : ∀ disk : Buf, (∀ a < sectorCount dev * ataSectorSize, disk a = dev.disk a) →
    readAta { dev with disk := disk } offset size buffer = readAta dev offset size buffer

/-- A write is cut at the end of the device: it returns what is left there, changes only sectors that exist
and takes only so many bytes from the buffer. -/
structure WriteClipped (dev : AtaDevice) (offset size : ℕ) (buffer : Buf) : Prop where
  returns : ∃ disk, writeAta dev offset size buffer =
    some (ataMaxOffset dev - offset, { dev with disk := disk }) ∧
    ∀ a, sectorCount dev * ataSectorSize ≤ a → disk a = dev.disk a
  bytes : ∀ buffer' : Buf, (∀ i < ataMaxOffset dev - offset, buffer' i = buffer i) →
    writeAta dev offset size buffer' = writeAta dev offset size buffer

theorem ataMaxOffset_dvd (dev : AtaDevice) : ataMaxOffset dev % 512 = 0 := by
  unfold ataMaxOffset ataSectorSize
  omega

section Over

variable {dev : AtaDevice} {offset size : ℕ} (ho : offset ≤ ataMaxOffset dev)
    (hover : ataMaxOffset dev < offset + size)
  (hlt : offset + size < 2 ^ 32) (buffer : Buf)
include ho hover hlt

/-- The first byte behind the end of the device goes to the buffer. -/
theorem read_over : ∃ out, readAta dev offset size buffer = some (ataMaxOffset dev - offset, out) ∧
    out (ataMaxOffset dev - offset) = dev.disk (ataMaxOffset dev) := by
  have hdvd := ataMaxOffset_dvd dev
  rw [readAta_eq, transfer_over _ _ _ _ hdvd ho hover hlt]
  refine ⟨_, rfl, ?_⟩
  rw [readSectors_eq (by norm_num) _ _ _ _ _ (by unfold wholeFrom; omega),
    blit_in (by unfold wholeFrom; omega) (by unfold wholeFrom; omega),
    drop_apply]
  congr 1
  unfold wholeFrom
  omega

/-- The byte behind those that fit goes to the medium, behind the end of the device. -/
theorem write_over : ∃ disk, writeAta dev offset size buffer =
    some (ataMaxOffset dev - offset, { dev with disk := disk }) ∧
    disk (ataMaxOffset dev) = buffer (ataMaxOffset dev - offset) := by
  have hdvd := ataMaxOffset_dvd dev
  rw [writeAta_eq, transfer_over _ _ _ _ hdvd ho hover hlt]
  refine ⟨_, rfl, ?_⟩
  dsimp only
  rw [writeSectors_eq (by norm_num) _ _ _ _ _ (by unfold wholeFrom; omega),
    blit_in (by unfold wholeFrom; omega) (by unfold wholeFrom; omega),
    drop_apply]
  congr 1
  unfold wholeFrom
  omega

end Over

/-- No request over the end of the device is cut there: the sector behind the end is moved too, or, where
the end that was asked for is beyond 4 GiB, the size is not cut at all. -/
theorem over_end_never (dev : AtaDevice) (offset size : ℕ) (hoff : offset < 2 ^ 32) (hsize : size < 2 ^ 32)
    (ho : offset ≤ ataMaxOffset dev) (hover : ataMaxOffset dev < offset + size) :
    (¬ ∀ buffer, ReadClipped dev offset size buffer) ∧ ¬ ∀ buffer, WriteClipped dev offset size buffer := by
  by_cases hlt : offset + size < 2 ^ 32
  · constructor
    · intro h
      obtain ⟨out, hr, hout⟩ := (h fun _ => dev.disk (ataMaxOffset dev) + 1).returns
      obtain ⟨out', hr', hnext⟩ := read_over ho hover hlt fun _ => dev.disk (ataMaxOffset dev) + 1
      rw [hr] at hr'
      obtain ⟨-, rfl⟩ := Prod.mk.inj (Option.some.inj hr')
      rw [hout _ le_rfl] at hnext
      simp at hnext
    · intro h
      have hsame := (h fun _ => 0).bytes (fun i => if i < ataMaxOffset dev - offset then 0 else 1) fun i hi =>
        if_pos hi
      obtain ⟨disk, hw, hnext⟩ := write_over ho hover hlt fun _ => 0
      obtain ⟨disk', hw', hnext'⟩ := write_over ho hover hlt fun i =>
        if i < ataMaxOffset dev - offset then 0 else 1
      rw [hw, hw'] at hsame
      have hdisk : disk' = disk := congrArg (fun r : ℕ × AtaDevice => r.2.disk) (Option.some.inj hsame)
      rw [hdisk, hnext, if_neg (lt_irrefl _)] at hnext'
      cases hnext'
  · constructor
    · intro h
      obtain ⟨out, hr, -⟩ := (h fun _ => 0).returns
      rw [readAta_eq] at hr
      have := transfer_over_wrapped _ _ _ _ ho hsize hoff (by omega) hr
      omega
    · intro h
      obtain ⟨disk, hw, -⟩ := (h fun _ => 0).returns
      rw [writeAta_eq] at hw
      obtain ⟨⟨n, out⟩, ht, he⟩ := Option.map_eq_some_iff.mp hw
      have hn := transfer_over_wrapped _ _ _ _ ho hsize hoff (by omega) ht
      have he1 : n = ataMaxOffset dev - offset := congrArg Prod.fst he
      omega

/-- The last half of a device of one sector, and half a sector more. -/
theorem over_end_never_half : (¬ ∀ buffer, ReadClipped ⟨0, 1, 0, 0, fun _ => 5⟩ 256 512 buffer) ∧
    ¬ ∀ buffer, WriteClipped ⟨0, 1, 0, 0, fun _ => 5⟩ 256 512 buffer :=
  over_end_never ⟨0, 1, 0, 0, fun _ => 5⟩ 256 512 (by decide) (by decide) (by decide) (by decide)

/-- The read returns 256, and byte 256 of the buffer is from the sector behind the device. -/
theorem read_over_end_overruns : ¬ ReadClipped ⟨0, 1, 0, 0, fun _ => 5⟩ 256 512 (fun _ => 9) := by
  intro h
  obtain ⟨out, hr, hout⟩ := h.returns
  have hbyte : _ = some (out 256) := congrArg (Option.map fun r : ℕ × Buf => r.2 256) hr
  rw [hout 256 (by decide)] at hbyte
  revert hbyte
  decide

end ChiffOS.Dev
