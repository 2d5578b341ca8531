import ChiffOS.Lib.Bytes

/-! The block devices of `ata.c`. Reads and writes are cut into sectors: a part of the first one, a part of
the last one, and the whole sectors between. A single sector is taken to arrive. -/

namespace ChiffOS.Dev

open Buf

def ataSectorSize : ℕ := 512

/-- The fields of `struct ata_device` and its `identity` that the transfers use, with the medium. -/
structure AtaDevice where
  sectors48 : ℕ
  sectors28 : ℕ
  atapiLba : ℕ
  atapiSectorSize : ℕ
  disk : Buf

def ataMaxOffset (dev : AtaDevice) : ℕ :=
  (if dev.sectors48 = 0 then dev.sectors28 else dev.sectors48) * ataSectorSize % 2 ^ 64

def atapiMaxOffset (dev : AtaDevice) : ℕ :=
  if dev.atapiLba = 0 then 0 else (dev.atapiLba + 1) * dev.atapiSectorSize % 2 ^ 64

def readSector (z : ℕ) (disk : Buf) (lba : ℕ) (buf : Buf) (at_ : ℕ) : Buf := buf.blit at_
    (disk.drop (lba * z)) z

/-- `ata_device_write_sector_retry`. -/
def writeSector (z : ℕ) (disk : Buf) (lba : ℕ) (buf : Buf) : Buf := disk.blit (lba * z) buf z

def readSectors (z : ℕ) (disk : Buf) : (left startBlock xOffset : ℕ) → Buf → Buf
  | 0, _, _, buffer => buffer
  | left + 1, startBlock, xOffset, buffer =>
    readSectors z disk left (startBlock + 1) ((xOffset + z) % 2 ^ 32)
      (readSector z disk startBlock buffer xOffset)

def writeSectors (z : ℕ) (buffer : Buf) : (left startBlock xOffset : ℕ) → Buf → Buf
  | 0, _, _, disk => disk
  | left + 1, startBlock, xOffset, disk =>
    writeSectors z buffer left (startBlock + 1) ((xOffset + z) % 2 ^ 32)
      (writeSector z disk startBlock (buffer.drop xOffset))

/-- Where a transfer stands: the sectors that are left, and what it has moved. -/
structure Transfer where
  startBlock : ℕ
  endBlock : ℕ
  xOffset : ℕ
  data : Buf

/-- The part of the first sector, if the offset is inside one. -/
def takePrefix (z offset : ℕ) (t : Transfer) (step : ℕ → Buf → Buf) : Transfer :=
  if offset % z ≠ 0 then
    { t with startBlock := t.startBlock + 1, xOffset := z - offset % z, data := step t.startBlock t.data }
  else t

/-- The part of the last sector, if the end is inside one. -/
def takePostfix (z offset size : ℕ) (t : Transfer) (step : ℕ → Buf → Buf) : Transfer :=
  if (offset + size) % 2 ^ 32 % z ≠ 0 ∧ t.startBlock ≤ t.endBlock then
    { t with endBlock := (t.endBlock + 2 ^ 32 - 1) % 2 ^ 32, data := step t.endBlock t.data }
  else t

/-- The transfers of `ata.c` up to the loop. The result is missing where the source has none: with sectors
of no bytes, and where `end_block` is the last 32-bit number, so that the loop does not end. -/
def transfer (z maxOffset offset size : ℕ) (data : Buf) (first last : ℕ → ℕ → Buf → Buf)
    (whole : (left startBlock xOffset : ℕ) → Buf → Buf) : Option (ℕ × Buf) :=
  if z = 0 then none
  else if offset > maxOffset then some (0, data)
  else
    let t : Transfer := ⟨offset / z, (offset + size + 2 ^ 32 - 1) % 2 ^ 32 / z, 0, data⟩
    let size := if (offset + size) % 2 ^ 32 > maxOffset then (maxOffset - offset) % 2 ^ 32 else size
    let t := takePostfix z offset size (takePrefix z offset t (first size)) (last size)
    if t.endBlock = 2 ^ 32 - 1 then none
    else some (size, whole (t.endBlock + 1 - t.startBlock) t.startBlock t.xOffset t.data)

def readDevice (z maxOffset : ℕ) (disk : Buf) (offset size : ℕ) (buffer : Buf) : Option (ℕ × Buf) :=
  transfer z maxOffset offset size buffer
    (fun _ block buffer => buffer.blit 0 (disk.drop (block * z + offset % z)) (z - offset % z))
    (fun size block buffer =>
      let postfixSize := (offset + size) % 2 ^ 32 % z
      buffer.blit (size - postfixSize) (disk.drop (block * z)) postfixSize)
    (readSectors z disk)

def readAta (dev : AtaDevice) (offset size : ℕ) (buffer : Buf) : Option (ℕ × Buf) :=
  readDevice ataSectorSize (ataMaxOffset dev) dev.disk offset size buffer

def readAtapi (dev : AtaDevice) (offset size : ℕ) (buffer : Buf) : Option (ℕ × Buf) :=
  readDevice dev.atapiSectorSize (atapiMaxOffset dev) dev.disk offset size buffer

/-- The sectors at the two ends are read first, so that the rest of them is written back. -/
def writeAta (dev : AtaDevice) (offset size : ℕ) (buffer : Buf) : Option (ℕ × AtaDevice) := do
  let z := ataSectorSize
  let (size, disk) ← transfer z (ataMaxOffset dev) offset size dev.disk
    (fun _ block disk =>
      let tmp := readSector z disk block (fun _ => 0) 0
      writeSector z disk block (tmp.blit (offset % z) buffer (z - offset % z)))
    (fun size block disk =>
      let tmp := readSector z disk block (fun _ => 0) 0
      let postfixSize := (offset + size) % 2 ^ 32 % z
      writeSector z disk block (tmp.blit 0 (buffer.drop (size - postfixSize)) postfixSize))
    (writeSectors z buffer)
  some (size, { dev with disk := disk })

/-! ### Whole sectors -/

theorem readSectors_eq {z : ℕ} (hz : 0 < z) (disk : Buf) : ∀ (left startBlock xOffset : ℕ) (buffer : Buf),
    xOffset + left * z ≤ 2 ^ 32 →
    readSectors z disk left startBlock xOffset buffer =
      buffer.blit xOffset (disk.drop (startBlock * z)) (left * z) := by
  intro left
  induction left with
  | zero =>
    intro startBlock xOffset buffer _
    rw [Nat.zero_mul, blit_nothing]
    rfl
  | succ left ih =>
    intro startBlock xOffset buffer hx
    rw [Nat.succ_mul] at hx ⊢
    rw [readSectors, readSector]
    by_cases hleft : left = 0
    · rw [hleft, Nat.zero_mul, Nat.zero_add]
      rfl
    · have := Nat.mul_pos (Nat.pos_of_ne_zero hleft) hz
      rw [Nat.mod_eq_of_lt (by omega), ih _ _ _ (by omega), Nat.add_comm (left * z) z, ← blit_append,
        drop_drop, Nat.succ_mul]

theorem writeSectors_eq {z : ℕ} (hz : 0 < z) (buffer : Buf) : ∀ (left startBlock xOffset : ℕ) (disk : Buf),
    xOffset + left * z ≤ 2 ^ 32 →
    writeSectors z buffer left startBlock xOffset disk =
      disk.blit (startBlock * z) (buffer.drop xOffset) (left * z) := by
  intro left
  induction left with
  | zero =>
    intro startBlock xOffset disk _
    rw [Nat.zero_mul, blit_nothing]
    rfl
  | succ left ih =>
    intro startBlock xOffset disk hx
    rw [Nat.succ_mul] at hx ⊢
    rw [writeSectors, writeSector]
    by_cases hleft : left = 0
    · rw [hleft, Nat.zero_mul, Nat.zero_add]
      rfl
    · have := Nat.mul_pos (Nat.pos_of_ne_zero hleft) hz
      rw [Nat.mod_eq_of_lt (by omega), ih _ _ _ (by omega), Nat.add_comm (left * z) z, ← blit_append,
        drop_drop, Nat.succ_mul]

/-- With both ends between sectors there is only the loop. -/
theorem transfer_aligned {z maxOffset offset size : ℕ} (hz : 1 < z) (ho : z ∣ offset) (hs : z ∣ size)
    (hpos : 0 < size)
    (hmax : offset + size ≤ maxOffset) (hlt : offset + size < 2 ^ 32) (data : Buf) (first last : ℕ → ℕ → Buf →
      Buf)
    (whole : (left startBlock xOffset : ℕ) → Buf → Buf) :
    transfer z maxOffset offset size data first last whole =
      some (size, whole (size / z) (offset / z) 0 data) := by
  obtain ⟨a, rfl⟩ := ho
  obtain ⟨b, rfl⟩ := hs
  have hb : 0 < b := Nat.pos_of_mul_pos_left hpos
  have hlast : (z * a + z * b + 2 ^ 32 - 1) % 2 ^ 32 / z = a + b - 1 := by
    rw [show z * a + z * b + 2 ^ 32 - 1 = z * a + z * b - 1 + 2 ^ 32 by omega, Nat.add_mod_right,
      Nat.mod_eq_of_lt (by omega), show z * a + z * b - 1 = z - 1 + z * (a + b - 1) by
        rw [Nat.mul_sub, Nat.mul_add]
        have := Nat.le_mul_of_pos_right z hb
        omega,
      Nat.add_mul_div_left _ _ (by omega), Nat.div_eq_of_lt (by omega), Nat.zero_add]
  have hend : (z * a + z * b) % 2 ^ 32 % z = 0 := by
    rw [Nat.mod_eq_of_lt hlt, ← Nat.mul_add, Nat.mul_mod_right]
  have hblocks : a + b - 1 < 2 ^ 32 - 1 := by
    have h1 : 2 * (a + b) ≤ z * (a + b) := Nat.mul_le_mul_right _ hz
    rw [Nat.mul_add z] at h1
    omega
  have hsize : ¬ (z * a + z * b) % 2 ^ 32 > maxOffset := by
    rw [Nat.mod_eq_of_lt hlt]
    omega
  have hfirst : ∀ (t : Transfer) (step : ℕ → Buf → Buf), takePrefix z (z * a) t step = t :=
    fun t step => if_neg (by rw [Nat.mul_mod_right]; simp)
  have hrest : ∀ (t : Transfer) (step : ℕ → Buf → Buf), takePostfix z (z * a) (z * b) t step = t :=
    fun t step => if_neg fun h => h.1 hend
  unfold transfer
  rw [if_neg (by omega), if_neg (by omega)]
  dsimp only
  rw [if_neg hsize, hfirst, hrest]
  dsimp only
  rw [hlast, if_neg hblocks.ne, Nat.mul_div_cancel_left a (by omega), Nat.mul_div_cancel_left b (by omega),
    show a + b - 1 + 1 - a = b by omega]

/-- Transfers of whole sectors inside the device are exact: a read puts the bytes of the medium into the
buffer and a write those of the buffer onto the medium, and nothing else changes. -/
theorem sector_transfers_exact (dev : AtaDevice) (offset size : ℕ) (buffer : Buf)
    (ho : ataSectorSize ∣ offset)
    (hs : ataSectorSize ∣ size) (hpos : 0 < size) (hmax : offset + size ≤ ataMaxOffset dev)
    (hlt : offset + size < 2 ^ 32) :
    (∃ out, readAta dev offset size buffer = some (size, out) ∧
      ∀ i, out i = if i < size then dev.disk (offset + i) else buffer i) ∧
    ∃ disk, writeAta dev offset size buffer = some (size, { dev with disk := disk }) ∧
      ∀ a, disk a = if offset ≤ a ∧ a < offset + size then buffer (a - offset) else dev.disk a := by
  have hz : 1 < ataSectorSize := by decide
  have hread := transfer_aligned hz ho hs hpos hmax hlt
  have hsize : size / ataSectorSize * ataSectorSize = size := Nat.div_mul_cancel hs
  constructor
  · refine ⟨buffer.blit 0 (dev.disk.drop offset) size, ?_, fun i => ?_⟩
    · rw [readAta, readDevice, hread, readSectors_eq (by omega) _ _ _ _ _ (by omega), hsize,
        Nat.div_mul_cancel ho]
    · by_cases hi : i < size
      · rw [if_pos hi, blit_in (Nat.zero_le _) (by omega)]
        rfl
      · rw [if_neg hi, blit_out (by omega)]
  · refine ⟨dev.disk.blit offset buffer size, ?_, fun a => rfl⟩
    simp only [writeAta, hread, writeSectors_eq (show 0 < ataSectorSize by omega) _ _ _ _ _
      (show 0 + size / ataSectorSize * ataSectorSize ≤ 2 ^ 32 by omega),
      hsize, Nat.div_mul_cancel ho, drop_zero, Option.bind_eq_bind, Option.bind_some]

theorem sector_transfers_exact_middle :
    (∃ out, readAta ⟨0, 4, 0, 0, fun a => UInt8.ofNat (a / 512)⟩ 512 1024 (fun _ => 9) = some (1024, out) ∧
      ∀ i, out i = if i < 1024 then UInt8.ofNat ((512 + i) / 512) else 9) ∧
    ∃ disk, writeAta ⟨0, 4, 0, 0, fun a => UInt8.ofNat (a / 512)⟩ 512 1024 (fun _ => 9) =
        some (1024, ⟨0, 4, 0, 0, disk⟩) ∧
      ∀ a, disk a = if 512 ≤ a ∧ a < 512 + 1024 then 9 else UInt8.ofNat (a / 512) :=
  sector_transfers_exact ⟨0, 4, 0, 0, fun a => UInt8.ofNat (a / 512)⟩ 512 1024 (fun _ => 9) (by decide)
    (by decide)
    (by decide) (by decide) (by decide)

end ChiffOS.Dev
