import Mathlib.Tactic

/-! Byte buffers. A C object is a run of bytes that is read and written through
little-endian fields at fixed offsets, so a struct, a disk block and a whole memory are
one type here and differ only in the offsets used. -/

namespace ChiffOS

abbrev Buf := ℕ → UInt8

namespace Buf

def blit (dst : Buf) (off : ℕ) (src : Buf) (len : ℕ) : Buf :=
  fun i => if off ≤ i ∧ i < off + len then src (i - off) else dst i

def drop (b : Buf) (off : ℕ) : Buf := fun i => b (off + i)

def take (b : Buf) (len : ℕ) : Buf := blit (fun _ => 0) 0 b len

def clear (dst : Buf) (off len : ℕ) : Buf := dst.blit off (fun _ => 0) len

def u16 (b : Buf) (o : ℕ) : ℕ := (b o).toNat + 256 * (b (o + 1)).toNat

def u32 (b : Buf) (o : ℕ) : ℕ := b.u16 o + 65536 * b.u16 (o + 2)

def bytesOf (v : ℕ) : Buf := fun i => UInt8.ofNat (v / 256 ^ i)

def setU16 (b : Buf) (o v : ℕ) : Buf := b.blit o (bytesOf v) 2

def setU32 (b : Buf) (o v : ℕ) : Buf := b.blit o (bytesOf v) 4

/-- Two buffers hold the same `len` bytes at `off`. -/
def SameOn (b c : Buf) (off len : ℕ) : Prop := ∀ i, off ≤ i → i < off + len → b i = c i

theorem SameOn.symm {b c : Buf} {off len : ℕ} (h : SameOn b c off len) : SameOn c b off len :=
  fun i h1 h2 => (h i h1 h2).symm

theorem SameOn.trans {a b c : Buf} {off len : ℕ} (h : SameOn a b off len) (h' : SameOn b c off len) :
    SameOn a c off len := fun i h1 h2 => (h i h1 h2).trans (h' i h1 h2)

theorem SameOn.mono {b c : Buf} {off len off' len' : ℕ} (h : SameOn b c off len)
    (h1 : off ≤ off') (h2 : off' + len' ≤ off + len) : SameOn b c off' len' :=
  fun i hi hl => h i (by omega) (by omega)

variable (b : Buf)

@[simp] theorem drop_apply (off i : ℕ) : b.drop off i = b (off + i) := rfl

@[simp] theorem drop_zero : b.drop 0 = b := by
  funext i; simp

theorem drop_drop (m n : ℕ) : (b.drop m).drop n = b.drop (m + n) := by
  funext i; simp [Nat.add_assoc]

variable {dst src : Buf} {off len i : ℕ}

theorem blit_in (h1 : off ≤ i) (h2 : i < off + len) :
    dst.blit off src len i = src (i - off) := if_pos ⟨h1, h2⟩

theorem blit_out (h : i < off ∨ off + len ≤ i) :
    dst.blit off src len i = dst i := if_neg (by omega)

@[simp] theorem blit_nothing (dst src : Buf) (off : ℕ) : dst.blit off src 0 = dst := by
  funext i
  exact blit_out (by omega)

theorem blit_sameOn_out (dst src : Buf) {off len o l : ℕ} (h : o + l ≤ off ∨ off + len ≤ o) :
    SameOn (dst.blit off src len) dst o l := fun i _ _ => blit_out (by omega)

theorem blit_sameOn (dst src : Buf) (len : ℕ) : SameOn (dst.blit 0 src len) src 0 len :=
  fun i h1 h2 => by rw [blit_in h1 h2, Nat.sub_zero]

theorem blit_congr {dst src src' : Buf} {off len : ℕ} (h : ∀ i < len, src i = src' i) :
    dst.blit off src len = dst.blit off src' len := by
  funext i
  by_cases hi : off ≤ i ∧ i < off + len
  · rw [blit_in hi.1 hi.2, blit_in hi.1 hi.2, h _ (by omega)]
  · rw [blit_out (by omega), blit_out (by omega)]

/-- The same copy into two buffers makes them agree where it goes. -/
theorem blit_agree {b c src : Buf} (h : ¬ (off ≤ i ∧ i < off + len) → b i = c i) :
    b.blit off src len i = c.blit off src len i := by
  by_cases hi : off ≤ i ∧ i < off + len
  · rw [blit_in hi.1 hi.2, blit_in hi.1 hi.2]
  · rw [blit_out (by omega), blit_out (by omega), h hi]

theorem SameOn.drop {b c : Buf} {o l : ℕ} (h : SameOn b c 0 l) {len : ℕ} (hl : o + len ≤ l) :
    SameOn (b.drop o) (c.drop o) 0 len := by
  intro i _ hi
  exact h _ (by omega) (by omega)

theorem blit_self (off len : ℕ) : b.blit off (b.drop off) len = b := by
  funext i
  by_cases hi : off ≤ i ∧ i < off + len
  · rw [blit_in hi.1 hi.2, drop_apply, Nat.add_sub_cancel' hi.1]
  · exact blit_out (by omega)

/-- A second copy over the same range hides the first. -/
theorem blit_blit (dst src src' : Buf) (off len : ℕ) :
    (dst.blit off src len).blit off src' len = dst.blit off src' len := by
  funext i
  by_cases hi : off ≤ i ∧ i < off + len
  · rw [blit_in hi.1 hi.2, blit_in hi.1 hi.2]
  · rw [blit_out (by omega), blit_out (by omega), blit_out (by omega)]

theorem blit_append (dst src : Buf) (off m n : ℕ) :
    (dst.blit off src m).blit (off + m) (src.drop m) n = dst.blit off src (m + n) := by
  funext i
  by_cases h1 : off + m ≤ i ∧ i < off + m + n
  · rw [blit_in h1.1 h1.2, blit_in (by omega) (by omega), drop_apply]
    congr 1
    omega
  · rw [blit_out (by omega)]
    by_cases h2 : off ≤ i ∧ i < off + m
    · rw [blit_in h2.1 h2.2, blit_in h2.1 (by omega)]
    · rw [blit_out (by omega), blit_out (by omega)]

theorem blit_drop_apply (dst src : Buf) (off len i : ℕ) :
    dst.blit off (src.drop off) len i = if off ≤ i ∧ i < off + len then src i else dst i := by
  by_cases h : off ≤ i ∧ i < off + len
  · rw [if_pos h, blit_in h.1 h.2, drop_apply, Nat.add_sub_cancel' h.1]
  · rw [if_neg h, blit_out (by omega)]

/-- A part is changed in a copy of the bytes, and the copy goes back to where they are. -/
theorem blit_patched {dst copy src : Buf} {off size o len : ℕ} (h : o + len ≤ size)
    (hcopy : SameOn copy (dst.drop off) 0 size) :
    dst.blit off (copy.blit o src len) size = dst.blit (off + o) src len := by
  funext i
  by_cases h1 : off + o ≤ i ∧ i < off + o + len
  · rw [blit_in (by omega) (by omega), blit_in (by omega) (by omega), blit_in h1.1 h1.2, Nat.sub_sub]
  · have hout : dst.blit (off + o) src len i = dst i := blit_out (by omega)
    rw [hout]
    by_cases h2 : off ≤ i ∧ i < off + size
    · rw [blit_in h2.1 h2.2, blit_out (by omega), hcopy _ (by omega) (by omega), drop_apply]
      congr 1
      omega
    · exact blit_out (by omega)

theorem clear_in {dst : Buf} (h1 : off ≤ i) (h2 : i < off + len) : dst.clear off len i = 0 :=
  blit_in h1 h2

theorem take_in {b : Buf} {len i : ℕ} (h : i < len) : b.take len i = b i := blit_in (Nat.zero_le _) (by omega)

theorem take_congr {b c : Buf} {len : ℕ} (h : ∀ i < len, b i = c i) : b.take len = c.take len := blit_congr h

theorem take_blit (b src : Buf) (len : ℕ) : (b.take len).blit 0 src len = src.take len := blit_blit _ _ _ _ _

theorem blit_take (dst src : Buf) (off len : ℕ) : dst.blit off (src.take len) len = dst.blit off src len :=
  blit_congr fun _ h => take_in h

theorem u16_lt (o : ℕ) : b.u16 o < 2 ^ 16 := by
  have h0 := (b o).toNat_lt
  have h1 := (b (o + 1)).toNat_lt
  unfold u16
  omega

theorem u32_lt (o : ℕ) : b.u32 o < 2 ^ 32 := by
  have h0 := b.u16_lt o
  have h1 := b.u16_lt (o + 2)
  unfold u32
  omega

theorem u16_congr {b c : Buf} {o : ℕ} (h : SameOn b c o 2) : b.u16 o = c.u16 o := by
  unfold u16
  rw [h o (by omega) (by omega), h (o + 1) (by omega) (by omega)]

theorem u32_congr {b c : Buf} {o : ℕ} (h : SameOn b c o 4) : b.u32 o = c.u32 o := by
  unfold u32
  rw [u16_congr (h.mono (by omega) (by omega)), u16_congr (h.mono (by omega) (by omega))]

theorem u16_drop (m o : ℕ) : (b.drop m).u16 o = b.u16 (m + o) := by
  simp [u16, Nat.add_assoc]

theorem u32_drop (m o : ℕ) : (b.drop m).u32 o = b.u32 (m + o) := by
  simp [u32, u16_drop, Nat.add_assoc]

theorem u16_blit_out {off len o : ℕ} (h : o + 2 ≤ off ∨ off + len ≤ o) :
    (dst.blit off src len).u16 o = dst.u16 o := u16_congr (blit_sameOn_out dst src h)

theorem u32_blit_out {off len o : ℕ} (h : o + 4 ≤ off ∨ off + len ≤ o) :
    (dst.blit off src len).u32 o = dst.u32 o := u32_congr (blit_sameOn_out dst src h)

theorem u16_blit_in {off len o : ℕ} (h1 : off ≤ o) (h2 : o + 2 ≤ off + len) :
    (dst.blit off src len).u16 o = src.u16 (o - off) := by
  unfold u16
  rw [blit_in h1 (by omega), blit_in (by omega) (by omega), show o + 1 - off = o - off + 1 by omega]

theorem u32_blit_in {off len o : ℕ} (h1 : off ≤ o) (h2 : o + 4 ≤ off + len) :
    (dst.blit off src len).u32 o = src.u32 (o - off) := by
  unfold u32
  rw [u16_blit_in h1 (by omega), u16_blit_in (by omega) (by omega),
    show o + 2 - off = o - off + 2 by omega]

theorem bytesOf_u16 (v : ℕ) : (bytesOf v).u16 0 = v % 2 ^ 16 := by
  simp only [bytesOf, u16, UInt8.toNat_ofNat']
  omega

theorem bytesOf_u32 (v : ℕ) : (bytesOf v).u32 0 = v % 2 ^ 32 := by
  simp only [bytesOf, u32, u16, UInt8.toNat_ofNat']
  omega

@[simp] theorem u16_setU16 (o v : ℕ) : (b.setU16 o v).u16 o = v % 2 ^ 16 := by
  rw [setU16, u16_blit_in le_rfl le_rfl, Nat.sub_self, bytesOf_u16]

@[simp] theorem u32_setU32 (o v : ℕ) : (b.setU32 o v).u32 o = v % 2 ^ 32 := by
  rw [setU32, u32_blit_in le_rfl le_rfl, Nat.sub_self, bytesOf_u32]

variable {o o' v : ℕ}

theorem u32_setU32_ne {b : Buf} (h : o' + 4 ≤ o ∨ o + 4 ≤ o') :
    (b.setU32 o v).u32 o' = b.u32 o' := u32_blit_out h

theorem u32_setU16_ne {b : Buf} (h : o' + 4 ≤ o ∨ o + 2 ≤ o') :
    (b.setU16 o v).u32 o' = b.u32 o' := u32_blit_out h

theorem u16_setU32_ne {b : Buf} (h : o' + 2 ≤ o ∨ o + 4 ≤ o') :
    (b.setU32 o v).u16 o' = b.u16 o' := u16_blit_out h

theorem u16_setU16_ne {b : Buf} (h : o' + 2 ≤ o ∨ o + 2 ≤ o') :
    (b.setU16 o v).u16 o' = b.u16 o' := u16_blit_out h

end Buf
end ChiffOS
