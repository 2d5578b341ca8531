import ChiffOS.Lib.Tiling
import ChiffOS.Ext2.Creation

/-! A directory block as the format has it: a row of records that tile it, each with room for its name. An
entry is free when its inode is 0. -/

namespace ChiffOS.Ext2

open Buf Tiling List

structure DirRec where
  inode : ℕ
  recLen : ℕ
  name : List UInt8
deriving DecidableEq

namespace DirRec

def Fits (r : DirRec) : Prop := 4 ∣ r.recLen ∧ 8 + r.name.length ≤ r.recLen

def Is (r : DirRec) (name : List UInt8) : Prop := r.inode ≠ 0 ∧ r.name = name

def need (r : DirRec) : ℕ := recordLen r.name.length

end DirRec

def live (rs : List DirRec) : List (List UInt8 × ℕ) := (rs.filter (·.inode ≠ 0)).map fun r =>
    (r.name, r.inode)

@[simp] theorem live_append (l r : List DirRec) : live (l ++ r) = live l ++ live r := by simp [live]

variable {rs : List DirRec}

theorem mem_live {e : List UInt8 × ℕ} : e ∈ live rs ↔ ∃ r ∈ rs, r.inode ≠ 0 ∧ (r.name, r.inode) = e := by
  simp [live, and_assoc]

variable {name : List UInt8}

theorem find_live_none (h : ∀ r ∈ rs, ¬ r.Is name) : (live rs).find? (·.1 = name) = none := by
  rw [List.find?_eq_none]
  intro e he
  obtain ⟨r, hr, hi, rfl⟩ := mem_live.mp he
  simpa using fun hn => h r hr ⟨hi, hn⟩

theorem find_live {l post : List DirRec} {r : DirRec} (h : ∀ x ∈ l, ¬ x.Is name) (hr : r.Is name) :
    (live (l ++ r :: post)).find? (·.1 = name) = some (r.name, r.inode) := by
  have hlive : live (r :: post) = (r.name, r.inode) :: live post := by simp [live, hr.1]
  rw [live_append, List.find?_append, find_live_none h, hlive]
  simp [hr.2]

def recAt (b : Buf) (o : ℕ) : DirRec := ⟨entInode b o, entRecLen b o, entName b o⟩

def records (b : Buf) (size : ℕ) : List DirRec := parse DirRec.recLen (recAt b) size size 0

/-- The records of the block. -/
structure Row (b : Buf) (size : ℕ) (rs : List DirRec) : Prop where
  tiles : Tiles DirRec.recLen (recAt b) size 0 rs
  fits : ∀ r ∈ rs, r.Fits

variable {size : ℕ} {b : Buf}

theorem Row.records (h : Row b size rs) : records b size = rs := by
  have hlen := h.tiles.length_le
  exact h.tiles.parse (by omega)

theorem entName_length (b : Buf) (o : ℕ) : (entName b o).length = entNameLen b o := by simp [entName]

theorem name_lt {r : DirRec} (h : r ∈ records b size) : r.name.length < 256 := by
  obtain ⟨o, rfl⟩ := mem_parse h
  exact (entName_length b o).trans_lt (entNameLen_lt b o)

theorem recAt_congr {b c : Buf} {o : ℕ} (h : SameOn b c o (8 + entNameLen c o)) : recAt b o = recAt c o := by
  have hlen : entNameLen b o = entNameLen c o := congrArg UInt8.toNat (h (o + 6) (by omega) (by omega))
  have hname : entName b o = entName c o := by
    unfold entName
    rw [hlen]
    exact map_congr_left fun i hi => h _ (by omega) (by have := mem_range.mp hi; omega)
  have hi : entInode b o = entInode c o := u32_congr (h.mono (by omega) (by omega))
  have hr : entRecLen b o = entRecLen c o := u16_congr (h.mono (by omega) (by omega))
  simp only [recAt, hname, hi, hr]

theorem recAt_copy (b c : Buf) {o len : ℕ} (h : 8 + entNameLen c o ≤ len) : recAt
    (b.blit 0 (c.drop o) len) 0 = recAt c o := by
  have hdrop : recAt (c.drop o) 0 = recAt c o := by
    simp only [recAt, entInode, entRecLen, entName, entNameLen, u32_drop, u16_drop, drop_apply, Nat.add_zero,
      Nat.zero_add, Nat.add_assoc]
  rw [← hdrop]
  refine recAt_congr ((blit_sameOn b (c.drop o) len).mono le_rfl ?_)
  simpa [entNameLen] using h

theorem tiles_congr {b c : Buf} {o size : ℕ} (h : Tiles DirRec.recLen (recAt c) size o rs)
    (hfit : ∀ r ∈ rs, r.Fits) (hsame : SameOn b c o (size - o)) :
      Tiles DirRec.recLen (recAt b) size o rs := by
  induction rs generalizing o with
  | nil => exact h
  | cons r rs ih =>
    obtain ⟨rfl, hpos, hrest⟩ := h
    have hend := hrest.end_eq
    have hroom : 8 + entNameLen c o ≤ (recAt c o).recLen := entName_length c o ▸ (hfit _ mem_cons_self).2
    refine ⟨recAt_congr (hsame.mono le_rfl (by omega)), hpos,
      ih hrest (fun x hx => hfit x (mem_cons_of_mem _ hx)) ?_⟩
    exact hsame.mono (by omega) (by omega)

theorem Row.congr {b c : Buf} (h : Row c size rs) (hsame : SameOn b c 0 size) : Row b size rs :=
  ⟨tiles_congr h.tiles h.fits hsame, h.fits⟩

theorem Row.split {l r : List DirRec} {x : DirRec} (h : Row b size (l ++ x :: r)) :
    recAt b (span DirRec.recLen l) = x ∧ x.Fits ∧ 0 < x.recLen ∧
      span DirRec.recLen l + x.recLen + span DirRec.recLen r = size := by
  have h1 := (tiles_append.mp h.tiles).2
  rw [Nat.zero_add] at h1
  have hend := h1.end_eq
  rw [span_cons] at hend
  exact ⟨h1.1, h.fits x (by simp), h1.2.1, by omega⟩

theorem Row.dvd {l r : List DirRec} (h : Row b size (l ++ r)) : 4 ∣ span DirRec.recLen l := by
  have hfit := fun x hx => h.fits x (mem_append_left r hx)
  clear h
  induction l with
  | nil => simp
  | cons x l ih =>
    rw [span_cons]
    exact Nat.dvd_add (hfit x mem_cons_self).1 (ih fun y hy => hfit y (mem_cons_of_mem _ hy))

theorem Row.dvd_size (h : Row b size rs) : 4 ∣ size := by
  have hend := h.tiles.end_eq
  rw [Nat.zero_add] at hend
  rw [← hend]
  exact Row.dvd (r := []) (by simpa using h)

theorem Row.replace {b c : Buf} {l r xs : List DirRec} {x : DirRec} (h : Row c size (l ++ x :: r))
    (hfit : ∀ y ∈ xs, y.Fits) (hmid : Tiles DirRec.recLen (recAt b) (span DirRec.recLen l + x.recLen)
      (span DirRec.recLen l) xs)
    (hbefore : SameOn b c 0 (span DirRec.recLen l))
    (hbehind : SameOn b c (span DirRec.recLen l + x.recLen) (size - (span DirRec.recLen l + x.recLen))) :
    Row b size (l ++ xs ++ r) := by
  obtain ⟨hl, hr⟩ := tiles_append.mp h.tiles
  have hspan := hmid.end_eq
  rw [Nat.zero_add] at hl hr
  refine ⟨tiles_append.mpr ⟨tiles_append.mpr ⟨?_, ?_⟩, ?_⟩, ?_⟩
  · rw [Nat.zero_add]
    exact tiles_congr hl (fun y hy => h.fits y (mem_append_left _ hy)) (by simpa using hbefore)
  · rw [Nat.zero_add, Nat.zero_add, span_append, hspan]
    exact hmid
  · rw [Nat.zero_add, span_append, hspan]
    exact tiles_congr hr.2.2 (fun y hy => h.fits y (by simp [hy])) hbehind
  · intro y hy
    simp only [mem_append] at hy
    rcases hy with (hy | hy) | hy
    · exact h.fits y (by simp [hy])
    · exact hfit y hy
    · exact h.fits y (by simp [hy])

/-! ### Changing a row -/

theorem Row.free {l r : List DirRec} {x : DirRec} (h : Row b size (l ++ x :: r)) :
    Row (b.setU32 (span DirRec.recLen l) 0) size (l ++ { x with inode := 0 } :: r) := by
  obtain ⟨hx, hfit, hpos, hend⟩ := h.split
  set o := span DirRec.recLen l
  have hroom : 8 ≤ x.recLen := (Nat.le_add_right 8 _).trans hfit.2
  have hout : ∀ {p n}, p + n ≤ o ∨ o + 4 ≤ p → SameOn (b.setU32 o 0) b p n := fun hp => blit_sameOn_out _ _ hp
  have hrec : recAt (b.setU32 o 0) o = { x with inode := 0 } := by
    have hlen : entNameLen (b.setU32 o 0) o = entNameLen b o :=
      congrArg UInt8.toNat (hout (p := o + 6) (n := 1) (by omega) _ le_rfl (by omega))
    have hname : entName (b.setU32 o 0) o = entName b o := by
      unfold entName
      rw [hlen]
      exact map_congr_left fun i _ => hout (p := o + 8 + i) (n := 1) (by omega) _ le_rfl (by omega)
    rw [← hx, recAt, recAt, hname]
    simp only [entInode, entRecLen, u32_setU32, Nat.zero_mod,
      u16_congr (hout (p := o + 4) (n := 2) (by omega))]
  have hmid : Tiles DirRec.recLen (recAt (b.setU32 o 0)) (o + x.recLen) o [{ x with inode := 0 }] :=
    ⟨hrec, hpos, rfl⟩
  have hfits : ∀ y ∈ [{ x with inode := 0 }], y.Fits := by
    intro y hy
    obtain rfl := mem_singleton.mp hy
    exact hfit
  simpa using h.replace hfits hmid (hout (by omega)) (hout (by omega))

theorem recAt_setEntry {o inode recLen : ℕ} (hi : inode < 2 ^ 32) (hr : recLen < 2 ^ 16)
    (hn : name.length < 256) : recAt (setEntry b o inode recLen name) o = ⟨inode, recLen, name⟩ := by
  have hlen : entNameLen (setEntry b o inode recLen name) o = name.length := by
    unfold entNameLen setEntry
    rw [blit_out (by omega), blit_in (by omega) (by omega)]
    simp [ofBytes, Nat.mod_eq_of_lt hn]
  have hname : entName (setEntry b o inode recLen name) o = name := by
    apply ext_getElem
    · rw [entName_length, hlen]
    · intro i h1 h2
      unfold setEntry
      simp only [entName, getElem_map, getElem_range]
      rw [blit_in (by omega) (by omega), show o + 8 + i - (o + 8) = i by omega]
      simp [ofBytes, h2]
  have hino : entInode (setEntry b o inode recLen name) o = inode := by
    unfold entInode setEntry
    rw [u32_blit_out (by omega), u32_blit_out (by omega), u32_setU16_ne (by omega), u32_setU32,
      Nat.mod_eq_of_lt hi]
  have hrec : entRecLen (setEntry b o inode recLen name) o = recLen := by
    unfold entRecLen setEntry
    rw [u16_blit_out (by omega), u16_blit_out (by omega), u16_setU16, Nat.mod_eq_of_lt hr]
  rw [recAt, hino, hrec, hname]

theorem setEntry_sameOn (b : Buf) (o inode recLen : ℕ) (name : List UInt8) : SameOn
    (setEntry b o inode recLen name) b 0 o := by
  intro i _ hi
  unfold setEntry setU16 setU32
  rw [blit_out (by omega), blit_out (by omega), blit_out (by omega), blit_out (by omega)]

theorem recordLen_spec (n : ℕ) : 4 ∣ recordLen n ∧ 8 + n ≤ recordLen n := by
  unfold recordLen
  split_ifs <;> omega

theorem DirRec.Fits.need_le {r : DirRec} (h : r.Fits) : r.need ≤ r.recLen := by
  obtain ⟨h1, h2⟩ := h
  unfold DirRec.need recordLen
  split_ifs <;> omega

/-- The last record is cut to what it needs, and the new one takes the rest of the block. -/
theorem Row.insert {size inode : ℕ} {l : List DirRec} {x : DirRec} (h : Row b size (l ++ [x]))
    (hsize : size ≤ 65536) (hi : inode < 2 ^ 32) (hn : name.length < 256)
    (hroom : x.need + recordLen name.length ≤ x.recLen) :
    Row (setEntry (b.setU16 (span DirRec.recLen l + 4) x.need) (span DirRec.recLen l + x.need) inode
        (size - (span DirRec.recLen l + x.need)) name) size
      (l ++ [{ x with recLen := x.need }, ⟨inode, size - (span DirRec.recLen l + x.need), name⟩]) := by
  obtain ⟨hx, hfit, hpos, hend⟩ := h.split
  have hdvd := h.dvd
  have hdvd' := h.dvd_size
  set o := span DirRec.recLen l
  obtain ⟨hneed, hneed'⟩ := recordLen_spec x.name.length
  obtain ⟨hnew, hnew'⟩ := recordLen_spec name.length
  change 4 ∣ x.need at hneed
  change 8 + x.name.length ≤ x.need at hneed'
  rw [span_nil, Nat.add_zero] at hend
  have hlen : entNameLen b o = x.name.length := by rw [← entName_length, ← hx]; rfl
  have hsmall : x.need < 2 ^ 16 := by omega
  set c := b.setU16 (o + 4) x.need
  have hc : ∀ {p n}, p + n ≤ o + 4 ∨ o + 6 ≤ p → SameOn c b p n := fun hp => blit_sameOn_out _ _ hp
  have hset := setEntry_sameOn c (o + x.need) inode (size - (o + x.need)) name
  have hrec : recAt (setEntry c (o + x.need) inode (size - (o + x.need)) name) o =
    { x with recLen := x.need } := by
    have hclen : entNameLen c o = x.name.length := by
      rw [← hlen]
      exact congrArg UInt8.toNat (hc (p := o + 6) (n := 1) (by omega) _ le_rfl (by omega))
    rw [recAt_congr (hset.mono (by omega) (by rw [hclen]; omega))]
    have hname : entName c o = x.name := by
      rw [← hx, recAt, entName, hclen, ← hlen]
      exact map_congr_left fun i _ => hc (p := o + 8 + i) (n := 1) (by omega) _ le_rfl (by omega)
    have hino : entInode c o = x.inode := by
      rw [← hx]
      exact u32_congr (hc (by omega))
    have hlen' : entRecLen c o = x.need := (u16_setU16 ..).trans (Nat.mod_eq_of_lt hsmall)
    rw [recAt, hname, hino, hlen']
  have hmid : Tiles DirRec.recLen (recAt (setEntry c (o + x.need) inode (size - (o + x.need)) name))
    (o + x.recLen) o
      [{ x with recLen := x.need }, ⟨inode, size - (o + x.need), name⟩] :=
    ⟨hrec, by change 0 < x.need; omega, recAt_setEntry hi (by omega) hn, by change 0 < size - (o + x.need); omega,
      by change o + x.need + (size - (o + x.need)) = o + x.recLen; omega⟩
  have hfits : ∀ y ∈ [{ x with recLen := x.need }, ⟨inode, size - (o + x.need), name⟩], y.Fits := by
    intro y hy
    simp only [mem_cons, not_mem_nil, or_false] at hy
    rcases hy with rfl | rfl
    · exact ⟨hneed, hneed'⟩
    · exact ⟨by change 4 ∣ size - (o + x.need); omega, by change 8 + name.length ≤ size - (o + x.need); omega⟩
  have hbefore := (hset.mono (Nat.zero_le _) (by omega)).trans (hc (p := 0) (n := o) (by omega))
  simpa using h.replace hfits hmid hbefore fun i h1 h2 => absurd h2 (by omega)

end ChiffOS.Ext2
