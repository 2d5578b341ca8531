import ChiffOS.Vfs.Tmpfs

/-! Files of `tmpfs.c` as byte arrays: what one block that is written or read does to them. -/

namespace ChiffOS.Vfs

/-- A file as a byte array; `blocks` is how many blocks it has. -/
structure TmpData where
  length : ℕ
  bytes : Buf
  blocks : ℕ

/-- The files, and how many free frames can still be marked. -/
structure TmpState where
  file : ℕ → Option TmpData
  avail : ℕ

namespace TmpState

def put (a : TmpState) (f : ℕ) (d : TmpData) (o : ℕ) (src : Buf) (n blocks : ℕ) : TmpState :=
  ⟨Function.update a.file f (some ⟨max d.length (o + n), d.bytes.blit o src n, max d.blocks blocks⟩),
    a.avail - (blocks - d.blocks)⟩

theorem put_put (a : TmpState) (f : ℕ) (d : TmpData) (o : ℕ) (src : Buf) (m n : ℕ) {B B' : ℕ} (hB : B ≤ B') :
    (a.put f d o src m B).put f ⟨max d.length (o + m), d.bytes.blit o src m, max d.blocks B⟩ (o + m)
      (src.drop m) n B' =
      a.put f d o src (m + n) B' := by
  simp only [put, Function.update_idem, Buf.blit_append, TmpState.mk.injEq]
  refine ⟨?_, by omega⟩
  rw [show max (max d.length (o + m)) (o + m + n) = max d.length (o + (m + n)) by omega,
    show max (max d.blocks B) B' = max d.blocks B' by omega]

theorem put_nothing {a : TmpState} {f : ℕ} {d : TmpData} (hd : a.file f = some d) {o : ℕ} (src : Buf) {B : ℕ}
    (ho : o ≤ d.length)
    (hB : B ≤ d.blocks) : a.put f d o src 0 B = a := by
  have hd' : (⟨max d.length (o + 0), d.bytes, max d.blocks B⟩ : TmpData) = d := by
    rw [Nat.add_zero, max_eq_left ho, max_eq_left hB]
  rw [put, Buf.blit_nothing, hd', ← hd, Function.update_eq_self, Nat.sub_eq_zero_of_le hB, Nat.sub_zero]

/-- A file with `k` more blocks, whose contents are not known. -/
def grow (a : TmpState) (f : ℕ) (d : TmpData) (k : ℕ) : TmpState :=
  ⟨Function.update a.file f (some { d with blocks := d.blocks + k }), a.avail - k⟩

end TmpState

namespace TmpStore

open TmpfsFile Option

/-- The file holds the bytes. `length` is how many of its bytes are known, not its own length. -/
structure Stored (s : TmpStore) (t : TmpfsFile) (d : TmpData) : Prop where
  blocks : t.blockCount = d.blocks
  room : d.length ≤ blockSize * d.blocks
  pointers : 2 ≤ t.pointers
  used : ∀ i < d.blocks, s.map.Used (t.blocks i) ∧ t.blocks i < 2 ^ 20
  data : ∀ i < d.length, s.frame (t.blocks (i / blockSize)) (i % blockSize) = d.bytes i

/-- All files hold their bytes, in frames of their own. -/
structure Holds (s : TmpStore) (a : TmpState) : Prop where
  absent : ∀ f, a.file f = none → s.file f = none
  stored : ∀ f d, a.file f = some d → ∃ t, s.file f = some t ∧ s.Stored t d
  apart : ∀ f g t u i j, s.file f = some t → s.file g = some u → i < t.blockCount → j < u.blockCount →
    t.blocks i = u.blocks j → f = g ∧ i = j
  avail : s.map.markable.length = a.avail

/-- Other files, and the frames of other files, are as before. -/
structure Others (f : ℕ) (s s' : TmpStore) : Prop where
  file : ∀ g, g ≠ f → s'.file g = s.file g
  frame : ∀ g u, g ≠ f → s.file g = some u → ∀ i < u.blockCount, s'.frame (u.blocks i) = s.frame (u.blocks i)

theorem Others.refl (f : ℕ) (s : TmpStore) : Others f s s := ⟨fun _ _ => rfl, fun _ _ _ _ _ _ => rfl⟩

theorem Others.trans {f : ℕ} {s s' s'' : TmpStore} (h : Others f s s') (h' : Others f s' s'') :
    Others f s s'' := by
  refine ⟨?_, ?_⟩
  · intro g hg
    rw [h'.file g hg, h.file g hg]
  · intro g u hg hu i hi
    rw [h'.frame g u hg ((h.file g hg).trans hu) i hi, h.frame g u hg hu i hi]

variable {s s' : TmpStore} {a : TmpState} {f b : ℕ} {t : TmpfsFile} {d : TmpData}

/-! ### Blocks -/

theorem embiggenTo_some (k : ℕ) (t : TmpfsFile) (h : b < t.pointers * 2 ^ k) :
    ∃ p, t.pointers ≤ p ∧ embiggenTo b (k + 1) t = some { t with pointers := p } := by
  induction k generalizing t with
  | zero =>
    refine ⟨t.pointers, le_rfl, ?_⟩
    rw [embiggenTo, if_neg (by omega)]
  | succ k ih =>
    by_cases hp : t.pointers ≤ b
    · have h' : b < t.blocksEmbiggen.pointers * 2 ^ k := by
        rw [blocksEmbiggen, Nat.mul_assoc, ← Nat.pow_succ']
        exact h
      obtain ⟨p, hp', he⟩ := ih t.blocksEmbiggen h'
      refine ⟨p, ?_, ?_⟩
      · rw [blocksEmbiggen] at hp'
        simp only at hp'
        omega
      · rw [embiggenTo, if_pos hp, he]
        rfl
    · refine ⟨t.pointers, le_rfl, ?_⟩
      rw [embiggenTo, if_neg hp]

theorem Holds.of_file (h : Holds s a) (ht : s.file f = some t) : ∃ d, a.file f = some d ∧ s.Stored t d := by
  cases hd : a.file f with
  | none =>
    rw [h.absent f hd] at ht
    cases ht
  | some d =>
    obtain ⟨t', ht', hst⟩ := h.stored f d hd
    rw [ht] at ht'
    obtain rfl := some.inj ht'
    exact ⟨d, rfl, hst⟩

theorem Holds.stored_of (h : Holds s a) (ht : s.file f = some t) (hd : a.file f = some d) : s.Stored t d := by
  obtain ⟨d', hd', hst⟩ := h.of_file ht
  rw [hd] at hd'
  obtain rfl := some.inj hd'
  exact hst

theorem Stored.block_lt (h : s.Stored t d) {i : ℕ} (hi : i < d.length) : i / blockSize < d.blocks := by
  have := h.room
  rw [Nat.div_lt_iff_lt_mul (by decide), Nat.mul_comm]
  omega

theorem Holds.update (h : Holds s a) {a' : TmpState} {t' : TmpfsFile} {d' : TmpData}
    (hfile : s'.file = Function.update s.file f (some t')) (hdata : a'.file =
      Function.update a.file f (some d'))
    (hst : s'.Stored t' d') (hother : ∀ g u e, g ≠ f → s.file g = some u → s.Stored u e → s'.Stored u e)
    (hself : ∀ i < t'.blockCount, ∀ j < t'.blockCount, t'.blocks i = t'.blocks j → i = j)
    (hapart : ∀ g u, g ≠ f → s.file g = some u → ∀ i < t'.blockCount, ∀ j < u.blockCount,
      t'.blocks i ≠ u.blocks j)
    (hav : s'.map.markable.length = a'.avail) : Holds s' a' := by
  have hf : s'.file f = some t' := by rw [hfile, Function.update_self]
  have hg : ∀ g, g ≠ f → s'.file g = s.file g := fun g hgf => by rw [hfile, Function.update_of_ne hgf]
  refine ⟨?_, ?_, ?_, hav⟩
  · intro g hnone
    rw [hdata] at hnone
    by_cases hgf : g = f
    · rw [hgf, Function.update_self] at hnone
      cases hnone
    · rw [Function.update_of_ne hgf] at hnone
      rw [hg g hgf, h.absent g hnone]
  · intro g e he
    rw [hdata] at he
    by_cases hgf : g = f
    · rw [hgf, Function.update_self] at he
      obtain rfl := some.inj he
      exact ⟨t', hgf ▸ hf, hst⟩
    · rw [Function.update_of_ne hgf] at he
      obtain ⟨u, hu, hst'⟩ := h.stored g e he
      exact ⟨u, (hg g hgf).trans hu, hother g u e hgf hu hst'⟩
  · intro g g' u u' i j hu hu' hi hj he
    by_cases hgf : g = f
    · subst hgf
      obtain rfl := some.inj (hf.symm.trans hu)
      by_cases hgf' : g' = g
      · subst hgf'
        obtain rfl := some.inj (hf.symm.trans hu')
        exact ⟨rfl, hself i hi j hj he⟩
      · exact absurd he (hapart g' u' hgf' ((hg g' hgf').symm.trans hu') i hi j hj)
    · rw [hg g hgf] at hu
      by_cases hgf' : g' = f
      · subst hgf'
        obtain rfl := some.inj (hf.symm.trans hu')
        exact absurd he.symm (hapart g u hgf hu j hj i hi)
      · rw [hg g' hgf'] at hu'
        exact h.apart g g' u u' i j hu hu' hi hj he

/-- The length and the room of the table play no part. -/
theorem Holds.retable (h : Holds s a) {t' : TmpfsFile} (ht : s.file f = some t)
    (hcount : t'.blockCount = t.blockCount)
    (hblocks : t'.blocks = t.blocks) (hp : 2 ≤ t'.pointers) :
    Holds { s with file := Function.update s.file f (some t') } a := by
  obtain ⟨d, hd, hst⟩ := h.of_file ht
  refine h.update rfl (by rw [← hd, Function.update_eq_self]) ⟨hcount.trans hst.blocks, hst.room, hp, ?_, ?_⟩
    ?_ ?_ ?_ h.avail
  · rw [hblocks]
    exact hst.used
  · rw [hblocks]
    exact hst.data
  · intro g u e _ _ hst'
    exact ⟨hst'.blocks, hst'.room, hst'.pointers, hst'.used, hst'.data⟩
  · rw [hcount, hblocks]
    intro i hi j hj he
    exact (h.apart f f t t i j ht ht hi hj he).2
  · rw [hcount, hblocks]
    intro g u hg hu i hi j hj he
    exact hg (h.apart f g t u i j ht hu hi hj he).1.symm

theorem Holds.alloc (h : Holds s a) (ht : s.file f = some t) (hd : a.file f = some d) (hav : 0 < a.avail) :
    Holds { s with
      map := s.map.setFrame (s.map.firstFrame * 0x1000 % 2 ^ 32)
      file := Function.update s.file f
        (some { t with blocks := Function.update t.blocks t.blockCount s.map.firstFrame, blockCount :=
          t.blockCount + 1 }) }
      (a.grow f d 1) := by
  have hst := h.stored_of ht hd
  have hcount := hst.blocks
  obtain ⟨hfree, hbound, hlen⟩ := Mem.Frames.firstFrame_markable (m := s.map) (by rw [h.avail]; exact hav)
  generalize s.map.firstFrame = x at hfree hbound hlen
  have haddr : x * 0x1000 % 2 ^ 32 = x * 0x1000 := Nat.mod_eq_of_lt (by omega)
  rw [haddr] at hlen ⊢
  have hused : ∀ g, (s.map.setFrame (x * 0x1000)).Used g ↔ s.map.Used g ∨ g = x := fun g =>
    Mem.Frames.used_setFrame hbound
  have hold : ∀ i < t.blockCount, Function.update t.blocks t.blockCount x i = t.blocks i :=
    fun i hi => Function.update_of_ne (Nat.ne_of_lt hi) _ _
  -- the frame belongs to no file
  have hnew : ∀ g u, s.file g = some u → ∀ i < u.blockCount, u.blocks i ≠ x := by
    intro g u hu i hi he
    obtain ⟨e, -, hst'⟩ := h.of_file hu
    rw [hst'.blocks] at hi
    exact hfree.2 (he ▸ (hst'.used i hi).1)
  have hcase : ∀ i, i < t.blockCount + 1 → i = t.blockCount ∨ i < t.blockCount := fun i hi => by omega
  refine h.update rfl rfl ⟨congrArg (· + 1) hst.blocks, ?_, hst.pointers, ?_, ?_⟩ ?_ ?_ ?_ ?_
  · have := hst.room
    simp only [Nat.mul_add]
    omega
  · intro i hi
    rcases hcase i (hcount ▸ hi) with rfl | hi
    · simp only [Function.update_self]
      exact ⟨(hused x).mpr (.inr rfl), by omega⟩
    · simp only [hold i hi]
      obtain ⟨h1, h2⟩ := hst.used i (hcount ▸ hi)
      exact ⟨(hused _).mpr (.inl h1), h2⟩
  · intro i hi
    have hib := hst.block_lt hi
    rw [← hcount] at hib
    simp only [hold _ hib]
    exact hst.data i hi
  · intro g u e _ _ hst'
    refine ⟨hst'.blocks, hst'.room, hst'.pointers, ?_, hst'.data⟩
    intro i hi
    exact ⟨(hused _).mpr (.inl (hst'.used i hi).1), (hst'.used i hi).2⟩
  · intro i hi j hj he
    rcases hcase i hi with rfl | hi
    · rcases hcase j hj with rfl | hj
      · rfl
      · simp only [Function.update_self, hold j hj] at he
        exact absurd he.symm (hnew f t ht j hj)
    · rcases hcase j hj with rfl | hj
      · simp only [Function.update_self, hold i hi] at he
        exact absurd he (hnew f t ht i hi)
      · simp only [hold i hi, hold j hj] at he
        exact (h.apart f f t t i j ht ht hi hj he).2
  · intro g u hg hu i hi j hj he
    rcases hcase i hi with rfl | hi
    · simp only [Function.update_self] at he
      exact hnew g u hu j hj he.symm
    · simp only [hold i hi] at he
      exact hg (h.apart f g t u i j ht hu hi hj he).1.symm
  · have := h.avail
    simp only [TmpState.grow]
    omega

theorem Holds.allocBlocks (k : ℕ) (h : Holds s a) (ht : s.file f = some t) (hd : a.file f = some d)
    (hk : k ≤ a.avail) :
    ∃ m t', TmpfsFile.allocBlocks k s.map t = (m, t') ∧ t'.length = t.length ∧ t'.blockCount =
      t.blockCount + k ∧
      Holds { s with map := m, file := Function.update s.file f (some t') } (a.grow f d k) := by
  induction k generalizing s a t d with
  | zero =>
    refine ⟨s.map, t, rfl, rfl, rfl, ?_⟩
    rw [← ht, Function.update_eq_self, TmpState.grow, Nat.sub_zero, Nat.add_zero, ← hd,
      Function.update_eq_self]
    exact h
  | succ k ih =>
    have h1 := h.alloc ht hd (by omega)
    have hk1 : k ≤ (a.grow f d 1).avail := Nat.le_sub_of_add_le hk
    obtain ⟨m, t', hm, hlen, hcount, hh⟩ := ih h1 (Function.update_self f _ _) (Function.update_self f _ _)
      hk1
    refine ⟨m, t', hm, hlen, by rw [hcount]; simp only; omega, ?_⟩
    rw [Function.update_idem] at hh
    have hgrow : (a.grow f d 1).grow f { d with blocks := d.blocks + 1 } k = a.grow f d (k + 1) := by
      simp only [TmpState.grow, Function.update_idem, TmpState.mk.injEq]
      refine ⟨?_, by omega⟩
      rw [Nat.add_assoc, Nat.add_comm 1 k]
    rwa [hgrow] at hh

theorem Holds.getsetBlock (h : Holds s a) (ht : s.file f = some t) (hd : a.file f = some d) (hb : b < 2 ^ 20)
    (hav : b + 1 - d.blocks ≤ a.avail) :
    ∃ m t', s.getsetBlock f b true =
        some { s with map := m, file := Function.update s.file f (some t'), window := t'.blocks b } ∧
      t'.length = t.length ∧ t'.blockCount = max d.blocks (b + 1) ∧
      Holds { s with map := m, file := Function.update s.file f (some t') }
        (a.grow f d (b + 1 - d.blocks)) := by
  have hst := h.stored_of ht hd
  obtain ⟨p, hp, hem⟩ := embiggenTo_some (b := b) 31 t (by have := hst.pointers; omega)
  have h1 : Holds { s with file := Function.update s.file f (some { t with pointers := p }) } a :=
    h.retable ht rfl rfl (hst.pointers.trans hp)
  obtain ⟨m, t', hm, hlen, hcount, hh⟩ := h1.allocBlocks (b + 1 - d.blocks) (Function.update_self f _ _) hd
    hav
  rw [Function.update_idem] at hh
  have hcount' : t'.blockCount = max d.blocks (b + 1) := by
    have := hst.blocks
    simp only at hcount
    omega
  have hwin : t'.blocks b % 2 ^ 20 = t'.blocks b := by
    obtain ⟨e, -, hst'⟩ := hh.of_file (Function.update_self f _ _)
    exact Nat.mod_eq_of_lt (hst'.used b (by rw [← hst'.blocks]; omega)).2
  refine ⟨m, t', ?_, hlen, hcount', hh⟩
  have hm' : TmpfsFile.allocBlocks (b + 1 - t.blockCount) s.map { t with pointers := p } = (m, t') := by
    rw [← hst.blocks] at hm
    exact hm
  rw [TmpStore.getsetBlock, ht]
  simp only [bind_eq_bind, bind_some, if_true, hem, hm', pure_def, hwin]

theorem Holds.memcpyIn (h : Holds s a) (ht : s.file f = some t) (hd : a.file f = some d) (hb : b < d.blocks)
    (hwin : s.window = t.blocks b) {o n : ℕ} (hfit : o + n ≤ blockSize) (hgap : b * blockSize + o ≤ d.length)
      (src : Buf) :
    ∃ s', s.memcpyIn o src n = some s' ∧ s'.file = s.file ∧ Others f s s' ∧
      Holds s' ⟨Function.update a.file f
        (some ⟨max d.length (b * blockSize + o + n), d.bytes.blit (b * blockSize + o) src n, d.blocks⟩),
          a.avail⟩ := by
  have hst := h.stored_of ht hd
  have hbt : b < t.blockCount := by rw [hst.blocks]; exact hb
  have hother : ∀ g u, g ≠ f → s.file g = some u → ∀ i < u.blockCount, u.blocks i ≠ s.window := by
    intro g u hg hu i hi he
    rw [hwin] at he
    exact hg (h.apart g f u t i b hu ht hi hbt he).1
  refine ⟨_, if_pos hfit, rfl, ⟨fun _ _ => rfl, ?_⟩, ?_⟩
  · intro g u hg hu i hi
    exact Function.update_of_ne (hother g u hg hu i hi) _ _
  · refine h.update (by rw [← ht, Function.update_eq_self]) rfl ⟨hst.blocks, ?_, hst.pointers, hst.used, ?_⟩
      ?_ ?_ ?_ h.avail
    · have hroom := hst.room
      have hmul : (b + 1) * blockSize ≤ d.blocks * blockSize := Nat.mul_le_mul_right _ hb
      rw [Nat.add_mul, Nat.one_mul] at hmul
      rw [Nat.mul_comm blockSize] at hroom ⊢
      simp only
      omega
    · intro i hi
      have hdiv := Nat.div_add_mod i blockSize
      have hmod := Nat.mod_lt i (show 0 < blockSize by decide)
      by_cases hib : i / blockSize = b
      · -- in the block
        rw [hib, Nat.mul_comm] at hdiv
        simp only [hib, ← hwin, Function.update_self]
        by_cases hin : o ≤ i % blockSize ∧ i % blockSize < o + n
        · rw [Buf.blit_in hin.1 hin.2, Buf.blit_in (by omega) (by omega)]
          congr 1
          omega
        · have hknown : i < d.length := by
            simp only at hi
            omega
          rw [Buf.blit_out (by omega), Buf.blit_out (by omega), hwin, ← hib]
          exact hst.data i hknown
      · have hout : i < b * blockSize + o ∨ b * blockSize + o + n ≤ i := by
          by_contra hin
          apply hib
          rw [Nat.div_eq_iff (by decide)]
          omega
        have hknown : i < d.length := by
          simp only at hi
          omega
        have hblock := hst.block_lt hknown
        have hne : t.blocks (i / blockSize) ≠ s.window := by
          rw [hwin]
          intro he
          exact hib (h.apart f f t t _ b ht ht (by rw [hst.blocks]; exact hblock) hbt he).2
        simp only [Function.update_of_ne hne]
        rw [Buf.blit_out hout]
        exact hst.data i hknown
    · intro g u e hg hu hst'
      refine ⟨hst'.blocks, hst'.room, hst'.pointers, hst'.used, ?_⟩
      intro i hi
      have hib := hst'.block_lt hi
      rw [← hst'.blocks] at hib
      simp only [Function.update_of_ne (hother g u hg hu _ hib)]
      exact hst'.data i hi
    · intro i hi j hj he
      exact (h.apart f f t t i j ht ht hi hj he).2
    · intro g u hg hu i hi j hj he
      exact hg (h.apart f g t u i j ht hu hi hj he).1.symm

theorem Holds.congr (h : Holds s a) (hmap : s'.map = s.map) (hframe : s'.frame = s.frame)
    (hfile : s'.file = s.file) : Holds s' a := by
  refine ⟨?_, ?_, ?_, ?_⟩
  · rw [hfile]
    exact h.absent
  · intro f d hd
    obtain ⟨t, ht, hst⟩ := h.stored f d hd
    refine ⟨t, by rw [hfile, ht], hst.blocks, hst.room, hst.pointers, ?_, ?_⟩
    · rw [hmap]
      exact hst.used
    · rw [hframe]
      exact hst.data
  · rw [hfile]
    exact h.apart
  · rw [hmap, h.avail]

theorem Holds.putBlock (h : Holds s a) (ht : s.file f = some t) (hd : a.file f = some d) (hb : b < 2 ^ 20)
    (hav : b + 1 - d.blocks ≤ a.avail) {o n : ℕ} (hfit : o + n ≤ blockSize)
    (hgap : b * blockSize + o ≤ d.length) (src : Buf) :
    ∃ s' t', s.putBlock f b o src n = some s' ∧ s'.file = Function.update s.file f (some t') ∧ t'.length =
      t.length ∧
      Others f s s' ∧ Holds s' (a.put f d (b * blockSize + o) src n (b + 1)) := by
  obtain ⟨m, t', hget, hlen, hcount, hh⟩ := h.getsetBlock ht hd hb hav
  set s₁ : TmpStore := ⟨m, s.frame, t'.blocks b, Function.update s.file f (some t')⟩ with hs₁
  have h1 : Holds s₁ (a.grow f d (b + 1 - d.blocks)) := hh.congr rfl rfl rfl
  have ht1 : s₁.file f = some t' := Function.update_self ..
  have hd1 : (a.grow f d (b + 1 - d.blocks)).file f =
    some { d with blocks := d.blocks + (b + 1 - d.blocks) } :=
    Function.update_self ..
  obtain ⟨s', hcopy, hfile, hoth, hput⟩ := h1.memcpyIn ht1 hd1 (b := b) (by simp only; omega) rfl hfit hgap
    src
  refine ⟨s', t', ?_, hfile, hlen, ?_, ?_⟩
  · rw [TmpStore.putBlock, hget]
    exact hcopy
  · have hoth₁ : Others f s s₁ := ⟨fun g hg => Function.update_of_ne hg _ _, fun _ _ _ _ _ _ => rfl⟩
    exact hoth₁.trans hoth
  · have hmax : d.blocks + (b + 1 - d.blocks) = max d.blocks (b + 1) := by omega
    rw [TmpState.grow, Function.update_idem, hmax] at hput
    exact hput

/-! ### Ranges -/

/-- Where a round of the loops is in the block and in the buffer: `done` bytes came before. -/
structure Round (offset i o n done : ℕ) : Prop where
  pos : 0 < n
  fit : o + n ≤ blockSize
  place : (offset / blockSize + i) * blockSize + o = offset + done
  before : done = (offset / blockSize + i) * blockSize - offset
  after : done + n = (offset / blockSize + (i + 1)) * blockSize - offset

theorem round_first (offset : ℕ) : Round offset 0 (offset % blockSize)
    (blockSize - offset % blockSize) 0 := by
  have hmod := Nat.mod_add_div' offset blockSize
  have hlt := Nat.mod_lt offset (show 0 < blockSize by decide)
  constructor
  · omega
  · omega
  · rw [Nat.add_zero]
    omega
  · rw [Nat.add_zero]
    omega
  · rw [Nat.add_mul, Nat.add_mul]
    omega

theorem mod_le_mul (offset : ℕ) {k : ℕ} (hk : k ≠ 0) : ¬ blockSize * k < offset % blockSize := by
  have hle : blockSize ≤ blockSize * k := Nat.le_mul_of_pos_right _ (Nat.pos_of_ne_zero hk)
  have hlt := Nat.mod_lt offset (show 0 < blockSize by decide)
  omega

theorem round_next (offset : ℕ) {i : ℕ} (hi : i ≠ 0) : Round offset i 0 blockSize
    (blockSize * i - offset % blockSize) := by
  have hmod := Nat.mod_add_div' offset blockSize
  have hlt := Nat.mod_lt offset (show 0 < blockSize by decide)
  have hle : blockSize ≤ blockSize * i := Nat.le_mul_of_pos_right _ (Nat.pos_of_ne_zero hi)
  constructor
  · decide
  · omega
  · rw [Nat.add_mul, Nat.mul_comm i]
    omega
  · rw [Nat.add_mul, Nat.mul_comm i]
    omega
  · rw [Nat.add_mul, Nat.add_mul, Nat.mul_comm i]
    omega

/-! ### Writing -/

theorem writeRound_eq (f offset : ℕ) (buffer : Buf) (i : ℕ) : ∃ o n done, Round offset i o n done ∧
    ∀ s, writeRound f offset buffer s i = s.putBlock f (offset / blockSize + i) o (buffer.drop done) n := by
  by_cases hi : i = 0
  · subst hi
    refine ⟨_, _, 0, round_first offset, fun s => ?_⟩
    rw [writeRound, if_pos rfl, Buf.drop_zero]
  · refine ⟨_, _, _, round_next offset hi, fun s => ?_⟩
    rw [writeRound, if_neg hi]

theorem Holds.writeRounds (k : ℕ) {offset : ℕ} (h : Holds s a) (ht : s.file f = some t)
    (hd : a.file f = some d)
    (hoff : offset ≤ d.length) (hk : offset / blockSize + k ≤ 2 ^ 20)
    (hav : offset / blockSize + k - d.blocks ≤ a.avail)
    (buffer : Buf) :
    ∃ s' t', (List.range k).foldlM (writeRound f offset buffer) s = some s' ∧ s'.file =
      Function.update s.file f (some t') ∧
      t'.length = t.length ∧ Others f s s' ∧
      Holds s' (a.put f d offset buffer ((offset / blockSize + k) * blockSize - offset)
        (offset / blockSize + k)) := by
  induction k with
  | zero =>
    have hst := h.stored_of ht hd
    have hstart : offset / blockSize ≤ d.blocks := by
      have := hst.room
      exact Nat.div_le_of_le_mul (by omega)
    refine ⟨s, t, rfl, by rw [← ht, Function.update_eq_self], rfl, Others.refl f s, ?_⟩
    rw [Nat.add_zero, Nat.sub_eq_zero_of_le (Nat.div_mul_le_self _ _),
      TmpState.put_nothing hd buffer hoff hstart]
    exact h
  | succ k ih =>
    obtain ⟨s₁, t₁, hs₁, hfile₁, hlen₁, hoth₁, hh₁⟩ := ih (by omega) (by omega)
    obtain ⟨o, n, done, hr, hround⟩ := writeRound_eq f offset buffer k
    rw [← hr.before] at hh₁
    have ht₁ : s₁.file f = some t₁ := by rw [hfile₁, Function.update_self]
    have hav₁ : offset / blockSize + k + 1 - max d.blocks (offset / blockSize + k) ≤
        a.avail - (offset / blockSize + k - d.blocks) := by omega
    have hgap₁ : (offset / blockSize + k) * blockSize + o ≤ max d.length (offset + done) := by
      rw [hr.place]
      exact le_max_right _ _
    obtain ⟨s₂, t₂, hs₂, hfile₂, hlen₂, hoth₂, hh₂⟩ :=
      hh₁.putBlock ht₁ (Function.update_self f _ _) (by omega) hav₁ hr.fit hgap₁ (buffer.drop done)
    refine ⟨s₂, t₂, ?_, ?_, hlen₂.trans hlen₁, hoth₁.trans hoth₂, ?_⟩
    · rw [List.range_succ, List.foldlM_append, hs₁]
      simp only [bind_eq_bind, bind_some, List.foldlM_cons, List.foldlM_nil, hround, hs₂, pure_def]
    · rw [hfile₂, hfile₁, Function.update_idem]
    · rw [hr.place, TmpState.put_put _ _ _ _ _ _ _ (by omega), hr.after] at hh₂
      exact hh₂

def writeBlocks (offset size : ℕ) : ℕ :=
  if offset / blockSize = (offset + size) / blockSize then offset / blockSize + 1
  else if (offset + size) % blockSize = 0 then (offset + size) / blockSize
  else (offset + size) / blockSize + 1

theorem Holds.writeTmpfs {offset size : ℕ} (h : Holds s a) (ht : s.file f = some t) (hd : a.file f = some d)
    (hlen : t.length = d.length) (hoff : offset ≤ d.length) (hsize : offset + size < 2 ^ 32)
    (hav : writeBlocks offset size - d.blocks ≤ a.avail) (buffer : Buf) :
    ∃ s' t', s.writeTmpfs f offset size buffer = some (size, s') ∧
      s'.file = Function.update s.file f (some t') ∧
      t'.length = max d.length (offset + size) ∧ Others f s s' ∧
      Holds s' (a.put f d offset buffer size (writeBlocks offset size)) := by
  have hfin : (offset + size) % 2 ^ 32 = offset + size := Nat.mod_eq_of_lt hsize
  have hcount : (offset + size + 2 ^ 32 - offset) % 2 ^ 32 = size := by omega
  have hmodo := Nat.mod_add_div' offset blockSize
  have hmode := Nat.mod_add_div' (offset + size) blockSize
  have hlte := Nat.mod_lt (offset + size) (show 0 < blockSize by decide)
  have hdiv : offset / blockSize ≤ (offset + size) / blockSize := Nat.div_le_div_right (by omega)
  have hend : (offset + size) / blockSize < 2 ^ 20 := Nat.div_lt_of_lt_mul hsize
  -- the length is set first
  obtain ⟨s₀, t₀, hs₀, hfile₀, hlen₀, hoth₀, hh₀⟩ : ∃ s₀ t₀,
      (if t.length < offset + size then
          { s with file := Function.update s.file f (some { t with length := offset + size }) }
        else s) = s₀ ∧ s₀.file = Function.update s.file f (some t₀) ∧ t₀.length = max d.length (offset + size) ∧
      Others f s s₀ ∧ Holds s₀ a := by
    by_cases hlt : t.length < offset + size
    · refine ⟨_, { t with length := offset + size }, if_pos hlt, rfl, by simp only; omega, ?_, ?_⟩
      · exact ⟨fun g hg => Function.update_of_ne hg _ _, fun _ _ _ _ _ _ => rfl⟩
      · exact h.retable ht rfl rfl (h.stored_of ht hd).pointers
    · exact ⟨s, t, if_neg hlt, by rw [← ht, Function.update_eq_self], by omega, Others.refl f s, h⟩
  have ht₀ : s₀.file f = some t₀ := by rw [hfile₀, Function.update_self]
  by_cases hsame : offset / blockSize = (offset + size) / blockSize
  · have hblocks : writeBlocks offset size = offset / blockSize + 1 := if_pos hsame
    have hplace : offset / blockSize * blockSize + offset % blockSize = offset := by omega
    rw [← hsame] at hmode
    obtain ⟨s₁, t₁, hs₁, hfile₁, hlen₁, hoth₁, hh₁⟩ := hh₀.putBlock ht₀ hd (b := offset / blockSize) (o := offset % blockSize)
      (n := size) (by omega) (by omega) (by omega) (by omega) buffer
    refine ⟨s₁, t₁, ?_, ?_, hlen₁.trans hlen₀, hoth₀.trans hoth₁, ?_⟩
    · rw [TmpStore.writeTmpfs, ht]
      simp only [bind_eq_bind, bind_some, hfin, hs₀, if_pos hsame, hcount, hs₁, pure_def]
    · rw [hfile₁, hfile₀, Function.update_idem]
    · rwa [hplace, ← hblocks] at hh₁
  · obtain ⟨k, hk⟩ := Nat.exists_eq_add_of_le hdiv
    have hk0 : k ≠ 0 := by omega
    have hsub : (offset + size) / blockSize - offset / blockSize = k := by omega
    have hr := round_next offset hk0
    have hblocks : (offset + size) / blockSize ≤ writeBlocks offset size := by
      rw [writeBlocks, if_neg hsame]
      split <;> omega
    obtain ⟨s₁, t₁, hs₁, hfile₁, hlen₁, hoth₁, hh₁⟩ := hh₀.writeRounds k ht₀ hd hoff (by omega) (by omega) buffer
    have ht₁ : s₁.file f = some t₁ := by rw [hfile₁, Function.update_self]
    have hendSize : offset + size - (offset + size) / blockSize * blockSize = (offset + size) % blockSize := by omega
    by_cases hzero : (offset + size) % blockSize = 0
    · refine ⟨s₁, t₁, ?_, ?_, hlen₁.trans hlen₀, hoth₀.trans hoth₁, ?_⟩
      · rw [TmpStore.writeTmpfs, ht]
        simp only [bind_eq_bind, bind_some, hfin, hs₀, if_neg hsame, hsub, hs₁, hendSize, if_pos hzero, hcount,
          pure_def]
      · rw [hfile₁, hfile₀, Function.update_idem]
      · rw [← hk, show (offset + size) / blockSize * blockSize - offset = size by omega] at hh₁
        rwa [writeBlocks, if_neg hsame, if_pos hzero]
    · have hlast : writeBlocks offset size = (offset + size) / blockSize + 1 := by
        rw [writeBlocks, if_neg hsame, if_neg hzero]
      have hplace := hr.place
      rw [← hr.before] at hh₁
      rw [← hk] at hh₁ hplace
      have hav₁ : (offset + size) / blockSize + 1 - max d.blocks ((offset + size) / blockSize) ≤
          a.avail - ((offset + size) / blockSize - d.blocks) := by omega
      have hgap₁ : (offset + size) / blockSize * blockSize + 0 ≤ max d.length (offset + (blockSize * k - offset % blockSize)) := by
        rw [hplace]
        exact le_max_right _ _
      obtain ⟨s₂, t₂, hs₂, hfile₂, hlen₂, hoth₂, hh₂⟩ := hh₁.putBlock ht₁ (Function.update_self f _ _) hend hav₁
        (n := (offset + size) % blockSize) (by omega) hgap₁ (buffer.drop (blockSize * k - offset % blockSize))
      refine ⟨s₂, t₂, ?_, ?_, hlen₂.trans (hlen₁.trans hlen₀), (hoth₀.trans hoth₁).trans hoth₂, ?_⟩
      · rw [TmpStore.writeTmpfs, ht]
        simp only [bind_eq_bind, bind_some, hfin, hs₀, if_neg hsame, hsub, hs₁, hendSize, if_neg hzero,
          if_neg (mod_le_mul offset hk0), hs₂, hcount, pure_def]
      · rw [hfile₂, hfile₁, hfile₀, Function.update_idem, Function.update_idem]
      · rw [hplace, TmpState.put_put _ _ _ _ _ _ _ (by omega), ← hlast] at hh₂
        rwa [show blockSize * k - offset % blockSize + (offset + size) % blockSize = size by omega] at hh₂

/-! ### Reading -/

theorem Holds.takeBlock (h : Holds s a) (ht : s.file f = some t) (hd : a.file f = some d) {o n : ℕ}
    (hn : 0 < n)
    (hfit : o + n ≤ blockSize) (hin : b * blockSize + o + n ≤ d.length) (dst : Buf) (x : ℕ) :
    ∃ w, s.getsetBlock f b false = some { s with window := w } ∧
      memcpyOut { s with window := w } dst x o n =
        some (dst.blit x (d.bytes.drop (b * blockSize + o)) n) := by
  have hst := h.stored_of ht hd
  have hblock : ∀ j < n, (b * blockSize + o + j) / blockSize = b ∧ (b * blockSize + o + j) % blockSize =
    o + j := by
    intro j hj
    have hlt : o + j < blockSize := by omega
    rw [Nat.add_assoc, Nat.mul_comm, Nat.mul_add_div (by decide), Nat.mul_add_mod, Nat.div_eq_of_lt hlt,
      Nat.mod_eq_of_lt hlt]
    exact ⟨rfl, rfl⟩
  have hb : b < d.blocks := by
    have := hst.block_lt (i := b * blockSize + o + 0) (by omega)
    rwa [(hblock 0 hn).1] at this
  have hbt : ¬ t.blockCount ≤ b := by
    rw [hst.blocks]
    omega
  refine ⟨t.blocks b, ?_, ?_⟩
  · rw [TmpStore.getsetBlock, ht]
    simp only [bind_eq_bind, bind_some, Bool.false_eq_true, if_false, if_neg hbt,
      Nat.mod_eq_of_lt (hst.used b hb).2, pure_def]
  · rw [memcpyOut, if_pos hfit]
    refine congrArg some (Buf.blit_congr ?_)
    intro j hj
    have hdata := hst.data (b * blockSize + o + j) (by omega)
    rwa [(hblock j hj).1, (hblock j hj).2] at hdata

theorem readRound_eq (f offset i : ℕ) : ∃ o n done, Round offset i o n done ∧
    ∀ s buffer, readRound f offset (s, buffer) i = (s.getsetBlock f (offset / blockSize + i) false).bind
      fun s =>
      (s.memcpyOut buffer done o n).bind fun buffer => some (s, buffer) := by
  by_cases hi : i = 0
  · subst hi
    refine ⟨_, _, 0, round_first offset, fun s buffer => ?_⟩
    simp only [readRound, if_true, bind_eq_bind, pure_def]
  · refine ⟨_, _, _, round_next offset hi, fun s buffer => ?_⟩
    simp only [readRound, if_neg hi, bind_eq_bind, pure_def]

theorem Holds.readRounds (k : ℕ) {offset : ℕ} (h : Holds s a) (ht : s.file f = some t)
    (hd : a.file f = some d)
    (hk : (offset / blockSize + k) * blockSize ≤ d.length) (buffer : Buf) :
    ∃ w, (List.range k).foldlM (readRound f offset) (s, buffer) =
      some ({ s with window := w },
        buffer.blit 0 (d.bytes.drop offset) ((offset / blockSize + k) * blockSize - offset)) := by
  induction k with
  | zero =>
    refine ⟨s.window, ?_⟩
    rw [Nat.add_zero, Nat.sub_eq_zero_of_le (Nat.div_mul_le_self _ _), Buf.blit_nothing]
    rfl
  | succ k ih =>
    obtain ⟨o, n, done, hr, hround⟩ := readRound_eq f offset k
    have hafter := hr.after
    have hplace := hr.place
    have hend : offset + done + n ≤ d.length := by
      have := hr.pos
      omega
    obtain ⟨w, hw⟩ := ih (by rw [← Nat.add_assoc, Nat.add_mul] at hk; omega)
    have h₁ : Holds { s with window := w } a := h.congr rfl rfl rfl
    rw [← hr.before] at hw
    obtain ⟨w', hget, hcopy⟩ := h₁.takeBlock ht hd (b := offset / blockSize + k) hr.pos hr.fit
      (by rw [hplace]; exact hend)
      (buffer.blit 0 (d.bytes.drop offset) done) done
    refine ⟨w', ?_⟩
    rw [List.range_succ, List.foldlM_append, hw]
    simp only [bind_eq_bind, bind_some, List.foldlM_cons, List.foldlM_nil, hround, hget, hcopy, pure_def]
    rw [hplace, ← Buf.drop_drop, ← hafter, ← Buf.blit_append, Nat.zero_add]

theorem Holds.readTmpfs {offset size : ℕ} (h : Holds s a) (ht : s.file f = some t) (hd : a.file f = some d)
    (hlen : t.length = d.length) (hoff : offset ≤ d.length) (hsize : offset + size < 2 ^ 32) (buffer : Buf) :
    ∃ w, s.readTmpfs f offset size buffer = some (min d.length (offset + size) - offset,
      buffer.blit 0 (d.bytes.drop offset) (min d.length (offset + size) - offset),
        { s with window := w }) := by
  have hmod : (offset + size) % 2 ^ 32 = offset + size := Nat.mod_eq_of_lt hsize
  have hfin : (if t.length < offset + size then t.length else offset + size) =
    min d.length (offset + size) := by
    rw [hlen]
    split <;> omega
  have hcount : (min d.length (offset + size) + 2 ^ 32 - offset) % 2 ^ 32 =
    min d.length (offset + size) - offset := by omega
  have hle : min d.length (offset + size) ≤ d.length := min_le_left _ _
  have hge : offset ≤ min d.length (offset + size) := by omega
  rw [TmpStore.readTmpfs, ht]
  simp only [bind_eq_bind, bind_some, hmod, hfin, hcount]
  generalize min d.length (offset + size) = fin at hle hge
  have hmodo := Nat.mod_add_div' offset blockSize
  have hmode := Nat.mod_add_div' fin blockSize
  have hlte := Nat.mod_lt fin (show 0 < blockSize by decide)
  have hdiv : offset / blockSize ≤ fin / blockSize := Nat.div_le_div_right hge
  by_cases hempty : offset / blockSize = fin / blockSize ∧ offset = fin
  · rw [if_pos hempty, hempty.2, Nat.sub_self, Buf.blit_nothing]
    exact ⟨s.window, rfl⟩
  rw [if_neg hempty]
  by_cases hsame : offset / blockSize = fin / blockSize
  · have hplace : offset / blockSize * blockSize + offset % blockSize = offset := by omega
    rw [← hsame] at hmode
    obtain ⟨w, hget, hcopy⟩ := h.takeBlock ht hd (b := offset / blockSize) (o := offset % blockSize) (n :=
      fin - offset)
      (by omega) (by omega) (by omega) buffer 0
    rw [hplace] at hcopy
    refine ⟨w, ?_⟩
    simp only [if_pos hsame, hget, hcopy, bind_some, pure_def]
  · obtain ⟨k, hk⟩ := Nat.exists_eq_add_of_le hdiv
    have hk0 : k ≠ 0 := by omega
    have hsub : fin / blockSize - offset / blockSize = k := by omega
    have hr := round_next offset hk0
    obtain ⟨w, hw⟩ :=
      h.readRounds k ht hd (show (offset / blockSize + k) * blockSize ≤ d.length by rw [← hk]; omega) buffer
    have hendSize : fin - fin / blockSize * blockSize = fin % blockSize := by omega
    simp only [if_neg hsame, hsub, hw, bind_some, hendSize]
    have hplace := hr.place
    rw [← hr.before]
    rw [← hk] at hplace
    by_cases hzero : fin % blockSize = 0
    · rw [if_pos hzero, show fin - offset = blockSize * k - offset % blockSize by omega]
      exact ⟨w, rfl⟩
    · have h₁ : Holds { s with window := w } a := h.congr rfl rfl rfl
      obtain ⟨w', hget, hcopy⟩ := h₁.takeBlock ht hd (b := fin / blockSize) (o := 0) (n := fin % blockSize)
        (by omega) (by omega)
        (by omega) (buffer.blit 0 (d.bytes.drop offset) (blockSize * k - offset % blockSize))
          (blockSize * k - offset % blockSize)
      rw [if_neg hzero, if_neg (mod_le_mul offset hk0), hget, bind_some, hcopy]
      refine ⟨w', ?_⟩
      rw [hplace, ← Buf.drop_drop]
      have happend := Buf.blit_append buffer (d.bytes.drop offset) 0 (blockSize * k - offset % blockSize)
        (fin % blockSize)
      rw [Nat.zero_add] at happend
      rw [happend, show blockSize * k - offset % blockSize + fin % blockSize = fin - offset by omega]
      rfl

end TmpStore

end ChiffOS.Vfs
