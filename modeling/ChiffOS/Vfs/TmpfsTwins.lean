import ChiffOS.Lib.Twins
import ChiffOS.Vfs.TmpfsRuns

/-! What reads of `tmpfs.c` show of frames that were free. A new block is not cleared, so a write that
leaves a gap shows the old contents of its frame; while no write does, two runs that differ in free frames
alone give the same answers. -/

namespace ChiffOS.Vfs

namespace TmpStore

open TmpfsFile Twins Function

variable {s s' u : TmpStore} {f b : ℕ} {t : TmpfsFile}

/-! ### What a block that is shown does to the table -/

theorem embiggenTo_eq {k : ℕ} {t' : TmpfsFile} (h : embiggenTo b k t = some t') : ∃ p, t' =
    { t with pointers := p } := by
  induction k generalizing t with
  | zero => cases h
  | succ k ih =>
    rw [embiggenTo] at h
    by_cases hp : t.pointers ≤ b
    · rw [if_pos hp] at h
      obtain ⟨p, hp⟩ := ih h
      exact ⟨p, hp⟩
    · rw [if_neg hp] at h
      exact ⟨t.pointers, (Option.some.inj h).symm⟩

theorem allocBlocks_keeps (k : ℕ) (m : Mem.Frames) (t : TmpfsFile) :
    (allocBlocks k m t).2.length = t.length ∧ (allocBlocks k m t).2.blockCount = t.blockCount + k ∧
      ∀ i < t.blockCount, (allocBlocks k m t).2.blocks i = t.blocks i := by
  induction k generalizing m t with
  | zero => exact ⟨rfl, rfl, fun _ _ => rfl⟩
  | succ k ih =>
    obtain ⟨hlen, hcount, hblocks⟩ := ih (m.setFrame (m.firstFrame * 0x1000 % 2 ^ 32))
      { t with blocks := update t.blocks t.blockCount m.firstFrame, blockCount := t.blockCount + 1 }
    refine ⟨hlen, hcount.trans (by simp only; omega), ?_⟩
    intro i hi
    exact (hblocks i (by simp only; omega)).trans (update_of_ne (Nat.ne_of_lt hi) _ _)

structure Shown (f b : ℕ) (s u : TmpStore) (t t' : TmpfsFile) : Prop where
  before : s.file f = some t
  after : u.file = update s.file f (some t')
  frame : u.frame = s.frame
  window : u.window = t'.blocks b % 2 ^ 20
  length : t'.length = t.length
  count : t.blockCount ≤ t'.blockCount
  mem : b < t'.blockCount
  blocks : ∀ i < t.blockCount, t'.blocks i = t.blocks i

theorem getsetBlock_shown {create : Bool} (h : s.getsetBlock f b create = some u) : ∃ t t',
    Shown f b s u t t' := by
  rw [getsetBlock] at h
  obtain ⟨t, ht, h⟩ := Option.bind_eq_some_iff.mp h
  cases create with
  | true =>
    obtain ⟨t₁, ht₁, h⟩ := Option.bind_eq_some_iff.mp h
    obtain ⟨p, rfl⟩ := embiggenTo_eq ht₁
    obtain ⟨hlen, hcount, hblocks⟩ := allocBlocks_keeps (b + 1 - t.blockCount) s.map { t with pointers := p }
    obtain rfl := Option.some.inj h
    refine ⟨t, _, ht, rfl, rfl, rfl, hlen, ?_, ?_, hblocks⟩
    · rw [hcount]
      exact Nat.le_add_right _ _
    · rw [hcount]
      simp only
      omega
  | false =>
    by_cases hb : t.blockCount ≤ b
    · simp [hb] at h
    · simp only [Bool.false_eq_true, if_false, if_neg hb, Option.pure_def, Option.some.injEq] at h
      subst h
      refine ⟨t, t, ht, ?_, rfl, rfl, rfl, le_rfl, by omega, fun _ _ => rfl⟩
      rw [← ht, update_eq_self]

theorem getsetBlock_frame (s : TmpStore) (frame : ℕ → Buf) (f b : ℕ) (create : Bool) :
    getsetBlock { s with frame := frame } f b create = (s.getsetBlock f b create).map fun u =>
      { u with frame := frame } := by
  simp only [getsetBlock, Option.bind_eq_bind, Option.pure_def]
  cases s.file f with
  | none => rfl
  | some t =>
    cases create with
    | true =>
      simp only [Option.bind_some, if_true]
      cases embiggenTo b 32 t with
      | none => rfl
      | some t => rfl
    | false =>
      by_cases hb : t.blockCount ≤ b
      · simp [hb]
      · simp [hb]

/-! ### Two runs -/

/-- The states differ in the contents of frames only, and agree on the first `len f` bytes of every file
`f`; its length is `top f`. -/
structure Alike (len top : ℕ → ℕ) (s s' : TmpStore) : Prop where
  map : s'.map = s.map
  window : s'.window = s.window
  file : s'.file = s.file
  top : ∀ f t, s.file f = some t → t.length = top f
  room : ∀ f t, s.file f = some t → len f ≤ blockSize * t.blockCount
  known : ∀ f t, s.file f = some t → ∀ i < len f,
    s'.frame (t.blocks (i / blockSize) % 2 ^ 20) (i % blockSize) =
      s.frame (t.blocks (i / blockSize) % 2 ^ 20) (i % blockSize)

variable {len top : ℕ → ℕ}

theorem Alike.eq (h : Alike len top s s') : s' = { s with frame := s'.frame } := by
  obtain ⟨m, fr, w, fi⟩ := s'
  obtain ⟨rfl, rfl, rfl⟩ := (⟨h.map, h.window, h.file⟩ : m = s.map ∧ w = s.window ∧ fi = s.file)
  rfl

theorem Alike.getsetBlock (h : Alike len top s s') (f b : ℕ) (create : Bool) :
    Option.Rel (fun u u' => Alike len top u u' ∧ ∃ t t', Shown f b s u t t') (s.getsetBlock f b create)
      (s'.getsetBlock f b create) := by
  have hget := getsetBlock_frame s s'.frame f b create
  rw [← h.eq] at hget
  rw [hget]
  cases hu : s.getsetBlock f b create with
  | none => exact .none
  | some u =>
    obtain ⟨t, t', hs⟩ := getsetBlock_shown hu
    refine .some ⟨⟨rfl, rfl, rfl, ?_, ?_, ?_⟩, t, t', hs⟩
    all_goals
      intro g v hv
      rw [hs.after] at hv
      by_cases hg : g = f
    · rw [hg, update_self] at hv
      rw [← Option.some.inj hv, hs.length, hg]
      exact h.top f t hs.before
    · rw [update_of_ne hg] at hv
      exact h.top g v hv
    · rw [hg, update_self] at hv
      rw [← Option.some.inj hv, hg]
      exact (h.room f t hs.before).trans (Nat.mul_le_mul_left _ hs.count)
    · rw [update_of_ne hg] at hv
      exact h.room g v hv
    · rw [hg, update_self] at hv
      obtain rfl := Option.some.inj hv
      intro i hi
      rw [hg] at hi
      have hblock : i / blockSize < t.blockCount := by
        have := h.room f t hs.before
        rw [Nat.div_lt_iff_lt_mul (by decide), Nat.mul_comm]
        omega
      rw [hs.frame, hs.blocks _ hblock]
      exact h.known f t hs.before i hi
    · rw [update_of_ne hg] at hv
      rw [hs.frame]
      exact h.known g v hv

/-- Both runs write the same bytes to the same place. -/
theorem Alike.putBlock (h : Alike len top s s') {o : ℕ} (hgap : b * blockSize + o ≤ len f) (src : Buf)
    (n : ℕ) :
    Option.Rel (fun u u' => o + n ≤ blockSize ∧
        Alike (update len f (max (len f) (b * blockSize + o + n))) top u u')
      (s.putBlock f b o src n) (s'.putBlock f b o src n) := by
  refine rel_bind (h.getsetBlock f b true) ?_
  rintro u u' ⟨hu, t, t', hs⟩
  by_cases hfit : o + n ≤ blockSize
  · rw [memcpyIn, memcpyIn, if_pos hfit, if_pos hfit, hu.window]
    have ht : u.file f = some t' := by rw [hs.after, update_self]
    have hmul : (b + 1) * blockSize ≤ t'.blockCount * blockSize := Nat.mul_le_mul_right _ hs.mem
    rw [Nat.add_mul, Nat.one_mul] at hmul
    -- where the frames agree they still do, and now they do where the bytes went
    have hagree : ∀ x p, (u'.frame x p = u.frame x p ∨ x = u.window ∧ o ≤ p ∧ p < o + n) →
        update u'.frame u.window ((u'.frame u.window).blit o src n) x p =
          update u.frame u.window ((u.frame u.window).blit o src n) x p := by
      intro x p hxp
      by_cases hx : x = u.window
      · subst hx
        rw [update_self, update_self]
        refine Buf.blit_agree fun hout => ?_
        rcases hxp with heq | hin
        · exact heq
        · exact absurd hin.2 hout
      · rw [update_of_ne hx, update_of_ne hx]
        rcases hxp with heq | hin
        · exact heq
        · exact absurd hin.1 hx
    refine .some ⟨hfit, hu.map, rfl, hu.file, hu.top, ?_, ?_⟩
    · intro g v hv
      by_cases hg : g = f
      · subst hg
        obtain rfl := Option.some.inj (ht.symm.trans hv)
        have := hu.room g _ ht
        rw [Nat.mul_comm] at this
        rw [update_self, Nat.mul_comm blockSize]
        omega
      · rw [update_of_ne hg]
        exact hu.room g v hv
    · intro g v hv i hi
      apply hagree
      by_cases hg : g = f
      · subst hg
        obtain rfl := Option.some.inj (ht.symm.trans hv)
        rw [update_self] at hi
        by_cases hold : i < len g
        · exact .inl (hu.known g _ hv i hold)
        · right
          have hdiv : i / blockSize = b := by
            rw [Nat.div_eq_iff (by decide)]
            omega
          have hmod := Nat.mod_add_div' i blockSize
          rw [hdiv] at hmod ⊢
          exact ⟨hs.window.symm, by omega, by omega⟩
      · rw [update_of_ne hg] at hi
        exact .inl (hu.known g v hv i hi)
  · rw [memcpyIn, memcpyIn, if_neg hfit, if_neg hfit]
    exact .none

/-- Both runs copy the same bytes from a block of the file. -/
theorem Alike.takeBlock {δ : Type} {T : δ → δ → Prop} {k : TmpStore → Buf → Option δ} (h : Alike len top s s')
    {o n : ℕ}
    (hin : o + n ≤ blockSize → b * blockSize + o + n ≤ len f) (dst : Buf) (x : ℕ)
    (hk : ∀ u u' buffer, Alike len top u u' → Option.Rel T (k u buffer) (k u' buffer)) :
    Option.Rel T ((s.getsetBlock f b false).bind fun u => (u.memcpyOut dst x o n).bind (k u))
      ((s'.getsetBlock f b false).bind fun u => (u.memcpyOut dst x o n).bind (k u)) := by
  refine rel_bind (h.getsetBlock f b false) ?_
  rintro u u' ⟨hu, t, t', hs⟩
  have ht : u.file f = some t' := by rw [hs.after, update_self]
  by_cases hfit : o + n ≤ blockSize
  · have hsame : dst.blit x ((u'.frame u'.window).drop o) n = dst.blit x ((u.frame u.window).drop o) n := by
      refine Buf.blit_congr fun j hj => ?_
      have hlt : o + j < blockSize := by omega
      have hknown := hu.known f t' ht (b * blockSize + (o + j)) (by have := hin hfit; omega)
      rw [Nat.mul_comm, Nat.mul_add_div (by decide), Nat.mul_add_mod, Nat.div_eq_of_lt hlt,
        Nat.mod_eq_of_lt hlt, Nat.add_zero,
        ← hs.window] at hknown
      rw [hu.window]
      exact hknown
    rw [memcpyOut, memcpyOut, if_pos hfit, if_pos hfit, hsame]
    exact hk u u' _ hu
  · rw [memcpyOut, memcpyOut, if_neg hfit, if_neg hfit]
    exact .none

/-! ### Calls -/

/-- The answers of a call are the same, and what is known of the files is known of them afterwards. -/
def Same {α : Type} (r r' : α × TmpStore) : Prop := r.1 = r'.1 ∧ ∃ len, Alike len len r.2 r'.2

def Copied (len : ℕ → ℕ) (r r' : TmpStore × Buf) : Prop := Alike len len r.1 r'.1 ∧ r'.2 = r.2

theorem Alike.readTmpfs (h : Alike len len s s') (f offset size : ℕ) (buffer : Buf) :
    Option.Rel (fun r r' => r.1 = r'.1 ∧ r.2.1 = r'.2.1 ∧ Alike len len r.2.2 r'.2.2)
      (s.readTmpfs f offset size buffer)
      (s'.readTmpfs f offset size buffer) := by
  rw [TmpStore.readTmpfs, TmpStore.readTmpfs, h.file]
  cases ht : s.file f with
  | none => exact .none
  | some t =>
    have hfin : (if t.length < (offset + size) % 2 ^ 32 then t.length else (offset + size) % 2 ^ 32) ≤ len
      f := by
      rw [← h.top f t ht]
      split <;> omega
    have hlt : (if t.length < (offset + size) % 2 ^ 32 then t.length else (offset + size) % 2 ^ 32) < 2 ^
      32 := by
      split <;> omega
    simp only [Option.bind_eq_bind, Option.bind_some, Option.pure_def]
    generalize (if t.length < (offset + size) % 2 ^ 32 then t.length else (offset + size) % 2 ^ 32) =
      fin at hfin hlt
    have hmodo := Nat.mod_add_div' offset blockSize
    have hmode := Nat.mod_add_div' fin blockSize
    have hlto := Nat.mod_lt offset (show 0 < blockSize by decide)
    have hlte := Nat.mod_lt fin (show 0 < blockSize by decide)
    by_cases hempty : offset / blockSize = fin / blockSize ∧ offset = fin
    · rw [if_pos hempty, if_pos hempty]
      exact .some ⟨rfl, rfl, h⟩
    rw [if_neg hempty, if_neg hempty]
    by_cases hsame : offset / blockSize = fin / blockSize
    · rw [if_pos hsame, if_pos hsame]
      refine h.takeBlock ?_ buffer 0 fun u u' _ hu => .some ⟨rfl, rfl, hu⟩
      -- a range that starts behind the end is longer than a block
      rw [← hsame] at hmode
      have hbs : blockSize = 0x1000 := rfl
      omega
    · rw [if_neg hsame, if_neg hsame]
      refine rel_bind (rel_foldlM (R := fun _ => Copied len) _ ⟨h, rfl⟩ ?_) ?_
      · rintro i hi ⟨u, dst⟩ ⟨u', dst'⟩ ⟨hu, rfl⟩
        obtain ⟨o, n, done, hr, hround⟩ := readRound_eq f offset i
        have hle : (offset / blockSize + (i + 1)) * blockSize ≤ fin / blockSize * blockSize :=
          Nat.mul_le_mul_right _ (by omega)
        rw [hround, hround]
        refine hu.takeBlock ?_ _ done fun v v' _ hv => .some ⟨hv, rfl⟩
        have := hr.pos
        have := hr.place
        have := hr.after
        omega
      · rintro ⟨u, dst⟩ ⟨u', dst'⟩ ⟨hu, rfl⟩
        simp only
        by_cases hzero : fin - fin / blockSize * blockSize = 0
        · rw [if_pos hzero, if_pos hzero]
          exact .some ⟨rfl, rfl, hu⟩
        rw [if_neg hzero, if_neg hzero]
        by_cases hstart : blockSize * (fin / blockSize - offset / blockSize) < offset % blockSize
        · rw [if_pos hstart, if_pos hstart]
          exact .none
        · rw [if_neg hstart, if_neg hstart]
          exact hu.takeBlock (by omega) _ _ fun v v' _ hv => .some ⟨rfl, rfl, hv⟩

theorem Alike.setLength (h : Alike len len s s') (ht : s.file f = some t) (n : ℕ) :
    Alike len (update len f (max (len f) n))
      (if t.length < n then { s with file := update s.file f (some { t with length := n }) } else s)
      (if t.length < n then { s' with file := update s.file f (some { t with length := n }) } else s') := by
  have hlen := h.top f t ht
  by_cases hlt : t.length < n
  · rw [if_pos hlt, if_pos hlt]
    refine ⟨h.map, h.window, rfl, ?_, ?_, ?_⟩
    all_goals
      intro g v hv
      by_cases hg : g = f
    · simp only [hg, update_self, Option.some.injEq] at hv ⊢
      rw [← hv]
      simp only
      omega
    · simp only [update_of_ne hg] at hv ⊢
      exact h.top g v hv
    · simp only [hg, update_self, Option.some.injEq] at hv ⊢
      rw [← hv]
      exact h.room f t ht
    · simp only [update_of_ne hg] at hv
      exact h.room g v hv
    · simp only [hg, update_self, Option.some.injEq] at hv ⊢
      rw [← hv]
      exact h.known f t ht
    · simp only [update_of_ne hg] at hv
      exact h.known g v hv
  · rw [if_neg hlt, if_neg hlt, max_eq_left (by omega), update_eq_self]
    exact h

/-- After some rounds of a write that ends at `fin`. -/
def Written (len : ℕ → ℕ) (f offset fin i : ℕ) : TmpStore → TmpStore → Prop :=
  Alike (update len f (max (len f) (offset + ((offset / blockSize + i) * blockSize - offset))))
    (update len f (max (len f) fin))

theorem Alike.writeTmpfs (h : Alike len len s s') (f offset size : ℕ)
    (hgap : ∀ t, s.file f = some t → offset ≤ t.length)
    (buffer : Buf) : Option.Rel Same (s.writeTmpfs f offset size buffer)
      (s'.writeTmpfs f offset size buffer) := by
  rw [TmpStore.writeTmpfs, TmpStore.writeTmpfs, h.file]
  cases ht : s.file f with
  | none => exact .none
  | some t =>
    have hoff : offset ≤ len f := by
      rw [← h.top f t ht]
      exact hgap t ht
    have hlt : (offset + size) % 2 ^ 32 < 2 ^ 32 := Nat.mod_lt _ (by decide)
    simp only [Option.bind_eq_bind, Option.bind_some, Option.pure_def]
    generalize (offset + size) % 2 ^ 32 = fin at hlt
    have h₀ := h.setLength ht fin
    generalize (if t.length < fin then { s with file := update s.file f (some { t with length := fin }) }
      else s) = s₀
      at h₀
    generalize (if t.length < fin then { s' with file := update s.file f (some { t with length := fin }) }
      else s') = s₀'
      at h₀
    have hmodo := Nat.mod_add_div' offset blockSize
    have hmode := Nat.mod_add_div' fin blockSize
    have hlto := Nat.mod_lt offset (show 0 < blockSize by decide)
    have hlte := Nat.mod_lt fin (show 0 < blockSize by decide)
    by_cases hsame : offset / blockSize = fin / blockSize
    · rw [if_pos hsame, if_pos hsame]
      refine rel_bind (h₀.putBlock (by omega) buffer _) ?_
      rintro u u' ⟨hfit, hu⟩
      -- an end that wraps would not fit in the block
      have hmax : max (len f)
        (offset / blockSize * blockSize + offset % blockSize + (fin + 2 ^ 32 - offset) % 2 ^ 32) =
          max (len f) fin := by
        rw [← hsame] at hmode
        have hbs : blockSize = 0x1000 := rfl
        omega
      rw [hmax] at hu
      exact .some ⟨rfl, _, hu⟩
    rw [if_neg hsame, if_neg hsame]
    refine rel_bind (rel_foldlM (R := Written len f offset fin) _ ?_ ?_) ?_
    · rw [Written, Nat.add_zero, show max (len f) (offset + (offset / blockSize * blockSize - offset)) =
        len f by omega,
        update_eq_self]
      exact h₀
    · intro i _ u u' hu
      obtain ⟨o, n, done, hr, hround⟩ := writeRound_eq f offset buffer i
      rw [Written, ← hr.before] at hu
      rw [hround, hround]
      have hplace := hr.place
      refine rel_mono (hu.putBlock (by rw [update_self]; omega) _ n) ?_
      rintro v v' ⟨-, hv⟩
      rw [update_idem, update_self, hplace] at hv
      rw [Written, ← hr.after]
      rwa [show max (max (len f) (offset + done)) (offset + done + n) =
        max (len f) (offset + (done + n)) by omega] at hv
    · intro u u' hu
      -- an end that wraps is in the file
      have hend : (offset / blockSize + (fin / blockSize - offset / blockSize)) * blockSize =
        fin / blockSize * blockSize ∨
          (offset / blockSize + (fin / blockSize - offset / blockSize)) * blockSize =
            offset / blockSize * blockSize ∧ fin < offset := by
        by_cases hle : offset / blockSize ≤ fin / blockSize
        · left
          rw [Nat.add_sub_cancel' hle]
        · right
          rw [Nat.sub_eq_zero_of_le (by omega), Nat.add_zero]
          exact ⟨rfl, Nat.lt_of_div_lt_div (show fin / blockSize < offset / blockSize by omega)⟩
      rw [Written] at hu
      generalize (offset / blockSize + (fin / blockSize - offset / blockSize)) * blockSize = x at hend hu
      by_cases hzero : fin - fin / blockSize * blockSize = 0
      · rw [if_pos hzero, if_pos hzero]
        rw [show max (len f) (offset + (x - offset)) = max (len f) fin by omega] at hu
        exact .some ⟨rfl, _, hu⟩
      rw [if_neg hzero, if_neg hzero]
      by_cases hstart : blockSize * (fin / blockSize - offset / blockSize) < offset % blockSize
      · rw [if_pos hstart, if_pos hstart]
        exact .none
      · rw [if_neg hstart, if_neg hstart]
        refine rel_bind (hu.putBlock (by rw [update_self]; omega) _ _) ?_
        rintro v v' ⟨-, hv⟩
        rw [update_idem, update_self] at hv
        rw [show max (max (len f) (offset + (x - offset)))
          (fin / blockSize * blockSize + 0 + (fin - fin / blockSize * blockSize)) =
          max (len f) fin by omega] at hv
        exact .some ⟨rfl, _, hv⟩

theorem Alike.create (h : Alike len len s s') (f : ℕ) :
    Alike (update len f 0) (update len f 0)
      { s with file := update s.file f (some tmpfsFileNew) }
      { s' with file := update s'.file f (some tmpfsFileNew) } := by
  refine ⟨h.map, h.window, congrArg (update · f _) h.file, ?_, ?_, ?_⟩
  all_goals
    intro g v hv
    by_cases hg : g = f
  · simp only [hg, update_self, Option.some.injEq] at hv ⊢
    rw [← hv]
    rfl
  · simp only [update_of_ne hg] at hv ⊢
    exact h.top g v hv
  · simp only [hg, update_self, Nat.zero_le]
  · simp only [update_of_ne hg] at hv ⊢
    exact h.room g v hv
  · intro i hi
    simp only [hg, update_self, Nat.not_lt_zero] at hi
  · simp only [update_of_ne hg] at hv ⊢
    exact h.known g v hv

def NoGap (s : TmpStore) : TmpfsOp → Prop
  | .write f offset _ _ => ∀ t, s.file f = some t → offset ≤ t.length
  | _ => True

theorem Alike.call (h : Alike len len s s') (op : TmpfsOp) (hgap : s.NoGap op) :
    Option.Rel Same (s.tmpfsCall op) (s'.tmpfsCall op) := by
  cases op with
  | create f => exact .some ⟨rfl, _, h.create f⟩
  | write f offset size buffer =>
    refine rel_map (h.writeTmpfs f offset size hgap buffer) ?_
    rintro ⟨n, u⟩ ⟨n', u'⟩ ⟨hn, hu⟩
    exact ⟨congrArg TmpfsOut.wrote hn, hu⟩
  | read f offset size buffer =>
    refine rel_map (h.readTmpfs f offset size buffer) ?_
    rintro ⟨n, dst, u⟩ ⟨n', dst', u'⟩ ⟨hn, hdst, hu⟩
    exact ⟨congrArg₂ TmpfsOut.got hn hdst, len, hu⟩

/-- The states differ in the contents of free frames only. -/
structure FreeDiffer (s s' : TmpStore) : Prop where
  map : s'.map = s.map
  window : s'.window = s.window
  file : s'.file = s.file
  used : ∀ x, s.map.Used x → s'.frame x = s.frame x

/-- Every byte of a file is in a block of it, in a frame that is in use. -/
structure Placed (s : TmpStore) : Prop where
  room : ∀ f t, s.file f = some t → t.length ≤ blockSize * t.blockCount
  used : ∀ f t, s.file f = some t → ∀ i < t.blockCount, s.map.Used (t.blocks i % 2 ^ 20)

theorem FreeDiffer.alike (h : FreeDiffer s s') (hp : Placed s) : ∃ len, Alike len len s s' := by
  have hlen : ∀ f t, s.file f = some t → ((s.file f).elim 0 TmpfsFile.length) = t.length := by
    intro f t ht
    rw [ht]
    rfl
  refine ⟨fun f => (s.file f).elim 0 TmpfsFile.length, h.map, h.window, h.file, ?_, ?_, ?_⟩
  · intro f t ht
    exact (hlen f t ht).symm
  · intro f t ht
    rw [hlen f t ht]
    exact hp.room f t ht
  · intro f t ht i hi
    rw [hlen f t ht] at hi
    have hblock : i / blockSize < t.blockCount := by
      have := hp.room f t ht
      rw [Nat.div_lt_iff_lt_mul (by decide), Nat.mul_comm]
      omega
    rw [h.used _ (hp.used f t ht _ hblock)]

/-- While no write leaves a gap, the answers do not depend on what is in free frames. -/
theorem tmpfs_reads_own (s s' : TmpStore) (h : FreeDiffer s s') (hp : Placed s) (ops : List TmpfsOp)
    (hgap : Machine.Guarded (fun s op => (tmpfsCall s op).map Prod.snd) NoGap s ops) :
    (Machine.answers tmpfsCall s ops).map Prod.fst = (Machine.answers tmpfsCall s' ops).map Prod.fst := by
  refine answers_eq (R := fun s s' => ∃ len, Alike len len s s') ?_ ops s s' (h.alike hp) hgap
  rintro s s' op ⟨len, hs⟩ hop
  exact hs.call op hop

theorem sampleTmpfs_differ : FreeDiffer (sampleTmpfs 64 0) (sampleTmpfs 64 42) ∧ Placed
    (sampleTmpfs 64 0) := by
  refine ⟨⟨rfl, rfl, rfl, ?_⟩, ⟨fun f t ht => (by cases ht), fun f t ht => (by cases ht)⟩⟩
  intro x hx
  have hword : ∀ j < 32, (7#32).getLsbD j = true → j < 3 := by decide
  have hlt : x < 3 := by
    rw [Mem.Frames.Used, Mem.indexFromBit, Mem.offsetFromBit] at hx
    by_cases hzero : x / 0x20 = 0
    · have hx' : x % 0x20 = x := Nat.mod_eq_of_lt (by omega)
      rw [hx'] at hx
      simp only [sampleTmpfs, if_pos hzero] at hx
      exact hword x (by omega) hx
    · simp only [sampleTmpfs, if_neg hzero, BitVec.getLsbD_zero, Bool.false_eq_true] at hx
  simp only [sampleTmpfs, if_pos hlt]

theorem tmpfs_reads_own_small :
    (Machine.answers tmpfsCall (sampleTmpfs 64 0) sampleOps).map Prod.fst =
      (Machine.answers tmpfsCall (sampleTmpfs 64 42) sampleOps).map Prod.fst ∧
    (Machine.answers tmpfsCall (sampleTmpfs 64 42) sampleOps).map (fun r => r.1.map (·.byte 0)) =
      some [none, none, some 1] := by
  refine ⟨tmpfs_reads_own _ _ sampleTmpfs_differ.1 sampleTmpfs_differ.2 sampleOps ?_, by decide +kernel⟩
  exact ⟨trivial, fun s₁ _ => ⟨fun t _ => Nat.zero_le _, fun s₂ _ => ⟨trivial, fun _ _ => trivial⟩⟩⟩

theorem tmpfs_shows_free_frame :
    FreeDiffer (sampleTmpfs 64 0) (sampleTmpfs 64 42) ∧ Placed (sampleTmpfs 64 0) ∧
    (Machine.answers tmpfsCall (sampleTmpfs 64 0) [.create 1, .write 1 1 1 fun _ => 5, .read 1 0 1 fun _ =>
      0]).map
      (fun r => r.1.map (·.byte 0)) = some [none, none, some 0] ∧
    (Machine.answers tmpfsCall (sampleTmpfs 64 42) [.create 1, .write 1 1 1 fun _ => 5, .read 1 0 1 fun _ =>
      0]).map
      (fun r => r.1.map (·.byte 0)) = some [none, none, some 42] :=
  ⟨sampleTmpfs_differ.1, sampleTmpfs_differ.2, by decide +kernel, by decide +kernel⟩

end TmpStore

end ChiffOS.Vfs
