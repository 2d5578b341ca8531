import ChiffOS.Ext2.Dir
import ChiffOS.Ext2.Volume

/-! Which operations the functions of the driver ask for. What only looks at the volume leaves it as it is,
and what allocates nothing leaves the counts in memory as they are. -/

namespace ChiffOS.Ext2

open Buf Prog Option

/-- Operations that change no block and no field of the object. -/
def Reading (γ : Type) : Ext2Op γ → Prop
  | .this | .malloc | .readBlock _ _ | .undefined => True
  | _ => False

section Reading

theorem reading_undefined {α : Type} : Only Reading (undefined : Ext2M α) :=
    Only.bind (Only.ask trivial) fun e => e.elim

theorem reading_refreshInode (inodet : Buf) (index : ℕ) : Only Reading (refreshInode inodet index) := by
  refine .bind (.ask trivial) fun m => ?_
  refine .ite (.pure _) ?_
  exact .bind (.ask trivial) fun buf => .bind (.ask trivial) fun r => .pure _

theorem reading_readInode (index : ℕ) : Only Reading (readInode index) :=
  .bind (.ask trivial) fun inodet => reading_refreshInode inodet index

theorem reading_loadEntry (tmp : Buf) (block entry : ℕ) : Only Reading (loadEntry tmp block entry) :=
  .bind (.ask trivial) fun _ => .pure _

variable (inode : Buf)

theorem reading_getBlockNumber (iblock : ℕ) : Only Reading (getBlockNumber inode iblock) := by
  refine .bind (.ask trivial) fun m => ?_
  cases mapPath m.pointersPerBlock iblock with
  | direct i => exact .pure _
  | single i => exact .bind (.ask trivial) fun tmp => .bind (reading_loadEntry _ _ _) fun _ => .pure _
  | double c d =>
    refine .bind (.ask trivial) fun tmp => .bind (reading_loadEntry _ _ _) fun _ => ?_
    exact .bind (reading_loadEntry _ _ _) fun _ => .pure _
  | triple d f g =>
    refine .bind (.ask trivial) fun tmp => .bind (reading_loadEntry _ _ _) fun _ => ?_
    exact .bind (reading_loadEntry _ _ _) fun _ => .bind (reading_loadEntry _ _ _) fun _ => .pure _
  | divByZero => exact reading_undefined
  | tooHigh => exact .pure _

theorem reading_inodeReadBlock (block : ℕ) (buf : Buf) : Only Reading (inodeReadBlock inode block buf) := by
  refine .bind (.ask trivial) fun m => ?_
  refine .ite (.pure _) ?_
  exact .bind (reading_getBlockNumber _ _) fun _ => .bind (.ask trivial) fun _ => .pure _

end Reading

/-! ### On the object -/

/-- The state after calls that only look at the volume. -/
structure Fs.Looked (S : ℕ → Prop) (fs fs' : Fs) : Prop where
  sound : fs'.Sound S
  synced : fs'.synced = fs.synced
  mem : fs'.toMem = fs.toMem

variable {S : ℕ → Prop}

theorem Fs.Sound.looked {fs : Fs} (h : fs.Sound S) : fs.Looked S fs := ⟨h, rfl, rfl⟩

theorem Fs.Looked.trans {fs fs' fs'' : Fs} (h : fs.Looked S fs') (h' : fs'.Looked S fs'') :
    fs.Looked S fs'' :=
  ⟨h'.sound, h'.synced.trans h.synced, h'.mem.trans h.mem⟩

theorem Fs.Looked.disk {fs fs' : Fs} (h : fs.Looked S fs') : fs'.disk = fs.disk := by
  unfold Fs.disk
  rw [h.synced, h.mem]

theorem Fs.synced_heap (fs : Fs) (heap : ℕ → Buf) : ({ fs with heap := heap } : Fs).synced = fs.synced := by
  unfold Fs.synced Fs.ext2Sync
  cases fs.diskCache <;> rfl

theorem Fs.Sound.heap {fs : Fs} (h : fs.Sound S) (heap : ℕ → Buf) :
    fs.Looked S { fs with heap := heap } :=
  ⟨⟨h.size, h.apart, h.cache⟩, fs.synced_heap heap, rfl⟩

theorem Fs.Sound.sync {fs : Fs} (h : fs.Sound S) : fs.Looked S fs.ext2Sync := by
  refine ⟨?_, fs.synced_ext2Sync, by unfold Fs.ext2Sync; split <;> rfl⟩
  rcases eq_none_or_eq_some fs.diskCache with hdc | ⟨dc, hdc⟩
  · have hsame : fs.ext2Sync = fs := by simp [Fs.ext2Sync, hdc]
    rwa [hsame]
  rw [Fs.ext2Sync_some hdc]
  refine ⟨h.size, h.apart, fun dc' hdc' => ?_⟩
  obtain rfl := some.inj hdc'
  have hc := h.cache dc hdc
  refine ⟨fun i j e f hi hj hS hef => ?_, fun e he hd => ?_, fun e he hS _ i hi => ?_⟩
  · simp only [List.getElem?_map, map_eq_some_iff] at hi hj
    obtain ⟨e, hi, rfl⟩ := hi
    obtain ⟨f, hj, rfl⟩ := hj
    exact hc.inj i j e f hi hj hS hef
  · obtain ⟨e, -, rfl⟩ := List.mem_map.mp he
    exact absurd hd (by simp)
  · obtain ⟨e, hem, rfl⟩ := List.mem_map.mp he
    obtain ⟨k, hk⟩ := List.getElem?_of_mem hem
    exact (hc.flush_entry h.size h.apart hk hS hi).symm

theorem Only.looks {α : Type} {p : Ext2M α} (hp : Only Reading p) (S : ℕ → Prop) :
    Keeps fsHandler (fun fs fs' => fs.Sound S → fs.Looked S fs') p := by
  refine hp.keeps (fun _ h => h.looked) (fun h h' hs => (h hs).trans (h' (h hs).sound)) ?_
  intro γ o fs a fs' ho hr hs
  cases o with
  | this =>
    obtain ⟨-, rfl⟩ := Prod.mk.inj (some.inj hr)
    exact hs.looked
  | malloc =>
    obtain ⟨-, rfl⟩ := Prod.mk.inj (some.inj hr)
    exact hs.heap _
  | readBlock b buf =>
    obtain ⟨hs', hsync, hframe, -⟩ := hs.readBlock hr
    exact ⟨hs', hsync, hframe.mem⟩
  | undefined => simp [fsHandler] at hr
  | _ => exact ho.elim

section Rules

variable {α β : Type} {fs : Fs} {Q : β → Fs → Prop}

theorem post_this {f : Mem → Ext2M β} (h : Post fsHandler (f fs.toMem) fs Q) : Post fsHandler
    (this >>= f) fs Q := by
  refine .bind (P := fun m fs' => m = fs.toMem ∧ fs' = fs) (.ask fun m fs' hr => ?_) ?_
  · obtain ⟨rfl, rfl⟩ := Prod.mk.inj (Option.some.inj hr)
    exact ⟨rfl, rfl⟩
  · rintro m fs' ⟨rfl, rfl⟩
    exact h

theorem post_undefined {α : Type} {g : Fs} {Q : α → Fs → Prop} : Post fsHandler undefined g Q := by
  intro a s' hr
  simp [undefined, fsHandler] at hr

end Rules

end ChiffOS.Ext2
