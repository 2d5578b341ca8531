import ChiffOS.Vfs.Open

/-! The reference counts of the nodes that `kopen_recur` makes. `open_fs` runs at the end of every nested
call, so a node that is reached through a symbolic link in the last component is counted once for the link
and once for the call. -/

namespace ChiffOS.Vfs

variable {N : Type}

/-- The reference counts of the nodes on the heap, by address, and the next address. -/
structure NodeHeap where
  refcount : ℕ → ℤ
  next : ℕ

namespace NodeHeap

def malloc (h : NodeHeap) : NodeHeap := ⟨Function.update h.refcount h.next 0, h.next + 1⟩

def openFs (h : NodeHeap) (a : ℕ) : NodeHeap :=
  if h.refcount a ≥ 0 then { h with refcount := Function.update h.refcount a (h.refcount a + 1) } else h

def closeFs (h : NodeHeap) (a : ℕ) : NodeHeap × Bool :=
  if h.refcount a = -1 then (h, false)
  else ({ h with refcount := Function.update h.refcount a (h.refcount a - 1) }, h.refcount a - 1 = 0)

end NodeHeap

def newNode : Option N → StateM NodeHeap (Option (N × ℕ))
  | none => pure none
  | some node => do
    let h ← get
    set h.malloc
    pure (some (node, h.next))

def NodeOps.counted (ops : NodeOps Id N) : NodeOps (StateM NodeHeap) (N × ℕ) where
  flags e := ops.flags e.1
  finddir e := (ops.finddir e.1).map fun f name => newNode (f name)
  readlink e := (ops.readlink e.1).map fun target => pure (target : Option CStr)
  openNode e := some fun _ => modify (·.openFs e.2)

/-- The file systems of a kernel: the driver functions and the mounted nodes with their addresses. The copy
that `kopen_recur` makes of a mounted node has the count of the node, -1, which `open_fs` leaves; it is not
told apart from the node. -/
structure CountedTree (N : Type) where
  ops : NodeOps Id N
  root : N × ℕ
  mounts : Mounts (N × ℕ)

namespace CountedTree

variable (v : CountedTree N)

def tree : FsTree (StateM NodeHeap) (N × ℕ) := ⟨v.root, v.mounts, v.ops.counted⟩

/-- The node is mounted: `fs_root`, or the file of an entry of the mount tree. -/
def Mounted (e : N × ℕ) : Prop := e = v.root ∨ ∃ cs, v.mounts.at_ cs = some e

/-- `vfs_mount` has set the counts of the mounted nodes, and the addresses to come are others. -/
def Installed (h : NodeHeap) : Prop := ∀ e, v.Mounted e → h.refcount e.2 = -1 ∧ e.2 < h.next

def SinglyReferenced (h : NodeHeap) (e : N × ℕ) : Prop :=
  v.Mounted e ∧ h.refcount e.2 = -1 ∨ h.refcount e.2 = 1 ∧ (h.closeFs e.2).2 = true

/-! ### Where a path ends -/

/-- A path ends at a mount point, or at an entry of a directory, behind so many links: the last component of
the path, the last one of that link's target, and so on. -/
inductive Ending where
  | mount
  | entry (links : ℕ)
deriving DecidableEq

def Ending.behindLink : Ending → Ending
  | mount => mount
  | entry links => entry (links + 1)

def entryEnds (target : CStr → CStr → Option (N × Ending)) (flags : ℕ) (relpath : CStr) (last : Bool)
    (e : N) :
    Option (N × Ending) :=
  if v.ops.flags e &&& fsSymlink ≠ 0 ∧ ¬ (flags &&& oNofollow ≠ 0 ∧ flags &&& oPath ≠ 0 ∧ last) then
    if flags &&& oNofollow ≠ 0 ∧ last then none
    else (v.ops.readlinkFs e : Option CStr).bind fun symlinkBuf =>
      (target symlinkBuf relpath).map fun r => (r.1, r.2.behindLink)
  else some (e, .entry 0)

/-- Where the components end from a directory on. The links in front of the last component do not count. -/
def endsFrom (target : CStr → CStr → Option (N × Ending)) (flags : ℕ) (path : CStr) :
    List CStr → (depth : ℕ) → N → Option (N × Ending)
  | [], _, _ => none
  | name :: rest, depth, dir =>
    (v.ops.finddirFs dir name : Option N).bind fun e =>
      (v.entryEnds target flags (FsTree.relpath path depth) rest.isEmpty e).bind fun r =>
        if rest.isEmpty then some r else endsFrom target flags path rest (depth + 1) r.1

def endsAt (target : CStr → CStr → Option (N × Ending)) (flags : ℕ) (path : CStr) : Option (N × Ending) :=
  if path.length = 1 then some (v.root.1, .mount)
  else
    let (node, rest, depth) := v.tree.getMountPoint (if path = [] then [] else fields (path.drop 1))
    if rest = [] ∨ rest = [[]] then some (node.1, .mount)
    else v.endsFrom target flags path (rest.take ((fields path).length - 1 - depth)) depth node.1

def ends : (left : ℕ) → (flags : ℕ) → (path : CStr) → Option (N × Ending)
  | 0, flags, path => v.endsAt (fun _ _ => none) flags path
  | left + 1, flags, path =>
    v.endsAt (fun symlinkBuf relpath => ends left 0 (canonicalizePath relpath symlinkBuf)) flags path

def BehindLink (left flags : ℕ) (path : CStr) : Prop := ∃ node links, v.ends left flags path =
    some (node, .entry (links + 1))

end CountedTree

/-! ### What a call does to the heap -/

namespace NodeHeap

/-- No address is given back, and the counts at the addresses that were there stay. -/
structure Grown (h h' : NodeHeap) : Prop where
  next : h.next ≤ h'.next
  refcount : ∀ a < h.next, h'.refcount a = h.refcount a

variable (h : NodeHeap)

theorem Grown.refl : Grown h h := ⟨le_rfl, fun _ _ => rfl⟩

theorem Grown.trans {h h' h'' : NodeHeap} (g : Grown h h') (g' : Grown h' h'') : Grown h h'' := by
  constructor
  · exact g.next.trans g'.next
  · intro a ha
    rw [g'.refcount a (ha.trans_le g.next), g.refcount a ha]

theorem malloc_grown : Grown h h.malloc := by
  constructor
  · exact Nat.le_succ h.next
  · intro a ha
    exact Function.update_of_ne (by omega) _ _

@[simp] theorem malloc_refcount : h.malloc.refcount h.next = 0 := Function.update_self _ _ _

theorem openFs_locked {h : NodeHeap} {a : ℕ} (ha : h.refcount a = -1) : h.openFs a = h := by
  rw [openFs, if_neg (by omega)]

theorem openFs_next (a : ℕ) : (h.openFs a).next = h.next := by
  unfold openFs
  split <;> rfl

theorem openFs_refcount {h : NodeHeap} {a : ℕ} (ha : 0 ≤ h.refcount a) : (h.openFs a).refcount a =
    h.refcount a + 1 := by
  rw [openFs, if_pos ha]
  exact Function.update_self _ _ _

theorem openFs_of_ne {a b : ℕ} (hb : b ≠ a) : (h.openFs a).refcount b = h.refcount b := by
  unfold openFs
  split
  · exact Function.update_of_ne hb _ _
  · rfl

theorem Grown.openFs {h h' : NodeHeap} {a : ℕ} (g : Grown h h') (ha : h.next ≤ a) : Grown h
    (h'.openFs a) := by
  constructor
  · exact g.next.trans_eq (openFs_next h' a).symm
  · intro b hb
    rw [openFs_of_ne h' (by omega), g.refcount b hb]

end NodeHeap

open NodeHeap

namespace CountedTree

variable {v : CountedTree N}

theorem Installed.grown {h h' : NodeHeap} (hin : v.Installed h) (g : Grown h h') : v.Installed h' := by
  intro e he
  obtain ⟨hcount, haddr⟩ := hin e he
  exact ⟨(g.refcount e.2 haddr).trans hcount, haddr.trans_le g.next⟩

/-- What a part of the call returns next to where its path ends: nothing, a mounted node, or a new node that
was opened `extra` times and once for every link. -/
inductive Leads (v : CountedTree N) (extra : ℕ) (h : NodeHeap) :
    Option (N × ℕ) × NodeHeap → Option (N × Ending) → Prop where
  | none {h' : NodeHeap} : Grown h h' → Leads v extra h (none, h') none
  | mount {h' : NodeHeap} {e : N × ℕ} : Grown h h' → v.Mounted e →
    Leads v extra h (some e, h') (some (e.1, .mount))
  | entry {h' : NodeHeap} {node : N} {a links : ℕ} : Grown h h' → h.next ≤ a → a < h'.next →
      h'.refcount a = links + extra → Leads v extra h (some (node, a), h') (some (node, .entry links))

variable {want : Option (N × Ending)}

theorem Leads.grown {extra : ℕ} {h : NodeHeap} {r : Option (N × ℕ) × NodeHeap}
    (hl : v.Leads extra h r want) : Grown h r.2 := by
  cases hl with
  | none g => exact g
  | mount g _ => exact g
  | entry g _ _ _ => exact g

theorem Leads.since {extra : ℕ} {h₀ h : NodeHeap} {r : Option (N × ℕ) × NodeHeap}
    (g₀ : Grown h₀ h) (hl : v.Leads extra h r want) : v.Leads extra h₀ r want := by
  cases hl with
  | none g => exact .none (g₀.trans g)
  | mount g hm => exact .mount (g₀.trans g) hm
  | entry g hlo hhi hc => exact .entry (g₀.trans g) (g₀.next.trans hlo) hhi hc

/-- The nested call has opened the node once, for the link. -/
theorem Leads.behindLink {h : NodeHeap} {r : Option (N × ℕ) × NodeHeap}
    (hl : v.Leads 1 h r want) : v.Leads 0 h r (want.map fun w => (w.1, w.2.behindLink)) := by
  cases hl with
  | none g => exact .none g
  | mount g hm => exact .mount g hm
  | entry g hlo hhi hc => exact .entry g hlo hhi (by rw [hc]; push_cast; ring)

variable {e : N × ℕ}

theorem Leads.opened {h h' : NodeHeap} (hin : v.Installed h)
    (hl : v.Leads 0 h (some e, h') want) : v.Leads 1 h (some e, h'.openFs e.2) want := by
  cases hl with
  | mount g hm =>
    rw [openFs_locked ((hin.grown g) e hm).1]
    exact .mount g hm
  | @entry _ node a links g hlo hhi hc =>
    have hcount : (h'.openFs a).refcount a = links + 1 := by
      rw [openFs_refcount (by omega), hc]
      simp
    exact .entry (g.openFs hlo) hlo ((openFs_next h' a).symm ▸ hhi) hcount

/-! ### The call, step by step -/

theorem run_bind {α β : Type} (x : StateM NodeHeap α) (f : α → StateM NodeHeap β) (h : NodeHeap) :
    (x >>= f).run h = (f (x.run h).1).run (x.run h).2 := rfl

theorem finddirFs_eq (e : N × ℕ) (name : CStr) :
    v.tree.ops.finddirFs e name = newNode (v.ops.finddirFs e.1 name : Option N) := by
  have hflags : v.tree.ops.flags e = v.ops.flags e.1 := rfl
  have hfind : v.tree.ops.finddir e = (v.ops.finddir e.1).map fun f name => newNode (f name) := rfl
  unfold NodeOps.finddirFs
  rw [hflags, hfind]
  split
  · cases v.ops.finddir e.1 <;> rfl
  · rfl

/-- An entry that is found is a new node that nobody has opened. -/
theorem finddirFs_leads (e : N × ℕ) (name : CStr) (h : NodeHeap) :
    v.Leads 0 h ((v.tree.ops.finddirFs e name).run h)
      ((v.ops.finddirFs e.1 name : Option N).map fun node => (node, .entry 0)) := by
  rw [finddirFs_eq]
  cases (v.ops.finddirFs e.1 name : Option N) with
  | none => exact .none (Grown.refl h)
  | some node => exact .entry (malloc_grown h) le_rfl (Nat.lt_succ_self _) (by simp)

theorem readlinkFs_run (e : N × ℕ) (h : NodeHeap) :
    (v.tree.ops.readlinkFs e).run h = ((v.ops.readlinkFs e.1 : Option CStr), h) := by
  have hread : v.tree.ops.readlink e = (v.ops.readlink e.1).map fun target => pure (target : Option CStr) :=
    rfl
  unfold NodeOps.readlinkFs
  rw [hread]
  cases v.ops.readlink e.1 <;> rfl

/-- `target` says where the nested calls end. -/
def Agrees (v : CountedTree N) (follow : Option (CStr → CStr → StateM NodeHeap (Option (N × ℕ))))
    (target : CStr → CStr → Option (N × Ending)) : Prop :=
  match follow with
  | none => ∀ symlinkBuf relpath, target symlinkBuf relpath = none
  | some follow => ∀ symlinkBuf relpath h, v.Installed h →
      v.Leads 1 h ((follow symlinkBuf relpath).run h) (target symlinkBuf relpath)

section

variable {follow : Option (CStr → CStr → StateM NodeHeap (Option (N × ℕ)))}
    {target : CStr → CStr → Option (N × Ending)}
  (hag : v.Agrees follow target) (flags : ℕ)

include hag

theorem resolveLink_leads (relpath : CStr) (last : Bool) (e : N × ℕ) {h : NodeHeap} (hin : v.Installed h) :
    v.Leads 0 h ((v.tree.resolveLink flags follow relpath last e).run h)
      (if flags &&& oNofollow ≠ 0 ∧ last then none
      else (v.ops.readlinkFs e.1 : Option CStr).bind fun symlinkBuf =>
        (target symlinkBuf relpath).map fun r => (r.1, r.2.behindLink)) := by
  unfold FsTree.resolveLink
  by_cases hno : flags &&& oNofollow ≠ 0 ∧ last
  · rw [if_pos hno, if_pos hno]
    exact .none (Grown.refl h)
  rw [if_neg hno, if_neg hno]
  cases follow with
  | none =>
    have hnone : ∀ symlinkBuf, target symlinkBuf relpath = none := fun symlinkBuf => hag symlinkBuf relpath
    simp only [hnone, Option.map_none, Option.bind_fun_none]
    exact .none (Grown.refl h)
  | some follow =>
    dsimp only
    rw [run_bind, readlinkFs_run]
    cases (v.ops.readlinkFs e.1 : Option CStr) with
    | none => exact .none (Grown.refl h)
    | some symlinkBuf => exact (hag symlinkBuf relpath h hin).behindLink

omit hag in
theorem round_leads {h : NodeHeap} (hin : v.Installed h) (last : Bool)
    {walk : N × ℕ → StateM NodeHeap (Option (N × ℕ))}
    {ends : N → Option (N × Ending)} (hwalk : ∀ e h', v.Installed h' →
      v.Leads 1 h' ((walk e).run h') (ends e.1))
    {finish : Option (N × ℕ) → StateM NodeHeap (Option (N × ℕ))} (hnone : finish none = pure none)
    (hsome : ∀ e, finish (some e) = if last then (do v.tree.ops.openFs e flags; pure (some e)) else walk e)
    {x : StateM NodeHeap (Option (N × ℕ))} {h₁ : NodeHeap} {want : Option (N × Ending)}
    (hl : v.Leads 0 h (x.run h₁) want) :
    v.Leads 1 h ((x >>= finish).run h₁) (want.bind fun w => if last then some w else ends w.1) := by
  rw [run_bind]
  obtain ⟨⟨found, h'⟩, hx⟩ : ∃ r, x.run h₁ = r := ⟨_, rfl⟩
  rw [hx] at hl ⊢
  cases found with
  | none =>
    cases hl with
    | none g =>
      rw [hnone]
      exact .none g
  | some e =>
    have hnode : ∃ w, want = some w ∧ w.1 = e.1 := by
      cases hl with
      | mount _ _ => exact ⟨_, rfl, rfl⟩
      | entry _ _ _ _ => exact ⟨_, rfl, rfl⟩
    obtain ⟨w, rfl, hw⟩ := hnode
    rw [hsome]
    cases last with
    | true => exact hl.opened hin
    | false =>
      rw [Option.bind_some, hw]
      exact (hwalk e h' (hin.grown hl.grown)).since hl.grown

theorem walk_leads (path : CStr) (names : List CStr) : ∀ (depth : ℕ) (e : N × ℕ) (h : NodeHeap),
    v.Installed h →
    v.Leads 1 h ((v.tree.walk flags follow path names depth e).run h)
      (v.endsFrom target flags path names depth e.1) := by
  induction names with
  | nil =>
    intro depth e h _
    exact .none (Grown.refl h)
  | cons name rest ih =>
    intro depth e h hin
    have hfind := v.finddirFs_leads e name h
    unfold FsTree.walk endsFrom
    rw [run_bind]
    obtain ⟨⟨found, h₁⟩, hrun⟩ : ∃ r, (v.tree.ops.finddirFs e name).run h = r := ⟨_, rfl⟩
    rw [hrun] at hfind ⊢
    cases hnode : (v.ops.finddirFs e.1 name : Option N) with
    | none =>
      rw [hnode] at hfind
      cases hfind with
      | none g => exact .none g
    | some node =>
      rw [hnode] at hfind
      cases found with
      | none => cases hfind
      | some next =>
        obtain rfl : next.1 = node := by
          cases hfind
          rfl
        dsimp only
        rw [Option.bind_some, entryEnds]
        by_cases hlink : v.ops.flags next.1 &&& fsSymlink ≠ 0 ∧
            ¬ (flags &&& oNofollow ≠ 0 ∧ flags &&& oPath ≠ 0 ∧ rest.isEmpty)
        · rw [if_pos hlink, if_pos (show v.tree.ops.flags next &&& fsSymlink ≠ 0 ∧ _ from hlink)]
          have hres := resolveLink_leads hag flags (FsTree.relpath path depth) rest.isEmpty next
            (hin.grown hfind.grown)
          apply round_leads flags hin rest.isEmpty (ih (depth + 1))
          · rfl
          · exact fun _ => rfl
          · exact hres.since hfind.grown
        · rw [if_neg hlink, if_neg (show ¬ (v.tree.ops.flags next &&& fsSymlink ≠ 0 ∧ _) from hlink)]
          apply round_leads flags hin rest.isEmpty (ih (depth + 1))
          · rfl
          · exact fun _ => rfl
          · exact hfind

end

/-- `get_mount_point` gives a mounted node. -/
theorem deepest_at (cs : List CStr) : ∀ (t : Mounts (N × ℕ)) (depth : ℕ) (last : (N × ℕ) × List CStr × ℕ),
    (t.deepest cs depth last).1 = last.1 ∨ ∃ names, t.at_ names = some (t.deepest cs depth last).1 := by
  induction cs with
  | nil =>
    intro t depth last
    exact .inl rfl
  | cons c cs ih =>
    intro t depth last
    unfold Mounts.deepest
    cases hc : t.child c with
    | none => exact .inl rfl
    | some t' =>
      have hup : ∀ {names e}, t'.at_ names = some e → t.at_ (c :: names) = some e := by
        intro names e h
        simpa [Mounts.at_, Mounts.find, hc] using h
      dsimp only
      cases hf : t'.file with
      | none =>
        obtain h | ⟨names, h⟩ := ih t' (depth + 1) last
        · exact .inl h
        · exact .inr ⟨c :: names, hup h⟩
      | some f =>
        obtain h | ⟨names, h⟩ := ih t' (depth + 1) (f, cs, depth)
        · refine .inr ⟨[c], hup ?_⟩
          rw [h]
          exact hf
        · exact .inr ⟨c :: names, hup h⟩

theorem getMountPoint_mounted (names : List CStr) : v.Mounted (v.tree.getMountPoint names).1 :=
  deepest_at names v.mounts 1 (v.root, names, 0)

theorem openMounted_leads {h : NodeHeap} (hin : v.Installed h) (flags : ℕ) (he : v.Mounted e) :
    v.Leads 1 h (StateT.run (do v.tree.ops.openFs e flags; pure (some e)) h) (some (e.1, .mount)) :=
  (Leads.mount (Grown.refl h) he).opened hin

theorem openPath_leads {follow : Option (CStr → CStr → StateM NodeHeap (Option (N × ℕ)))}
    {target : CStr → CStr → Option (N × Ending)} (hag : v.Agrees follow target) (flags : ℕ) (path : CStr)
      {h : NodeHeap}
    (hin : v.Installed h) :
    v.Leads 1 h ((v.tree.openPath flags follow path).run h) (v.endsAt target flags path) := by
  unfold FsTree.openPath endsAt
  by_cases hroot : path.length = 1
  · rw [if_pos hroot, if_pos hroot]
    exact openMounted_leads hin flags (.inl rfl)
  rw [if_neg hroot, if_neg hroot]
  have hm := getMountPoint_mounted (v := v) (if path = [] then [] else fields (path.drop 1))
  obtain ⟨⟨e, rest, depth⟩, hpoint⟩ : ∃ p,
    v.tree.getMountPoint (if path = [] then [] else fields (path.drop 1)) = p := ⟨_, rfl⟩
  rw [hpoint] at hm ⊢
  dsimp only
  by_cases hrest : rest = [] ∨ rest = [[]]
  · rw [if_pos hrest, if_pos hrest]
    exact openMounted_leads hin flags hm
  · rw [if_neg hrest, if_neg hrest]
    exact walk_leads hag flags path _ depth e h hin

theorem kopenRecur_leads (left : ℕ) :
    ∀ (first : Bool) (filename : CStr) (flags : ℕ) (relativeTo : CStr) (h : NodeHeap),
    v.Installed h → v.Leads 1 h ((v.tree.kopenRecur left first filename flags relativeTo).run h)
      (v.ends left flags (if first then filename else canonicalizePath relativeTo filename)) := by
  induction left with
  | zero =>
    intro first filename flags relativeTo h hin
    have hag : v.Agrees none fun _ _ => none := fun _ _ => rfl
    exact openPath_leads hag flags _ hin
  | succ left ih =>
    intro first filename flags relativeTo h hin
    have hag : v.Agrees (some fun symlinkBuf relpath => v.tree.kopenRecur left false symlinkBuf 0 relpath)
        fun symlinkBuf relpath => v.ends left 0 (canonicalizePath relpath symlinkBuf) := by
      intro symlinkBuf relpath h' hin'
      exact ih false symlinkBuf 0 relpath h' hin'
    exact openPath_leads hag flags _ hin

theorem closeFs_frees {h : NodeHeap} {a : ℕ} (ha : h.refcount a = 1) : (h.closeFs a).2 = true := by
  rw [NodeHeap.closeFs, if_neg (by omega), ha]
  rfl

theorem singlyReferenced_entry {h : NodeHeap} (links : ℕ) (hc : h.refcount e.2 = links + 1) :
    v.SinglyReferenced h e ↔ links = 0 := by
  constructor
  · intro hs
    rcases hs with ⟨_, hcount⟩ | ⟨hcount, _⟩
    · omega
    · omega
  · intro hzero
    have hcount : h.refcount e.2 = 1 := by omega
    exact .inr ⟨hcount, closeFs_frees hcount⟩

theorem Leads.singlyReferenced_iff {h h' : NodeHeap} (hin : v.Installed h)
    (hl : v.Leads 1 h (some e, h') want) :
    v.SinglyReferenced h' e ↔ ¬ ∃ node links, want = some (node, .entry (links + 1)) := by
  cases hl with
  | mount g hm =>
    have hs : v.SinglyReferenced h' e := .inl ⟨hm, ((hin.grown g) e hm).1⟩
    simp [hs]
  | @entry _ node a links g hlo hhi hc =>
    have hc' : h'.refcount (node, a).2 = links + 1 := by simpa using hc
    rw [singlyReferenced_entry links hc']
    cases links with
    | zero => simp
    | succ links => simp

/-- The node of a call has one reference, or is mounted, exactly where the path does not end behind a link. -/
theorem kopenRecur_singlyReferenced_iff (v : CountedTree N) (left : ℕ) (first : Bool) (filename : CStr)
    (flags : ℕ)
    (relativeTo : CStr) (h : NodeHeap) (hin : v.Installed h) :
    (∀ e h', (v.tree.kopenRecur left first filename flags relativeTo).run h = (some e, h') →
      v.SinglyReferenced h' e) ↔
      ¬ v.BehindLink left flags (if first then filename else canonicalizePath relativeTo filename) := by
  have hl := v.kopenRecur_leads left first filename flags relativeTo h hin
  obtain ⟨⟨found, h'⟩, hrun⟩ : ∃ r, (v.tree.kopenRecur left first filename flags relativeTo).run h = r :=
    ⟨_, rfl⟩
  rw [hrun] at hl ⊢
  unfold BehindLink
  generalize v.ends left flags _ = want at hl ⊢
  cases found with
  | none =>
    cases hl with
    | none g =>
      constructor
      · simp
      · intro _ e₁ h₁ heq
        cases heq
  | some e =>
    rw [← hl.singlyReferenced_iff hin]
    constructor
    · intro hall
      exact hall e h' rfl
    · intro hs e₁ h₁ heq
      cases heq
      exact hs

end CountedTree

/-! ### A link to a file

`/a/l` is a link to the directory `/b/s`, which holds the file `x`, the link `d` to `x` and the link `r` to
`../x`. There is a file `x` in `/a` and one in `/b`. The root is mounted. -/

inductive Spot where
  | root | a | b | s | l | r | d | ax | bx | sx
deriving DecidableEq

namespace Spot

def finddir : Spot → CStr → Option Spot
  | root, [0x61] => some a
  | root, [0x62] => some b
  | a, [0x6C] => some l
  | a, [0x78] => some ax
  | b, [0x73] => some s
  | b, [0x78] => some bx
  | s, [0x78] => some sx
  | s, [0x64] => some d
  | s, [0x72] => some r
  | _, _ => none

def ops : NodeOps Id Spot where
  flags
    | root | a | b | s => fsDirectory
    | l | r | d => fsSymlink
    | ax | bx | sx => 1
  finddir e := some fun name => finddir e name
  readlink
    | l => some (some [0x2F, 0x62, 0x2F, 0x73])
    | r => some (some [0x2E, 0x2E, 0x2F, 0x78])
    | d => some (some [0x78])
    | _ => none
  openNode _ := none

def counted : CountedTree Spot := ⟨ops, (root, 0), .entry [] (some (root, 0)) []⟩

def heap : NodeHeap := ⟨fun _ => -1, 1⟩

theorem counted_installed : counted.Installed heap := by
  intro e he
  obtain rfl : e = (root, 0) := by
    rcases he with rfl | ⟨cs, hcs⟩
    · rfl
    · cases cs with
      | nil => exact (Option.some.inj hcs).symm
      | cons c cs => cases hcs
  exact ⟨rfl, Nat.zero_lt_one⟩

end Spot

theorem kopenRecur_singlyReferenced_file :
    Spot.counted.SinglyReferenced
      ((Spot.counted.tree.kopenRecur maxSymlinkDepth false [0x2F, 0x62, 0x2F, 0x73, 0x2F, 0x78] 0 [0x2F]).run
        Spot.heap).2
      (Spot.sx, 3) := by
  refine (CountedTree.kopenRecur_singlyReferenced_iff Spot.counted maxSymlinkDepth false
    [0x2F, 0x62, 0x2F, 0x73, 0x2F, 0x78] 0 [0x2F] Spot.heap Spot.counted_installed).mpr ?_ (Spot.sx, 3) _
    (Prod.ext (by decide +kernel) rfl)
  intro ⟨node, links, h⟩
  have hend : Spot.counted.ends maxSymlinkDepth 0
    (canonicalizePath [0x2F] [0x2F, 0x62, 0x2F, 0x73, 0x2F, 0x78]) =
      some (Spot.sx, .entry 0) := by
    decide +kernel
  cases hend.symm.trans h

/-- `/b/s/d` leads to the file behind one link, which is opened for the link and for the call. -/
theorem kopenRecur_link_twice :
    ∃ e h', (Spot.counted.tree.kopenRecur maxSymlinkDepth false [0x2F, 0x62, 0x2F, 0x73, 0x2F, 0x64] 0
      [0x2F]).run Spot.heap =
        (some e, h') ∧ h'.refcount e.2 = 2 ∧ (h'.closeFs e.2).2 = false ∧
          ¬ Spot.counted.SinglyReferenced h' e := by
  refine ⟨(Spot.sx, 6), _, Prod.ext (by decide +kernel) rfl, by decide +kernel, by decide +kernel, ?_⟩
  rw [CountedTree.singlyReferenced_entry 1 (by decide +kernel)]
  decide

end ChiffOS.Vfs
