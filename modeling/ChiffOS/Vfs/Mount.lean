import ChiffOS.Vfs.Open

/-! The mount tree of `vfs.c` as `vfs_mount` builds it and `get_mount_point` searches it, over the buffer in
which the separators of a path have become zeros. The search finds what was last mounted at the
longest prefix of the path. -/

namespace ChiffOS.Vfs

open List

def strAt (buf : List UInt8) (offset : ℕ) : CStr := (buf.drop offset).takeWhile (· ≠ 0)

def chop (path : CStr) : List UInt8 := (path.map fun c => if c = pathSeparator then 0 else c) ++ [0]

def pathDepth (path : CStr) : ℕ := path.count pathSeparator

variable {N : Type}

/-- `fs_root`, `fs_tree` and the reference counts of the nodes. -/
structure MountTable (N : Type) where
  fsRoot : Option N
  fsTree : Mounts N
  refcount : N → ℤ

def vfsInstall (refcount : N → ℤ) : MountTable N :=
  ⟨none, .entry [0x5B, 0x72, 0x6F, 0x6F, 0x74, 0x5D] none [], refcount⟩

/-- The children with the first one of the name changed, or a new one at the end. -/
def updateChild (name : CStr) (f : Mounts N → Mounts N) : List (Mounts N) → List (Mounts N)
  | [] => [f (.entry name none [])]
  | c :: cs => if c.name = name then f c :: cs else c :: updateChild name f cs

namespace Mounts

def setFile (file : N) : Mounts N → Mounts N
  | entry name _ children => entry name (some file) children

def atChild (name : CStr) (f : Mounts N → Mounts N) : Mounts N → Mounts N
  | entry n file children => entry n file (updateChild name f children)

def mountFrom (buf : List UInt8) (pathLen : ℕ) (localRoot : N) (at_ : ℕ) : Mounts N → Mounts N :=
  if pathLen ≤ at_ then setFile localRoot
  else atChild (strAt buf at_) (mountFrom buf pathLen localRoot (at_ + (strAt buf at_).length + 1))
termination_by pathLen - at_

end Mounts

def vfsMount [DecidableEq N] (v : MountTable N) (path : CStr) (localRoot : N) : Option (MountTable N) :=
  if path.head? ≠ some pathSeparator then none
  else
    let p := chop path
    let v := { v with refcount := Function.update v.refcount localRoot (-1) }
    if strAt p 1 = [] then some { v with fsRoot := some localRoot, fsTree := v.fsTree.setFile localRoot }
    else some { v with fsTree := v.fsTree.mountFrom p path.length localRoot 1 }

/-- The first loop of `get_mount_point`: past so many strings. -/
def pastStrings (buf : List UInt8) : ℕ → ℕ → ℕ
  | 0, path => path
  | n + 1, path => pastStrings buf n (path + (strAt buf path).length + 1)

/-- What `get_mount_point` keeps: the last node, `*outpath` and `_tree_depth`. -/
structure MountPoint (N : Type) where
  last : Option N
  outpath : ℕ
  outdepth : ℕ

/-- The second loop, from the string at `at_` on; `path` is where the strings end. -/
def Mounts.searchFrom (buf : List UInt8) (path : ℕ) (at_ depth : ℕ) (node : Mounts N) (found : MountPoint N) :
    MountPoint N :=
  if path ≤ at_ then found
  else match node.child (strAt buf at_) with
    | none => found
    | some child =>
      let next := at_ + (strAt buf at_).length + 1
      child.searchFrom buf path next (depth + 1) (match child.file with
        | some file => ⟨some file, next, depth⟩
        | none => found)
termination_by path - at_

def MountTable.getMountPoint (v : MountTable N) (path : List UInt8) (pathDepth outpath : ℕ) : MountPoint N :=
  v.fsTree.searchFrom path (pastStrings path (pathDepth + 1) 0) outpath 1 ⟨v.fsRoot, outpath, 0⟩

/-! ### Strings one behind the other -/

def laid (cs : List CStr) : List UInt8 := cs.flatMap fun c => c ++ [0]

theorem laid_append (cs ds : List CStr) : laid (cs ++ ds) = laid cs ++ laid ds := flatMap_append

theorem laid_cons (c : CStr) (cs : List CStr) : laid (c :: cs) = c ++ 0 :: laid cs := by simp [laid]

variable (path : CStr)

theorem fields_ne_nil : fields path ≠ [] := splitOn_ne_nil _ _

theorem chop_eq_laid : chop path = laid (fields path) := by
  induction path with
  | nil => rfl
  | cons x path ih =>
    have hstep : chop (x :: path) = (if x = pathSeparator then 0 else x) :: chop path := rfl
    rw [hstep, ih, fields_cons]
    split_ifs with hx
    · rfl
    · cases hf : fields path with
      | nil => exact absurd hf (fields_ne_nil path)
      | cons c cs => rfl

theorem length_fields : (fields path).length = pathDepth path + 1 := by
  induction path with
  | nil => rfl
  | cons x path ih =>
    rw [fields_cons, pathDepth, count_cons]
    split_ifs with hx hx' hx'
    · rw [length_cons, ih, pathDepth]
    · exact absurd (by simp [hx]) hx'
    · exact absurd (by simpa using hx') hx
    · rw [length_modifyHead, ih, pathDepth, Nat.add_zero]

theorem strAt_laid (before after : List CStr) {c : CStr} (h : (0 : UInt8) ∉ c) :
    strAt (laid (before ++ c :: after)) (laid before).length = c := by
  unfold strAt
  rw [laid_append, drop_left, laid_cons, takeWhile_append_of_pos]
  · simp
  · intro x hx
    rw [decide_eq_true_iff]
    exact ne_of_mem_of_not_mem hx h

theorem length_laid_concat (before : List CStr) (c : CStr) :
    (laid before).length + c.length + 1 = (laid (before ++ [c])).length := by
  simp [laid, Nat.add_assoc]

theorem pastStrings_laid {after : List CStr} : ∀ (before : List CStr), (∀ c ∈ after, (0 : UInt8) ∉ c) →
    pastStrings (laid (before ++ after)) after.length (laid before).length =
      (laid (before ++ after)).length := by
  induction after with
  | nil =>
    intro before _
    rw [append_nil]
    rfl
  | cons c after ih =>
    intro before h
    rw [length_cons, pastStrings, strAt_laid before after (h c mem_cons_self), length_laid_concat]
    have hnext := ih (before ++ [c]) fun d hd => h d (mem_cons_of_mem c hd)
    rwa [append_assoc] at hnext

/-! ### Mounting -/

def FileName (c : CStr) : Prop := Name c ∧ (0 : UInt8) ∉ c

instance : DecidablePred FileName := fun c => by unfold FileName Name; infer_instance

namespace Mounts

def mount (file : N) : List CStr → Mounts N → Mounts N
  | [] => setFile file
  | c :: cs => atChild c (mount file cs)

theorem mountFrom_laid (localRoot : N) {after : List CStr} : ∀ (before : List CStr),
    (∀ c ∈ after, FileName c) →
    mountFrom (laid (before ++ after)) ((laid (before ++ after)).length - 1) localRoot (laid before).length =
      mount localRoot after := by
  induction after with
  | nil =>
    intro before _
    unfold mountFrom
    rw [append_nil, if_pos (Nat.sub_le _ _)]
    rfl
  | cons c after ih =>
    intro before h
    have hc := h c mem_cons_self
    have hlen : (laid (before ++ c :: after)).length =
      (laid before).length + c.length + 1 + (laid after).length := by
      rw [laid_append, laid_cons]
      simp only [length_append, length_cons]
      omega
    have hpos := length_pos_iff.mpr hc.1.1
    have hnext := ih (before ++ [c]) fun d hd => h d (mem_cons_of_mem c hd)
    rw [append_assoc] at hnext
    unfold mountFrom
    rw [if_neg (by omega), strAt_laid before after hc.2, length_laid_concat, mount]
    exact congrArg (atChild c) hnext

theorem name_mount (file : N) (cs : List CStr) (t : Mounts N) : (mount file cs t).name = t.name := by
  cases t
  cases cs <;> rfl

theorem find?_updateChild {f : Mounts N → Mounts N} (hf : ∀ t, (f t).name = t.name) (name c : CStr)
    (ts : List (Mounts N)) :
    (updateChild name f ts).find? (·.name = c) =
      if c = name then some (f ((ts.find? (·.name = c)).getD (.entry name none []))) else ts.find? (·.name =
        c) := by
  induction ts with
  | nil =>
    have hn : (f (.entry name none [])).name = name := hf _
    by_cases hc : c = name
    · subst hc
      simp [updateChild, hn]
    · simp [updateChild, hn, hc, Ne.symm hc]
  | cons t ts ih =>
    unfold updateChild
    by_cases ht : t.name = name
    · rw [if_pos ht]
      by_cases hc : c = name
      · subst hc
        simp [hf, ht]
      · have hne : t.name ≠ c := fun h => hc (h.symm.trans ht)
        simp [hf, hne, hc]
    · rw [if_neg ht, List.find?_cons, List.find?_cons, ih]
      by_cases htc : t.name = c
      · have hne : c ≠ name := fun h => ht (htc.trans h)
        simp [htc, hne]
      · simp [htc]

theorem child_atChild {f : Mounts N → Mounts N} (hf : ∀ t, (f t).name = t.name) (name c : CStr)
    (t : Mounts N) :
    (t.atChild name f).child c = if c = name then some (f ((t.child c).getD (.entry name none [])))
      else t.child c := by
  cases t with
  | entry n file ts => exact find?_updateChild hf name c ts

theorem at_new (name : CStr) : ∀ cs : List CStr, (entry name none [] : Mounts N).at_ cs = none
  | [] => rfl
  | _ :: _ => rfl

theorem at_cons (t : Mounts N) (c : CStr) (cs : List CStr) : t.at_ (c :: cs) = (t.child c).bind fun t' =>
    t'.at_ cs := by
  unfold at_
  rw [find, Option.bind_assoc]

theorem at_mount (file : N) : ∀ (cs ds : List CStr) (t : Mounts N), (mount file cs t).at_ ds = if ds =
    cs then some file else t.at_ ds := by
  intro cs
  induction cs with
  | nil =>
    intro ds t
    cases t
    cases ds <;> rfl
  | cons c cs ih =>
    intro ds t
    cases ds with
    | nil =>
      cases t
      rfl
    | cons d ds =>
      rw [at_cons, mount, child_atChild (name_mount file cs), at_cons]
      by_cases hd : d = c
      · subst hd
        rw [if_pos rfl, Option.bind_some, ih]
        simp only [List.cons.injEq, true_and]
        cases t.child d with
        | none => rw [Option.getD_none, at_new, Option.bind_none]
        | some t' => rfl
      · simp [hd]

end Mounts

def lastMounted (ms : List (List CStr × N)) (cs : List CStr) : Option N := (ms.reverse.find? (·.1 = cs)).map
    (·.2)

theorem lastMounted_concat (ms : List (List CStr × N)) (cs ds : List CStr) (f : N) :
    lastMounted (ms ++ [(cs, f)]) ds = if ds = cs then some f else lastMounted ms ds := by
  unfold lastMounted
  rw [reverse_concat, List.find?_cons]
  by_cases h : ds = cs
  · simp [h]
  · simp [h, Ne.symm h]

structure MountTable.Shows (v : MountTable N) (ms : List (List CStr × N)) : Prop where
  root : v.fsRoot = lastMounted ms []
  tree : ∀ cs, v.fsTree.at_ cs = lastMounted ms cs

theorem head?_joinPath (cs : List CStr) : (joinPath cs).head? = some pathSeparator := by
  cases cs <;> rfl

variable {cs : List CStr}

theorem fields_joinPath {c : CStr} (h : ∀ d ∈ c :: cs, FileName d) :
    fields (joinPath (c :: cs)) = [] :: c :: cs := fields_joined fun d hd => (h d hd).1

theorem length_chop : (chop path).length = path.length + 1 := by simp [chop]

variable [DecidableEq N]

def vfsMounts (v : MountTable N) (ms : List (CStr × N)) : Option (MountTable N) :=
  ms.foldlM (fun v m => vfsMount v m.1 m.2) v

variable {v : MountTable N}

theorem MountTable.Shows.mount {ms : List (List CStr × N)} (h : v.Shows ms)
    (hcs : ∀ c ∈ cs, FileName c) (f : N) :
    ∃ v', vfsMount v (joinPath cs) f = some v' ∧ v'.Shows (ms ++ [(cs, f)]) := by
  unfold vfsMount
  rw [if_neg (fun hn => hn (head?_joinPath cs))]
  cases cs with
  | nil =>
    refine ⟨_, if_pos rfl, ?_, fun ds => ?_⟩
    · rw [lastMounted_concat, if_pos rfl]
    · rw [lastMounted_concat, ← h.tree]
      exact Mounts.at_mount f [] ds v.fsTree
  | cons c cs =>
    have hp : chop (joinPath (c :: cs)) =
      laid ([[]] ++ c :: cs) := by rw [chop_eq_laid, fields_joinPath hcs]; rfl
    have hstr : strAt (laid ([[]] ++ c :: cs)) 1 = c := strAt_laid [[]] cs (hcs c mem_cons_self).2
    have hlen : (joinPath (c :: cs)).length = (laid ([[]] ++ c :: cs)).length - 1 := by
      rw [← hp, length_chop, Nat.add_sub_cancel]
    have hmount := Mounts.mountFrom_laid f [[]] hcs
    simp only [hp, hstr, hlen]
    rw [if_neg (hcs c mem_cons_self).1.1]
    refine ⟨_, rfl, ?_, fun ds => ?_⟩
    · rw [lastMounted_concat, if_neg (cons_ne_nil c cs).symm]
      exact h.root
    · rw [lastMounted_concat, ← h.tree]
      dsimp only
      have h1 : (laid [[]]).length = 1 := rfl
      rw [h1] at hmount
      rw [hmount]
      exact Mounts.at_mount f (c :: cs) ds v.fsTree

theorem vfsMounts_shows (refcount : N → ℤ) (ms : List (List CStr × N))
    (hms : ∀ m ∈ ms, ∀ c ∈ m.1, FileName c) :
    ∃ v, vfsMounts (vfsInstall refcount) (ms.map fun m => (joinPath m.1, m.2)) = some v ∧ v.Shows ms := by
  induction ms using List.reverseRecOn with
  | nil => exact ⟨_, rfl, rfl, fun cs => Mounts.at_new _ cs⟩
  | append_singleton ms m ih =>
    obtain ⟨v, hv, hs⟩ := ih fun m hm => hms m (mem_append_left _ hm)
    obtain ⟨v', hv', hs'⟩ := hs.mount (hms m (mem_append_right _ mem_cons_self)) m.2
    refine ⟨v', ?_, hs'⟩
    unfold vfsMounts at hv ⊢
    rw [map_append, foldlM_append, hv]
    simpa using hv'

omit [DecidableEq N]

/-! ### The search -/

/-- The search along the buffer is the search along the components. -/
theorem Mounts.searchFrom_laid {after : List CStr} : ∀ (before : List CStr) (t : Mounts N) (depth : ℕ) (f : N)
    (rest : List CStr) (k : ℕ), (∀ c ∈ after, (0 : UInt8) ∉ c) → t.searchFrom (laid (before ++ after))
      (laid (before ++ after)).length (laid before).length depth ⟨some f,
        (laid (before ++ after)).length - (laid rest).length, k⟩ =
      ⟨some (t.deepest after depth (f, rest, k)).1,
        (laid (before ++ after)).length - (laid (t.deepest after depth (f, rest, k)).2.1).length,
        (t.deepest after depth (f, rest, k)).2.2⟩ := by
  induction after with
  | nil =>
    intro before t depth f rest k _
    unfold searchFrom
    rw [append_nil, if_pos le_rfl]
    rfl
  | cons c after ih =>
    intro before t depth f rest k h
    have hlen : (laid (before ++ c :: after)).length =
      (laid (before ++ [c])).length + (laid after).length := by
      rw [← length_append, ← laid_append, append_assoc]
      rfl
    have hsnoc := length_laid_concat before c
    have hnext := ih (before ++ [c])
    rw [append_assoc] at hnext
    unfold searchFrom Mounts.deepest
    rw [if_neg (by omega), strAt_laid before after (h c mem_cons_self), hsnoc]
    cases hc : t.child c with
    | none => rfl
    | some t' =>
      have hz : ∀ d ∈ after, (0 : UInt8) ∉ d := fun d hd => h d (mem_cons_of_mem c hd)
      cases hf : t'.file with
      | none =>
        simp only [hf]
        exact hnext t' (depth + 1) f rest k hz
      | some f' =>
        simp only [hf]
        have ho : (laid (before ++ [c])).length =
          (laid (before ++ c :: after)).length - (laid after).length := by omega
        have hthis := hnext t' (depth + 1) f' after depth hz
        rw [singleton_append, ← ho] at hthis
        exact hthis

theorem deepest_child {t t' : Mounts N} {c : CStr} (hc : t.child c = some t') (cs : List CStr) (depth : ℕ)
    (last : N × List CStr × ℕ) : t.deepest (c :: cs) depth last =
      t'.deepest cs (depth + 1) ((t'.file.map fun f => (f, cs, depth)).getD last) := by
  rw [Mounts.deepest, hc]
  cases hf : t'.file <;> simp [hf]

/-- The search along the components ends at the longest prefix with a mount. -/
theorem deepest_longest : ∀ (cs : List CStr) (t : Mounts N) (depth : ℕ) (last : N × List CStr × ℕ),
    ∃ k ≤ cs.length, (∀ j, k < j → j ≤ cs.length → t.at_ (cs.take j) = none) ∧
      (k = 0 ∧ t.deepest cs depth last = last ∨
        0 < k ∧ ∃ f, t.at_ (cs.take k) = some f ∧ t.deepest cs depth last =
          (f, cs.drop k, depth + k - 1)) := by
  intro cs
  induction cs with
  | nil => exact fun t depth last => ⟨0, le_rfl, fun j h1 h2 => absurd h2 (by simp; omega), .inl ⟨rfl, rfl⟩⟩
  | cons c cs ih =>
    intro t depth last
    cases hc : t.child c with
    | none =>
      refine ⟨0, Nat.zero_le _, fun j hj _ => ?_, .inl ⟨rfl, by simp [Mounts.deepest, hc]⟩⟩
      obtain ⟨j, rfl⟩ := Nat.exists_eq_succ_of_ne_zero hj.ne'
      rw [take_succ_cons, Mounts.at_cons, hc, Option.bind_none]
    | some t' =>
      have hat : ∀ ds, t.at_ (c :: ds) = t'.at_ ds := fun ds => by rw [Mounts.at_cons, hc, Option.bind_some]
      rw [deepest_child hc]
      obtain ⟨k, hk, hnone, hfound⟩ := ih t' (depth + 1) ((t'.file.map fun f => (f, cs, depth)).getD last)
      have hbeyond : ∀ j, k + 1 < j → j ≤ (c :: cs).length → t.at_ ((c :: cs).take j) = none := by
        intro j hj hle
        obtain ⟨j, rfl⟩ := Nat.exists_eq_succ_of_ne_zero (by omega : j ≠ 0)
        rw [take_succ_cons, hat]
        exact hnone j (by omega) (by simpa using hle)
      rcases hfound with ⟨rfl, hd⟩ | ⟨hpos, f, hf, hd⟩
      · -- nothing is mounted below the child, so it is the child itself or what was found before
        cases hfile : t'.file with
        | none =>
          rw [hfile] at hd
          refine ⟨0, Nat.zero_le _, fun j hj hle => ?_, .inl ⟨rfl, hd⟩⟩
          rcases Nat.lt_or_ge 1 j with h1 | h1
          · exact hbeyond j h1 hle
          · obtain rfl : j = 1 := by omega
            rw [take_succ_cons, hat]
            exact hfile
        | some f =>
          rw [hfile] at hd
          refine ⟨1, by simp, fun j hj hle => hbeyond j hj hle, .inr ⟨Nat.one_pos, f, ?_, ?_⟩⟩
          · rw [take_succ_cons, hat]
            exact hfile
          · exact hd
      · refine ⟨k + 1, by simpa using hk, hbeyond, .inr ⟨Nat.succ_pos k, f, ?_, ?_⟩⟩
        · rw [take_succ_cons, hat]
          exact hf
        · rw [hd]
          congr 2
          omega

theorem getMountPoint_laid {root : N} (hroot : v.fsRoot = some root) {path : CStr}
    (hp : fields path = [] :: cs) (hcs : ∀ c ∈ cs, (0 : UInt8) ∉ c) :
    v.getMountPoint (chop path) (pathDepth path) 1 =
      ⟨some (v.fsTree.deepest cs 1 (root, cs, 0)).1,
        path.length + 1 - (laid (v.fsTree.deepest cs 1 (root, cs, 0)).2.1).length,
        (v.fsTree.deepest cs 1 (root, cs, 0)).2.2⟩ := by
  have hbuf : chop path = laid ([[]] ++ cs) := by rw [chop_eq_laid, hp]; rfl
  have hlen : (laid ([[]] ++ cs)).length = path.length + 1 := by rw [← hbuf, length_chop]
  have hend : pastStrings (laid ([[]] ++ cs)) (pathDepth path + 1) 0 = (laid ([[]] ++ cs)).length := by
    rw [← length_fields, hp]
    exact pastStrings_laid [] fun c hc => (mem_cons.mp hc).elim (fun h => h ▸ not_mem_nil) (hcs c)
  have hone : (laid ([[]] ++ cs)).length - (laid cs).length = 1 := by simp [laid]
  have hs := Mounts.searchFrom_laid [[]] v.fsTree 1 root cs 0 hcs
  rw [hone, hlen] at hs
  unfold MountTable.getMountPoint
  rw [hbuf, hend, hroot, hlen]
  exact hs

/-- The mount point of a path: what was last mounted at its longest prefix with a mount, which has `k`
components, and the offset of the component behind it. -/
structure LongestMount (ms : List (List CStr × N)) (cs : List CStr) (found : MountPoint N) (k : ℕ) (f : N) :
    Prop where
  le : k ≤ cs.length
  mounted : lastMounted ms (cs.take k) = some f
  longest : ∀ j, k < j → j ≤ cs.length → lastMounted ms (cs.take j) = none
  last : found.last = some f
  outdepth : found.outdepth = k
  next : ∀ h : k < cs.length, strAt (chop (joinPath cs)) found.outpath = cs[k]
  outpath : found.outpath = (joined (cs.take k)).length + 1
  past : k = cs.length → (joinPath cs).length ≤ found.outpath

theorem length_laid_eq (cs : List CStr) : (laid cs).length = (joined cs).length := by
  induction cs with
  | nil => rfl
  | cons c cs ih =>
    rw [laid_cons, joined_cons]
    simp only [length_append, length_cons, ih]
    omega

theorem joined_length_append (cs ds : List CStr) : (joined (cs ++ ds)).length =
    (joined cs).length + (joined ds).length := by
  rw [joined, flatMap_append, length_append]
  rfl

theorem MountTable.Shows.getMountPoint {ms : List (List CStr × N)} (hv : v.Shows ms) {root : N}
    (hroot : lastMounted ms [] = some root) {c : CStr} (hcs : ∀ d ∈ c :: cs, FileName d) :
    ∃ k f, LongestMount ms (c :: cs)
      (v.getMountPoint (chop (joinPath (c :: cs))) (pathDepth (joinPath (c :: cs))) 1) k f := by
  have hp := fields_joinPath hcs
  rw [getMountPoint_laid (hv.root.trans hroot) hp fun d hd => (hcs d hd).2]
  obtain ⟨k, hk, hnone, hfound⟩ := deepest_longest (c :: cs) v.fsTree 1 (root, c :: cs, 0)
  have hdeep : ∃ f, lastMounted ms ((c :: cs).take k) = some f ∧
      v.fsTree.deepest (c :: cs) 1 (root, c :: cs, 0) = (f, (c :: cs).drop k, k) := by
    rcases hfound with ⟨rfl, hd⟩ | ⟨_, f, hf, hd⟩
    · exact ⟨root, hroot, hd⟩
    · refine ⟨f, hv.tree _ ▸ hf, ?_⟩
      rw [hd, Nat.add_sub_cancel_left]
  obtain ⟨f, hf, hd⟩ := hdeep
  have hlen : (joined ((c :: cs).take k)).length + (joined ((c :: cs).drop k)).length =
    (joinPath (c :: cs)).length := by
    rw [← joined_length_append, take_append_drop]
    rfl
  have hout : (joinPath (c :: cs)).length + 1 - (laid ((c :: cs).drop k)).length =
    (joined ((c :: cs).take k)).length + 1 := by
    rw [length_laid_eq]
    omega
  rw [hd]
  refine ⟨k, f, hk, hf, fun j h1 h2 => hv.tree _ ▸ hnone j h1 h2, rfl, rfl, fun h => ?_, hout, fun h => ?_⟩
  · have hsplit : (c :: cs) = (c :: cs).take k ++ (c :: cs)[k] :: (c :: cs).drop (k + 1) := by
      rw [cons_getElem_drop_succ, take_append_drop]
    have hbefore : (laid ([] :: (c :: cs).take k)).length = (joined ((c :: cs).take k)).length + 1 := by
      rw [laid_cons, nil_append, length_cons, length_laid_eq]
    have hstr := strAt_laid ([] :: (c :: cs).take k) ((c :: cs).drop (k + 1))
      (hcs (c :: cs)[k] (getElem_mem h)).2
    rw [hbefore, cons_append, ← hsplit] at hstr
    dsimp only
    rw [hout, chop_eq_laid, hp]
    exact hstr
  · dsimp only
    rw [hout, h, take_length]
    exact Nat.le_succ _

theorem MountTable.Shows.getMountPoint_root {ms : List (List CStr × N)} (hv : v.Shows ms) {root : N}
    (hroot : lastMounted ms [] = some root) (hms : ∀ m ∈ ms, ∀ c ∈ m.1, FileName c) :
    LongestMount ms [] (v.getMountPoint (chop (joinPath [])) (pathDepth (joinPath [])) 1) 0 root := by
  have hp : fields (joinPath []) = [] :: [[]] := rfl
  have hempty : lastMounted ms [[]] = none := by
    rw [lastMounted, Option.map_eq_none_iff, List.find?_eq_none]
    intro m hm he
    have hm1 : m.1 = [[]] := by simpa using he
    exact (hms m (mem_reverse.mp hm) [] (hm1 ▸ mem_cons_self)).1.1 rfl
  have hd : v.fsTree.deepest [[]] 1 (root, [[]], 0) = (root, [[]], 0) := by
    obtain ⟨k, hk, -, ⟨rfl, hd⟩ | ⟨hpos, f, hf, -⟩⟩ := deepest_longest [[]] v.fsTree 1 (root, [[]], 0)
    · exact hd
    · obtain rfl : k = 1 := by simp at hk; omega
      rw [hv.tree, take_succ_cons, take_zero, hempty] at hf
      cases hf
  rw [getMountPoint_laid (hv.root.trans hroot) hp fun d hd => mem_singleton.mp hd ▸ not_mem_nil, hd]
  exact ⟨le_rfl, hroot, fun j h1 h2 => absurd h2 (by simp; omega), rfl, rfl, fun h => absurd h (by simp), rfl,
    fun _ => le_rfl⟩

/-- After any mounts at canonical paths, the root among them, `get_mount_point` is the longest match. -/
theorem mount_lookup_longest [DecidableEq N] (refcount : N → ℤ) (ms : List (List CStr × N))
    (hms : ∀ m ∈ ms, ∀ c ∈ m.1, FileName c) (root : N) (hroot : lastMounted ms [] = some root)
    (cs : List CStr)
    (hcs : ∀ c ∈ cs, FileName c) :
    ∃ v k f, vfsMounts (vfsInstall refcount) (ms.map fun m => (joinPath m.1, m.2)) = some v ∧
      LongestMount ms cs (v.getMountPoint (chop (joinPath cs)) (pathDepth (joinPath cs)) 1) k f := by
  obtain ⟨v, hv, hs⟩ := vfsMounts_shows refcount ms hms
  cases cs with
  | nil => exact ⟨v, 0, root, hv, hs.getMountPoint_root hroot hms⟩
  | cons c cs =>
    obtain ⟨k, f, h⟩ := hs.getMountPoint hroot hcs
    exact ⟨v, k, f, hv, h⟩

theorem mount_lookup_longest_sibling : ∃ v k f,
    vfsMounts (vfsInstall fun _ => 0) [([0x2F], 1), ([0x2F, 0x61, 0x2F, 0x62], 2), ([0x2F], 3)] = some v ∧
      LongestMount [([], 1), ([[0x61], [0x62]], 2), ([], 3)] [[0x61], [0x63]]
        (v.getMountPoint (chop [0x2F, 0x61, 0x2F, 0x63]) 2 1) k f :=
  mount_lookup_longest (fun _ => 0) [([], 1), ([[0x61], [0x62]], 2), ([], 3)] (by decide) 3 rfl [[0x61],
    [0x63]] (by decide)

end ChiffOS.Vfs
