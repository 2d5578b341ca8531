import ChiffOS.Vfs.Mount

/-! `kopen_recur` after the first open, over the buffer of the path: how deep the calls nest at symbolic
links, and the base path that is rebuilt for a link. Where calls nest no deeper than the limit,
nothing else bounds them; a walk that would need more returns null. -/

namespace ChiffOS.Vfs

open List

universe u

/-- The string in a buffer ends at the first zero. -/
def cstr (buf : CStr) : CStr := buf.takeWhile (· ≠ 0)

/-- The loop that makes separators of the first zeros again; `ptr` stays at the last one. -/
def rebuildFrom : (rounds : ℕ) → (relpath : List UInt8) → (ptr : ℕ) → List UInt8
  | 0, relpath, _ => relpath
  | n + 1, relpath, ptr =>
    let ptr := ptr + (strAt relpath ptr).length
    rebuildFrom n (relpath.set ptr pathSeparator) ptr

def rebuild (path : List UInt8) (depth : ℕ) : CStr := cstr (rebuildFrom depth path 0)

variable {m : Type → Type u} [Monad m] {N : Type}

/-- Goes on with a node, returns null for null. -/
def ifFound (p : m (Option N)) (k : N → m (Option N)) : m (Option N) := p >>= fun
  | none => pure none
  | some node => k node

namespace FsTree

variable (v : FsTree m N) (flags : ℕ)

def table {m : Type → Type u} (v : FsTree m N) : MountTable N := ⟨some v.root, v.tree, fun _ => -1⟩

def openNode (node : N) : m (Option N) := do
  v.ops.openFs node flags
  pure (some node)

def behindLink (resolve : CStr → Bool → N → m (Option N)) (relpath : CStr) (last : Bool) (node : N) :
    m (Option N) :=
  if v.ops.flags node &&& fsSymlink ≠ 0 ∧ ¬ (flags &&& oNofollow ≠ 0 ∧ flags &&& oPath ≠ 0 ∧ last)
  then resolve relpath last node
  else pure (some node)

def walkBuf (resolve : CStr → Bool → N → m (Option N)) (path : List UInt8) (pathDepth depth pathOffset : ℕ)
    (node : N) :
    m (Option N) :=
  if depth < pathDepth then
    ifFound (v.ops.finddirFs node (strAt path pathOffset)) fun next =>
      ifFound (v.behindLink flags resolve (rebuild path depth) (depth = pathDepth - 1) next) fun node =>
        if depth = pathDepth - 1 then v.openNode flags node
        else walkBuf resolve path pathDepth (depth + 1) (pathOffset + (strAt path pathOffset).length + 1) node
  else pure none
termination_by pathDepth - depth

def openBuf (resolve : CStr → Bool → N → m (Option N)) (path : CStr) : m (Option N) :=
  if path.length = 1 then v.openNode flags v.root
  else
    let found := v.table.getMountPoint (chop path) (pathDepth path) 1
    match found.last with
    | none => pure none
    | some node =>
      if path.length ≤ found.outpath then v.openNode flags node
      else v.walkBuf flags resolve (chop path) (pathDepth path) found.outdepth found.outpath node

def kopenBuf : (left : ℕ) → (filename : CStr) → (flags : ℕ) → (relativeTo : CStr) → m (Option N)
  | 0, filename, flags, relativeTo =>
    v.openBuf flags (v.resolveLink flags none) (canonicalizePath (cstr relativeTo) (cstr filename))
  | left + 1, filename, flags, relativeTo =>
    v.openBuf flags (v.resolveLink flags (some fun symlinkBuf relpath => kopenBuf left symlinkBuf 0 relpath))
      (canonicalizePath (cstr relativeTo) (cstr filename))

def fallible : FsTree (OptionT m) N where
  root := v.root
  tree := v.tree
  ops :=
    { flags := v.ops.flags
      finddir := fun node => (v.ops.finddir node).map fun f name => OptionT.lift (f name)
      readlink := fun node => (v.ops.readlink node).map OptionT.lift
      openNode := fun node => (v.ops.openNode node).map fun f flags => OptionT.lift (f flags) }

/-- `kopen_recur` with its own test of `symlink_depth`, in at most so many calls one inside the other; it
gives up where it would need one more. -/
def kopenCalls : (calls : ℕ) → (filename : CStr) → (flags symlinkDepth : ℕ) → (relativeTo : CStr) → OptionT m
    (Option N)
  | 0, _, _, _, _ => failure
  | calls + 1, filename, flags, symlinkDepth, relativeTo =>
    v.fallible.openBuf flags
      (v.fallible.resolveLink flags
        (if maxSymlinkDepth ≤ symlinkDepth then none
        else some fun symlinkBuf relpath => kopenCalls calls symlinkBuf 0 (symlinkDepth + 1) relpath))
      (canonicalizePath (cstr relativeTo) (cstr filename))

/-- The walk without a limit, which gives up at a link that `depth` links one inside the other lead to. -/
def kopenUnlimited : (depth : ℕ) → (filename : CStr) → (flags : ℕ) → (relativeTo : CStr) → OptionT m
    (Option N)
  | 0, filename, flags, relativeTo =>
    v.fallible.openBuf flags
      (fun _ last _ => if flags &&& oNofollow ≠ 0 ∧ last then pure none else failure)
      (canonicalizePath (cstr relativeTo) (cstr filename))
  | depth + 1, filename, flags, relativeTo =>
    v.fallible.openBuf flags
      (v.fallible.resolveLink flags (some fun symlinkBuf relpath =>
        kopenUnlimited depth symlinkBuf 0 relpath))
      (canonicalizePath (cstr relativeTo) (cstr filename))

/-- The walk along the components, where the base path of a link is what stands before it. -/
def walkNames (resolve : CStr → Bool → N → m (Option N)) : (before names : List CStr) → N → m (Option N)
  | _, [], _ => pure none
  | before, name :: rest, node =>
    ifFound (v.ops.finddirFs node name) fun next =>
      ifFound (v.behindLink flags resolve (joined before) rest.isEmpty next) fun node =>
        if rest.isEmpty then v.openNode flags node else walkNames resolve (before ++ [name]) rest node

/-- `kopen_recur` along the components of the canonical path. -/
def openNames (resolve : CStr → Bool → N → m (Option N)) (cs : List CStr) : m (Option N) :=
  let (node, rest, depth) := v.getMountPoint cs
  if rest = [] then v.openNode flags node else v.walkNames flags resolve (cs.take depth) rest node

end FsTree

/-! ### The base path -/

theorem strAt_append {buf rest : List UInt8} (ptr : ℕ) (hz : (0 : UInt8) ∉ buf) (hp : ptr ≤ buf.length) :
    strAt (buf ++ 0 :: rest) ptr = buf.drop ptr := by
  unfold strAt
  rw [drop_append_of_le_length hp, takeWhile_append_of_pos]
  · simp
  · intro x hx
    rw [decide_eq_true_iff]
    exact ne_of_mem_of_not_mem (mem_of_mem_drop hx) hz

theorem separator_ne_zero : (0 : UInt8) ≠ pathSeparator := by decide

theorem zero_notMem_joined {cs : List CStr} (h : ∀ c ∈ cs, (0 : UInt8) ∉ c) : (0 : UInt8) ∉ joined cs := by
  intro hz
  obtain ⟨c, hc, hzc⟩ := mem_flatMap.mp hz
  rcases mem_cons.mp hzc with h0 | h0
  · exact separator_ne_zero h0
  · exact h c hc h0

/-- What is rebuilt so far ends with the next zero, behind which the other strings lie. -/
theorem rebuildFrom_laid : ∀ (n : ℕ) (buf : List UInt8) (cs : List CStr) (ptr : ℕ), (0 : UInt8) ∉ buf →
    ptr ≤ buf.length →
    (∀ c ∈ cs, (0 : UInt8) ∉ c) → n ≤ cs.length →
    rebuildFrom n (buf ++ 0 :: laid cs) ptr = buf ++ joined (cs.take n) ++ 0 :: laid (cs.drop n) := by
  intro n
  induction n with
  | zero =>
    intro buf cs ptr _ _ _ _
    simp [rebuildFrom, joined]
  | succ n ih =>
    intro buf cs ptr hz hp hcs hn
    cases cs with
    | nil => exact absurd hn (Nat.not_succ_le_zero n)
    | cons c cs =>
      have hptr : ptr + (strAt (buf ++ 0 :: laid (c :: cs)) ptr).length = buf.length := by
        rw [strAt_append ptr hz hp, length_drop]
        omega
      have hset : (buf ++ 0 :: laid (c :: cs)).set buf.length pathSeparator =
        (buf ++ pathSeparator :: c) ++ 0 :: laid cs := by
        rw [set_append_right _ _ le_rfl, Nat.sub_self, set_cons_zero, laid_cons]
        simp
      have hz' : (0 : UInt8) ∉ buf ++ pathSeparator :: c := by
        rw [mem_append, mem_cons]
        rintro (h | h | h)
        · exact hz h
        · exact separator_ne_zero h
        · exact hcs c mem_cons_self h
      unfold rebuildFrom
      simp only [hptr, hset]
      rw [ih _ cs buf.length hz' (by simp) (fun d hd => hcs d (mem_cons_of_mem c hd))
        (Nat.le_of_succ_le_succ hn)]
      simp [joined]

theorem rebuild_chop {path : CStr} {cs : List CStr} (hp : fields path = [] :: cs)
    (hcs : ∀ c ∈ cs, (0 : UInt8) ∉ c) {n : ℕ}
    (hn : n ≤ cs.length) : rebuild (chop path) n = joined (cs.take n) := by
  have h := rebuildFrom_laid n [] cs 0 not_mem_nil le_rfl hcs hn
  have hz : (0 : UInt8) ∉ joined (cs.take n) := zero_notMem_joined fun c hc => hcs c (mem_of_mem_take hc)
  have hbuf : chop path = 0 :: laid cs := by rw [chop_eq_laid, hp]; rfl
  rw [rebuild, hbuf, nil_append, nil_append] at *
  rw [h]
  exact strAt_append 0 hz (Nat.zero_le _)

namespace FsTree

variable (v : FsTree m N) (flags : ℕ) (resolve : CStr → Bool → N → m (Option N))

/-- The loop along the buffer is the loop along the components. -/
theorem walkBuf_names {path : CStr} {cs : List CStr} (hp : fields path = [] :: cs)
    (hcs : ∀ c ∈ cs, (0 : UInt8) ∉ c) :
    ∀ (names before : List CStr) (node : N), before ++ names = cs →
      v.walkBuf flags resolve (chop path) (pathDepth path) before.length (laid ([] :: before)).length node =
        v.walkNames flags resolve before names node := by
  have hdepth : pathDepth path = cs.length := by
    have h := length_fields path
    rw [hp, length_cons] at h
    omega
  intro names
  induction names with
  | nil =>
    intro before node h
    rw [append_nil] at h
    rw [walkBuf, hdepth, if_neg (by rw [h]; exact lt_irrefl _)]
    rfl
  | cons name rest ih =>
    intro before node h
    have hlen : cs.length = before.length + 1 + rest.length := by
      rw [← h, length_append, length_cons]
      omega
    have hstr : strAt (chop path) (laid ([] :: before)).length = name := by
      have hz : (0 : UInt8) ∉ name := hcs name (h ▸ mem_append_right _ mem_cons_self)
      have hs := strAt_laid ([] :: before) rest hz
      rwa [cons_append, h, ← hp, ← chop_eq_laid] at hs
    have hbase : rebuild (chop path) before.length = joined before := by
      rw [rebuild_chop hp hcs (by omega), ← h, take_left]
    have hlast : (decide (before.length = pathDepth path - 1)) = rest.isEmpty := by
      cases rest with
      | nil => simp [hdepth, hlen]
      | cons c rest =>
        rw [length_cons] at hlen
        simp only [isEmpty_cons, decide_eq_false_iff_not]
        omega
    have hiff : before.length = pathDepth path - 1 ↔ rest.isEmpty =
      true := by rw [← hlast, decide_eq_true_iff]
    have hnext : (laid ([] :: before)).length + name.length + 1 = (laid ([] :: (before ++ [name]))).length :=
      length_laid_concat ([] :: before) name
    rw [walkBuf, if_pos (by omega), walkNames, hstr, hbase, hlast, hnext]
    simp only [hiff]
    congr 1
    funext next
    congr 1
    funext node
    have hrest := ih (before ++ [name]) node (by rw [append_assoc]; exact h)
    rw [length_append, length_singleton] at hrest
    rw [hrest]

omit [Monad m] in
theorem getMountPoint_drop (cs : List CStr) :
    ∃ k ≤ cs.length, (v.getMountPoint cs).2.1 = cs.drop k ∧ (v.getMountPoint cs).2.2 = k := by
  obtain ⟨k, hk, -, ⟨rfl, h⟩ | ⟨-, f, -, h⟩⟩ := deepest_longest cs v.tree 1 (v.root, cs, 0)
  · refine ⟨0, Nat.zero_le _, ?_⟩
    rw [getMountPoint, h]
    exact ⟨rfl, rfl⟩
  · refine ⟨k, hk, ?_⟩
    rw [getMountPoint, h]
    exact ⟨rfl, Nat.add_sub_cancel_left _ _⟩

/-- On a canonical path `kopen_recur` goes along the components from the mount point on. -/
theorem openBuf_names {cs : List CStr} (hcs : ∀ c ∈ cs, FileName c) :
    v.openBuf flags resolve (joinPath cs) = v.openNames flags resolve cs := by
  cases cs with
  | nil => rfl
  | cons c cs =>
    have hp := fields_joinPath hcs
    have hz : ∀ d ∈ c :: cs, (0 : UInt8) ∉ d := fun d hd => (hcs d hd).2
    have hne : (joinPath (c :: cs)).length ≠ 1 := joined_length_ne_one (hcs c mem_cons_self).1
    have hfound := getMountPoint_laid (v := v.table) rfl hp hz
    obtain ⟨k, hk, hrest, hdepth⟩ := v.getMountPoint_drop (c :: cs)
    change v.table.getMountPoint _ _ 1 = ⟨some (v.getMountPoint (c :: cs)).1,
      (joinPath (c :: cs)).length + 1 - (laid (v.getMountPoint (c :: cs)).2.1).length,
        (v.getMountPoint (c :: cs)).2.2⟩ at hfound
    have hlen : (laid ([] :: (c :: cs).take k)).length + (laid ((c :: cs).drop k)).length =
      (joinPath (c :: cs)).length + 1 := by
      rw [← length_append, ← laid_append, cons_append, take_append_drop, ← hp, ← chop_eq_laid, length_chop]
    have hout : (joinPath (c :: cs)).length + 1 - (laid ((c :: cs).drop k)).length =
      (laid ([] :: (c :: cs).take k)).length := by
      omega
    have hdone : (joinPath (c :: cs)).length ≤ (laid ([] :: (c :: cs).take k)).length ↔ (c :: cs).drop k =
      [] := by
      cases hd : (c :: cs).drop k with
      | nil =>
        rw [hd] at hlen
        have h0 : (laid []).length = 0 := rfl
        simp only [iff_true]
        omega
      | cons d ds =>
        have hpos := length_pos_iff.mpr (hcs d (mem_of_mem_drop (hd ▸ mem_cons_self))).1.1
        have hds : (laid (d :: ds)).length = d.length + 1 + (laid ds).length := by
          rw [laid_cons, length_append, length_cons]
          omega
        rw [hd, hds] at hlen
        simp only [reduceCtorEq, iff_false]
        omega
    unfold openBuf openNames
    rw [if_neg hne, hfound]
    simp only [hrest, hdepth, hout, hdone]
    congr 1
    have hwalk := walkBuf_names v flags resolve hp hz ((c :: cs).drop k) ((c :: cs).take k)
      (v.getMountPoint (c :: cs)).1 (take_append_drop k _)
    rw [length_take, min_eq_left hk] at hwalk
    exact hwalk

end FsTree

/-! ### Nested calls -/

/-- A relation between programs that can give up and programs that cannot, as the walk composes them. -/
structure Bridge (R : OptionT m (Option N) → m (Option N) → Prop) : Prop where
  pure : ∀ o, R (pure o) (pure o)
  lift_bind : ∀ {β : Type} (a : m β) {k' : β → OptionT m (Option N)} {k : β → m (Option N)},
    (∀ x, R (k' x) (k x)) →
    R (OptionT.lift a >>= k') (a >>= k)
  ifFound : ∀ {p : OptionT m (Option N)} {q : m (Option N)} {k' : N → OptionT m (Option N)} {k : N → m (Option N)},
    R p q →
    (∀ node, R (k' node) (k node)) → R (ifFound p k') (ifFound q k)

theorem bridge_lift [LawfulMonad m] : Bridge fun (p : OptionT m (Option N)) q => p = OptionT.lift q where
  pure o := by simp
  lift_bind a k' k h := by
    rw [OptionT.lift_bind]
    congr 1
    funext x
    exact h x
  ifFound hp hk := by
    rw [hp, ifFound, ifFound, OptionT.lift_bind]
    congr 1
    funext o
    cases o with
    | none => simp
    | some node => exact hk node

theorem bridge_join [LawfulMonad m] : Bridge fun (p : OptionT m (Option N)) q => Option.join <$> p.run =
    q where
  pure o := by simp
  lift_bind a k' k h := by
    simp [h]
  ifFound hp hk := by
    rw [← hp, ifFound, ifFound, OptionT.run_bind, Option.elimM, map_bind, bind_map_left]
    congr 1
    funext o
    rcases o with _ | _ | node
    · simp
    · simp
    · exact hk node

namespace FsTree

variable {R : OptionT m (Option N) → m (Option N) → Prop} (hR : Bridge R) (v : FsTree m N) (flags : ℕ)
  {resolve' : CStr → Bool → N → OptionT m (Option N)} {resolve : CStr → Bool → N → m (Option N)}

theorem finddirFs_fallible [LawfulMonad m] (node : N) (name : CStr) :
    v.fallible.ops.finddirFs node name = OptionT.lift (v.ops.finddirFs node name) := by
  unfold NodeOps.finddirFs fallible
  dsimp only
  split_ifs
  · cases v.ops.finddir node <;> simp
  · simp

theorem readlinkFs_fallible [LawfulMonad m] (node : N) :
    v.fallible.ops.readlinkFs node = OptionT.lift (v.ops.readlinkFs node) := by
  unfold NodeOps.readlinkFs fallible
  dsimp only
  cases v.ops.readlink node <;> simp

theorem openFs_fallible [LawfulMonad m] (node : N) : v.fallible.ops.openFs node flags = OptionT.lift
    (v.ops.openFs node flags) := by
  unfold NodeOps.openFs fallible
  dsimp only
  cases v.ops.openNode node <;> simp

include hR

theorem openNode_bridge [LawfulMonad m] (node : N) : R (v.fallible.openNode flags node)
    (v.openNode flags node) := by
  unfold openNode
  rw [openFs_fallible]
  exact hR.lift_bind _ fun _ => hR.pure _

theorem behindLink_bridge {relpath : CStr} {last : Bool} {node : N}
    (h : R (resolve' relpath last node) (resolve relpath last node)) :
    R (v.fallible.behindLink flags resolve' relpath last node)
      (v.behindLink flags resolve relpath last node) := by
  have hflags : v.fallible.ops.flags = v.ops.flags := rfl
  unfold behindLink
  rw [hflags]
  split_ifs
  · exact h
  · exact hR.pure _

theorem walkBuf_bridge [LawfulMonad m]
    (h : ∀ relpath last node, R (resolve' relpath last node) (resolve relpath last node))
    (path : List UInt8) (pathDepth : ℕ) : ∀ (n depth pathOffset : ℕ) (node : N), pathDepth - depth = n →
      R (v.fallible.walkBuf flags resolve' path pathDepth depth pathOffset node)
        (v.walkBuf flags resolve path pathDepth depth pathOffset node) := by
  intro n
  induction n with
  | zero =>
    intro depth pathOffset node hn
    rw [walkBuf, walkBuf, if_neg (by omega), if_neg (by omega)]
    exact hR.pure none
  | succ n ih =>
    intro depth pathOffset node hn
    rw [walkBuf, walkBuf, if_pos (by omega), if_pos (by omega), finddirFs_fallible]
    refine hR.lift_bind _ fun found => ?_
    cases found with
    | none => exact hR.pure none
    | some next =>
      apply hR.ifFound
      · exact behindLink_bridge hR v flags (h _ _ _)
      · intro node
        split_ifs
        · exact openNode_bridge hR v flags node
        · exact ih _ _ _ (by omega)

theorem openBuf_bridge [LawfulMonad m]
    (h : ∀ relpath last node, R (resolve' relpath last node) (resolve relpath last node))
    (path : CStr) : R (v.fallible.openBuf flags resolve' path) (v.openBuf flags resolve path) := by
  unfold openBuf
  have htable : v.fallible.table = v.table := rfl
  rw [htable]
  split_ifs
  · exact openNode_bridge hR v flags v.root
  · dsimp only
    cases (v.table.getMountPoint (chop path) (pathDepth path) 1).last with
    | none => exact hR.pure none
    | some node =>
      dsimp only
      split_ifs
      · exact openNode_bridge hR v flags node
      · exact walkBuf_bridge hR v flags h _ _ _ _ _ _ rfl

theorem resolveLink_bridge [LawfulMonad m] {follow' : CStr → CStr → OptionT m (Option N)}
    {follow : CStr → CStr → m (Option N)}
    (h : ∀ symlinkBuf relpath, R (follow' symlinkBuf relpath) (follow symlinkBuf relpath)) (relpath : CStr)
      (last : Bool)
    (node : N) : R (v.fallible.resolveLink flags (some follow') relpath last node)
      (v.resolveLink flags (some follow) relpath last node) := by
  unfold resolveLink
  split_ifs
  · exact hR.pure none
  · dsimp only
    rw [readlinkFs_fallible]
    refine hR.lift_bind _ fun found => ?_
    cases found with
    | none => exact hR.pure none
    | some symlinkBuf => exact h _ _

theorem resolveLink_none_bridge (relpath : CStr) (last : Bool) (node : N) :
    R (v.fallible.resolveLink flags none relpath last node) (v.resolveLink flags none relpath last node) := by
  unfold resolveLink
  split_ifs
  · exact hR.pure none
  · exact hR.pure none

omit hR

/-- So many calls are enough, whatever the file system is. -/
theorem kopenCalls_eq [LawfulMonad m] :
    ∀ (calls symlinkDepth : ℕ) (filename : CStr) (flags : ℕ) (relativeTo : CStr),
    maxSymlinkDepth - symlinkDepth < calls → v.kopenCalls calls filename flags symlinkDepth relativeTo =
      OptionT.lift (v.kopenBuf (maxSymlinkDepth - symlinkDepth) filename flags relativeTo) := by
  intro calls
  induction calls with
  | zero => exact fun _ _ _ _ h => absurd h (Nat.not_lt_zero _)
  | succ calls ih =>
    intro symlinkDepth filename flags relativeTo h
    unfold kopenCalls
    by_cases hmax : maxSymlinkDepth ≤ symlinkDepth
    · rw [if_pos hmax, Nat.sub_eq_zero_of_le hmax, kopenBuf]
      exact openBuf_bridge bridge_lift v flags (resolveLink_none_bridge bridge_lift v flags) _
    · obtain ⟨left, hleft⟩ : ∃ left, maxSymlinkDepth - symlinkDepth = left + 1 :=
        ⟨_, (Nat.succ_pred_eq_of_pos (by omega)).symm⟩
      rw [if_neg hmax, hleft, kopenBuf]
      refine openBuf_bridge bridge_lift v flags
        (resolveLink_bridge bridge_lift v flags fun symlinkBuf relpath => ?_) _
      rw [ih (symlinkDepth + 1) symlinkBuf 0 relpath (by omega)]
      congr 2
      omega

/-- The code returns null where the walk without a limit would nest deeper. -/
theorem kopenBuf_unlimited [LawfulMonad m] : ∀ (left : ℕ) (filename : CStr) (flags : ℕ) (relativeTo : CStr),
    Option.join <$> (v.kopenUnlimited left filename flags relativeTo).run =
      v.kopenBuf left filename flags relativeTo := by
  intro left
  induction left with
  | zero =>
    intro filename flags relativeTo
    refine openBuf_bridge bridge_join v flags (fun relpath last node => ?_) _
    unfold resolveLink
    split_ifs
    · exact bridge_join.pure none
    · simp
  | succ left ih =>
    intro filename flags relativeTo
    exact openBuf_bridge bridge_join v flags (resolveLink_bridge bridge_join v flags fun _ _ => ih _ _ _) _

/-! ### The walk over fields -/

omit [Monad m] in
theorem relpath_joined {cs : List CStr} (h : ∀ c ∈ cs, Name c) (depth : ℕ) :
    relpath (joined cs) depth = joined (cs.take depth) := by
  rw [relpath, fields_joined h, take_succ_cons, joined_eq_intercalate]

theorem walk_names [LawfulMonad m] (follow : Option (CStr → CStr → m (Option N))) {cs : List CStr}
    (hcs : ∀ c ∈ cs, Name c) :
    ∀ (names before : List CStr) (node : N), before ++ names = cs →
      v.walk flags follow (joined cs) names before.length node =
        v.walkNames flags (v.resolveLink flags follow) before names node := by
  intro names
  induction names with
  | nil => exact fun _ _ _ => rfl
  | cons name rest ih =>
    intro before node h
    have hrest : ∀ node, v.walk flags follow (joined cs) rest (before.length + 1) node =
        v.walkNames flags (v.resolveLink flags follow) (before ++ [name]) rest node := by
      intro node
      have hr := ih (before ++ [name]) node (by rw [append_assoc]; exact h)
      rwa [length_append, length_singleton] at hr
    have hbase : relpath (joined cs) before.length =
      joined before := by rw [relpath_joined hcs, ← h, take_left]
    rw [walk, walkNames, ifFound, hbase]
    congr 1
    funext found
    cases found with
    | none => rfl
    | some next =>
      unfold behindLink ifFound
      simp only [hrest]
      by_cases hlink : v.ops.flags next &&& fsSymlink ≠ 0 ∧
        ¬ (flags &&& oNofollow ≠ 0 ∧ flags &&& oPath ≠ 0 ∧ rest.isEmpty = true)
      · simp only [if_pos hlink]
        rfl
      · simp only [if_neg hlink, pure_bind]
        rfl

theorem openPath_names [LawfulMonad m] (follow : Option (CStr → CStr → m (Option N))) {cs : List CStr}
    (hcs : ∀ c ∈ cs, Name c) :
    v.openPath flags follow (joinPath cs) = v.openNames flags (v.resolveLink flags follow) cs := by
  cases cs with
  | nil => rfl
  | cons c cs =>
    have hne : (joinPath (c :: cs)).length ≠ 1 := joined_length_ne_one (hcs c mem_cons_self)
    have hpath : joinPath (c :: cs) ≠ [] := cons_ne_nil _ _
    have hdrop : fields ((joinPath (c :: cs)).drop 1) = c :: cs := fields_drop_joined hcs
    have hfields : fields (joinPath (c :: cs)) = [] :: c :: cs := fields_joined hcs
    obtain ⟨k, hk, hrest, hdepth⟩ := v.getMountPoint_drop (c :: cs)
    have hempty : (c :: cs).drop k = [[]] → False := fun h =>
      (hcs [] (mem_of_mem_drop (h ▸ mem_cons_self))).1 rfl
    unfold openPath openNames
    rw [if_neg hne, if_neg hpath, hdrop, hfields]
    simp only [hrest, hdepth, length_cons, Nat.add_sub_cancel]
    by_cases hd : (c :: cs).drop k = []
    · rw [if_pos (.inl hd), if_pos hd]
      rfl
    · rw [if_neg (fun h => h.elim hd hempty), if_neg hd, take_of_length_le (by simp)]
      have hwalk := walk_names v flags follow hcs ((c :: cs).drop k) ((c :: cs).take k)
        (v.getMountPoint (c :: cs)).1 (take_append_drop k _)
      rw [length_take, min_eq_left hk] at hwalk
      exact hwalk

/-- The walk over the buffer is the walk over the fields. -/
theorem openBuf_eq_openPath [LawfulMonad m] (follow : Option (CStr → CStr → m (Option N))) {cs : List CStr}
    (hcs : ∀ c ∈ cs, FileName c) :
    v.openBuf flags (v.resolveLink flags follow) (joinPath cs) = v.openPath flags follow (joinPath cs) := by
  rw [openBuf_names v flags _ hcs, openPath_names v flags follow fun c hc => (hcs c hc).1]

end FsTree

def linkLoop : FsTree Id Bool where
  root := false
  tree := .entry [] (some false) []
  ops :=
    { flags := fun link => if link then fsSymlink else fsDirectory
      finddir := fun _ => some fun _ => some true
      readlink := fun _ => some (some [0x61])
      openNode := fun _ => none }

def linkMounted : FsTree Id ℕ where
  root := 0
  tree := .entry [] (some 0) [.entry [0x6D] (some 1) []]
  ops :=
    { flags := fun node => if node = 2 then fsSymlink else if node = 4 then 0 else fsDirectory
      finddir := fun node => some fun name =>
        [((1, [0x6C]), 2), ((1, [0x64]), 3), ((3, [0x78]), 4)].lookup (node, name)
      readlink := fun _ => some (some [0x64])
      openNode := fun _ => none }

theorem openBuf_mounted :
    linkMounted.openBuf 0 (linkMounted.resolveLink 0 (some fun f r => linkMounted.kopenRecur 7 false f 0 r))
        (joinPath [[0x6D], [0x6C], [0x78]]) =
      linkMounted.openPath 0 (some fun f r => linkMounted.kopenRecur 7 false f 0 r)
        (joinPath [[0x6D], [0x6C], [0x78]]) ∧
    linkMounted.openPath 0 (some fun f r => linkMounted.kopenRecur 7 false f 0 r)
      (joinPath [[0x6D], [0x6C], [0x78]]) =
      some (4 : ℕ) :=
  ⟨linkMounted.openBuf_eq_openPath 0 _ (by decide), rfl⟩

end ChiffOS.Vfs
