import ChiffOS.Vfs.Path

/-! The walk of `vfs.c` from a path to a node: the mount tree, the driver functions of a node, and
`kopen_recur` with the symbolic links. The drivers run in a monad of their own. -/

namespace ChiffOS.Vfs

universe u

def oNofollow : ℕ := 0x1000
def oPath : ℕ := 0x2000
def fsDirectory : ℕ := 0x02
def fsSymlink : ℕ := 0x20
def maxSymlinkDepth : ℕ := 8

/-- The fields of `fs_node_t` that the walk uses; a function is missing where the pointer is null. What
`readlink` gives is the string in the buffer, nothing where it fails or leaves no zero at the end. -/
structure NodeOps (m : Type → Type u) (N : Type) where
  flags : N → ℕ
  finddir : N → Option (CStr → m (Option N))
  readlink : N → Option (m (Option CStr))
  openNode : N → Option (ℕ → m Unit)

/-- A node of `fs_tree`, whose entry has a file where something is mounted. -/
inductive Mounts (N : Type) where
  | entry (name : CStr) (file : Option N) (children : List (Mounts N))

namespace Mounts

variable {N : Type}

def name : Mounts N → CStr
  | entry n _ _ => n

def file : Mounts N → Option N
  | entry _ f _ => f

def children : Mounts N → List (Mounts N)
  | entry _ _ cs => cs

def child (t : Mounts N) (name : CStr) : Option (Mounts N) := t.children.find? (·.name = name)

/-- The loop of `get_mount_point` over the path's components: the node, what is left of the path behind
its mount point, and how many components that takes. -/
def deepest : Mounts N → (at_ : List CStr) → (depth : ℕ) → N × List CStr × ℕ → N × List CStr × ℕ
  | _, [], _, last => last
  | t, name :: rest, depth, last =>
    match t.child name with
    | none => last
    | some c =>
      c.deepest rest (depth + 1) (match c.file with
        | some f => (f, rest, depth)
        | none => last)

def find : Mounts N → List CStr → Option (Mounts N)
  | t, [] => some t
  | t, c :: cs => (t.child c).bind fun t' => t'.find cs

/-- What is mounted at the path. -/
def at_ (t : Mounts N) (cs : List CStr) : Option N := (t.find cs).bind file

end Mounts

/-- `fs_root`, `fs_tree` and the driver functions of the nodes. -/
structure FsTree (m : Type → Type u) (N : Type) where
  root : N
  tree : Mounts N
  ops : NodeOps m N

variable {m : Type → Type u} [Monad m] {N : Type}

namespace NodeOps

variable (ops : NodeOps m N)

def finddirFs (node : N) (name : CStr) : m (Option N) :=
  if ops.flags node &&& fsDirectory ≠ 0 then
    match ops.finddir node with
    | some f => f name
    | none => pure none
  else pure none

def readlinkFs (node : N) : m (Option CStr) :=
  match ops.readlink node with
  | some f => f
  | none => pure none

def openFs (node : N) (flags : ℕ) : m Unit :=
  match ops.openNode node with
  | some f => f flags
  | none => pure ()

end NodeOps

namespace FsTree

def getMountPoint {m : Type → Type u} (v : FsTree m N) (at_ : List CStr) : N × List CStr × ℕ :=
  v.tree.deepest at_ 1 (v.root, at_, 0)

def relpath (path : CStr) (depth : ℕ) : CStr := [pathSeparator].intercalate ((fields path).take (depth + 1))

variable (v : FsTree m N) (flags : ℕ)

/-- A symbolic link on the way. `follow` is the call of `kopen_recur` on the target, missing at the
maximal depth. -/
def resolveLink (follow : Option (CStr → CStr → m (Option N))) (relpath : CStr) (last : Bool) (node : N) :
    m (Option N) :=
  if flags &&& oNofollow ≠ 0 ∧ last then pure none
  else match follow with
  | none => pure none
  | some follow => do
    match ← v.ops.readlinkFs node with
    | none => pure none
    | some symlinkBuf => follow symlinkBuf relpath

/-- The loop of `kopen_recur` over the components from `depth` on. -/
def walk (follow : Option (CStr → CStr → m (Option N))) (path : CStr) : List CStr → (depth : ℕ) → N →
    m (Option N)
  | [], _, _ => pure none
  | name :: rest, depth, node => do
    match ← v.ops.finddirFs node name with
    | none => pure none
    | some next =>
      let last := rest.isEmpty
      let found ← if v.ops.flags next &&& fsSymlink ≠ 0 ∧
        ¬ (flags &&& oNofollow ≠ 0 ∧ flags &&& oPath ≠ 0 ∧ last)
        then v.resolveLink flags follow (relpath path depth) last next
        else pure (some next)
      match found with
      | none => pure none
      | some node =>
        if last then do
          v.ops.openFs node flags
          pure (some node)
        else walk follow path rest (depth + 1) node

/-- `kopen_recur` from the canonical path on. A path without a separator in front, as the very first call
may have it, loses its first character. -/
def openPath (follow : Option (CStr → CStr → m (Option N))) (path : CStr) : m (Option N) :=
  if path.length = 1 then do
    v.ops.openFs v.root flags
    pure (some v.root)
  else do
    let pathDepth := (fields path).length - 1
    let (node, rest, depth) := v.getMountPoint (if path = [] then [] else fields (path.drop 1))
    if rest = [] ∨ rest = [[]] then do
      v.ops.openFs node flags
      pure (some node)
    else v.walk flags follow path (rest.take (pathDepth - depth)) depth node

def kopenRecur : (left : ℕ) → (first : Bool) → (filename : CStr) → (flags : ℕ) → (relativeTo : CStr) →
    m (Option N)
  | 0, first, filename, flags, relativeTo =>
    v.openPath flags none (if first then filename else canonicalizePath relativeTo filename)
  | left + 1, first, filename, flags, relativeTo =>
    v.openPath flags (some fun symlinkBuf relpath => kopenRecur left false symlinkBuf 0 relpath)
      (if first then filename else canonicalizePath relativeTo filename)

def kopen2 (first : Bool) (wdName filename : CStr) (flags : ℕ) : m (Option N) :=
  v.kopenRecur maxSymlinkDepth first filename flags wdName

end FsTree

end ChiffOS.Vfs
