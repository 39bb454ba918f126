import SzpontOS.Fs.Tree

/-!
# Paths and the VFS calls on a directory tree

`vfs.c` as one mounted `tmpfs` or `initramfs` sees it: paths are normalised and truncated as the buffers demand,
symbolic links are followed at most sixteen times, and each call finds the parent directory, checks permissions and
calls the file system's operation.
-/

namespace SzpontOS.Fs

def slash : BitVec 8 := 0x2f

def dot : Text := [0x2e]

def dotDot : Text := [0x2e, 0x2e]

/-- The parts of a path between its slashes, the empty ones left out. -/
def parts (path : Text) : List Text := (path.splitOn slash).filter (· ≠ [])

theorem parts_slash : parts [slash] = [] := by decide

/-- The token stack of `vfs_normalize_path`, which holds 64 entries. -/
def pushToken (tokens : List Text) (token : Text) : List Text :=
  if token = dot then tokens
  else if token = dotDot then tokens.dropLast
  else if tokens.length < 64 then tokens ++ [token]
  else tokens

/-- `vfs_normalize_path` from a buffer of 512 bytes into one of `size`. -/
def vfsNormalizePathInto (size : Nat) (src : Text) : Text :=
  match (parts (src.take 511)).foldl pushToken [] with
  | [] => [slash].take (size - 1)
  | tokens => tokens.foldl (fun dst token => (dst ++ slash :: token).take (size - 1)) []

/-- The buffers of the callers have 256 bytes. -/
def vfsNormalizePath (src : Text) : Text := vfsNormalizePathInto 256 src

/-- The path that `vfs_resolve_path` normalises, before it is cut. -/
def combined (cwd src : Text) : Text :=
  if src.head? = some slash then src else if cwd = [slash] ∨ cwd = [] then slash :: src else cwd ++ slash :: src

/-- `vfs_resolve_path` into such a buffer. -/
def vfsResolvePath (cwd src : Text) : Text := vfsNormalizePath ((combined cwd src).take 511)

/-- `parent_dir` with one more component. -/
def extendDir (dir token : Text) : Text := if dir = [slash] then slash :: token else (dir ++ slash :: token).take 255

/-- The path that a symbolic link in directory `dir` leads to, with the names that come after it. -/
def linkPath (dir target : Text) (rest : List Text) : Text :=
  let base := if target.head? = some slash then target
    else if dir = [slash] then slash :: target
    else dir ++ slash :: target
  (rest.foldl (fun path part => path ++ slash :: part) base).take 511

/-- The walk of `vfs_lookup_internal`, for any representation of the nodes. `find` goes on with what `finddir` gives,
`target` is what a link that is followed holds, and `again` the lookup of the path it leads to. -/
def walkBy {σ ρ : Type*} (find : σ → Text → (σ → ρ) → ρ) (done : σ → ρ) (target : σ → List Text → Text)
    (again : Text → ρ) : σ → Text → List Text → ρ
  | cur, _, [] => done cur
  | cur, dir, token :: rest =>
    if token = dot ∨ token = dotDot then walkBy find done target again cur dir rest
    else find cur token fun next =>
      if target next rest ≠ [] then again (linkPath dir (target next rest) rest)
      else walkBy find done target again next (extendDir dir token) rest

/-- The test of `vfs_lookup_internal` on a mount point. -/
def mountsOver (mount path : Text) : Bool :=
  mount.isPrefixOf path ∧ ((path.drop mount.length).head? = some slash ∨ path.drop mount.length = [])

/-- Where the walk for a normalised path starts: the mount point with its node, and the names below it. -/
def walkStart {ν : Type*} (root : ν) (mounts : List (Text × ν)) (norm : Text) : (Text × ν) × List Text :=
  if norm = [slash] then (([slash], root), [])
  else
    match mounts.find? fun entry => mountsOver entry.1 norm with
    | some entry => (entry, parts (norm.drop entry.1.length))
    | none => (([slash], root), parts norm)

/-- What stands before and after the last slash of an absolute path. -/
def splitLast (path : Text) : Text × Text :=
  let name := (path.reverse.takeWhile (· ≠ slash)).reverse
  let parent := path.take (path.length - name.length - 1)
  (if parent = [] then [slash] else parent, name)

/-- `vfs_split_parent`: the path of the parent and the last component, in buffers of 256 and 128 bytes. -/
def vfsSplitParent (cwd path : Text) : Text × Text :=
  let resolved := vfsResolvePath cwd path
  -- trailing slashes are stripped, but for the first
  let stripped := resolved.take 1 ++ ((resolved.drop 1).reverse.dropWhile (· = slash)).reverse
  ((splitLast stripped).1, (splitLast stripped).2.take 127)

/-- A mounted file system: what is mounted at a path, and whether that is this file system. -/
structure Vfs where
  tree : FileTree
  rootHere : Bool
  mounts : List (Text × Bool)
  cwd : Text

def vfsCheckPermission (caller : Caller) (node : Node) (mask : BitVec 32) : Bool :=
  if caller.euid = 0 then
    ¬ (mask &&& 1 ≠ 0 ∧ node.type ≠ .directory ∧ node.permissions &&& 0o111 = 0)
  else if caller.euid = node.uid then (node.permissions >>> 6) &&& 7 &&& mask = mask
  else if caller.egid = node.gid ∨ node.gid ∈ caller.groups then (node.permissions >>> 3) &&& 7 &&& mask = mask
  else node.permissions &&& 7 &&& mask = mask

namespace Vfs

variable (v : Vfs)

/-- What the walk follows: a symbolic link, unless it is the last name and those are not followed. -/
def linkTarget (follow : Bool) (next : Nat) (rest : List Text) : Text :=
  if v.tree.hasType next .symlink ∧ (follow ∨ rest ≠ []) then ((v.tree.nodes next).elim [] Node.text).take 255 else []

def walk (again : Text → Option Nat) (follow : Bool) : Nat → Text → List Text → Option Nat :=
  walkBy (fun cur token go => if v.tree.hasType cur .directory then (v.tree.finddir cur token).bind go else none) some
    (v.linkTarget follow) again

/-- `vfs_lookup_internal`; a path that leads out of the file system gives nothing. -/
def lookupInternal (follow : Bool) : Nat → Text → Option Nat
  | 0, _ => none
  | depth + 1, path =>
    let ((dir, here), names) := walkStart v.rootHere v.mounts (vfsResolvePath v.cwd path)
    if here then v.walk (lookupInternal follow depth) follow v.tree.root dir names else none

def vfsLookup (path : Text) : Option Nat := v.lookupInternal true 17 path

def parentOf (path : Text) : Text := (vfsSplitParent v.cwd (vfsResolvePath v.cwd path)).1

def entryName (path : Text) : Text := (vfsSplitParent v.cwd (vfsResolvePath v.cwd path)).2

def openParent (caller : Caller) (path : Text) : Except Int Nat :=
  match v.vfsLookup path with
  | none => .error (-2)
  | some p =>
    match v.tree.nodes p with
    | none => .error (-2)
    | some node =>
      if node.type ≠ .directory then .error (-20)
      else if vfsCheckPermission caller node 3 then .ok p else .error (-13)

def after (result : Int × FileTree) : Int × Vfs := (result.1, { v with tree := result.2 })

/-- The creating part of `sys_open`. The name is copied whole into 128 bytes; this stands for the case in which the
bytes after them are not used. -/
def sysOpenCreate (caller : Caller) (path : Text) (mode : BitVec 32) (c : Nat) : Int × Vfs :=
  let full := vfsResolvePath v.cwd path
  if (v.vfsLookup full).isSome then (-17, v)
  else
    match v.openParent caller (splitLast full).1 with
    | .error e => (e, v)
    | .ok p =>
      match v.tree.fs with
      | .tmpfs => v.after (v.tree.tmpfsDirCreate p (splitLast full).2 mode caller c)
      | .initramfs => v.after (v.tree.initramfsCreate p (splitLast full).2 mode caller c)

def vfsMkdir (caller : Caller) (path : Text) (mode : BitVec 32) (c : Nat) : Int × Vfs :=
  if path = [] then (-22, v)
  else if (v.vfsLookup (vfsResolvePath v.cwd path)).isSome then (-17, v)
  else
    match v.openParent caller (v.parentOf path) with
    | .error e => (e, v)
    | .ok p =>
      match v.tree.fs with
      | .tmpfs => v.after (v.tree.tmpfsDirMkdir p (v.entryName path) mode caller c)
      | .initramfs => v.after (v.tree.initramfsMkdir p (v.entryName path) mode caller c)

def vfsMknod (caller : Caller) (path : Text) (mode : BitVec 32) (c : Nat) : Int × Vfs :=
  if path = [] then (-22, v)
  else if (v.vfsLookup (vfsResolvePath v.cwd path)).isSome then (-17, v)
  else
    match v.openParent caller (v.parentOf path) with
    | .error e => (e, v)
    | .ok p =>
      match v.tree.fs with
      | .tmpfs => v.after (v.tree.tmpfsDirMknod p (v.entryName path) mode caller c)
      | .initramfs => v.after (v.tree.initramfsMknod p (v.entryName path) mode caller c)

def vfsSymlink (caller : Caller) (target path : Text) (c : Nat) : Int × Vfs :=
  match v.openParent caller (v.parentOf path) with
  | .error e => (e, v)
  | .ok p =>
    match v.tree.fs with
    | .tmpfs => v.after (v.tree.tmpfsDirSymlink p (v.entryName path) target caller c)
    | .initramfs => v.after (v.tree.initramfsSymlink p (v.entryName path) target caller c)

def vfsLink (caller : Caller) (oldpath newpath : Text) (c : Nat) : Int × Vfs :=
  match (v.vfsLookup (vfsResolvePath v.cwd oldpath)).bind v.tree.nodes with
  | none => (-2, v)
  | some source =>
    if source.type = .directory then (-1, v)
    else
      match v.openParent caller (v.parentOf newpath) with
      | .error e => (e, v)
      | .ok p =>
        match v.tree.fs with
        | .tmpfs => v.after (v.tree.tmpfsDirLink p source (v.entryName newpath) c)
        | .initramfs => v.after (v.tree.initramfsLink p source (v.entryName newpath) c)

def vfsUnlink (caller : Caller) (path : Text) : Int × Vfs :=
  if path = [] then (-22, v)
  else
    match v.openParent caller (v.parentOf path) with
    | .error e => (e, v)
    | .ok p =>
      match v.tree.fs with
      | .tmpfs => v.after (v.tree.tmpfsDirUnlink p (v.entryName path))
      | .initramfs => v.after (v.tree.initramfsUnlink p (v.entryName path))

def vfsRmdir (caller : Caller) (path : Text) : Int × Vfs :=
  if path = [] then (-22, v)
  else
    match v.openParent caller (v.parentOf path) with
    | .error e => (e, v)
    | .ok p =>
      match v.tree.fs with
      | .tmpfs => v.after (v.tree.tmpfsDirRmdir p (v.entryName path))
      | .initramfs => v.after (v.tree.initramfsRmdir p (v.entryName path))

/-- `vfs_rename`. Unlike the other calls it does not ask whether the parents are directories; the old one needs the
operation. -/
def vfsRename (caller : Caller) (oldpath newpath : Text) : Int × Vfs :=
  match v.vfsLookup (v.parentOf oldpath), v.vfsLookup (v.parentOf newpath) with
  | some p, some q =>
    match v.tree.nodes p, v.tree.nodes q with
    | some oldParent, some newParent =>
      if ¬ (vfsCheckPermission caller oldParent 3 ∧ vfsCheckPermission caller newParent 3) then (-13, v)
      else if oldParent.type ≠ .directory then (-1, v)
      else
        match v.tree.fs with
        | .tmpfs => v.after (v.tree.tmpfsDirRename p (v.entryName oldpath) q (v.entryName newpath))
        | .initramfs => v.after (v.tree.initramfsRename p (v.entryName oldpath) q (v.entryName newpath))
    | _, _ => (-2, v)
  | _, _ => (-2, v)

end Vfs

end SzpontOS.Fs
