import Mathlib.Logic.Function.Basic
import Mathlib.Tactic.Common

/-!
# Directory trees in memory

The nodes of `tmpfs` and `initramfs` and the operations of their directories. The two keep the same structure, a node
with an array of pointers to its children; where one of them checks what the other does not, it has its own definition.
The heap stops the machine rather than return `NULL`, so an operation that needs memory is given the address of the new
node.
-/

namespace SzpontOS.Fs

abbrev Text := List (BitVec 8)

/-- The type of a node, `flags` in `vfs_node_t`. -/
inductive NodeType
  | file
  | directory
  | charDevice
  | blockDevice
  | pipe
  | symlink
deriving DecidableEq, Repr

/-- A node: `vfs_node_t` with its children; `text` is the target of a symbolic link. -/
structure Node where
  name : Text
  type : NodeType
  children : List Nat
  text : Text
  permissions : BitVec 32
  uid : Nat
  gid : Nat
deriving DecidableEq

inductive TreeFs
  | tmpfs
  | initramfs
deriving DecidableEq, Repr

structure FileTree where
  fs : TreeFs
  nodes : Nat → Option Node
  root : Nat

structure Caller where
  euid : Nat
  egid : Nat
  groups : List Nat

namespace FileTree

variable (t : FileTree)

def childrenOf (p : Nat) : List Nat := (t.nodes p).elim [] Node.children

def nameOf (n : Nat) : Text := (t.nodes n).elim [] Node.name

def hasType (n : Nat) (type : NodeType) : Bool := (t.nodes n).any fun node => node.type = type

def finddir (p : Nat) (name : Text) : Option Nat := (t.childrenOf p).find? fun c => t.nameOf c = name

def modify (n : Nat) (f : Node → Node) : FileTree := { t with nodes := Function.update t.nodes n ((t.nodes n).map f) }

/-- `tmpfs_add_child` and `initramfs_add_child`. -/
def addChild (p c : Nat) : FileTree := t.modify p fun node => { node with children := node.children ++ [c] }

def addNode (p c : Nat) (node : Node) : FileTree :=
  ({ t with nodes := Function.update t.nodes c (some node) } : FileTree).addChild p c

def detach (p : Nat) (name : Text) : FileTree :=
  t.modify p fun node => { node with children := node.children.eraseP fun c => t.nameOf c = name }

def free (n : Nat) : FileTree := { t with nodes := Function.update t.nodes n none }

/-! ## New entries -/

/-- Names are copied into 128 bytes. -/
def nameLimit : Nat := 127

def tmpfsAllocNode (name : Text) (type : NodeType) (mode : BitVec 32) (caller : Caller) : Node :=
  ⟨name.take nameLimit, type, [], [], mode, caller.euid, caller.egid⟩

def createEntry (name : Text) (type : NodeType) (text : Text) (mode : BitVec 32) (uid gid : Nat) : Node :=
  ⟨name.take nameLimit, type, [], text, if mode ≠ 0 then mode else if type = .directory then 0o755 else 0o644, uid, gid⟩

/-- A new entry, unless there is one of that name already; then the operation returns `taken`. -/
def addEntry (p : Nat) (name : Text) (taken : Int) (c : Nat) (node : Node) : Int × FileTree :=
  if (t.finddir p name).isSome then (taken, t) else (0, t.addNode p c node)

def tmpfsDirCreate (p : Nat) (name : Text) (mode : BitVec 32) (caller : Caller) (c : Nat) : Int × FileTree :=
  t.addEntry p name (-17) c (tmpfsAllocNode name .file mode caller)

def initramfsCreate (p : Nat) (name : Text) (mode : BitVec 32) (caller : Caller) (c : Nat) : Int × FileTree :=
  if t.hasType p .directory then
    t.addEntry p name 0 c (createEntry name .file [] (if mode ≠ 0 then mode else 0o644) caller.euid caller.egid)
  else (-1, t)

def tmpfsDirMkdir (p : Nat) (name : Text) (mode : BitVec 32) (caller : Caller) (c : Nat) : Int × FileTree :=
  t.addEntry p name (-17) c (tmpfsAllocNode name .directory mode caller)

def initramfsMkdir (p : Nat) (name : Text) (mode : BitVec 32) (caller : Caller) (c : Nat) : Int × FileTree :=
  if t.hasType p .directory then
    t.addEntry p name 0 c (createEntry name .directory [] (if mode ≠ 0 then mode else 0o755) caller.euid caller.egid)
  else (-1, t)

/-- The node type that `mknod` makes of a mode; only `tmpfs` makes directories. -/
def mknodType (fs : TreeFs) (mode : BitVec 32) : NodeType :=
  let format := mode &&& 0o170000
  if format = 0o020000 then .charDevice
  else if format = 0o060000 then .blockDevice
  else if format = 0o010000 then .pipe
  else if format = 0o040000 ∧ fs = .tmpfs then .directory
  else .file

/-- Only the superuser makes device nodes. -/
def mknodDenied (mode : BitVec 32) (caller : Caller) : Bool :=
  (mode &&& 0o170000 = 0o020000 ∨ mode &&& 0o170000 = 0o060000) ∧ caller.euid ≠ 0

def tmpfsDirMknod (p : Nat) (name : Text) (mode : BitVec 32) (caller : Caller) (c : Nat) : Int × FileTree :=
  if (t.finddir p name).isSome then (-17, t)
  else if mknodDenied mode caller then (-1, t)
  else (0, t.addNode p c (tmpfsAllocNode name (mknodType .tmpfs mode) mode caller))

def initramfsMknod (p : Nat) (name : Text) (mode : BitVec 32) (caller : Caller) (c : Nat) : Int × FileTree :=
  if t.hasType p .directory then
    if (t.finddir p name).isSome then (-17, t)
    else if mknodDenied mode caller then (-1, t)
    else (0, t.addNode p c (createEntry name (mknodType .initramfs mode) [] (if mode ≠ 0 then mode else 0o644)
      caller.euid caller.egid))
  else (-1, t)

/-- `tmpfs_dir_symlink`, which does not look for an entry of that name. -/
def tmpfsDirSymlink (p : Nat) (name target : Text) (caller : Caller) (c : Nat) : Int × FileTree :=
  (0, t.addNode p c { tmpfsAllocNode name .symlink 0o777 caller with text := target })

/-- `initramfs_symlink`, which does not look for an entry of that name either. -/
def initramfsSymlink (p : Nat) (name target : Text) (caller : Caller) (c : Nat) : Int × FileTree :=
  if t.hasType p .directory then
    (0, t.addNode p c (createEntry name .symlink target 0o777 caller.euid caller.egid))
  else (-1, t)

/-- `tmpfs_dir_link`: the entry is a copy of the source. The target of a symbolic link has no capacity and is not
copied. -/
def tmpfsDirLink (p : Nat) (source : Node) (name : Text) (c : Nat) : Int × FileTree :=
  t.addEntry p name (-17) c { source with name := name.take nameLimit, children := [], text := [] }

/-- `initramfs_link`: the entry is a copy of the source. -/
def initramfsLink (p : Nat) (source : Node) (name : Text) (c : Nat) : Int × FileTree :=
  if t.hasType p .directory then
    t.addEntry p name (-17) c (createEntry name source.type source.text source.permissions source.uid source.gid)
  else (-1, t)

/-! ## Removal -/

def discard (p : Nat) (name : Text) (victim : Nat) : FileTree := (t.detach p name).free victim

/-- `tmpfs_dir_unlink`, which takes any entry. -/
def tmpfsDirUnlink (p : Nat) (name : Text) : Int × FileTree :=
  match t.finddir p name with
  | none => (-2, t)
  | some victim => (0, t.discard p name victim)

def initramfsUnlink (p : Nat) (name : Text) : Int × FileTree :=
  if t.hasType p .directory then
    match t.finddir p name with
    | none => (-2, t)
    | some victim =>
      if t.hasType victim .directory ∧ t.childrenOf victim ≠ [] then (-1, t) else (0, t.discard p name victim)
  else (-1, t)

/-- Removal of an empty directory; the three errors are for no such entry, no directory and not empty. -/
def removeDir (p : Nat) (name : Text) (missing notDir notEmpty : Int) : Int × FileTree :=
  match t.finddir p name with
  | none => (missing, t)
  | some victim =>
    if ¬ t.hasType victim .directory then (notDir, t)
    else if t.childrenOf victim ≠ [] then (notEmpty, t)
    else (0, t.discard p name victim)

def tmpfsDirRmdir (p : Nat) (name : Text) : Int × FileTree := t.removeDir p name (-1) (-1) (-1)

def initramfsRmdir (p : Nat) (name : Text) : Int × FileTree :=
  if t.hasType p .directory then t.removeDir p name (-2) (-20) (-39) else (-1, t)

/-! ## Renaming -/

/-- The entry is added to the new parent, and then gets its new name. -/
def settleAs (p x : Nat) (name : Text) : FileTree :=
  (t.addChild p x).modify x fun node => { node with name := name.take nameLimit }

def tmpfsDirRename (oldParent : Nat) (oldName : Text) (newParent : Nat) (newName : Text) : Int × FileTree :=
  match t.finddir oldParent oldName with
  | none => (-1, t)
  | some x => (0, ((t.detach oldParent oldName).tmpfsDirUnlink newParent newName).2.settleAs newParent x newName)

/-- `initramfs_rename`; what `initramfs_unlink` returns is not looked at. -/
def initramfsRename (oldParent : Nat) (oldName : Text) (newParent : Nat) (newName : Text) : Int × FileTree :=
  if oldParent = newParent ∧ oldName = newName then (0, t)
  else
    match t.finddir oldParent oldName with
    | none => (-2, t)
    | some x => (0, ((t.detach oldParent oldName).initramfsUnlink newParent newName).2.settleAs newParent x newName)

end FileTree

end SzpontOS.Fs
