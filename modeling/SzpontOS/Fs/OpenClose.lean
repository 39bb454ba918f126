import SzpontOS.Fs.Ext2
import SzpontOS.Fs.Procfs
import SzpontOS.Fs.Search
import SzpontOS.Mm.HeapCount

/-!
# `sys_open` and `sys_close`, with the heap

The name space of all mounted file systems, and the kernel heap that a lookup takes its nodes from. A node of ext2 or
procfs is made anew, with its private data, at each lookup; the other file systems are given by the table of their
nodes. The fields of the structures are kept beside the heap, which records the allocations. Creation and truncation of
files, controlling terminals and the locks that `sys_close` drops are left out.
-/

namespace SzpontOS.Fs

open SzpontOS.Lib SzpontOS.Mm Function

/-- A node: of ext2, of procfs, of an epoll instance, or of another file system. -/
inductive VNode
  | ext2 (fs : Ext2Fs) (ino : BitVec 32) (inode : Ext2Inode)
  | proc (node : ProcNode)
  | epoll (inst : Nat)
  | other (id : Nat)

def VNode.OnDemand : VNode → Prop
  | .ext2 .. | .proc _ => True
  | .epoll _ | .other _ => False

instance : DecidablePred VNode.OnDemand
  | .ext2 .. | .proc _ => isTrue trivial
  | .epoll _ | .other _ => isFalse id

/-- The mounted file systems and the calling process. `findOther` and `nodeOther` give the trees of the other file
systems, `openOther` their operation `open` with the clone that `sys_open` makes for it, and `closeOther` what
`fd_release` does to the heap for a node of theirs. -/
structure NameSpace where
  root : VNode
  mounts : List (Text × VNode)
  cwd : Text
  procs : Processes
  caller : Caller
  ctty : Option Nat
  findOther : Nat → Text → Option Nat
  nodeOther : Nat → Node
  openOther : Nat → BitVec 32 → Heap → Option (Int × Heap × Option Nat)
  closeOther : VNode → BitVec 32 → Heap → Heap

/-- The page allocator, which may answer differently for each state of the heap. -/
abbrev PageSource := Heap → Nat → Option Nat

/-- Two allocations of a node and its private data: the common part of `ext2_create_vfs_node`,
`procfs_create_file_node` and `procfs_create_pid_dir`. `kzalloc` stops the machine rather than fail. -/
def allocNode (pmm : PageSource) (dataSize : BitVec 64) (h : Heap) : Option Heap := do
  let (h, _) ← h.kzalloc (pmm h) 200
  let (h, _) ← h.kzalloc (pmm h) dataSize
  return h

namespace NameSpace

variable (ns : NameSpace) (pmm : PageSource)

/-- What `vfs_check_permission` and the walk read of a node. -/
def nodeOf : VNode → Node
  | .ext2 _ _ inode => inode.node
  | .proc node => node.node
  | .epoll _ => ⟨[], .charDevice, [], [], 0, 0, 0⟩
  | .other id => ns.nodeOther id

/-- The operation `finddir` of a node; nothing is found on a node without it. `none` is a panic. -/
def finddir (h : Heap) : VNode → Text → Option (Heap × Option VNode)
  | .ext2 fs _ inode, name =>
    match if inode.isDir then fs.lookupName inode name else none with
    | none => some (h, none)
    | some (ino, found) => (allocNode pmm 144 h).map fun h => (h, some (.ext2 fs ino found))
  | .proc node, name =>
    match node.finddir ns.procs name with
    | none => some (h, none)
    | some found => (allocNode pmm 8 h).map fun h => (h, some (.proc found))
  | .epoll _, _ => some (h, none)
  | .other id, name => some (h, (ns.findOther id name).map .other)

def linkTarget (node : VNode) : Text :=
  if (ns.nodeOf node).type = .symlink then (ns.nodeOf node).text.take 255 else []

/-- The walk of `vfs_lookup_internal`, following symbolic links. -/
def walk (again : Heap → Text → Option (Heap × Option VNode)) (h : Heap) (cur : VNode) (dir : Text)
    (names : List Text) : Option (Heap × Option VNode) :=
  let find (cur : VNode) (token : Text) (go : VNode → Heap → Option (Heap × Option VNode)) (h : Heap) :=
    match ns.finddir pmm h cur token with
    | none => none
    | some (h, none) => some (h, none)
    | some (h, some next) => go next h
  walkBy find (fun cur h => some (h, some cur)) (fun next _ => ns.linkTarget next) (fun path h => again h path) cur dir
    names h

/-- Where the walk for a path starts. -/
def startOf (path : Text) : (Text × VNode) × List Text := walkStart ns.root ns.mounts (vfsResolvePath ns.cwd path)

def lookupInternal : Nat → Heap → Text → Option (Heap × Option VNode)
  | 0, h, _ => some (h, none)
  | depth + 1, h, path =>
    let ((dir, node), names) := ns.startOf path
    ns.walk pmm (lookupInternal depth) h node dir names

def vfsLookup (h : Heap) (path : Text) : Option (Heap × Option VNode) := ns.lookupInternal pmm 17 h path

end NameSpace

structure FileDescriptor where
  node : VNode
  flags : BitVec 32
  refcount : BitVec 32

/-- `epoll_entry_t`: its descriptor, and where it stands. -/
structure InterestEntry where
  fd : Nat
  ptr : Nat

/-- What the two calls change: the heap, the open files by address, the table of the process, and the interest lists
of the epoll instances. -/
structure OpenWorld where
  heap : Heap
  files : Nat → FileDescriptor
  fds : Nat → Option Nat
  cloexec : Nat → Bool
  interest : Nat → List InterestEntry

def kernelBase : Nat := 0xffff800000000000

namespace OpenWorld

variable (w : OpenWorld)

def freeFd : Option Nat := (List.range 256).find? fun fd => (w.fds fd).isNone

def epollAt (fd : Nat) : Option Nat :=
  (w.fds fd).bind fun ptr =>
    match (w.files ptr).node with
    | .epoll inst => some inst
    | _ => none

/-- One turn of the loop of `epoll_on_fd_close`: the first entry for `fd` is unlinked and freed. -/
def dropInterest (fd inst : Nat) : OpenWorld :=
  match (w.interest inst).find? fun entry => entry.fd = fd with
  | none => w
  | some entry => { w with
      heap := w.heap.kfree (some entry.ptr)
      interest := update w.interest inst ((w.interest inst).eraseP fun entry => entry.fd = fd) }

def epollOnFdClose (fd : Nat) : OpenWorld :=
  (List.range 256).foldl (fun w i => (w.epollAt i).elim w (w.dropInterest fd)) w

end OpenWorld

namespace NameSpace

variable (ns : NameSpace) (pmm : PageSource)

/-- The node that `sys_open` finds for a resolved path; an error for `/dev/tty` without a controlling terminal. -/
def openLookup (h : Heap) (full : Text) : Option (Heap × Except Int VNode) :=
  if full = devTty then some (h, ns.ctty.elim (.error (-6)) fun id => .ok (.other id))
  else (ns.vfsLookup pmm h full).map fun (h, node) => (h, node.elim (.error (-2)) .ok)

def accessMask (flags : BitVec 32) : BitVec 32 :=
  if flags &&& 3 = 0 then 4 else if flags &&& 3 = 1 then 2 else if flags &&& 3 = 2 then 6 else 0

/-- The operation `open` of a node, which ext2, procfs and epoll do not have. -/
def openNode (flags : BitVec 32) (h : Heap) : VNode → Option (Int × Heap × Option Nat)
  | .other id => ns.openOther id flags h
  | _ => some (0, h, none)

/-- The end of `sys_open`: a descriptor for the opened node. -/
def installFd (w : OpenWorld) (node : VNode) (flags : BitVec 32) (clone : Option Nat) : Option (OpenWorld × Int) :=
  match w.freeFd with
  | none => some ({ w with heap := w.heap.kfree clone }, -1)
  | some fd =>
    match w.heap.kzalloc (pmm w.heap) 24 with
    | none => none
    | some (_, none) => none
    | some (h, some f) => some ({ w with
        heap := h
        files := update w.files f ⟨node, flags, 1⟩
        fds := update w.fds fd (some f)
        cloexec := update w.cloexec fd (flags &&& 0x80000 ≠ 0) }, fd)

/-- `sys_open` of a path that was copied from the user. -/
def sysOpen (path : Text) (flags : BitVec 32) (w : OpenWorld) : Option (OpenWorld × Int) :=
  match ns.openLookup pmm w.heap (vfsResolvePath ns.cwd path) with
  | none => none
  | some (h, .error e) => some ({ w with heap := h }, e)
  | some (h, .ok node) =>
    if flags &&& 0x40 ≠ 0 ∧ flags &&& 0x80 ≠ 0 then some ({ w with heap := h }, -17)
    else if vfsCheckPermission ns.caller (ns.nodeOf node) (accessMask flags) then
      match ns.openNode flags h node with
      | none => none
      | some (r, h, clone) =>
        if r < 0 then some ({ w with heap := h.kfree clone }, r)
        else installFd pmm { w with heap := h } node flags clone
    else some ({ w with heap := h }, -13)

def fdRelease (w : OpenWorld) (f : Nat) : OpenWorld :=
  if f < kernelBase then w
  else
    let file := { w.files f with refcount := (w.files f).refcount - 1 }
    let w := { w with files := update w.files f file }
    if file.refcount = 0 then
      let heap := match file.node with
        | .ext2 .. | .proc _ => w.heap
        | node => ns.closeOther node file.flags w.heap
      { w with heap := heap.kfree (some f) }
    else w

def sysClose (fd : Nat) (w : OpenWorld) : OpenWorld × Int :=
  if (w.fds fd).isNone ∨ 256 ≤ fd then (w, -1)
  else
    let w := w.epollOnFdClose fd
    match w.fds fd with
    | none => (w, -1)
    | some f => (ns.fdRelease { w with
        fds := update w.fds fd none
        cloexec := update w.cloexec fd false } f, 0)

end NameSpace

end SzpontOS.Fs
