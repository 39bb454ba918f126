import SzpontOS.Fs.Tree

/-!
# Looking names up on procfs

The directories of `fs/procfs.c`: the root with its fixed files and a directory for each process, and the fixed files
of such a directory. Every lookup makes a new node.
-/

namespace SzpontOS.Fs

def ascii (s : String) : Text := s.toList.map fun c => BitVec.ofNat 8 c.toNat

/-- The `PROCFS_TYPE_` and `PROCFS_PID_` constants of files. -/
inductive ProcfsType
  | meminfo | cpuinfo | version | uptime | stat | loadavg | mounts | filesystems | cmdline | devices | self | modules
  | dmesg | sysctl | pci | usb
  | pidStatus | pidCmdline | pidComm | pidCwd | pidExe | pidStat | pidStatm | pidMaps | pidEnviron
deriving DecidableEq, Repr

/-- A node of procfs, with the `procfs_file_data_t` of its `device_data`. -/
inductive ProcNode
  | root
  | pidDir (pid : BitVec 32)
  | file (name : Text) (type : ProcfsType) (pid : BitVec 32)
deriving DecidableEq

def procStaticEntries : List (Text × ProcfsType) :=
  [(ascii "meminfo", .meminfo), (ascii "cpuinfo", .cpuinfo), (ascii "version", .version), (ascii "uptime", .uptime),
    (ascii "stat", .stat), (ascii "loadavg", .loadavg), (ascii "mounts", .mounts),
    (ascii "filesystems", .filesystems), (ascii "cmdline", .cmdline), (ascii "devices", .devices),
    (ascii "self", .self), (ascii "modules", .modules), (ascii "dmesg", .dmesg), (ascii "kmsg", .dmesg),
    (ascii "sysctl", .sysctl), (ascii "pci", .pci), (ascii "usb", .usb)]

def procPidFiles : List (Text × ProcfsType) :=
  [(ascii "status", .pidStatus), (ascii "cmdline", .pidCmdline), (ascii "comm", .pidComm), (ascii "cwd", .pidCwd),
    (ascii "exe", .pidExe), (ascii "stat", .pidStat), (ascii "statm", .pidStatm), (ascii "maps", .pidMaps),
    (ascii "environ", .pidEnviron)]

/-- The processes that procfs asks for: the current one, and which process ids exist. -/
structure Processes where
  current : Option (BitVec 32)
  exists? : BitVec 32 → Bool

/-- The process id that a numeric name stands for, in 32 bits. -/
def pidOfName (name : Text) : BitVec 32 := name.foldl (fun pid c => pid * 10 + (c.setWidth 32 - 0x30)) 0

def procfsRootFinddir (procs : Processes) (name : Text) : Option ProcNode :=
  if name = ascii "self" then some (.pidDir (procs.current.getD 1))
  else
    match procStaticEntries.find? fun entry => entry.1 = name with
    | some (_, type) => some (.file name type 0)
    | none =>
      if name.all (fun c => 0x30 ≤ c && c ≤ 0x39) ∧ name ≠ [] ∧ procs.exists? (pidOfName name) then
        some (.pidDir (pidOfName name))
      else none

def procfsPidDirFinddir (pid : BitVec 32) (name : Text) : Option ProcNode :=
  (procPidFiles.find? fun entry => entry.1 = name).map fun (_, type) => .file name type pid

/-- The operation `finddir` of a node of procfs, which files do not have. -/
def ProcNode.finddir (procs : Processes) : ProcNode → Text → Option ProcNode
  | .root, name => procfsRootFinddir procs name
  | .pidDir pid, name => procfsPidDirFinddir pid name
  | .file .., _ => none

def ProcNode.node : ProcNode → Node
  | .root | .pidDir _ => ⟨[], .directory, [], [], 0o555, 0, 0⟩
  | .file name .. => ⟨name, .file, [], [], 0o444, 0, 0⟩

end SzpontOS.Fs
