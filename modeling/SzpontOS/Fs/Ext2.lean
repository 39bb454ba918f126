import SzpontOS.Fs.Tree
import SzpontOS.Lib.ByteMem

/-!
# Looking names up on ext2

The read-only part of `fs/ext2.c` that `vfs_lookup` uses: inodes, the blocks of a directory, and the search of a
directory for a name. Blocks come from the buffer cache, which may fail to read one;
an entry near the end of a block is read past it, from whatever memory follows the buffer.
-/

namespace SzpontOS.Fs

open SzpontOS.Lib

/-- `ext2_fs_t` as `ext2_mount` leaves it; `bread` is what the cache returns for a block of the device, and
`inodeTable` the field `bg_inode_table` of each group. -/
structure Ext2Fs where
  bread : BitVec 32 → Option Mem
  blockSize : Nat
  inodeSize : Nat
  inodesPerGroup : BitVec 32
  groupCount : Nat
  inodeTable : Nat → BitVec 32

/-- `ext2_inode_t`, the fields that a lookup uses. -/
structure Ext2Inode where
  mode : BitVec 16
  uid : BitVec 16
  gid : BitVec 16
  size : BitVec 32
  block : Nat → BitVec 32

/-- The little-endian 16-bit word at `a`. -/
def load16 (m : Mem) (a : Nat) : BitVec 16 := m (a + 1) ++ m a

namespace Ext2Fs

variable (fs : Ext2Fs)

def inodeAt (data : Mem) (offset : Nat) : Ext2Inode where
  mode := load16 data offset
  uid := load16 data (offset + 2)
  gid := load16 data (offset + 24)
  size := data.load32 (offset + 4)
  block := fun i => data.load32 (offset + 40 + 4 * i)

def readInode (ino : BitVec 32) : Option Ext2Inode :=
  if ino = 0 then none
  else
    let group := ((ino - 1) / fs.inodesPerGroup).toNat
    let index := ((ino - 1) % fs.inodesPerGroup).toNat
    if group ≥ fs.groupCount then none
    else
      let place := index * fs.inodeSize
      (fs.bread (fs.inodeTable group + BitVec.ofNat 32 (place / fs.blockSize))).map fun data =>
        inodeAt data (place % fs.blockSize)

/-- A pointer of an indirect block; 0 when the block cannot be read. -/
def pointerIn (block : BitVec 32) (i : Nat) : BitVec 32 :=
  if block = 0 then 0 else (fs.bread block).elim 0 fun data => data.load32 (4 * i)

/-- `ext2_get_inode_block`; `ptrs_per_block` and the capacity `doubly_cap` are 32-bit words. -/
def getInodeBlock (inode : Ext2Inode) (blockIdx : Nat) : BitVec 32 :=
  let perBlock := fs.blockSize / 4 % 2 ^ 32
  if blockIdx < 12 then inode.block blockIdx
  else if blockIdx - 12 < perBlock then fs.pointerIn (inode.block 12) (blockIdx - 12)
  else
    let rest := blockIdx - 12 - perBlock
    if rest < perBlock * perBlock % 2 ^ 32 then
      fs.pointerIn (fs.pointerIn (inode.block 13) (rest / perBlock)) (rest % perBlock)
    else 0

inductive BlockSearch
  | found (ino : BitVec 32)
  | damaged
  | next (offset : Nat)

/-- The inner loop of `ext2_finddir`, over the entries of a block; each entry is at least one byte long. -/
def searchBlock (data : Mem) (length : Nat) (name : Text) : Nat → (offset blockOffset : Nat) → BlockSearch
  | 0, offset, _ => .next offset
  | fuel + 1, offset, blockOffset =>
    if blockOffset < fs.blockSize ∧ offset < length then
      let recLen := (load16 data (blockOffset + 4)).toNat
      if recLen = 0 then .damaged
      else
        let inode := data.load32 blockOffset
        let nameLen := (data (blockOffset + 6)).toNat
        if inode ≠ 0 ∧ nameLen = name.length ∧ (List.range nameLen).map (fun i => data (blockOffset + 8 + i)) = name then
          .found inode
        else searchBlock data length name fuel (offset + recLen) (blockOffset + recLen)
    else .next offset

/-- The outer loop of `ext2_finddir`: the inode number of the entry with that name. A hole of the directory is
skipped. -/
def searchDir (inode : Ext2Inode) (name : Text) : Nat → Nat → Option (BitVec 32)
  | 0, _ => none
  | fuel + 1, offset =>
    if offset < inode.size.toNat then
      let blockOffset := offset % fs.blockSize
      let diskBlock := fs.getInodeBlock inode (offset / fs.blockSize)
      if diskBlock = 0 then searchDir inode name fuel (offset + (fs.blockSize - blockOffset))
      else
        match fs.bread diskBlock with
        | none => none
        | some data =>
          match fs.searchBlock data inode.size.toNat name fs.blockSize offset blockOffset with
          | .found ino => some ino
          | .damaged => none
          | .next offset => searchDir inode name fuel offset
    else none

/-- The inode that `ext2_finddir` makes a node for. -/
def lookupName (inode : Ext2Inode) (name : Text) : Option (BitVec 32 × Ext2Inode) :=
  (fs.searchDir inode name (inode.size.toNat + 1) 0).bind fun ino => (fs.readInode ino).map fun found => (ino, found)

end Ext2Fs

def Ext2Inode.isDir (inode : Ext2Inode) : Bool := inode.mode &&& 0xF000 = 0x4000

/-- What `vfs_check_permission` reads of the node that `ext2_create_vfs_node` makes. -/
def Ext2Inode.node (inode : Ext2Inode) : Node where
  type := if inode.isDir then .directory else .file
  permissions := (inode.mode &&& 0o7777).setWidth 32
  uid := inode.uid.toNat
  gid := inode.gid.toNat
  name := []
  text := []
  children := []

end SzpontOS.Fs
