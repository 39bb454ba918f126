import SzpontOS.Lib.Run
import SzpontOS.Fs.TreeInv
import SzpontOS.Fs.Vfs

/-!
# Runs of the directory calls

Any sequence of creating, linking, removing and renaming calls keeps a `tmpfs` or an `initramfs` a directory tree, as
long as each call is one that the file systems check for (`Vfs.Allowed`). They do not look for an entry of the same name
when they make a symbolic link, nor ask what a rename replaces or where it goes, and `tmpfs` unlinks directories with
all that is in them (`directory_tree_broken`).
-/

namespace SzpontOS.Fs

open Lib Relation List FileTree

inductive VfsCall
  | create (caller : Caller) (path : Text) (mode : BitVec 32) (c : Nat)
  | mkdir (caller : Caller) (path : Text) (mode : BitVec 32) (c : Nat)
  | mknod (caller : Caller) (path : Text) (mode : BitVec 32) (c : Nat)
  | symlink (caller : Caller) (target path : Text) (c : Nat)
  | link (caller : Caller) (oldpath newpath : Text) (c : Nat)
  | unlink (caller : Caller) (path : Text)
  | rmdir (caller : Caller) (path : Text)
  | rename (caller : Caller) (oldpath newpath : Text)

def VfsCall.newNode : VfsCall → Option Nat
  | .create _ _ _ c | .mkdir _ _ _ c | .mknod _ _ _ c | .symlink _ _ _ c | .link _ _ _ c => some c
  | .unlink _ _ | .rmdir _ _ | .rename _ _ _ => none

variable {q : Nat} {mode : BitVec 32}

namespace Vfs

def perform (v : Vfs) : VfsCall → Int × Vfs
  | .create caller path mode c => v.sysOpenCreate caller path mode c
  | .mkdir caller path mode c => v.vfsMkdir caller path mode c
  | .mknod caller path mode c => v.vfsMknod caller path mode c
  | .symlink caller target path c => v.vfsSymlink caller target path c
  | .link caller oldpath newpath c => v.vfsLink caller oldpath newpath c
  | .unlink caller path => v.vfsUnlink caller path
  | .rmdir caller path => v.vfsRmdir caller path
  | .rename caller oldpath newpath => v.vfsRename caller oldpath newpath

/-- **What the calls leave to their callers.** The name of a new file fits its buffer; a symbolic link gets a free name;
`unlink` on `tmpfs` is not for a directory with entries; and a rename goes to a directory, not below the entry itself,
and replaces nothing that has entries. -/
def Allowed (v : Vfs) : VfsCall → Prop
  | .create _ path _ _ => (splitLast (vfsResolvePath v.cwd path)).2.length ≤ nameLimit
  | .symlink caller _ path _ => ∀ p, v.openParent caller (v.parentOf path) = .ok p →
      v.tree.finddir p (v.entryName path) = none
  | .unlink caller path => v.tree.fs = .tmpfs → ∀ p x, v.openParent caller (v.parentOf path) = .ok p →
      v.tree.finddir p (v.entryName path) = some x → v.tree.childrenOf x = []
  | .rename _ oldpath newpath => ∀ p q x, v.vfsLookup (v.parentOf oldpath) = some p →
      v.vfsLookup (v.parentOf newpath) = some q → v.tree.finddir p (v.entryName oldpath) = some x →
      v.tree.hasType q .directory = true ∧ ¬ ReflTransGen v.tree.Child x q ∧
        ∀ y, v.tree.finddir q (v.entryName newpath) = some y → y ≠ x → v.tree.childrenOf y = []
  | _ => True

def Removes (v : Vfs) (call : VfsCall) (n : Nat) : Prop :=
  match call with
  | .unlink caller path | .rmdir caller path => ∃ p, v.openParent caller (v.parentOf path) = .ok p ∧
      v.tree.finddir p (v.entryName path) = some n
  | .rename _ _ newpath => ∃ q, v.vfsLookup (v.parentOf newpath) = some q ∧
      v.tree.finddir q (v.entryName newpath) = some n
  | _ => False

inductive Step : Vfs → Vfs → Prop
  | call {v : Vfs} (call : VfsCall) (hfresh : ∀ c, call.newNode = some c → v.tree.nodes c = none)
      (hallowed : v.Allowed call) : Step v (v.perform call).2
  | elsewhere {v v' : Vfs} (h : v'.tree = v.tree) : Step v v'

/-- What a call does: the tree is a tree again, and what is gone had to go and had no entries. -/
structure Keeps (v : Vfs) (call : VfsCall) (v' : Vfs) : Prop where
  wf : v'.tree.WF
  root : v'.tree.root = v.tree.root
  fate : ∀ n ∈ v.tree.live, n ∈ v'.tree.live ∨ v.Removes call n ∧ v.tree.childrenOf n = []

variable {v v' : Vfs} {call : VfsCall} {p c x : Nat} {name : Text} {node : Node} {caller : Caller} {path : Text}

theorem Keeps.same (h : v.tree.WF) (call : VfsCall) : Keeps v call v := ⟨h, rfl, fun _ hn => .inl hn⟩

theorem openParent_dir (h : v.openParent caller path = .ok p) : v.tree.hasType p .directory = true := by
  unfold openParent at h
  split at h
  · exact absurd h (by simp)
  · split at h
    · exact absurd h (by simp)
    · rename_i node hnode
      split_ifs at h with hdir hperm
      injection h with h
      rw [← h, hasType, hnode]
      simpa using hdir

theorem name_tmpfsAllocNode (name : Text) (type : NodeType) (mode : BitVec 32) (caller : Caller) :
    (tmpfsAllocNode name type mode caller).name = name.take nameLimit := rfl

theorem name_createEntry (name : Text) (type : NodeType) (text : Text) (mode : BitVec 32) (uid gid : Nat) :
    (createEntry name type text mode uid gid).name = name.take nameLimit := rfl

theorem length_entryName (v : Vfs) (path : Text) : (v.entryName path).length ≤ nameLimit := by
  simp only [entryName, vfsSplitParent, length_take]
  exact Nat.min_le_left ..

section

variable (h : v.tree.WF) (call : VfsCall) (hp : v.tree.hasType p .directory = true) (hc : v.tree.nodes c = none)

include h hp hc

theorem Keeps.addNode (hfree : v.tree.finddir p name = none) (hfits : name.length ≤ nameLimit)
    (hname : node.name = name.take nameLimit) (hleaf : node.children = []) :
    Keeps v call { v with tree := v.tree.addNode p c node } := by
  rw [take_of_length_le hfits] at hname
  refine ⟨h.addNode hp hc hfree hname hleaf, rfl, fun n hn => .inl ?_⟩
  rw [live_addNode (live_of_hasType hp) hc]
  exact Set.mem_insert_of_mem c hn

theorem Keeps.addSpecial (hfits : name.length ≤ nameLimit) (hname : node.name = name.take nameLimit)
    (hleaf : node.children = []) (denied : Bool) :
    Keeps v call (v.after (if (v.tree.finddir p name).isSome then (-17, v.tree)
      else if denied then (-1, v.tree) else (0, v.tree.addNode p c node))).2 := by
  split_ifs with hsome
  · exact .same h call
  · exact .same h call
  · exact .addNode h call hp hc (by simpa using hsome) hfits hname hleaf

theorem Keeps.addEntry (hfits : name.length ≤ FileTree.nameLimit) (taken : Int)
    (hname : node.name = name.take FileTree.nameLimit) (hleaf : node.children = []) :
    Keeps v call (v.after (v.tree.addEntry p name taken c node)).2 := by
  unfold FileTree.addEntry
  split_ifs with hsome
  · exact .same h call
  · exact .addNode h call hp hc (by simpa using hsome) hfits hname hleaf

end

theorem Keeps.discard (h : v.tree.WF) (hfind : v.tree.finddir p name = some x) (hleaf : v.tree.childrenOf x = [])
    (hdrops : v.Removes call x) : Keeps v call { v with tree := v.tree.discard p name x } := by
  obtain ⟨hwf, hlive⟩ := h.discard hfind hleaf
  refine ⟨hwf, rfl, fun n hn => ?_⟩
  by_cases hnx : n = x
  · rw [hnx]
    exact .inr ⟨hdrops, hleaf⟩
  · exact .inl ((hlive n).mpr ⟨hn, hnx⟩)

theorem Keeps.removeDir (h : v.tree.WF) (hdrops : ∀ x, v.tree.finddir p name = some x → v.Removes call x)
    (missing notDir notEmpty : Int) : Keeps v call (v.after (v.tree.removeDir p name missing notDir notEmpty)).2 := by
  unfold FileTree.removeDir
  rcases hfind : v.tree.finddir p name with _ | x
  · exact .same h call
  · dsimp only
    split_ifs with hdir hemp
    · exact .same h call
    · exact .discard h hfind (by simpa using hemp) (hdrops x hfind)
    · exact .same h call

/-! ## The calls -/

/-- Where the replaced entry has no entries, `initramfs_unlink` does what `tmpfs_dir_unlink` does. -/
theorem initramfsUnlink_eq {t : FileTree} (hq : t.hasType q .directory = true)
    (hleaf : ∀ y, t.finddir q name = some y → t.childrenOf y = []) :
    t.initramfsUnlink q name = t.tmpfsDirUnlink q name := by
  unfold initramfsUnlink tmpfsDirUnlink
  rw [if_pos hq]
  rcases hfind : t.finddir q name with _ | y
  · rfl
  · dsimp only
    rw [if_neg]
    exact fun hfull => hfull.2 (hleaf y hfind)

section Calls

variable (h : v.tree.WF)

include h

section

variable (hc : v.tree.nodes c = none)

include hc

theorem Keeps.create (hmay : v.Allowed (.create caller path mode c)) :
    Keeps v (.create caller path mode c) (v.sysOpenCreate caller path mode c).2 := by
  unfold sysOpenCreate
  dsimp only
  split_ifs
  · exact .same h _
  · split
    · exact .same h _
    · rename_i p hp
      have hdir := openParent_dir hp
      have hfits : (splitLast (vfsResolvePath v.cwd path)).2.length ≤ nameLimit := hmay
      split
      · exact .addEntry h _ hdir hc hfits _ (name_tmpfsAllocNode ..) rfl
      · unfold initramfsCreate
        rw [if_pos hdir]
        exact .addEntry h _ hdir hc hfits _ (name_createEntry ..) rfl

theorem Keeps.mkdir : Keeps v (.mkdir caller path mode c) (v.vfsMkdir caller path mode c).2 := by
  unfold vfsMkdir
  split_ifs
  · exact .same h _
  · exact .same h _
  · split
    · exact .same h _
    · rename_i p hp
      have hdir := openParent_dir hp
      split
      · exact .addEntry h _ hdir hc (length_entryName v path) _ (name_tmpfsAllocNode ..) rfl
      · unfold initramfsMkdir
        rw [if_pos hdir]
        exact .addEntry h _ hdir hc (length_entryName v path) _ (name_createEntry ..) rfl

theorem Keeps.mknod : Keeps v (.mknod caller path mode c) (v.vfsMknod caller path mode c).2 := by
  unfold vfsMknod
  split_ifs
  · exact .same h _
  · exact .same h _
  · split
    · exact .same h _
    · rename_i p hp
      have hdir := openParent_dir hp
      split
      · exact .addSpecial h _ hdir hc (length_entryName v path) (name_tmpfsAllocNode ..) rfl _
      · unfold initramfsMknod
        rw [if_pos hdir]
        exact .addSpecial h _ hdir hc (length_entryName v path) (name_createEntry ..) rfl _

theorem Keeps.symlink {target : Text} (hmay : v.Allowed (.symlink caller target path c)) :
    Keeps v (.symlink caller target path c) (v.vfsSymlink caller target path c).2 := by
  unfold vfsSymlink
  split
  · exact .same h _
  · rename_i p hp
    have hdir := openParent_dir hp
    have hfree : v.tree.finddir p (v.entryName path) = none := hmay p hp
    split
    · refine .addNode h _ hdir hc hfree (length_entryName v path) ?_ ?_
      · dsimp only
        exact name_tmpfsAllocNode ..
      · rfl
    · unfold initramfsSymlink
      rw [if_pos hdir]
      exact .addNode h _ hdir hc hfree (length_entryName v path) (name_createEntry ..) rfl

theorem Keeps.link {oldpath : Text} : Keeps v (.link caller oldpath path c) (v.vfsLink caller oldpath path c).2 := by
  unfold vfsLink
  split
  · exact .same h _
  · split_ifs
    · exact .same h _
    · split
      · exact .same h _
      · rename_i p hp
        have hdir := openParent_dir hp
        split
        · refine .addEntry h _ hdir hc (length_entryName v path) _ ?_ ?_ <;> dsimp only
        · unfold initramfsLink
          rw [if_pos hdir]
          exact .addEntry h _ hdir hc (length_entryName v path) _ (name_createEntry ..) rfl

end

theorem Keeps.unlink (hmay : v.Allowed (.unlink caller path)) :
    Keeps v (.unlink caller path) (v.vfsUnlink caller path).2 := by
  unfold vfsUnlink
  split_ifs
  · exact .same h _
  · split
    · exact .same h _
    · rename_i p hp
      have hdir := openParent_dir hp
      have hdrops : ∀ x, v.tree.finddir p (v.entryName path) = some x → v.Removes (.unlink caller path) x :=
        fun x hx => ⟨p, hp, hx⟩
      split
      · rename_i hfs
        unfold tmpfsDirUnlink
        split
        · exact .same h _
        · rename_i x hx
          exact .discard h hx (hmay hfs p x hp hx) (hdrops x hx)
      · unfold initramfsUnlink
        rw [if_pos hdir]
        split
        · exact .same h _
        · rename_i x hx
          split_ifs with hfull
          · exact .same h _
          · refine .discard h hx ?_ (hdrops x hx)
            -- an entry that has entries is a directory
            by_contra hne
            obtain ⟨d, hd⟩ := exists_mem_of_ne_nil _ hne
            exact hfull ⟨h.dirs x d hd, hne⟩

theorem Keeps.rmdir : Keeps v (.rmdir caller path) (v.vfsRmdir caller path).2 := by
  unfold vfsRmdir
  split_ifs
  · exact .same h _
  · split
    · exact .same h _
    · rename_i p hp
      have hdrops : ∀ x, v.tree.finddir p (v.entryName path) = some x → v.Removes (.rmdir caller path) x :=
        fun x hx => ⟨p, hp, hx⟩
      split
      · exact .removeDir h hdrops _ _ _
      · unfold initramfsRmdir
        rw [if_pos (openParent_dir hp)]
        exact .removeDir h hdrops _ _ _

theorem Keeps.rename_entry {oldName : Text} (hfind : v.tree.finddir p oldName = some x)
    (hq : v.tree.hasType q .directory = true) (hbelow : ¬ ReflTransGen v.tree.Child x q)
    (hleaf : ∀ y, v.tree.finddir q name = some y → y ≠ x → v.tree.childrenOf y = [])
    (hfits : name.length ≤ nameLimit) (hdrops : ∀ y, v.tree.finddir q name = some y → v.Removes call y) :
    Keeps v call { v with tree := ((v.tree.detach p oldName).tmpfsDirUnlink q name).2.settleAs q x name } := by
  obtain ⟨hwf, hfate⟩ := h.rename hfind hq hbelow hleaf hfits
  refine ⟨hwf, ?_, fun n hn => ?_⟩
  · unfold tmpfsDirUnlink
    split <;> rfl
  · rcases hfate n hn with hlive | ⟨hfound, hemp⟩
    · exact .inl hlive
    · exact .inr ⟨hdrops n hfound, hemp⟩

theorem Keeps.rename {newpath : Text} (hmay : v.Allowed (.rename caller path newpath)) :
    Keeps v (.rename caller path newpath) (v.vfsRename caller path newpath).2 := by
  unfold vfsRename
  split
  · rename_i p q hp hq
    have hdrops : ∀ y, v.tree.finddir q (v.entryName newpath) = some y →
        v.Removes (.rename caller path newpath) y := fun y hy => ⟨q, hq, hy⟩
    split
    · split_ifs
      · exact .same h _
      · split
        · unfold tmpfsDirRename
          split
          · exact .same h _
          · rename_i x hx
            obtain ⟨hdir, hbelow, hleaf⟩ := hmay p q x hp hq hx
            exact .rename_entry h hx hdir hbelow hleaf (length_entryName v newpath) hdrops
        · unfold initramfsRename
          split_ifs
          · exact .same h _
          · split
            · exact .same h _
            · rename_i x hx
              obtain ⟨hdir, hbelow, hleaf⟩ := hmay p q x hp hq hx
              have hunlink : (v.tree.detach p (v.entryName path)).initramfsUnlink q (v.entryName newpath) =
                  (v.tree.detach p (v.entryName path)).tmpfsDirUnlink q (v.entryName newpath) := by
                refine initramfsUnlink_eq ((hasType_detach _).trans hdir) fun y hy => ?_
                obtain ⟨hy', hyx⟩ := h.finddir_detach hx hy
                rw [(h.detach hx).childrenOf, hleaf y hy' hyx]
                rfl
              rw [hunlink]
              exact .rename_entry h hx hdir hbelow hleaf (length_entryName v newpath) hdrops
      · exact .same h _
    · exact .same h _
  · exact .same h _

theorem Keeps.perform (call : VfsCall) (hnew : ∀ c, call.newNode = some c → v.tree.nodes c = none)
    (hmay : v.Allowed call) : Keeps v call (v.perform call).2 := by
  cases call with
  | create caller path mode c => exact .create h (hnew c rfl) hmay
  | mkdir caller path mode c => exact .mkdir h (hnew c rfl)
  | mknod caller path mode c => exact .mknod h (hnew c rfl)
  | symlink caller target path c => exact .symlink h (hnew c rfl) hmay
  | link caller oldpath newpath c => exact .link h (hnew c rfl)
  | unlink caller path => exact .unlink h hmay
  | rmdir caller path => exact .rmdir h
  | rename caller oldpath newpath => exact .rename h hmay

end Calls

/-! ## Runs -/

theorem Step.keeps (hstep : Step v v') (h : v.tree.WF) : v'.tree.WF ∧ v'.tree.root = v.tree.root := by
  cases hstep with
  | call call hnew hmay =>
    obtain ⟨hwf, hroot, -⟩ := Keeps.perform h call hnew hmay
    exact ⟨hwf, hroot⟩
  | elsewhere htree =>
    rw [htree]
    exact ⟨h, rfl⟩

/-- **Directory trees stay trees.** In every state of a run of allowed calls no node is below itself, names are unique
within each directory, and every node is reachable from the root; and the next call discards only what it was asked to
remove, which has no entries. -/
theorem directory_tree_integrity {start v : Vfs} (hstart : start.tree.WF) (hrun : ReflTransGen Step start v) :
    v.tree.root = start.tree.root ∧
    (∀ n, ¬ TransGen v.tree.Child n n) ∧
    (∀ n m x, v.tree.Child n x → v.tree.Child m x → n = m) ∧
    (∀ n x y, v.tree.Child n x → v.tree.Child n y → v.tree.nameOf x = v.tree.nameOf y → x = y) ∧
    (∀ n x, v.tree.Child n x → v.tree.hasType n .directory = true) ∧
    (∀ n ∈ v.tree.live, ReflTransGen v.tree.Child v.tree.root n) ∧
    ∀ call, (∀ c, call.newNode = some c → v.tree.nodes c = none) → v.Allowed call →
      ∀ n ∈ v.tree.live, n ∈ (v.perform call).2.tree.live ∨ v.Removes call n ∧ v.tree.childrenOf n = [] := by
  obtain ⟨h, hroot⟩ : v.tree.WF ∧ v.tree.root = start.tree.root := by
    induction hrun with
    | refl => exact ⟨hstart, rfl⟩
    | tail _ hstep ih =>
      obtain ⟨hwf, hkeep⟩ := hstep.keeps ih.1
      exact ⟨hwf, hkeep.trans ih.2⟩
  refine ⟨hroot, fun n => h.hier.acyclic, h.hier.parent, h.names, h.dirs, h.hier.reach, ?_⟩
  intro call hfresh hallowed
  exact (Keeps.perform h call hfresh hallowed).fate

def mounted (fs : TreeFs) : Vfs where
  tree := ⟨fs, Function.update (fun _ => none) 0 (some ⟨[slash], .directory, [], [], 0o755, 0, 0⟩), 0⟩
  rootHere := false
  mounts := [([0x2f, 0x74, 0x6d, 0x70], true)]
  cwd := [slash]

def superuser : Caller := ⟨0, 0, []⟩

/-- A path below `/tmp`; each name is one letter. -/
def inTmp (names : Text) : Text := [0x2f, 0x74, 0x6d, 0x70] ++ names.flatMap fun name => [slash, name]

def performAll (v : Vfs) (calls : List VfsCall) : Vfs := calls.foldl (fun v call => (v.perform call).2) v

/-- Two entries of one name. -/
def SameNames (v : Vfs) (p x y : Nat) : Prop :=
  x ∈ v.tree.childrenOf p ∧ y ∈ v.tree.childrenOf p ∧ x ≠ y ∧ v.tree.nameOf x = v.tree.nameOf y

instance (v : Vfs) (p x y : Nat) : Decidable (v.SameNames p x y) := inferInstanceAs (Decidable (_ ∧ _))

theorem wf_mounted (fs : TreeFs) : (mounted fs).tree.WF := by
  have hkids : ∀ n, (mounted fs).tree.childrenOf n = [] := by
    intro n
    by_cases hn : n = 0 <;> simp [mounted, childrenOf, hn]
  have hnot : ∀ n x, ¬ (mounted fs).tree.Child n x := by
    intro n x hx
    rw [FileTree.Child, hkids] at hx
    exact not_mem_nil hx
  have hdir : (mounted fs).tree.hasType 0 .directory = true := by
    simp [mounted, hasType]
  refine ⟨⟨live_of_hasType hdir, fun a b hab => absurd hab (hnot a b), fun a => hnot a _,
    fun a _ b hab => absurd hab (hnot a b), fun n hn => ?_⟩, fun n => ?_, fun a b hab => absurd hab (hnot a b),
    fun n a _ hna => absurd hna (hnot n a), hdir⟩
  · by_cases h0 : n = 0
    · rw [h0]
      exact .refl
    · exact absurd (by simp [mounted, h0]) hn
  · rw [hkids]
    exact nodup_nil

theorem Step.mkdir (hc : v.tree.nodes c = none) : Step v (v.perform (.mkdir caller path mode c)).2 :=
  .call (.mkdir caller path mode c) (fun _ hnew => Option.some.inj hnew ▸ hc) trivial

/-- `mkdir a; mkdir a/b; mkdir c` -/
def threeDirs (fs : TreeFs) : Vfs :=
  (mounted fs).performAll
    [.mkdir superuser (inTmp [0x61]) 0o755 1, .mkdir superuser (inTmp [0x61, 0x62]) 0o755 2,
      .mkdir superuser (inTmp [0x63]) 0o755 3]

/-- `a/b` becomes `d`. -/
theorem directory_tree_integrity_renamed :
    ∃ v, v = ((threeDirs .tmpfs).perform (.rename superuser (inTmp [0x61, 0x62]) (inTmp [0x64]))).2 ∧
      v.tree.childrenOf 0 = [1, 3, 2] ∧ (∀ n, ¬ TransGen v.tree.Child n n) ∧
      ∀ n ∈ v.tree.live, ReflTransGen v.tree.Child v.tree.root n := by
  have hdirs : ReflTransGen Step (mounted .tmpfs) (threeDirs .tmpfs) := by
    refine .tail (.tail (.single (.mkdir ?_)) (.mkdir ?_)) (.mkdir ?_) <;> decide +kernel
  have hallowed : (threeDirs .tmpfs).Allowed (.rename superuser (inTmp [0x61, 0x62]) (inTmp [0x64])) := by
    intro p q x hp hq hx
    have hp' : (threeDirs .tmpfs).vfsLookup ((threeDirs .tmpfs).parentOf (inTmp [0x61, 0x62])) = some 1 := by
      decide +kernel
    have hq' : (threeDirs .tmpfs).vfsLookup ((threeDirs .tmpfs).parentOf (inTmp [0x64])) = some 0 := by
      decide +kernel
    have hx' : (threeDirs .tmpfs).tree.finddir 1 ((threeDirs .tmpfs).entryName (inTmp [0x61, 0x62])) = some 2 := by
      decide +kernel
    obtain rfl : p = 1 := Option.some.inj (hp.symm.trans hp')
    obtain rfl : q = 0 := Option.some.inj (hq.symm.trans hq')
    obtain rfl : x = 2 := Option.some.inj (hx.symm.trans hx')
    refine ⟨by decide +kernel, fun hpath => ?_, fun y hy => ?_⟩
    · rcases hpath.cases_head with heq | ⟨z, hz, -⟩
      · exact absurd heq (by decide)
      · have hleaf : (threeDirs .tmpfs).tree.childrenOf 2 = [] := by decide +kernel
        rw [FileTree.Child, hleaf] at hz
        exact absurd hz List.not_mem_nil
    · have hnone : (threeDirs .tmpfs).tree.finddir 0 ((threeDirs .tmpfs).entryName (inTmp [0x64])) = none := by
        decide +kernel
      rw [hnone] at hy
      exact absurd hy (by simp)
  obtain ⟨-, hacyclic, -, -, -, hreach, -⟩ := directory_tree_integrity (wf_mounted .tmpfs)
    (hdirs.tail (.call _ (fun _ hnew => absurd hnew (by simp [VfsCall.newNode])) hallowed))
  exact ⟨_, rfl, by decide +kernel, hacyclic, hreach⟩

/-- **What the calls do not check.** A directory can be renamed below itself, a symbolic link takes a name that is in
use, and an entry can be renamed into a file. On `tmpfs` the unlink of a directory with entries, and a rename to its
name, discard it; on `initramfs` the rename leaves two entries of that name. -/
theorem directory_tree_broken :
    -- `rename(a, a/d)`
    TransGen ((threeDirs .tmpfs).perform (.rename superuser (inTmp [0x61]) (inTmp [0x61, 0x64]))).2.tree.Child 1 1 ∧
    TransGen ((threeDirs .initramfs).perform (.rename superuser (inTmp [0x61]) (inTmp [0x61, 0x64]))).2.tree.Child 1 1 ∧
    -- `symlink(a, c)`
    ((threeDirs .tmpfs).perform (.symlink superuser (inTmp [0x61]) (inTmp [0x63]) 4)).2.SameNames 0 3 4 ∧
    ((threeDirs .initramfs).perform (.symlink superuser (inTmp [0x61]) (inTmp [0x63]) 4)).2.SameNames 0 3 4 ∧
    -- `a` has the entry `b`
    (threeDirs .tmpfs).tree.childrenOf 1 = [2] ∧
    -- `unlink(a)` and `rename(c, a)`
    ((threeDirs .tmpfs).perform (.unlink superuser (inTmp [0x61]))).2.tree.nodes 1 = none ∧
    ((threeDirs .tmpfs).perform (.rename superuser (inTmp [0x63]) (inTmp [0x61]))).2.tree.nodes 1 = none ∧
    ((threeDirs .initramfs).perform (.rename superuser (inTmp [0x63]) (inTmp [0x61]))).2.SameNames 0 1 3 ∧
    -- `creat(e, 0755)` and `rename(c, e/f)`
    ((threeDirs .tmpfs).performAll [.create superuser (inTmp [0x65]) 0o755 4,
      .rename superuser (inTmp [0x63]) (inTmp [0x65, 0x66])]).tree.childrenOf 4 = [3] ∧
    ((threeDirs .initramfs).performAll [.create superuser (inTmp [0x65]) 0o755 4,
      .rename superuser (inTmp [0x63]) (inTmp [0x65, 0x66])]).tree.childrenOf 4 = [3] := by
  refine ⟨.single ?_, .single ?_, ?_⟩
  · show 1 ∈ childrenOf _ 1
    decide +kernel
  · show 1 ∈ childrenOf _ 1
    decide +kernel
  · decide +kernel

end Vfs

end SzpontOS.Fs
