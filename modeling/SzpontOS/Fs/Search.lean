import SzpontOS.Fs.Vfs

/-!
# Search permission along a path

`sys_open` for reading, on a tree that is the whole name space. `vfs_lookup_internal` looks each name up without asking
`vfs_check_permission`: only the node at the end of the path is checked, and for `/dev/tty` only the controlling
terminal.
-/

namespace SzpontOS.Fs

open Option

/-- `/dev/tty` -/
def devTty : Text := [0x2f, 0x64, 0x65, 0x76, 0x2f, 0x74, 0x74, 0x79]

def rooted (t : FileTree) (cwd : Text) : Vfs := ⟨t, true, [], cwd⟩

/-- The node that `sys_open` opens: the controlling terminal for `/dev/tty`, else what `vfs_lookup` finds. -/
def Vfs.openNode (v : Vfs) (ctty : Option Node) (path : Text) : Except Int Node :=
  let full := vfsResolvePath v.cwd path
  if full = devTty then ctty.elim (.error (-6)) .ok
  else ((v.vfsLookup full).bind v.tree.nodes).elim (.error (-2)) .ok

/-- `sys_open` with `O_RDONLY`. `openOp` is what the `open` operation of a node returns, and `slot` is the first free
descriptor. A path that does not end within 255 bytes is not copied. -/
def Vfs.sysOpen (v : Vfs) (caller : Caller) (ctty : Option Node) (openOp : Node → Int) (slot : Option Nat)
    (path : Text) : Int :=
  if 255 ≤ path.length then -14
  else
    match v.openNode ctty path with
    | .error e => e
    | .ok node =>
      if vfsCheckPermission caller node 4 then
        if openOp node < 0 then openOp node else slot.elim (-1) fun fd => fd
      else -13

/-! ## The directories along a path -/

/-- The directories passed from `cur` by a path that meets no symbolic link, and the node it ends at. -/
def FileTree.trail (t : FileTree) : Nat → List Text → Option (List Nat × Nat)
  | cur, [] => some ([], cur)
  | cur, token :: rest =>
    if token = dot ∨ token = dotDot then t.trail cur rest
    else if t.hasType cur .directory then
      (t.finddir cur token).bind fun next =>
        if t.hasType next .symlink then none
        else (t.trail next rest).map fun passed => (cur :: passed.1, passed.2)
    else none

/-- The names of a path, taken from the current directory and normalised as `sys_open` and `vfs_lookup` do. -/
def namesOf (cwd path : Text) : List Text := parts (vfsResolvePath cwd (vfsResolvePath cwd path))

/-- The path leads from the root through the directories `ds` to `n`, without a symbolic link. -/
def FileTree.Leads (t : FileTree) (cwd path : Text) (ds : List Nat) (n : Nat) : Prop :=
  t.trail t.root (namesOf cwd path) = some (ds, n)

def FileTree.Permits (t : FileTree) (caller : Caller) (mask : BitVec 32) (n : Nat) : Prop :=
  (t.nodes n).any (vfsCheckPermission caller · mask)

/-- What a path that ends at `n` stands for. -/
def FileTree.meant (t : FileTree) (ctty : Option Node) (cwd path : Text) (n : Nat) : Option Node :=
  if vfsResolvePath cwd path = devTty then ctty else t.nodes n

variable {t : FileTree} {cwd path : Text} {ds : List Nat} {n : Nat} {caller : Caller} {ctty : Option Node}
  {openOp : Node → Int}

theorem walk_of_trail (again : Text → Option Nat) {cur : Nat} {dir : Text} {names : List Text}
    (h : t.trail cur names = some (ds, n)) : (rooted t cwd).walk again true cur dir names = some n := by
  induction names generalizing cur dir ds with
  | nil =>
    cases h
    rfl
  | cons token rest ih =>
    unfold FileTree.trail at h
    unfold Vfs.walk walkBy
    by_cases hdot : token = dot ∨ token = dotDot
    · rw [if_pos hdot] at h ⊢
      exact ih h
    · rw [if_neg hdot] at h ⊢
      obtain ⟨hdir, h⟩ := ite_none_right_eq_some.mp h
      obtain ⟨next, hnext, h⟩ := bind_eq_some_iff.mp h
      obtain ⟨hlink, h⟩ := ite_none_left_eq_some.mp h
      obtain ⟨⟨ds', n'⟩, hrest, hpassed⟩ := map_eq_some_iff.mp h
      cases hpassed
      have hlink' : ¬ (rooted t cwd).tree.hasType next .symlink = true := hlink
      rw [if_pos (show (rooted t cwd).tree.hasType cur .directory = true from hdir),
        show (rooted t cwd).tree.finddir cur token = some next from hnext]
      have hfollowed : (rooted t cwd).linkTarget true next rest = [] := if_neg fun hand => hlink' hand.1
      rw [bind_some, if_neg (not_not.mpr hfollowed)]
      exact ih hrest

theorem walkStart_nil {ν : Type*} {root : ν} {norm : Text} :
    walkStart root [] norm = (([slash], root), parts norm) := by
  unfold walkStart
  split_ifs with hroot
  · rw [hroot, parts_slash]
  · rfl

theorem vfsLookup_of_leads (h : t.Leads cwd path ds n) :
    (rooted t cwd).vfsLookup (vfsResolvePath cwd path) = some n := by
  unfold FileTree.Leads namesOf at h
  unfold Vfs.vfsLookup Vfs.lookupInternal
  rw [show (rooted t cwd).mounts = [] from rfl, walkStart_nil]
  exact walk_of_trail _ h

theorem openNode_of_leads (h : t.Leads cwd path ds n) {node : Node} :
    (rooted t cwd).openNode ctty path = .ok node ↔ t.meant ctty cwd path n = some node := by
  have hlook := vfsLookup_of_leads h
  unfold Vfs.openNode FileTree.meant
  show (if vfsResolvePath cwd path = devTty then _ else _) = _ ↔ _
  split_ifs with htty
  · cases ctty <;> simp
  · show (((rooted t cwd).vfsLookup (vfsResolvePath cwd path)).bind t.nodes).elim _ _ = _ ↔ _
    rw [hlook, bind_some]
    cases t.nodes n <;> simp

theorem openNode_error {v : Vfs} {e : Int} (h : v.openNode ctty path = .error e) : e < 0 := by
  unfold Vfs.openNode at h
  dsimp only at h
  split_ifs at h
  · cases ctty with
    | none =>
      cases h
      decide
    | some node => cases h
  · rcases hnode : (v.vfsLookup (vfsResolvePath v.cwd path)).bind v.tree.nodes with _ | node <;> rw [hnode] at h
    · cases h
      decide
    · cases h

theorem sysOpen_nonneg (h : t.Leads cwd path ds n) (fd : Nat) :
    0 ≤ (rooted t cwd).sysOpen caller ctty openOp (some fd) path ↔
      path.length < 255 ∧ ∃ node, t.meant ctty cwd path n = some node ∧ vfsCheckPermission caller node 4 ∧
        0 ≤ openOp node := by
  unfold Vfs.sysOpen
  rcases Nat.lt_or_ge path.length 255 with hlen | hlen
  · rw [if_neg (by omega)]
    rcases hmeant : t.meant ctty cwd path n with _ | node
    · rcases hnode : (rooted t cwd).openNode ctty path with e | node
      · have hneg := openNode_error hnode
        simp only [reduceCtorEq, false_and, exists_false, and_false, iff_false]
        omega
      · rw [openNode_of_leads h, hmeant] at hnode
        cases hnode
    · rw [(openNode_of_leads h).mpr hmeant]
      simp only [Option.some.injEq, exists_eq_left', hlen, true_and]
      split_ifs with hread hop
      · simp only [hread, true_and]
      · simp only [hread, true_and, elim_some]
        omega
      · exact ⟨fun hneg => by omega, fun ⟨hyes, _⟩ => absurd hyes hread⟩
  · constructor
    · omega
    · omega

/-- **What search permission rests on.** A process opens no file below a directory that it may not search exactly when
there is no node below such a directory that the process may read and that its own `open` operation admits. -/
theorem search_permission (t : FileTree) (caller : Caller) (ctty : Option Node) (openOp : Node → Int) (cwd : Text) :
    (∀ path fd ds n, t.Leads cwd path ds n → 0 ≤ (rooted t cwd).sysOpen caller ctty openOp (some fd) path →
      ∀ d ∈ ds, t.Permits caller 1 d) ↔
    ∀ path ds n node, path.length < 255 → t.Leads cwd path ds n → t.meant ctty cwd path n = some node →
      vfsCheckPermission caller node 4 → 0 ≤ openOp node → ∀ d ∈ ds, t.Permits caller 1 d := by
  constructor
  · intro hopens path ds n node hlen hleads hmeant hread hop
    apply hopens path 0 ds n hleads
    exact (sysOpen_nonneg hleads 0).mpr ⟨hlen, node, hmeant, hread, hop⟩
  · intro htree path fd ds n hleads hopen
    obtain ⟨hlen, node, hmeant, hread, hop⟩ := (sysOpen_nonneg hleads fd).mp hopen
    exact htree path ds n node hlen hleads hmeant hread hop

/-- A directory `a` that only the superuser may search, and in it a file `f` that everyone may read. -/
def hidden : FileTree where
  fs := .tmpfs
  root := 1
  nodes
    | 1 => some ⟨[slash], .directory, [2], [], 0o755, 0, 0⟩
    | 2 => some ⟨[0x61], .directory, [3], [], 0o700, 0, 0⟩
    | 3 => some ⟨[0x66], .file, [], [], 0o644, 0, 0⟩
    | _ => none

/-- The file opens for a user who may not search its directory. -/
theorem open_below_unsearchable :
    hidden.Leads [slash] [slash, 0x61, slash, 0x66] [1, 2] 3 ∧ ¬ hidden.Permits ⟨1000, 1000, []⟩ 1 2 ∧
      (rooted hidden [slash]).sysOpen ⟨1000, 1000, []⟩ none (fun _ => 0) (some 3) [slash, 0x61, slash, 0x66] = 3 := by
  unfold FileTree.Leads FileTree.Permits
  refine ⟨?_, ?_, ?_⟩ <;> decide

end SzpontOS.Fs
