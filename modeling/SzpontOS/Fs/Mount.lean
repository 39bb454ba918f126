import Mathlib.Data.List.Nodup
import SzpontOS.Fs.Resolve

/-!
# Where a lookup starts

`vfs_mount` appends to the mount table, and `vfs_lookup_internal` starts at the first entry whose path the normalised
path continues at a component boundary. That test is the prefix order of the component lists (`mountsOver_iff`), of
which the first match is the longest exactly when no mount point stands in the table before one below it. The table
keeps 127 bytes of a mount point.
-/

namespace SzpontOS.Fs

open Lib List

variable {ν : Type*}

/-- `g_vfs_root` and `g_mounts`. -/
structure MountTable (ν : Type*) where
  root : ν
  mounts : List (Text × ν)

def maxMounts : Nat := 32

def MountTable.vfsMount (m : MountTable ν) (path : Text) (node : ν) : Int × MountTable ν :=
  if maxMounts ≤ m.mounts.length then (-1, m)
  else if path = [slash] then (0, { m with root := node })
  else (0, { m with mounts := m.mounts ++ [(path.take 127, node)] })

def mountAll (m : MountTable ν) (calls : List (Text × ν)) : MountTable ν :=
  calls.foldl (fun m call => (m.vfsMount call.1 call.2).2) m

/-- The mount point and the node at which `vfs_lookup` starts its walk. -/
def MountTable.lookupStart (m : MountTable ν) (cwd path : Text) : Text × ν :=
  (walkStart m.root m.mounts (vfsResolvePath cwd path)).1

def apart (calls : List (Text × ν)) : List (Text × ν) := calls.filter (·.1 ≠ [slash])

def mounted (root : ν) (calls : List (Text × ν)) : List (Text × ν) :=
  ([slash], calls.foldl (fun root call => if call.1 = [slash] then call.2 else root) root) :: apart calls

/-- The entry with the longest mount point that is a component-wise prefix of the path. -/
structure MostSpecific (entries : List (Text × ν)) (path : Text) (entry : Text × ν) : Prop where
  mem : entry ∈ entries
  isPrefix : parts entry.1 <+: parts path
  longest : ∀ other ∈ entries, parts other.1 <+: parts path → (parts other.1).length ≤ (parts entry.1).length

/-- A path that `vfs_normalize_path` leaves as it is. -/
def Normalized (path : Text) : Prop := vfsNormalizePath path = path

variable {path mount cwd : Text} {m : MountTable ν} {calls : List (Text × ν)} {root : ν}

/-! ## Normalised paths -/

theorem Normalized.take_render (h : Normalized path) :
    (render ((parts (path.take 511)).foldl pushToken [])).take 255 = path := by
  have hpath : vfsNormalizePath path = path := h
  rwa [vfsNormalizePath, vfsNormalizePathInto_render] at hpath

theorem Normalized.head? (h : Normalized path) : path.head? = some slash := by
  rw [← h.take_render]
  have hhead : (render ((parts (path.take 511)).foldl pushToken [])).head? = some slash := head?_render
  cases hcase : render ((parts (path.take 511)).foldl pushToken []) with
  | nil =>
    rw [hcase] at hhead
    cases hhead
  | cons c rest =>
    rw [hcase] at hhead
    exact hhead

theorem Normalized.length_le (h : Normalized path) : path.length ≤ 255 := by
  rw [← h.take_render]
  exact length_take_le ..

theorem length_render_le {names : List Text} : (render names).length ≤ max 1 (joined slash names).length := by
  unfold render
  split_ifs
  · exact Nat.le_max_left ..
  · exact Nat.le_max_right ..

section

variable (h : Normalized path)

include h

theorem Normalized.render_parts : path = render (parts path) ∧ ∀ name ∈ parts path, IsName name := by
  have hlen := h.length_le
  have htake : path.take 511 = path := take_of_length_le (by omega)
  have hrender := h.take_render
  rw [htake] at hrender
  have hnames := isName_of_mem_foldl_pushToken (fun _ hname => absurd hname not_mem_nil)
    fun t (ht : t ∈ parts path) => mem_parts ht
  have hsub : ((parts path).foldl pushToken []).Sublist (parts path) := foldl_pushToken_sublist [] _
  have hfits : (render ((parts path).foldl pushToken [])).length ≤ 255 := by
    have hjoin := Nat.le_trans (length_joined_le hsub) (length_joined_pieces h.head?)
    exact Nat.le_trans length_render_le (Nat.max_le.mpr ⟨by decide, Nat.le_trans hjoin hlen⟩)
  rw [take_of_length_le hfits] at hrender
  have hparts : parts path = (parts path).foldl pushToken [] := by
    conv_lhs => rw [← hrender]
    exact parts_render hnames
  rw [← hparts] at hrender hnames
  exact ⟨hrender.symm, hnames⟩

theorem Normalized.vfsResolvePath : vfsResolvePath cwd path = path := by
  have hlen := h.length_le
  show vfsNormalizePath (List.take 511 (if path.head? = some slash then path else _)) = path
  rw [if_pos h.head?, take_of_length_le (by omega)]
  exact h

theorem Normalized.eq_of_parts (hmount : Normalized mount) (heq : parts mount = parts path) : mount = path := by
  rw [hmount.render_parts.1, heq, ← h.render_parts.1]

theorem parts_eq_nil_iff : parts path = [] ↔ path = [slash] := by
  constructor
  · intro hnil
    rw [h.render_parts.1, hnil]
    rfl
  · rintro rfl
    decide

theorem mountsOver_iff (hmount : Normalized mount) (hroot : mount ≠ [slash]) :
    mountsOver mount path ↔ parts mount <+: parts path := by
  obtain ⟨hpath, hnames⟩ := h.render_parts
  obtain ⟨hmountEq, hmountNames⟩ := hmount.render_parts
  have hjoinMount : mount = joined slash (parts mount) := by
    conv_lhs => rw [hmountEq]
    exact if_neg ((parts_eq_nil_iff hmount).not.mpr hroot)
  by_cases hnil : parts path = []
  · rw [hnil, (parts_eq_nil_iff h).mp hnil]
    constructor
    · intro hover
      obtain ⟨hpre, -⟩ := of_decide_eq_true hover
      have hle := (List.isPrefixOf_iff_prefix.mp hpre).length_le
      rcases mount with _ | ⟨c, _ | ⟨d, rest⟩⟩
      · cases hmount.head?
      · exact absurd (by simpa using hmount.head?) hroot
      · simp at hle
    · intro hpre
      exact absurd ((parts_eq_nil_iff hmount).mp (prefix_nil.mp hpre)) hroot
  · have hjoinPath : path = joined slash (parts path) := by
      conv_lhs => rw [hpath]
      exact if_neg hnil
    rw [← joined_prefix_iff (fun l hl => (hmountNames l hl).1) (fun l hl => (hnames l hl).1), ← hjoinMount, ← hjoinPath]
    unfold mountsOver
    rw [decide_eq_true_iff, isPrefixOf_iff_prefix]
    constructor
    · rintro ⟨⟨rest, rfl⟩, hrest⟩
      rw [drop_left] at hrest
      exact ⟨rest, rfl, hrest⟩
    · rintro ⟨rest, rfl, hrest⟩
      rw [drop_left]
      exact ⟨prefix_append .., hrest⟩

end

/-! ## The table -/

theorem mem_apart {call : Text × ν} : call ∈ apart calls ↔ call ∈ calls ∧ call.1 ≠ [slash] := by
  unfold apart
  rw [mem_filter, decide_eq_true_iff]

def kept (call : Text × ν) : Text × ν := (call.1.take 127, call.2)

theorem mountAll_eq (m : MountTable ν) (calls : List (Text × ν)) (hmax : m.mounts.length + calls.length ≤ 32) :
    mountAll m calls = ⟨calls.foldl (fun root call => if call.1 = [slash] then call.2 else root) m.root,
        m.mounts ++ (apart calls).map kept⟩ := by
  induction calls generalizing m with
  | nil => simp [mountAll, apart]
  | cons call calls ih =>
    rw [length_cons] at hmax
    have hroom : ¬ maxMounts ≤ m.mounts.length := by
      unfold maxMounts
      omega
    show mountAll (m.vfsMount call.1 call.2).2 calls = _
    unfold MountTable.vfsMount
    split_ifs with hroot
    · refine (ih ⟨call.2, m.mounts⟩ (show m.mounts.length + calls.length ≤ 32 by omega)).trans ?_
      simp [hroot, apart]
    · have hlen : (m.mounts ++ [(call.1.take 127, call.2)]).length + calls.length ≤ 32 := by
        rw [length_append, length_singleton]
        omega
      refine (ih _ hlen).trans ?_
      simp [hroot, apart, kept]

theorem lookupStart_root (h : path = [slash]) : m.lookupStart cwd path = ([slash], m.root) := by
  have hnorm : Normalized path := by
    rw [h]
    show vfsNormalizePath [slash] = [slash]
    decide
  unfold MountTable.lookupStart walkStart
  rw [hnorm.vfsResolvePath, if_pos h]

section

variable (root : ν) (calls : List (Text × ν)) (hmax : calls.length ≤ 32)

include hmax

theorem lookupStart_mountAll (cwd : Text) (h : Normalized path) (hroot : path ≠ [slash]) :
    (mountAll ⟨root, []⟩ calls).lookupStart cwd path =
      (((apart calls).map kept).find? fun entry => mountsOver entry.1 path).getD
        ([slash], (mountAll ⟨root, []⟩ calls).root) := by
  unfold MountTable.lookupStart walkStart
  rw [h.vfsResolvePath, if_neg hroot, mountAll_eq ⟨root, []⟩ calls (by simpa using hmax), nil_append]
  cases ((apart calls).map kept).find? fun entry => mountsOver entry.1 path <;> rfl

theorem mountAll_root : ([slash], (mountAll ⟨root, []⟩ calls).root) ∈ mounted root calls := by
  rw [mountAll_eq ⟨root, []⟩ calls (by simpa using hmax)]
  exact mem_cons_self ..

end

theorem map_kept (hfits : ∀ call ∈ calls, call.1.length ≤ 127) : (apart calls).map kept = apart calls := by
  conv_rhs => rw [← map_id (apart calls)]
  refine map_congr_left fun call hcall => ?_
  show (call.1.take 127, call.2) = call
  rw [take_of_length_le (hfits call (mem_apart.mp hcall).1)]

theorem mountsOver_apart (hnorm : ∀ call ∈ calls, Normalized call.1) (h : Normalized path) :
    ∀ call ∈ apart calls, mountsOver call.1 path ↔ parts call.1 <+: parts path := by
  intro call hcall
  obtain ⟨hmem, hroot⟩ := mem_apart.mp hcall
  exact mountsOver_iff h (hnorm call hmem) hroot

/-- No mount point stands before one below it. -/
def InnerFirst (calls : List (Text × ν)) : Prop :=
  calls.Pairwise fun earlier later => earlier.1 ≠ [slash] → ¬ parts earlier.1 <+: parts later.1

section

variable (hnorm : ∀ call ∈ calls, Normalized call.1)

include hnorm

/-- The first match is the longest: of two prefixes of one path the later one is the shorter. -/
theorem find?_longest (hinner : InnerFirst calls) (h : Normalized path) {first other : Text × ν}
    (hfind : (apart calls).find? (fun entry => mountsOver entry.1 path) = some first) (hrest : other ∈ apart calls)
    (hpre : parts other.1 <+: parts path) : (parts other.1).length ≤ (parts first.1).length := by
  have hover := mountsOver_apart hnorm h
  have hmem := mem_of_find?_eq_some hfind
  obtain ⟨hmatch, before, after, hcut, hbef⟩ := find?_eq_some_iff_append.mp hfind
  have hpair : (apart calls).Pairwise fun a b => a.1 ≠ [slash] → ¬ parts a.1 <+: parts b.1 :=
    Pairwise.sublist filter_sublist hinner
  have hplace := hrest
  rw [hcut] at hplace hpair
  rcases mem_append.mp hplace with hin | hin
  · have hno := hbef other hin
    rw [(hover other hrest).mpr hpre] at hno
    cases hno
  · rcases mem_cons.mp hin with rfl | hin
    · exact Nat.le_refl _
    · have hnot := (pairwise_cons.mp (pairwise_append.mp hpair).2.1).1 other hin (mem_apart.mp hmem).2
      rcases prefix_or_prefix_of_prefix ((hover first hmem).mp hmatch) hpre with hle | hle
      · exact absurd hle hnot
      · exact hle.length_le

theorem mostSpecific_of_innerFirst (hmax : calls.length ≤ 32) (hfits : ∀ call ∈ calls, call.1.length ≤ 127)
    (hinner : InnerFirst calls) (h : Normalized path) :
    MostSpecific (mounted root calls) path ((mountAll ⟨root, []⟩ calls).lookupStart cwd path) := by
  have hrootEntry := mountAll_root root calls hmax
  by_cases hroot : path = [slash]
  · rw [lookupStart_root hroot, hroot]
    exact ⟨hrootEntry, prefix_rfl, fun other _ hpre => hpre.length_le⟩
  · have hover := mountsOver_apart hnorm h
    rw [lookupStart_mountAll root calls hmax cwd h hroot, map_kept hfits]
    rcases hfind : (apart calls).find? (fun entry => mountsOver entry.1 path) with _ | first
    · rw [hfind, Option.getD_none]
      refine ⟨hrootEntry, nil_prefix, fun other hrest hpre => ?_⟩
      rcases mem_cons.mp hrest with rfl | hrest
      · exact Nat.le_refl _
      · exact absurd ((hover other hrest).mpr hpre) (find?_eq_none.mp hfind other hrest)
    · rw [hfind, Option.getD_some]
      have hmem := mem_of_find?_eq_some hfind
      have hmatch := find?_some hfind
      refine ⟨mem_cons_of_mem _ hmem, (hover first hmem).mp hmatch, fun other hrest hpre => ?_⟩
      rcases mem_cons.mp hrest with rfl | hrest
      · exact Nat.zero_le _
      · exact find?_longest hnorm hinner h hfind hrest hpre

theorem MostSpecific.at_mount {call start : Text × ν} (h : MostSpecific (mounted root calls) call.1 start)
    (hcall : call ∈ apart calls) : start.1 = call.1 := by
  have hst0 : Normalized start.1 := by
    rcases mem_cons.mp h.mem with rfl | hmem
    · show vfsNormalizePath [slash] = [slash]
      decide
    · exact hnorm start (mem_apart.mp hmem).1
  have hlong := h.longest call (mem_cons_of_mem _ hcall) prefix_rfl
  exact (hnorm call (mem_apart.mp hcall).1).eq_of_parts hst0 (h.isPrefix.eq_of_length_le hlong)

theorem find?_at_mount (hmax : calls.length ≤ 32) {call : Text × ν} (hcall : call ∈ apart calls)
    (h : MostSpecific (mounted root calls) call.1 ((mountAll ⟨root, []⟩ calls).lookupStart cwd call.1)) :
    ∃ first, ((apart calls).map kept).find? (fun entry => mountsOver entry.1 call.1) = some first ∧
      first.1 = call.1 := by
  obtain ⟨hmem, hroot⟩ := mem_apart.mp hcall
  have hst0 := h.at_mount hnorm hcall
  rw [lookupStart_mountAll root calls hmax cwd (hnorm call hmem) hroot] at hst0
  rcases hfind : ((apart calls).map kept).find? (fun entry => mountsOver entry.1 call.1) with _ | first
  · rw [hfind] at hst0
    exact absurd hst0.symm hroot
  · rw [hfind] at hst0
    exact ⟨first, hfind, hst0⟩

end

theorem not_sublist_of_find? {l : List (Text × ν)} (hnd : (l.map Prod.fst).Nodup) {p : Text × ν → Bool}
    {earlier later first : Text × ν} (hfind : l.find? p = some first) (hfst : first.1 = later.1) (hp : p earlier) :
    ¬ [earlier, later].Sublist l := by
  intro hsub
  obtain ⟨-, before, after, rfl, hbef⟩ := find?_eq_some_iff_append.mp hfind
  obtain ⟨front, back, hlist, hfront, hback⟩ := sublist_append_iff.mp hsub
  have haft : later ∉ after := by
    rw [map_append, map_cons, nodup_append, nodup_cons] at hnd
    intro hmem
    exact hnd.2.1.1 (hfst ▸ mem_map_of_mem hmem)
  rcases front with _ | ⟨x, front⟩
  · rw [nil_append] at hlist
    rw [← hlist] at hback
    cases hback with
    | cons _ hback => exact haft (hback.subset (by simp))
    | cons_cons _ hback => exact haft (hback.subset (by simp))
  · obtain rfl : earlier = x := by
      exact (List.cons.inj hlist).1
    have hno := hbef earlier (hfront.subset (mem_cons_self ..))
    rw [hp] at hno
    cases hno

/-- **The most specific mount wins** exactly when the mount points fit the table and none was mounted before one below
it. -/
theorem most_specific_mount (root : ν) (calls : List (Text × ν)) (cwd : Text)
    (hnorm : ∀ call ∈ calls, Normalized call.1) (hdistinct : (calls.map Prod.fst).Nodup) (hmax : calls.length ≤ 32) :
    (∀ path, Normalized path →
      MostSpecific (mounted root calls) path ((mountAll ⟨root, []⟩ calls).lookupStart cwd path)) ↔
    (∀ call ∈ calls, call.1.length ≤ 127) ∧ InnerFirst calls := by
  constructor
  · intro hall
    have hshort : ∀ call ∈ calls, call.1.length ≤ 127 := by
      intro call hcall
      by_cases hroot : call.1 = [slash]
      · rw [hroot]
        decide
      · obtain ⟨first, hfind, hfirst⟩ := find?_at_mount hnorm hmax (mem_apart.mpr ⟨hcall, hroot⟩)
          (hall call.1 (hnorm call hcall))
        obtain ⟨stored, -, rfl⟩ := List.mem_map.mp (List.mem_of_find?_eq_some hfind)
        rw [← hfirst]
        exact List.length_take_le ..
    refine ⟨hshort, List.pairwise_iff_forall_sublist.mpr fun {earlier later} hsub hroot hpre => ?_⟩
    have hearlier : earlier ∈ calls := hsub.subset (by simp)
    have hlater : later ∈ calls := hsub.subset (by simp)
    have hlaterRoot : later.1 ≠ [slash] := by
      intro heq
      rw [heq, parts_slash, List.prefix_nil, parts_eq_nil_iff (hnorm earlier hearlier)] at hpre
      exact hroot hpre
    obtain ⟨first, hfind, hfirst⟩ := find?_at_mount hnorm hmax (mem_apart.mpr ⟨hlater, hlaterRoot⟩)
      (hall later.1 (hnorm later hlater))
    rw [map_kept hshort] at hfind
    have hapart : [earlier, later].Sublist (apart calls) := by
      have hboth := hsub.filter (·.1 ≠ [slash])
      simpa [hroot, hlaterRoot, apart] using hboth
    refine not_sublist_of_find? (hdistinct.sublist (List.filter_sublist.map _)) hfind hfirst ?_ hapart
    exact (mountsOver_iff (hnorm later hlater) (hnorm earlier hearlier) hroot).mpr hpre
  · rintro ⟨hshort, hinner⟩ path h
    exact mostSpecific_of_innerFirst hnorm hmax hshort hinner h

/-- `/dev` -/
def devPath : Text := [0x2f, 0x64, 0x65, 0x76]

/-- `/dev/pts` -/
def ptsPath : Text := [0x2f, 0x64, 0x65, 0x76, 0x2f, 0x70, 0x74, 0x73]

theorem normalized_dev : Normalized devPath := by
  show vfsNormalizePath devPath = devPath
  decide

theorem normalized_pts : Normalized ptsPath := by
  show vfsNormalizePath ptsPath = ptsPath
  decide

/-- The inner of two mount points is mounted first. -/
theorem most_specific_mount_pts_first : MostSpecific (mounted 0 [(ptsPath, 1), (devPath, 2)]) ptsPath
      ((mountAll ⟨0, []⟩ [(ptsPath, 1), (devPath, 2)]).lookupStart [slash] ptsPath) := by
  refine (most_specific_mount 0 [(ptsPath, 1), (devPath, 2)] [slash] ?_ (by decide) (by decide)).mpr ⟨by decide, ?_⟩
    ptsPath normalized_pts
  · simp [normalized_dev, normalized_pts]
  · unfold InnerFirst
    decide

/-- Mounted second it is never found. -/
theorem outer_mount_shadows :
    (mountAll ⟨0, []⟩ [(devPath, 1), (ptsPath, 2)]).lookupStart [slash] ptsPath = (devPath, 1) ∧
      ¬ MostSpecific (mounted 0 [(devPath, 1), (ptsPath, 2)]) ptsPath (devPath, 1) := by
  refine ⟨by decide, fun h => absurd (h.longest (ptsPath, 2) (by decide) List.prefix_rfl) (by decide)⟩

end SzpontOS.Fs
