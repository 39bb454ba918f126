import SzpontOS.Lib.Hierarchy
import SzpontOS.Fs.Tree

/-!
# Well-formed directory trees

`FileTree.WF` says that the nodes form a hierarchy below the root, that only directories have children and that the
names in a directory differ. New entries, the removal of an entry without children and a move of an entry to a
directory outside of it keep it.
-/

namespace SzpontOS.Fs

open Lib Relation Function List
open Option hiding filter_filter

variable {victim : Option Nat} {oldName : Text}

namespace FileTree

variable {t t' : FileTree} {p q c x v n : Nat} {name : Text} {node : Node}

def Child (t : FileTree) (p c : Nat) : Prop := c ∈ t.childrenOf p

def live (t : FileTree) : Set Nat := { n | t.nodes n ≠ none }

structure WF (t : FileTree) : Prop where
  hier : Hierarchy t.Child t.root t.live
  nodup : ∀ p, (t.childrenOf p).Nodup
  dirs : ∀ p c, t.Child p c → t.hasType p .directory = true
  names : ∀ p c d, t.Child p c → t.Child p d → t.nameOf c = t.nameOf d → c = d
  root_dir : t.hasType t.root .directory = true

theorem live_of_hasType {type : NodeType} (h : t.hasType n type = true) : n ∈ t.live := by
  intro hnone
  rw [hasType, hnone] at h
  simp at h

/-! ## Lookups -/

theorem finddir_some (h : t.finddir p name = some c) : t.Child p c ∧ t.nameOf c = name := by
  exact ⟨mem_of_find?_eq_some h, by simpa using find?_some h⟩

theorem finddir_none (h : t.finddir p name = none) (hc : t.Child p c) : t.nameOf c ≠ name := by
  simpa using find?_eq_none.mp h c hc

section

variable (hnames : ∀ c d, t.Child p c → t.Child p d → t.nameOf c = t.nameOf d → c = d)

include hnames

theorem finddir_unique (hfind : t.finddir p name = some x) (hc : t.Child p c) : t.nameOf c = name ↔ c = x := by
  obtain ⟨hx, hname⟩ := finddir_some hfind
  constructor
  · intro hcname
    exact hnames c x hc hx (hcname.trans hname.symm)
  · intro hcx
    rw [hcx, hname]

theorem finddir_eq_some : t.finddir p name = some c ↔ t.Child p c ∧ t.nameOf c = name := by
  refine ⟨finddir_some, fun ⟨hc, hname⟩ => ?_⟩
  rcases hfind : t.finddir p name with _ | d
  · exact absurd hname (finddir_none hfind hc)
  · rw [(finddir_unique hnames hfind hc).mp hname]

end

theorem eraseP_eq_filter {l : List Nat} {P : Nat → Bool} (hnd : l.Nodup) (hP : ∀ c ∈ l, P c = true ↔ c = x) :
    l.eraseP P = l.filter fun c => c ≠ x := by
  induction l with
  | nil => rfl
  | cons a l ih =>
    obtain ⟨hal, hl⟩ := nodup_cons.mp hnd
    have hrest := ih hl fun c hc => hP c (mem_cons_of_mem a hc)
    by_cases ha : a = x
    · rw [eraseP_cons_of_pos ((hP a mem_cons_self).mpr ha), filter_cons_of_neg (by simp [ha]),
        filter_eq_self.mpr]
      intro c hc
      simp only [decide_eq_true_eq]
      exact fun hcx => hal (ha ▸ hcx ▸ hc)
    · rw [eraseP_cons_of_neg fun hPa => ha ((hP a mem_cons_self).mp hPa),
        filter_cons_of_pos (by simp [ha]), hrest]

/-! ## What the building blocks change -/

theorem nodes_modify {f : Node → Node} : (t.modify p f).nodes n = if n = p then (t.nodes p).map f else t.nodes n :=
  update_apply ..

theorem nodes_free : (t.free v).nodes n = if n = v then none else t.nodes n := update_apply ..

theorem childrenOf_modify {f : Node → Node} :
    (t.modify p f).childrenOf n = if n = p then (t.nodes p).elim [] fun node => (f node).children else t.childrenOf n := by
  rw [childrenOf, nodes_modify]
  split_ifs
  · cases t.nodes p <;> rfl
  · rfl

theorem live_modify {f : Node → Node} : (t.modify p f).live = t.live := by
  ext n
  rw [live, live, Set.mem_ofPred_eq, Set.mem_ofPred_eq, nodes_modify]
  split_ifs with hn
  · rw [hn, Ne, map_eq_none_iff]
  · rfl

theorem hasType_modify {f : Node → Node} (hf : ∀ node, (f node).type = node.type) (type : NodeType) :
    (t.modify p f).hasType n type = t.hasType n type := by
  rw [hasType, hasType, nodes_modify]
  split_ifs with hn
  · rw [hn]
    cases t.nodes p <;> simp [hf]
  · rfl

theorem nameOf_modify {f : Node → Node} (hf : ∀ node, (f node).name = node.name) :
    (t.modify p f).nameOf n = t.nameOf n := by
  rw [nameOf, nameOf, nodes_modify]
  split_ifs with hn
  · rw [hn]
    cases t.nodes p <;> simp [hf]
  · rfl

theorem childrenOf_addChild (hp : p ∈ t.live) :
    (t.addChild p c).childrenOf n = if n = p then t.childrenOf p ++ [c] else t.childrenOf n := by
  unfold addChild
  rw [childrenOf_modify]
  obtain ⟨node, hnode⟩ := ne_none_iff_exists'.mp hp
  simp [childrenOf, hnode]

theorem childrenOf_detach (hnd : (t.childrenOf p).Nodup) (hone : ∀ c, t.Child p c → (t.nameOf c = name ↔ c = x))
    (hrest : ∀ n, t.Child n x → n = p) : (t.detach p name).childrenOf n = (t.childrenOf n).filter fun c => c ≠ x := by
  unfold detach
  rw [childrenOf_modify]
  by_cases hn : n = p
  · have herase : (t.nodes p).elim [] (fun node => node.children.eraseP fun c => t.nameOf c = name) =
        (t.childrenOf p).eraseP fun c => t.nameOf c = name := by
      unfold childrenOf
      cases t.nodes p <;> rfl
    rw [if_pos hn, hn, herase]
    exact eraseP_eq_filter hnd fun c hc => by
      rw [decide_eq_true_eq]
      exact hone c hc
  · rw [if_neg hn, filter_eq_self.mpr]
    intro c hc
    simp only [decide_eq_true_eq]
    exact fun hcx => hn (hrest n (hcx ▸ hc))

@[simp] theorem live_detach : (t.detach p name).live = t.live := live_modify

@[simp] theorem nameOf_detach : (t.detach p name).nameOf n = t.nameOf n := nameOf_modify (by intro _; rfl)

@[simp] theorem hasType_detach (type : NodeType) : (t.detach p name).hasType n type = t.hasType n type :=
  hasType_modify (by intro _; rfl) type

@[simp] theorem live_addChild : (t.addChild p c).live = t.live := live_modify

@[simp] theorem nameOf_addChild : (t.addChild p c).nameOf n = t.nameOf n := nameOf_modify (by intro _; rfl)

@[simp] theorem hasType_addChild (type : NodeType) : (t.addChild p c).hasType n type = t.hasType n type :=
  hasType_modify (by intro _; rfl) type

theorem childrenOf_free : (t.free v).childrenOf n = if n = v then [] else t.childrenOf n := by
  rw [childrenOf, nodes_free]
  split_ifs <;> rfl

/-! ## New entries -/

section AddNode

variable (hp : p ∈ t.live) (hc : t.nodes c = none)

include hp hc

theorem nodes_addNode : (t.addNode p c node).nodes n = if n = c then some node
    else if n = p then (t.nodes p).map fun node => { node with children := node.children ++ [c] }
    else t.nodes n := by
  have hne : p ≠ c := fun hpc => hp (hpc ▸ hc)
  unfold addNode addChild
  rw [nodes_modify]
  dsimp only
  rw [update_of_ne hne, update_apply]
  split_ifs with h1 h2
  · exact absurd (h1.symm.trans h2) hne
  · rfl
  · rfl
  · rfl

theorem childrenOf_addNode (hleaf : node.children = []) :
    (t.addNode p c node).childrenOf n = if n = p then t.childrenOf p ++ [c] else t.childrenOf n := by
  have hne : p ≠ c := fun hpc => hp (hpc ▸ hc)
  obtain ⟨parent, hpar⟩ := ne_none_iff_exists'.mp hp
  rw [childrenOf, nodes_addNode hp hc]
  split_ifs with h1 h2
  · exact absurd (h2.symm.trans h1) hne
  · rw [h1, childrenOf, hc]
    exact hleaf
  · rw [childrenOf, hpar]
    rfl
  · rfl

theorem live_addNode : (t.addNode p c node).live = insert c t.live := by
  ext n
  rw [live, Set.mem_ofPred_eq, nodes_addNode hp hc, Set.mem_insert_iff]
  split_ifs with h1 h2
  · simp [h1]
  · rw [h2, Ne, map_eq_none_iff]
    exact (or_iff_right fun hpc => h1 (h2.trans hpc)).symm
  · exact (or_iff_right h1).symm

theorem nameOf_addNode : (t.addNode p c node).nameOf n = if n = c then node.name else t.nameOf n := by
  rw [nameOf, nodes_addNode hp hc]
  split_ifs with h1 h2
  · rfl
  · rw [h2, nameOf]
    cases t.nodes p <;> rfl
  · rfl

theorem hasType_addNode (hn : n ≠ c) (type : NodeType) : (t.addNode p c node).hasType n type = t.hasType n type := by
  rw [hasType, nodes_addNode hp hc, if_neg hn]
  split_ifs with h2
  · rw [h2, hasType]
    cases t.nodes p <;> rfl
  · rfl

end AddNode

theorem WF.addNode (h : t.WF) (hp : t.hasType p .directory = true) (hc : t.nodes c = none)
    (hfree : t.finddir p name = none) (hname : node.name = name) (hleaf : node.children = []) :
    (t.addNode p c node).WF := by
  have hlive := live_of_hasType hp
  have hclive : c ∉ t.live := fun hlive => hlive hc
  have hkid : ∀ a b, (t.addNode p c node).Child a b ↔ t.Child a b ∨ a = p ∧ b = c := by
    intro a b
    rw [Child, childrenOf_addNode hlive hc hleaf]
    split_ifs with hap
    · rw [mem_append, mem_singleton, hap]
      simp [Child]
    · simp [Child, hap]
  have hold : ∀ a b, t.Child a b → b ≠ c := fun a b hab hbc => hclive (hbc ▸ (h.hier.ends a b hab).2)
  refine ⟨?_, fun n => ?_, fun a b hab => ?_, fun n a b ha hb hab => ?_, ?_⟩
  · rw [live_addNode hlive hc]
    exact h.hier.add hlive hclive hkid
  · rw [childrenOf_addNode hlive hc hleaf]
    split_ifs
    · rw [nodup_append]
      refine ⟨h.nodup p, by simp, fun a ha b hb => ?_⟩
      rw [mem_singleton.mp hb]
      exact hold p a ha
    · exact h.nodup n
  · have hac : a ≠ c := by
      intro hac
      rcases (hkid a b).mp hab with hab' | ⟨hap, -⟩
      · exact hclive (hac ▸ (h.hier.ends a b hab').1)
      · exact hclive (hac ▸ hap ▸ hlive)
    rw [hasType_addNode hlive hc hac]
    rcases (hkid a b).mp hab with hab' | ⟨hap, -⟩
    · exact h.dirs a b hab'
    · rw [hap]
      exact hp
  · rw [nameOf_addNode hlive hc, nameOf_addNode hlive hc, hname] at hab
    rcases (hkid n a).mp ha with ha' | ⟨hna, hac⟩ <;> rcases (hkid n b).mp hb with hb' | ⟨hnb, hbc⟩
    · rw [if_neg (hold n a ha'), if_neg (hold n b hb')] at hab
      exact h.names n a b ha' hb' hab
    · rw [if_neg (hold n a ha'), if_pos hbc] at hab
      exact absurd hab (finddir_none hfree (hnb ▸ ha'))
    · rw [if_pos hac, if_neg (hold n b hb')] at hab
      exact absurd hab.symm (finddir_none hfree (hna ▸ hb'))
    · rw [hac, hbc]
  · have hroot : t.root ≠ c := fun hrc => hclive (hrc ▸ h.hier.root)
    exact (hasType_addNode hlive hc hroot _).trans h.root_dir

/-! ## Removal and renaming -/

/-- **One entry moves, another may go.** The node `x` becomes the entry `name` of `q`, and the `victim` is freed. -/
structure Relinked (t t' : FileTree) (x q : Nat) (name : Text) (victim : Option Nat) : Prop where
  root : t'.root = t.root
  child : ∀ a b, t'.Child a b ↔ t.Child a b ∧ b ≠ x ∧ some b ≠ victim ∨ a = q ∧ b = x
  nodup : ∀ a, (t'.childrenOf a).Nodup
  live : ∀ n, n ∈ t'.live ↔ n ∈ t.live ∧ some n ≠ victim
  nameOf : ∀ n, some n ≠ victim → t'.nameOf n = if n = x then name else t.nameOf n
  hasType : ∀ n type, some n ≠ victim → t'.hasType n type = t.hasType n type

theorem WF.child_ne_victim {a b : Nat} (hvic : ∀ v, victim = some v → t.childrenOf v = []) (hab : t.Child a b) :
    some a ≠ victim := by
  intro ha
  rw [Child, hvic a ha.symm] at hab
  exact not_mem_nil hab

theorem WF.relinked (h : t.WF) (hr : Relinked t t' x q name victim) (hx : t.Child p x)
    (hq : t.hasType q .directory = true) (hbelow : ¬ ReflTransGen t.Child x q)
    (hvic : ∀ v, victim = some v → t.Child q v ∧ t.childrenOf v = [] ∧ v ≠ x)
    (hfree : ∀ c, t.Child q c → t.nameOf c = name → c = x ∨ some c = victim) : t'.WF := by
  have hleaf : ∀ v, victim = some v → t.childrenOf v = [] := fun v hv => (hvic v hv).2.1
  have hxv : some x ≠ victim := fun hv => (hvic x hv.symm).2.2 rfl
  have hqv : some q ≠ victim := by
    intro hv
    have hkid := (hvic q hv.symm).1
    rw [Child, (hvic q hv.symm).2.1] at hkid
    exact not_mem_nil hkid
  -- the victim goes first
  have hgone : Hierarchy (fun a b => t.Child a b ∧ some b ≠ victim) t.root { n | n ∈ t.live ∧ some n ≠ victim } := by
    cases hcase : victim with
    | none => simpa using h.hier
    | some v =>
      obtain ⟨hqchild, hvleaf, -⟩ := hvic v hcase
      simp only [Ne, some.injEq]
      refine h.hier.remove (fun b hvb => ?_) (fun hvr => h.hier.top q (hvr ▸ hqchild)) fun _ _ => Iff.rfl
      rw [Child, hvleaf] at hvb
      exact not_mem_nil hvb
  have hhier : Hierarchy t'.Child t.root t'.live := by
    rw [show t'.live = _ from Set.ext hr.live]
    refine hgone.move (p := p) (x := x) ⟨hx, hxv⟩ ⟨live_of_hasType hq, hqv⟩ (fun hpath => hbelow ?_) fun a b => ?_
    · exact ReflTransGen.mono (fun a b hab => hab.1) _ _ hpath
    · rw [hr.child a b]
      tauto
  refine ⟨hr.root ▸ hhier, hr.nodup, fun a b hab => ?_, fun n a b ha hb hab => ?_, ?_⟩
  · rcases (hr.child a b).mp hab with ⟨hab', -⟩ | ⟨haq, -⟩
    · rw [hr.hasType a _ (WF.child_ne_victim hleaf hab')]
      exact h.dirs a b hab'
    · rw [haq, hr.hasType q _ hqv]
      exact hq
  · rcases (hr.child n a).mp ha with ⟨ha', hax, hav⟩ | ⟨hnq, hax⟩ <;>
      rcases (hr.child n b).mp hb with ⟨hb', hbx, hbv⟩ | ⟨hnq', hbx⟩
    · rw [hr.nameOf a hav, hr.nameOf b hbv, if_neg hax, if_neg hbx] at hab
      exact h.names n a b ha' hb' hab
    · rw [hbx, hr.nameOf a hav, hr.nameOf x hxv, if_neg hax, if_pos rfl] at hab
      rcases hfree a (hnq' ▸ ha') hab with hax' | hav'
      · exact absurd hax' hax
      · exact absurd hav' hav
    · rw [hax, hr.nameOf x hxv, hr.nameOf b hbv, if_pos rfl, if_neg hbx] at hab
      rcases hfree b (hnq ▸ hb') hab.symm with hbx' | hbv'
      · exact absurd hbx' hbx
      · exact absurd hbv' hbv
    · rw [hax, hbx]
  · have hrootv : some t.root ≠ victim := by
      intro hv
      exact h.hier.top q (hvic t.root hv.symm).1
    rw [hr.root, hr.hasType t.root _ hrootv]
    exact h.root_dir

/-- The state between the two halves of a rename: `x` and the `victim` are nobody's entries. -/
structure Loosened (t t' : FileTree) (x : Nat) (victim : Option Nat) : Prop where
  root : t'.root = t.root
  childrenOf : ∀ n, t'.childrenOf n = (t.childrenOf n).filter fun c => c ≠ x ∧ some c ≠ victim
  live : ∀ n, n ∈ t'.live ↔ n ∈ t.live ∧ some n ≠ victim
  nameOf : ∀ n, some n ≠ victim → t'.nameOf n = t.nameOf n
  hasType : ∀ n type, some n ≠ victim → t'.hasType n type = t.hasType n type

theorem WF.loosened (h : t.WF) : Loosened t t t.root none := by
  refine ⟨rfl, fun n => (filter_eq_self.mpr fun c hc => ?_).symm, by simp, fun _ _ => rfl, fun _ _ _ => rfl⟩
  rw [decide_eq_true_eq]
  exact ⟨fun hcr => h.hier.top n (hcr ▸ hc), by simp⟩

theorem WF.detach (h : t.WF) (hfind : t.finddir p name = some x) : Loosened t (t.detach p name) x none := by
  obtain ⟨hx, -⟩ := finddir_some hfind
  refine ⟨rfl, fun n => ?_, fun n => ?_, fun n _ => ?_, fun n type _ => ?_⟩
  · rw [childrenOf_detach (h.nodup p) (fun c => finddir_unique (h.names p) hfind) fun n hn => h.hier.parent n p x hn hx]
    simp
  · simp
  · exact nameOf_detach
  · exact hasType_detach type

section

variable (h : t.WF) (hl : Loosened t t' x none)

include hl

theorem Loosened.child : t'.Child p c ↔ t.Child p c ∧ c ≠ x := by
  rw [Child, hl.childrenOf, mem_filter]
  simp [Child]

include h

theorem Loosened.names (p c d : Nat) (hc : t'.Child p c) (hd : t'.Child p d) (heq : t'.nameOf c = t'.nameOf d) : c = d := by
  rw [hl.nameOf c (by simp), hl.nameOf d (by simp)] at heq
  exact h.names p c d (hl.child.mp hc).1 (hl.child.mp hd).1 heq

theorem Loosened.finddir : t'.finddir q name = some c ↔ t.Child q c ∧ c ≠ x ∧ t.nameOf c = name := by
  rw [finddir_eq_some (hl.names h q), hl.child, hl.nameOf c (by simp), and_assoc]

theorem Loosened.discard (hfind : t'.finddir q name = some v) (hleaf : t.childrenOf v = []) :
    Loosened t (t'.discard q name v) x (some v) := by
  obtain ⟨hv, -⟩ := (hl.finddir h).mp hfind
  have hnd : (t'.childrenOf q).Nodup := by
    rw [hl.childrenOf]
    exact (h.nodup q).filter _
  have hrest : ∀ n, t'.Child n v → n = q := fun n hn => h.hier.parent n q v (hl.child.mp hn).1 hv
  refine ⟨hl.root, fun n => ?_, fun n => ?_, fun n hn => ?_, fun n type hn => ?_⟩
  · rw [FileTree.discard, childrenOf_free,
      childrenOf_detach hnd (fun c => finddir_unique (hl.names h q) hfind) hrest, hl.childrenOf, filter_filter]
    split_ifs with hnv
    · rw [hnv, hleaf]
      rfl
    · congr 1
      funext c
      by_cases hcx : c = x <;> by_cases hcv : c = v <;> simp [hcx, hcv]
  · rw [FileTree.discard, FileTree.live, Set.mem_ofPred_eq, nodes_free]
    split_ifs with hnv
    · simp [hnv]
    · have hlive : (t'.detach q name).nodes n ≠ none ↔ n ∈ t.live ∧ some n ≠ none := by
        show n ∈ (t'.detach q name).live ↔ _
        rw [live_detach]
        exact hl.live n
      rw [hlive]
      simp [hnv]
  · have hne : n ≠ v := fun hnv => hn (congrArg some hnv)
    rw [FileTree.discard, FileTree.nameOf, nodes_free, if_neg hne]
    exact nameOf_detach.trans (hl.nameOf n (by simp))
  · have hne : n ≠ v := fun hnv => hn (congrArg some hnv)
    rw [FileTree.discard, FileTree.hasType, nodes_free, if_neg hne]
    exact (hasType_detach type).trans (hl.hasType n type (by simp))

end

theorem Loosened.settleAs (h : t.WF) (hl : Loosened t t' x victim) (name : Text) (hx : x ∈ t'.live) (hq : q ∈ t'.live) :
    Relinked t (t'.settleAs q x name) x q (name.take nameLimit) victim := by
  have hlive : (t'.settleAs q x name).live = t'.live := by
    unfold FileTree.settleAs FileTree.addChild
    rw [live_modify, live_modify]
  have hkids : ∀ n, (t'.settleAs q x name).childrenOf n =
      if n = q then t'.childrenOf q ++ [x] else t'.childrenOf n := by
    intro n
    rw [← childrenOf_addChild hq]
    unfold FileTree.settleAs
    rw [childrenOf_modify]
    split_ifs with hnx
    · rw [hnx]
      rfl
    · rfl
  have hnot : ∀ n, x ∉ t'.childrenOf n := by
    intro n
    rw [hl.childrenOf]
    simp
  refine ⟨hl.root, fun a b => ?_, fun a => ?_, fun n => ?_, fun n hn => ?_, fun n type hn => ?_⟩
  · rw [Child, hkids]
    split_ifs with haq
    · rw [haq, mem_append, hl.childrenOf, mem_filter, mem_singleton]
      simp [Child]
    · rw [hl.childrenOf, mem_filter]
      simp [Child, haq]
  · rw [hkids]
    have hnd : ∀ n, (t'.childrenOf n).Nodup := by
      intro n
      rw [hl.childrenOf]
      exact (h.nodup n).filter _
    split_ifs
    · rw [nodup_append]
      refine ⟨hnd q, by simp, fun a ha b hb => ?_⟩
      rw [mem_singleton.mp hb]
      exact fun hax => hnot q (hax ▸ ha)
    · exact hnd a
  · rw [hlive]
    exact hl.live n
  · unfold FileTree.settleAs
    rw [FileTree.nameOf, nodes_modify]
    split_ifs with hnx
    · have hx' : x ∈ (t'.addChild q x).live := by rwa [live_addChild]
      obtain ⟨node, hnode⟩ := ne_none_iff_exists'.mp hx'
      rw [hnode]
      rfl
    · exact nameOf_addChild.trans (hl.nameOf n hn)
  · refine (hasType_modify (by intro _; rfl) type).trans ?_
    exact (hasType_addChild type).trans (hl.hasType n type hn)

theorem WF.discard (h : t.WF) (hfind : t.finddir p name = some v) (hleaf : t.childrenOf v = []) :
    (t.discard p name v).WF ∧ ∀ n, n ∈ (t.discard p name v).live ↔ n ∈ t.live ∧ n ≠ v := by
  obtain ⟨hv, -⟩ := finddir_some hfind
  obtain ⟨hroot, hkids, hlive, hname, htype⟩ := h.loosened.discard h hfind hleaf
  simp only [Ne, some.injEq] at hkids hlive hname htype
  have hkid : ∀ a b, (t.discard p name v).Child a b ↔ t.Child a b ∧ b ≠ v := by
    intro a b
    rw [Child, hkids, mem_filter, decide_eq_true_eq]
    refine and_congr_right fun hab => and_iff_right fun hbr => h.hier.top a (hbr ▸ hab)
  have hpar : ∀ a b, t.Child a b → a ≠ v := by
    intro a b hab hav
    rw [Child, hav, hleaf] at hab
    exact not_mem_nil hab
  have hvr : v ≠ t.root := fun hvr => h.hier.top p (hvr ▸ hv)
  refine ⟨⟨?_, fun n => ?_, fun a b hab => ?_, fun n a b ha hb hab => ?_, ?_⟩, hlive⟩
  · rw [hroot, show (t.discard p name v).live = t.live \ {v} from Set.ext hlive]
    exact h.hier.remove (fun b hvb => hpar v b hvb rfl) hvr hkid
  · rw [hkids]
    exact (h.nodup n).filter _
  · obtain ⟨hab', -⟩ := (hkid a b).mp hab
    rw [htype a _ (hpar a b hab')]
    exact h.dirs a b hab'
  · obtain ⟨ha', hav⟩ := (hkid n a).mp ha
    obtain ⟨hb', hbv⟩ := (hkid n b).mp hb
    rw [hname a hav, hname b hbv] at hab
    exact h.names n a b ha' hb' hab
  · exact (htype t.root _ hvr.symm).trans h.root_dir

theorem WF.finddir_detach (h : t.WF) (hfind : t.finddir p oldName = some x)
    (hsome : (t.detach p oldName).finddir q name = some v) : t.finddir q name = some v ∧ v ≠ x := by
  obtain ⟨hv, hvx, hname⟩ := ((h.detach hfind).finddir h).mp hsome
  exact ⟨(finddir_eq_some (h.names q)).mpr ⟨hv, hname⟩, hvx⟩

/-- **Renaming.** The entry `x` goes to the directory `q` outside of it, where an entry of the new name has no
children. -/
theorem WF.rename (h : t.WF) (hfind : t.finddir p oldName = some x) (hq : t.hasType q .directory = true)
    (hbelow : ¬ ReflTransGen t.Child x q) (hleaf : ∀ v, t.finddir q name = some v → v ≠ x → t.childrenOf v = [])
    (hfits : name.length ≤ nameLimit) :
    (((t.detach p oldName).tmpfsDirUnlink q name).2.settleAs q x name).WF ∧
      ∀ n ∈ t.live, n ∈ (((t.detach p oldName).tmpfsDirUnlink q name).2.settleAs q x name).live ∨
        t.finddir q name = some n ∧ t.childrenOf n = [] := by
  obtain ⟨hx, hxname⟩ := finddir_some hfind
  have hl := h.detach hfind
  have hxlive : x ∈ t.live := (h.hier.ends p x hx).2
  have hqlive := live_of_hasType hq
  have htake : name.take nameLimit = name := take_of_length_le hfits
  unfold FileTree.tmpfsDirUnlink
  rcases hvic : (t.detach p oldName).finddir q name with _ | v
  · have hr := hl.settleAs h name (by simpa using hxlive) (by simpa using hqlive)
    rw [htake] at hr
    refine ⟨h.relinked hr hx hq hbelow (by simp) fun c hc hcname => ?_, fun n hn => .inl ?_⟩
    · by_cases hcx : c = x
      · exact .inl hcx
      · -- the lookup would have found it
        have hsome := (hl.finddir h).mpr ⟨hc, hcx, hcname⟩
        rw [hvic] at hsome
        simp at hsome
    · rw [hr.live n]
      exact ⟨hn, by simp⟩
  · obtain ⟨hfindv, hvx⟩ := h.finddir_detach hfind hvic
    obtain ⟨hv', -⟩ := finddir_some hfindv
    have hvleaf := hleaf v hfindv hvx
    have hl' := hl.discard h hvic hvleaf
    have hqv : q ≠ v := by
      intro hqv
      rw [Child, hqv, hvleaf] at hv'
      exact not_mem_nil hv'
    have hr := hl'.settleAs h name ((hl'.live x).mpr ⟨hxlive, fun hxv => hvx (some.inj hxv).symm⟩)
      ((hl'.live q).mpr ⟨hqlive, fun hqv' => hqv (some.inj hqv')⟩)
    rw [htake] at hr
    refine ⟨h.relinked hr hx hq hbelow (fun w hw => ?_) fun c hc hcname => ?_, fun n hn => ?_⟩
    · rw [← some.inj hw]
      exact ⟨hv', hvleaf, hvx⟩
    · by_cases hcx : c = x
      · exact .inl hcx
      · exact .inr (((hl.finddir h).mpr ⟨hc, hcx, hcname⟩).symm.trans hvic)
    · by_cases hnv : n = v
      · rw [hnv]
        exact .inr ⟨hfindv, hvleaf⟩
      · exact .inl ((hr.live n).mpr ⟨hn, fun hnv' => hnv (some.inj hnv')⟩)

end FileTree

end SzpontOS.Fs
