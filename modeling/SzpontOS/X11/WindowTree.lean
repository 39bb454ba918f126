import Mathlib.Data.Set.Card
import Mathlib.Data.Fintype.Option
import SzpontOS.Lib.Hierarchy
import SzpontOS.X11.Window

/-!
# The windows form a tree

Behind the pointers of the pool stands a family of sibling lists, `kids`: `window_create` adds a leaf, `window_raise`
moves a window to the end of its list, and `window_destroy` takes one leaf out after the other. The edges of `kids` are
a hierarchy below the root, which is what ends the recursion of `window_destroy`. `MapSubwindows` walks along the list
that it reorders, and stops early (`mapSubwindows_maps_iff`).
-/

namespace SzpontOS.X11

open Lib Relation Function List

/-- `b` is a child of `a`. -/
def Edge (kids : Ref → List Ref) (a b : Ref) : Prop := b ∈ kids a

def below (kids : Ref → List Ref) (r : Ref) : Set Ref := {n | ReflTransGen (Edge kids) r n}

namespace Server

def live (s : Server) : Set Ref := {r | (s.win r).isActive}

/-- The pointers of the server are those of the sibling lists `kids`. -/
structure Tree (s : Server) (kids : Ref → List Ref) : Prop where
  lists : s.links.Holds kids
  hier : Hierarchy (Edge kids) .root s.live
  parent : ∀ a b, b ∈ kids a → (s.win b).parent = some a
  top : (s.win .root).parent = none
  focus : s.focusWindow ∈ s.live
  pointer : s.pointerWindow ∈ s.live

end Server

open Server

variable {s s' : Server} {kids kids' : Ref → List Ref} {p r c : Ref} {fuel : Nat}

/-! ## How many windows there are -/

def refEquiv : Ref ≃ Option (Fin maxWindows) where
  toFun
    | .root => none
    | .slot i => some i
  invFun r := r.elim .root .slot
  left_inv r := by cases r <;> rfl
  right_inv r := by cases r <;> rfl

instance : Fintype Ref := Fintype.ofEquiv _ refEquiv.symm

theorem card_ref : Fintype.card Ref = 257 := by
  rw [Fintype.card_congr refEquiv, Fintype.card_option, Fintype.card_fin]
  rfl

theorem ncard_below_le : (below kids r).ncard ≤ 257 := by
  rw [← card_ref, ← Nat.card_eq_fintype_card, ← Set.ncard_univ]
  exact Set.ncard_le_ncard (Set.subset_univ _)

theorem ncard_below_pos (kids : Ref → List Ref) (r : Ref) : 0 < (below kids r).ncard := by
  refine (Set.ncard_pos (Set.toFinite _)).mpr ⟨r, ?_⟩
  exact .refl

/-! ## What stays -/

namespace Server

/-- No window and no client is new, and every window has the owner it had. -/
structure Shrinks (s s' : Server) : Prop where
  live : s'.live ⊆ s.live
  owner : ∀ r, (s'.win r).owner = (s.win r).owner
  clients : ∀ c, s'.clients c = true → s.clients c = true

namespace Shrinks

variable {s'' : Server}

theorem refl (s : Server) : Shrinks s s := ⟨subset_rfl, fun _ => rfl, fun _ h => h⟩

theorem trans (h : Shrinks s s') (h' : Shrinks s' s'') : Shrinks s s'' where
  live := h'.live.trans h.live
  owner r := (h'.owner r).trans (h.owner r)
  clients c hc := h.clients c (h'.clients c hc)

theorem update (r : Ref) (win : Window) (hact : win.isActive = true → (s.win r).isActive = true)
    (hown : win.owner = (s.win r).owner) (hwin : s'.win = update s.win r win)
    (hclients : s'.clients = s.clients) : Shrinks s s' := by
  have hcase : ∀ q, q = r ∧ s'.win q = win ∨ s'.win q = s.win q := by
    intro q
    rw [hwin]
    by_cases hq : q = r
    · subst hq
      exact .inl ⟨rfl, update_self q win s.win⟩
    · exact .inr (update_of_ne hq win s.win)
  refine ⟨fun q hq => ?_, fun q => ?_, fun c hc => hclients ▸ hc⟩
  · have hq' : (s'.win q).isActive = true := hq
    rcases hcase q with ⟨rfl, heq⟩ | heq
    · exact hact (heq ▸ hq')
    · rwa [heq] at hq'
  · rcases hcase q with ⟨rfl, heq⟩ | heq
    · rw [heq, hown]
    · rw [heq]

theorem modify (r : Ref) {f : Window → Window} (hf : ∀ win, (f win).isActive = win.isActive ∧ (f win).owner = win.owner) :
    Shrinks s (s.modify r f) :=
  update r _ (fun h => (hf _).1 ▸ h) (hf _).2 rfl rfl

theorem same (hwin : s'.win = s.win) (hclients : s'.clients = s.clients) : Shrinks s s' := by
  refine ⟨fun r hr => ?_, fun r => by rw [hwin], fun c hc => hclients ▸ hc⟩
  have hr' : (s'.win r).isActive = true := hr
  rwa [hwin] at hr'

end Shrinks

namespace Tree

theorem length_le (h : s.Tree kids) (r : Ref) : (kids r).length ≤ walkFuel := by
  have hlength := (h.lists.nodup r).length_le_card
  rwa [card_ref] at hlength

theorem listed (h : s.Tree kids) (hr : r ∈ s.live) (hroot : r ≠ .root) :
    ∃ p, (s.win r).parent = some p ∧ r ∈ kids p := by
  rcases ReflTransGen.cases_tail (h.hier.reach r hr) with heq | ⟨p, -, hp⟩
  · exact absurd heq hroot
  · exact ⟨p, h.parent p r hp, hp⟩

theorem same (h : s.Tree kids) (hwin : ∀ r, (s'.win r).parent = (s.win r).parent ∧ (s'.win r).isActive = (s.win r).isActive)
    (hlink : s'.links = s.links) (hfocus : s'.focusWindow ∈ s.live) (hptr : s'.pointerWindow ∈ s.live) :
    s'.Tree kids := by
  have hlive : s'.live = s.live := by
    ext r
    show (s'.win r).isActive = true ↔ _
    rw [(hwin r).2]
    rfl
  refine ⟨hlink ▸ h.lists, hlive ▸ h.hier, fun a b hb => ?_, ?_, hlive ▸ hfocus, hlive ▸ hptr⟩
  · rw [(hwin b).1]
    exact h.parent a b hb
  · rw [(hwin .root).1]
    exact h.top

theorem field_modify {α : Type} (g : Window → α) {f : Window → Window} (hf : ∀ win, g (f win) = g win) (q : Ref) :
    g ((s.modify r f).win q) = g (s.win q) := by
  show g (update s.win r (f (s.win r)) q) = _
  by_cases hq : q = r
  · rw [hq, update_self, hf]
  · rw [update_of_ne hq]

theorem modify (h : s.Tree kids) {f : Window → Window}
    (hf : ∀ win, (f win).parent = win.parent ∧ (f win).isActive = win.isActive) : (s.modify r f).Tree kids := by
  refine h.same (fun q => ⟨?_, ?_⟩) rfl h.focus h.pointer
  · exact field_modify Window.parent (fun win => (hf win).1) q
  · exact field_modify Window.isActive (fun win => (hf win).2) q

theorem live_modify {f : Window → Window} (hf : ∀ win, (f win).isActive = win.isActive) :
    (s.modify r f).live = s.live := by
  ext q
  exact Eq.congr_left (field_modify Window.isActive hf q)

theorem windowFind_live (h : s.Tree kids) {id : BitVec 32} (hr : s.windowFind id = some r) : r ∈ s.live := by
  unfold windowFind at hr
  split_ifs at hr
  · cases hr
    exact h.hier.root
  · obtain ⟨i, hi, rfl⟩ := Option.map_eq_some_iff.mp hr
    have := find?_some hi
    simp only [decide_eq_true_eq] at this
    exact this.1

theorem next (h : s.Tree kids) {xs ys : List Ref} (hkids : kids p = xs ++ c :: ys) : s.links.next c = ys.head? := by
  have hchain := h.lists.chain p
  rw [hkids, Singly.seg_append] at hchain
  obtain ⟨m, -, hrest⟩ := hchain
  exact hrest.2.head

/-! ## A new window -/

theorem unlisted (h : s.Tree kids) (hr : r ∉ s.live) : (∀ j, r ∉ kids j) ∧ kids r = [] := by
  refine ⟨fun j hj => hr (h.hier.ends j r hj).2, eq_nil_iff_forall_not_mem.mpr fun b hb => hr (h.hier.ends r b hb).1⟩

theorem edge_pushBack (a b : Ref) : Edge (update kids p (kids p ++ [c])) a b ↔ Edge kids a b ∨ a = p ∧ b = c := by
  unfold Edge
  by_cases ha : a = p
  · rw [ha, update_self, mem_append, mem_singleton]
    simp
  · simp [ha]

theorem create (h : s.Tree kids) (hc : c ∉ s.live) (hp : p ∈ s.live) {win : Window} (hwin : win.parent = some p)
    (hact : win.isActive) {links : Singly Ref Ref} (hlink : links.Holds (update kids p (kids p ++ [c]))) :
    Tree { s with win := update s.win c win, links := links } (update kids p (kids p ++ [c])) := by
  obtain ⟨hout, -⟩ := h.unlisted hc
  have hroot : Ref.root ≠ c := fun heq => hc (heq ▸ h.hier.root)
  have hlive : live { s with win := update s.win c win, links := links } = insert c s.live := by
    ext q
    show (update s.win c win q).isActive = true ↔ _
    by_cases hq : q = c
    · rw [hq, update_self]
      simp [hact]
    · simp [hq, live]
  refine ⟨hlink, hlive ▸ h.hier.add hp hc edge_pushBack, fun a b hb => ?_, ?_, ?_, ?_⟩
  · show (update s.win c win b).parent = _
    rcases (edge_pushBack a b).mp hb with hab | ⟨rfl, rfl⟩
    · have hbc : b ≠ c := fun hbc => hout a (hbc ▸ hab)
      rw [update_of_ne hbc]
      exact h.parent a b hab
    · rw [update_self]
      exact hwin
  · show (update s.win c win .root).parent = none
    rw [update_of_ne hroot]
    exact h.top
  · rw [hlive]
    exact Set.mem_insert_of_mem c h.focus
  · rw [hlive]
    exact Set.mem_insert_of_mem c h.pointer

theorem windowCreate (h : s.Tree kids) {above : Option Ref} (habove : ∀ a ∈ above, a ∈ s.live) (client : Fin maxClients)
    (id : BitVec 32) (x y w ht bw : BitVec 16) :
    ∃ result, s.windowCreate client id above x y w ht bw = some result ∧ ∃ kids', result.2.Tree kids' := by
  unfold Server.windowCreate
  split
  · exact ⟨_, rfl, kids, h⟩
  · rename_i i hfree
    have hslot : Ref.slot i ∉ s.live := by
      have := find?_some hfree
      simpa [live] using this
    have hp : above.getD .root ∈ s.live := by
      cases above with
      | none => exact h.hier.root
      | some a => exact habove a rfl
    obtain ⟨hout, hnil⟩ := h.unlisted hslot
    obtain ⟨links, hpush, hlink⟩ := (h.lists.reset hout hnil none).pushBack hout (update_self ..)
      (h.length_le (above.getD .root))
    dsimp only
    rw [hpush]
    exact ⟨_, rfl, _, h.create hslot hp rfl rfl hlink⟩

/-! ## Raising a window -/

theorem edge_raise (hr : r ∈ kids p) (a b : Ref) :
    Edge (update kids p ((kids p).erase r ++ [r])) a b ↔ Edge kids a b := by
  unfold Edge
  by_cases ha : a = p
  · subst ha
    by_cases hb : b = r
    · simp [hb, hr]
    · simp [hb, mem_erase_of_ne hb]
  · rw [update_of_ne ha]

theorem windowRaise (h : s.Tree kids) (hr : r ∈ s.live) : ∃ links focus kids',
    s.windowRaise r = some { s with links := links, focusWindow := focus } ∧
    Tree { s with links := links, focusWindow := focus } kids' ∧
    ∀ q, kids' q = if r ∈ kids q then (kids q).erase r ++ [r] else kids q := by
  unfold Server.windowRaise
  by_cases hroot : r = .root
  · subst hroot
    rw [h.top]
    exact ⟨s.links, s.focusWindow, kids, rfl, h, fun q => (if_neg (h.hier.top q)).symm⟩
  · obtain ⟨p, hpar, hp⟩ := h.listed hr hroot
    have hpr : p ≠ r := fun hpr => h.hier.acyclic (.single (show Edge kids r r from hpr ▸ hp))
    obtain ⟨cut, hcut, hholds⟩ := h.lists.unlink hp (h.length_le p)
    have hout : ∀ j, r ∉ update kids p ((kids p).erase r) j := by
      intro j hj
      by_cases hjp : j = p
      · rw [hjp, update_self] at hj
        exact (h.lists.nodup p).not_mem_erase hj
      · rw [update_of_ne hjp] at hj
        exact hjp (h.lists.disjoint j p r hj hp)
    have hclear : Singly.Holds ⟨cut.first, update cut.next r none⟩
        (update kids p ((kids p).erase r)) :=
      ⟨hholds.nodup, hholds.disjoint, fun j => (hholds.chain j).setNext (hout j) none⟩
    have hlength : (update kids p ((kids p).erase r) p).length ≤ walkFuel := by
      rw [update_self]
      exact length_erase_le.trans (h.length_le p)
    obtain ⟨links, hpush, hlink⟩ := hclear.pushBack hout (update_self ..) hlength
    rw [update_self, update_idem] at hlink
    rw [hpar]
    dsimp only
    rw [if_neg hpr, hcut, Option.bind_some, hpush]
    have hedge : Edge (update kids p ((kids p).erase r ++ [r])) = Edge kids := by
      funext a b
      exact propext (edge_raise hp a b)
    refine ⟨_, _, _, rfl, ⟨hlink, hedge ▸ h.hier, fun a b hb => ?_, h.top, hr, h.pointer⟩, fun q => ?_⟩
    · exact h.parent a b ((edge_raise hp a b).mp hb)
    · by_cases hq : q = p
      · rw [hq, update_self, if_pos hp]
      · rw [update_of_ne hq, if_neg fun hrq => hq (h.lists.disjoint q p r hrq hp)]

/-! ## Destroying a window -/

theorem edge_erase (hr : r ∈ kids p) (hrest : ∀ j, j ≠ p → r ∉ kids j) (hnd : (kids p).Nodup) (a b : Ref) :
    Edge (update kids p ((kids p).erase r)) a b ↔ Edge kids a b ∧ b ≠ r := by
  unfold Edge
  by_cases ha : a = p
  · subst ha
    rw [update_self, hnd.mem_erase_iff, and_comm]
  · rw [update_of_ne ha]
    exact ⟨fun hb => ⟨hb, fun hbr => hrest a ha (hbr ▸ hb)⟩, fun hb => hb.1⟩

theorem retire (h : s.Tree kids) (hr : r ∈ kids p) (hleaf : kids r = []) :
    ∃ s', s.retire r = some s' ∧ s'.Tree (update kids p ((kids p).erase r)) ∧ r ∉ s'.live ∧ Shrinks s s' := by
  have hroot : r ≠ .root := fun hroot => h.hier.top p (hroot ▸ hr)
  have hedge := edge_erase hr (fun j hj hmem => hj (h.lists.disjoint j p r hmem hr)) (h.lists.nodup p)
  obtain ⟨links, hcut, hlink⟩ := h.lists.unlink hr (h.length_le p)
  unfold Server.retire
  rw [h.parent p r hr]
  dsimp only
  rw [hcut]
  refine ⟨_, rfl, ?_, ?_, .update r { s.win r with isActive := false, id := 0 } (fun hact => ?_) rfl rfl rfl⟩
  · have hlive : live { s with
        links := links
        focusWindow := if s.focusWindow = r then .root else s.focusWindow
        pointerWindow := if s.pointerWindow = r then .root else s.pointerWindow
        win := update s.win r { s.win r with isActive := false, id := 0 } } = s.live \ {r} := by
      ext q
      show (update s.win r _ q).isActive = true ↔ _
      by_cases hq : q = r
      · rw [hq, update_self]
        simp
      · simp [hq, live]
    have hstay : ∀ q ∈ s.live, (if q = r then Ref.root else q) ∈ s.live \ {r} := by
      intro q hq
      split_ifs with hqr
      · exact ⟨h.hier.root, fun heq => hroot heq.symm⟩
      · exact ⟨hq, hqr⟩
    refine ⟨hlink, hlive ▸ h.hier.remove (fun b hb => ?_) hroot hedge, fun a b hb => ?_, ?_, ?_, ?_⟩
    · rw [Edge, hleaf] at hb
      cases hb
    · obtain ⟨hb, hbr⟩ := (hedge a b).mp hb
      show (update s.win r _ b).parent = _
      rw [update_of_ne hbr]
      exact h.parent a b hb
    · show (update s.win r _ .root).parent = none
      rw [update_of_ne (Ne.symm hroot)]
      exact h.top
    · rw [hlive]
      exact hstay s.focusWindow h.focus
    · rw [hlive]
      exact hstay s.pointerWindow h.pointer
  · show ¬ (update s.win r _ r).isActive = true
    simp
  · cases hact

theorem notMem_below (h : s.Tree kids) (hc : c ∈ kids p) : p ∉ below kids c := by
  intro hbelow
  exact h.hier.acyclic (.head' hc hbelow)

theorem below_subset (hc : c ∈ kids p) : below kids c ⊆ below kids p := fun _ hn => .head hc hn

theorem ncard_below_lt (h : s.Tree kids) (hc : c ∈ kids p) : (below kids c).ncard < (below kids p).ncard := by
  refine Set.ncard_lt_ncard ⟨below_subset hc, fun hsub => h.notMem_below hc (hsub ?_)⟩
  exact .refl

/-- What is left of the tree: nothing was added, and outside of `gone` the lists are as `left` says. -/
structure Left (kids kids' : Ref → List Ref) (gone : Set Ref) (left : Ref → List Ref) : Prop where
  sub : ∀ a b, b ∈ kids' a → b ∈ kids a
  frame : ∀ a, a ∉ gone → kids' a = left a

theorem below_mono (hsub : ∀ a b, b ∈ kids' a → b ∈ kids a) : below kids' r ⊆ below kids r :=
  fun _ hn => .mono hsub _ _ hn

theorem ncard_below_lt_of_gone (h : s'.Tree kids') (hsub : ∀ a b, b ∈ kids' a → b ∈ kids a) (hc : c ∈ kids p) (hcp : c ≠ p)
    (hgone : c ∉ s'.live) : (below kids' p).ncard < (below kids p).ncard := by
  refine Set.ncard_lt_ncard ⟨below_mono hsub, fun hback => ?_⟩
  have hcbelow : c ∈ below kids' p := hback (.single hc)
  rcases ReflTransGen.cases_tail hcbelow with heq | ⟨a, -, ha⟩
  · exact hcp heq
  · exact hgone (h.hier.ends a c ha).2

theorem stays (h : s.Tree kids) (h' : s'.Tree kids') (hp : p ∈ s.live) (hroot : p ≠ .root) (hc : c ∈ kids p)
    (hleft : Left kids kids' (below kids c) fun a => (kids a).erase c) : p ∈ s'.live ∧ kids' p = (kids p).erase c := by
  refine ⟨?_, hleft.frame p (h.notMem_below hc)⟩
  obtain ⟨a, -, ha⟩ := h.listed hp hroot
  have hac : a ∉ below kids c := fun hac => h.hier.acyclic (.head' hc (.tail hac ha))
  have hpc : p ≠ c := fun hpc => h.notMem_below hc (hpc ▸ ReflTransGen.refl)
  have hmem : p ∈ kids' a := by
    rw [hleft.frame a hac]
    exact (mem_erase_of_ne hpc).mpr ha
  exact (h'.hier.ends a p hmem).2

/-- The recursion, by induction on the fuel: each window on the way takes one unit for itself and one for the step to its
sibling. -/
theorem destroy (fuel : Nat) : (∀ {s kids r}, Tree s kids → r ∈ s.live → r ≠ .root → 2 * (below kids r).ncard ≤ fuel →
      ∃ s' kids', windowDestroyFuel fuel s r = some s' ∧ s'.Tree kids' ∧ r ∉ s'.live ∧ Shrinks s s' ∧
        Left kids kids' (below kids r) fun a => (kids a).erase r) ∧
    (∀ {s kids p}, Tree s kids → p ∈ s.live → p ≠ .root → 2 * (below kids p).ncard ≤ fuel + 1 →
      ∃ s' kids', destroyChildren fuel s (kids p).head? = some s' ∧ s'.Tree kids' ∧ p ∈ s'.live ∧ kids' p = [] ∧
        Shrinks s s' ∧ Left kids kids' (below kids p) kids) := by
  induction fuel with
  | zero =>
    refine ⟨fun {s kids r} _ _ _ hfuel => ?_, fun {s kids p} h hp _ hfuel => ?_⟩
    · have := ncard_below_pos kids r
      omega
    · have := ncard_below_pos kids p
      omega
  | succ fuel ih =>
    obtain ⟨ihWindow, ihChildren⟩ := ih
    refine ⟨fun {s kids r} h hr hroot hfuel => ?_, fun {s kids p} h hp hroot hfuel => ?_⟩
    · unfold windowDestroyFuel
      rw [if_neg hroot, (h.lists.chain r).head]
      obtain ⟨s1, kids1, hrun, h1, hlive, hnil, hshrinks, hleft⟩ := ihChildren h hr hroot hfuel
      obtain ⟨p, -, hp⟩ := h.listed hr hroot
      have hpr : p ∉ below kids r := h.notMem_below hp
      have hp1 : r ∈ kids1 p := by
        rw [hleft.frame p hpr]
        exact hp
      obtain ⟨s2, hretire, h2, hgone, hshrinks2⟩ := h1.retire hp1 hnil
      rw [hrun, Option.bind_some]
      refine ⟨s2, _, hretire, h2, hgone, hshrinks.trans hshrinks2, fun a b hb => hleft.sub a b ?_, fun a ha => ?_⟩
      · by_cases hap : a = p
        · rw [hap, update_self] at hb
          exact hap ▸ mem_of_mem_erase hb
        · rwa [update_of_ne hap] at hb
      · by_cases hap : a = p
        · rw [hap, update_self, hleft.frame p hpr]
        · have hra : r ∉ kids a := fun hra => hap (h.lists.disjoint a p r hra hp)
          rw [update_of_ne hap, hleft.frame a ha, erase_of_not_mem hra]
    · rcases hkids : kids p with _ | ⟨c, rest⟩
      · exact ⟨s, kids, by simp [destroyChildren], h, hp, hkids, .refl s, fun _ _ hb => hb, fun _ _ => rfl⟩
      · have hc : c ∈ kids p := by simp [hkids]
        have hcp : c ≠ p := fun hcp => h.notMem_below hc (hcp ▸ ReflTransGen.refl)
        have hclive := (h.hier.ends p c hc).2
        have hcroot : c ≠ .root := fun hcroot => h.hier.top p (hcroot ▸ hc)
        have hnext : s.links.next c = rest.head? := h.next (show kids p = [] ++ c :: rest from hkids)
        have hfewer := h.ncard_below_lt hc
        obtain ⟨s1, kids1, hrun, h1, hgone, hshrinks, hleft⟩ := ihWindow h hclive hcroot (by omega)
        obtain ⟨hp1, hkids1⟩ := h.stays h1 hp hroot hc hleft
        rw [hkids, erase_cons_head] at hkids1
        have hless := h1.ncard_below_lt_of_gone hleft.sub hc hcp hgone
        obtain ⟨s2, kids2, hrun2, h2, hp2, hnil, hshrinks2, hleft2⟩ := ihChildren h1 hp1 hroot (by omega)
        rw [hkids1] at hrun2
        unfold destroyChildren
        simp only [head?_cons, hrun, Option.bind_some, hnext, hrun2]
        refine ⟨s2, kids2, rfl, h2, hp2, hnil, hshrinks.trans hshrinks2, fun a b hb => hleft.sub a b (hleft2.sub a b hb),
          fun a ha => ?_⟩
        have hca : c ∉ kids a := by
          intro hca
          exact ha (h.lists.disjoint a p c hca hc ▸ ReflTransGen.refl)
        rw [hleft2.frame a fun hmem => ha (below_mono hleft.sub hmem),
          hleft.frame a fun hmem => ha (below_subset hc hmem), erase_of_not_mem hca]

theorem windowDestroy (h : s.Tree kids) (hr : r ∈ s.live) :
    ∃ s' kids', s.windowDestroy r = some s' ∧ s'.Tree kids' ∧ Shrinks s s' := by
  by_cases hroot : r = .root
  · exact ⟨s, kids, by rw [hroot]; rfl, h, .refl s⟩
  · have hfuel : 2 * (below kids r).ncard ≤ destroyFuel := Nat.mul_le_mul_left 2 ncard_below_le
    obtain ⟨s', kids', hrun, h', -, hshrinks, -⟩ := (destroy destroyFuel).1 h hr hroot hfuel
    exact ⟨s', kids', hrun, h', hshrinks⟩

/-! ## The requests -/

/-- What `window_map` does before it raises the window changes neither which windows there are nor which are mapped. -/
structure Placed (s s' : Server) : Prop where
  live : s'.live = s.live
  shrinks : Shrinks s s'
  mapped : ∀ q, (s'.win q).mapped = (s.win q).mapped

theorem Placed.refl (s : Server) : Placed s s := ⟨rfl, .refl s, fun _ => rfl⟩

theorem Placed.modify {f : Window → Window}
    (hf : ∀ win, (f win).isActive = win.isActive ∧ (f win).owner = win.owner ∧ (f win).mapped = win.mapped) :
    Placed s (s.modify r f) :=
  ⟨live_modify fun win => (hf win).1, .modify r fun win => ⟨(hf win).1, (hf win).2.1⟩,
    field_modify Window.mapped fun win => (hf win).2.2⟩

theorem placeMapped (h : s.Tree kids) (hr : r ∈ s.live) : ∃ s' kids', s.placeMapped r = some s' ∧ s'.Tree kids' ∧
    Placed s s' ∧ ∀ p, r ∈ kids p → kids' p = kids p := by
  unfold Server.placeMapped
  split
  · exact ⟨s, kids, rfl, h, .refl s, fun _ _ => rfl⟩
  · split_ifs
    · exact ⟨_, kids, rfl, h.modify fun _ => ⟨rfl, rfl⟩, .modify fun _ => ⟨rfl, rfl, rfl⟩, fun _ _ => rfl⟩
    · exact ⟨s, kids, rfl, h, .refl s, fun _ _ => rfl⟩
  · rename_i i hpar
    have hroot : r ≠ .root := by
      rintro rfl
      rw [h.top] at hpar
      cases hpar
    obtain ⟨p, hp, hmem⟩ := h.listed hr hroot
    obtain rfl : Ref.slot i = p := Option.some.inj (hpar.symm.trans hp)
    dsimp only
    have hraise : ∀ {grown : Server}, grown.Tree kids → Placed s grown → ∃ s' kids',
        grown.windowRaise (.slot i) = some s' ∧ s'.Tree kids' ∧ Placed s s' ∧ ∀ p, r ∈ kids p → kids' p = kids p := by
      intro grown hgrow hput
      have hlive : Ref.slot i ∈ grown.live := by
        rw [hput.live]
        exact (h.hier.ends _ r hmem).1
      obtain ⟨links, focus, kids', hraised, h', hkids⟩ := hgrow.windowRaise hlive
      refine ⟨_, kids', hraised, h', ⟨hput.live, hput.shrinks.trans (.same rfl rfl), hput.mapped⟩, fun q hq => ?_⟩
      rw [hkids, if_neg]
      rw [h.lists.disjoint q _ r hq hmem]
      exact fun hself => h.hier.acyclic (.single hself)
    split_ifs
    · exact hraise (h.modify fun _ => ⟨rfl, rfl⟩) (.modify fun _ => ⟨rfl, rfl, rfl⟩)
    · exact hraise h (.refl s)

theorem windowMap (h : s.Tree kids) (hr : r ∈ s.live) : ∃ s' kids', s.windowMap r = some s' ∧ s'.Tree kids' ∧
    Shrinks s s' ∧ (∀ q, (s'.win q).mapped = true ↔ (s.win q).mapped = true ∨ q = r) ∧
    ∀ p, r ∈ kids p → kids' p = if (s.win r).mapped then kids p else (kids p).erase r ++ [r] := by
  unfold Server.windowMap
  split_ifs with hmapped
  · refine ⟨s, kids, rfl, h, .refl s, fun q => ⟨.inl, ?_⟩, fun _ _ => rfl⟩
    rintro (hq | rfl)
    · exact hq
    · exact hmapped
  · set shown := s.modify r fun win => { win with mapped := true } with hshown
    have hlive : shown.live = s.live := live_modify fun _ => rfl
    have htree : shown.Tree kids := h.modify fun _ => ⟨rfl, rfl⟩
    obtain ⟨s1, kids1, hplace, h1, hput, hkids1⟩ := htree.placeMapped (hlive ▸ hr)
    have hr1 : r ∈ s1.live := by rwa [hput.live, hlive]
    obtain ⟨links, focus, kids2, hraise, h2, hkids2⟩ := h1.windowRaise hr1
    rw [hplace, Option.bind_some, hraise]
    have hfst : Shrinks s shown := .modify r fun _ => ⟨rfl, rfl⟩
    refine ⟨_, kids2, rfl, h2.same (fun _ => ⟨rfl, rfl⟩) rfl hr1 h2.pointer,
      hfst.trans (hput.shrinks.trans (.same rfl rfl)), fun q => ?_, fun p hp => ?_⟩
    · show (s1.win q).mapped = true ↔ _
      rw [hput.mapped, hshown, Server.modify]
      by_cases hq : q = r
      · simp [hq]
      · simp [hq]
    · have hsame := hkids1 p hp
      rw [hkids2, hsame, if_pos hp]

theorem windowUnmap (h : s.Tree kids) : (s.windowUnmap r).Tree kids ∧ Shrinks s (s.windowUnmap r) := by
  have hmod : (s.modify r fun win => { win with mapped := false }).Tree kids := h.modify fun _ => ⟨rfl, rfl⟩
  unfold Server.windowUnmap
  by_cases hmapped : (s.win r).mapped
  · rw [if_neg (not_not_intro hmapped)]
    refine ⟨hmod.same (fun _ => ⟨rfl, rfl⟩) rfl ?_ hmod.pointer, .update r { s.win r with mapped := false } id rfl rfl rfl⟩
    split_ifs
    · exact hmod.hier.root
    · exact hmod.focus
  · rw [if_pos hmapped]
    exact ⟨h, .refl s⟩

theorem handleConfigureWindow (h : s.Tree kids) (hr : r ∈ s.live) (values : Configure) :
    ∃ s' kids', s.handleConfigureWindow r values = some s' ∧ s'.Tree kids' ∧ Shrinks s s' := by
  unfold Server.handleConfigureWindow
  split_ifs
  · obtain ⟨links, focus, kids1, hraise, h1, -⟩ := h.windowRaise hr
    rw [hraise]
    have hsame : Shrinks s { s with links := links, focusWindow := focus } := .same rfl rfl
    refine ⟨_, kids1, rfl, h1.modify fun _ => ⟨rfl, rfl⟩, hsame.trans (.modify r ?_)⟩
    exact fun _ => ⟨rfl, rfl⟩
  · refine ⟨_, kids, rfl, h.modify fun _ => ⟨rfl, rfl⟩, .modify r ?_⟩
    exact fun _ => ⟨rfl, rfl⟩

/-- The scan of the pool: what the slots hold has changed under it, but it asks each slot anew. -/
theorem scan (c : Fin maxClients) (is : List (Fin maxWindows)) (h : s.Tree kids) : ∃ s' kids', is.foldlM (fun s i =>
      if (s.win (.slot i)).isActive ∧ (s.win (.slot i)).owner = some c then s.windowDestroy (.slot i) else some s) s =
        some s' ∧ s'.Tree kids' ∧ Shrinks s s' := by
  induction is generalizing s kids with
  | nil => exact ⟨s, kids, rfl, h, .refl s⟩
  | cons i is ih =>
    rw [foldlM_cons]
    by_cases hi : (s.win (.slot i)).isActive ∧ (s.win (.slot i)).owner = some c
    · obtain ⟨s1, kids1, hrun, h1, hshrinks⟩ := h.windowDestroy (r := .slot i) hi.1
      obtain ⟨s', kids', hrest, h', hshrinks'⟩ := ih h1
      rw [if_pos hi, hrun]
      exact ⟨s', kids', hrest, h', hshrinks.trans hshrinks'⟩
    · rw [if_neg hi]
      exact ih h

section

variable (h : s.Tree kids)

include h

theorem clientClose (c : Fin maxClients) : ∃ s' kids', s.clientClose c = some s' ∧ s'.Tree kids' ∧ Shrinks s s' := by
  unfold Server.clientClose
  split_ifs
  · obtain ⟨s1, kids1, hrun, h1, hshrinks⟩ := h.scan c (finRange maxWindows)
    rw [hrun]
    refine ⟨_, kids1, rfl, h1.same (fun _ => ⟨rfl, rfl⟩) rfl h1.focus h1.pointer, hshrinks.live, hshrinks.owner, fun b hb => ?_⟩
    have hb' : update s1.clients c false b = true := hb
    by_cases hbc : b = c
    · rw [hbc, update_self] at hb'
      cases hb'
    · rw [update_of_ne hbc] at hb'
      exact hshrinks.clients b hb'
  · exact ⟨s, kids, rfl, h, .refl s⟩

theorem clientAccept : s.clientAccept.Tree kids := by
  unfold Server.clientAccept
  split
  · exact h
  · exact h.same (fun _ => ⟨rfl, rfl⟩) rfl h.focus h.pointer

theorem onFound (id : BitVec 32) {f : Ref → Option Server}
    {P : Ref → Server → (Ref → List Ref) → Prop}
    (hf : ∀ r ∈ s.live, ∃ s' kids', f r = some s' ∧ s'.Tree kids' ∧ P r s' kids') :
    ∃ s' kids', (s.windowFind id).elim (some s) f = some s' ∧ s'.Tree kids' := by
  cases hfind : s.windowFind id with
  | none => exact ⟨s, kids, rfl, h⟩
  | some r =>
    obtain ⟨s', kids', hrun, h', -⟩ := hf r (h.windowFind_live hfind)
    exact ⟨s', kids', hrun, h'⟩

theorem step (op : Op) : ∃ s' kids', s.step op = some s' ∧ s'.Tree kids' := by
  cases op with
  | createWindow c id parent x y w ht bw =>
    obtain ⟨result, hrun, kids', h'⟩ := h.windowCreate (fun a ha => h.windowFind_live ha) c id x y w ht bw
    refine ⟨result.2, kids', ?_, h'⟩
    show (s.windowCreate c id (s.windowFind parent) x y w ht bw).map Prod.snd = _
    rw [hrun]
    rfl
  | destroyWindow id => exact h.onFound id fun r hr => h.windowDestroy hr
  | mapWindow id => exact h.onFound id fun r hr => h.windowMap hr
  | unmapWindow id =>
    refine ⟨_, kids, rfl, ?_⟩
    cases s.windowFind id with
    | none => exact h
    | some r => exact h.windowUnmap.1
  | configureWindow id values => exact h.onFound id fun r hr => h.handleConfigureWindow hr values
  | raise r =>
    show ∃ s' kids', (if (s.win r).isActive then s.windowRaise r else some s) = some s' ∧ s'.Tree kids'
    split_ifs with hr
    · obtain ⟨links, focus, kids', hrun, h', -⟩ := h.windowRaise hr
      exact ⟨_, kids', hrun, h'⟩
    · exact ⟨s, kids, rfl, h⟩
  | clientAccept => exact ⟨_, kids, rfl, h.clientAccept⟩
  | clientClose c =>
    obtain ⟨s', kids', hrun, h', -⟩ := h.clientClose c
    exact ⟨s', kids', hrun, h'⟩

theorem run (ops : List Op) : ∃ s' kids', s.run ops = some s' ∧ s'.Tree kids' := by
  induction ops generalizing s kids with
  | nil => exact ⟨s, kids, rfl, h⟩
  | cons op ops ih =>
    obtain ⟨s1, kids1, hstep, h1⟩ := h.step op
    obtain ⟨s', kids', hrun, h'⟩ := ih h1
    refine ⟨s', kids', ?_, h'⟩
    rw [Server.run, foldlM_cons, hstep]
    exact hrun

end

theorem init (width height : BitVec 16) : (windowInitSystem width height).Tree fun _ => [] := by
  refine ⟨⟨fun _ => nodup_nil, fun _ _ _ hx => absurd hx not_mem_nil, fun _ => rfl⟩,
    ⟨rfl, fun _ _ hb => absurd hb not_mem_nil, fun _ hb => absurd hb not_mem_nil,
      fun _ _ _ hb => absurd hb not_mem_nil, fun n hn => ?_⟩, fun _ _ hb => absurd hb not_mem_nil, rfl, rfl, rfl⟩
  cases n with
  | root => exact .refl
  | slot i => cases hn

theorem climbs (h : s.Tree kids) (hr : r ∈ s.live) : ReflTransGen (fun a b => (s.win a).parent = some b) r .root := by
  have hpath := h.hier.reach r hr
  clear hr
  induction hpath with
  | refl => exact .refl
  | tail _ hbc ih => exact .head (h.parent _ _ hbc) ih

/-! ## Mapping all children -/

/-- The loop visits mapped children up to the first one that is not: that one is mapped and becomes the last child, and
there the loop ends. -/
theorem mapSiblings {rest : List Ref} : ∀ {s kids done fuel}, Tree s kids → kids p = done ++ rest → rest.length ≤ fuel →
    ∃ visited s' kids', Server.mapSiblings fuel s rest.head? = some (visited, s') ∧ s'.Tree kids' ∧ kids' p ~ kids p ∧
      visited <+: rest ∧ (∀ q, (s'.win q).mapped = true ↔ (s.win q).mapped = true ∨ q ∈ visited) ∧
      (visited = rest ↔ ∀ c ∈ rest.dropLast, (s.win c).mapped = true) := by
  induction rest with
  | nil =>
    intro s kids done fuel h _ _
    exact ⟨[], s, kids, by simp [Server.mapSiblings], h, .refl _, prefix_refl _, by simp, by simp⟩
  | cons c rest ih =>
    intro s kids done fuel h hkids hfuel
    have hc : c ∈ kids p := by simp [hkids]
    obtain ⟨s1, kids1, hmap, h1, -, hmapped, hkids1⟩ := h.windowMap (h.hier.ends p c hc).2
    obtain ⟨fuel, rfl⟩ : ∃ n, fuel = n + 1 := Nat.exists_eq_succ_of_ne_zero (Nat.pos_iff_ne_zero.mp (Nat.zero_lt_of_lt hfuel))
    rw [head?_cons, Server.mapSiblings, hmap, Option.bind_some]
    by_cases hshown : (s.win c).mapped = true
    · have hsame : kids1 p = kids p := (hkids1 p hc).trans (if_pos hshown)
      rw [h1.next (hsame.trans hkids)]
      obtain ⟨visited, s', kids', hrun, h', hperm, hpre, hall, hiff⟩ :=
        ih h1 (hsame.trans (hkids.trans (append_cons ..))) (Nat.le_of_succ_le_succ hfuel)
      have hmapped1 : ∀ q, (s1.win q).mapped = true ↔ (s.win q).mapped = true := by
        intro q
        rw [hmapped, or_iff_left_of_imp]
        rintro rfl
        exact hshown
      rw [hrun]
      refine ⟨c :: visited, s', kids', rfl, h', hsame ▸ hperm, ?_, fun q => ?_, ?_⟩
      · exact (prefix_cons_inj c).mpr hpre
      · rw [hall, hmapped, mem_cons, or_assoc]
      · rw [cons.injEq, and_iff_right rfl, hiff]
        cases rest with
        | nil => simp
        | cons d rest => simp [hmapped1, hshown]
    · have hlast : kids1 p = (kids p).erase c ++ [c] := (hkids1 p hc).trans (if_neg hshown)
      rw [h1.next hlast]
      refine ⟨[c], s1, kids1, by simp [Server.mapSiblings], h1, ?_, ?_, fun q => ?_, ?_⟩
      · rw [hlast]
        exact perm_append_comm.trans (perm_cons_erase hc).symm
      · exact (prefix_cons_inj c).mpr nil_prefix
      · rw [hmapped, mem_singleton]
      · cases rest with
        | nil => simp
        | cons d rest => simp [hshown]

end Tree

end Server

/-- **`MapSubwindows`.** The children stay the same windows. Each of them is mapped afterwards, and was visited once, if
and only if all but the last one were mapped before. -/
theorem mapSubwindows_maps_iff (h : s.Tree kids) (p : Ref) : ∃ visited s' kids', s.mapSubwindows p = some (visited, s') ∧
    s'.Tree kids' ∧ kids' p ~ kids p ∧ ((∀ c ∈ kids p, (s'.win c).mapped = true ∧ visited.count c = 1) ↔
      ∀ c ∈ (kids p).dropLast, (s.win c).mapped = true) := by
  obtain ⟨visited, s', kids', hrun, h', hperm, hpre, hall, hiff⟩ :=
    Tree.mapSiblings h (show kids p = [] ++ kids p from rfl) (h.length_le p)
  rw [← (h.lists.chain p).head] at hrun
  refine ⟨visited, s', kids', hrun, h', hperm, .trans ⟨fun hvis => ?_, fun heq c hc => ?_⟩ hiff⟩
  · have hsub : kids p ⊆ visited := fun c hc => count_pos_iff.mp ((hvis c hc).2 ▸ Nat.one_pos)
    exact hpre.eq_of_length_le ((h.lists.nodup p).subperm hsub).length_le
  · rw [heq, hall, heq]
    exact ⟨.inr hc, count_eq_one_of_mem (h.lists.nodup p) hc⟩

def firstClient : Fin maxClients := ⟨0, by decide⟩

def twoWindows : List Op :=
  [.createWindow firstClient 0x200001 1 0 0 9 9 0, .createWindow firstClient 0x200002 1 0 0 9 9 0]

theorem mapSubwindows_maps_iff_twoWindows : ∃ s kids, (windowInitSystem 640 480).run twoWindows = some s ∧ s.Tree kids ∧
    ∃ visited s' kids', s.mapSubwindows .root = some (visited, s') ∧ s'.Tree kids' ∧ kids' .root ~ kids .root ∧
      ((∀ c ∈ kids .root, (s'.win c).mapped = true ∧ visited.count c = 1) ↔
        ∀ c ∈ (kids .root).dropLast, (s.win c).mapped = true) := by
  obtain ⟨s, kids, hrun, h⟩ := (Tree.init 640 480).run twoWindows
  exact ⟨s, kids, hrun, h, mapSubwindows_maps_iff h .root⟩

def firstSlot : Ref := .slot ⟨0, by decide⟩

def secondSlot : Ref := .slot ⟨1, by decide⟩

/-- The second window is a child of the root, and is neither visited nor mapped. -/
theorem mapSubwindows_stops : (((windowInitSystem 640 480).run twoWindows).bind fun s =>
    (s.mapSubwindows .root).map fun done => (s.links.first .root, s.links.next firstSlot, done.1,
      (done.2.win secondSlot).mapped)) = some (some firstSlot, some secondSlot, [firstSlot], false) := by
  decide +kernel

/-- The child list of `r`, as its pointers have it. -/
def Server.ChildList (s : Server) (r : Ref) (l : List Ref) : Prop := Singly.Seg s.links.next (s.links.first r) l none

/-- **The window tree.** After any requests of any clients every window has a finite child list; every active window
occurs exactly once in the child list of its parent and in no other, its parent pointers lead to the root, every listed
child is active, and `focus_window` and `pointer_window` are the root or active. -/
theorem window_tree (width height : BitVec 16) (ops : List Op) :
    ∃ s, (windowInitSystem width height).run ops = some s ∧ ∃ kids : Ref → List Ref, (∀ r, s.ChildList r (kids r)) ∧
      (∀ i, (s.win (.slot i)).isActive → ∃ p, (s.win (.slot i)).parent = some p ∧ (kids p).count (.slot i) = 1 ∧
        (∀ q, q ≠ p → .slot i ∉ kids q) ∧ ReflTransGen (fun a b => (s.win a).parent = some b) (.slot i) .root) ∧
      (∀ r, ∀ c ∈ kids r, (s.win c).isActive) ∧
      (s.focusWindow = .root ∨ (s.win s.focusWindow).isActive) ∧
      (s.pointerWindow = .root ∨ (s.win s.pointerWindow).isActive) := by
  obtain ⟨s, kids, hrun, h⟩ := (Tree.init width height).run ops
  refine ⟨s, hrun, kids, h.lists.chain, fun i hi => ?_, fun r c hc => (h.hier.ends r c hc).2, .inr h.focus,
    .inr h.pointer⟩
  obtain ⟨p, hparent, hp⟩ := h.listed hi (by simp)
  refine ⟨p, hparent, List.count_eq_one_of_mem (h.lists.nodup p) hp, fun q hq hmem => ?_, h.climbs hi⟩
  exact hq (h.lists.disjoint q p _ hmem hp)

end SzpontOS.X11
