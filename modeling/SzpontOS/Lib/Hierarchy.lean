import Mathlib.Logic.Relation
import Mathlib.Data.Set.Insert

/-!
# Hierarchies

A relation whose nodes all hang below one root, each from a single parent, has no cycles. Adding a node below a present
one, removing a node with nothing below it, and moving a node with all that is below it to a place outside give a
hierarchy again. A relation without cycles stays so when edges are added at one node that nothing at their ends leads
back to.
-/

namespace SzpontOS.Lib

open Relation Set

variable {α : Type*}

/-- The nodes in `live` hang below the root `r`. -/
structure Hierarchy (E : α → α → Prop) (r : α) (live : Set α) : Prop where
  root : r ∈ live
  ends : ∀ a b, E a b → a ∈ live ∧ b ∈ live
  top : ∀ a, ¬ E a r
  parent : ∀ a a' b, E a b → E a' b → a = a'
  reach : ∀ n ∈ live, ReflTransGen E r n

namespace Hierarchy

variable {E E' : α → α → Prop} {r p q x c v : α} {live : Set α} (h : Hierarchy E r live)

include h

theorem acyclic {n : α} : ¬ TransGen E n n := by
  intro hcycle
  have hn : n ∈ live := by
    obtain ⟨m, -, hmn⟩ := TransGen.tail'_iff.mp hcycle
    exact (h.ends m n hmn).2
  -- along the way down from the root nobody is on a cycle: the parent of a node on a cycle is on it, too
  have hpath := h.reach n hn
  induction hpath with
  | refl =>
    obtain ⟨m, -, hmr⟩ := TransGen.tail'_iff.mp hcycle
    exact h.top m hmr
  | tail _ hbc ih =>
    obtain ⟨m, hcm, hmc⟩ := TransGen.tail'_iff.mp hcycle
    rw [h.parent _ _ _ hmc hbc] at hcm
    exact ih (.head' hbc hcm) (h.ends _ _ hbc).1

theorem add (hp : p ∈ live) (hc : c ∉ live) (hE : ∀ a b, E' a b ↔ E a b ∨ a = p ∧ b = c) :
    Hierarchy E' r (insert c live) := by
  have hold : ∀ n ∈ live, ReflTransGen E' r n := by
    intro n hn
    exact .mono (fun a b hab => (hE a b).mpr (.inl hab)) _ _ (h.reach n hn)
  refine ⟨mem_insert_of_mem c h.root, fun a b hab => ?_, fun a ha => ?_, fun a a' b hab ha'b => ?_, fun n hn => ?_⟩
  · rcases (hE a b).mp hab with hE' | ⟨hap, hbc⟩
    · exact ⟨mem_insert_of_mem c (h.ends a b hE').1, mem_insert_of_mem c (h.ends a b hE').2⟩
    · rw [hap, hbc]
      exact ⟨mem_insert_of_mem c hp, mem_insert c live⟩
  · rcases (hE a r).mp ha with hE' | ⟨-, hrc⟩
    · exact h.top a hE'
    · exact hc (hrc ▸ h.root)
  · rcases (hE a b).mp hab with h1 | ⟨h1, hb1⟩ <;> rcases (hE a' b).mp ha'b with h2 | ⟨h2, hb2⟩
    · exact h.parent a a' b h1 h2
    · exact absurd (hb2 ▸ (h.ends a b h1).2) hc
    · exact absurd (hb1 ▸ (h.ends a' b h2).2) hc
    · rw [h1, h2]
  · rcases mem_insert_iff.mp hn with hnc | hn'
    · rw [hnc]
      exact (hold p hp).tail ((hE p c).mpr (.inr ⟨rfl, rfl⟩))
    · exact hold n hn'

theorem remove (hleaf : ∀ b, ¬ E v b) (hv : v ≠ r) (hE : ∀ a b, E' a b ↔ E a b ∧ b ≠ v) :
    Hierarchy E' r (live \ {v}) := by
  refine ⟨⟨h.root, hv.symm⟩, fun a b hab => ?_, fun a ha => ?_, fun a a' b hab ha'b => ?_, fun n hn => ?_⟩
  · obtain ⟨hE', hbv⟩ := (hE a b).mp hab
    obtain ⟨ha, hb⟩ := h.ends a b hE'
    have hav : a ≠ v := fun hav => hleaf b (hav ▸ hE')
    exact ⟨⟨ha, hav⟩, hb, hbv⟩
  · exact h.top a ((hE a r).mp ha).1
  · exact h.parent a a' b ((hE a b).mp hab).1 ((hE a' b).mp ha'b).1
  · have hpath := h.reach n hn.1
    have hnv := hn.2
    clear hn
    induction hpath with
    | refl => exact .refl
    | tail _ hbc ih =>
      refine .tail (ih fun hbv => ?_) ((hE _ _).mpr ⟨hbc, hnv⟩)
      exact hleaf _ (hbv ▸ hbc)

theorem move (hx : E p x) (hq : q ∈ live) (hbelow : ¬ ReflTransGen E x q)
    (hE : ∀ a b, E' a b ↔ E a b ∧ b ≠ x ∨ a = q ∧ b = x) : Hierarchy E' r live := by
  have houtside : ∀ n ∈ live, ¬ ReflTransGen E x n → ReflTransGen E' r n := by
    intro n hn hnot
    have hpath := h.reach n hn
    clear hn
    induction hpath with
    | refl => exact .refl
    | tail _ hbc ih =>
      have hne : _ ≠ x := fun hcx => hnot (hcx ▸ .refl)
      exact .tail (ih fun hxb => hnot (hxb.tail hbc)) ((hE _ _).mpr (.inl ⟨hbc, hne⟩))
  have hxlive := (h.ends p x hx).2
  have hnew : ReflTransGen E' r x := (houtside q hq hbelow).tail ((hE q x).mpr (.inr ⟨rfl, rfl⟩))
  refine ⟨h.root, fun a b hab => ?_, fun a ha => ?_, fun a a' b hab ha'b => ?_, fun n hn => ?_⟩
  · rcases (hE a b).mp hab with ⟨hE', -⟩ | ⟨haq, hbx⟩
    · exact h.ends a b hE'
    · rw [haq, hbx]
      exact ⟨hq, hxlive⟩
  · rcases (hE a r).mp ha with ⟨hE', -⟩ | ⟨-, hrx⟩
    · exact h.top a hE'
    · exact h.top p (hrx ▸ hx)
  · rcases (hE a b).mp hab with ⟨h1, hb1⟩ | ⟨h1, hb1⟩ <;> rcases (hE a' b).mp ha'b with ⟨h2, hb2⟩ | ⟨h2, hb2⟩
    · exact h.parent a a' b h1 h2
    · exact absurd hb2 hb1
    · exact absurd hb1 hb2
    · rw [h1, h2]
  · have hpath := h.reach n hn
    clear hn
    induction hpath with
    | refl => exact .refl
    | @tail b c _ hbc ih =>
      by_cases hcx : c = x
      · rw [hcx]
        exact hnew
      · exact ih.tail ((hE b c).mpr (.inl ⟨hbc, hcx⟩))

end Hierarchy

/-! ## Cycles -/

variable {r r' : α → α → Prop} {a : α}

theorem acyclic_insert (hacyc : ∀ x, ¬ TransGen r x x)
    (hsub : ∀ x y, r' x y → r x y ∨ x = a ∧ ¬ ReflTransGen r y a) (x : α) : ¬ TransGen r' x x := by
  -- a path uses at most one new edge, since nothing leads from its end back to `a`
  have hpath : ∀ {x y}, TransGen r' x y →
      TransGen r x y ∨ ∃ b, ReflTransGen r x a ∧ ¬ ReflTransGen r b a ∧ ReflTransGen r b y := by
    intro x y hxy
    induction hxy with
    | single hxy =>
      rcases hsub _ _ hxy with hold | ⟨rfl, hnew⟩
      · exact .inl (.single hold)
      · exact .inr ⟨_, .refl, hnew, .refl⟩
    | tail _ hyz ih =>
      rcases hsub _ _ hyz with hold | ⟨rfl, hnew⟩
      · rcases ih with hxy | ⟨b, hxa, hb, hby⟩
        · exact .inl (hxy.tail hold)
        · exact .inr ⟨b, hxa, hb, hby.tail hold⟩
      · rcases ih with hxy | ⟨b, -, hb, hby⟩
        · exact .inr ⟨_, hxy.to_reflTransGen, hnew, .refl⟩
        · exact absurd hby hb
  intro hcycle
  rcases hpath hcycle with hold | ⟨b, hxa, hb, hbx⟩
  · exact hacyc x hold
  · exact hb (hbx.trans hxa)

theorem acyclic_sink (hacyc : ∀ x, ¬ TransGen r x x) (hsink : ∀ y, ¬ r' a y)
    (hsub : ∀ x y, r' x y → r x y ∨ y = a) (x : α) : ¬ TransGen r' x x := by
  have hpath : ∀ {x y}, TransGen r' x y → TransGen r x y ∨ y = a := by
    intro x y hxy
    induction hxy with
    | single hxy => exact (hsub _ _ hxy).imp_left TransGen.single
    | tail _ hyz ih =>
      rcases ih with hxy | rfl
      · exact (hsub _ _ hyz).imp_left hxy.tail
      · exact absurd hyz (hsink _)
  intro hcycle
  rcases hpath hcycle with hold | rfl
  · exact hacyc x hold
  · obtain ⟨y, hy, -⟩ := TransGen.head'_iff.mp hcycle
    exact hsink y hy

end SzpontOS.Lib
