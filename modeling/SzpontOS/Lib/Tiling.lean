import Mathlib.Tactic

/-!
# Intervals that do not overlap

What a list of intervals covers and how long it is in all are kept when some of them are replaced by others that cover
the same (`Apart.replace`), as when one is cut in two or two neighbours are joined. Intervals that do not overlap are
together no longer than the region they lie in (`total_le`).
-/

namespace SzpontOS.Lib

open Finset

structure Span where
  start : Nat
  length : Nat

namespace Span

def stop (s : Span) : Nat := s.start + s.length

def Covers (s : Span) (x : Nat) : Prop := s.start ≤ x ∧ x < s.stop

def Apart (s t : Span) : Prop := ∀ x, s.Covers x → ¬ t.Covers x

def Covered (ss : List Span) (x : Nat) : Prop := ∃ s ∈ ss, s.Covers x

def total (ss : List Span) : Nat := (ss.map length).sum

variable {s t : Span} {ss pre mid mid' post : List Span} {x lo hi : Nat}

theorem Apart.symm (h : s.Apart t) : t.Apart s := fun x ht hs => h x hs ht

/-- Two intervals apart, neither of them empty: one ends before the other starts. -/
theorem Apart.le_or_le (h : s.Apart t) (hs : 0 < s.length) (ht : 0 < t.length) :
    s.stop ≤ t.start ∨ t.stop ≤ s.start := by
  have h1 := h s.start
  have h2 := h t.start
  unfold Covers stop at *
  omega

@[simp] theorem covered_nil : ¬ Covered [] x := by simp [Covered]

@[simp] theorem covered_cons : Covered (s :: ss) x ↔ s.Covers x ∨ Covered ss x := by simp [Covered]

@[simp] theorem covered_append : Covered (pre ++ post) x ↔ Covered pre x ∨ Covered post x := by
  simp only [Covered, List.mem_append]
  constructor
  · rintro ⟨s, hs | hs, hx⟩
    · exact .inl ⟨s, hs, hx⟩
    · exact .inr ⟨s, hs, hx⟩
  · rintro (⟨s, hs, hx⟩ | ⟨s, hs, hx⟩)
    · exact ⟨s, .inl hs, hx⟩
    · exact ⟨s, .inr hs, hx⟩

@[simp] theorem total_nil : total [] = 0 := rfl

@[simp] theorem total_cons : total (s :: ss) = s.length + total ss := rfl

@[simp] theorem total_append : total (pre ++ post) = total pre + total post := by
  simp [total]

/-- **Replacing intervals.** The new intervals cover nothing that the old ones did not. -/
theorem Apart.replace (h : (pre ++ (mid ++ post)).Pairwise Apart) (hmid : mid'.Pairwise Apart)
    (hcover : ∀ x, Covered mid' x → Covered mid x) : (pre ++ (mid' ++ post)).Pairwise Apart := by
  simp only [List.pairwise_append, List.mem_append] at h ⊢
  obtain ⟨hpre, ⟨-, hpost, hmp⟩, hcross⟩ := h
  -- whatever is apart from the old intervals is apart from the new ones
  have hnew : ∀ t : Span, (∀ s ∈ mid, t.Apart s) → ∀ s ∈ mid', t.Apart s := by
    intro t ht s hs x hx hsx
    obtain ⟨r, hr, hrx⟩ := hcover x ⟨s, hs, hsx⟩
    exact ht r hr x hx hrx
  refine ⟨hpre, ⟨hmid, hpost, fun s hs t ht => ?_⟩, fun s hs t ht => ?_⟩
  · exact (hnew t (fun r hr => (hmp r hr t ht).symm) s hs).symm
  · rcases ht with ht | ht
    · exact hnew s (fun r hr => hcross s hs r (.inl hr)) t ht
    · exact hcross s hs t (.inr ht)

theorem exists_card_eq_total (h : ss.Pairwise Apart) :
    ∃ xs : Finset Nat, xs.card = total ss ∧ ∀ x, x ∈ xs ↔ Covered ss x := by
  induction ss with
  | nil => exact ⟨∅, rfl, fun x => by simp⟩
  | cons s ss ih =>
    obtain ⟨hs, hss⟩ := List.pairwise_cons.mp h
    obtain ⟨xs, hcard, hmem⟩ := ih hss
    have hdisj : Disjoint (Ico s.start s.stop) xs := by
      rw [disjoint_left]
      intro x hx hxs
      obtain ⟨t, ht, htx⟩ := (hmem x).mp hxs
      exact hs t ht x (mem_Ico.mp hx) htx
    refine ⟨Ico s.start s.stop ∪ xs, ?_, fun x => ?_⟩
    · rw [card_union_of_disjoint hdisj, hcard, Nat.card_Ico, stop, total_cons, Nat.add_sub_cancel_left]
    · rw [mem_union, mem_Ico, hmem, covered_cons]
      rfl

/-- **Intervals that do not overlap fit in the region they lie in.** -/
theorem total_le (h : ss.Pairwise Apart) (hlo : ∀ s ∈ ss, lo ≤ s.start) (hhi : ∀ s ∈ ss, s.stop ≤ hi) :
    total ss ≤ hi - lo := by
  obtain ⟨xs, hcard, hmem⟩ := exists_card_eq_total h
  rw [← hcard, ← Nat.card_Ico]
  apply card_le_card
  intro x hx
  obtain ⟨s, hs, hx⟩ := (hmem x).mp hx
  have h1 := hlo s hs
  have h2 := hhi s hs
  unfold Covers at hx
  rw [mem_Ico]
  omega

end Span

end SzpontOS.Lib
