import Mathlib.Data.List.Basic
import Mathlib.Data.Nat.ModEq
import Mathlib.Logic.Function.Basic
import Mathlib.Tactic.Common

/-!
# Ring buffers

A ring of `cap` cells with the index of its oldest element, the index of the next free cell and the number of elements.
`contents` is the queue that the ring stands for: pushing appends to it, and popping takes from its front.
-/

namespace SzpontOS.Lib

open List Nat

structure RingBuffer (α : Type*) where
  buf : Nat → α
  head : Nat
  tail : Nat
  len : Nat

namespace RingBuffer

variable {α : Type*} {cap : Nat} {r : RingBuffer α}

/-! ## Operations -/

/-- One element goes into the cell at `tail`. -/
def push (cap : Nat) (r : RingBuffer α) (x : α) : RingBuffer α :=
  { r with buf := Function.update r.buf r.tail x, tail := (r.tail + 1) % cap, len := r.len + 1 }

/-- Elements go in one by one while there is a free cell; the number of those that did. -/
def pushWhile (cap : Nat) (r : RingBuffer α) : List α → Nat × RingBuffer α
  | [] => (0, r)
  | x :: xs =>
    if r.len < cap then
      let (n, r') := pushWhile cap (r.push cap x) xs
      (n + 1, r')
    else (0, r)

/-- The loop that copies `n` elements out and moves `head` past them. -/
def copyOut (cap : Nat) (r : RingBuffer α) : Nat → List α × RingBuffer α
  | 0 => ([], r)
  | n + 1 =>
    let (xs, r') := copyOut cap { r with head := (r.head + 1) % cap } n
    (r.buf r.head :: xs, r')

def pop (cap : Nat) (r : RingBuffer α) (n : Nat) : List α × RingBuffer α :=
  ((r.copyOut cap n).1, { (r.copyOut cap n).2 with len := (r.copyOut cap n).2.len - n })

/-! ## The queue -/

def contents (cap : Nat) (r : RingBuffer α) : List α := (List.range r.len).map fun i => r.buf ((r.head + i) % cap)

structure WF (cap : Nat) (r : RingBuffer α) : Prop where
  head_lt : r.head < cap
  len_le : r.len ≤ cap
  tail_eq : r.tail = (r.head + r.len) % cap

@[simp] theorem length_contents : (r.contents cap).length = r.len := by simp [contents]

theorem cell_ne {head i j : Nat} (hi : i < cap) (hj : j < cap) (hij : i ≠ j) : (head + i) % cap ≠ (head + j) % cap := by
  intro heq
  have hmod : Nat.ModEq cap i j := Nat.ModEq.add_left_cancel' head heq
  exact hij (Nat.ModEq.eq_of_lt_of_lt hmod hi hj)

theorem WF.push (h : WF cap r) (hlt : r.len < cap) (x : α) : WF cap (r.push cap x) := by
  refine ⟨h.head_lt, hlt, ?_⟩
  show (r.tail + 1) % cap = (r.head + (r.len + 1)) % cap
  rw [h.tail_eq, mod_add_mod, add_assoc]

theorem WF.contents_push (h : WF cap r) (hlt : r.len < cap) (x : α) :
    (r.push cap x).contents cap = r.contents cap ++ [x] := by
  unfold contents RingBuffer.push
  rw [range_succ, map_append]
  dsimp only
  congr 1
  · apply map_congr_left
    intro i hi
    have hi' := mem_range.mp hi
    rw [h.tail_eq, Function.update_of_ne (cell_ne (by omega) hlt (by omega))]
  · simp [h.tail_eq]

theorem WF.pushWhile (h : WF cap r) (xs : List α) :
    (r.pushWhile cap xs).1 = min xs.length (cap - r.len) ∧ WF cap (r.pushWhile cap xs).2 ∧
      (r.pushWhile cap xs).2.contents cap = r.contents cap ++ xs.take (cap - r.len) := by
  induction xs generalizing r with
  | nil => simp [RingBuffer.pushWhile, h]
  | cons x xs ih =>
    rw [RingBuffer.pushWhile]
    split_ifs with hlt
    · obtain ⟨hn, hwf, hcont⟩ := ih (h.push hlt x)
      have hlen : cap - r.len = cap - (r.push cap x).len + 1 := by
        show cap - r.len = cap - (r.len + 1) + 1
        omega
      refine ⟨?_, hwf, ?_⟩
      · dsimp only
        rw [hn, hlen, length_cons, Nat.add_min_add_right]
      · rw [hcont, h.contents_push hlt, hlen, take_succ_cons, append_assoc, singleton_append]
    · have hfull : cap - r.len = 0 := by omega
      simp [hfull, h]

theorem copyOut_spec (cap : Nat) (r : RingBuffer α) (hr : r.head < cap) (n : Nat) :
    r.copyOut cap n = ((List.range n).map fun i => r.buf ((r.head + i) % cap), { r with head := (r.head + n) % cap }) := by
  induction n generalizing r with
  | zero => simp [copyOut, mod_eq_of_lt hr]
  | succ n ih =>
    rw [copyOut, ih _ (mod_lt _ (by omega))]
    have hmap : (List.range n).map (fun i => r.buf (((r.head + 1) % cap + i) % cap)) =
        (List.range n).map ((fun i => r.buf ((r.head + i) % cap)) ∘ succ) := by
      apply map_congr_left
      intro i _
      rw [Function.comp_apply, mod_add_mod, succ_eq_add_one, add_assoc, add_comm 1 i]
    rw [hmap, range_succ_eq_map, map_cons, map_map, mod_add_mod, add_assoc, add_comm 1 n]
    simp [mod_eq_of_lt hr]

theorem WF.pop (h : WF cap r) {n : Nat} (hn : n ≤ r.len) :
    (r.pop cap n).1 = (r.contents cap).take n ∧ WF cap (r.pop cap n).2 ∧
      (r.pop cap n).2.contents cap = (r.contents cap).drop n := by
  have hcap : 0 < cap := by
    have := h.head_lt
    omega
  unfold RingBuffer.pop
  rw [copyOut_spec cap r h.head_lt]
  refine ⟨?_, ⟨mod_lt _ hcap, ?_, ?_⟩, ?_⟩
  · rw [contents, ← map_take, take_range, min_eq_left hn]
  · have := h.len_le
    show r.len - n ≤ cap
    omega
  · show r.tail = ((r.head + n) % cap + (r.len - n)) % cap
    rw [h.tail_eq, mod_add_mod]
    congr 1
    omega
  · apply ext_getElem
    · simp [contents]
    · simp [contents, add_assoc]

/-- The empty ring, as `memset` leaves it. -/
def empty (x : α) : RingBuffer α := ⟨fun _ => x, 0, 0, 0⟩

theorem wf_empty (hcap : 0 < cap) (x : α) : WF cap (empty x) := ⟨hcap, zero_le _, by simp [empty]⟩

end RingBuffer

end SzpontOS.Lib
