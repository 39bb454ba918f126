import Mathlib.Data.List.Nodup
import Mathlib.Tactic

/-!
# Doubly linked lists inside their nodes

`next` and `prev` say where each node points, `none` being the null pointer. `Chain` says that the links of the nodes of
a list are those of that list, between a node (or null) `before` it and a node (or null) `after` it. Taking a node out
(`unlink`) and putting one in (`insert`) change at most three nodes. A walk along `next` that looks for a node is a
search in the list (`find_chain`).
-/

namespace SzpontOS.Lib

open Function List Option

/-- Where each node points. -/
structure Links (ι : Type*) where
  next : ι → Option ι
  prev : ι → Option ι

namespace Links

variable {ι : Type*}

/-- The links of the nodes of `xs` are those of the list `xs` between `before` and `after`. -/
def Chain (l : Links ι) (after : Option ι) : Option ι → List ι → Prop
  | _, [] => True
  | before, x :: xs => l.prev x = before ∧ l.next x = xs.head?.or after ∧ Chain l after (some x) xs

/-- The first node with the property, walking from `p` along at most `fuel` nodes. -/
def find (l : Links ι) (test : ι → Bool) : Nat → Option ι → Option ι
  | 0, _ => none
  | _ + 1, none => none
  | fuel + 1, some x => if test x then some x else find l test fuel (l.next x)

theorem find_chain {l : Links ι} {test : ι → Bool} {before : Option ι} {xs : List ι} {fuel : Nat}
    (h : l.Chain none before xs) (hfuel : xs.length ≤ fuel) : l.find test fuel xs.head? = xs.find? test := by
  induction xs generalizing before fuel with
  | nil =>
    cases fuel with
    | zero => rfl
    | succ fuel => rfl
  | cons x xs ih =>
    obtain ⟨_, hnext, htail⟩ := h
    cases fuel with
    | zero => simp at hfuel
    | succ fuel =>
      rw [head?_cons, find, find?_cons, hnext, or_none]
      cases test x with
      | true => rfl
      | false => exact ih htail (by simpa using hfuel)

theorem find?_last {l : Links ι} [DecidableEq ι] {before : Option ι} {xs : List ι} (h : l.Chain none before xs) :
    (xs.find? fun x => l.next x == none) = xs.getLast? := by
  induction xs generalizing before with
  | nil => rfl
  | cons x xs ih =>
    obtain ⟨_, hnext, htail⟩ := h
    rw [find?_cons, hnext, or_none]
    cases xs with
    | nil => rfl
    | cons y ys => exact (ih htail).trans getLast?_cons_cons.symm

theorem Chain.congr {l l' : Links ι} {after before : Option ι} {xs : List ι} (h : l.Chain after before xs)
    (hsame : ∀ x ∈ xs, l'.next x = l.next x ∧ l'.prev x = l.prev x) : l'.Chain after before xs := by
  induction xs generalizing before with
  | nil => trivial
  | cons x xs ih =>
    obtain ⟨hprev, hnext, htail⟩ := h
    obtain ⟨hn, hp⟩ := hsame x mem_cons_self
    exact ⟨hp.trans hprev, hn.trans hnext, ih htail fun y hy => hsame y (mem_cons_of_mem x hy)⟩

theorem chain_append {l : Links ι} {after before : Option ι} {xs ys : List ι} : l.Chain after before (xs ++ ys) ↔
      l.Chain (ys.head?.or after) before xs ∧ l.Chain after (xs.getLast?.or before) ys := by
  induction xs generalizing before with
  | nil => simp [Chain]
  | cons x xs ih =>
    have hlast : (x :: xs).getLast?.or before = xs.getLast?.or (some x) := by
      cases xs with
      | nil => rfl
      | cons y ys => rw [getLast?_cons_cons, getLast?_eq_some_getLast (cons_ne_nil y ys)]; rfl
    have hhead : (xs ++ ys).head?.or after = xs.head?.or (ys.head?.or after) := by
      cases xs with
      | nil => rfl
      | cons y ys => rfl
    rw [cons_append, Chain, Chain, ih, hlast, hhead]
    tauto

theorem getLast?_or_ne {before : Option ι} {xs : List ι} {y : ι} (hy : y ∉ xs) (hbef : before ≠ some y) :
    xs.getLast?.or before ≠ some y := by
  cases hlast : xs.getLast? with
  | none => exact hbef
  | some x =>
    intro heq
    exact hy (some.inj heq ▸ mem_of_getLast? hlast)

theorem head?_or_ne {after : Option ι} {xs : List ι} {y : ι} (hy : y ∉ xs) (haft : after ≠ some y) :
    xs.head?.or after ≠ some y := by
  cases hhead : xs.head? with
  | none => exact haft
  | some x =>
    intro heq
    exact hy (some.inj heq ▸ mem_of_mem_head? hhead)

section Update

variable [DecidableEq ι]

/-- `p->next = v`; nothing when `p` is null. -/
def setNext (l : Links ι) (p v : Option ι) : Links ι :=
  { l with next := fun x => if p = some x then v else l.next x }

/-- `p->prev = v`; nothing when `p` is null. -/
def setPrev (l : Links ι) (p v : Option ι) : Links ι :=
  { l with prev := fun x => if p = some x then v else l.prev x }

def unlink (l : Links ι) (x : ι) : Links ι := (l.setNext (l.prev x) (l.next x)).setPrev (l.next x) (l.prev x)

/-- The node `x` linked in between `p` and `q`. -/
def insert (l : Links ι) (x : ι) (p q : Option ι) : Links ι :=
  (((l.setPrev (some x) p).setNext (some x) q).setNext p (some x)).setPrev q (some x)

variable {l : Links ι} {after before p : Option ι} {xs ys zs : List ι}

@[simp] theorem setPrev_none (v : Option ι) : l.setPrev none v = l := by
  simp [setPrev]

section

variable (h : l.Chain after before xs)

include h

theorem Chain.setNext (hp : ∀ x ∈ xs, p ≠ some x) (v : Option ι) : (l.setNext p v).Chain after before xs :=
  h.congr fun x hx => ⟨if_neg (hp x hx), rfl⟩

theorem Chain.setPrev (hp : ∀ x ∈ xs, p ≠ some x) (v : Option ι) : (l.setPrev p v).Chain after before xs :=
  h.congr fun x hx => ⟨rfl, if_neg (hp x hx)⟩

theorem Chain.setNext_last (hnd : xs.Nodup) (v : Option ι) :
    (l.setNext (xs.getLast?.or before) v).Chain v before xs := by
  rcases eq_nil_or_concat' xs with rfl | ⟨ys, x, rfl⟩
  · trivial
  rw [getLast?_concat, some_or, chain_append]
  obtain ⟨hys, hprev, hnext, -⟩ := chain_append.mp h
  have hnew : ∀ y ∈ ys, some x ≠ some y := by
    intro y hy heq
    exact (nodup_append.mp hnd).2.2 y hy x (mem_singleton_self x) (some.inj heq).symm
  exact ⟨hys.setNext hnew v, hprev, if_pos rfl, trivial⟩

theorem Chain.setPrev_head (hnd : xs.Nodup) (v : Option ι) : (l.setPrev (xs.head?.or after) v).Chain after v xs := by
  cases xs with
  | nil => trivial
  | cons x xs =>
    obtain ⟨_, hnext, htail⟩ := h
    have hnew : ∀ y ∈ xs, some x ≠ some y := by
      intro y hy heq
      exact (nodup_cons.mp hnd).1 (some.inj heq ▸ hy)
    exact ⟨if_pos rfl, hnext, htail.setPrev hnew v⟩

end

theorem Chain.unlink {x : ι} (h : l.Chain after before (xs ++ x :: ys)) (hnd : (xs ++ x :: ys).Nodup)
    (hbef : ∀ y ∈ xs ++ x :: ys, before ≠ some y) (haft : ∀ y ∈ xs ++ x :: ys, after ≠ some y) :
    (l.unlink x).Chain after before (xs ++ ys) := by
  obtain ⟨hxs, hprev, hnext, hys⟩ := chain_append.mp h
  obtain ⟨hxsNodup, hrest, hdisj⟩ := nodup_append.mp hnd
  have hysNodup := (nodup_cons.mp hrest).2
  have hxy : ∀ y ∈ xs, y ∉ ys := fun y hy hy' => hdisj y hy y (mem_cons_of_mem x hy') rfl
  have hyx : ∀ y ∈ ys, y ∉ xs := fun y hy hy' => hxy y hy' hy
  rw [Links.unlink, hprev, hnext, chain_append]
  constructor
  · have hlast := hxs.setNext_last hxsNodup (ys.head?.or after)
    exact hlast.setPrev (fun y hy => head?_or_ne (hxy y hy) (haft y (by simp [hy]))) _
  · have hkeep := hys.setNext (fun y hy => getLast?_or_ne (hyx y hy) (hbef y (by simp [hy]))) (ys.head?.or after)
    exact hkeep.setPrev_head hysNodup _

theorem Chain.insert {x : ι} (h : l.Chain after before (xs ++ ys)) (hnd : (xs ++ ys).Nodup) (hx : x ∉ xs ++ ys)
    (hbef : ∀ y ∈ x :: (xs ++ ys), before ≠ some y) (haft : ∀ y ∈ x :: (xs ++ ys), after ≠ some y) :
    (l.insert x (xs.getLast?.or before) (ys.head?.or after)).Chain after before (xs ++ x :: ys) := by
  obtain ⟨hxs, hys⟩ := chain_append.mp h
  obtain ⟨hxsNodup, hysNodup, hdisj⟩ := nodup_append.mp hnd
  have hxy : ∀ y ∈ xs, y ∉ ys := fun y hy hy' => hdisj y hy y hy' rfl
  have hyx : ∀ y ∈ ys, y ∉ xs := fun y hy hy' => hxy y hy' hy
  have hnew : ∀ y ∈ xs ++ ys, some x ≠ some y := fun y hy heq => hx (some.inj heq ▸ hy)
  have hp : xs.getLast?.or before ≠ some x :=
    getLast?_or_ne (fun hmem => hx (mem_append_left ys hmem)) (hbef x mem_cons_self)
  have hq : ys.head?.or after ≠ some x :=
    head?_or_ne (fun hmem => hx (mem_append_right xs hmem)) (haft x mem_cons_self)
  rw [Links.insert, chain_append]
  refine ⟨?_, ?_, ?_, ?_⟩
  · have h1 := (hxs.setPrev (fun y hy => hnew y (by simp [hy])) (xs.getLast?.or before)).setNext
      (fun y hy => hnew y (by simp [hy])) (ys.head?.or after)
    exact (h1.setNext_last hxsNodup (some x)).setPrev
      (fun y hy => head?_or_ne (hxy y hy) (haft y (by simp [hy]))) (some x)
  · show (if _ then _ else if _ then _ else _) = _
    rw [if_neg hq, if_pos rfl]
  · show (if _ then _ else if _ then _ else _) = _
    rw [if_neg hp, if_pos rfl]
  · have h1 := (hys.setPrev (fun y hy => hnew y (by simp [hy])) (xs.getLast?.or before)).setNext
      (fun y hy => hnew y (by simp [hy])) (ys.head?.or after)
    have h2 := h1.setNext (fun y hy => getLast?_or_ne (hyx y hy) (hbef y (by simp [hy]))) (some x)
    exact h2.setPrev_head hysNodup (some x)

end Update

end Links

/-- A doubly linked list with a head and a tail pointer. -/
structure Dll (ι : Type*) where
  links : Links ι
  head : Option ι
  tail : Option ι

namespace Dll

variable {ι : Type*}

structure Holds (l : Dll ι) (xs : List ι) : Prop where
  nodup : xs.Nodup
  chain : l.links.Chain none none xs
  head : l.head = xs.head?
  tail : l.tail = xs.getLast?

theorem Holds.find {l : Dll ι} {test : ι → Bool} {xs : List ι} {fuel : Nat} (h : l.Holds xs)
    (hfuel : xs.length ≤ fuel) : l.links.find test fuel l.head = xs.find? test := by
  rw [h.head]
  exact Links.find_chain h.chain hfuel

variable [DecidableEq ι]

/-- The node taken out of the list, its own links cleared. -/
def unlink (l : Dll ι) (x : ι) : Dll ι where
  links := ((l.links.unlink x).setNext (some x) none).setPrev (some x) none
  head := if (l.links.prev x).isSome then l.head else l.links.next x
  tail := if (l.links.next x).isSome then l.tail else l.links.prev x

def pushBack (l : Dll ι) (x : ι) : Dll ι where
  links := l.links.insert x l.tail none
  head := if l.tail.isSome then l.head else some x
  tail := some x

variable {l : Dll ι} {xs ys : List ι} {x : ι}

theorem Holds.unlink (h : l.Holds (xs ++ x :: ys)) : (l.unlink x).Holds (xs ++ ys) := by
  obtain ⟨hnd, hchain, hhead, htail⟩ := h
  obtain ⟨-, hprev, hnext, -⟩ := Links.chain_append.mp hchain
  rw [or_none] at hprev hnext
  have hx : x ∉ xs ++ ys := (nodup_middle.mp hnd |> nodup_cons.mp).1
  have hne : ∀ y ∈ xs ++ ys, some x ≠ some y := fun y hy heq => hx (some.inj heq ▸ hy)
  refine ⟨(nodup_middle.mp hnd |> nodup_cons.mp).2, ?_, ?_, ?_⟩
  · have hcut := hchain.unlink hnd (fun _ _ => by simp) (fun _ _ => by simp)
    exact (hcut.setNext hne none).setPrev hne none
  · show (if (l.links.prev x).isSome then l.head else l.links.next x) = _
    rw [hprev, hnext, hhead]
    cases xs with
    | nil => rfl
    | cons y zs => simp
  · show (if (l.links.next x).isSome then l.tail else l.links.prev x) = _
    rw [hprev, hnext, htail]
    cases ys with
    | nil => simp
    | cons y zs => simp [getLast?_append, getLast?_cons_cons]

theorem Holds.pushBack (h : l.Holds xs) (hx : x ∉ xs) : (l.pushBack x).Holds (xs ++ [x]) := by
  obtain ⟨hnd, hchain, hhead, htail⟩ := h
  refine ⟨?_, ?_, ?_, ?_⟩
  · exact nodup_append.mpr ⟨hnd, nodup_singleton x, fun y hy z hz heq => hx (by simp_all)⟩
  · have hnil : l.links.Chain none none (xs ++ []) := by rwa [append_nil]
    have hinst := hnil.insert (by rwa [append_nil]) (by rwa [append_nil]) (fun _ _ => by simp)
      (fun _ _ => by simp)
    rwa [or_none, ← htail] at hinst
  · show (if l.tail.isSome then l.head else some x) = _
    rw [hhead, htail]
    rcases eq_nil_or_concat' xs with rfl | ⟨zs, z, rfl⟩
    · rfl
    · cases zs with
      | nil => simp
      | cons y ys => simp
  · exact getLast?_concat.symm

theorem Holds.touch (h : l.Holds xs) (hx : x ∈ xs) : ((l.unlink x).pushBack x).Holds (xs.erase x ++ [x]) := by
  obtain ⟨ys, zs, rfl⟩ := append_of_mem hx
  have hout : x ∉ ys ++ zs := (nodup_middle.mp h.nodup |> nodup_cons.mp).1
  have herase : (ys ++ x :: zs).erase x = ys ++ zs := by
    rw [erase_append_right _ fun hmem => hout (mem_append_left zs hmem), erase_cons_head]
  rw [herase]
  exact h.unlink.pushBack hout

end Dll

/-- Lists without common elements still have none when one of them is replaced by elements of its own and new ones. -/
theorem disjoint_update {κ ι : Type*} [DecidableEq κ] {b : κ → List ι} {k : κ} {xs : List ι}
    (hdisj : ∀ i j x, x ∈ b i → x ∈ b j → i = j) (hmem : ∀ x ∈ xs, x ∈ b k ∨ ∀ j, x ∉ b j) :
    ∀ i j x, x ∈ update b k xs i → x ∈ update b k xs j → i = j := by
  have hcase : ∀ i x, x ∈ update b k xs i → x ∈ b i ∨ i = k ∧ ∀ j, x ∉ b j := by
    refine fun i x => (forall_update_iff b fun i ys => x ∈ ys → x ∈ b i ∨ i = k ∧ ∀ j, x ∉ b j).mpr ⟨?_, ?_⟩ i
    · exact fun hx => (hmem x hx).imp id fun hout => ⟨rfl, hout⟩
    · exact fun _ _ hx => .inl hx
  intro i j x hi hj
  rcases hcase i x hi with hin | ⟨hik, hout⟩ <;> rcases hcase j x hj with hjn | ⟨hjk, hout'⟩
  · exact hdisj i j x hin hjn
  · exact absurd hin (hout' i)
  · exact absurd hjn (hout j)
  · rw [hik, hjk]

/-- A table of doubly linked lists whose nodes share one pair of link fields, as the chains of a hash table. -/
structure Chains (κ ι : Type*) where
  links : Links ι
  heads : κ → Option ι

namespace Chains

variable {κ ι : Type*}

/-- The nodes of every list of the table; no node is in two lists. -/
structure Holds (c : Chains κ ι) (b : κ → List ι) : Prop where
  nodup : ∀ k, (b k).Nodup
  disjoint : ∀ k k' x, x ∈ b k → x ∈ b k' → k = k'
  chain : ∀ k, c.links.Chain none none (b k)
  head : ∀ k, c.heads k = (b k).head?

theorem Holds.find {c : Chains κ ι} {test : ι → Bool} {b : κ → List ι} {fuel : Nat} (h : c.Holds b) (k : κ)
    (hfuel : (b k).length ≤ fuel) : c.links.find test fuel (c.heads k) = (b k).find? test := by
  rw [h.head]
  exact Links.find_chain (h.chain k) hfuel

variable [DecidableEq κ] [DecidableEq ι]

def pushFront (c : Chains κ ι) (k : κ) (x : ι) : Chains κ ι where
  links := c.links.insert x none (c.heads k)
  heads := Function.update c.heads k (some x)

def unlink (c : Chains κ ι) (k : κ) (x : ι) : Chains κ ι where
  links := ((c.links.unlink x).setNext (some x) none).setPrev (some x) none
  heads := if (c.links.prev x).isSome then c.heads
    else if c.heads k = some x then Function.update c.heads k (c.links.next x) else c.heads

variable {c : Chains κ ι} {b : κ → List ι} {k : κ} {x : ι} {xs ys : List ι}

theorem Holds.pushFront (h : c.Holds b) (hx : ∀ j, x ∉ b j) : (c.pushFront k x).Holds (update b k (x :: b k)) := by
  refine ⟨?_, disjoint_update h.disjoint fun y hy => ?_, ?_, ?_⟩
  · exact (forall_update_iff b fun _ ys => ys.Nodup).mpr ⟨nodup_cons.mpr ⟨hx k, h.nodup k⟩, fun j _ => h.nodup j⟩
  · rcases mem_cons.mp hy with rfl | hy
    · exact .inr hx
    · exact .inl hy
  · refine (forall_update_iff b fun _ ys => (c.links.insert x none (c.heads k)).Chain none none ys).mpr ⟨?_, fun j hj => ?_⟩
    · rw [h.head k]
      have hnil : c.links.Chain none none ([] ++ b k) := h.chain k
      have hinst := hnil.insert (h.nodup k) (hx k) (fun _ _ => by simp) (fun _ _ => by simp)
      rwa [or_none, or_none] at hinst
    · -- the nodes written are `x` and the old head of list `k`, neither of which is in list `j`
      refine (h.chain j).congr fun y hy => ?_
      have hyx : some x ≠ some y := fun heq => hx j (some.inj heq ▸ hy)
      have hyk : c.heads k ≠ some y := by
        rw [h.head k]
        intro heq
        exact hj (h.disjoint j k y hy (mem_of_mem_head? heq))
      simp [Links.insert, Links.setNext, Links.setPrev, some.injEq] at hyx ⊢
      simp [hyx, hyk]
  · refine (forall_update_iff b fun j ys => update c.heads k (some x) j = ys.head?).mpr ⟨update_self .., fun j hj => ?_⟩
    rw [update_of_ne hj, h.head j]

theorem Holds.unlink (h : c.Holds b) (hk : b k = xs ++ x :: ys) : (c.unlink k x).Holds (update b k (xs ++ ys)) := by
  have hnd := h.nodup k
  have hchain := h.chain k
  rw [hk] at hnd hchain
  obtain ⟨-, hprev, hnext, -⟩ := Links.chain_append.mp hchain
  rw [or_none] at hprev hnext
  obtain ⟨hx, hrest⟩ := nodup_middle.mp hnd |> nodup_cons.mp
  have hne : ∀ y ∈ xs ++ ys, some x ≠ some y := fun y hy heq => hx (some.inj heq ▸ hy)
  have hsub : ∀ y ∈ xs ++ ys, y ∈ b k := by
    intro y hy
    rw [hk]
    simp only [mem_append, mem_cons] at hy ⊢
    tauto
  refine ⟨?_, disjoint_update h.disjoint fun y hy => .inl (hsub y hy), ?_, ?_⟩
  · exact (forall_update_iff b fun _ zs => zs.Nodup).mpr ⟨hrest, fun j _ => h.nodup j⟩
  · refine (forall_update_iff b fun _ zs => (((c.links.unlink x).setNext (some x) none).setPrev (some x) none).Chain
      none none zs).mpr ⟨?_, fun j hj => ?_⟩
    · have hcut := hchain.unlink hnd (fun _ _ => by simp) (fun _ _ => by simp)
      exact (hcut.setNext hne none).setPrev hne none
    · -- the nodes written are `x` and its neighbours, none of which is in list `j`
      refine (h.chain j).congr fun y hy => ?_
      have hout : ∀ z ∈ b k, z ≠ y := fun z hz heq => hj (h.disjoint j k y hy (heq ▸ hz))
      have hyx : x ≠ y := hout x (by rw [hk]; simp)
      have hyp : c.links.prev x ≠ some y := by
        rw [hprev]
        intro heq
        exact hout y (by rw [hk]; exact mem_append_left _ (mem_of_getLast? heq)) rfl
      have hyn : c.links.next x ≠ some y := by
        rw [hnext]
        intro heq
        refine hout y ?_ rfl
        rw [hk]
        exact mem_append_right _ (mem_cons_of_mem x (mem_of_mem_head? heq))
      simp [Links.unlink, Links.setNext, Links.setPrev, hyx, hyp, hyn]
  · unfold Chains.unlink
    dsimp only
    rw [hprev, hnext, h.head k, hk]
    cases xs with
    | nil =>
      rw [if_neg (by simp), if_pos (by simp)]
      refine (forall_update_iff b fun j zs => update c.heads k ys.head? j = zs.head?).mpr ⟨update_self .., fun j hj => ?_⟩
      rw [update_of_ne hj, h.head j]
    | cons z zs =>
      rw [if_pos (by simp)]
      refine (forall_update_iff b fun j zs => c.heads j = zs.head?).mpr ⟨?_, fun j _ => h.head j⟩
      rw [h.head k, hk]
      rfl

theorem Holds.exists_pushFront (h : c.Holds b) (hx : ∀ j, x ∉ b j) (k : κ) :
    ∃ b', (c.pushFront k x).Holds b' ∧ ∀ j y, y ∈ b' j ↔ y ∈ b j ∨ (j = k ∧ y = x) := by
  refine ⟨_, h.pushFront hx, fun j y => ?_⟩
  by_cases hj : j = k
  · subst hj
    rw [update_self, mem_cons]
    tauto
  · rw [update_of_ne hj]
    tauto

theorem Holds.exists_unlink (h : c.Holds b) (hx : x ∈ b k) :
    ∃ b', (c.unlink k x).Holds b' ∧ ∀ j y, y ∈ b' j ↔ y ∈ b j ∧ y ≠ x := by
  obtain ⟨xs, ys, hk⟩ := append_of_mem hx
  refine ⟨_, h.unlink hk, fun j y => ?_⟩
  by_cases hj : j = k
  · subst hj
    have hnd := h.nodup j
    rw [hk] at hnd
    have hout : x ∉ xs ++ ys := (nodup_middle.mp hnd |> nodup_cons.mp).1
    rw [update_self, hk]
    simp only [mem_append, mem_cons] at hout ⊢
    constructor
    · intro hy
      exact ⟨by tauto, fun heq => hout (heq ▸ hy)⟩
    · tauto
  · rw [update_of_ne hj]
    exact ⟨fun hy => ⟨hy, fun heq => hj (h.disjoint j k x (heq ▸ hy) hx)⟩, fun hy => hy.1⟩

end Chains

end SzpontOS.Lib
