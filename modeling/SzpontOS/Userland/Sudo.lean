import Mathlib.Data.List.TakeWhile
import SzpontOS.Libc.Text

/-!
# Who may use `sudo` (`is_user_authorized` of `userland/bin/sudo.c`)

Root, the user `szpont` and the group `wheel` may. For everybody else `/etc/sudoers` decides: a line grants if its first
word is the name of the caller, `ALL`, or `%` and a group that lists the caller (`Grants`). The program reads the file
through a buffer of 255 characters and copies the first word of what it finds there into one of 63 (`pieceGrants`): what
stands between blanks in front and a blank, a null byte or the end behind, cut to 63 bytes (`Shows`, `Names`).

So it takes the later parts of a long line for lines (`Misread`), comments included, and it does not see that some lines
grant (`Missed`): the newline, for one, is no delimiter to it. The answer is right exactly if a line grants and is read
so, or if both or neither of these occur.
-/

namespace SzpontOS.Userland

open Lib Libc List

/-! ## The program -/

/-- `struct group`; `members` is `gr_mem`. -/
structure Group where
  gid : Nat
  members : Option (List (List UInt8))
  deriving DecidableEq, Repr

def hash : UInt8 := 35

def percent : UInt8 := 37

/-- A word copied into `grp_name` or `usr_name`. -/
def token (p : List UInt8) : List UInt8 := (p.takeWhile fun c => ¬isBlank c).take 63

def lists (group : Option Group) (username : List UInt8) : Bool :=
  (group.bind Group.members).any (·.contains username)

def isSpace (c : UInt8) : Bool := c = 32 ∨ 9 ≤ c ∧ c ≤ 13

def firstWord (line : List UInt8) : List UInt8 := (line.dropWhile isSpace).takeWhile fun c => ¬isSpace c

variable (getgrnam : List UInt8 → Option Group) (username : List UInt8)

/-- A line is no comment, and its first word is the name of the user, `ALL`, or `%` and a group that lists the user. -/
def Grants (line : List UInt8) : Prop :=
  firstWord line ≠ [] ∧ (firstWord line).head? ≠ some hash ∧ (firstWord line = username ∨ firstWord line = ascii "ALL" ∨
      ∃ group, firstWord line = percent :: group ∧ lists (getgrnam group) username = true)

/-- The bytes of `part` are blanks, then `word`, and then the end, a blank or a null byte. -/
def Shows (part word : List UInt8) : Prop :=
  ∃ front rest, part = front ++ (word ++ rest) ∧ (∀ c ∈ front, isBlank c) ∧ (∀ c ∈ word, ¬isBlank c ∧ c ≠ 0) ∧
    ∀ c ∈ rest.head?, isBlank c ∨ c = 0

/-- The first 63 bytes of a word are the name of the user or `ALL`, or those behind a `%` name a group that lists the
user. -/
def Names (word : List UInt8) : Prop :=
  ∃ c rest, word = c :: rest ∧ c ≠ hash ∧ c ≠ newline ∧
    (c ≠ percent ∧ (word.take 63 = username ∨ word.take 63 = ascii "ALL") ∨
      c = percent ∧ lists (getgrnam (rest.take 63)) username = true)

/-- Part of a line, taken for a line, grants. -/
def Directs (part : List UInt8) : Prop := ∃ word, Shows part word ∧ Names getgrnam username word

variable (file : List UInt8)

/-- A line grants, and its first 255 bytes do not look so. -/
def Missed : Prop :=
  ∃ line ∈ lines newline file, Grants getgrnam username line ∧ ¬Directs getgrnam username (line.take 255)

variable {getgrnam username file} {uid gid : Nat} {part word : List UInt8}

end SzpontOS.Userland
