import SzpontOS.Lib.Bits

/-!
# Wide strings and UTF-8 (`libc/src/wchar/wchar.c`)

`wcstombs` and `mbstowcs` go through a string one character at a time. `wcrtomb` packs the bits of a code point as UTF-8
does (`wcrtomb_eq`), and `mbrtowc` finds from the lead byte how many bytes to put together again (`mbrtowc_encode`). A
string in memory is the list of what stands from its address on, its terminator included.
-/

namespace SzpontOS.Libc

open List Lib.Bits

/-- `mbrtowc`: the bytes consumed and the character, or `none` for `(size_t)-2`. -/
def mbrtowc (s : List UInt8) (n : Nat) : Option (Nat × Nat) :=
  let byte i := (s.getD i 0).toNat
  let c := byte 0
  if n = 0 then none
  else if c = 0 then some (0, 0)
  else if c < 0x80 then some (1, c)
  else if c &&& 0xE0 = 0xC0 then
    if n < 2 then none else some (2, (c &&& 0x1F) <<< 6 ||| byte 1 &&& 0x3F)
  else if c &&& 0xF0 = 0xE0 then
    if n < 3 then none else some (3, (c &&& 0x0F) <<< 12 ||| (byte 1 &&& 0x3F) <<< 6 ||| byte 2 &&& 0x3F)
  else if c &&& 0xF8 = 0xF0 then
    if n < 4 then none
    else some (4, (c &&& 0x07) <<< 18 ||| (byte 1 &&& 0x3F) <<< 12 ||| (byte 2 &&& 0x3F) <<< 6 ||| byte 3 &&& 0x3F)
  else some (1, c)

/-- The bytes `wcrtomb` stores for a `wchar_t`, an `unsigned int`. -/
def wcrtomb (wc : Nat) : List UInt8 :=
  if wc < 0x80 then [.ofNat wc]
  else if wc < 0x800 then [.ofNat (0xC0 ||| wc >>> 6), .ofNat (0x80 ||| wc &&& 0x3F)]
  else if wc < 0x10000 then
    [.ofNat (0xE0 ||| wc >>> 12), .ofNat (0x80 ||| wc >>> 6 &&& 0x3F), .ofNat (0x80 ||| wc &&& 0x3F)]
  else
    [.ofNat (0xF0 ||| wc >>> 18), .ofNat (0x80 ||| wc >>> 12 &&& 0x3F), .ofNat (0x80 ||| wc >>> 6 &&& 0x3F),
      .ofNat (0x80 ||| wc &&& 0x3F)]

/-- The loop of `mbstowcs` for a `dest` of `n` characters, or for none; `none` is the return value `(size_t)-1`. -/
def mbstowcsLoop (dest : Option Nat) (src : List UInt8) (out : List Nat) : Option (List Nat) :=
  if src.getD 0 0 = 0 ∨ ∃ n ∈ dest, n ≤ out.length then some out
  else match mbrtowc src 4 with
    | none => none
    | some (len, wc) => if len = 0 then some out else mbstowcsLoop dest (src.drop len) (out ++ [wc])
termination_by src.length
decreasing_by
  cases src
  · simp at *
  · simp
    omega

/-- What is stored, with the terminator where there is room. -/
def terminated {α : Type*} (dest : Option Nat) (out : List α) (zero : α) : List α :=
  dest.elim [] fun n => if out.length < n then out ++ [zero] else out

/-- `mbstowcs`: what it returns and what it stores. -/
def mbstowcs (dest : Option Nat) (src : List UInt8) : Option (Nat × List Nat) :=
  (mbstowcsLoop dest src []).map fun out => (out.length, terminated dest out 0)

def wcstombsLoop (dest : Option Nat) : List Nat → List UInt8 → List UInt8
  | [], out => out
  | wc :: src, out =>
    if wc = 0 ∨ ∃ n ∈ dest, n < out.length + (wcrtomb wc).length then out
    else wcstombsLoop dest src (out ++ wcrtomb wc)

/-- `wcstombs`: what it returns and what it stores. -/
def wcstombs (dest : Option Nat) (src : List Nat) : Nat × List UInt8 :=
  let out := wcstombsLoop dest src []
  (out.length, terminated dest out 0)

/-! ## One character -/

theorem lead : (∀ x < 32, 0xC0 ||| x = x + 0xC0 ∧ (x + 0xC0) &&& 0xE0 = 0xC0 ∧ (x + 0xC0) &&& 0x1F = x) ∧
    (∀ x < 16, 0xE0 ||| x = x + 0xE0 ∧ (x + 0xE0) &&& 0xE0 ≠ 0xC0 ∧ (x + 0xE0) &&& 0xF0 = 0xE0 ∧
      (x + 0xE0) &&& 0x0F = x) ∧
    ∀ x < 8, 0xF0 ||| x = x + 0xF0 ∧ (x + 0xF0) &&& 0xE0 ≠ 0xC0 ∧ (x + 0xF0) &&& 0xF0 ≠ 0xE0 ∧
      (x + 0xF0) &&& 0xF8 = 0xF0 ∧ (x + 0xF0) &&& 0x07 = x := by
  decide

theorem trail (x : Nat) : 0x80 ||| x &&& 0x3F = x % 64 + 0x80 ∧ (x % 64 + 0x80) &&& 0x3F = x % 64 := by
  have hall : ∀ y < 64, 0x80 ||| y = y + 0x80 ∧ (y + 0x80) &&& 0x3F = y := by decide
  rw [Nat.and_two_pow_sub_one_eq_mod x 6]
  exact hall _ (Nat.mod_lt _ (by decide))

theorem wcrtomb_eq (c : Char) : wcrtomb c.toNat = String.utf8EncodeChar c := by
  obtain ⟨hfive, hfour, hthree⟩ := lead
  have hmax : c.toNat < 0xD800 ∨ 0xDFFF < c.toNat ∧ c.toNat < 0x110000 := c.valid
  simp only [wcrtomb, String.utf8EncodeChar, Char.toNat_val, Nat.shiftRight_eq_div_pow, (trail _).1,
    Nat.le_iff_lt_add_one, Nat.reduceAdd]
  generalize c.toNat = v at hmax ⊢
  split_ifs with h1 h2 h3
  · rfl
  · rw [(hfive (v / 2 ^ 6) (by omega)).1, Nat.mod_eq_of_lt (by omega : v / 64 < 32)]
  · rw [(hfour (v / 2 ^ 12) (by omega)).1, Nat.mod_eq_of_lt (by omega : v / 4096 < 16)]
  · rw [(hthree (v / 2 ^ 18) (by omega)).1, Nat.mod_eq_of_lt (by omega : v / 262144 < 8)]

theorem mbrtowc_encode {c : Char} (hc : c.toNat ≠ 0) (t : List UInt8) :
    mbrtowc (String.utf8EncodeChar c ++ t) 4 = some ((String.utf8EncodeChar c).length, c.toNat) := by
  obtain ⟨hfive, hfour, hthree⟩ := lead
  have hmax : c.toNat < 0xD800 ∨ 0xDFFF < c.toNat ∧ c.toNat < 0x110000 := c.valid
  simp only [String.utf8EncodeChar, Char.toNat_val]
  generalize c.toNat = v at hmax hc ⊢
  have htoNat : ∀ x < 256, (UInt8.ofNat x).toNat = x := fun x hx => by simp; omega
  split_ifs with h1 h2 h3
  · simp only [mbrtowc, cons_append, getD_cons_zero, htoNat v (by omega)]
    rw [if_neg (by omega), if_neg hc, if_pos (by omega)]
    rfl
  · obtain ⟨-, htag, hbits⟩ := hfive (v / 64 % 32) (by omega)
    simp only [mbrtowc, cons_append, getD_cons_zero, getD_cons_succ]
    rw [htoNat _ (by omega), htoNat _ (by omega), if_neg (by omega), if_neg (by omega), if_neg (by omega), if_pos htag,
      if_neg (by omega), hbits, (trail v).2, or_eq_add 6 (by omega) (by omega)]
    simp
    omega
  · obtain ⟨-, hno, htag, hbits⟩ := hfour (v / 4096 % 16) (by omega)
    simp only [mbrtowc, cons_append, getD_cons_zero, getD_cons_succ]
    rw [htoNat _ (by omega), htoNat _ (by omega), htoNat _ (by omega), if_neg (by omega), if_neg (by omega),
      if_neg (by omega), if_neg hno, if_pos htag, if_neg (by omega), hbits, (trail (v / 64)).2, (trail v).2,
      or_eq_add (x := (v / 4096 % 16) <<< 12) 12 (by omega) (by omega), or_eq_add 6 (by omega) (by omega)]
    simp
    omega
  · obtain ⟨-, hno, hno', htag, hbits⟩ := hthree (v / 262144 % 8) (by omega)
    simp only [mbrtowc, cons_append, getD_cons_zero, getD_cons_succ]
    rw [htoNat _ (by omega), htoNat _ (by omega), htoNat _ (by omega), htoNat _ (by omega), if_neg (by omega),
      if_neg (by omega), if_neg (by omega), if_neg hno, if_neg hno', if_pos htag, if_neg (by omega), hbits,
      (trail (v / 4096)).2, (trail (v / 64)).2, (trail v).2,
      or_eq_add (x := (v / 262144 % 8) <<< 18) 18 (by omega) (by omega),
      or_eq_add (b := (v / 64 % 64) <<< 6) 12 (by omega) (by omega), or_eq_add 6 (by omega) (by omega)]
    simp
    omega

/-! ## Strings -/

section

variable {w : List Char} (hw : ∀ c ∈ w, c.toNat ≠ 0) {n : Nat}

include hw

theorem wcstombsLoop_eq (rest : List Nat) {out : List UInt8}
    (hn : out.length + (w.flatMap String.utf8EncodeChar).length ≤ n) :
    wcstombsLoop (some n) (w.map Char.toNat ++ 0 :: rest) out = out ++ w.flatMap String.utf8EncodeChar := by
  induction w generalizing out with
  | nil => simp [wcstombsLoop]
  | cons c w ih =>
    rw [flatMap_cons, length_append] at hn
    rw [map_cons, cons_append, wcstombsLoop, wcrtomb_eq, if_neg, ih, append_assoc, flatMap_cons]
    · exact fun d hd => hw d (mem_cons_of_mem c hd)
    · rw [length_append]
      omega
    · simp only [Option.mem_some_iff, exists_eq_left', not_or, not_lt]
      exact ⟨hw c mem_cons_self, by omega⟩

theorem mbstowcsLoop_eq (rest : List UInt8) {out : List Nat} (hn : out.length + w.length ≤ n) :
    mbstowcsLoop (some n) (w.flatMap String.utf8EncodeChar ++ 0 :: rest) out = some (out ++ w.map Char.toNat) := by
  induction w generalizing out with
  | nil =>
    rw [mbstowcsLoop]
    simp
  | cons c w ih =>
    have hc := hw c mem_cons_self
    have hstep := mbrtowc_encode hc (w.flatMap String.utf8EncodeChar ++ 0 :: rest)
    have hlen : (String.utf8EncodeChar c).length ≠ 0 := by
      rw [String.length_utf8EncodeChar]
      exact c.utf8Size_pos.ne'
    rw [length_cons] at hn
    rw [flatMap_cons, append_assoc, mbstowcsLoop, if_neg, hstep]
    · dsimp only
      rw [if_neg hlen, drop_left, ih (fun d hd => hw d (mem_cons_of_mem c hd)), append_assoc]
      · rfl
      · rw [length_append, length_singleton]
        omega
    · -- a terminator would have been decoded as one
      simp only [Option.mem_some_iff, exists_eq_left', not_or, not_le]
      refine ⟨fun hzero => hc ?_, by omega⟩
      simp only [mbrtowc, hzero, UInt8.toNat_zero] at hstep
      exact (Prod.mk.inj (Option.some.inj hstep)).2.symm

/-- **Wide strings through UTF-8.** -/
theorem wide_round_trip {m : Nat} (hn : (w.flatMap String.utf8EncodeChar).length < n) (hm : w.length < m)
    (rest : List Nat) (rest' : List UInt8) :
    wcstombs (some n) (w.map Char.toNat ++ 0 :: rest) =
        ((w.flatMap String.utf8EncodeChar).length, w.flatMap String.utf8EncodeChar ++ [0]) ∧
      mbstowcs (some m) (w.flatMap String.utf8EncodeChar ++ [0] ++ rest') =
        some (w.length, w.map Char.toNat ++ [0]) := by
  constructor
  · rw [wcstombs, wcstombsLoop_eq hw rest (by simpa using hn.le)]
    rw [nil_append, terminated, Option.elim_some, if_pos hn]
  · rw [mbstowcs, append_assoc, singleton_append, mbstowcsLoop_eq hw rest' (by simpa using hm.le)]
    simp [terminated, hm]

end

/-- One character of each length. -/
theorem wide_round_trip_four : wcstombs (some 11) [0x61, 0xE9, 0x20AC, 0x1F600, 0] =
      (10, [0x61, 0xC3, 0xA9, 0xE2, 0x82, 0xAC, 0xF0, 0x9F, 0x98, 0x80, 0]) ∧
    mbstowcs (some 5) [0x61, 0xC3, 0xA9, 0xE2, 0x82, 0xAC, 0xF0, 0x9F, 0x98, 0x80, 0] =
      some (4, [0x61, 0xE9, 0x20AC, 0x1F600, 0]) :=
  wide_round_trip (w := ['a', 'é', '€', '😀']) (by simp) (by decide) (by decide) [] []

end SzpontOS.Libc
