import Quadword.Proofs.Text.Trace

/-!
# The characters of a valid text

A source is cut into lines as bytes and decoded line by line. For bytes that encode a text this
comes to the same as working on the characters: the bytes of line feeds and carriage returns occur
in no other character, so no character is torn apart and every line can be decoded.

* **`splitLines_utf8`**: the lines of the bytes are the bytes of the lines.
* **`Source.readable_ofText`**: what is read is the text, with its line breaks unified and its last
  line closed.
-/

namespace Quadword

namespace Text

/-- A carriage return directly before a line feed belongs to the line break. -/
def unifyBreaks : List Char → List Char
  | [] => []
  | '\r' :: '\n' :: cs => '\n' :: unifyBreaks cs
  | c :: cs => c :: unifyBreaks cs

/-- Every line ends with a line break, the last one too. -/
def closeLine (cs : List Char) : List Char :=
  if cs = [] ∨ cs.getLast? = some '\n' then cs else cs ++ ['\n']

/-- The characters that reading a text yields. -/
def stream (text : String) : List Char := closeLine (unifyBreaks text.toList)

/-- Puts a run in front of the first of some lines; without any, the run is a line of its own. -/
def extendFirst {α : Type} (run : List α) : List (List α) → List (List α)
  | [] => [run]
  | line :: more => (run ++ line) :: more

/-- The characters of each line, without the line's ending. -/
def lines : List Char → List (List Char)
  | [] => []
  | '\n' :: cs => [] :: lines cs
  | '\r' :: '\n' :: cs => [] :: lines cs
  | c :: cs => extendFirst [c] (lines cs)

/-- The bytes of a run of characters. -/
def utf8 (cs : List Char) : List UInt8 := cs.flatMap String.utf8EncodeChar

end Text

/-- The source with the bytes of a text. -/
def Source.ofText (text : String) : Source := .ofBytes text.toUTF8.data.toList

open Text

/-! ## Bytes -/

/-- A character below 128 is one byte, and it is that byte. -/
theorem utf8EncodeChar_of_lt {c : Char} (h : c.toNat < 128) :
    String.utf8EncodeChar c = [UInt8.ofNat c.toNat] := by
  have hle : c.val.toNat ≤ 0x7f := Nat.le_of_lt_succ h
  unfold String.utf8EncodeChar
  rw [if_pos hle]
  rfl

/--
All bytes of any other character are 128 or more. So a byte below that is a character, and bytes can
be looked for before they are decoded.
-/
theorem le_of_mem_utf8EncodeChar {c : Char} (h : 128 ≤ c.toNat) {b : UInt8}
    (hb : b ∈ String.utf8EncodeChar c) : 128 ≤ b.toNat := by
  have hgt : ¬ c.val.toNat ≤ 0x7f := Nat.not_le_of_lt h
  unfold String.utf8EncodeChar at hb
  rw [if_neg hgt] at hb
  -- two, three or four bytes, all of which have their highest bit set
  split at hb
  · simp only [List.mem_cons, List.not_mem_nil, or_false] at hb
    rcases hb with rfl | rfl <;> rw [UInt8.toNat_ofNat'] <;> omega
  · split at hb
    · simp only [List.mem_cons, List.not_mem_nil, or_false] at hb
      rcases hb with rfl | rfl | rfl <;> rw [UInt8.toNat_ofNat'] <;> omega
    · simp only [List.mem_cons, List.not_mem_nil, or_false] at hb
      rcases hb with rfl | rfl | rfl | rfl <;> rw [UInt8.toNat_ofNat'] <;> omega

/--
The byte of a character below 128 occurs in that character only. For the line feed this means that
lines may be cut before they are decoded.
-/
theorem mem_utf8EncodeChar_iff {c d : Char} (hd : d.toNat < 128) :
    UInt8.ofNat d.toNat ∈ String.utf8EncodeChar c ↔ c = d := by
  have hbyte : (UInt8.ofNat d.toNat).toNat = d.toNat := by
    rw [UInt8.toNat_ofNat']
    omega
  constructor
  · intro hmem
    -- a character of several bytes has none so small
    by_cases hc : c.toNat < 128
    · rw [utf8EncodeChar_of_lt hc, List.mem_singleton] at hmem
      have hcbyte : (UInt8.ofNat c.toNat).toNat = c.toNat := by
        rw [UInt8.toNat_ofNat']
        omega
      rw [hmem, hcbyte] at hbyte
      exact Char.toNat_inj.mp hbyte
    · have hle := le_of_mem_utf8EncodeChar (Nat.le_of_not_lt hc) hmem
      omega
  · rintro rfl
    rw [utf8EncodeChar_of_lt hd]
    exact List.mem_singleton_self _

/-! ## Lines -/

/--
A byte that ends no line, and is no carriage return of a line break, goes to the front of the first
line.
-/
theorem splitLines_cons {b : UInt8} {bytes : List UInt8} (hfeed : b ≠ 10)
    (hreturn : b = 13 → bytes.head? ≠ some 10) :
    splitLines (b :: bytes) = extendFirst [b] (splitLines bytes) := by
  rw [splitLines]
  · cases splitLines bytes <;> rfl
  · exact hfeed
  · rintro rest rfl rfl
    exact hreturn rfl rfl

/--
So does a run of bytes that are neither line feeds nor carriage returns. All bytes of a character
form such a run, apart from these two characters.
-/
theorem splitLines_append {run bytes : List UInt8} (hrun : ∀ b ∈ run, b ≠ 10 ∧ b ≠ 13)
    (hne : run ≠ []) : splitLines (run ++ bytes) = extendFirst run (splitLines bytes) := by
  induction run with
  | nil => exact absurd rfl hne
  | cons b run ih =>
      have hb := hrun b List.mem_cons_self
      rw [List.cons_append, splitLines_cons hb.1 fun h => absurd h hb.2]
      cases run with
      | nil => rfl
      | cons b' run =>
          rw [ih (fun x hx => hrun x (List.mem_cons_of_mem _ hx)) (by simp)]
          cases splitLines bytes <;> rfl

theorem utf8_cons (c : Char) (cs : List Char) :
    utf8 (c :: cs) = String.utf8EncodeChar c ++ utf8 cs :=
  List.flatMap_cons

/-- Putting a character in front of the first line puts its bytes there. -/
theorem map_utf8_extendFirst (c : Char) (ls : List (List Char)) :
    (extendFirst [c] ls).map utf8 = extendFirst (String.utf8EncodeChar c) (ls.map utf8) := by
  cases ls with
  | nil => simp [extendFirst, utf8]
  | cons l ls => simp [extendFirst, utf8]

/-- Bytes that start with a line feed are those of a text that does. -/
theorem head?_utf8_ne {cs : List Char} (h : cs.head? ≠ some '\n') : (utf8 cs).head? ≠ some 10 := by
  cases cs with
  | nil => exact nofun
  | cons c cs =>
      -- the first byte belongs to the first character, which is then the line feed
      intro hhead
      rw [utf8_cons, List.head?_append, Option.or_of_isSome (by simp)] at hhead
      have hc : c = '\n' := (mem_utf8EncodeChar_iff (d := '\n') (by decide)).mp
        (List.mem_of_mem_head? hhead)
      exact h (by rw [hc]; rfl)

/-- The lines of the bytes of a text are the bytes of its lines. -/
theorem splitLines_utf8 (cs : List Char) : splitLines (utf8 cs) = (lines cs).map utf8 := by
  -- along the lines of the characters, one character at a time
  fun_induction lines cs with
  | case1 => rfl
  | case2 cs ih =>
      rw [utf8_cons, List.map_cons, ← ih]
      rfl
  | case3 cs ih =>
      rw [utf8_cons, utf8_cons, List.map_cons, ← ih]
      rfl
  | case4 c cs hfeed hreturn ih =>
      rw [utf8_cons, map_utf8_extendFirst, ← ih]
      by_cases hr : c = '\r'
      · -- a carriage return is read as part of the line unless a line feed follows it
        subst hr
        have hhead : cs.head? ≠ some '\n' := by
          intro hhead
          obtain ⟨rest, rfl⟩ := List.head?_eq_some_iff.mp hhead
          exact hreturn rest rfl rfl
        exact splitLines_cons (by decide) fun _ => head?_utf8_ne hhead
      · refine splitLines_append (fun b hb => ⟨?_, ?_⟩) String.utf8EncodeChar_ne_nil
        · rintro rfl
          exact hfeed ((mem_utf8EncodeChar_iff (d := '\n') (by decide)).mp hb)
        · rintro rfl
          exact hr ((mem_utf8EncodeChar_iff (d := '\r') (by decide)).mp hb)

/-! ## Sources -/

/-- The bytes of a text are decoded to that text. -/
theorem fromUTF8?_utf8 (cs : List Char) :
    String.fromUTF8? ⟨(utf8 cs).toArray⟩ = some (String.ofList cs) := by
  have hbytes : (⟨(utf8 cs).toArray⟩ : ByteArray) = cs.utf8Encode := by
    apply ByteArray.ext
    apply Array.toList_inj.mp
    rw [List.utf8Encode, List.toList_data_toByteArray]
    rfl
  rw [hbytes, String.fromUTF8?, dif_pos ByteArray.isValidUTF8_utf8Encode]
  exact congrArg some (String.toByteArray_inj.mp String.toByteArray_ofList.symm)

theorem Source.lines_ofText (text : String) :
    (ofText text).lines = (Text.lines text.toList).map fun l => some (String.ofList l) := by
  show (splitLines text.toUTF8.data.toList).map decodeLine = _
  rw [toUTF8_toList, ← utf8, splitLines_utf8, List.map_map]
  exact List.map_congr_left fun l _ => fromUTF8?_utf8 l

/-- Lines that can all be decoded are read as their characters and a line break after each. -/
theorem Source.readableLines_some (ls : List (List Char)) :
    readableLines (ls.map fun l => some (String.ofList l)) =
      (ls.flatMap fun l => l ++ ['\n'], .complete) := by
  induction ls with
  | nil => rfl
  | cons l ls ih => simp [readableLines, ih]

/-- Only the end of a text matters for closing its last line. -/
theorem closeLine_cons {c : Char} {cs : List Char} (hc : c = '\n' ∨ cs ≠ []) :
    closeLine (c :: cs) = c :: closeLine cs := by
  unfold closeLine
  cases cs with
  | nil => simp_all
  | cons d ds =>
      rw [List.getLast?_cons_cons]
      by_cases h : (d :: ds).getLast? = some '\n'
      · simp [h]
      · simp [h]

theorem unifyBreaks_ne_nil {cs : List Char} (h : cs ≠ []) : unifyBreaks cs ≠ [] := by
  fun_cases unifyBreaks cs with
  | case1 => exact absurd rfl h
  | case2 cs => simp
  | case3 c cs _ => simp

theorem lines_ne_nil {cs : List Char} (h : cs ≠ []) : Text.lines cs ≠ [] := by
  fun_cases Text.lines cs with
  | case1 => exact absurd rfl h
  | case2 cs => simp
  | case3 cs => simp
  | case4 c cs _ _ => cases Text.lines cs <;> simp [extendFirst]

/-- A line break after each line gives the text back, with its line breaks unified. -/
theorem flatMap_lines (cs : List Char) :
    ((lines cs).flatMap fun l => l ++ ['\n']) = closeLine (unifyBreaks cs) := by
  -- line by line again; the case to look at is that of a character within a line
  fun_induction lines cs with
  | case1 => rfl
  | case2 cs ih =>
      rw [unifyBreaks, closeLine_cons (.inl rfl), ← ih]
      · rfl
      · rintro _ ⟨⟩
  | case3 cs ih =>
      rw [unifyBreaks, closeLine_cons (.inl rfl), ← ih]
      rfl
  | case4 c cs hfeed hreturn ih =>
      rw [unifyBreaks.eq_3 c cs hreturn]
      by_cases hcs : cs = []
      · -- a last line that lacks its line break
        subst hcs
        have hc : c ≠ '\n' := hfeed
        simp [lines, extendFirst, unifyBreaks, closeLine, hc]
      · rw [closeLine_cons (.inr (unifyBreaks_ne_nil hcs)), ← ih]
        obtain ⟨l, ls, hl⟩ := List.exists_cons_of_ne_nil (lines_ne_nil hcs)
        rw [hl]
        rfl

/--
**What is read of a text** is its stream: all characters, with the line breaks unified and the last
line closed. It can be read to its end, as every line can be decoded.
-/
theorem Source.readable_ofText (text : String) :
    (ofText text).readable = (stream text, .complete) := by
  rw [readable, lines_ofText, readableLines_some, flatMap_lines]
  rfl

end Quadword
