/-!
# The lines of a sequence of bytes

A sequence of bytes is taken line by line. A line ends at a line feed, and one carriage return
directly before the line feed belongs to the ending too. Each line is decoded on its own, so a line
that is not valid UTF-8 spoils that line only.
-/

namespace Quadword

/-- The bytes of each line, without the line's ending. -/
def splitLines : List UInt8 → List (List UInt8)
  | [] => []
  | 10 :: bytes => [] :: splitLines bytes
  | 13 :: 10 :: bytes => [] :: splitLines bytes
  | b :: bytes =>
    match splitLines bytes with
    | [] => [[b]]
    | line :: lines => (b :: line) :: lines

/-- The text of a line, if it is valid UTF-8. -/
def decodeLine (line : List UInt8) : Option String := String.fromUTF8? ⟨line.toArray⟩

/-- No line feed is left in a line, so lines are as short as they can be. -/
theorem not_mem_splitLines {bytes line : List UInt8} (h : line ∈ splitLines bytes) :
    10 ∉ line := by
  -- along the bytes: an empty line, a line break or a byte in front of the first line
  fun_induction splitLines bytes generalizing line with
  | case1 => cases h
  | case2 bytes ih =>
      rcases List.mem_cons.mp h with rfl | h
      · exact List.not_mem_nil
      · exact ih h
  | case3 bytes ih =>
      rcases List.mem_cons.mp h with rfl | h
      · exact List.not_mem_nil
      · exact ih h
  | case4 b bytes hb _ _ _ =>
      obtain rfl := List.mem_singleton.mp h
      exact fun hmem => hb (List.mem_singleton.mp hmem).symm
  | case5 b bytes hb _ first lines hcons ih =>
      rw [hcons] at ih
      rcases List.mem_cons.mp h with rfl | h
      · intro hmem
        rcases List.mem_cons.mp hmem with hmem | hmem
        · exact hb hmem.symm
        · exact ih List.mem_cons_self hmem
      · exact ih (List.mem_cons_of_mem _ h)

theorem toUTF8_toList (text : String) :
    text.toUTF8.data.toList = text.toList.flatMap String.utf8EncodeChar := by
  rw [String.toUTF8_eq_toByteArray, ← String.utf8Encode_toList, List.utf8Encode,
    List.toList_data_toByteArray]

/-- The text of a line has no line break in it, as the byte of that is in no line. -/
theorem not_mem_decodeLine {bytes line : List UInt8} {text : String} (hline : line ∈ splitLines bytes)
    (h : decodeLine line = some text) : '\n' ∉ text.toList := by
  have hbytes : text.toUTF8.data.toList = line := by
    unfold decodeLine String.fromUTF8? at h
    split at h
    · cases h
      rfl
    · cases h
  intro hbreak
  apply not_mem_splitLines hline
  rw [← hbytes, toUTF8_toList]
  exact List.mem_flatMap.mpr ⟨'\n', hbreak, by decide⟩

end Quadword
