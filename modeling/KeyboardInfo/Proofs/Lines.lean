import KeyboardInfo.Files.Cursor
import KeyboardInfo.Proofs.Trimming
import KeyboardInfo.Proofs.Utf8

/-! Lines that are all text.

Every line of a text is text (`exists_readable`), since a line is cut off at a byte that is
part of no character but the newline. So no line has a newline in it
(`newline_not_mem_of_linesOf`). -/
namespace KeyboardInfo.Files
open Text

/-- Lines of text, as reading them gives them. -/
def readable (lines : List String) : List Line := lines.map .ok

theorem readable_append (a b : List String) : readable (a ++ b) = readable a ++ readable b :=
  List.map_append

theorem readable_injective {a b : List String} (h : readable a = readable b) : a = b :=
  List.map_injective_iff.mpr (fun _ _ h => Except.ok.inj h) h

@[simp]
theorem length_readable (lines : List String) : (readable lines).length = lines.length :=
  List.length_map _

/-- A cursor before the first line of some content has all of its lines to take. -/
theorem lines_ofContent (content : ByteArray) : (Cursor.ofContent content).lines = linesOf content :=
  List.append_nil _

/-! ### The lines of a text -/

theorem decodeLine_utf8 (cs : List Char) : decodeLine (utf8 cs) = .ok (String.ofList cs) := by
  have hbytes := toByteArray_utf8 cs
  have hread : String.fromUTF8? (String.ofList cs).toByteArray = some (String.ofList cs) :=
    dif_pos (String.ofList cs).isValidUTF8
  rw [decodeLine, ← hbytes, hread]

/-- Bytes that are no newline are passed over. -/
theorem cutLines_append_of_not_mem {bytes : List UInt8} (h : newline ∉ bytes)
    (begun rest : List UInt8) :
    cutLines begun (bytes ++ rest) = cutLines (bytes.reverse ++ begun) rest := by
  induction bytes generalizing begun with
  | nil => rfl
  | cons b bytes ih =>
    rw [List.mem_cons, not_or] at h
    rw [List.cons_append, cutLines, if_neg (Ne.symm h.1), ih h.2, List.reverse_cons,
      List.append_assoc, List.singleton_append]

/-- A line without one carriage return at its end. -/
def withoutReturn (line : List Char) : List Char :=
  if line.getLast? = some '\r' then line.dropLast else line

theorem withoutReturn_concat {c : Char} (h : c ≠ '\r') (line : List Char) :
    withoutReturn (line ++ [c]) = line ++ [c] := by
  rw [withoutReturn, List.getLast?_concat, if_neg fun heq => h (Option.some.inj heq)]

theorem withoutReturn_concat_return (line : List Char) : withoutReturn (line ++ ['\r']) = line := by
  rw [withoutReturn, List.getLast?_concat, if_pos rfl, List.dropLast_concat]

/-- The carriage return that a line may lose is blank. -/
theorem trim_withoutReturn (line : List Char) : trim (withoutReturn line) = trim line := by
  rcases List.eq_nil_or_concat line with rfl | ⟨start, c, rfl⟩
  · rfl
  · rw [List.concat_eq_append]
    by_cases hc : c = '\r'
    · rw [hc, withoutReturn_concat_return, trim_append_blanks start (by simp; rfl)]
    · rw [withoutReturn_concat hc]

/-- The carriage return that is dropped is a character of the line. -/
theorem endedLine_utf8 (line : List Char) :
    endedLine (utf8 line).reverse = utf8 (withoutReturn line) := by
  rcases List.eq_nil_or_concat line with rfl | ⟨start, c, rfl⟩
  · rfl
  · obtain ⟨front, last, hlast⟩ :=
      (List.eq_nil_or_concat (String.utf8EncodeChar c)).resolve_left String.utf8EncodeChar_ne_nil
    rw [List.concat_eq_append] at hlast ⊢
    have hbytes : utf8 (start ++ [c]) = utf8 start ++ front ++ [last] := by
      rw [utf8_append, utf8_cons, hlast, utf8_nil, List.append_nil, List.append_assoc]
    rw [hbytes, List.reverse_append, List.reverse_singleton, List.singleton_append, endedLine]
    split
    · next hreturn =>
      obtain ⟨hone, hc⟩ := encodeChar_eq_singleton (c := c) (b := last) (by simp [hlast])
        (by rw [hreturn]; decide)
      rw [hlast] at hone
      obtain rfl : front = [] := by simpa using hone
      obtain rfl : c = '\r' := by
        rw [hreturn] at hc
        exact Char.toNat_inj.mp hc
      rw [withoutReturn_concat_return, List.append_nil, List.reverse_reverse]
    · next hother =>
      have hc : c ≠ '\r' := by
        rintro rfl
        have hone : [carriageReturn] = front ++ [last] := hlast
        exact hother (by simpa using (congrArg List.getLast? hone).symm)
      rw [withoutReturn_concat hc, hbytes, List.reverse_cons, List.reverse_reverse]

theorem exists_utf8_cutLines (begun cs : List Char) :
    ∃ lines : List (List Char), cutLines (utf8 begun).reverse (utf8 cs) = lines.map utf8 := by
  induction cs generalizing begun with
  | nil =>
    rw [utf8_nil, cutLines]
    split
    · exact ⟨[], rfl⟩
    · exact ⟨[begun], by rw [List.reverse_reverse]; rfl⟩
  | cons c cs ih =>
    rw [utf8_cons]
    by_cases hc : newline ∈ String.utf8EncodeChar c
    · obtain ⟨lines, hlines⟩ := ih []
      obtain ⟨hone, -⟩ := encodeChar_eq_singleton hc (by decide)
      refine ⟨withoutReturn begun :: lines, ?_⟩
      rw [hone, List.singleton_append, cutLines, if_pos rfl, endedLine_utf8, List.map_cons, ← hlines]
      rfl
    · have hbegun : (String.utf8EncodeChar c).reverse ++ (utf8 begun).reverse =
          (utf8 (begun ++ [c])).reverse := by
        rw [utf8_append, utf8_cons, utf8_nil, List.append_nil, List.reverse_append]
      rw [cutLines_append_of_not_mem hc, hbegun]
      exact ih (begun ++ [c])

/-- A character other than the newline has no newline among its bytes. -/
theorem newline_not_mem_utf8 {line : List Char} (h : '\n' ∉ line) : newline ∉ utf8 line := by
  intro hnewline
  obtain ⟨c, hc, hbyte⟩ := List.mem_flatMap.mp hnewline
  obtain ⟨-, hvalue⟩ := encodeChar_eq_singleton hbyte (by decide)
  obtain rfl : c = '\n' := Char.toNat_inj.mp hvalue
  exact h hc

/-- Lines that are ended by newlines, as one text. -/
def endedText (lines : List (List Char)) : String :=
  String.ofList (lines.flatMap fun line => line ++ ['\n'])

/-- Lines that are ended by newlines are cut where they end. -/
theorem linesOf_endedText {lines : List (List Char)} (h : ∀ line ∈ lines, '\n' ∉ line) :
    linesOf (endedText lines).toUTF8 =
      readable (lines.map fun line => String.ofList (withoutReturn line)) := by
  have hcut : cutLines [] (utf8 (lines.flatMap fun line => line ++ ['\n'])) =
      lines.map fun line => utf8 (withoutReturn line) := by
    induction lines with
    | nil => rfl
    | cons line lines ih =>
      obtain ⟨hline, h⟩ := List.forall_mem_cons.mp h
      have hbytes : utf8 ((line :: lines).flatMap fun line => line ++ ['\n']) =
          utf8 line ++ newline :: utf8 (lines.flatMap fun line => line ++ ['\n']) := by
        rw [List.flatMap_cons, utf8_append, utf8_append, List.append_assoc]
        rfl
      rw [hbytes, cutLines_append_of_not_mem (newline_not_mem_utf8 hline), cutLines, if_pos rfl,
        List.append_nil, endedLine_utf8, ih h, List.map_cons]
  rw [linesOf, toList_toUTF8, endedText, String.toList_ofList, hcut, readable, List.map_map,
    List.map_map]
  exact List.map_congr_left fun line _ => decodeLine_utf8 _

/-- A text without newlines is one line. -/
theorem linesOf_line {line : List Char} (hne : line ≠ []) (h : '\n' ∉ line) :
    linesOf (String.ofList line).toUTF8 = readable [String.ofList line] := by
  have hbytes : utf8 line ≠ [] := by
    obtain ⟨c, cs, rfl⟩ := List.exists_cons_of_ne_nil hne
    rw [utf8_cons]
    exact List.append_ne_nil_of_left_ne_nil String.utf8EncodeChar_ne_nil _
  have hcut : cutLines [] (utf8 line) = [utf8 line] := by
    have hpass := cutLines_append_of_not_mem (newline_not_mem_utf8 h) [] []
    rw [List.append_nil, List.append_nil] at hpass
    rw [hpass, cutLines, List.reverse_reverse, if_neg (by simpa using hbytes)]
  rw [linesOf, toList_toUTF8, String.toList_ofList, hcut, List.map_singleton, decodeLine_utf8]
  rfl

/-- **Every line of a text is text.** -/
theorem exists_readable (s : String) : ∃ lines, linesOf s.toUTF8 = readable lines := by
  obtain ⟨lines, hlines⟩ := exists_utf8_cutLines [] s.toList
  have hcut : cutLines [] (utf8 s.toList) = lines.map utf8 := hlines
  refine ⟨lines.map String.ofList, ?_⟩
  rw [linesOf, toList_toUTF8, hcut, readable, List.map_map, List.map_map]
  exact List.map_congr_left fun line _ => decodeLine_utf8 line

/-! ### No line has a newline in it -/

theorem not_mem_endedLine {b : UInt8} {begun : List UInt8} (h : b ∉ begun) :
    b ∉ endedLine begun := by
  cases begun with
  | nil => exact h
  | cons c rest =>
    rw [endedLine]
    split
    · exact fun hb => h (List.mem_cons_of_mem c (List.mem_reverse.mp hb))
    · exact fun hb => h (List.mem_reverse.mp hb)

theorem newline_not_mem_cutLines {begun bytes : List UInt8} (h : newline ∉ begun) :
    ∀ line ∈ cutLines begun bytes, newline ∉ line := by
  induction bytes generalizing begun with
  | nil =>
    intro line hline
    rw [cutLines] at hline
    split at hline
    · exact absurd hline List.not_mem_nil
    · rw [List.mem_singleton.mp hline, List.mem_reverse]
      exact h
  | cons b bytes ih =>
    rw [cutLines]
    split
    · exact List.forall_mem_cons.mpr ⟨not_mem_endedLine h, ih List.not_mem_nil⟩
    · next hb => exact ih (List.not_mem_cons_of_ne_of_not_mem (Ne.symm hb) h)

/-- The text of a line has the bytes of the line. -/
theorem utf8_of_decodeLine {bytes : List UInt8} {line : String}
    (h : decodeLine bytes = .ok line) : utf8 line.toList = bytes := by
  rw [decodeLine] at h
  split at h
  · next text htext =>
    cases h
    obtain ⟨_, hvalid⟩ := Option.dite_none_right_eq_some.mp htext
    rw [← toList_toUTF8, ← Option.some.inj hvalid]
    rfl
  · cases h

theorem newline_not_mem_of_linesOf {content : ByteArray} {lines : List String}
    (text : linesOf content = readable lines) : ∀ line ∈ lines, '\n' ∉ line.toList := by
  intro line hline hnewline
  have hok : Except.ok line ∈ linesOf content := text ▸ List.mem_map_of_mem hline
  obtain ⟨bytes, hbytes, hdecode⟩ := List.mem_map.mp hok
  have hcut := newline_not_mem_cutLines List.not_mem_nil bytes hbytes
  rw [← utf8_of_decodeLine hdecode] at hcut
  exact hcut (List.mem_flatMap.mpr ⟨'\n', hnewline, List.mem_cons_self ..⟩)

/-! ### Texts one after the other -/

/-- What is added after a newline comes in lines of its own. -/
theorem linesOf_append_of_newline {content : ByteArray}
    (hend : content.data.toList.getLast? = some newline) (more : ByteArray) :
    linesOf (content ++ more) = linesOf content ++ linesOf more := by
  obtain ⟨bytes, hbytes⟩ := List.getLast?_eq_some_iff.mp hend
  rw [linesOf, linesOf, linesOf, ByteArray.data_append, Array.toList_append, hbytes,
    List.append_assoc, List.singleton_append, cutLines_append_newline, List.map_append]

/-- The lines of a text that ends with a newline, or is empty, come first in any text that it
begins. -/
theorem linesOf_append {a : String} (ends : a = "" ∨ ∃ s, a = s ++ "\n") (b : String) :
    linesOf (a ++ b).toUTF8 = linesOf a.toUTF8 ++ linesOf b.toUTF8 := by
  rcases ends with rfl | ⟨s, rfl⟩
  · rw [String.empty_append]
    rfl
  · have hend : (s ++ "\n").toUTF8.data.toList.getLast? = some newline := by
      rw [toList_toUTF8, String.toList_append, utf8_append]
      exact List.getLast?_concat
    have hbytes : (s ++ "\n" ++ b).toUTF8 = (s ++ "\n").toUTF8 ++ b.toUTF8 :=
      String.toByteArray_append
    rw [hbytes, linesOf_append_of_newline hend]

end KeyboardInfo.Files
