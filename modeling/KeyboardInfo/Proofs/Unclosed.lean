import KeyboardInfo.Proofs.Spans

/-! Comments that are never closed.

Nothing but such a comment makes the scan of a text fail. Openers inside a comment and closers
outside of one count for nothing, so it is the comment that the segments of the file stop at,
and its line is the one after those of the segments. A closer at the end of the file mends it:
the comment then runs to that line, so that what was found before it is all that is found
(`fails_on_unclosed`). -/
namespace KeyboardInfo

/-! ### Ending the last line -/

namespace Files
open Text

/-- Some content with a newline at its end. -/
def ended (content : ByteArray) : ByteArray :=
  if content.data.toList.getLast? = some newline then content else content.push newline

/-- A newline after bytes that do not end with one ends their last line. -/
theorem cutLines_concat_newline (begun : List UInt8) {bytes : List UInt8}
    (hne : begun ≠ [] ∨ bytes ≠ []) (hend : bytes.getLast? ≠ some newline) :
    ∃ before last, cutLines begun bytes = before ++ [last] ∧
      cutLines begun (bytes ++ [newline]) = before ++ [endedLine last.reverse] := by
  induction bytes generalizing begun with
  | nil =>
    have hbegun : begun ≠ [] := hne.resolve_right fun h => h rfl
    refine ⟨[], begun.reverse, ?_, ?_⟩
    · rw [cutLines, if_neg (by simpa using hbegun), List.nil_append]
    · rw [List.nil_append, cutLines, if_pos rfl, List.reverse_reverse]
      rfl
  | cons b bytes ih =>
    by_cases hb : b = newline
    · have hbytes : bytes ≠ [] := by
        rintro rfl
        exact hend (congrArg some hb)
      rw [List.getLast?_cons_of_ne_nil hbytes] at hend
      obtain ⟨before, last, hcut, hended⟩ := ih [] (.inr hbytes) hend
      refine ⟨endedLine begun :: before, last, ?_, ?_⟩
      · rw [cutLines, if_pos hb, hcut, List.cons_append]
      · rw [List.cons_append, cutLines, if_pos hb, hended, List.cons_append]
    · have hend : bytes.getLast? ≠ some newline := by
        rcases List.eq_nil_or_concat bytes with rfl | ⟨front, c, rfl⟩
        · simp
        · rw [List.concat_eq_append, ← List.cons_append, List.getLast?_concat] at hend
          rwa [List.concat_eq_append, List.getLast?_concat]
      obtain ⟨before, last, hcut, hended⟩ := ih (b :: begun) (.inl (List.cons_ne_nil b begun)) hend
      refine ⟨before, last, ?_, ?_⟩
      · rw [cutLines, if_neg hb, hcut]
      · rw [List.cons_append, cutLines, if_neg hb, hended]

/-- A newline that is put after the last line may take a carriage return from it. -/
theorem linesOf_push_newline {content : ByteArray} {before : List String} {last : String}
    (text : linesOf content = readable (before ++ [last]))
    (hend : content.data.toList.getLast? ≠ some newline) :
    linesOf (content.push newline) =
      readable (before ++ [String.ofList (withoutReturn last.toList)]) := by
  have hne : content.data.toList ≠ [] := by
    intro hnil
    rw [linesOf, hnil] at text
    exact absurd (congrArg List.length text) (by simp [cutLines])
  obtain ⟨lines, bytes, hcut, hended⟩ := cutLines_concat_newline [] (.inr hne) hend
  rw [linesOf, hcut, List.map_append, readable_append] at text
  obtain ⟨hbefore, hlast⟩ := List.append_inj' text rfl
  have hread : decodeLine (endedLine bytes.reverse) =
      .ok (String.ofList (withoutReturn last.toList)) := by
    rw [← utf8_of_decodeLine (List.singleton_inj.mp hlast), endedLine_utf8, decodeLine_utf8]
  rw [linesOf, ByteArray.data_push, Array.toList_push, hended, List.map_append, hbefore,
    List.map_singleton, hread, readable_append]
  rfl

/-- What is added to content with a newline at its end comes in lines of its own, and the last
line before is the same without outer blanks. -/
theorem exists_linesOf_ended {content : ByteArray} {start rest : List String}
    (text : linesOf content = readable (start ++ rest)) (hrest : rest ≠ []) :
    ∃ others, others.map (fun line => trim line.toList) = rest.map (fun line => trim line.toList) ∧
      ∀ more, linesOf (ended content ++ more) = readable (start ++ others) ++ linesOf more := by
  by_cases hend : content.data.toList.getLast? = some newline
  · refine ⟨rest, rfl, fun more => ?_⟩
    rw [ended, if_pos hend, linesOf_append_of_newline hend, text]
  · obtain ⟨front, last, rfl⟩ := (List.eq_nil_or_concat rest).resolve_left hrest
    rw [List.concat_eq_append, ← List.append_assoc] at text
    refine ⟨front ++ [String.ofList (withoutReturn last.toList)], ?_, fun more => ?_⟩
    · simp [trim_withoutReturn]
    · have hnewline : (content.push newline).data.toList.getLast? = some newline := by
        rw [ByteArray.data_push, Array.toList_push, List.getLast?_concat]
      rw [ended, if_neg hend, linesOf_append_of_newline hnewline, linesOf_push_newline text hend,
        List.append_assoc]

end Files

namespace Source
open Files

/-! ### Comments at the end of a file -/

/-- Lines fall into segments up to a comment that is never closed. -/
def LeavesOpen (lines start : List String) : Prop :=
  ∃ segments rest, Segmented start segments ∧ lines = start ++ rest ∧ Unclosed rest

theorem Unclosed.congr {lines others : List String} (h : Unclosed lines)
    (same : others.map (fun line => Text.trim line.toList) =
      lines.map fun line => Text.trim line.toList) : Unclosed others := by
  obtain ⟨opener, rest, rfl, opens, inside⟩ := h
  obtain ⟨first, later, rfl, hfirst, hlater⟩ := List.map_eq_cons_iff.mp same
  refine ⟨first, later, rfl, ?_, fun line hline => ?_⟩
  · rwa [opensComment, hfirst]
  · have htrim := List.mem_map_of_mem (f := fun line => Text.trim line.toList) hline
    rw [hlater] at htrim
    obtain ⟨twin, htwin, heq⟩ := List.mem_map.mp htrim
    rw [closesComment, ← heq]
    exact inside twin htwin

/-- A closer makes a segment of a comment that was never closed. -/
theorem Unclosed.segment {lines : List String} (h : Unclosed lines) (closer : String)
    (closes : closesComment closer.toList) :
    ∃ comment : Segment, comment.WellFormed ∧ comment.lines = lines ++ [closer] ∧
      comment.declared? = none := by
  obtain ⟨opener, rest, rfl, opens, inside⟩ := h
  exact ⟨.comment opener rest closer, .comment opens inside closes, rfl, rfl⟩

/-- A comment that is never closed is what the scan fails at. -/
theorem LeavesOpen.result {content : ByteArray} {lines start : List String}
    (h : LeavesOpen lines start) (text : linesOf content = readable lines) (path : String) :
    (Scan.ofCursor path (.ofContent content)).result =
      .error (.unclosedComment path (start.length + 1)) := by
  obtain ⟨segments, rest, hs, rfl, hopen⟩ := h
  have run := (hs.scan path "" 0 (readable rest)).2
  rw [← readable_append, ← Scan.ofCursor_ofContent text, hopen.scan, Nat.zero_add] at run
  exact Scan.result_eq_error_iff.mpr run

/-- With a closer after them, lines that leave a comment open are scanned as those before it. -/
theorem LeavesOpen.closed {content : ByteArray} {lines start : List String}
    (h : LeavesOpen lines start) (text : linesOf content = readable lines) (path : String) :
    ∃ functions, (Scan.ofLines path (.code "") 0 (readable start)).result = .ok functions ∧
      ∀ more, linesOf more = readable ["*/"] →
        (Scan.ofCursor path (.ofContent (ended content ++ more))).result = .ok functions := by
  obtain ⟨segments, rest, hs, rfl, hopen⟩ := h
  refine ⟨bindings "" segments, hs.result_ofLines path, fun more hmore => ?_⟩
  have hrest : rest ≠ [] := by
    obtain ⟨opener, later, rfl, -⟩ := hopen
    exact List.cons_ne_nil opener later
  obtain ⟨others, same, hlines⟩ := exists_linesOf_ended text hrest
  obtain ⟨comment, hcomment, hcommentLines, hdeclares⟩ :=
    (hopen.congr same).segment "*/" rfl
  have htext : linesOf (ended content ++ more) = readable (start ++ comment.lines) := by
    rw [hlines, hmore, ← readable_append, List.append_assoc, hcommentLines]
  have hclosed : Segmented (start ++ comment.lines) (segments ++ [comment]) := by
    have hlast := Segmented.cons hcomment .nil
    rw [List.append_nil] at hlast
    exact hs.append hlast
  rw [hclosed.result htext, bindings_append]
  simp [bindings, Segment.binding, hdeclares]

/-! ### Main theorem -/

/-- **The scan of a text fails just at a comment that is never closed**, and says on which line
it opens. A closer on a line of its own at the end mends the file, and the functions are then
those of the lines before the comment. -/
theorem fails_on_unclosed {content : ByteArray} {lines : List String}
    (text : linesOf content = readable lines) (path : String) :
    (∀ e, (Scan.ofCursor path (.ofContent content)).result = .error e ↔
      ∃ start, LeavesOpen lines start ∧ e = .unclosedComment path (start.length + 1)) ∧
    ∀ start, LeavesOpen lines start →
      ∃ functions, (Scan.ofLines path (.code "") 0 (readable start)).result = .ok functions ∧
        ∀ closer ∈ ["*/", "*/\n"],
          (Scan.ofCursor path (.ofContent (ended content ++ closer.toUTF8))).result =
            .ok functions := by
  refine ⟨fun e => ⟨fun h => ?_, ?_⟩, fun start h => ?_⟩
  · obtain ⟨segments, start, rest, hs, hlines, rfl | hopen⟩ := exists_segments lines
    · rw [List.append_nil] at hlines
      rw [hs.result (hlines ▸ text)] at h
      cases h
    · have hleaves : LeavesOpen lines start := ⟨segments, rest, hs, hlines, hopen⟩
      rw [hleaves.result text] at h
      cases h
      exact ⟨start, hleaves, rfl⟩
  · rintro ⟨start, h, rfl⟩
    exact h.result text path
  · obtain ⟨functions, hstart, hclosed⟩ := h.closed text path
    refine ⟨functions, hstart, fun closer hcloser => hclosed _ ?_⟩
    rcases List.mem_pair.mp hcloser with rfl | rfl <;> rfl

/-- The first closer closes nothing and the second opener opens nothing. The last comment is
never closed, in a file that ends in a carriage return. -/
theorem fails_on_unclosed_last :
    let start := ["*/", "/*", " * [name]", "/*", " * Shift", " */", "void kbfun_shift(void);"]
    let lines := start ++ ["  /*\t", " * [name]\r"]
    let content := (String.intercalate "\n" lines).toUTF8
    let functions := [⟨"kbfun_shift", some "Shift", none, .empty⟩]
    linesOf content = readable lines ∧ LeavesOpen lines start ∧
      (Scan.ofCursor "a.c" (.ofContent content)).result = .error (.unclosedComment "a.c" 8) ∧
      (Scan.ofLines "a.c" (.code "") 0 (readable start)).result = .ok functions ∧
      (Scan.ofCursor "a.c" (.ofContent (ended content ++ "*/".toUTF8))).result = .ok functions := by
  intro start lines content functions
  have text : linesOf content = readable lines := by decide +kernel
  have shift : (Segment.comment "/*" [" * [name]", "/*", " * Shift"] " */").WellFormed :=
    .comment rfl (by decide) rfl
  have segmented : Segmented start [.code "*/",
      .comment "/*" [" * [name]", "/*", " * Shift"] " */", .code "void kbfun_shift(void);"] := by
    refine ⟨rfl, List.forall_mem_cons.mpr ⟨.code rfl, List.forall_mem_cons.mpr ⟨shift, ?_⟩⟩⟩
    exact List.forall_mem_singleton.mpr (.code rfl)
  have hleaves : LeavesOpen lines start :=
    ⟨_, _, segmented, rfl, _, _, rfl, rfl, by decide⟩
  have hstart : (Scan.ofLines "a.c" (.code "") 0 (readable start)).result = .ok functions := by
    decide +kernel
  obtain ⟨hfails, hcloses⟩ := fails_on_unclosed text "a.c"
  obtain ⟨others, hothers, hclosed⟩ := hcloses start hleaves
  rw [hstart] at hothers
  cases hothers
  exact ⟨text, hleaves, (hfails _).mpr ⟨start, hleaves, rfl⟩, hstart, hclosed "*/" (by simp)⟩

end Source

end KeyboardInfo
