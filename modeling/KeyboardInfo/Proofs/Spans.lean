import KeyboardInfo.Proofs.Lines
import KeyboardInfo.Source.Scan
import Mathlib.Data.List.DropRight

/-! Comments in a source file, and the functions they are bound to.

The lines of a file fall into segments: lines of code, and comments from their opener
to the next closer (`Segmented`). They do so in one way at most, and always unless the
last comment is never closed (`exists_segments`). A scan reports the functions that
code declares, and none that a comment mentions; each takes the last comment since the
declaration before it (`binds_last_comment`). -/
namespace KeyboardInfo.Source
open Files

/-! ### Segments -/

/-- A line of code, or a comment from its opener to its closer. -/
inductive Segment where
  | code (line : String)
  | comment (opener : String) (inner : List String) (closer : String)

namespace Segment

def lines : Segment → List String
  | code line => [line]
  | comment opener inner closer => opener :: (inner ++ [closer])

/-- Code opens no comment, and a comment runs to the next closer. -/
inductive WellFormed : Segment → Prop where
  | code {line : String} (plain : opensComment line.toList = false) : WellFormed (.code line)
  | comment {opener : String} {inner : List String} {closer : String}
      (opens : opensComment opener.toList)
      (inside : ∀ line ∈ inner, closesComment line.toList = false)
      (closes : closesComment closer.toList) : WellFormed (.comment opener inner closer)

/-- The function that a segment declares; comments declare none. -/
def declared? : Segment → Option String
  | code line => (declaredName? line.toList).map String.ofList
  | comment .. => none

/-- The text of a comment: its inner lines, each ended by a newline. -/
def body? : Segment → Option String
  | code _ => none
  | comment _ inner _ =>
    some (String.ofList (inner.flatMap fun line => bodyLine line.toList ++ ['\n']))

end Segment

/-- Lines are those of well-formed segments, one after the other. -/
structure Segmented (lines : List String) (segments : List Segment) : Prop where
  flatten : lines = segments.flatMap Segment.lines
  each : ∀ s ∈ segments, s.WellFormed

/-- Lines begin with a comment that is never closed. -/
def Unclosed (lines : List String) : Prop :=
  ∃ opener rest, lines = opener :: rest ∧ opensComment opener.toList ∧
    ∀ line ∈ rest, closesComment line.toList = false

theorem Segmented.nil : Segmented [] [] := ⟨rfl, nofun⟩

theorem Segmented.cons {s : Segment} (h : s.WellFormed) {lines : List String}
    {segments : List Segment} (hs : Segmented lines segments) :
    Segmented (s.lines ++ lines) (s :: segments) :=
  ⟨by rw [List.flatMap_cons, hs.flatten], List.forall_mem_cons.mpr ⟨h, hs.each⟩⟩

theorem Segmented.append {a b : List String} {s t : List Segment} (ha : Segmented a s)
    (hb : Segmented b t) : Segmented (a ++ b) (s ++ t) := by
  refine ⟨by rw [List.flatMap_append, ← ha.flatten, ← hb.flatten], fun x hx => ?_⟩
  exact (List.mem_append.mp hx).elim (ha.each x) (hb.each x)

theorem Segmented.of_cons {s : Segment} {lines : List String} {segments : List Segment}
    (h : Segmented lines (s :: segments)) :
    ∃ later, lines = s.lines ++ later ∧ s.WellFormed ∧ Segmented later segments :=
  ⟨segments.flatMap Segment.lines, by rw [h.flatten, List.flatMap_cons],
    h.each _ (List.mem_cons_self ..), rfl, fun t ht => h.each t (List.mem_cons_of_mem _ ht)⟩

/-- The lines inside a comment are those up to the first closer. -/
theorem takeWhile_inside {inner : List String} {closer : String}
    (inside : ∀ line ∈ inner, closesComment line.toList = false)
    (closes : closesComment closer.toList) (later : List String) :
    (inner ++ closer :: later).takeWhile (fun line => !closesComment line.toList) = inner := by
  rw [List.takeWhile_append_of_pos fun line hl => by rw [inside line hl]; rfl,
    List.takeWhile_cons_of_neg (by rw [closes]; decide), List.append_nil]

/-- The lines that a segment begins determine the segment. -/
theorem Segment.WellFormed.unique {s t : Segment} (hs : s.WellFormed) (ht : t.WellFormed)
    {later later' : List String} (heq : s.lines ++ later = t.lines ++ later') : s = t := by
  cases hs with
  | code plain =>
    cases ht with
    | code => rw [(List.cons.inj heq).1]
    | comment opens =>
      rw [(List.cons.inj heq).1, opens] at plain
      cases plain
  | @comment opener inner closer opens inside closes =>
    cases ht with
    | code plain =>
      rw [← (List.cons.inj heq).1, opens] at plain
      cases plain
    | @comment opener' inner' closer' _ inside' closes' =>
      simp only [Segment.lines, List.cons_append, List.append_assoc, List.nil_append,
        List.cons.injEq] at heq
      obtain ⟨rfl, heq⟩ := heq
      have hinner : inner = inner' := by
        rw [← takeWhile_inside inside closes later, heq, takeWhile_inside inside' closes']
      subst hinner
      rw [(List.cons.inj (List.append_cancel_left heq)).1]

theorem Segmented.unique {lines : List String} {segments others : List Segment}
    (h : Segmented lines segments) (h' : Segmented lines others) : others = segments := by
  induction segments generalizing lines others with
  | nil =>
    obtain rfl := h.flatten
    cases others with
    | nil => rfl
    | cons t others =>
      have := h'.flatten
      cases t <;> cases this
  | cons s segments ih =>
    obtain ⟨later, rfl, hs, hlater⟩ := h.of_cons
    cases others with
    | nil =>
      have := h'.flatten
      cases s <;> cases this
    | cons t others =>
      obtain ⟨later', heq, ht, hlater'⟩ := h'.of_cons
      obtain rfl := hs.unique ht heq
      rw [List.append_cancel_left heq] at hlater
      rw [ih hlater hlater']

/-- What begins with a comment is closed or not. -/
theorem closed_or_unclosed {opener : String} (opens : opensComment opener.toList)
    (rest : List String) :
    (∃ inner closer later, rest = inner ++ closer :: later ∧
      (Segment.comment opener inner closer).WellFormed) ∨ Unclosed (opener :: rest) := by
  cases hfind : rest.find? fun line => closesComment line.toList with
  | none =>
    refine .inr ⟨opener, rest, rfl, opens, fun line hl => ?_⟩
    simpa using List.find?_eq_none.mp hfind line hl
  | some closer =>
    obtain ⟨closes, inner, later, rfl, inside⟩ := List.find?_eq_some_iff_append.mp hfind
    exact .inl ⟨inner, closer, later, rfl, .comment opens (by simpa using inside) closes⟩

/-- Any lines fall into segments, up to their end or to a comment that is never closed. -/
theorem exists_segments (lines : List String) :
    ∃ segments start rest, Segmented start segments ∧ lines = start ++ rest ∧
      (rest = [] ∨ Unclosed rest) := by
  induction hlen : lines.length using Nat.strongRecOn generalizing lines with
  | ind n ih =>
    cases lines with
    | nil => exact ⟨[], [], [], .nil, rfl, .inl rfl⟩
    | cons first rest =>
      rw [List.length_cons] at hlen
      by_cases opens : opensComment first.toList
      · rcases closed_or_unclosed opens rest with ⟨inner, closer, later, rfl, hcomment⟩ | hopen
        · have hlt : later.length < n := by
            rw [List.length_append, List.length_cons] at hlen
            omega
          obtain ⟨segments, start, rest, hs, rfl, hrest⟩ := ih _ hlt later rfl
          exact ⟨_, _, rest, .cons hcomment hs, by simp [Segment.lines], hrest⟩
        · exact ⟨[], [], first :: rest, .nil, rfl, .inr hopen⟩
      · obtain ⟨segments, start, rest, hs, rfl, hrest⟩ := ih _ (by omega) rest rfl
        have hcode : (Segment.code first).WellFormed := .code (by simpa using opens)
        exact ⟨_, _, rest, .cons hcode hs, rfl, hrest⟩


/-! ### Bound comments -/

/-- The function that a segment reports when `comment` is the text waiting for one. -/
def Segment.binding (comment : String) (s : Segment) : List DocumentedFunction :=
  (s.declared?.map fun name => ⟨name, .ofText comment⟩).toList

/-- The text that waits for a function after a segment: none once a function took it. -/
def Segment.pending (comment : String) (s : Segment) : String :=
  if s.declared?.isSome then "" else s.body?.getD comment

/-- The functions that segments report, one after the other. -/
def bindings (comment : String) : List Segment → List DocumentedFunction
  | [] => []
  | s :: segments => s.binding comment ++ bindings (s.pending comment) segments

theorem names_bindings (comment : String) (segments : List Segment) :
    (bindings comment segments).map DocumentedFunction.name =
      segments.filterMap Segment.declared? := by
  induction segments generalizing comment with
  | nil => rfl
  | cons s segments ih =>
    rw [bindings, List.map_append, ih]
    cases h : s.declared? <;> simp [Segment.binding, h]

theorem bindings_append (comment : String) (before after : List Segment) :
    bindings comment (before ++ after) =
      bindings comment before ++ bindings (before.foldl Segment.pending comment) after := by
  induction before generalizing comment with
  | nil => rfl
  | cons s before ih =>
    rw [List.cons_append, bindings, ih, bindings, List.append_assoc, List.foldl_cons]

/-- What the function declared after some segments takes: the last comment since the
declaration before it. -/
def lastComment? (before : List Segment) : Option String :=
  ((before.rtakeWhile fun s => s.declared?.isNone).filterMap Segment.body?).getLast?

theorem foldl_pending (before : List Segment) :
    before.foldl Segment.pending "" = (lastComment? before).getD "" := by
  induction before using List.reverseRecOn with
  | nil => rfl
  | append_singleton before s ih =>
    rw [List.foldl_append, List.foldl_cons, List.foldl_nil, ih]
    cases hdecl : s.declared? with
    | some name => simp [lastComment?, Segment.pending, hdecl]
    | none =>
      cases hbody : s.body? <;> simp [lastComment?, Segment.pending, hdecl, hbody]

/-! ### Runs of the scan -/

/-- Inside a comment the scan gathers its text, up to the closer. -/
theorem Scan.ofLines_inside (path : String) {opened : Nat} {inner : List String}
    {closer : String} (inside : ∀ line ∈ inner, closesComment line.toList = false)
    (closes : closesComment closer.toList) (body : String) (passed : Nat) (rest : List Line) :
    ofLines path (.comment opened body) passed (readable inner ++ .ok closer :: rest) =
      ofLines path
        (.code (body ++
          String.ofList (inner.flatMap fun line => bodyLine line.toList ++ ['\n'])))
        (passed + inner.length + 1) rest := by
  induction inner generalizing body passed with
  | nil => simp [readable, ofLines, closes]
  | cons line inner ih =>
    obtain ⟨hline, inside⟩ := List.forall_mem_cons.mp inside
    have step : ofLines path (.comment opened body) passed
          (readable (line :: inner) ++ .ok closer :: rest) =
        ofLines path (.comment opened (body ++ String.ofList (bodyLine line.toList) ++ "\n"))
          (passed + 1) (readable inner ++ .ok closer :: rest) := by
      simp [readable, ofLines, hline]
    rw [step, ih inside]
    congr 2
    · have newline : "\n" = String.ofList ['\n'] := rfl
      simp only [List.flatMap_cons, String.ofList_append, String.append_assoc, newline]
    · rw [List.length_cons]
      omega


/-- The scan passes one segment, reports what it declares and goes on with the text that
waits after it. -/
theorem Segment.WellFormed.scan {s : Segment} (h : s.WellFormed) (path comment : String)
    (passed : Nat) (rest : List Line) :
    let scan := Scan.ofLines path (.code comment) passed (readable s.lines ++ rest)
    let later := Scan.ofLines path (.code (s.pending comment)) (passed + s.lines.length) rest
    scan.functions = s.binding comment ++ later.functions ∧ scan.failure = later.failure := by
  cases h with
  | @code line plain =>
    cases hdecl : declaredName? line.toList <;>
      simp [Segment.lines, Segment.binding, Segment.pending, Segment.declared?, Segment.body?,
        readable, Scan.ofLines, Scan.functions, plain, hdecl]
  | @comment opener inner closer opens inside closes =>
    have enter : Scan.ofLines path (.code comment) passed
          (readable (opener :: (inner ++ [closer])) ++ rest) =
        Scan.ofLines path (.comment (passed + 1) "") (passed + 1)
          (readable inner ++ .ok closer :: rest) := by
      simp [readable, Scan.ofLines, opens]
    have length : passed + (opener :: (inner ++ [closer])).length =
        passed + 1 + inner.length + 1 := by
      simp only [List.length_cons, List.length_append, List.length_nil]
      omega
    simp only [Segment.lines, enter, Scan.ofLines_inside path inside closes, length]
    exact ⟨rfl, rfl⟩

/-- A scan of segments reports their bindings, then goes on after them. -/
theorem Segmented.scan {lines : List String} {segments : List Segment}
    (h : Segmented lines segments) (path comment : String) (passed : Nat) (rest : List Line) :
    let scan := Scan.ofLines path (.code comment) passed (readable lines ++ rest)
    let later := Scan.ofLines path (.code (segments.foldl Segment.pending comment))
      (passed + lines.length) rest
    scan.functions = bindings comment segments ++ later.functions ∧
      scan.failure = later.failure := by
  induction segments generalizing lines comment passed with
  | nil =>
    obtain rfl := h.flatten
    exact ⟨rfl, rfl⟩
  | cons s segments ih =>
    obtain ⟨later, rfl, hs, hlater⟩ := h.of_cons
    have here := hs.scan path comment passed (readable later ++ rest)
    have there := ih hlater (s.pending comment) (passed + s.lines.length)
    rw [readable_append, List.append_assoc, List.length_append, ← Nat.add_assoc]
    simp only [bindings, List.foldl_cons, List.append_assoc]
    exact ⟨by rw [here.1, there.1], by rw [here.2, there.2]⟩

/-- Inside a comment that is never closed the scan reports nothing, and fails at the end. -/
theorem Scan.ofLines_unclosed (path : String) {lines : List String}
    (inside : ∀ line ∈ lines, closesComment line.toList = false) (opened passed : Nat)
    (body : String) :
    ofLines path (.comment opened body) passed (readable lines) =
      ⟨[], some (.unclosedComment path opened)⟩ := by
  induction lines generalizing body passed with
  | nil => rfl
  | cons line lines ih =>
    obtain ⟨hline, inside⟩ := List.forall_mem_cons.mp inside
    simp only [readable, List.map_cons, ofLines, hline, Bool.false_eq_true, if_false]
    exact ih inside ..

theorem Unclosed.scan {lines : List String} (h : Unclosed lines) (path comment : String)
    (passed : Nat) :
    Scan.ofLines path (.code comment) passed (readable lines) =
      ⟨[], some (.unclosedComment path (passed + 1))⟩ := by
  obtain ⟨opener, rest, rfl, opens, inside⟩ := h
  rw [← Scan.ofLines_unclosed path inside (passed + 1) (passed + 1) ""]
  simp [readable, Scan.ofLines, opens]

/-- What is scanned of lines that fall into segments. -/
theorem Segmented.result_ofLines {lines : List String} {segments : List Segment}
    (h : Segmented lines segments) (path : String) :
    (Scan.ofLines path (.code "") 0 (readable lines)).result = .ok (bindings "" segments) := by
  obtain ⟨functions, failure⟩ := h.scan path "" 0 []
  rw [List.append_nil] at functions failure
  have hfailure : (Scan.ofLines path (.code "") 0 (readable lines)).failure = none := failure
  rw [Scan.result, hfailure, functions]
  exact congrArg Except.ok (List.append_nil _)

/-- A file is scanned line by line. -/
theorem Scan.ofCursor_ofContent {content : ByteArray} {lines : List String}
    (text : linesOf content = readable lines) (path : String) :
    ofCursor path (.ofContent content) = ofLines path (.code "") 0 (readable lines) := by
  rw [← text, ← lines_ofContent]
  rfl

/-- A file whose lines fall into segments is scanned without failure. -/
theorem Segmented.result {content : ByteArray} {lines : List String} {segments : List Segment}
    (h : Segmented lines segments) (text : linesOf content = readable lines) (path : String) :
    (Scan.ofCursor path (.ofContent content)).result = .ok (bindings "" segments) := by
  rw [Scan.ofCursor_ofContent text, h.result_ofLines]

/-- A file that is scanned without failure has lines that fall into segments. -/
theorem segmented_of_result {content : ByteArray} {lines : List String} {path : String}
    {functions : List DocumentedFunction} (text : linesOf content = readable lines)
    (hscan : (Scan.ofCursor path (.ofContent content)).result = .ok functions) :
    ∃ segments, Segmented lines segments := by
  obtain ⟨segments, start, rest, hs, rfl, rfl | hopen⟩ := exists_segments lines
  · exact ⟨segments, by rwa [List.append_nil]⟩
  · have hfailure := (hs.scan path "" 0 (readable rest)).2
    rw [← readable_append, ← Scan.ofCursor_ofContent text, hopen.scan] at hfailure
    rw [Scan.result, hfailure] at hscan
    cases hscan

/-! ### Main theorem -/

/-- **Each function takes the last comment before it.** The lines of a file that is scanned
without failure fall into segments in one way. The functions are those that code lines
declare, in order. Each takes the text of the last comment since the function before it, or
is not documented if there is none. -/
theorem binds_last_comment {content : ByteArray} {lines : List String} {path : String}
    {functions : List DocumentedFunction} (text : linesOf content = readable lines)
    (hscan : (Scan.ofCursor path (.ofContent content)).result = .ok functions) :
    ∃ segments, Segmented lines segments ∧
      (∀ others, Segmented lines others → others = segments) ∧
      functions.map DocumentedFunction.name = segments.filterMap Segment.declared? ∧
      ∀ before s after name, segments = before ++ s :: after → s.declared? = some name →
        functions[(before.filterMap Segment.declared?).length]? =
          some ⟨name, match lastComment? before with
            | some body => .ofText body
            | none => .empty⟩ := by
  obtain ⟨segments, hs⟩ := segmented_of_result text hscan
  rw [hs.result text] at hscan
  cases hscan
  refine ⟨segments, hs, fun others => hs.unique, names_bindings .., ?_⟩
  rintro before s after name rfl hdecl
  have hlength : (before.filterMap Segment.declared?).length = (bindings "" before).length := by
    rw [← names_bindings "" before, List.length_map]
  rw [hlength, bindings_append, List.getElem?_append_right (Nat.le_refl _), Nat.sub_self,
    foldl_pending, bindings, Segment.binding, hdecl]
  cases lastComment? before <;> rfl

/-- The first comment is overwritten, the declaration inside the second is text, and the
other function finds no comment. -/
theorem binds_last_comment_overwritten :
    let lines := ["/*", " * [name]", " * Unused", " */", "/*", " * [name]", " * Shift",
      " * void kbfun_inside(void)", " */", "void kbfun_shift(void)", "void kbfun_bare (void);"]
    let content := (String.intercalate "\n" lines).toUTF8
    let shift : CommentBlock := ⟨some "Shift void kbfun_inside(void)", none, .empty⟩
    linesOf content = readable lines ∧
      (Scan.ofCursor "shift.c" (.ofContent content)).result =
        .ok [⟨"kbfun_shift", shift⟩, ⟨"kbfun_bare", .empty⟩] ∧
      ∃ segments, Segmented lines segments ∧
        segments.filterMap Segment.declared? = ["kbfun_shift", "kbfun_bare"] := by
  intro lines content shift
  have text : linesOf content = readable lines := rfl
  have hscan : (Scan.ofCursor "shift.c" (.ofContent content)).result =
      .ok [⟨"kbfun_shift", shift⟩, ⟨"kbfun_bare", .empty⟩] := rfl
  obtain ⟨segments, hs, -, hnames, -⟩ := binds_last_comment text hscan
  exact ⟨text, hscan, segments, hs, hnames.symm⟩

end KeyboardInfo.Source
