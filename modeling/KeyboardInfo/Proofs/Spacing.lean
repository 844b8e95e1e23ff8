import KeyboardInfo.Proofs.Blocks
import Mathlib.Data.List.Forall2

/-! Spacing in a linker map.

What a line gives and what section it opens hang on its tokens alone, so a block comes to the
same when the blanks on its lines change (`blockAt_congr`), and so does a whole map
(`ofLines_congr`). Only the header of a layout needs more than the tokens: its pattern stops at a
newline, which no line has in it. -/
namespace KeyboardInfo.LinkerMap
open Files (readable linesOf newline_not_mem_of_linesOf)
open Text

/-- Two lines have the same tokens in the same order, whatever blanks stand around them. -/
def SameTokens (line line' : String) : Prop := tokens line.toList = tokens line'.toList

instance (line line' : String) : Decidable (SameTokens line line') :=
  inferInstanceAs (Decidable (tokens line.toList = tokens line'.toList))

/-! ### One line -/

section
variable {line line' : String} (h : SameTokens line line')
include h

theorem extentTokens?_congr :
    Entry.extentTokens? line.toList = Entry.extentTokens? line'.toList := by
  rw [extentTokens?_eq, extentTokens?_eq, h]

theorem symbolToken?_congr : Entry.symbolToken? line.toList = Entry.symbolToken? line'.toList := by
  rw [symbolToken?_eq, symbolToken?_eq, h]

theorem positionToken?_congr (m : Matrix) :
    Entry.positionToken? m.symbol.toList line.toList =
      Entry.positionToken? m.symbol.toList line'.toList := by
  rw [positionToken?_eq m.symbol_ne_nil m.symbol_solid,
    positionToken?_eq m.symbol_ne_nil m.symbol_solid, h]

theorem functionHeader_congr :
    Entry.functionHeader.occursIn line.toList = Entry.functionHeader.occursIn line'.toList := by
  rw [Bool.eq_iff_iff, functionHeader_iff, functionHeader_iff, h]

theorem layoutHeader_congr (newline : '\n' ∉ line.toList) (newline' : '\n' ∉ line'.toList) :
    Entry.layoutHeader.occursIn line.toList = Entry.layoutHeader.occursIn line'.toList := by
  rw [Bool.eq_iff_iff, layoutHeader_iff newline, layoutHeader_iff newline', h]

theorem extentAt_congr (number : Nat) : extentAt number line = extentAt number line' := by
  rw [extentAt, extentAt, extentTokens?_congr h]

theorem functionNameAt_congr (number : Nat) :
    functionNameAt number line = functionNameAt number line' := by
  rw [functionNameAt, functionNameAt, symbolToken?_congr h]

theorem sectionLengthAt_congr (number : Nat) :
    sectionLengthAt number line = sectionLengthAt number line' := by
  rw [sectionLengthAt, sectionLengthAt, extentTokens?_congr h]

end

/-! ### The lines after a header -/

section
variable {lines lines' : List String} (h : List.Forall₂ SameTokens lines lines')
include h

theorem tokenIn_congr (m : Matrix) : tokenIn lines m = tokenIn lines' m := by
  induction h with
  | nil => rfl
  | cons hline _ ih =>
    simp only [tokenIn, List.findSome?_cons, positionToken?_congr hline] at ih ⊢
    rw [ih]

theorem matricesIn_congr (number : Nat) (keyLength : UInt64) :
    matricesIn number keyLength lines = matricesIn number keyLength lines' := by
  simp only [matricesIn, positionIn_eq, tokenIn_congr h]

theorem functionAfter_congr (number : Nat) :
    functionAfter number (readable lines) = functionAfter number (readable lines') := by
  cases h with
  | nil => rfl
  | cons hextent hrest =>
    cases hrest with
    | nil =>
      simp only [functionAfter, lineAhead_readable, List.getElem?_cons_zero, bind, Except.bind,
        extentAt_congr hextent]
      rfl
    | cons hname _ =>
      simp only [functionAfter, lineAhead_readable, List.getElem?_cons_zero,
        List.getElem?_cons_succ, bind, Except.bind, extentAt_congr hextent,
        functionNameAt_congr hname]

theorem layoutAfter_congr {header header' : String} (hheader : SameTokens header header')
    (number : Nat) : layoutAfter number header (readable lines) =
      layoutAfter number header' (readable lines') := by
  rw [layoutAfter, layoutAfter, sectionLengthAt_congr hheader, window_readable, window_readable]
  congr 1
  funext length
  exact matricesIn_congr (List.forall₂_take layoutWindow h) number (length / layoutShares)

/-- A block comes to the same whatever the spacing of its lines. -/
theorem blockAt_congr {first first' : String} (hfirst : SameTokens first first')
    (newline : '\n' ∉ first.toList) (newline' : '\n' ∉ first'.toList) (number : Nat) :
    blockAt number first (readable lines) = blockAt number first' (readable lines') := by
  rw [blockAt, blockAt, functionHeader_congr hfirst, layoutHeader_congr hfirst newline newline',
    functionAfter_congr h, layoutAfter_congr h hfirst]

/-- Blocks take in the same lines, so one map comes to what the other does. -/
theorem ofLines_congr (newline : ∀ line ∈ lines, '\n' ∉ line.toList)
    (newline' : ∀ line ∈ lines', '\n' ∉ line.toList) (passed taken : Nat) :
    Extraction.ofLines passed taken (readable lines) =
      Extraction.ofLines passed taken (readable lines') := by
  induction h generalizing passed taken with
  | nil => rfl
  | @cons first first' rest rest' hfirst hrest ih =>
    obtain ⟨hline, hlater⟩ := List.forall_mem_cons.mp newline
    obtain ⟨hline', hlater'⟩ := List.forall_mem_cons.mp newline'
    have hblock := blockAt_congr hrest hfirst hline hline' (passed + 1)
    cases taken with
    | succ taken => exact ih hlater hlater' (passed + 1) taken
    | zero =>
      change Extraction.ofLines passed 0 (.ok first :: readable rest) =
        Extraction.ofLines passed 0 (.ok first' :: readable rest')
      rw [Extraction.ofLines, Extraction.ofLines, hblock]
      cases blockAt (passed + 1) first' (readable rest') with
      | error e => rfl
      | ok block =>
        -- The blocks take in as many lines, so the two maps stay in step.
        dsimp only
        rw [ih hlater hlater' (passed + 1) block.further]

end

/-! ### Main theorem -/

/-- **Spacing does not count.** Two maps with as many lines, whose lines have the same tokens one
by one, come to the same tree or to the same error, line number and text included, and record
the same finds on the way. -/
theorem result_eq_of_sameTokens {content content' : ByteArray} {lines lines' : List String}
    (text : linesOf content = readable lines) (text' : linesOf content' = readable lines')
    (same : List.Forall₂ SameTokens lines lines') :
    let extraction := Extraction.ofCursor (.ofContent content)
    let extraction' := Extraction.ofCursor (.ofContent content')
    extraction.result = extraction'.result ∧ extraction.events = extraction'.events := by
  intro extraction extraction'
  have heq : extraction = extraction' := by
    simp only [extraction, extraction', ofCursor_ofContent text, ofCursor_ofContent text']
    exact ofLines_congr same (newline_not_mem_of_linesOf text) (newline_not_mem_of_linesOf text') 0 0
  rw [heq]
  exact ⟨rfl, rfl⟩

/-- The layout is recorded, and then line 7 names no keyboard function, also when the lines are
indented by tabs, end in carriage returns and have wide blanks in their gaps. -/
theorem result_eq_of_sameTokens_wide_blanks :
    let lines := [".progmem.data.layout 0x68 0x690 l.o", " 0x68 _kb_layout",
      " 0x1f4 _kb_layout_press", " 0x50c _kb_layout_release", ".text.kbfun_a", " 0x10 0x4 a.o",
      " 0x10 main"]
    let lines' := ["\t.progmem.data.layout\u30000x68  0x690\tl.o ", "0x68\u2003_kb_layout",
      "\t\t0x1f4  _kb_layout_press \u00a0", "  0x50c\t_kb_layout_release", "\t.text.kbfun_a",
      "0x10\u30000x4 a.o", "\u20280x10   main\t"]
    let content := ("\n".intercalate lines).toUTF8
    let content' := ("\r\n".intercalate lines').toUTF8
    linesOf content = readable lines ∧ linesOf content' = readable lines' ∧
      List.Forall₂ SameTokens lines lines' ∧
      (Extraction.ofCursor (.ofContent content')).result =
        .error (.malformed 7 (.notKeyFunction "main")) ∧
      (Extraction.ofCursor (.ofContent content')).events =
        [(Record.layout (.ofKeyLength 336 0x68 0x1f4 0x50c)).event] := by
  intro lines lines' content content'
  have text : linesOf content = readable lines := by decide +kernel
  have text' : linesOf content' = readable lines' := by decide +kernel
  have same : List.Forall₂ SameTokens lines lines' := by decide +kernel
  obtain ⟨hresult, hevents⟩ := result_eq_of_sameTokens text text' same
  refine ⟨text, text', same, hresult.symm.trans ?_, hevents.symm.trans ?_⟩
  · decide +kernel
  · decide +kernel

end KeyboardInfo.LinkerMap
