import KeyboardInfo.Proofs.Grammar
import KeyboardInfo.Proofs.Layers

/-! Linker maps one after the other.

A map that is read without fault leaves nothing open at its end, so another one may follow:
its blocks are read as they would be by themselves, only that their lines have other numbers
(`Broken.after`). The records of both are merged, and since they all are trees in the same
layers it makes no difference that they are merged one by one (`treeOf_append`). So the tree
of two maps is that of the first with that of the second merged in, and what is wrong with the
second is wrong with both (`resultOf_append`). -/
namespace KeyboardInfo.LinkerMap
open Files Node

/-! ### Faults in later lines -/

/-- The same error in lines that come after some others. -/
def MapError.after (passed : Nat) : MapError → MapError
  | malformed line fault => malformed (line + passed) fault
  | incompleteLayout line missing => incompleteLayout (line + passed) missing
  | e => e

/-- What is wrong with a block is wrong with it wherever it stands. -/
theorem Broken.after {number : Nat} {lines : List String} {e : MapError} (h : Broken number lines e)
    (passed : Nat) : Broken (number + passed) lines (e.after passed) := by
  cases h with
  | endsBeforeExtent opens => exact .endsBeforeExtent opens
  | extent opens h =>
    rw [MapError.after, Nat.add_right_comm]
    exact .extent opens h
  | endsBeforeName opens gives => exact .endsBeforeName opens gives
  | name opens gives h =>
    rw [MapError.after, Nat.add_right_comm]
    exact .name opens gives h
  | length opens h => exact .length opens h
  | position opens gives h unread before => exact .position opens gives h unread before
  | incomplete opens gives read missing => exact .incomplete opens gives read missing

/-! ### Records in layers -/

theorem Extent.layered (e : Extent) : e.node.Layered 1 :=
  (layered_single _ (layered_leaf rfl)).insert _ (layered_leaf rfl)

/-- Every record is a map of sections, of symbols, of fields. -/
theorem Record.layered (r : Record) : r.node.Layered 3 := by
  cases r with
  | function f => exact layered_single _ (layered_single _ f.extent.layered)
  | layout m =>
    exact layered_single _
      (((layered_single _ m.keys.layered).insert _ m.press.layered).insert _ m.release.layered)

theorem treeOf_append (a b : List Record) : treeOf (a ++ b) = (treeOf a).merge (treeOf b) := by
  have ha : (treeOf a).Layered 3 := Layered.foldl Record.layered a (layered_empty 2)
  rw [treeOf, List.foldl_append]
  exact Layered.foldl_merge Record.layered b ha

/-! ### Blocks of both -/

theorem Splits.append {a b : List String} {blocks others : List (List String × Option Record)}
    (ha : Splits a blocks) (hb : Splits b others) : Splits (a ++ b) (blocks ++ others) := by
  refine ⟨?_, List.forall_mem_append.mpr ⟨ha.each, hb.each⟩⟩
  rw [List.map_append, List.flatten_append, ← ha.flatten, ← hb.flatten]

theorem recordsOf_append (blocks others : List (List String × Option Record)) :
    recordsOf (blocks ++ others) = recordsOf blocks ++ recordsOf others :=
  List.filterMap_append

/-- Lines that are read without fault split into blocks. -/
theorem exists_splits_of_result {lines : List String} {tree : Node}
    (h : (Extraction.ofLines 0 0 (readable lines)).result = .ok tree) :
    ∃ blocks, Splits lines blocks ∧ tree = treeOf (recordsOf blocks) := by
  obtain ⟨blocks, start, rest, hs, rfl, rfl | ⟨e, hbroken⟩⟩ := exists_splits 0 lines
  · rw [List.append_nil] at h ⊢
    rw [result_of_splits hs] at h
    exact ⟨blocks, hs, (Except.ok.inj h).symm⟩
  · rw [Nat.zero_add] at hbroken
    rw [result_of_broken hs hbroken] at h
    cases h

/-- Lines after those that are read without fault add their tree, or their error. -/
theorem result_append {a : List String} {tree : Node}
    (ha : (Extraction.ofLines 0 0 (readable a)).result = .ok tree) (b : List String) :
    (Extraction.ofLines 0 0 (readable (a ++ b))).result =
      ((Extraction.ofLines 0 0 (readable b)).result.map tree.merge).mapError
        (MapError.after a.length) := by
  obtain ⟨blocks, hs, rfl⟩ := exists_splits_of_result ha
  obtain ⟨others, start, rest, ho, rfl, rfl | ⟨e, hbroken⟩⟩ := exists_splits 0 b
  · rw [List.append_nil, result_of_splits ho, result_of_splits (hs.append ho), recordsOf_append,
      treeOf_append]
    rfl
  · rw [Nat.zero_add] at hbroken
    have hlater : Broken ((a ++ start).length + 1) rest (e.after a.length) := by
      convert hbroken.after a.length using 1
      rw [List.length_append]
      omega
    rw [← List.append_assoc, result_of_broken ho hbroken, result_of_broken (hs.append ho) hlater]
    rfl

/-! ### Main theorem -/

/-- What reading the text of a map comes to. -/
def resultOf (text : String) : Except MapError Node :=
  (Extraction.ofCursor (.ofContent text.toUTF8)).result

theorem resultOf_eq {text : String} {lines : List String}
    (h : linesOf text.toUTF8 = readable lines) :
    resultOf text = (Extraction.ofLines 0 0 (readable lines)).result := by
  rw [resultOf, ofCursor_ofContent h]

/-- **Maps are read one after the other.** After the text of a map that is read without fault
comes any other text: its tree is merged into that of the first, and its error is that of both,
with its line counted from the start of the first. So a map that is read twice says what it says
once. -/
theorem resultOf_append {a : String} {tree : Node} (ends : a = "" ∨ ∃ s, a = s ++ "\n")
    (ha : resultOf a = .ok tree) :
    (∀ b other, resultOf b = .ok other → resultOf (a ++ b) = .ok (tree.merge other)) ∧
    (∀ b e, resultOf b = .error e →
      resultOf (a ++ b) = .error (e.after (linesOf a.toUTF8).length)) ∧
    resultOf (a ++ a) = .ok tree := by
  obtain ⟨lines, hlines⟩ := exists_readable a
  have both (b : String) : resultOf (a ++ b) =
      ((resultOf b).map tree.merge).mapError (MapError.after (linesOf a.toUTF8).length) := by
    obtain ⟨others, hothers⟩ := exists_readable b
    have happend : linesOf (a ++ b).toUTF8 = readable (lines ++ others) := by
      rw [linesOf_append ends, hlines, hothers, readable_append]
    rw [resultOf_eq hlines] at ha
    rw [resultOf_eq happend, resultOf_eq hothers, hlines, length_readable]
    exact result_append ha others
  refine ⟨fun b other hb => ?_, fun b e hb => ?_, ?_⟩
  · rw [both, hb]
    rfl
  · rw [both, hb]
    rfl
  · rw [both, ha, Except.map, merge_self]
    rfl

/-- A second map gives a function another length; in a third one an extent is missing from
line 2, which is line 5 of both. -/
theorem resultOf_append_relinked :
    let a := ".text.kbfun_a\n 0x10 0x4 a.o\n 0x10 kbfun_a\n"
    let b := ".text.kbfun_a\r\n 0x10 0x8 a.o\n 0x10 kbfun_a"
    let c := ".text.kbfun_b\n kbfun_b\n"
    resultOf a = .ok (KeyFunction.node ⟨"kbfun_a", 16, 4⟩) ∧
      resultOf (a ++ b) = .ok (KeyFunction.node ⟨"kbfun_a", 16, 8⟩) ∧
      resultOf c = .error (.malformed 2 .noExtent) ∧
      resultOf (a ++ c) = .error (.malformed 5 .noExtent) := by
  intro a b c
  have ha : resultOf a = .ok (KeyFunction.node ⟨"kbfun_a", 16, 4⟩) := by decide +kernel
  have hb : resultOf b = .ok (KeyFunction.node ⟨"kbfun_a", 16, 8⟩) := by decide +kernel
  have hc : resultOf c = .error (.malformed 2 .noExtent) := by decide +kernel
  have ends : a = "" ∨ ∃ s, a = s ++ "\n" :=
    .inr ⟨".text.kbfun_a\n 0x10 0x4 a.o\n 0x10 kbfun_a", by decide⟩
  have both := resultOf_append ends ha
  have hmerge : (KeyFunction.node ⟨"kbfun_a", 16, 4⟩).merge (KeyFunction.node ⟨"kbfun_a", 16, 8⟩) =
      KeyFunction.node ⟨"kbfun_a", 16, 8⟩ := by decide
  exact ⟨ha, hmerge ▸ both.1 b _ hb, hc, both.2.1 c _ hc⟩

end KeyboardInfo.LinkerMap
