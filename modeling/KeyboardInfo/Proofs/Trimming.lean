import KeyboardInfo.Text.Blank
import Mathlib.Data.List.DropRight

/-! What trimming leaves of a line.

Trimming takes blanks off both ends and nothing else. So it changes no line that begins and
ends with something else (`trim_of_ends`), a second time it changes nothing (`trim_trim`), and
blanks that are added at either end do not count (`trim_cons_blank`, `trim_append_blanks`). -/
namespace KeyboardInfo.Text

/-! ### Both ends -/

theorem trimEnd_eq (cs : List Char) : trimEnd cs = cs.rdropWhile isBlank := by
  unfold trimEnd List.rdropWhile
  rfl

theorem trimEnd_prefix (cs : List Char) : trimEnd cs <+: cs := by
  rw [trimEnd_eq]
  exact List.rdropWhile_prefix isBlank cs

theorem trim_prefix (cs : List Char) : trim cs <+: trimStart cs := trimEnd_prefix _

theorem trimStart_of_head {c : Char} (hc : isBlank c = false) (cs : List Char) :
    trimStart (c :: cs) = c :: cs :=
  List.dropWhile_cons_of_neg (by simp [hc])

theorem trimEnd_of_last {c : Char} (hc : isBlank c = false) (cs : List Char) :
    trimEnd (cs ++ [c]) = cs ++ [c] := by
  rw [trimEnd_eq]
  exact List.rdropWhile_concat_neg _ _ _ (by simp [hc])

/-- Trimming leaves a line alone that begins and ends with characters that are not blank. -/
theorem trim_of_ends {c d : Char} (hc : isBlank c = false) (hd : isBlank d = false)
    (cs : List Char) : trim (c :: (cs ++ [d])) = c :: (cs ++ [d]) := by
  rw [trim, trimStart_of_head hc]
  exact trimEnd_of_last hd (c :: cs)

/-! ### Blanks at the ends -/

theorem trim_cons_blank {c : Char} (hc : isBlank c) (cs : List Char) : trim (c :: cs) = trim cs := by
  rw [trim, trimStart, List.dropWhile_cons_of_pos hc]
  rfl

theorem trimEnd_append_blanks (cs : List Char) {blanks : List Char} (h : ∀ c ∈ blanks, isBlank c) :
    trimEnd (cs ++ blanks) = trimEnd cs := by
  have hreverse : ∀ c ∈ blanks.reverse, isBlank c := fun c hc => h c (List.mem_reverse.mp hc)
  rw [trimEnd, List.reverse_append, List.dropWhile_append_of_pos hreverse]
  rfl

theorem trim_append_blanks (cs : List Char) {blanks : List Char} (h : ∀ c ∈ blanks, isBlank c) :
    trim (cs ++ blanks) = trim cs := by
  rw [trim, trimStart, List.dropWhile_append]
  split
  · next hempty =>
    -- Nothing but blanks.
    have hblanks : blanks.dropWhile isBlank = [] := List.dropWhile_eq_nil_iff.mpr h
    have hcs : trimStart cs = [] := List.isEmpty_iff.mp hempty
    rw [hblanks, trim, hcs]
  · exact trimEnd_append_blanks _ h

/-! ### Trimming twice -/

theorem trimStart_trim (cs : List Char) : trimStart (trim cs) = trim cs := by
  cases htrim : trim cs with
  | nil => rfl
  | cons c rest =>
    obtain ⟨after, hafter⟩ := trim_prefix cs
    have hhead : (trimStart cs).head? = some c := by
      rw [← hafter, htrim]
      rfl
    exact trimStart_of_head (not_isBlank_of_head?_trimStart hhead) rest

theorem trim_trim (cs : List Char) : trim (trim cs) = trim cs := by
  rw [trim, trimStart_trim, trim, trimEnd_eq, trimEnd_eq]
  exact List.rdropWhile_idempotent ..

end KeyboardInfo.Text
