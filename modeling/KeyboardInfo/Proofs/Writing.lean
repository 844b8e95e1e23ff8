import KeyboardInfo.Files.Tree

/-! What is written to a path is found there.

A path may wander: it may go into folders and back out of them before it comes to the folder
that is to hold the file. Writing the file replaces folders along one row of names by folders
that hold one more entry, or another one. All that was a folder stays a folder, with the names
it had (`Entry.exists_folder_put`), so the path still wanders to the same folder in the tree
that was written (`Tree.follow_addFile`), and there it finds the new file (`Tree.entry_of_write`).
Whether a file can be written is a matter of the path alone, not of the content
(`Tree.exists_write`). -/
namespace KeyboardInfo.Files

/-! ### Entries by row of names -/

namespace Entry

/-- The entry at the end of a row of names. -/
def find? (e : Entry) (names : List String) : Option Entry :=
  match names, e with
  | [], e => some e
  | name :: names, .folder entries => (entries.lookup name).bind fun inner => inner.find? names
  | _ :: _, _ => none

theorem find?_nil (e : Entry) : e.find? [] = some e := by
  rw [find?]

theorem find?_folder (entries : List (String × Entry)) (name : String) (names : List String) :
    (folder entries).find? (name :: names) =
      (entries.lookup name).bind fun inner => inner.find? names := by
  rw [find?]

theorem find?_leaf {e : Entry} (h : ∀ entries, e ≠ .folder entries) (name : String)
    (names : List String) : e.find? (name :: names) = none := by
  cases e with
  | folder entries => exact absurd rfl (h entries)
  | _ => rw [find?]; exact nofun

/-- Only a folder has something in it. -/
theorem exists_folder_of_find? {e found : Entry} {name : String} {names : List String}
    (h : e.find? (name :: names) = some found) : ∃ entries, e = .folder entries := by
  cases e with
  | folder entries => exact ⟨entries, rfl⟩
  | _ =>
    rw [find?_leaf (by nofun)] at h
    cases h

/-- A folder is found only at or in a folder. -/
theorem exists_folder_of_find?_folder {e : Entry} {names : List String}
    {entries : List (String × Entry)} (h : e.find? names = some (.folder entries)) :
    ∃ others, e = .folder others := by
  cases names with
  | nil =>
    rw [find?_nil] at h
    exact ⟨entries, Option.some.inj h⟩
  | cons name names => exact exists_folder_of_find? h

theorem find?_singleton (entries : List (String × Entry)) (name : String) :
    (folder entries).find? [name] = entries.lookup name := by
  rw [find?_folder]
  cases entries.lookup name with
  | none => rfl
  | some inner => rw [Option.bind_some, find?_nil]

theorem find?_append (e : Entry) (a b : List String) :
    e.find? (a ++ b) = (e.find? a).bind fun inner => inner.find? b := by
  induction a generalizing e with
  | nil => rw [List.nil_append, find?_nil, Option.bind_some]
  | cons name a ih =>
    by_cases hfolder : ∃ entries, e = .folder entries
    · obtain ⟨entries, rfl⟩ := hfolder
      rw [List.cons_append, find?_folder, find?_folder, Option.bind_assoc]
      exact congrArg _ (funext fun inner => ih inner)
    · have leaf : ∀ entries, e ≠ .folder entries := not_exists.mp hfolder
      rw [List.cons_append, find?_leaf leaf, find?_leaf leaf, Option.bind_none]

/-- What is put in a folder is found there. -/
theorem find?_put {e : Entry} {names : List String} {entries : List (String × Entry)}
    (h : e.find? names = some (.folder entries)) (name : String) (new : Entry) :
    (e.put (names ++ [name]) new).find? (names ++ [name]) = some new := by
  induction names generalizing e with
  | nil =>
    rw [find?_nil] at h
    obtain rfl := Option.some.inj h
    rw [List.nil_append, put_folder, find?_folder, Entries.lookup_insert, if_pos rfl,
      Option.bind_some, find?_nil, put]
  | cons first names ih =>
    obtain ⟨others, rfl⟩ := exists_folder_of_find? h
    rw [find?_folder] at h
    obtain ⟨inner, hinner, h⟩ := Option.bind_eq_some_iff.mp h
    rw [List.cons_append, put_folder, find?_folder, Entries.lookup_insert, if_pos rfl,
      Option.bind_some, hinner]
    exact ih h

/-- A folder stays a folder and keeps its names, whatever is put elsewhere or in it. -/
theorem exists_folder_put {e : Entry} {names place : List String}
    {entries : List (String × Entry)} (h : e.find? place = some (.folder entries))
    (free : ∀ others, e.find? names ≠ some (.folder others)) (new : Entry) :
    ∃ kept, (e.put names new).find? place = some (.folder kept) ∧
      ∀ name, (entries.lookup name).isSome → (kept.lookup name).isSome := by
  obtain ⟨others, rfl⟩ := exists_folder_of_find?_folder h
  induction names generalizing others place with
  | nil => exact absurd (find?_nil _) (free others)
  | cons first names ih =>
    rw [put_folder]
    cases place with
    | nil =>
      rw [find?_nil] at h
      cases h
      refine ⟨_, find?_nil _, fun name hname => ?_⟩
      rw [Entries.lookup_insert]
      split
      · rfl
      · exact hname
    | cons name place =>
      rw [find?_folder] at h
      obtain ⟨inner, hinner, h⟩ := Option.bind_eq_some_iff.mp h
      rw [find?_folder, Entries.lookup_insert]
      split
      · next heq =>
        subst heq
        rw [hinner, Option.getD_some, Option.bind_some]
        obtain ⟨inside, rfl⟩ := exists_folder_of_find?_folder h
        refine ih inside h fun others' hfolder => free others' ?_
        rw [find?_folder, hinner, Option.bind_some]
        exact hfolder
      · rw [hinner, Option.bind_some]
        exact ⟨entries, h, fun _ => id⟩

end Entry

/-! ### Trails -/

namespace Tree
variable {t : Tree}

/-- The names of the folders and entries passed on the way to a place, the first one first. -/
def namesOf (trail : Trail) : List String := (trail.map Prod.fst).reverse

/-- A trail leads from the top of a tree, each time to what a folder holds under a name. -/
inductive Leads (t : Tree) : Trail → Prop where
  | top : Leads t []
  | inside {trail : Trail} {entries : List (String × Entry)} {name : String} {e : Entry}
      (before : Leads t trail) (folder : t.here trail = .folder entries)
      (found : entries.lookup name = some e) : Leads t ((name, e) :: trail)

theorem Leads.tail {trail : Trail} (h : Leads t trail) : Leads t trail.tail := by
  cases h with
  | top => exact .top
  | inside before _ _ => exact before

theorem Leads.find?_eq {trail : Trail} (h : Leads t trail) :
    t.root.find? (namesOf trail) = some (t.here trail) := by
  induction h with
  | top => exact Entry.find?_nil _
  | @inside trail entries name e _ folder found ih =>
    have hnames : namesOf ((name, e) :: trail) = namesOf trail ++ [name] := by
      rw [namesOf, List.map_cons, List.reverse_cons]
      rfl
    rw [hnames, Entry.find?_append, ih, folder, Option.bind_some, Entry.find?_folder, found,
      Option.bind_some, Entry.find?_nil]
    rfl

/-! ### Following a path -/

theorem follow_append (trail : Trail) (a b : List String) :
    t.follow trail (a ++ b) = t.follow trail a >>= fun place => t.follow place b :=
  List.foldlM_append

theorem follow_cons_eq_ok_iff {trail place : Trail} {part : String} {parts : List String} :
    t.follow trail (part :: parts) = .ok place ↔
      ∃ next, t.step trail part = .ok next ∧ t.follow next parts = .ok place := by
  rw [follow, List.foldlM_cons]
  cases t.step trail part with
  | error cause => exact iff_of_false nofun nofun
  | ok next => exact ⟨fun h => ⟨next, rfl, h⟩, fun ⟨_, hnext, h⟩ => by cases hnext; exact h⟩

/-- Where a part of a path leads from a place: it stays, goes back, or goes down. -/
inductive Moves (t : Tree) (trail : Trail) (part : String) : Trail → Prop where
  | stays (h : part = "" ∨ part = ".") : Moves t trail part trail
  | back (h : part = "..") : Moves t trail part trail.tail
  | down {entries : List (String × Entry)} {e : Entry} (folder : t.here trail = .folder entries)
      (plain : ¬ (part = "" ∨ part = ".")) (further : part ≠ "..")
      (short : Path.isLongName part = false) (found : entries.lookup part = some e) :
      Moves t trail part ((part, e) :: trail)

theorem moves_of_step {trail place : Trail} {part : String} (h : t.step trail part = .ok place) :
    Moves t trail part place := by
  unfold step at h
  split at h
  · next entries folder =>
    split at h
    · next stays =>
      cases h
      exact .stays stays
    · next plain =>
      split at h
      · next back =>
        cases h
        exact .back back
      · next further =>
        split at h
        · cases h
        · next short =>
          split at h
          · next e found =>
            cases h
            exact .down folder plain further (by simpa using short) found
          · cases h
  · split at h
    · next blank =>
      cases h
      exact .stays (.inl blank)
    · cases h
  · cases h

/-- In a folder every move can be made. -/
theorem step_of_moves {trail place : Trail} {part : String} {entries : List (String × Entry)}
    (folder : t.here trail = .folder entries) (h : Moves t trail part place) :
    t.step trail part = .ok place := by
  unfold step
  rw [folder]
  dsimp only
  cases h with
  | stays stays => rw [if_pos stays]
  | back back =>
    subst back
    rw [if_neg (by decide), if_pos rfl]
  | down folder' plain further short found =>
    cases folder.symm.trans folder'
    rw [if_neg plain, if_neg further, short, found]
    rfl

/-- Only a folder can be left for a folder. -/
theorem exists_folder_of_step {trail place : Trail} {part : String}
    {entries : List (String × Entry)} (h : t.step trail part = .ok place)
    (folder : t.here place = .folder entries) : ∃ others, t.here trail = .folder others := by
  unfold step at h
  split at h
  · next others hothers => exact ⟨others, hothers⟩
  · split at h
    · cases h
      exact ⟨entries, folder⟩
    · cases h
  · cases h

theorem exists_folder_of_follow {trail place : Trail} {parts : List String}
    {entries : List (String × Entry)} (h : t.follow trail parts = .ok place)
    (folder : t.here place = .folder entries) : ∃ others, t.here trail = .folder others := by
  induction parts generalizing trail with
  | nil =>
    cases h
    exact ⟨entries, folder⟩
  | cons part parts ih =>
    obtain ⟨next, hnext, h⟩ := follow_cons_eq_ok_iff.mp h
    obtain ⟨others, hothers⟩ := ih h
    exact exists_folder_of_step hnext hothers

theorem Leads.moves {trail place : Trail} {part : String} (h : Leads t trail)
    (hmoves : Moves t trail part place) : Leads t place := by
  cases hmoves with
  | stays _ => exact h
  | back _ => exact h.tail
  | down folder _ _ _ found => exact .inside h folder found

/-- Following a path leads on from where a trail has led. -/
theorem Leads.follow {parts : List String} {trail place : Trail} (h : Leads t trail)
    (hfollow : t.follow trail parts = .ok place) : Leads t place := by
  induction parts generalizing trail with
  | nil =>
    cases hfollow
    exact h
  | cons part parts ih =>
    obtain ⟨next, hnext, hfollow⟩ := follow_cons_eq_ok_iff.mp hfollow
    exact ih (h.moves (moves_of_step hnext)) hfollow

/-! ### After a file was added -/

section
variable {names : List String} (free : ∀ entries, t.root.find? names ≠ some (.folder entries))
  (content : ByteArray)
include free

/-- At the end of the same names there is still a folder, which holds the same names. -/
theorem here_addFile {trail trail' : Trail} (h : Leads t trail)
    (h' : Leads (t.addFile names content) trail') (same : trail'.map Prod.fst = trail.map Prod.fst)
    {entries : List (String × Entry)} (folder : t.here trail = .folder entries) :
    ∃ kept, (t.addFile names content).here trail' = .folder kept ∧
      ∀ name, (entries.lookup name).isSome → (kept.lookup name).isSome := by
  have hplace := h.find?_eq
  rw [folder] at hplace
  obtain ⟨kept, hkept, hnames⟩ := Entry.exists_folder_put hplace free (.file content)
  have hplace' := h'.find?_eq
  rw [namesOf, same] at hplace'
  exact ⟨kept, Option.some.inj (hplace'.symm.trans hkept), hnames⟩

/-- A move leads along the same names. -/
theorem exists_moves_addFile {trail trail' place : Trail} {part : String} (h : Leads t trail)
    (h' : Leads (t.addFile names content) trail') (same : trail'.map Prod.fst = trail.map Prod.fst)
    (hmoves : Moves t trail part place) :
    ∃ place', Moves (t.addFile names content) trail' part place' ∧
      place'.map Prod.fst = place.map Prod.fst := by
  cases hmoves with
  | stays stays => exact ⟨trail', .stays stays, same⟩
  | back back => exact ⟨trail'.tail, .back back, by rw [List.map_tail, List.map_tail, same]⟩
  | down folder plain further short found =>
    obtain ⟨kept, hkept, hnames⟩ := here_addFile free content h h' same folder
    obtain ⟨e, found'⟩ := Option.isSome_iff_exists.mp (hnames part (by rw [found]; rfl))
    exact ⟨_, .down hkept plain further short found', by rw [List.map_cons, List.map_cons, same]⟩

/-- A path that leads to a folder leads to the folder with the same names. -/
theorem follow_addFile {parts : List String} {trail trail' place : Trail} (h : Leads t trail)
    (h' : Leads (t.addFile names content) trail') (same : trail'.map Prod.fst = trail.map Prod.fst)
    (hfollow : t.follow trail parts = .ok place) {entries : List (String × Entry)}
    (folder : t.here place = .folder entries) :
    ∃ place', (t.addFile names content).follow trail' parts = .ok place' ∧
      place'.map Prod.fst = place.map Prod.fst := by
  induction parts generalizing trail trail' with
  | nil =>
    cases hfollow
    exact ⟨trail', rfl, same⟩
  | cons part parts ih =>
    obtain ⟨others, hothers⟩ := exists_folder_of_follow hfollow folder
    obtain ⟨kept, hkept, -⟩ := here_addFile free content h h' same hothers
    obtain ⟨next, hnext, hfollow⟩ := follow_cons_eq_ok_iff.mp hfollow
    have hmoves := moves_of_step hnext
    obtain ⟨next', hmoves', hsame⟩ := exists_moves_addFile free content h h' same hmoves
    obtain ⟨place', hplace', hnames⟩ := ih (h.moves hmoves) (h'.moves hmoves') hsame hfollow
    exact ⟨place', follow_cons_eq_ok_iff.mpr ⟨next', step_of_moves hkept hmoves', hplace'⟩, hnames⟩

end

/-! ### Writing -/

/-- The folder and the name of a path without slashes at its end are its parts. -/
theorem parts_of_folderAndName {path name : String} {folder : List String}
    (h : folderAndName path = (folder, name, false)) :
    Path.parts path = folder ++ [name] ∧ name ≠ "" := by
  unfold folderAndName at h
  split at h
  · split at h <;> cases h
  · next last before hblank hreverse =>
    cases h
    refine ⟨?_, hblank⟩
    rw [List.reverse_eq_iff.mp hreverse, List.reverse_cons]
  · next hreverse =>
    have hparts : Path.parts path ≠ [] := by
      unfold Path.parts
      simp [List.splitOn_ne_nil]
    exact absurd (List.reverse_eq_nil_iff.mp hreverse) hparts

/-- A file can be written at a path: the last part names something that may be written in the
folder that the parts before it lead to. -/
structure Writable (t : Tree) (path : String) (trail : Trail) (entries : List (String × Entry))
    (before : List String) (name : String) : Prop where
  nonempty : path.isEmpty = false
  short : Path.isTooLong path = false
  parts : folderAndName path = (before, name, false)
  not_dot : name ≠ "."
  not_dots : name ≠ ".."
  leads : t.follow [] before = .ok trail
  folder : t.here trail = .folder entries
  allowed : refusal? entries name = none

theorem write_eq_ok_iff {path : String} {content : ByteArray} {written : Tree} :
    t.write path content = .ok written ↔
      ∃ trail entries before name, Writable t path trail entries before name ∧
        written = t.addFile (namesOf trail ++ [name]) content := by
  constructor
  · intro h
    unfold write at h
    split at h
    · cases h
    · next hpath =>
      split at h
      · cases h
      · next hshort =>
        generalize hparts : folderAndName path = parts at h
        obtain ⟨before, name, slashed⟩ := parts
        dsimp only at h
        split at h
        · cases h
        · next trail hleads =>
          split at h
          · next entries hfolder =>
            split at h
            · cases h
            · next hname =>
              simp only [Bool.or_eq_true, beq_iff_eq, not_or, Bool.not_eq_true] at hname
              obtain ⟨⟨rfl, hdot⟩, hdots⟩ := hname
              split at h
              · cases h
              · next hallowed =>
                cases h
                exact ⟨trail, entries, before, name, ⟨by simpa using hpath, by simpa using hshort,
                  hparts, hdot, hdots, hleads, hfolder, hallowed⟩, rfl⟩
          · cases h
          · cases h
  · rintro ⟨trail, entries, before, name, h, rfl⟩
    have hname : ¬ (false || name == "." || name == "..") := by simp [h.not_dot, h.not_dots]
    unfold write
    rw [if_neg (by simp [h.nonempty]), if_neg (by simp [h.short]), h.parts]
    dsimp only
    rw [h.leads]
    dsimp only
    rw [h.folder]
    dsimp only
    rw [if_neg hname, h.allowed]
    rfl

/-- What may be written is a new file, or one that is there. -/
theorem file_of_allowed {entries : List (String × Entry)} {name : String} {e : Entry}
    (h : refusal? entries name = none) (found : entries.lookup name = some e) :
    ∃ content, e = .file content := by
  unfold refusal? at h
  rw [found] at h
  cases e with
  | file content => exact ⟨content, rfl⟩
  | _ => split at h <;> cases h

theorem short_of_allowed {entries : List (String × Entry)} {name : String}
    (h : refusal? entries name = none) : Path.isLongName name = false := by
  unfold refusal? at h
  split at h
  · cases h
  · next short => simpa using short

/-- Whether a file can be written does not depend on its content. -/
theorem exists_write {path : String} {content : ByteArray} {written : Tree}
    (h : t.write path content = .ok written) (other : ByteArray) :
    ∃ written', t.write path other = .ok written' := by
  obtain ⟨trail, entries, before, name, hwritable, -⟩ := write_eq_ok_iff.mp h
  exact ⟨_, write_eq_ok_iff.mpr ⟨trail, entries, before, name, hwritable, rfl⟩⟩

/-- **What is written to a path is found there.** -/
theorem entry_of_write {path : String} {content : ByteArray} {written : Tree}
    (h : t.write path content = .ok written) : written.entry path = .ok (.file content) := by
  obtain ⟨trail, entries, before, name, hwritable, rfl⟩ := write_eq_ok_iff.mp h
  obtain ⟨hparts, hblank⟩ := parts_of_folderAndName hwritable.parts
  have hleads : Leads t trail := Leads.top.follow hwritable.leads
  have hfolder : t.root.find? (namesOf trail) = some (.folder entries) := by
    rw [hleads.find?_eq, hwritable.folder]
  have free (others : List (String × Entry)) :
      t.root.find? (namesOf trail ++ [name]) ≠ some (.folder others) := by
    rw [Entry.find?_append, hfolder, Option.bind_some, Entry.find?_singleton]
    intro found
    obtain ⟨_, hfile⟩ := file_of_allowed hwritable.allowed found
    cases hfile
  -- The folder of the file, in the tree that was written.
  obtain ⟨place, hplace, hsame⟩ :=
    follow_addFile free content .top .top rfl hwritable.leads hwritable.folder
  have hleads' := Leads.top.follow hplace
  obtain ⟨kept, hkept, -⟩ := here_addFile free content hleads hleads' hsame hwritable.folder
  have found : kept.lookup name = some (.file content) := by
    have hput : (t.addFile (namesOf trail ++ [name]) content).root.find? (namesOf trail ++ [name]) =
        some (.file content) := Entry.find?_put hfolder name (.file content)
    have hplace' := hleads'.find?_eq
    rw [show namesOf place = namesOf trail from congrArg List.reverse hsame, hkept] at hplace'
    rwa [Entry.find?_append, hplace', Option.bind_some, Entry.find?_singleton] at hput
  have hplain : ¬ (name = "" ∨ name = ".") := not_or.mpr ⟨hblank, hwritable.not_dot⟩
  have hstep := step_of_moves hkept (.down hkept hplain hwritable.not_dots
    (short_of_allowed hwritable.allowed) found)
  have hfollow : (t.addFile (namesOf trail ++ [name]) content).follow [] (Path.parts path) =
      .ok ((name, .file content) :: place) := by
    rw [hparts, follow_append, hplace]
    exact follow_cons_eq_ok_iff.mpr ⟨_, hstep, rfl⟩
  rw [entry, if_neg (by simp [hwritable.nonempty]), hfollow]
  rfl

end Tree

end KeyboardInfo.Files
