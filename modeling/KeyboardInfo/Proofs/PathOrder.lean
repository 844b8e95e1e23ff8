import KeyboardInfo.Proofs.Steps
import KeyboardInfo.Proofs.Utf8
import KeyboardInfo.Proofs.Writing
import KeyboardInfo.Source.Reading
import Mathlib.Data.List.Sort

/-! Sources are scanned in the order of their paths.

A walk goes into each folder at the place of the folder's own name. So it comes to everything in
the order of the paths, name by name: `a/b.c` before `a.c`, since `a` comes before `a.c`, although
a slash comes after a dot (`Entry.increasing_places`). It comes to each entry once
(`Entry.mem_places_iff`), and only source files are scanned, each by itself. A folder that cannot
be listed ends a walk as a file does that cannot be scanned. What a scan comes to is therefore
determined by the source files and these folders, whatever else there is around them
(`scans_in_path_order`). -/
namespace KeyboardInfo.Files

/-! ### The order of paths -/

/-- The path to the end of a row of names below a root. -/
def Path.below (root : String) (names : List String) : String := names.foldl Path.join root

/-- A row of names as it compares with others: name by name, and each byte by byte. -/
def pathKey (names : List String) : List (List UInt8) :=
  names.map fun name => name.toUTF8.data.toList

theorem pathKey_cons_lt {name : String} {a b : List String} (h : pathKey a < pathKey b) :
    pathKey (name :: a) < pathKey (name :: b) :=
  List.cons_lt_cons_iff.mpr (.inr ⟨rfl, h⟩)

/-- The first names decide, whatever follows them. -/
theorem pathKey_lt_of_head_lt {first second : String} (h : first < second) (a b : List String) :
    pathKey (first :: a) < pathKey (second :: b) := by
  have hbytes : first.toUTF8.data.toList < second.toUTF8.data.toList := by
    rw [Text.toList_toUTF8, Text.toList_toUTF8, Text.utf8_lt_iff]
    exact String.lt_iff_toList_lt.mp h
  exact List.cons_lt_cons_iff.mpr (.inl hbytes)

/-- One entry comes before another, by the names that lead there. -/
def Precedes (a b : List String × Entry) : Prop := pathKey a.1 < pathKey b.1

instance : Std.Irrefl Precedes := ⟨fun place => List.lt_irrefl (pathKey place.1)⟩

instance : Std.Antisymm Precedes := ⟨fun _ _ h h' => absurd h' (List.lt_asymm h)⟩

/-! ### What is at and below an entry -/

namespace Entry

mutual

/-- Everything at and below an entry, each with the names that lead to it. -/
def places : Entry → List (List String × Entry)
  | .folder entries => ([], .folder entries) :: placesInside entries
  | e => [([], e)]

/-- Everything at and below the entries of a folder. -/
def placesInside : List (String × Entry) → List (List String × Entry)
  | [] => []
  | (name, e) :: entries =>
    (places e).map (fun place => (name :: place.1, place.2)) ++ placesInside entries

end

theorem places_folder (entries : List (String × Entry)) : (folder entries).places =
    ([], .folder entries) :: entries.flatMap fun entry =>
      entry.2.places.map fun place => (entry.1 :: place.1, place.2) := by
  rw [places]
  congr 1
  induction entries with
  | nil => rw [placesInside, List.flatMap_nil]
  | cons entry entries ih => rw [placesInside, ih, List.flatMap_cons]

theorem places_leaf {e : Entry} (h : ∀ entries, e ≠ .folder entries) : e.places = [([], e)] := by
  cases e with
  | folder entries => exact absurd rfl (h entries)
  | _ => rw [places]; exact nofun

theorem walk_folder (path : String) (entries : List (String × Entry)) :
    (folder entries).walk path = (path, .folder entries) ::
      entries.flatMap fun entry => entry.2.walk (Path.join path entry.1) := by
  rw [walk]
  congr 1
  induction entries with
  | nil => rw [walkInside, List.flatMap_nil]
  | cons entry entries ih => rw [walkInside, ih, List.flatMap_cons]

theorem walk_leaf {e : Entry} (h : ∀ entries, e ≠ .folder entries) (path : String) :
    e.walk path = [(path, e)] := by
  cases e with
  | folder entries => exact absurd rfl (h entries)
  | _ => rw [walk]; exact nofun

/-- A walk comes to everything at and below an entry, each at its path. -/
theorem walk_eq {e : Entry} (h : e.Ordered) (root : String) :
    e.walk root = e.places.map fun place => (Path.below root place.1, place.2) := by
  induction h generalizing root with
  | leaf leaf =>
    rw [walk_leaf leaf, places_leaf leaf]
    rfl
  | @folder entries _ _ ih =>
    rw [walk_folder, places_folder, List.map_cons, List.map_flatMap]
    congr 1
    apply List.flatMap_congr
    intro entry hentry
    rw [ih entry hentry, List.map_map]
    rfl

/-- What is at and below an entry is what is found at the end of some names. -/
theorem mem_places_iff {e : Entry} (h : e.Ordered) {names : List String} {found : Entry} :
    (names, found) ∈ e.places ↔ e.find? names = some found := by
  induction h generalizing names with
  | leaf leaf =>
    rw [places_leaf leaf, List.mem_singleton]
    cases names with
    | nil => simp [find?_nil, eq_comm]
    | cons name names => simp [find?_leaf leaf]
  | @folder entries hnames _ ih =>
    rw [places_folder, List.mem_cons, List.mem_flatMap]
    cases names with
    | nil => simp [find?_nil, eq_comm]
    | cons name names =>
      rw [find?_folder, Option.bind_eq_some_iff, or_iff_right (by simp)]
      constructor
      · intro ⟨entry, hentry, hplace⟩
        obtain ⟨place, hinside, heq⟩ := List.mem_map.mp hplace
        cases heq
        exact ⟨entry.2, hnames.lookup_eq_some_iff.mpr hentry, (ih entry hentry).mp hinside⟩
      · intro ⟨inner, hinner, hplace⟩
        have hentry := hnames.lookup_eq_some_iff.mp hinner
        exact ⟨_, hentry, List.mem_map.mpr ⟨_, (ih _ hentry).mpr hplace, rfl⟩⟩

/-- **What is at and below an entry is in the order of the paths.** -/
theorem increasing_places {e : Entry} (h : e.Ordered) : e.places.Pairwise Precedes := by
  induction h with
  | leaf leaf =>
    rw [places_leaf leaf]
    exact List.pairwise_singleton ..
  | @folder entries hnames _ ih =>
    rw [places_folder, List.pairwise_cons, List.pairwise_flatMap]
    refine ⟨fun place hplace => ?_, fun entry hentry => ?_, ?_⟩
    · obtain ⟨_, -, hplace⟩ := List.mem_flatMap.mp hplace
      obtain ⟨_, -, rfl⟩ := List.mem_map.mp hplace
      exact List.nil_lt_cons ..
    · exact List.pairwise_map.mpr ((ih entry hentry).imp pathKey_cons_lt)
    · refine hnames.imp fun hlt a ha b hb => ?_
      obtain ⟨_, -, rfl⟩ := List.mem_map.mp ha
      obtain ⟨_, -, rfl⟩ := List.mem_map.mp hb
      exact pathKey_lt_of_head_lt hlt ..

/-! ### Reach -/

theorem withinEach_eq_map (folder : String) (entries : List (String × Entry)) :
    withinEach folder entries =
      entries.map fun entry => (entry.1, entry.2.within (Path.join folder entry.1)) := by
  induction entries with
  | nil => rw [withinEach, List.map_nil]
  | cons entry entries ih => rw [withinEach, ih, List.map_cons]

/-- How far paths lead makes no difference to the order of names. -/
theorem Ordered.within {e : Entry} (h : e.Ordered) (path : String) :
    (Entry.within path e).Ordered := by
  induction h generalizing path with
  | @leaf e leaf =>
    cases e with
    | folder entries => exact absurd rfl (leaf entries)
    | _ =>
      rw [Entry.within]
      · split <;> exact .leaf nofun
      · exact nofun
  | @folder entries hnames _ ih =>
    rw [Entry.within]
    split
    · exact .leaf nofun
    · rw [withinEach_eq_map]
      refine .folder (List.pairwise_map.mpr hnames) fun entry hentry => ?_
      obtain ⟨inner, hinner, rfl⟩ := List.mem_map.mp hentry
      exact ih inner hinner _

end Entry

/-! ### Entries of a tree -/

namespace Tree
variable {t : Tree}

/-- Wherever a trail leads, names are in order. -/
theorem Leads.ordered {trail : Trail} (h : Leads t trail) : (t.here trail).Ordered := by
  induction h with
  | top => exact t.ordered
  | inside _ folder found ih =>
    rw [folder] at ih
    exact ih.inside _ (Entries.mem_of_lookup found)

theorem ordered_of_entry {path : String} {e : Entry} (h : t.entry path = .ok e) : e.Ordered := by
  unfold entry at h
  split at h
  · cases h
  · cases hfollow : t.follow [] (Path.parts path) with
    | error cause =>
      rw [hfollow] at h
      cases h
    | ok place =>
      rw [hfollow] at h
      cases h
      exact (Leads.top.follow hfollow).ordered

/-- What a walk in a tree begins with has its names in order. -/
theorem ordered_of_walked {root : String} {e : Entry} (h : t.view.walked root = .ok e) :
    e.Ordered := by
  obtain ⟨seen, hseen, rfl⟩ := map_eq_ok_iff.mp h
  unfold view at hseen
  dsimp only at hseen
  split at hseen
  · cases hseen
  · obtain ⟨found, hfound, rfl⟩ := map_eq_ok_iff.mp hseen
    exact (ordered_of_entry hfound).within root

end Tree

end KeyboardInfo.Files

namespace KeyboardInfo.Source
open Files

variable {extension root : String} {e e' : Entry}

/-! ### Source files -/

theorem concerns_iff {path : String} {found : Entry} : concerns extension (path, found) ↔
    found.isClosed ∨ found.isFile ∧ isSourceFile extension path := by
  rw [concerns, Bool.or_eq_true, Bool.and_eq_true]

/-- The source files at and below an entry and the folders that cannot be listed, each once and in
the order of their paths. -/
structure SourcesInOrder (extension root : String) (e : Entry)
    (places : List (List String × Entry)) : Prop where
  mem_iff : ∀ names found, (names, found) ∈ places ↔ e.find? names = some found ∧
    (found.isClosed ∨ found.isFile ∧ isSourceFile extension (Path.below root names))
  increasing : places.Pairwise Precedes

theorem SourcesInOrder.unique {places others : List (List String × Entry)}
    (h : SourcesInOrder extension root e places) (h' : SourcesInOrder extension root e others) :
    places = others := by
  apply h.increasing.eq_of_mem_iff h'.increasing
  intro ⟨names, found⟩
  rw [h.mem_iff, h'.mem_iff]

theorem sourcesInOrder_places (h : e.Ordered) (extension root : String) :
    SourcesInOrder extension root e
      (e.places.filter fun place => concerns extension (Path.below root place.1, place.2)) := by
  constructor
  case mem_iff =>
    intro names found
    rw [List.mem_filter, Entry.mem_places_iff h, concerns_iff]
  case increasing => exact (Entry.increasing_places h).filter _

/-- Each of some places with its path below a root. -/
def visitsBelow (root : String) (places : List (List String × Entry)) : List Entry.Visit :=
  places.map fun place => (Path.below root place.1, place.2)

/-- What is scanned is what there is to be scanned, in the order of the paths. -/
theorem sources_eq (h : e.Ordered) {places : List (List String × Entry)}
    (hplaces : SourcesInOrder extension root e places) :
    sources extension root e = visitsBelow root places := by
  rw [hplaces.unique (sourcesInOrder_places h extension root), sources, Entry.walk_eq h,
    List.filter_map]
  rfl

/-- Two entries agree on the source files, on where they are and what they hold, and on the folders
that cannot be listed. -/
structure SameSources (extension root : String) (e e' : Entry) : Prop where
  files : ∀ names file, file.isFile → isSourceFile extension (Path.below root names) →
    (e.find? names = some file ↔ e'.find? names = some file)
  closed : ∀ names cause,
    e.find? names = some (.closedFolder cause) ↔ e'.find? names = some (.closedFolder cause)

theorem SameSources.find?_iff (same : SameSources extension root e e') {names : List String}
    {found : Entry}
    (h : found.isClosed ∨ found.isFile ∧ isSourceFile extension (Path.below root names)) :
    e.find? names = some found ↔ e'.find? names = some found := by
  rcases h with hclosed | ⟨hfile, hsource⟩
  · cases found with
    | closedFolder cause => exact same.closed names cause
    | _ => cases hclosed
  · exact same.files names found hfile hsource

theorem SourcesInOrder.of_same {places : List (List String × Entry)}
    (h : SourcesInOrder extension root e places) (same : SameSources extension root e e') :
    SourcesInOrder extension root e' places := by
  refine ⟨fun names found => ?_, h.increasing⟩
  rw [h.mem_iff]
  exact and_congr_left same.find?_iff

/-- Entries with the same list of sources agree on them. -/
theorem SourcesInOrder.same {places : List (List String × Entry)}
    (h : SourcesInOrder extension root e places) (h' : SourcesInOrder extension root e' places) :
    SameSources extension root e e' := by
  have hiff {names : List String} {found : Entry}
      (hsource : found.isClosed ∨
        found.isFile ∧ isSourceFile extension (Path.below root names)) :
      e.find? names = some found ↔ e'.find? names = some found := by
    have hsame := (h.mem_iff names found).symm.trans (h'.mem_iff names found)
    rwa [and_iff_left hsource, and_iff_left hsource] at hsame
  constructor
  case files =>
    intro names file hfile hsource
    exact hiff (.inr ⟨hfile, hsource⟩)
  case closed => exact fun names cause => hiff (.inl rfl)

/-- Where the sources are the same, so is all that a scan comes to and tells. -/
theorem scanTree_congr {v v' : View} (h : v.walked root = .ok e) (h' : v'.walked root = .ok e')
    (same : sources extension root e = sources extension root e') :
    scanTree v extension root = scanTree v' extension root := by
  rw [scanTree, scanTree, h, h']
  dsimp only
  rw [same]

/-! ### Scanning one thing after the other -/

/-- What each thing that a walk comes to yields by itself: the functions of a file, or why there
are none. -/
inductive Yields : Entry.Visit → Except SourceError (List DocumentedFunction) → Prop where
  | file (path : String) (content : ByteArray) :
    Yields (path, .file content) (Scan.ofCursor path (.ofContent content)).result
  | begun (path : String) (lines : List Line) (cause : FileError) :
    Yields (path, .brokenFile (some lines) cause)
      (Scan.ofCursor path (.ofStream ⟨lines, some cause⟩)).result
  | unopened (path : String) (cause : FileError) :
    Yields (path, .brokenFile none cause) (.error (.unreadable path cause))
  | unlisted (path : String) (cause : FileError) :
    Yields (path, .closedFolder cause) (.error (.unlisted path cause))

theorem yields_iff {visit : Entry.Visit} (h : concerns extension visit)
    {result : Except SourceError (List DocumentedFunction)} :
    Yields visit result ↔ (scanVisit visit).result = result := by
  constructor
  · intro hyields
    cases hyields <;> rfl
  · rintro rfl
    obtain ⟨path, e⟩ := visit
    cases e with
    | file content => exact .file path content
    | brokenFile begun cause =>
      cases begun with
      | none => exact .unopened path cause
      | some lines => exact .begun path lines cause
    | closedFolder cause => exact .unlisted path cause
    | folder | special => cases h

/-- What each of some things yields is what scanning it comes to. -/
theorem forall₂_yields {visits : List Entry.Visit} (h : ∀ visit ∈ visits, concerns extension visit)
    {results : List (Except SourceError (List DocumentedFunction))} :
    List.Forall₂ Yields visits results ↔
      visits.map (fun visit => (scanVisit visit).result) = results := by
  induction visits generalizing results with
  | nil => rw [List.forall₂_nil_left_iff, List.map_nil, eq_comm]
  | cons visit visits ih =>
    obtain ⟨hvisit, hvisits⟩ := List.forall_mem_cons.mp h
    cases results with
    | nil => exact iff_of_false nofun nofun
    | cons result results =>
      rw [List.forall₂_cons, yields_iff hvisit, ih hvisits, List.map_cons, List.cons.injEq]

/-- The outcomes of scanning each thing by itself decide: the first error, or else all functions
merged, first to last. -/
structure ScansEach (tree : Node) (visits : List Entry.Visit)
    (result : Except SourceError Node) : Prop where
  ok_iff : ∀ merged, result = .ok merged ↔ ∃ found : List (List DocumentedFunction),
    List.Forall₂ Yields visits (found.map .ok) ∧ merged = mergeFunctions tree found.flatten
  error_iff : ∀ e, result = .error e ↔ ∃ before visit after, visits = before ++ visit :: after ∧
    (∀ earlier ∈ before, ∃ functions, Yields earlier (.ok functions)) ∧ Yields visit (.error e)

/-- Everything is scanned by itself, until something cannot be. -/
theorem scansEach_scanVisits (tree : Node) {visits : List Entry.Visit}
    (h : ∀ visit ∈ visits, concerns extension visit) :
    ScansEach tree visits (scanVisits tree visits).result := by
  rw [result_scanVisits]
  constructor
  case ok_iff =>
    intro merged
    simp only [map_eq_ok_iff, mapM_eq_ok_iff, forall₂_yields h]
  case error_iff =>
    intro e
    rw [map_eq_error_iff, mapM_eq_error_iff]
    refine exists_congr fun before => exists_congr fun visit => exists_congr fun after =>
      and_congr_right fun hvisits => ?_
    subst hvisits
    obtain ⟨hbefore, hlater⟩ := List.forall_mem_append.mp h
    refine and_congr (forall₂_congr fun earlier hearlier => ?_) ?_
    · exact exists_congr fun _ => (yields_iff (hbefore earlier hearlier)).symm
    · exact (yields_iff (hlater visit List.mem_cons_self)).symm

/-! ### Main theorem -/

/-- **Sources are scanned in the order of their paths, and nothing else is.** The source files at
and below a root are scanned each by itself, in increasing order of their paths. The first that
cannot be scanned decides, unless a folder that cannot be listed comes before it. So a scan comes
to the same wherever there are the same source files and the same folders that cannot be listed,
whatever other files and folders there are. -/
theorem scans_in_path_order {v : View} (h : v.walked root = .ok e) (ordered : e.Ordered)
    (extension : String) :
    (∃ places, SourcesInOrder extension root e places) ∧
    (∀ places, SourcesInOrder extension root e places →
      ScansEach .empty (visitsBelow root places) (scanTree v extension root).result) ∧
    ∀ v' e', View.walked v' root = .ok e' → e'.Ordered → SameSources extension root e e' →
      scanTree v' extension root = scanTree v extension root := by
  refine ⟨⟨_, sourcesInOrder_places ordered extension root⟩, fun places hplaces => ?_, ?_⟩
  · have hconcern : ∀ visit ∈ visitsBelow root places, concerns extension visit :=
      List.forall_mem_map.mpr fun place hplace =>
        concerns_iff.mpr ((hplaces.mem_iff place.1 place.2).mp hplace).2
    rw [result_scanTree h, sources_eq ordered hplaces]
    exact scansEach_scanVisits .empty hconcern
  · intro v' e' h' ordered' same
    have hplaces := sourcesInOrder_places ordered extension root
    apply scanTree_congr h' h
    rw [sources_eq ordered hplaces, sources_eq ordered' (hplaces.of_same same)]

/-- A file in a folder comes before one whose name goes on with a dot; broken files of other
kinds and folders with the names of sources make no difference. -/
theorem scans_in_path_order_around :
    let inner := "/*\n * [name]\n * Inner\n */\nvoid kbfun_a(void);\n".toUTF8
    let outer := "/*\n * [name]\n * Outer\n */\nvoid kbfun_a(void);\n".toUTF8
    let found := [("a", Entry.folder [("b.c", .file inner)]), ("a.c", .file outer)]
    let t := (Tree.empty.addFile ["src", "a", "b.c"] inner).addFile ["src", "a.c"] outer
    let t' := ((t.addFile ["src", "a.h"] "/*".toUTF8).addFile ["src", "b.txt"] ⟨#[255]⟩).addFolder
      ["src", "c.c"]
    let places := [(["a", "b.c"], Entry.file inner), (["a.c"], .file outer)]
    t.view.walked "src" = .ok (.folder found) ∧
      SourcesInOrder "c" "src" (.folder found) places ∧
      ScansEach .empty [("src/a/b.c", .file inner), ("src/a.c", .file outer)]
        (scanTree t.view "c" "src").result ∧
      scanTree t'.view "c" "src" = scanTree t.view "c" "src" := by
  intro inner outer found t t' places
  let others := [("a.h", Entry.file "/*".toUTF8), ("b.txt", .file ⟨#[255]⟩), ("c.c", .folder [])]
  have h : t.view.walked "src" = .ok (.folder found) := by rfl
  have h' : t'.view.walked "src" = .ok (.folder (found ++ others)) := by rfl
  have ordered := Tree.ordered_of_walked h
  have ordered' := Tree.ordered_of_walked h'
  let isSource := fun place : List String × Entry =>
    concerns "c" (Path.below "src" place.1, place.2)
  have hfilter (before after : List (List String × Entry)) (hbefore : ∀ p ∈ before, ¬ isSource p)
      (hafter : ∀ p ∈ after, ¬ isSource p) :
      (before ++ (places ++ after)).filter isSource = places := by
    have hsources : places.filter isSource = places := List.filter_eq_self.mpr (by decide +kernel)
    rw [List.filter_append, List.filter_append, hsources, List.filter_eq_nil_iff.mpr hbefore,
      List.filter_eq_nil_iff.mpr hafter, List.nil_append, List.append_nil]
  have hfound : (Entry.folder found).places.filter isSource = places :=
    hfilter [([], .folder found), (["a"], .folder [("b.c", .file inner)])] [] (by decide +kernel)
      nofun
  have haround : (Entry.folder (found ++ others)).places.filter isSource = places :=
    hfilter [([], .folder (found ++ others)), (["a"], .folder [("b.c", .file inner)])]
      [(["a.h"], .file "/*".toUTF8), (["b.txt"], .file ⟨#[255]⟩), (["c.c"], .folder [])]
      (by decide +kernel) (by decide +kernel)
  have hplaces : SourcesInOrder "c" "src" (.folder found) places :=
    hfound ▸ sourcesInOrder_places ordered "c" "src"
  have hplaces' : SourcesInOrder "c" "src" (.folder (found ++ others)) places :=
    haround ▸ sourcesInOrder_places ordered' "c" "src"
  obtain ⟨-, scans, congr⟩ := scans_in_path_order h ordered "c"
  exact ⟨h, hplaces, scans places hplaces, congr t'.view _ h' ordered' (hplaces.same hplaces')⟩

/-- A folder beside the source files that cannot be listed ends the scan, although the source files
are the same without it. -/
theorem unlisted_folder_ends_scan :
    let source := "void kbfun_a(void);".toUTF8
    let closed := Entry.closedFolder (.other "Permission denied (os error 13)")
    let e := Entry.folder [("a.c", .file source)]
    let e' := Entry.folder [("a.c", .file source), ("private", closed)]
    let v : View := ⟨fun _ => .ok e, fun _ => false⟩
    let v' : View := ⟨fun _ => .ok e', fun _ => false⟩
    e.Ordered ∧ e'.Ordered ∧
      (∀ names file, file.isFile → isSourceFile "c" (Path.below "src" names) →
        (e.find? names = some file ↔ e'.find? names = some file)) ∧
      (scanTree v "c" "src").result = .ok (DocumentedFunction.node ⟨"kbfun_a", .empty⟩) ∧
      (scanTree v' "c" "src").result =
        .error (.unlisted "src/private" (.other "Permission denied (os error 13)")) := by
  intro source closed e e' v v'
  have ordered : e.Ordered :=
    .folder (List.pairwise_singleton ..) fun _ hentry => List.mem_singleton.mp hentry ▸ .file source
  have ordered' : e'.Ordered := by
    refine .folder (by decide) fun entry hentry => ?_
    rcases List.mem_pair.mp hentry with rfl | rfl
    · exact .file source
    · exact .leaf nofun
  refine ⟨ordered, ordered', fun names file hfile _ => ?_, by decide +kernel, by decide +kernel⟩
  rw [← Entry.mem_places_iff ordered, ← Entry.mem_places_iff ordered']
  have hplaces : e'.places = [([], e'), (["a.c"], .file source), (["private"], closed)] := by rfl
  have hplaces' : e.places = [([], e), (["a.c"], .file source)] := by rfl
  rw [hplaces, hplaces']
  have hfolder : file ≠ e ∧ file ≠ e' ∧ file ≠ closed := by
    refine ⟨?_, ?_, ?_⟩ <;> rintro rfl <;> cases hfile
  simp [hfolder]

end KeyboardInfo.Source
