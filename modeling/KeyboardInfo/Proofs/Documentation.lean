import KeyboardInfo.Proofs.Layers
import KeyboardInfo.Proofs.Sections
import KeyboardInfo.Proofs.Shapes

/-! Documentation that is spread over many declarations.

A function may be declared more than once, with other comments each time. What its
declarations say is put together field by field, and of a field the last declaration that
has it counts (`documentation_field_by_field`). A field holds a text or a list of texts, and
no map, so its values replace each other as wholes. Declarations of different functions do not
touch each other (`merge_node_comm`), and one without a comment only makes its function known
(`merge_undocumented`, `undocumented_merge`). -/
namespace KeyboardInfo.Source
open Node

/-! ### Fields of a block -/

/-- What a block says in a field: the name and the description are texts, all others lists. -/
def CommentBlock.value? (b : CommentBlock) (field : String) : Option Node :=
  if field = "name" then b.name.map .text
  else if field = "description" then b.description.map .text
  else (b.fields.get? field).map fun values => .list (values.map .text)

theorem FieldSection.listed?_ne (s : FieldSection) :
    s.listed? ≠ some "name" ∧ s.listed? ≠ some "description" := by
  rw [listed?]
  split
  · exact ⟨(Option.some_ne_none _).symm, (Option.some_ne_none _).symm⟩
  · next hname =>
    rw [not_or] at hname
    split
    · exact ⟨by decide, by decide⟩
    · exact ⟨fun h => hname.1 (Option.some.inj h), fun h => hname.2 (Option.some.inj h)⟩

theorem Documents.get?_eq_none {parts : List FieldSection} {b : CommentBlock}
    (h : Documents parts b) {key : String} (hkey : ∀ s ∈ parts, s.listed? ≠ some key) :
    b.fields.get? key = none := by
  rw [h.fields, if_pos]
  rw [listedUnder, List.map_eq_nil_iff, List.filter_eq_nil_iff]
  exact fun s hs => by simpa using hkey s hs

/-- A map with a text in a field, if there is one. -/
def withText (n : Node) (field : String) : Option String → Node
  | some value => n.insert field (.text value)
  | none => n

theorem layered_withText {n : Node} (h : n.Layered 1) (field : String) (value : Option String) :
    (withText n field value).Layered 1 := by
  cases value with
  | none => exact h
  | some value => exact h.insert field (layered_leaf rfl)

theorem get?_withText {n : Node} (h : n.isMap) (field key : String) (value : Option String) :
    (withText n field value).get? key =
      if key = field then (value.map .text).or (n.get? key) else n.get? key := by
  cases value with
  | none => simp [withText]
  | some value => simp [withText, get?_insert h]

/-- The name and the description are put in first, the lists after them. -/
theorem CommentBlock.node_eq (b : CommentBlock) :
    b.node = b.fields.entries.foldl (fun n entry => n.insert entry.1 (.list (entry.2.map .text)))
      (withText (withText .empty "name" b.name) "description" b.description) := by
  obtain ⟨name, description, fields⟩ := b
  cases name <;> cases description <;> rfl

theorem CommentBlock.layered (b : CommentBlock) : b.node.Layered 1 := by
  rw [node_eq]
  exact List.foldlRecOn _ _ (layered_withText (layered_withText (layered_empty 0) ..) ..)
    fun n hn entry _ => hn.insert entry.1 (layered_leaf rfl)

/-- The map of a block that a comment makes has just what the block says. -/
theorem Documents.get?_node {parts : List FieldSection} {b : CommentBlock} (h : Documents parts b)
    (field : String) : b.node.get? field = b.value? field := by
  have hname := h.get?_eq_none fun s _ => s.listed?_ne.1
  have hdescription := h.get?_eq_none fun s _ => s.listed?_ne.2
  have hfirst := layered_withText (layered_empty 0) "name" b.name
  have hboth := layered_withText hfirst "description" b.description
  rw [b.node_eq, get?_foldl_insert (fun values => .list (values.map .text)) b.fields.ordered hboth.1,
    get?_withText hfirst.1, get?_withText rfl, get?_empty, CommentBlock.value?]
  have hget : b.fields.entries.lookup field = b.fields.get? field := rfl
  rw [hget]
  by_cases heq : field = "name"
  · subst heq
    simp [hname]
  by_cases heq' : field = "description"
  · subst heq'
    simp [hdescription]
  · simp [heq, heq']

/-! ### One declaration -/

theorem DocumentedFunction.layered (f : DocumentedFunction) : f.node.Layered 4 :=
  layered_single _ (layered_single _ (layered_single _ f.comments.layered))

theorem DocumentedFunction.getPath?_node (f : DocumentedFunction) (name : String)
    (path : List String) :
    f.node.getPath? (Key.keyboardFunctions :: name :: path) =
      if name = f.name then (single Key.comments f.comments.node).getPath? path else none := by
  rw [node, getPath?_single, getPath?_cons, get?_single]
  split <;> rfl

/-- Declarations of different functions may be exchanged. -/
theorem merge_node_comm {f g : DocumentedFunction} (h : f.name ≠ g.name) :
    f.node.merge g.node = g.node.merge f.node := by
  refine (merge_comm_iff_of_maps rfl rfl).mpr fun key x y hx hy => ?_
  obtain ⟨-, rfl⟩ := get?_single_eq_some_iff.mp hx
  obtain ⟨-, rfl⟩ := get?_single_eq_some_iff.mp hy
  -- Both have the section of the functions, but there they share no key.
  refine (merge_comm_iff_of_maps rfl rfl).mpr fun name u v hu hv => ?_
  obtain ⟨hf, -⟩ := get?_single_eq_some_iff.mp hu
  obtain ⟨hg, -⟩ := get?_single_eq_some_iff.mp hv
  exact absurd (hf.symm.trans hg) h

/-! ### Declarations without a comment -/

/-- The comments of a function that a tree has. -/
theorem exists_comments {tree : Node} (h : tree.Layered 4) {name : String}
    (hname : (tree.getPath? [Key.keyboardFunctions, name, Key.comments]).isSome) :
    ∃ records record comments, tree.get? Key.keyboardFunctions = some records ∧
      records.get? name = some record ∧ record.get? Key.comments = some comments ∧
      comments.isMap := by
  obtain ⟨comments, hpath⟩ := Option.isSome_iff_exists.mp hname
  obtain ⟨records, hrecords, hpath⟩ := getPath?_cons_eq_some_iff.mp hpath
  obtain ⟨record, hrecord, hpath⟩ := getPath?_cons_eq_some_iff.mp hpath
  rw [getPath?_singleton] at hpath
  have hlayered : comments.Layered 1 := ((h.2 _ _ hrecords).2 _ _ hrecord).2 _ _ hpath
  exact ⟨records, record, comments, hrecords, hrecord, hpath, hlayered.1⟩

theorem merge_undocumented {tree : Node} (h : tree.Layered 4) {name : String}
    (hname : (tree.getPath? [Key.keyboardFunctions, name, Key.comments]).isSome) :
    tree.merge (DocumentedFunction.node ⟨name, .empty⟩) = tree := by
  obtain ⟨records, record, comments, hrecords, hrecord, hcomments, hmap⟩ := exists_comments h hname
  exact merge_single_of_absorbed hrecords
    (merge_single_of_absorbed hrecord (merge_single_of_absorbed hcomments (merge_empty hmap)))

theorem undocumented_merge {tree : Node} (h : tree.Layered 4) {name : String}
    (hname : (tree.getPath? [Key.keyboardFunctions, name, Key.comments]).isSome) :
    (DocumentedFunction.node ⟨name, .empty⟩).merge tree = tree := by
  obtain ⟨records, record, comments, hrecords, hrecord, hcomments, -⟩ := exists_comments h hname
  exact single_merge_of_absorbed hrecords
    (single_merge_of_absorbed hrecord (single_merge_of_absorbed hcomments (empty_merge comments)))

/-! ### All declarations -/

/-- The tree of what some declarations say, first to last. -/
def collected (functions : List DocumentedFunction) : Node := mergeFunctions .empty functions

theorem layered_collected (functions : List DocumentedFunction) : (collected functions).Layered 4 :=
  Layered.foldl DocumentedFunction.layered functions (layered_empty 3)

theorem collected_append (a b : List DocumentedFunction) :
    collected (a ++ b) = (collected a).merge (collected b) := by
  rw [collected, mergeFunctions_append]
  exact Layered.foldl_merge DocumentedFunction.layered b (layered_collected a)

theorem collected_cons (f : DocumentedFunction) (functions : List DocumentedFunction) :
    collected (f :: functions) = f.node.merge (collected functions) := by
  have hone : collected [f] = f.node := empty_merge f.node
  rw [← List.singleton_append, collected_append, hone]

/-- A function is in the tree, with its comments, just when it is declared. -/
theorem isSome_collected (functions : List DocumentedFunction) (name : String)
    {path : List String} (hpath : path = [] ∨ path = [Key.comments]) :
    ((collected functions).getPath? (Key.keyboardFunctions :: name :: path)).isSome ↔
      ∃ f ∈ functions, f.name = name := by
  have hlength : (Key.keyboardFunctions :: name :: path).length ≤ 3 + 1 := by
    rcases hpath with rfl | rfl
    · exact Nat.le_add_right 2 2
    · exact Nat.le_add_right 3 1
  have hone (f : DocumentedFunction) :
      (f.node.getPath? (Key.keyboardFunctions :: name :: path)).isSome ↔ f.name = name := by
    rw [f.getPath?_node, eq_comm (a := f.name)]
    split
    · next heq => rcases hpath with rfl | rfl <;> simp [heq, get?_single]
    · next hne => simp [hne]
  have hany := isSome_getPath?_foldl_merge DocumentedFunction.layered functions
    (List.cons_ne_nil _ _) hlength
  simp only [hone] at hany
  exact hany

/-- Of what declarations say of a function in a field, the last counts. -/
theorem getPath?_collected (functions : List DocumentedFunction) (name field : String) :
    (collected functions).getPath? [Key.keyboardFunctions, name, Key.comments, field] =
      ((functions.filter fun f => f.name = name).filterMap fun f =>
        f.comments.node.get? field).getLast? := by
  rw [collected, mergeFunctions, getPath?_foldl_merge DocumentedFunction.layered functions rfl,
    List.filterMap_filter]
  congr 2
  funext f
  simp only [f.getPath?_node, getPath?_single, getPath?_singleton, eq_comm (a := name),
    decide_eq_true_eq]

theorem collected_swap (before after : List DocumentedFunction) {f g : DocumentedFunction}
    (h : f.name ≠ g.name) :
    collected (before ++ g :: f :: after) = collected (before ++ f :: g :: after) := by
  rw [collected_append, collected_append, collected_cons, collected_cons, collected_cons,
    collected_cons, ← g.layered.merge_assoc f.layered, ← f.layered.merge_assoc g.layered,
    merge_node_comm h]

theorem collected_undocumented (before after : List DocumentedFunction) {name : String}
    (h : ∃ f ∈ before ++ after, f.name = name) :
    collected (before ++ ⟨name, .empty⟩ :: after) = collected (before ++ after) := by
  have hbefore := layered_collected before
  have hafter := layered_collected after
  rw [collected_append, collected_cons, collected_append]
  obtain ⟨f, hf, hname⟩ := h
  rcases List.mem_append.mp hf with hf | hf
  · have hfound := (isSome_collected before name (.inr rfl)).mpr ⟨f, hf, hname⟩
    rw [← hbefore.merge_assoc (DocumentedFunction.layered _), merge_undocumented hbefore hfound]
  · have hfound := (isSome_collected after name (.inr rfl)).mpr ⟨f, hf, hname⟩
    rw [undocumented_merge hafter hfound]

/-! ### Main theorem -/

/-- **Documentation is collected field by field.** The tree of some declarations has the
functions that are declared. In each field it has what the last declaration of the function
that has the field says there. So declarations of different functions may change places, and
one without a comment adds nothing to a function that is declared elsewhere. -/
theorem documentation_field_by_field {functions : List DocumentedFunction}
    (read : ∀ f ∈ functions, ∃ text, f.comments = .ofText text) :
    let tree := mergeFunctions .empty functions
    (∀ name, tree.HasFunction name ↔ ∃ f ∈ functions, f.name = name) ∧
    (∀ name field, tree.getPath? [Key.keyboardFunctions, name, Key.comments, field] =
      ((functions.filter fun f => f.name = name).filterMap fun f =>
        f.comments.value? field).getLast?) ∧
    (∀ before f g after, functions = before ++ f :: g :: after → f.name ≠ g.name →
      mergeFunctions .empty (before ++ g :: f :: after) = tree) ∧
    (∀ before after name, functions = before ++ after → (∃ f ∈ functions, f.name = name) →
      mergeFunctions .empty (before ++ ⟨name, .empty⟩ :: after) = tree) := by
  refine ⟨fun name => isSome_collected functions name (.inl rfl), fun name field => ?_, ?_, ?_⟩
  · have hvalue : ∀ f ∈ functions.filter fun f => f.name = name,
        f.comments.node.get? field = f.comments.value? field := by
      intro f hf
      obtain ⟨text, htext⟩ := read f (List.mem_of_mem_filter hf)
      rw [htext]
      exact (documents_ofText text).get?_node field
    exact (getPath?_collected functions name field).trans
      (congrArg _ (List.filterMap_congr hvalue))
  · rintro before f g after rfl hne
    exact collected_swap before after hne
  · rintro before after name rfl hname
    exact collected_undocumented before after hname

/-- The header has the notes, the source the description; each is kept as it stands. -/
theorem documentation_field_by_field_header :
    let header : DocumentedFunction := ⟨"kbfun_a", .ofText "[name]\nA\n[note]\none\n[note]\ntwo\n"⟩
    let other : DocumentedFunction := ⟨"kbfun_b", .ofText ""⟩
    let source : DocumentedFunction := ⟨"kbfun_a", .ofText "[name]\nAlpha\n[description]\nLast.\n"⟩
    let tree := mergeFunctions .empty [header, other, source]
    let comment (field : String) :=
      tree.getPath? [Key.keyboardFunctions, "kbfun_a", Key.comments, field]
    tree.HasFunction "kbfun_b" ∧ comment "name" = some (.text "Alpha") ∧
      comment "notes" = some (.list [.text "one", .text "two"]) ∧
      mergeFunctions .empty [other, header, source] = tree := by
  intro header other source tree comment
  have read : ∀ f ∈ [header, other, source], ∃ text, f.comments = .ofText text := by
    simp only [List.forall_mem_cons]
    exact ⟨⟨_, rfl⟩, ⟨_, rfl⟩, ⟨_, rfl⟩, nofun⟩
  have ⟨functions, fields, swap, _⟩ := documentation_field_by_field read
  refine ⟨?_, ?_, ?_, ?_⟩
  · exact (functions "kbfun_b").mpr ⟨other, by simp, rfl⟩
  · exact (fields "kbfun_a" "name").trans (by decide +kernel)
  · exact (fields "kbfun_a" "notes").trans (by decide +kernel)
  · exact swap [] header other [source] rfl (by decide)

end KeyboardInfo.Source
