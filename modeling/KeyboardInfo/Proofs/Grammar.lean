import KeyboardInfo.Proofs.Blocks

/-! The grammar of a linker map.

Lines split into blocks (`Splits`) when they are the lines of complete blocks, one
after the other. A list of lines has one such splitting at most, since each block is
determined by the lines that it begins (`Splits.starts`): a header among the lines that
an earlier block takes in opens nothing. Whatever a map holds, blocks split off its
start until the lines are used up or something is wrong with the next one
(`exists_splits`), so a map is read without fault just when it splits, and otherwise
the fault is that of the first block that cannot be completed (`reads_exactly_splits`). -/
namespace KeyboardInfo.LinkerMap
open Files

/-- Lines are those of complete blocks, one after the other; each block comes with its
lines and what it records. -/
structure Splits (lines : List String) (blocks : List (List String × Option Record)) : Prop where
  flatten : lines = (blocks.map Prod.fst).flatten
  each : ∀ block ∈ blocks, Complete block.1 block.2

/-- What blocks record, first to last. -/
def recordsOf (blocks : List (List String × Option Record)) : List Record :=
  blocks.filterMap Prod.snd

/-- Records merged into the empty tree, first to last. -/
def treeOf (records : List Record) : Node :=
  records.foldl (fun tree record => tree.merge record.node) .empty

/-! ### One splitting at most -/

theorem Splits.nil : Splits [] [] := ⟨rfl, nofun⟩

theorem Splits.cons {lines : List String} {record : Option Record} (h : Complete lines record)
    {later : List String} {blocks : List (List String × Option Record)} (hs : Splits later blocks) :
    Splits (lines ++ later) ((lines, record) :: blocks) :=
  ⟨by rw [List.map_cons, List.flatten_cons, hs.flatten], List.forall_mem_cons.mpr ⟨h, hs.each⟩⟩

theorem Splits.of_cons {lines : List String} {block : List String × Option Record}
    {blocks : List (List String × Option Record)} (h : Splits lines (block :: blocks)) :
    ∃ later, lines = block.1 ++ later ∧ Complete block.1 block.2 ∧ Splits later blocks := by
  refine ⟨(blocks.map Prod.fst).flatten, ?_, h.each _ (List.mem_cons_self ..), rfl, ?_⟩
  · rw [h.flatten, List.map_cons, List.flatten_cons]
  · exact fun b hb => h.each b (List.mem_cons_of_mem _ hb)

/-- The lines that a complete block begins determine the block. -/
theorem Complete.unique {lines others : List String} {record record' : Option Record}
    (h : Complete lines record) (h' : Complete others record') {later later' : List String}
    (heq : lines ++ later = others ++ later') : lines = others ∧ record = record' := by
  obtain ⟨first, further, rfl⟩ := h.exists_cons
  obtain ⟨first', further', rfl⟩ := h'.exists_cons
  rw [List.cons_append, List.cons_append, List.cons.injEq] at heq
  obtain ⟨rfl, heq⟩ := heq
  have hblock := blockAt_of_complete h 0 later
  rw [heq, blockAt_of_complete h' 0 later'] at hblock
  obtain ⟨rfl, hlength⟩ := Block.mk.inj (Except.ok.inj hblock)
  exact ⟨congrArg _ (List.append_inj_left heq hlength.symm), rfl⟩

/-- Blocks that split off the start of some lines are the first in any splitting of them. -/
theorem Splits.starts {start lines : List String}
    {opened blocks : List (List String × Option Record)} (ho : Splits start opened)
    (hpre : start <+: lines) (h : Splits lines blocks) : opened <+: blocks := by
  induction opened generalizing start lines blocks with
  | nil => exact List.nil_prefix
  | cons block opened ih =>
    obtain ⟨later, rfl, hblock, hlater⟩ := ho.of_cons
    obtain ⟨rest, rfl⟩ := hpre
    cases blocks with
    | nil =>
      obtain ⟨first, further, hf⟩ := hblock.exists_cons
      have := h.flatten
      rw [hf] at this
      cases this
    | cons other blocks =>
      obtain ⟨later', heq, hother, hlater'⟩ := h.of_cons
      rw [List.append_assoc] at heq
      obtain ⟨hlines, hrecord⟩ := hblock.unique hother heq
      rw [hlines] at heq
      obtain rfl := List.append_cancel_left heq
      obtain rfl : block = other := Prod.ext hlines hrecord
      exact List.cons_prefix_cons.mpr ⟨rfl, ih hlater ⟨rest, rfl⟩ hlater'⟩

theorem Splits.unique {lines : List String} {blocks others : List (List String × Option Record)}
    (h : Splits lines blocks) (h' : Splits lines others) : others = blocks :=
  (h'.starts (List.prefix_refl lines) h).eq_of_length_le
    (h.starts (List.prefix_refl lines) h').length_le

/-! ### Reading what splits -/

/-- Blocks that split off are recorded, and extraction goes on after them. -/
theorem ofLines_of_splits {start : List String} {blocks : List (List String × Option Record)}
    (h : Splits start blocks) (passed : Nat) (rest : List String) :
    Extraction.ofLines passed 0 (readable (start ++ rest)) =
      let others := Extraction.ofLines (passed + start.length) 0 (readable rest)
      {others with records := recordsOf blocks ++ others.records} := by
  induction blocks generalizing start passed with
  | nil =>
    obtain rfl := h.flatten
    rfl
  | cons block blocks ih =>
    obtain ⟨later, rfl, hblock, hlater⟩ := h.of_cons
    obtain ⟨lines, record⟩ := block
    obtain ⟨first, further, rfl⟩ := hblock.exists_cons
    have hread := blockAt_of_complete hblock (passed + 1) (later ++ rest)
    have hdrop : (readable (further ++ (later ++ rest))).drop further.length =
        readable (later ++ rest) := by
      rw [readable_append, List.drop_left' (length_readable further)]
    have hstep := Extraction.ofLines_of_blockAt hread
    dsimp only at hstep
    rw [hdrop, ih hlater] at hstep
    rw [List.append_assoc]
    refine hstep.trans ?_
    have hpassed : passed + 1 + further.length + later.length =
        passed + (first :: further ++ later).length := by
      rw [List.length_append, List.length_cons]
      omega
    rw [hpassed]
    cases record <;> rfl

/-- A map that splits into blocks records them all. -/
theorem result_of_splits {lines : List String} {blocks : List (List String × Option Record)}
    (h : Splits lines blocks) :
    (Extraction.ofLines 0 0 (readable lines)).result = .ok (treeOf (recordsOf blocks)) := by
  have hread := ofLines_of_splits h 0 []
  rw [List.append_nil] at hread
  rw [hread]
  simp [readable, Extraction.ofLines, Extraction.result, Extraction.tree, treeOf]

/-- A block that cannot be completed decides the outcome, whatever was recorded before it. -/
theorem result_of_broken {start rest : List String}
    {blocks : List (List String × Option Record)} (h : Splits start blocks) {e : MapError}
    (hb : Broken (start.length + 1) rest e) :
    (Extraction.ofLines 0 0 (readable (start ++ rest))).result = .error e := by
  have hread := ofLines_of_splits h 0 rest
  obtain ⟨first, further, rfl⟩ := hb.exists_cons
  have hstop : Extraction.ofLines (0 + start.length) 0 (readable (first :: further)) = ⟨[], some e⟩ :=
    Extraction.ofLines_of_blockAt_error (by rw [Nat.zero_add]; exact blockAt_of_broken hb)
  rw [hread, hstop]
  rfl

/-- Complete blocks split off any lines until none are left or the next is broken. -/
theorem exists_splits (passed : Nat) (lines : List String) :
    ∃ blocks start rest, Splits start blocks ∧ lines = start ++ rest ∧
      (rest = [] ∨ ∃ e, Broken (passed + start.length + 1) rest e) := by
  induction hlen : lines.length using Nat.strongRecOn generalizing passed lines with
  | ind n ih =>
    cases lines with
    | nil => exact ⟨[], [], [], .nil, rfl, .inl rfl⟩
    | cons first rest =>
      rcases complete_or_broken (passed + 1) first rest with
        ⟨further, later, record, rfl, hblock⟩ | ⟨e, hbroken⟩
      · have hlt : later.length < n := by
          rw [← hlen, List.length_cons, List.length_append]
          omega
        obtain ⟨blocks, start, rest, hs, rfl, hrest⟩ :=
          ih _ hlt (passed + 1 + further.length) later rfl
        refine ⟨(first :: further, record) :: blocks, first :: further ++ start, rest,
          .cons hblock hs, by simp, hrest.imp_right ?_⟩
        rintro ⟨e, hbroken⟩
        refine ⟨e, ?_⟩
        convert hbroken using 1
        rw [List.length_append, List.length_cons]
        omega
      · exact ⟨[], [], first :: rest, .nil, rfl, .inr ⟨e, hbroken⟩⟩

/-- What is wrong with a map is wrong with the first block that cannot be completed. -/
theorem exists_broken_of_result {lines : List String} {e : MapError}
    (h : (Extraction.ofLines 0 0 (readable lines)).result = .error e) :
    ∃ blocks start rest, Splits start blocks ∧ lines = start ++ rest ∧
      Broken (start.length + 1) rest e := by
  obtain ⟨blocks, start, rest, hs, rfl, rfl | ⟨e', hbroken⟩⟩ := exists_splits 0 lines
  · rw [List.append_nil, result_of_splits hs] at h
    cases h
  · rw [Nat.zero_add] at hbroken
    rw [result_of_broken hs hbroken] at h
    cases h
    exact ⟨blocks, start, rest, hs, rfl, hbroken⟩

/-- **A linker map is read without fault just when its lines split into blocks.** -/
theorem reads_exactly_splits {content : ByteArray} {lines : List String}
    (text : linesOf content = lines.map .ok) :
    let result := (Extraction.ofCursor (.ofContent content)).result
    (∀ tree, result = .ok tree ↔ ∃ blocks, Splits lines blocks ∧ tree = treeOf (recordsOf blocks)) ∧
    (∀ blocks others, Splits lines blocks → Splits lines others → others = blocks) ∧
    (∀ blocks start opened, Splits lines blocks → start <+: lines → Splits start opened →
      opened <+: blocks) ∧
    (∀ e, result = .error e ↔ ∃ blocks start rest, Splits start blocks ∧ lines = start ++ rest ∧
      Broken (start.length + 1) rest e) := by
  have hresult : (Extraction.ofCursor (.ofContent content)).result =
      (Extraction.ofLines 0 0 (readable lines)).result := by
    rw [Extraction.ofCursor, lines_ofContent, text]
    rfl
  refine ⟨fun tree => ⟨fun h => ?_, ?_⟩, fun _ _ h h' => h.unique h',
    fun _ _ _ h hpre ho => ho.starts hpre h, fun e => ⟨fun h => ?_, ?_⟩⟩
  · obtain ⟨blocks, start, rest, hs, rfl, rfl | ⟨e, hbroken⟩⟩ := exists_splits 0 lines
    · rw [List.append_nil] at hresult ⊢
      rw [hresult, result_of_splits hs] at h
      exact ⟨blocks, hs, (Except.ok.inj h).symm⟩
    · rw [Nat.zero_add] at hbroken
      rw [hresult, result_of_broken hs hbroken] at h
      cases h
  · rintro ⟨blocks, hs, rfl⟩
    exact hresult.trans (result_of_splits hs)
  · obtain ⟨blocks, start, rest, hs, rfl, rfl | ⟨e', hbroken⟩⟩ := exists_splits 0 lines
    · rw [List.append_nil] at hresult
      rw [hresult, result_of_splits hs] at h
      cases h
    · rw [Nat.zero_add] at hbroken
      rw [hresult, result_of_broken hs hbroken] at h
      cases h
      exact ⟨blocks, start, rest, hs, rfl, hbroken⟩
  · rintro ⟨blocks, start, rest, hs, rfl, hbroken⟩
    exact hresult.trans (result_of_broken hs hbroken)

/-- A header that stands where an extent is expected opens no block: one function is
recorded, with the extent that the second header happens to give. -/
theorem reads_exactly_splits_header_inside :
    let lines := [".text.kbfun_a", " .text.kbfun_b 0x10 0x4 a.o", " 0x10 kbfun_a", "main.o"]
    let content := ".text.kbfun_a\n .text.kbfun_b 0x10 0x4 a.o\n 0x10 kbfun_a\nmain.o\n".toUTF8
    linesOf content = lines.map .ok ∧
      Splits lines [(lines.take 3, some (.function ⟨"kbfun_a", ⟨16, 4⟩⟩)), (["main.o"], none)] ∧
      (Extraction.ofCursor (.ofContent content)).result =
        .ok (treeOf [.function ⟨"kbfun_a", ⟨16, 4⟩⟩]) := by
  intro lines content
  have text : linesOf content = lines.map .ok := rfl
  have gives : GivesExtent " .text.kbfun_b 0x10 0x4 a.o" ⟨16, 4⟩ :=
    ⟨"0x10".toList, "0x4".toList, by decide, by decide, by decide⟩
  have names : NamesFunction " 0x10 kbfun_a" "kbfun_a" :=
    ⟨"kbfun_a".toList, by decide, by decide, by decide⟩
  have hs : Splits lines
      [(lines.take 3, some (.function ⟨"kbfun_a", ⟨16, 4⟩⟩)), (["main.o"], none)] :=
    .cons (.function (by decide) gives names) (.cons (.plain (by decide) (by decide)) .nil)
  exact ⟨text, hs, ((reads_exactly_splits text).1 _).mpr ⟨_, hs, rfl⟩⟩

end KeyboardInfo.LinkerMap
