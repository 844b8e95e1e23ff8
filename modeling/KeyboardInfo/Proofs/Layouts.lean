import KeyboardInfo.Proofs.Blocks
import KeyboardInfo.Proofs.Outcomes

/-! Layouts of a linker map.

A layout is read when the three lines after its header place its matrices: each line ends in the
symbol of a matrix, and the token before that holds the position of the matrix
(`layoutAfter_eq_ok_iff`). A line ends in one symbol, so each matrix has one of the three lines to
itself, and in what order they stand makes no difference. -/
namespace KeyboardInfo.LinkerMap
open Files (Line readable)
open Text

/-! ### Placing matrices -/

/-- A line ends in the symbol of a matrix, and in the token before that a number begins which is
the position of the matrix. -/
def Places (line : String) (m : Matrix) (position : UInt64) : Prop :=
  ∃ before address number, tokens line.toList = before ++ [address, m.symbol.toList] ∧
    numberIn? address = some number ∧ Hex.read? number = some position

/-- The lines of a window, in some order, place one matrix each, and these are the matrices. -/
def PlacesEach (window : List String) (keyLength : UInt64) (found : LayoutMatrices) : Prop :=
  ∃ (line : Matrix → String) (position : Matrix → UInt64),
    (Matrix.all.map line).Perm window ∧ (∀ m, Places (line m) m (position m)) ∧
    found = .ofKeyLength keyLength (position .keys) (position .press) (position .release)

theorem places_iff {line : String} {m : Matrix} {position : UInt64} : Places line m position ↔
    ∃ token, Entry.positionToken? m.symbol.toList line.toList = some token ∧
      Hex.read? token = some position := by
  simp only [m.positionToken?_eq_some_iff]
  constructor
  · rintro ⟨before, address, number, htokens, hnumber, hread⟩
    exact ⟨number, ⟨before, address, htokens, hnumber⟩, hread⟩
  · rintro ⟨number, ⟨before, address, htokens, hnumber⟩, hread⟩
    exact ⟨before, address, number, htokens, hnumber, hread⟩

theorem positioned_iff {window : List String} {m : Matrix} {position : UInt64} :
    Positioned window m position ↔ ∃ line ∈ window, Places line m position := by
  simp only [Positioned, places_iff]

theorem PlacesEach.length_eq {window : List String} {keyLength : UInt64} {found : LayoutMatrices}
    (h : PlacesEach window keyLength found) : window.length = layoutWindow := by
  obtain ⟨line, position, hperm, -, -⟩ := h
  exact hperm.length_eq.symm

theorem PlacesEach.perm {window window' : List String} {keyLength : UInt64}
    {found : LayoutMatrices} (h : PlacesEach window keyLength found) (hw : window.Perm window') :
    PlacesEach window' keyLength found := by
  obtain ⟨line, position, hperm, hplaces, hfound⟩ := h
  exact ⟨line, position, hperm.trans hw, hplaces, hfound⟩

/-- Where three lines place every matrix, each matrix has a line to itself. -/
theorem exists_perm_of_positioned {window : List String} (full : window.length = layoutWindow)
    {position : Matrix → UInt64} (h : ∀ m, Positioned window m (position m)) :
    ∃ line : Matrix → String, (Matrix.all.map line).Perm window ∧
      ∀ m, Places (line m) m (position m) := by
  choose line hmem hplaces using fun m => positioned_iff.mp (h m)
  have htoken (m : Matrix) :
      ∃ token, Entry.positionToken? m.symbol.toList (line m).toList = some token := by
    obtain ⟨token, ht, -⟩ := places_iff.mp (hplaces m)
    exact ⟨token, ht⟩
  exact ⟨line, (subperm_of_names hmem htoken).perm_of_length_le (Nat.le_of_eq full), hplaces⟩

/-! ### Reading a layout -/

/-- Positions are found in up to three lines just when the lines are three and place each matrix. -/
theorem matricesIn_eq_ok_iff {window : List String} (short : window.length ≤ layoutWindow)
    {number : Nat} {keyLength : UInt64} {found : LayoutMatrices} :
    matricesIn number keyLength window = .ok found ↔ PlacesEach window keyLength found := by
  constructor
  · intro h
    rcases readsWell_or_unread window with read | ⟨m, token, ht, hu, before⟩
    · by_cases hmissing : missingIn window = []
      · obtain ⟨full, positioned⟩ := positioned_of_readsWell short read hmissing
        choose position hposition using positioned
        obtain ⟨line, hperm, hplaces⟩ := exists_perm_of_positioned full hposition
        rw [matricesIn_of_positioned full (hposition .keys) (hposition .press)
          (hposition .release)] at h
        exact ⟨line, position, hperm, hplaces, (Except.ok.inj h).symm⟩
      · rw [matricesIn_of_missing read hmissing] at h
        cases h
    · rw [matricesIn_of_unread ht hu before] at h
      cases h
  · intro h
    have full := h.length_eq
    obtain ⟨line, position, hperm, hplaces, rfl⟩ := h
    have positioned (m : Matrix) : Positioned window m (position m) :=
      positioned_iff.mpr ⟨line m, hperm.mem_iff.mp (List.mem_map_of_mem (by cases m <;> decide)),
        hplaces m⟩
    exact matricesIn_of_positioned full (positioned .keys) (positioned .press)
      (positioned .release) number keyLength

/-- A layout is read just when the lines that its header calls for are text and place each matrix. -/
theorem layoutAfter_eq_ok_iff {header : String} {length : UInt64} (gives : GivesLength header length)
    {number : Nat} {rest : List Line} {found : LayoutMatrices} :
    layoutAfter number header rest = .ok found ↔
      ∃ window, rest.take layoutWindow = readable window ∧
        PlacesEach window (length / layoutShares) found := by
  have short {window : List String} (htake : rest.take layoutWindow = readable window) :
      window.length ≤ layoutWindow := by
    rw [← Files.length_readable, ← htake]
    exact List.length_take_le ..
  constructor
  · intro h
    obtain ⟨window, htake⟩ := readable_of_layoutAfter h
    rw [layoutAfter_of_take gives htake, matricesIn_eq_ok_iff (short htake)] at h
    exact ⟨window, htake, h⟩
  · rintro ⟨window, htake, h⟩
    rw [layoutAfter_of_take gives htake]
    exact (matricesIn_eq_ok_iff (short htake)).mpr h

/-- **A layout is read just when it is complete, in any order.** With a header that gives the
length of its section, the next three lines are read as its matrices just when they end in the
three symbols, each after a position, and every matrix gets the position on its own line. So the
lines may change places, and fewer than three are never enough. -/
theorem layoutAfter_complete {header : String} {length : UInt64} (gives : GivesLength header length)
    (number : Nat) :
    (∀ (a b c : String) (later : List Line) (found : LayoutMatrices),
      layoutAfter number header (.ok a :: .ok b :: .ok c :: later) = .ok found ↔
        PlacesEach [a, b, c] (length / layoutShares) found) ∧
    (∀ (window window' : List String) (later later' : List Line) (found : LayoutMatrices),
      window.length = layoutWindow → window.Perm window' →
      layoutAfter number header (readable window ++ later) = .ok found →
      layoutAfter number header (readable window' ++ later') = .ok found) ∧
    ∀ (rest : List Line) (found : LayoutMatrices), rest.length < layoutWindow →
      layoutAfter number header rest ≠ .ok found := by
  have reads (window : List String) (full : window.length = layoutWindow) {later : List Line}
      {found : LayoutMatrices} : layoutAfter number header (readable window ++ later) = .ok found ↔
        PlacesEach window (length / layoutShares) found := by
    have htake : (readable window ++ later).take layoutWindow = readable window :=
      List.take_left' (by rw [Files.length_readable, full])
    rw [layoutAfter_of_take gives htake, matricesIn_eq_ok_iff (Nat.le_of_eq full)]
  refine ⟨fun a b c later found => reads [a, b, c] rfl,
    fun window window' later later' found full hw h => ?_, fun rest found hshort h => ?_⟩
  · exact (reads window' (hw.length_eq.symm.trans full)).mpr (((reads window full).mp h).perm hw)
  · obtain ⟨window, htake, hplaces⟩ := (layoutAfter_eq_ok_iff gives).mp h
    have hlength := congrArg List.length htake
    rw [Files.length_readable, hplaces.length_eq, List.length_take] at hlength
    omega

/-- The matrix of keys comes second here, and its position begins inside a token. -/
theorem layoutAfter_complete_shuffled :
    let header := ".progmem.data.layout 0x68 0x690 l.o"
    let window := [" 0x1f4 _kb_layout_press", "\tl.o:0x68 _kb_layout", " 0x50c  _kb_layout_release "]
    let found := LayoutMatrices.ofKeyLength 336 0x68 0x1f4 0x50c
    GivesLength header 0x690 ∧ PlacesEach window 336 found ∧
      layoutAfter 1 header (readable window) = .ok found ∧
      layoutAfter 1 header (readable window.reverse) = .ok found ∧
      layoutAfter 1 header (readable (window.take 2)) ≠ .ok found := by
  intro header window found
  have gives : GivesLength header 0x690 :=
    ⟨"0x68".toList, "0x690".toList, by decide +kernel, by decide +kernel⟩
  have hread : layoutAfter 1 header (readable window) = .ok found := by decide +kernel
  obtain ⟨complete, shuffled, short⟩ := layoutAfter_complete gives 1
  exact ⟨gives, (complete _ _ _ [] found).mp hread, hread,
    shuffled window window.reverse [] [] found rfl window.reverse_perm.symm hread,
    short (readable (window.take 2)) found (by decide)⟩

end KeyboardInfo.LinkerMap
