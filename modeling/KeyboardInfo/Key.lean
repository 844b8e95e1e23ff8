/-! The keys of a report that more than one of its parts writes or reads. -/
namespace KeyboardInfo.Key

/-! ### Sections -/

/-- One record for each keyboard function, by name. -/
def keyboardFunctions : String := "keyboard-functions"

/-- One record for each layout matrix, by symbol. -/
def layoutMatrices : String := "layout-matrices"

/-- What a report says about itself. -/
def metaData : String := ".meta-data"

/-- The commit of the firmware, and what is computed from the rest of the report. -/
def miscellaneous : String := "miscellaneous"

/-! ### Records -/

/-- Where a symbol lies in the image. -/
def position : String := "position"

/-- How many bytes a symbol takes. -/
def length : String := "length"

/-- What the comment above a function says. -/
def comments : String := "comments"

end KeyboardInfo.Key
