/-! Room in memory.

Room for many things at once is asked for in one piece, before anything is put there.
Whoever asks for a larger piece than there can be breaks the program off. A piece that
there can be is always found: memory does not run out. -/
namespace KeyboardInfo

/-- What breaks the program off in the midst of its work. -/
inductive Crash where
  /-- A piece of memory is asked for that is larger than any can be. -/
  | capacityOverflow
  deriving DecidableEq, Repr

def Crash.message : Crash → String
  | .capacityOverflow => "capacity overflow"

namespace Memory

/-- The most bytes that a piece of memory can have, less than half of those with an address. -/
def largest : Nat := UInt64.size / 2 - 1

/-- Asks for room for so many things of some size. -/
def reserve (count size : Nat) : Except Crash Unit :=
  if count * size ≤ largest then .ok () else .error .capacityOverflow

theorem reserve_of_lt {count size : Nat} (h : count * size < UInt64.size / 2) :
    reserve count size = .ok () := if_pos (Nat.le_sub_one_of_lt h)

theorem reserve_of_le {count size : Nat} (h : UInt64.size / 2 ≤ count * size) :
    reserve count size = .error .capacityOverflow :=
  if_neg (Nat.not_le.mpr (Nat.lt_of_lt_of_le (by decide) h))

end Memory

end KeyboardInfo
