/-! Points in time as reports give them. -/
namespace KeyboardInfo.Report

/-- A local time with the distance of its zone from universal time. -/
structure Timestamp where
  year : Nat
  month : Nat
  day : Nat
  hour : Nat
  minute : Nat
  second : Nat
  /-- The distance of the zone in minutes, positive to the east. -/
  zone : Int
  deriving DecidableEq, Repr

/-- A number with zeros in front up to some width. -/
def padded (width n : Nat) : String :=
  let digits := Nat.toDigits 10 n
  String.ofList (List.replicate (width - digits.length) '0' ++ digits)

/-- A point in time as `YYYY-MM-DD hh:mm:ss+zz:zz`. -/
def Timestamp.render (t : Timestamp) : String :=
  let date := s!"{padded 4 t.year}-{padded 2 t.month}-{padded 2 t.day}"
  let time := s!"{padded 2 t.hour}:{padded 2 t.minute}:{padded 2 t.second}"
  let sign := if t.zone < 0 then "-" else "+"
  let zone := s!"{padded 2 (t.zone.natAbs / 60)}:{padded 2 (t.zone.natAbs % 60)}"
  s!"{date} {time}{sign}{zone}"

end KeyboardInfo.Report
