import InferenceEngine.Options.Toml.Number

/-!
# Dates and times in TOML documents

A document may hold a date, a time of day, or both, then perhaps with an offset from the time of the
meridian. No option is one of these, so nothing is computed with them: a configuration keeps the
text that they are shown as.

* `Toml.moment?` reads a date or a time from the front of a list of characters.
* `Moment.text` is how one is shown.
-/

namespace InferenceEngine.Toml

/-! ## What is read -/

/-- The number of days of a month. Every fourth year has a day more in its second month, but of the
years that end a century only every fourth. -/
def daysIn (year month : Nat) : Nat :=
  if month = 2 then
    if year % 4 = 0 ∧ (year % 100 ≠ 0 ∨ year % 400 = 0) then 29 else 28
  else if month = 4 ∨ month = 6 ∨ month = 9 ∨ month = 11 then 30
  else 31

/-- A date. -/
structure Date where
  /-- the year -/
  year : Nat
  /-- the month of the year -/
  month : Nat
  /-- the day of the month -/
  day : Nat
  /-- there is such a day -/
  exists_day : 1 ≤ month ∧ month ≤ 12 ∧ 1 ≤ day ∧ day ≤ daysIn year month

/-- A time of day. A minute may have a second more at its end. -/
structure Time where
  /-- the hour -/
  hour : Nat
  /-- the minute of the hour -/
  minute : Nat
  /-- the second of the minute -/
  second : Nat
  /-- the nanosecond of the second -/
  nanosecond : Nat
  /-- there is such a time -/
  exists_time : hour < 24 ∧ minute < 60 ∧ second ≤ 60

/-- How far a time is ahead of that of the meridian. -/
inductive Offset
  /-- it is that of the meridian -/
  | meridian
  /-- it is so many minutes ahead -/
  | ahead (minutes : Int)

/-- A date, a time, or both. -/
inductive Moment
  /-- a date -/
  | date (d : Date)
  /-- a time of any day -/
  | time (t : Time)
  /-- a time of a day, somewhere or at an offset -/
  | both (d : Date) (t : Time) (offset : Option Offset)

/-! ## Reading -/

/-- Leaves out a character that has to stand at the front. -/
def after? (c : Char) : List Char → Option (List Char)
  | x :: rest => if x = c then some rest else none
  | [] => none

/-- A number of exactly so many digits. -/
def field? (width : Nat) (cs : List Char) : Option (Nat × List Char) := do
  let ds ← Json.allSome (digitBelow? 10) (cs.take width)
  if ds.length = width then some (valueIn 10 ds, cs.drop width) else none

/-- A year, a month and a day. -/
def date? (cs : List Char) : Option (Date × List Char) := do
  let (year, cs) ← field? 4 cs
  let cs ← after? '-' cs
  let (month, cs) ← field? 2 cs
  let cs ← after? '-' cs
  let (day, cs) ← field? 2 cs
  if h : 1 ≤ month ∧ month ≤ 12 ∧ 1 ≤ day ∧ day ≤ daysIn year month then
    some (⟨year, month, day, h⟩, cs)
  else none

/-- A fraction of a second, in nanoseconds. Digits behind the ninth do not count. -/
def fraction? (cs : List Char) : Option (Nat × List Char) := do
  let cs ← after? '.' cs
  let part := cs.takeWhile fun c => (digitBelow? 10 c).isSome
  if part.isEmpty then none else
    let ds ← Json.allSome (digitBelow? 10) (part.take 9)
    return (valueIn 10 ds * Nat.pow 10 (9 - ds.length), cs.drop part.length)

/-- An hour, a minute and a second, perhaps with a fraction. -/
def time? (cs : List Char) : Option (Time × List Char) := do
  let (hour, cs) ← field? 2 cs
  let cs ← after? ':' cs
  let (minute, cs) ← field? 2 cs
  let cs ← after? ':' cs
  let (second, cs) ← field? 2 cs
  -- a point without digits is left to whoever reads on, and refused there
  let (nanosecond, cs) := (fraction? cs).getD (0, cs)
  if h : hour < 24 ∧ minute < 60 ∧ second ≤ 60 then
    some (⟨hour, minute, second, nanosecond, h⟩, cs)
  else none

/-- An offset: the letter for none, or a sign, hours and minutes. -/
def offset? : List Char → Option (Offset × List Char)
  | 'Z' :: rest | 'z' :: rest => some (.meridian, rest)
  | c :: rest =>
    if c = '+' ∨ c = '-' then do
      let (hours, cs) ← field? 2 rest
      let cs ← after? ':' cs
      let (minutes, cs) ← field? 2 cs
      if hours < 24 ∧ minutes < 60 then
        let ahead : Int := 60 * hours + minutes
        some (.ahead (if c = '-' then -ahead else ahead), cs)
      else none
    else none
  | [] => none

/-- The time behind a date, with its offset. A letter or a blank divides the two. -/
def timeOf? : List Char → Option ((Time × Option Offset) × List Char)
  | c :: rest =>
    if c = 'T' ∨ c = 't' ∨ c = ' ' then do
      let (t, rest) ← time? rest
      -- without an offset the time is that of no particular place
      match offset? rest with
      | some (offset, rest) => return ((t, some offset), rest)
      | none => return ((t, none), rest)
    else none
  | [] => none

/-- A date, a time, or both. What follows a date and is no time does not belong to it. -/
def moment? (cs : List Char) : Option (Moment × List Char) :=
  match date? cs with
  | none => (time? cs).map fun (t, rest) => (.time t, rest)
  | some (d, rest) =>
    match timeOf? rest with
    | some ((t, offset), rest) => some (.both d t offset, rest)
    -- the letter or blank behind the date is not taken either
    | none => some (.date d, rest)

/-! ## Showing -/

/-- A number with zeros in front up to a width. -/
def padded (width n : Nat) : String :=
  String.ofList (List.leftpad width '0' (Nat.toDigits 10 n))

/-- How a date is shown. -/
def Date.text (d : Date) : String :=
  padded 4 d.year ++ "-" ++ padded 2 d.month ++ "-" ++ padded 2 d.day

/-- How a time is shown: without a fraction if there is none, else without zeros at its end. -/
def Time.text (t : Time) : String :=
  let whole := padded 2 t.hour ++ ":" ++ padded 2 t.minute ++ ":" ++ padded 2 t.second
  if t.nanosecond = 0 then whole
  else
    let digits := (padded 9 t.nanosecond).toList.reverse.dropWhile (· = '0')
    whole ++ "." ++ String.ofList digits.reverse

/-- How an offset is shown. -/
def Offset.text : Offset → String
  | meridian => "Z"
  | ahead minutes =>
    let n := minutes.natAbs
    (if minutes < 0 then "-" else "+") ++ padded 2 (n / 60) ++ ":" ++ padded 2 (n % 60)

/-- How a moment is shown. -/
def Moment.text : Moment → String
  | date d => d.text
  | time t => t.text
  | both d t offset => d.text ++ "T" ++ t.text ++ (offset.map Offset.text).getD ""

end InferenceEngine.Toml
