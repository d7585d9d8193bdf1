import TraceTree.Text

/-!
Dates and times as TOML writes them: a date, a time, or both with an optional distance from
universal time. Seconds may be left out, and a minute may have a leap second.
-/
namespace TraceTree.Toml.Moment

/-- The number that the first `width` characters spell, which must be digits. -/
def field? (width : Nat) (cs : List Char) : Option (Nat × List Char) := do
  guard (width ≤ cs.length)
  return (← Text.digits? (cs.take width), cs.drop width)

/-- A field that a mark precedes. -/
def markedField? (mark : Char) (width : Nat) : List Char → Option (Nat × List Char)
  | c :: cs => if c = mark then field? width cs else none
  | [] => none

def isLeapYear (year : Nat) : Bool := year % 4 == 0 && (year % 100 != 0 || year % 400 == 0)

def daysInMonth (year month : Nat) : Nat :=
  if month = 2 then if isLeapYear year then 29 else 28
  else if month = 4 ∨ month = 6 ∨ month = 9 ∨ month = 11 then 30
  else 31

/-- What stands after a date. -/
def afterDate? (cs : List Char) : Option (List Char) := do
  let (year, cs) ← field? 4 cs
  let (month, cs) ← markedField? '-' 2 cs
  let (day, cs) ← markedField? '-' 2 cs
  guard (1 ≤ month ∧ month ≤ 12 ∧ 1 ≤ day ∧ day ≤ daysInMonth year month)
  return cs

/-- What stands after an optional fraction of a second. -/
def afterFraction? : List Char → Option (List Char)
  | '.' :: c :: cs => if c.isDigit then some (cs.dropWhile Char.isDigit) else none
  | '.' :: [] => none
  | cs => some cs

/-- What stands after hours and minutes. -/
def afterMinutes? (cs : List Char) : Option (List Char) := do
  let (hour, cs) ← field? 2 cs
  let (minute, cs) ← markedField? ':' 2 cs
  guard (hour < 24 ∧ minute < 60)
  return cs

/-- What stands after a time. -/
def afterTime? (cs : List Char) : Option (List Char) := do
  let cs ← afterMinutes? cs
  match cs with
  | ':' :: _ =>
    let (second, cs) ← markedField? ':' 2 cs
    guard (second ≤ 60)
    afterFraction? cs
  | cs => return cs

/-- What stands after an optional distance from universal time. -/
def afterOffset? : List Char → Option (List Char)
  | [] => some []
  | c :: cs =>
    if c = 'Z' ∨ c = 'z' then some cs
    else if c = '+' ∨ c = '-' then afterMinutes? cs
    else some (c :: cs)

/-- Whether the text is a date. -/
def isDate (cs : List Char) : Bool := afterDate? cs == some []

/-- Whether the text is a date, a time, or both. -/
def isMoment (cs : List Char) : Bool :=
  match afterDate? cs with
  | none => afterTime? cs == some []
  | some [] => true
  | some (c :: cs) =>
    (c == 'T' || c == 't' || c == ' ') && (afterTime? cs).bind afterOffset? == some []

end TraceTree.Toml.Moment
