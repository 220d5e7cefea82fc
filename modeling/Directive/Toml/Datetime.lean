import Directive.Number.Decimal
import Directive.Toml.Text

/-!
# TOML dates and times

A datetime is a date, a time of day, or a date with a time and perhaps the offset of its clock from
universal time.  `Datetime.ofText?` reads one, and `Datetime.text` writes it in one form for all its
spellings: with a `T` between date and time, a `Z` for universal time, and a fraction of a second
cut to nine digits and without the zeros at its end.
-/

namespace Directive.Toml

/-- A day of the calendar. -/
structure Date where
  year : Nat
  month : Nat
  day : Nat
deriving DecidableEq, Repr

/-- A second of a minute, of which 60 is a leap second. -/
structure Second where
  whole : Nat
  /-- The fraction, if one is written. -/
  nanosecond : Option Nat
deriving DecidableEq, Repr

/-- A time of day; seconds may be left out. -/
structure Time where
  hour : Nat
  minute : Nat
  second : Option Second
deriving DecidableEq, Repr

/-- How far a clock is ahead of universal time. -/
inductive Offset where
  /-- The clock shows universal time. -/
  | universal
  | ahead (minutes : Int)
deriving DecidableEq, Repr

/-- A date, a time of day, or both. -/
inductive Datetime where
  | date (d : Date)
  | time (t : Time)
  | both (d : Date) (t : Time) (offset : Option Offset)
deriving DecidableEq, Repr

/-! ### Reading -/

/-- Reads a number of two digits. -/
def twoDigits? : List Char → Option (Nat × List Char)
  | a :: b :: cs =>
    if a.isDigit && b.isDigit then some (Decimal.ofDigits [a, b], cs) else none
  | _ => none

namespace Date

/-- The number of days of a month. -/
def daysIn (year month : Nat) : Nat :=
  if month = 2 then
    if year % 4 = 0 && (year % 100 != 0 || year % 400 = 0) then 29 else 28
  else if month = 4 || month = 6 || month = 9 || month = 11 then 30
  else 31

/-- Reads a date that is in the calendar. -/
def read? (cs : List Char) : Option (Date × List Char) := do
  let (century, cs) ← twoDigits? cs
  let (decade, cs) ← twoDigits? cs
  let (month, cs) ← twoDigits? (← after? '-' cs)
  let (day, cs) ← twoDigits? (← after? '-' cs)
  let year := 100 * century + decade
  if 1 ≤ month && month ≤ 12 && 1 ≤ day && day ≤ daysIn year month then
    some (⟨year, month, day⟩, cs)
  else none

end Date

/-- The number of nanoseconds in a fraction of a second with these digits; those from the tenth on
do not count. -/
def nanosecondsOfDigits (ds : List Char) : Nat :=
  Decimal.ofDigits ((ds ++ List.replicate 9 '0').take 9)

/-- Reads the fraction of a second, if there is one. -/
def fraction? : List Char → Option (Option Nat × List Char)
  | '.' :: cs =>
    let ds := cs.takeWhile Char.isDigit
    if ds.isEmpty then none else some (some (nanosecondsOfDigits ds), cs.dropWhile Char.isDigit)
  | cs => some (none, cs)

/-- Reads the seconds behind the minutes of a time, if there are any. -/
def Second.read? : List Char → Option (Option Second × List Char)
  | ':' :: cs => do
    let (whole, cs) ← twoDigits? cs
    let (nanosecond, cs) ← fraction? cs
    if 60 < whole then none else some (some ⟨whole, nanosecond⟩, cs)
  | cs => some (none, cs)

/-- Reads a time of day. -/
def Time.read? (cs : List Char) : Option (Time × List Char) := do
  let (hour, cs) ← twoDigits? cs
  let (minute, cs) ← twoDigits? (← after? ':' cs)
  let (second, cs) ← Second.read? cs
  if 23 < hour || 59 < minute then none else some (⟨hour, minute, second⟩, cs)

/-- The offset that is all of a text. -/
def Offset.ofText? : List Char → Option Offset
  | ['Z'] => some .universal
  | ['z'] => some .universal
  | sign :: cs => do
    let (hours, cs) ← twoDigits? cs
    let (minutes, cs) ← twoDigits? (← after? ':' cs)
    if 23 < hours || 59 < minutes || !cs.isEmpty then none
    else if sign = '+' then some (.ahead (60 * hours + minutes))
    else if sign = '-' then some (.ahead (-(60 * hours + minutes)))
    else none
  | [] => none

/-- The datetime that is all of a text. -/
def Datetime.ofText? (cs : List Char) : Option Datetime :=
  match Date.read? cs with
  | none => do
    let (t, rest) ← Time.read? cs
    if rest.isEmpty then some (.time t) else none
  | some (d, []) => some (.date d)
  | some (d, c :: rest) => do
    if c != 'T' && c != 't' && c != ' ' then none
    else
      let (t, rest) ← Time.read? rest
      if rest.isEmpty then some (.both d t none)
      else some (.both d t (some (← Offset.ofText? rest)))

/-! ### Writing -/

/-- A number in at least `width` digits. -/
def padded (width n : Nat) : List Char :=
  let ds := Nat.toDigits 10 n
  List.replicate (width - ds.length) '0' ++ ds

/-- The written form of a date. -/
def Date.text (d : Date) : List Char :=
  padded 4 d.year ++ '-' :: (padded 2 d.month ++ '-' :: padded 2 d.day)

/-- The digits of a fraction of a second, at least one. -/
def nanosecondDigits (n : Nat) : List Char :=
  let trimmed := ((padded 9 n).reverse.dropWhile (· == '0')).reverse
  if trimmed.isEmpty then ['0'] else trimmed

/-- The written form of a second. -/
def Second.text (s : Second) : List Char :=
  match s.nanosecond with
  | none => padded 2 s.whole
  | some n => padded 2 s.whole ++ '.' :: nanosecondDigits n

/-- The written form of a time. -/
def Time.text (t : Time) : List Char :=
  let minutes := padded 2 t.hour ++ ':' :: padded 2 t.minute
  match t.second with
  | none => minutes
  | some s => minutes ++ ':' :: s.text

/-- The written form of an offset. -/
def Offset.text : Offset → List Char
  | .universal => ['Z']
  | .ahead minutes =>
    let sign := if minutes < 0 then '-' else '+'
    sign :: (padded 2 (minutes.natAbs / 60) ++ ':' :: padded 2 (minutes.natAbs % 60))

/-- The written form of a datetime. -/
def Datetime.text : Datetime → List Char
  | .date d => d.text
  | .time t => t.text
  | .both d t offset => d.text ++ 'T' :: (t.text ++ (offset.map Offset.text).getD [])

end Directive.Toml
