import Folio.Atom
import Folio.Yaml.Error
import Folio.Yaml.Source

/-!
# Timestamps

A timestamp is a day, or a day with a time. The year has four digits, and months and days below ten
may have one. A zone may follow the time: a `Z`, or a difference from universal time, whose text is
the name of the zone. **A day without a time is plain only if its month and its day have two
digits**; otherwise a tag must say that it is one.

* `Timestamp.read?` reads the numbers of a timestamp.
* `Timestamp.atom` is the day or the moment, if the calendar has it.
-/

namespace Folio

namespace Yaml

/-! ## Reading -/

/-- A time as a timestamp writes it. -/
structure TimeOfDay where
  hour : Nat
  minute : Nat
  second : Nat
  fraction : Text
  zone : Option Zone

structure Timestamp where
  day : Day
  time : Option TimeOfDay

namespace Timestamp

/-- Reads a number with at least and at most some digits. -/
def number? (least most : Nat) (s : Text) : Option (Nat × Text) :=
  let digits := (s.take most).takeWhile Char.isDigit
  if digits.length < least then none
  else some (Decimal.natOf digits, s.drop digits.length)

/-- What follows the sign or the gap between a day and a time. -/
def afterDay? : Text → Option Text
  | 'T' :: s | 't' :: s => some s
  | c :: s => if isGap c then some (s.dropWhile isGap) else none
  | [] => none

/-- Reads the fraction of a second. -/
def fraction : Text → Text × Text
  | '.' :: s => (s.takeWhile Char.isDigit, s.dropWhile Char.isDigit)
  | s => ([], s)

/-- Reads hours and perhaps minutes to the end. -/
def minutes? (s : Text) : Option Nat := do
  let (hours, s) ← number? 1 2 s
  match s with
  | [] => some (60 * hours)
  | _ => do
      let (minutes, s) ← number? 2 2 (← Text.after? [':'] s)
      if s = [] then some (60 * hours + minutes) else none

/-- Reads a zone, or nothing, to the end. -/
def zone? (s : Text) : Option (Option Zone) :=
  match s, s.dropWhile isGap with
  | [], _ => some none
  | _, ['Z'] => some (some ⟨0, ['Z']⟩)
  | _, '+' :: r => (minutes? r).map fun n => some ⟨n, '+' :: r⟩
  | _, '-' :: r => (minutes? r).map fun n => some ⟨-(n : Int), '-' :: r⟩
  | _, _ => none

/-- Reads a time to the end. -/
def time? (s : Text) : Option TimeOfDay := do
  let (hour, s) ← number? 1 2 s
  let (minute, s) ← number? 2 2 (← Text.after? [':'] s)
  let (second, s) ← number? 2 2 (← Text.after? [':'] s)
  let (fraction, s) := fraction s
  return ⟨hour, minute, second, fraction, ← zone? s⟩

def read? (s : Text) : Option Timestamp := do
  let (year, r) ← number? 4 4 s
  let (month, r) ← number? 1 2 (← Text.after? ['-'] r)
  let (day, r) ← number? 1 2 (← Text.after? ['-'] r)
  match r with
  | [] => some ⟨⟨year, month, day⟩, none⟩
  | _ => some ⟨⟨year, month, day⟩, ← time? (← afterDay? r)⟩

/-- Whether a timestamp with this text needs no tag. -/
def isPlain (t : Timestamp) (s : Text) : Bool := t.time.isSome || s.length == 10

/-! ## Days and moments -/

/-- The fraction of a second in millionths, rounded. -/
def micros (fraction : Text) : Nat :=
  let digits := (fraction ++ List.replicate 6 '0').take 6
  Decimal.natOf digits + (if (fraction.drop 6).head?.any (fun c => decide ('4' < c)) then 1 else 0)

def nextSecond (d : Day) (c : Clock) : Day × Clock :=
  if c.second < 59 then (d, { c with second := c.second + 1 })
  else if c.minute < 59 then (d, ⟨c.hour, c.minute + 1, 0, c.micro⟩)
  else if c.hour < 23 then (d, ⟨c.hour + 1, 0, 0, c.micro⟩)
  else (d.next, ⟨0, 0, 0, c.micro⟩)

/-- The moment at a time of a day. A fraction that is rounded to a whole second is carried over,
perhaps beyond the calendar. -/
def moment (d : Day) (t : TimeOfDay) : Except Error Atom :=
  let n := micros t.fraction
  let c : Clock := ⟨t.hour, t.minute, t.second, n % 1000000⟩
  if d.isDay && c.isTime && t.zone.all Zone.isZone then
    let (d, c) := if n < 1000000 then (d, c) else nextSecond d c
    if d.isDay then .ok (.moment d c t.zone) else .error .outOfRange
  else .error .illWritten

/-- The day or the moment of a timestamp, if the calendar has it. -/
def atom (t : Timestamp) : Except Error Atom :=
  match t.time with
  | none => if t.day.isDay then .ok (.day t.day) else .error .illWritten
  | some time => moment t.day time

end Timestamp

end Yaml

end Folio
