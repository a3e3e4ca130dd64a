import Reckoner.Text

/-!
# Timestamps

A timestamp is a date, or a date and a time of day: after the letter T with a time zone, or after
spaces without one. Years have four digits; months, days, hours, minutes and seconds have one or
two, and seconds may have a fraction.
-/
namespace Reckoner
namespace Yaml
namespace Timestamp

/-- A number of one or two digits at the front of a text, and what follows it. -/
def number? (t : Text) : Option (Nat × Text) :=
  let digits := (t.take 2).takeWhile Text.isDigit
  if digits.isEmpty then none
  else some (digits.foldl (fun n b => 10 * n + (b.toNat - 48)) 0, t.drop digits.length)

/-- What follows a byte at the front of a text. -/
def after? (b : UInt8) : Text → Option Text
  | [] => none
  | c :: t => if c = b then some t else none

/-- The number of days of a month; 0 if there is no such month. -/
def daysIn (year month : Nat) : Nat :=
  let leap := year % 4 == 0 && (year % 100 != 0 || year % 400 == 0)
  match month with
  | 1 | 3 | 5 | 7 | 8 | 10 | 12 => 31
  | 4 | 6 | 9 | 11 => 30
  | 2 => if leap then 29 else 28
  | _ => 0

/-- What follows a date at the front of a text. -/
def afterDate? (t : Text) : Option Text := do
  let year := t.takeWhile Text.isDigit
  if year.length ≠ 4 then none
  let t ← after? (Text.byte '-') (t.drop 4)
  let (month, t) ← number? t
  let t ← after? (Text.byte '-') t
  let (day, t) ← number? t
  let year := year.foldl (fun n b => 10 * n + (b.toNat - 48)) 0
  if 1 ≤ day ∧ day ≤ daysIn year month then some t else none

/-- The text without a fraction at its front: digits after a point or a comma. -/
def dropFraction (t : Text) : Text :=
  match t with
  | mark :: digit :: _ =>
    if (mark = Text.byte '.' ∨ mark = Text.byte ',') ∧ Text.isDigit digit then
      (t.drop 1).dropWhile Text.isDigit
    else t
  | _ => t

/-- What follows a time of day at the front of a text. -/
def afterClock? (t : Text) : Option Text := do
  let (hour, t) ← number? t
  let t ← after? (Text.byte ':') t
  let (minute, t) ← number? t
  let t ← after? (Text.byte ':') t
  let (second, t) ← number? t
  if hour < 24 ∧ minute < 60 ∧ second < 60 then some (dropFraction t) else none

/-- Whether a text is a time zone: a Z, or a signed number of hours and minutes. -/
def isZone (t : Text) : Bool :=
  match t with
  | [z] => z == Text.byte 'Z'
  | [sign, h, h', colon, m, m'] =>
    (sign == Text.byte '+' || sign == Text.byte '-') && colon == Text.byte ':'
      && [h, h', m, m'].all Text.isDigit
      && (number? [h, h']).any (·.1 ≤ 24) && (number? [m, m']).any (·.1 ≤ 60)
  | _ => false

/-- Whether a text is a timestamp. -/
def isValid (t : Text) : Bool :=
  match afterDate? t with
  | none => false
  | some [] => true
  | some (b :: rest) =>
    if b = Text.byte 'T' ∨ b = Text.byte 't' then (afterClock? rest).any isZone
    else if b = Text.byte ' ' then
      (afterClock? (rest.dropWhile (· == Text.byte ' '))).any List.isEmpty
    else false

end Timestamp
end Yaml
end Reckoner
