import SandboxWorker.Instant.Basic
import SandboxWorker.Text.Decimal
/-! Instants as text. Both forms end in Z; they differ in how much of the fraction they write. -/
namespace SandboxWorker.Instant

def yearText (year : Int) : List Char :=
  if 0 ≤ year ∧ year ≤ 9999 then Decimal.fixed 4 year.natAbs
  else (if year < 0 then '-' else '+') :: Decimal.padded 4 year.natAbs

/-- The fraction in whole thousandths, millionths or billionths, whichever comes first; a whole
second has none. -/
def fractionText (nano : Nat) : List Char :=
  if nano = 0 then []
  else if nano % 1000000 = 0 then '.' :: Decimal.fixed 3 (nano / 1000000)
  else if nano % 1000 = 0 then '.' :: Decimal.fixed 6 (nano / 1000)
  else '.' :: Decimal.fixed 9 nano

def Civil.text (c : Civil) : List Char :=
  yearText c.date.year ++ '-' :: Decimal.fixed 2 c.date.month ++
    '-' :: Decimal.fixed 2 c.date.day ++ 'T' :: Decimal.fixed 2 c.hour ++
    ':' :: Decimal.fixed 2 c.minute ++ ':' :: Decimal.fixed 2 c.second

/-- The form of event fields: the shortest exact fraction. -/
def text (t : Instant) : List Char := t.civil.text ++ fractionText t.civil.nano ++ ['Z']

/-- The form of log frames: always nine digits of fraction. -/
def stamp (t : Instant) : List Char := t.civil.text ++ '.' :: Decimal.fixed 9 t.civil.nano ++ ['Z']

end SandboxWorker.Instant
