import SandboxWorker.Text.Decimal
import SandboxWorker.Text.Hex
import SandboxWorker.Text.Split
/-! Texts of IPv6 addresses: eight pieces of up to four hexadecimal digits, the last two of which
may stand as an IPv4 address. One gap of two colons stands for one missing piece or more. -/
namespace SandboxWorker.Ipv6

def isByte (ds : List Char) : Bool :=
  match Decimal.nat? ds with
  | some n => n ≤ 255 && (ds.length == 1 || ds.head? ≠ some '0')
  | none => false

def isIpv4 (cs : List Char) : Bool :=
  (Text.split '.' cs).length == 4 && (Text.split '.' cs).all isByte

/-- Whether pieces follow of which `left` are missing yet; `gap` tells whether a gap stands before
them. -/
def arePieces : Nat → Bool → List Char → Bool
  | left, gap, [] => gap || left == 0
  | 0, _, _ :: _ => false
  | left + 1, gap, ':' :: rest => !gap && arePieces left true rest
  | left + 1, gap, c :: cs =>
    let digits := ((c :: cs).take 4).takeWhile Hex.isDigit
    match (c :: cs).drop digits.length with
    | [] => gap || left == 0
    | ':' :: rest => rest ≠ [] && arePieces left gap rest
    | '.' :: _ => digits ≠ [] && (left == 1 || (gap && 1 < left)) && isIpv4 (c :: cs)
    | _ => false

/-- A colon in front can only be one of a gap. -/
def isIpv6 : List Char → Bool
  | ':' :: ':' :: rest => arePieces 7 true rest
  | ':' :: _ => false
  | cs => arePieces 8 false cs

end SandboxWorker.Ipv6
