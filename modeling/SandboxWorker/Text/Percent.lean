import SandboxWorker.Text.Hex
import SandboxWorker.Text.Utf8
/-! Percent encoding: every byte but letters, digits and four marks becomes a percent sign and two
hexadecimal digits. Reading takes every such spelling. -/
namespace SandboxWorker.Percent

def isPlain (b : UInt8) : Bool :=
  (0x41 ≤ b && b ≤ 0x5A) || (0x61 ≤ b && b ≤ 0x7A) || (0x30 ≤ b && b ≤ 0x39) ||
    b == 0x2D || b == 0x5F || b == 0x2E || b == 0x7E

def encodeByte (b : UInt8) : List Char :=
  if isPlain b then [Char.ofNat b.toNat]
  else ['%', Hex.upper (b.toNat / 16), Hex.upper (b.toNat % 16)]

def encode (s : String) : String := String.ofList ((Utf8.encode s).flatMap encodeByte)

/-- The bytes of a text; a percent sign without two digits stands for itself. -/
def decode : List Char → Bytes
  | '%' :: a :: b :: cs =>
    match Hex.digit? a, Hex.digit? b with
    | some x, some y => UInt8.ofNat (x * 16 + y) :: decode cs
    | _, _ => 0x25 :: decode (a :: b :: cs)
  | c :: cs => String.utf8EncodeChar c ++ decode cs
  | [] => []

end SandboxWorker.Percent
