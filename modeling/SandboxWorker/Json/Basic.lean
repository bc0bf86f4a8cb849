import SandboxWorker.Text.Decimal
import SandboxWorker.Text.Hex
/-! JSON values, and their compact text: no blanks, members in order, every character that JSON lets
stand as it is left as it is. -/
namespace SandboxWorker

inductive Json where
  | null
  | bool (b : Bool)
  | int (n : Int)
  /-- A number that is no 64-bit integer, as spelled. -/
  | real (spelling : String)
  | str (s : String)
  | arr (items : List Json)
  | obj (members : List (String × Json))

namespace Json

def escapeChar (c : Char) : List Char :=
  if c = '"' then ['\\', '"']
  else if c = '\\' then ['\\', '\\']
  else if c.toNat = 0x08 then ['\\', 'b']
  else if c.toNat = 0x0C then ['\\', 'f']
  else if c.toNat = 0x0A then ['\\', 'n']
  else if c.toNat = 0x0D then ['\\', 'r']
  else if c.toNat = 0x09 then ['\\', 't']
  else if c.toNat < 0x20 then
    '\\' :: 'u' :: Hex.fixed 4 c.toNat
  else [c]

def stringText (s : String) : List Char := '"' :: s.toList.flatMap escapeChar ++ ['"']

mutual

def text : Json → List Char
  | .null => "null".toList
  | .bool b => (if b then "true" else "false").toList
  | .int n => Decimal.ofInt n
  | .real spelling => spelling.toList
  | .str s => stringText s
  | .arr items => '[' :: itemsText items
  | .obj members => '\x7b' :: membersText members

def itemsText : List Json → List Char
  | [] => [']']
  | [item] => item.text ++ [']']
  | item :: items => item.text ++ ',' :: itemsText items

def membersText : List (String × Json) → List Char
  | [] => ['\x7d']
  | [(key, item)] => stringText key ++ ':' :: item.text ++ ['\x7d']
  | (key, item) :: members => stringText key ++ ':' :: item.text ++ ',' :: membersText members

end

def toString (j : Json) : String := String.ofList j.text

end Json
end SandboxWorker
