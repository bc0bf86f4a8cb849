import SandboxWorker.Text.Decimal
/-! Settings looked up by name. A number that does not read, or does not fit, counts as not set. -/
namespace SandboxWorker

abbrev Lookup := String → Option String

namespace Lookup

def empty : Lookup := fun _ => none

/-- The settings of a list; of two of one name the first counts. -/
def ofList (settings : List (String × String)) : Lookup := fun name => settings.lookup name

def text (l : Lookup) (name default : String) : String := (l name).getD default

def natBelow (l : Lookup) (bound : Nat) (name : String) (default : Nat) : Nat :=
  ((l name).bind fun s => Decimal.natBelow? bound s.toList).getD default

def nat64 (l : Lookup) (name : String) (default : Nat) : Nat :=
  l.natBelow 0x10000000000000000 name default

def nat16 (l : Lookup) (name : String) (default : Nat) : Nat := l.natBelow 0x10000 name default

def int64 (l : Lookup) (name : String) (default : Int64) : Int64 :=
  ((l name).bind fun s => Decimal.int64? s.toList).getD default

end Lookup
end SandboxWorker
