import KilnLang.Ty

/-!
# Data models

A data model gives C's integer types their widths. Types keep symbolic widths up to this point, so
one unit can be written for several platforms.
-/

namespace KilnLang

/-- The data models: of Unix with 64 bits, of Windows with 64 bits, and of 32 bits. -/
inductive DataModel where
  | lp64
  | llp64
  | ilp32
  deriving DecidableEq, Repr, Inhabited

namespace DataModel

/-- All data models. -/
def all : List DataModel := [.lp64, .llp64, .ilp32]

/-- The name of a data model. -/
def name : DataModel → String
  | .lp64 => "lp64"
  | .llp64 => "llp64"
  | .ilp32 => "ilp32"

/-- The data model with a name in any case. -/
def ofName? (name : String) : Option DataModel := all.find? (·.name == name.toLower)

/-- The number of bits of an integer type of C. Only `long` differs. -/
def bits (m : DataModel) : CWidth → Nat
  | .char => 8
  | .short => 16
  | .int => 32
  | .long =>
    match m with
    | .lp64 => 64
    | .llp64 | .ilp32 => 32
  | .longLong => 64

/-- The number of bits of an integer width. -/
def widthBits (m : DataModel) : IntWidth → Nat
  | .fixed bits => bits
  | .platform width => m.bits width

end DataModel

end KilnLang
