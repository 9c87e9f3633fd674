import KilnLang.Ty

/-!
# Built-in types

The type names that every unit may use without declaring them.
-/

namespace KilnLang

/-- A type name known to every unit. -/
structure Builtin where
  name : String
  primitive : Primitive
  deriving DecidableEq, Repr, Inhabited

namespace Builtin

/-- The built-in types: names with a `c_` have the width that C gives the type. -/
def all : List Builtin := [
  ⟨"void", .void⟩,
  ⟨"bool", .bool⟩,
  ⟨"char", .char⟩,
  ⟨"str", .str⟩,
  ⟨"any", .any⟩,
  ⟨"size", .size⟩,
  ⟨"int", .int (.platform .int)⟩,
  ⟨"uint", .uint (.platform .int)⟩,
  ⟨"int8", .int (.fixed 8)⟩,
  ⟨"int16", .int (.fixed 16)⟩,
  ⟨"int32", .int (.fixed 32)⟩,
  ⟨"int64", .int (.fixed 64)⟩,
  ⟨"uint8", .uint (.fixed 8)⟩,
  ⟨"uint16", .uint (.fixed 16)⟩,
  ⟨"uint32", .uint (.fixed 32)⟩,
  ⟨"uint64", .uint (.fixed 64)⟩,
  ⟨"float", .float⟩,
  ⟨"double", .double⟩,
  ⟨"decimal", .decimal⟩,
  ⟨"c_char", .int (.platform .char)⟩,
  ⟨"c_uchar", .uint (.platform .char)⟩,
  ⟨"c_short", .int (.platform .short)⟩,
  ⟨"c_ushort", .uint (.platform .short)⟩,
  ⟨"c_int", .int (.platform .int)⟩,
  ⟨"c_uint", .uint (.platform .int)⟩,
  ⟨"c_long", .int (.platform .long)⟩,
  ⟨"c_ulong", .uint (.platform .long)⟩,
  ⟨"c_longlong", .int (.platform .longLong)⟩,
  ⟨"c_ulonglong", .uint (.platform .longLong)⟩]

/-- The primitive type of a built-in name. -/
def find? (name : String) : Option Primitive :=
  (all.find? (·.name == name)).map (·.primitive)

/-- Whether a name is built in. -/
def isBuiltin (name : String) : Bool := (find? name).isSome

end Builtin

end KilnLang
