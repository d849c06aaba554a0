import BoundValues.Text.Numeral

namespace BoundValues

/-- An integer type. `isize` and `usize` have 64 bits. -/
inductive IntegerType
  | i8 | i16 | i32 | i64 | isize | u8 | u16 | u32 | u64 | usize
deriving DecidableEq, Repr

namespace IntegerType

def signed : IntegerType → Bool
  | i8 | i16 | i32 | i64 | isize => true
  | u8 | u16 | u32 | u64 | usize => false

def bits : IntegerType → Nat
  | i8 | u8 => 8
  | i16 | u16 => 16
  | i32 | u32 => 32
  | i64 | u64 | isize | usize => 64

def name : IntegerType → String
  | i8 => "i8" | i16 => "i16" | i32 => "i32" | i64 => "i64" | isize => "isize"
  | u8 => "u8" | u16 => "u16" | u32 => "u32" | u64 => "u64" | usize => "usize"

def all : List IntegerType := [i8, i16, i32, i64, isize, u8, u16, u32, u64, usize]

def ofName? (name : String) : Option IntegerType := all.find? fun t => t.name = name

def size (t : IntegerType) : Nat := 1 <<< t.bits

def least (t : IntegerType) : Int := if t.signed then -Int.ofNat (t.size / 2) else 0

def greatest (t : IntegerType) : Int := if t.signed then t.size / 2 - 1 else t.size - 1

def Holds (t : IntegerType) (i : Int) : Prop := t.least ≤ i ∧ i ≤ t.greatest

/-- The number of the type that agrees with an integer in all its bits. -/
def wrap (t : IntegerType) (i : Int) : Int :=
  if t.signed then i.bmod t.size else i % t.size

def read (t : IntegerType) (cs : List Char) : Option Int := Text.readBounded t.least t.greatest cs

end IntegerType

end BoundValues
