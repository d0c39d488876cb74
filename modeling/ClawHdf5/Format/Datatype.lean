import ClawHdf5.Format.Messages

/-!
# Datatypes

The datatypes of the format, by the eleven classes its messages tell apart.
-/

namespace ClawHdf5.Format

inductive ByteOrder
  | littleEndian
  | bigEndian
  | vax
  deriving DecidableEq

inductive StringPadding
  | nullTerminate
  | nullPad
  | spacePad
  deriving DecidableEq

inductive ReferenceType
  | object
  | datasetRegion
  deriving DecidableEq

/-- A datatype. Members of a compound have a name, a byte offset and a type; those of an
enumeration a name and the bytes of a value. -/
inductive Datatype
  | fixedPoint (size : ℕ) (byteOrder : ByteOrder) (signed : Bool) (bitOffset bitPrecision : ℕ)
  | floatingPoint (size : ℕ) (byteOrder : ByteOrder) (bitOffset bitPrecision exponentLocation
      exponentSize mantissaLocation mantissaSize exponentBias : ℕ)
  | time (size bitPrecision : ℕ)
  | string (size : ℕ) (padding : StringPadding) (charset : CharacterSet)
  | bitField (size : ℕ) (byteOrder : ByteOrder) (bitOffset bitPrecision : ℕ)
  | opaqueTag (size : ℕ) (tag : Bytes)
  | compound (size : ℕ) (members : List (String × ℕ × Datatype))
  | reference (size : ℕ) (refType : ReferenceType)
  | enumeration (size : ℕ) (baseType : Datatype) (members : List (String × Bytes))
  | variableLength (isString : Bool) (padding : Option StringPadding)
      (charset : Option CharacterSet) (baseType : Datatype)
  | array (baseType : Datatype) (dimensions : List ℕ)

namespace Datatype

/-- The size of a value in bytes. Sizes are 32-bit words, and products saturate. -/
def typeSize : Datatype → ℕ
  | fixedPoint size .. | floatingPoint size .. | time size _ | string size .. | bitField size ..
  | opaqueTag size _ | compound size _ | reference size _ | enumeration size .. => size
  | variableLength .. => 16
  | array baseType dimensions =>
    let count := dimensions.foldl (fun a b => min (a * b) (2 ^ 32 - 1)) 1
    min (baseType.typeSize * count) (2 ^ 32 - 1)

/-- The name of a class in errors. -/
def datatypeName : Datatype → String
  | fixedPoint .. => "FixedPoint"
  | floatingPoint .. => "FloatingPoint"
  | time .. => "Time"
  | string .. => "String"
  | bitField .. => "BitField"
  | opaqueTag .. => "Opaque"
  | compound .. => "Compound"
  | reference .. => "Reference"
  | enumeration .. => "Enumeration"
  | variableLength .. => "VariableLength"
  | array .. => "Array"

end Datatype

end ClawHdf5.Format
