import ClawHdf5.Format.Basic

/-!
# Messages

The messages of object headers that groups and datasets are linked and described by, in the form
the writer gives them. A datatype and a dataspace enter an attribute by their serialized forms.
-/

namespace ClawHdf5.Format

open Bytes

/-! ### Links -/

/-- What a link points to. -/
inductive LinkTarget
  | hard (objectHeaderAddress : ℕ)
  | soft (targetPath : String)
  | external (filename objectPath : String)
  deriving DecidableEq

/-- The encoding of a name. -/
inductive CharacterSet
  | ascii
  | utf8
  deriving DecidableEq

structure LinkMessage where
  name : String
  linkTarget : LinkTarget
  creationOrder : Option ℕ
  charset : CharacterSet
  deriving DecidableEq

/-- The number of bytes of a name's length, and the flag bits that say so. -/
def nameSizeWidth (nameLen : ℕ) : ℕ × ℕ :=
  if nameLen ≤ 0xff then (1, 0) else if nameLen ≤ 0xffff then (2, 1) else (4, 2)

/-- The value of a link: an address, or what is behind its length. -/
def LinkTarget.serialize (offsetSize : ℕ) : LinkTarget → Bytes
  | .hard objectHeaderAddress => leBytes offsetSize objectHeaderAddress
  | .soft targetPath =>
    leBytes 2 (utf8Bytes targetPath).length ++ utf8Bytes targetPath
  | .external filename objectPath =>
    let extData := 0 :: utf8Bytes filename ++ 0 :: utf8Bytes objectPath ++ [0]
    leBytes 2 extData.length ++ extData

/-- The type of a link, which is left out for hard links. -/
def LinkTarget.linkType : LinkTarget → Option ℕ
  | .hard _ => none
  | .soft _ => some 1
  | .external _ _ => some 64

def LinkMessage.serialize (link : LinkMessage) (offsetSize : ℕ) : Bytes :=
  let nameBytes := utf8Bytes link.name
  let (width, sizeBits) := nameSizeWidth nameBytes.length
  let flags := sizeBits ||| (if link.creationOrder.isSome then 0x04 else 0) |||
    (if link.linkTarget.linkType.isSome then 0x08 else 0) |||
    (if link.charset ≠ .ascii then 0x10 else 0)
  leBytes 1 1 ++ leBytes 1 flags ++ link.linkTarget.linkType.elim [] (leBytes 1) ++
    link.creationOrder.elim [] (leBytes 8) ++
    (if link.charset ≠ .ascii then leBytes 1 1 else []) ++
    leBytes width nameBytes.length ++ nameBytes ++ link.linkTarget.serialize offsetSize

/-! ### Attributes -/

/-- An attribute, with its datatype and its dataspace in their serialized forms. -/
structure AttributeMessage where
  name : String
  datatype : Bytes
  dataspace : Bytes
  rawData : Bytes
  deriving DecidableEq

namespace AttributeMessage

def serializeVersion (attr : AttributeMessage) (version : ℕ) : Bytes :=
  let nameBytes := utf8Bytes attr.name ++ [0]
  leBytes 1 version ++ leBytes 1 0 ++ leBytes 2 nameBytes.length ++
    leBytes 2 attr.datatype.length ++ leBytes 2 attr.dataspace.length ++
    (if 3 ≤ version then leBytes 1 0 else []) ++
    nameBytes ++ attr.datatype ++ attr.dataspace ++ attr.rawData

/-- Version 2, for object headers. -/
def serialize (attr : AttributeMessage) : Bytes := attr.serializeVersion 2

/-- Version 3, for dense storage. It has a character set. -/
def serializeV3 (attr : AttributeMessage) : Bytes := attr.serializeVersion 3

end AttributeMessage

theorem LinkMessage.serialize_ne_nil (link : LinkMessage) (offsetSize : ℕ) :
    link.serialize offsetSize ≠ [] := by
  rw [LinkMessage.serialize]
  exact List.cons_ne_nil _ _

theorem AttributeMessage.serializeV3_ne_nil (attr : AttributeMessage) : attr.serializeV3 ≠ [] := by
  rw [AttributeMessage.serializeV3, AttributeMessage.serializeVersion]
  exact List.cons_ne_nil _ _

end ClawHdf5.Format
