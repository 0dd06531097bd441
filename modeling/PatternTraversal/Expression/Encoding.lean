import PatternTraversal.Digest.LittleEndian
import PatternTraversal.Expression.Basic

/-!
# Encoding expressions

The bytes that stand for an expression in a digest. Names are written in UTF-8, which never holds
the byte that ends them; the number of operands comes before the operands, and a tag byte before
each of them. The relationship variable is left out, and an operand without a relation is written as
one with the empty name.
-/

namespace PatternTraversal

/-- Byte that ends a name. -/
def nameEnd : UInt8 := 0xff

/-- The UTF-8 bytes of a name. -/
def nameBytes (name : String) : List UInt8 := name.toUTF8.toList

/-- Bytes of an operand. -/
def Operand.encode : Operand → List UInt8
  | adjacency relation source target transposed =>
    0 :: nameBytes (relation.getD "") ++ nameEnd :: nameBytes source.name ++
      nameEnd :: nameBytes target.name ++ [if transposed then 1 else 0]
  | label name ident => 1 :: nameBytes name ++ nameEnd :: nameBytes ident.name
  | mask name ident => 2 :: nameBytes name ++ nameEnd :: nameBytes ident.name

/-- Bytes of an expression. -/
def Expression.encode (e : Expression) : List UInt8 :=
  nameBytes e.source.name ++ nameEnd :: nameBytes e.target.name ++
    nameEnd :: LittleEndian.encode (UInt64.ofNat e.operands.length) ++
      e.operands.flatMap Operand.encode

end PatternTraversal
