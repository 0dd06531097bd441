import PatternTraversal.Arrangement.Basic
import PatternTraversal.Digest.Xxh64
import PatternTraversal.Expression.Encoding

/-!
# Fingerprints

A key for caching plans: the digest of the expressions in the order of an arrangement.
-/

namespace PatternTraversal

namespace Arrangement

/-- Bytes of a list of ordered expressions: their number, then each of them. -/
def encodeOrdered (exps : List Expression) : List UInt8 :=
  LittleEndian.encode (UInt64.ofNat exps.length) ++ exps.flatMap Expression.encode

/-- Bytes of the expressions of a list in this order, as they are digested. -/
def fingerprintBytes (a : Arrangement) (exps : List Expression) : Except PlanError (List UInt8) :=
  match a.apply exps with
  | .error error => .error error
  | .ok ordered => .ok (encodeOrdered ordered)

/-- Digest of the expressions of a list in this order. -/
def fingerprint (a : Arrangement) (exps : List Expression) : Except PlanError UInt64 :=
  (a.fingerprintBytes exps).map Xxh64.hash

end Arrangement

end PatternTraversal
