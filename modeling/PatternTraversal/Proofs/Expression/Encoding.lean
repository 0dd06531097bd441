import Mathlib.Algebra.Group.Nat.Defs
import Mathlib.Data.List.Forall2
import PatternTraversal.Expression.Encoding
import PatternTraversal.Proofs.Expression.Construction

/-!
# Reading encoded expressions back

The bytes of a name never hold the byte that ends names, so the parts of an encoding can be read off
from the left: the two aliases, the number of operands, then one operand after the other. The last
name of an operand has no end of its own. For labels and masks it is the alias where the operand
starts, which is known from the operand before it. For relationships it is followed by the byte of
the direction, which is told from the name only if the name keeps off that byte, or if it is known
where the chain ends.
-/

namespace PatternTraversal

/-! ## Words -/

namespace LittleEndian

/-- The bytes of a word hold its lowest bits. -/
theorem bytes_inj {count : Nat} {m n : UInt64} :
    bytes count m = bytes count n ↔ m.toNat % 256 ^ count = n.toNat % 256 ^ count := by
  induction count generalizing m n with
  | zero => simp [bytes, Nat.mod_one]
  | succ count ih =>
    have hbyte : m.toUInt8 = n.toUInt8 ↔ m.toNat % 256 = n.toNat % 256 := by
      simp [← UInt8.toNat_inj]
    have hshift (word : UInt64) : (word >>> 8).toNat = word.toNat / 256 := by
      simp [Nat.shiftRight_eq_div_pow]
    simp only [bytes, List.cons.injEq, hbyte, ih, hshift, pow_succ', Nat.mod_mul]
    constructor
    · rintro ⟨hlow, hhigh⟩
      rw [hlow, hhigh]
    · intro h
      have := Nat.mod_lt m.toNat (by decide : 0 < 256)
      have := Nat.mod_lt n.toNat (by decide : 0 < 256)
      omega

/-- The eight bytes of a word determine it. -/
theorem encode_inj {m n : UInt64} : encode m = encode n ↔ m = n := by
  have hwidth : 256 ^ 8 = 2 ^ 64 := by decide
  rw [encode, encode, bytes_inj, hwidth, Nat.mod_eq_of_lt m.toNat_lt, Nat.mod_eq_of_lt n.toNat_lt,
    UInt64.toNat_inj]

end LittleEndian

/-! ## Names -/

/-- A byte array is listed from the given place on, behind the bytes listed before. -/
theorem toList_loop (array : ByteArray) (i : Nat) (listed : List UInt8) :
    ByteArray.toList.loop array i listed = listed.reverse ++ array.data.toList.drop i := by
  fun_induction ByteArray.toList.loop array i listed with
  | case1 i listed hsize ih =>
    have hplace : i < array.data.toList.length := hsize
    have hbyte : array.data.toList[i] = array.get! i := by
      simp [ByteArray.get!, getElem!_pos array.data i hsize]
    rw [ih, List.drop_eq_getElem_cons hplace, hbyte, List.reverse_cons, List.append_assoc,
      List.singleton_append]
  | case2 i listed hsize =>
    have hend : array.data.toList.length ≤ i := Nat.le_of_not_lt hsize
    rw [List.drop_eq_nil_of_le hend, List.append_nil]

/-- The bytes of a name are those of its characters. -/
theorem nameBytes_eq (name : String) :
    nameBytes name = name.toList.flatMap String.utf8EncodeChar := by
  rw [nameBytes, ByteArray.toList, toList_loop, String.toUTF8, ← String.utf8Encode_toList]
  exact List.toList_data_toByteArray

/-- Names with the same bytes are equal. -/
theorem nameBytes_inj {s t : String} : nameBytes s = nameBytes t ↔ s = t := by
  simp [nameBytes, ByteArray.toList, toList_loop, ← ByteArray.ext_iff, String.toUTF8,
    String.toByteArray_inj]

/-- A byte of a character is the character itself or lies between the ASCII bytes and the end of a
name. -/
theorem toNat_of_mem_utf8EncodeChar {byte : UInt8} {c : Char} (h : byte ∈ String.utf8EncodeChar c) :
    byte.toNat < 128 ∧ byte.toNat = c.toNat ∨ 128 ≤ byte.toNat ∧ byte.toNat < 255 := by
  have hascii (n : Nat) (hn : n ≤ 127) :
      (UInt8.ofNat n).toNat < 128 ∧ (UInt8.ofNat n).toNat = n := by
    rw [UInt8.toNat_ofNat']
    omega
  have hlater (n : Nat) (hlow : 128 ≤ n) (hhigh : n < 255) :
      128 ≤ (UInt8.ofNat n).toNat ∧ (UInt8.ofNat n).toNat < 255 := by
    rw [UInt8.toNat_ofNat']
    omega
  simp only [String.utf8EncodeChar] at h
  split at h
  next hsmall =>
    obtain rfl := List.mem_singleton.1 h
    exact .inl (hascii _ hsmall)
  next =>
    refine .inr ?_
    repeat' split at h
    all_goals simp only [List.mem_cons, List.not_mem_nil, or_false] at h
    · obtain rfl | rfl := h <;> exact hlater _ (by omega) (by omega)
    · obtain rfl | rfl | rfl := h <;> exact hlater _ (by omega) (by omega)
    · obtain rfl | rfl | rfl | rfl := h <;> exact hlater _ (by omega) (by omega)

/-- An ASCII byte of a name is one of its characters. -/
theorem exists_char_of_mem_nameBytes {byte : UInt8} {name : String} (h : byte ∈ nameBytes name)
    (hbyte : byte.toNat < 128) : ∃ c ∈ name.toList, c.toNat = byte.toNat := by
  rw [nameBytes_eq, List.mem_flatMap] at h
  obtain ⟨c, hc, hmem⟩ := h
  obtain ⟨-, heq⟩ | ⟨hle, -⟩ := toNat_of_mem_utf8EncodeChar hmem
  · exact ⟨c, hc, heq.symm⟩
  · omega

/-- No byte of a name ends it. -/
theorem nameEnd_notMem_nameBytes (name : String) : nameEnd ∉ nameBytes name := by
  rw [nameBytes_eq, List.mem_flatMap]
  rintro ⟨c, -, hend⟩
  have hnat : nameEnd.toNat = 255 := rfl
  have := toNat_of_mem_utf8EncodeChar hend
  omega

/-- A separator is found from the left when neither front has the separator of the other side. -/
theorem append_cons_inj {a b : UInt8} {x y r s : List UInt8} (ha : a ∉ y) (hb : b ∉ x) :
    x ++ a :: r = y ++ b :: s ↔ x = y ∧ a = b ∧ r = s := by
  induction x generalizing y with
  | nil =>
    cases y with
    | nil => simp
    | cons d y => simp [List.ne_of_not_mem_cons ha]
  | cons c x ih =>
    cases y with
    | nil => simp [(List.ne_of_not_mem_cons hb).symm]
    | cons d y =>
      simp [ih (List.not_mem_of_not_mem_cons ha) (List.not_mem_of_not_mem_cons hb), and_assoc]

/-- A name and its end can be read off. -/
theorem nameBytes_append_inj {s t : String} {r₁ r₂ : List UInt8} :
    nameBytes s ++ nameEnd :: r₁ = nameBytes t ++ nameEnd :: r₂ ↔ s = t ∧ r₁ = r₂ := by
  rw [append_cons_inj (nameEnd_notMem_nameBytes t) (nameEnd_notMem_nameBytes s), nameBytes_inj]
  simp only [true_and]

/-- Aliases of the same name are equal. -/
theorem Alias.name_inj {a b : Alias} : a.name = b.name ↔ a = b := by
  cases a
  cases b
  simp

/-! ## Operands -/

namespace Operand

/-- The operand with the empty name in place of an absent relation. -/
def named : Operand → Operand
  | adjacency relation source target transposed =>
    adjacency (some (relation.getD "")) source target transposed
  | diagonal => diagonal

/-- The name of the alias a relationship leads to has neither of the characters U+0000 and
U+0001. -/
def Delimited (operand : Operand) : Prop :=
  operand.isDiagonal = false → ∀ c ∈ operand.colAlias.name.toList, 1 < c.toNat

/-- Naming an absent relation keeps where the operand leads to. -/
@[simp] theorem colAlias_named (operand : Operand) : operand.named.colAlias = operand.colAlias := by
  cases operand <;> rfl

/-- The byte of a direction keeps off the bytes of a name without U+0000 and U+0001. -/
theorem direction_notMem_nameBytes {name : String} (h : ∀ c ∈ name.toList, 1 < c.toNat)
    (transposed : Bool) : (if transposed then 1 else 0) ∉ nameBytes name := by
  have hle : (if transposed then 1 else 0 : UInt8).toNat ≤ 1 := by cases transposed <;> decide
  intro hmem
  obtain ⟨c, hc, heq⟩ := exists_char_of_mem_nameBytes hmem (by omega)
  have := h c hc
  omega

/-- The alias a relationship is stored to and its direction can be read off when the relationships
are stored from the same alias and start at the same one, and they lead to the same one or to names
that keep off the byte of the direction. -/
theorem target_append_inj {relation relation' : Option String} {source target target' : Alias}
    {transposed transposed' : Bool} {r s : List UInt8}
    (hrow : (adjacency relation source target transposed).rowAlias =
      (adjacency relation' source target' transposed').rowAlias)
    (hcol : (adjacency relation source target transposed).colAlias =
        (adjacency relation' source target' transposed').colAlias ∨
      (adjacency relation source target transposed).Delimited ∧
        (adjacency relation' source target' transposed').Delimited) :
    nameBytes target.name ++ (if transposed then 1 else 0) :: r =
        nameBytes target'.name ++ (if transposed' then 1 else 0) :: s ↔
      target = target' ∧ transposed = transposed' ∧ r = s := by
  have hdirection : ((if transposed then 1 else 0 : UInt8) = if transposed' then 1 else 0) ↔
      transposed = transposed' := by
    cases transposed <;> cases transposed' <;> decide
  -- Of two relationships in different directions one leads back to where it is stored from.
  have htargets : target = target' ∨
      (∀ c ∈ target.name.toList, 1 < c.toNat) ∧ ∀ c ∈ target'.name.toList, 1 < c.toNat := by
    cases transposed <;> cases transposed' <;>
      simp_all [rowAlias, colAlias, Delimited, isDiagonal]
  obtain rfl | ⟨htarget, htarget'⟩ := htargets
  · simp [hdirection]
  · rw [append_cons_inj (direction_notMem_nameBytes htarget' transposed)
      (direction_notMem_nameBytes htarget transposed'), nameBytes_inj, hdirection]
    simp only [Alias.name_inj]

/-- Operands that start at the same alias can be read off when they lead to the same one, or when
the names of the aliases they lead to keep off the byte of the direction. -/
theorem encode_append_inj {p q : Operand} {r s : List UInt8} (hrow : p.rowAlias = q.rowAlias)
    (hcol : p.colAlias = q.colAlias ∨ p.Delimited ∧ q.Delimited) :
    p.encode ++ r = q.encode ++ s ↔ p.named = q.named ∧ r = s := by
  cases p with
  | adjacency relation source target transposed =>
    cases q with
    | adjacency relation' source' target' transposed' =>
      simp only [encode, named, List.append_assoc, List.cons_append, List.nil_append,
        List.cons.injEq, true_and, nameBytes_append_inj, Alias.name_inj, adjacency.injEq,
        Option.some.injEq, and_assoc]
      refine and_congr_right fun _ => and_congr_right fun hsource => ?_
      subst hsource
      exact target_append_inj hrow hcol
    | _ => simp [encode, named]
  | label name ident =>
    cases q with
    | label name' ident' =>
      obtain rfl : ident = ident' := hrow
      simp [encode, named, nameBytes_append_inj]
    | _ => simp [encode, named]
  | mask name ident =>
    cases q with
    | mask name' ident' =>
      obtain rfl : ident = ident' := hrow
      simp [encode, named, nameBytes_append_inj]
    | _ => simp [encode, named]

end Operand

/-! ## Chains and expressions -/

namespace Expression

variable {r s : List UInt8}

/-- Chains of one length between the same aliases can be read off, operand by operand; where the
last one leads to is known. -/
theorem chain_append_inj {start ends : Alias} {ps qs : List Operand}
    (hlength : ps.length = qs.length) (hps : Aligned start ps ends) (hqs : Aligned start qs ends)
    (hpd : ∀ p ∈ ps.dropLast, p.Delimited) (hqd : ∀ q ∈ qs.dropLast, q.Delimited) :
    ps.flatMap Operand.encode ++ r = qs.flatMap Operand.encode ++ s ↔
      ps.map Operand.named = qs.map Operand.named ∧ r = s := by
  have hlater (p : Operand) (ps : List Operand) : ps.dropLast ⊆ (p :: ps).dropLast := by
    cases ps with
    | nil => exact List.nil_subset _
    | cons p' ps => exact List.subset_cons_self p _
  induction ps generalizing start qs with
  | nil =>
    obtain rfl := List.length_eq_zero_iff.1 hlength.symm
    simp
  | cons p ps ih =>
    cases qs with
    | nil => cases hlength
    | cons q qs =>
      have hrest : ps.length = qs.length := Nat.succ.inj hlength
      have hcol : p.colAlias = q.colAlias ∨ p.Delimited ∧ q.Delimited := by
        cases ps with
        | nil =>
          obtain rfl := List.length_eq_zero_iff.1 hrest.symm
          exact .inl (hps.2.trans hqs.2.symm)
        | cons p' ps =>
          cases qs with
          | nil => cases hrest
          | cons q' qs => exact .inr ⟨hpd p List.mem_cons_self, hqd q List.mem_cons_self⟩
      simp only [List.flatMap_cons, List.append_assoc, List.map_cons, List.cons.injEq, and_assoc,
        Operand.encode_append_inj (hps.1.trans hqs.1.symm) hcol]
      refine and_congr_right fun hnamed => ?_
      have hmeet : p.colAlias = q.colAlias := by
        rw [← p.colAlias_named, hnamed, q.colAlias_named]
      exact ih hrest hps.2 (hmeet ▸ hqs.2)
        (fun p' hp => hpd p' (hlater p ps hp)) fun q' hq => hqd q' (hlater q qs hq)

/-- What makes the bytes of an expression readable: it is constructed, its number of operands fits a
word, and the aliases that its relationships lead to inside the chain keep off the byte of the
direction. -/
structure Readable (e : Expression) : Prop where
  constructed : e.Constructed
  length_lt : e.operands.length < UInt64.size
  delimited : ∀ operand ∈ e.operands.dropLast, operand.Delimited

/-- Expressions with the same endpoints and the same operands, where an absent relation passes for
the empty name. -/
def Alike (e f : Expression) : Prop :=
  e.source = f.source ∧ e.target = f.target ∧
    e.operands.map Operand.named = f.operands.map Operand.named

instance (e f : Expression) : Decidable (e.Alike f) :=
  inferInstanceAs (Decidable (_ ∧ _ ∧ _))

variable {e f : Expression}

/-- Readable expressions can be read off up to the name of an absent relation. -/
theorem encode_append_inj (he : e.Readable) (hf : f.Readable) :
    e.encode ++ r = f.encode ++ s ↔ e.Alike f ∧ r = s := by
  simp only [encode, List.append_assoc, List.cons_append, nameBytes_append_inj, Alias.name_inj,
    Alike, and_assoc]
  refine and_congr_right fun hsource => and_congr_right fun htarget => ?_
  have hcount : LittleEndian.encode (UInt64.ofNat e.operands.length) =
        LittleEndian.encode (UInt64.ofNat f.operands.length) ↔
      e.operands.length = f.operands.length := by
    rw [LittleEndian.encode_inj, ← UInt64.toNat_inj, UInt64.toNat_ofNat_of_lt' he.length_lt,
      UInt64.toNat_ofNat_of_lt' hf.length_lt]
  have haligned : Aligned e.source f.operands e.target := by
    rw [hsource, htarget]
    exact hf.constructed.aligned
  have hchain (hlength : e.operands.length = f.operands.length) :=
    chain_append_inj (r := r) (s := s) hlength he.constructed.aligned haligned he.delimited
      hf.delimited
  constructor
  · intro h
    obtain ⟨hwords, hoperands⟩ := List.append_inj h (by simp only [LittleEndian.length_encode])
    exact (hchain (hcount.1 hwords)).1 hoperands
  · intro h
    have hlength : e.operands.length = f.operands.length := by
      simpa using congrArg List.length h.1
    rw [hlength, (hchain hlength).2 h]

/-- Readable expressions in a row can be read off one by one. -/
theorem flatMap_encode_inj {es fs : List Expression} (hes : ∀ e ∈ es, e.Readable)
    (hfs : ∀ f ∈ fs, f.Readable) :
    es.flatMap encode = fs.flatMap encode ↔ List.Forall₂ Alike es fs := by
  induction es generalizing fs with
  | nil =>
    cases fs with
    | nil => simp
    | cons f fs => exact iff_of_false (by simp [encode]) nofun
  | cons e es ih =>
    cases fs with
    | nil => exact iff_of_false (by simp [encode]) nofun
    | cons f fs =>
      rw [List.forall_mem_cons] at hes hfs
      rw [List.flatMap_cons, List.flatMap_cons, encode_append_inj hes.1 hfs.1, ih hes.2 hfs.2,
        List.forall₂_cons]

end Expression

end PatternTraversal
