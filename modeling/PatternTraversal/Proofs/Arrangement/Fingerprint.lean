import Mathlib.Data.List.Forall2
import PatternTraversal.Arrangement.Arrange
import PatternTraversal.Arrangement.Fingerprint
import PatternTraversal.Proofs.Expression.Encoding

/-!
# What a fingerprint separates

A fingerprint digests the bytes of the expressions in their order. From these bytes the ordered
expressions can be read back up to one thing, the difference between an absent relation and one with
the empty name, provided that the aliases inside their chains keep off the byte of the direction.
Without this the bytes of different chains can agree.
-/

namespace PatternTraversal

namespace Arrangement

variable {a b : Arrangement} {es fs : List Expression}

/-- The bytes of ordered readable expressions determine how many there are and what each of them is,
up to the name of an absent relation. -/
theorem encodeOrdered_inj (hes : ∀ e ∈ es, e.Readable) (hfs : ∀ f ∈ fs, f.Readable) :
    encodeOrdered es = encodeOrdered fs ↔ List.Forall₂ Expression.Alike es fs := by
  rw [← Expression.flatMap_encode_inj hes hfs, encodeOrdered, encodeOrdered]
  constructor
  · intro h
    exact (List.append_inj h (by simp only [LittleEndian.length_encode])).2
  · intro h
    have hlength : es.length = fs.length :=
      ((Expression.flatMap_encode_inj hes hfs).1 h).length_eq
    rw [hlength, h]

/-- A list of the length of the arrangement is put in order to be digested. -/
theorem exists_apply (h : es.length = a.length) :
    ∃ ordered, a.apply es = .ok ordered ∧ ordered ⊆ es ∧
      a.fingerprintBytes es = .ok (encodeOrdered ordered) := by
  have happly : a.apply es = .ok (a.order.filterMap fun i => es[i]?) := by
    rw [apply, (a.checkLength_eq_ok_iff es).2 h]
  refine ⟨_, happly, fun e he => ?_, by rw [fingerprintBytes, happly]⟩
  obtain ⟨i, -, hi⟩ := List.mem_filterMap.1 he
  exact List.mem_of_getElem? hi

/-- The bytes that are digested for a list separate it from every other list in its order: for
readable expressions they agree exactly when the ordered expressions agree in number, in their
endpoints and in their operands, an absent relation passing for the empty name. -/
theorem fingerprint_separates (hes : es.length = a.length) (hfs : fs.length = b.length)
    (heread : ∀ e ∈ es, e.Readable) (hfread : ∀ f ∈ fs, f.Readable) :
    ∃ eordered fordered, a.apply es = .ok eordered ∧ b.apply fs = .ok fordered ∧
      a.fingerprintBytes es = .ok (encodeOrdered eordered) ∧
      b.fingerprintBytes fs = .ok (encodeOrdered fordered) ∧
      (encodeOrdered eordered = encodeOrdered fordered ↔
        List.Forall₂ Expression.Alike eordered fordered) := by
  obtain ⟨eordered, heapply, hesub, heprint⟩ := exists_apply hes
  obtain ⟨fordered, hfapply, hfsub, hfprint⟩ := exists_apply hfs
  exact ⟨eordered, fordered, heapply, hfapply, heprint, hfprint,
    encodeOrdered_inj (fun e he => heread e (hesub he)) fun f hf => hfread f (hfsub hf)⟩

/-- Two relationships in a row, without a predicate and with one on their end: the orders chosen for
them differ, and so do the bytes that are digested. -/
theorem fingerprint_separates_orders :
    let exps : List Expression := [.hop ⟨"a"⟩ ⟨"b"⟩ (some "R") none, .hop ⟨"b"⟩ ⟨"c"⟩ none none]
    let pattern := (Pattern.ofDeclarations
      [.node ⟨"a"⟩ [], .node ⟨"b"⟩ [], .node ⟨"c"⟩ []]).toOption.getD .empty
    ∃ plain filtered, (⟨pattern, ∅, ∅, .default⟩ : Context).arrange exps = .ok plain ∧
      (⟨pattern, .ofList [(⟨"c"⟩ : Alias)], ∅, .default⟩ : Context).arrange exps = .ok filtered ∧
      (∀ e ∈ exps, e.Readable) ∧
      ∃ forth back, plain.fingerprintBytes exps = .ok (encodeOrdered forth) ∧
        filtered.fingerprintBytes exps = .ok (encodeOrdered back) ∧
        encodeOrdered forth ≠ encodeOrdered back := by
  intro exps pattern
  have hread : ∀ e ∈ exps, e.Readable := by
    simp only [exps, List.forall_mem_cons, List.not_mem_nil, false_implies, implies_true, and_true]
    exact ⟨⟨.hop .., by decide, nofun⟩, ⟨.hop .., by decide, nofun⟩⟩
  let plain : Arrangement := ⟨[0, 1], 0, [0], .exhaustive, ⟨1, 2, 0, 0⟩, true⟩
  let filtered : Arrangement := ⟨[1, 0], 2, [0], .exhaustive, ⟨1, 2, 0, 0⟩, true⟩
  have hlength : exps.length = plain.length ∧ exps.length = filtered.length := ⟨rfl, rfl⟩
  obtain ⟨forth, back, hforth, hback, hplain, hfiltered, hiff⟩ :=
    fingerprint_separates hlength.1 hlength.2 hread hread
  refine ⟨plain, filtered, by decide +kernel, by decide +kernel, hread, forth, back, hplain,
    hfiltered, fun heq => ?_⟩
  cases hforth
  cases hback
  exact absurd (hiff.1 heq) (by decide)

/-- Bytes that do not separate expressions: an absent relation reads like one with the empty name,
and a chain with a control character in a relation and a label reads like another one whose inner
alias ends in it. Neither the arrangement nor what is digested tells the two expressions apart. -/
theorem fingerprint_confuses_chains :
    let named : Expression := ⟨[.adjacency (some "R") ⟨"s"⟩ ⟨"b"⟩ false,
      .adjacency (some "\x00N") ⟨"b"⟩ ⟨"b"⟩ false, .label "\x01L" ⟨"b"⟩], ⟨"s"⟩, ⟨"b"⟩, none⟩
    let aliased : Expression := ⟨[.adjacency (some "R") ⟨"s"⟩ ⟨"b\x00"⟩ false,
      .adjacency (some "N") ⟨"b"⟩ ⟨"b\x00"⟩ true, .label "L" ⟨"b"⟩], ⟨"s"⟩, ⟨"b"⟩, none⟩
    let pattern := (Pattern.ofDeclarations [.node ⟨"s"⟩ [], .node ⟨"b"⟩ []]).toOption.getD .empty
    let ctx : Context := ⟨pattern, ∅, ∅, .default⟩
    ∃ a, ∀ pair ∈ [(.hop ⟨"s"⟩ ⟨"b"⟩ none none, .hop ⟨"s"⟩ ⟨"b"⟩ (some "") none), (named, aliased)],
      (pair.1.Constructed ∧ ctx.arrange [pair.1] = .ok a ∧ a.apply [pair.1] = .ok [pair.1]) ∧
      (pair.2.Constructed ∧ ctx.arrange [pair.2] = .ok a ∧ a.apply [pair.2] = .ok [pair.2]) ∧
      pair.1.operands ≠ pair.2.operands ∧
      encodeOrdered [pair.1] = encodeOrdered [pair.2] ∧
      a.fingerprintBytes [pair.1] = a.fingerprintBytes [pair.2] := by
  intro named aliased pattern ctx
  have hnamed : Expression.withEndpoints ⟨"s"⟩ ⟨"b"⟩ named.operands none = .ok named := rfl
  have haliased : Expression.withEndpoints ⟨"s"⟩ ⟨"b"⟩ aliased.operands none = .ok aliased := rfl
  refine ⟨⟨[0], 0, [0], .trivial, ⟨1, 0, 0, 0⟩, true⟩, ?_⟩
  simp only [List.forall_mem_cons, List.not_mem_nil, false_implies, implies_true, and_true]
  refine ⟨⟨⟨.hop .., ?_⟩, ⟨.hop .., ?_⟩, ?_⟩, ⟨⟨.withEndpoints hnamed, ?_⟩,
    ⟨.withEndpoints haliased, ?_⟩, ?_⟩⟩
  all_goals decide +kernel

end Arrangement

end PatternTraversal
