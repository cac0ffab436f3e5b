import TwistedEdwards.Check.Points
import TwistedEdwards.Proofs.Check.Trials
import TwistedEdwards.Proofs.Point.Predicate

/-!
# Laws of points that are checked

The points drawn are multiples of the base point.  What is compared are their strings, and the
string depends on the point of the curve alone, so the checks are the laws of the group.  Only
the neutral element is its own double.  The laws that take scalars modulo the order hold since
the order kills the points drawn.

A random string is read as a point that writes it again, or is refused with a known error; that
one of them is read is no law, but up to the strings.

Main statements: `Point.checks_pass`, `Point.codecChecks_pass`, `Point.stringTrials_passBut` and
`Point.multipleChecks_pass`.
-/

namespace TwistedEdwards

open Generator

theorem Batch.sumSatisfies_ok (sum : Point) (property : Point → Bool) :
    sumSatisfies (.ok sum) property = property sum := rfl

namespace Point

variable {p q r : Point} {P Q R : AffinePoint} {a b : Scalar}

/-- Two quadruples of one point write the same string. -/
theorem Denotes.sameOctets (hp : p.Denotes P) (hq : q.Denotes Q) (h : P = Q) :
    p.sameOctets q = true := by
  rw [Point.sameOctets, (hp.toOctets_eq_iff hq).mpr h]
  exact beq_self_eq_true _

/-- The group laws hold, and only the neutral element is its own double. -/
theorem checks_pass (label : String) (hp : p.Denotes P) (hq : q.Denotes Q) (hr : r.Denotes R) :
    PassBut (fun check => check.label = label ++ " equality" ∧ p.isIdentity = true)
      (checks label p q r) := by
  have height : (Scalar.ofWord 8).Reduced ∧ (Scalar.ofWord 8).toNat = 8 := by decide
  have hcommutative : (p + q).same (q + p) = true := by
    rw [(hp.add hq).same_iff (hq.add hp)]
    exact add_comm P Q
  have hdouble : p.same p.double = true ↔ p.isIdentity = true := by
    rw [hp.same_iff hp.double, hp.isIdentity_iff, left_eq_add]
  have hinverse : (p - p).isIdentity = true := by
    rw [(hp.sub hp).isIdentity_iff]
    exact sub_self P
  have hcofactor := hp.mulVartime height.1
  rw [height.2] at hcofactor
  refine .cons hp.valid.onCurve (.cons ?_ (.cons ?_ (.cons ?_ (.cons ?_ (.cons hinverse (.cons ?_
    (.cons_excused ?_ (.cons (hp.add hq).valid.onCurve (.cons ?_ .nil)))))))))
  · exact (hp.add identity_denotes).sameOctets hp (add_zero P)
  · exact (hp.add hq).sameOctets (hq.add hp) (add_comm P Q)
  · exact ((hp.add hq).add hr).sameOctets (hp.add (hq.add hr)) (add_assoc P Q R)
  · exact hp.double.sameOctets (hp.add hp) rfl
  · exact ((hp.sub hq).add hq).sameOctets hp (sub_add_cancel P Q)
  · rw [hcommutative, Bool.true_and]
    cases hsame : p.same p.double with
    | false => exact .inl rfl
    | true => exact .inr ⟨rfl, hdouble.mp hsame⟩
  · exact hp.mulCofactor.sameOctets hcofactor rfl

/-- Only the first point of a trial can be its own double. -/
theorem trial_passBut (i : Nat) (g : Generator) :
    PassBut (fun check => check.label = "point[" ++ toString i ++ "]" ++ " equality" ∧
      (g.drawn point).isIdentity = true) (g.drawn (trial i)) := by
  obtain ⟨P, hp, -⟩ := always_point g
  obtain ⟨Q, hq, -⟩ := always_point (g.after point)
  obtain ⟨R, hr, -⟩ := always_point ((g.after point).after point)
  rw [trial, drawn_bind, drawn_bind, drawn_bind, drawn_pure]
  exact checks_pass _ hp hq hr

theorem codecChecks_of_decode? (label : String) (h : decode? p.toOctets = some q) :
    codecChecks label p =
      [.holds (label ++ " decodes") true, .holds (label ++ " equal") (q.same p),
        .sameBytes (label ++ " re-encodes") p.toOctets.toList q.toOctets.toList] := by
  -- unfolded as a function, so that nothing tries to read the string of a variable
  have hdef : codecChecks = codecChecks := rfl
  conv_rhs at hdef => delta codecChecks
  rw [hdef]
  dsimp only
  rw [h]

/-- The string of a point is read back. -/
theorem codecChecks_pass (label : String) (hp : p.Denotes P) : AllPass (codecChecks label p) := by
  obtain ⟨q, hread, hq⟩ := decode_toOctets P
  rw [← hp.toOctets_eq] at hread
  have hsame : q.same p = true := by rw [hq.same_iff hp]
  have hwritten : p.toOctets = q.toOctets := (hp.toOctets_eq_iff hq).mpr rfl
  rw [codecChecks_of_decode? label (decode?_eq_some_iff.mpr hread)]
  exact .cons rfl (.cons hsame (.cons_same (congrArg Vector.toList hwritten) .nil))

/-- A point that is drawn stands for a point of the curve. -/
theorem always_codecTrial (i : Nat) : Always (codecTrial i) AllPass :=
  always_point.bind fun _ ⟨_, hp, _⟩ => Always.pure (codecChecks_pass _ hp)

/-- A string is refused, or is the one that the point read from it writes. -/
theorem stringChecks_pass (label : String) (bs : Octets 32) : AllPass (stringChecks label bs) := by
  rw [stringChecks, decode?]
  cases hread : decode bs with
  | ok p =>
      obtain ⟨hlt, x, hp⟩ := exists_isDecodedFrom hread
      have hwritten : bs = p.toOctets := (hp.toOctets_eq hlt).symm
      exact .cons rfl (.cons_same (congrArg Vector.toList hwritten)
        (.cons hp.valid.onCurve .nil))
  | error cause =>
      refine .cons rfl (.cons ?_ .nil)
      cases cause <;> rfl

/-- The strings of a trial pass one by one; whether any of them is a point is up to them. -/
theorem stringTrials_passBut (n : Nat) (g : Generator) :
    PassBut (fun check => check.label = "random_bytes some decoded" ∧
        ∀ bs ∈ g.drawn ((List.range n).mapM fun _ => octets32), decode? bs = none)
      (g.drawn (stringTrials n)) := by
  rw [stringTrials, drawn_bind, drawn_pure]
  generalize g.drawn ((List.range n).mapM fun _ => octets32) = strings
  refine .append (.flatten fun checks hchecks => ?_) (.cons_excused ?_ .nil)
  · obtain ⟨i, hi, rfl⟩ := List.mem_mapIdx.mp hchecks
    exact .of_allPass (stringChecks_pass _ _)
  · cases hany : strings.any fun bs => (decode? bs).isSome with
    | true => exact .inl rfl
    | false =>
        refine .inr ⟨rfl, fun bs hbs => ?_⟩
        have hnone := List.any_eq_false.mp hany bs hbs
        rwa [Option.not_isSome_iff_eq_none] at hnone

/-- The check on all strings together is the last one. -/
theorem exists_mem_stringTrials (n : Nat) (g : Generator) :
    ∃ check ∈ g.drawn (stringTrials n), check.label = "random_bytes some decoded" := by
  rw [stringTrials, drawn_bind, drawn_pure]
  exact ⟨_, List.mem_append_right _ (List.mem_singleton_self _), rfl⟩

/-- Multiples agree, and are linear in the scalar on points that the order kills. -/
theorem multipleChecks_pass (label : String) (hp : p.InSubgroup) (ha : a.Reduced)
    (hb : b.Reduced) : AllPass (multipleChecks label p a b) := by
  obtain ⟨P, hp, hP⟩ := hp
  have hsum := (ha.denotes.add hb.denotes).reduced
  have hproduct := (ha.denotes.mul hb.denotes).reduced
  have hbase := AffinePoint.groupOrder_nsmul_base
  have hzero : (p.mul Scalar.zero).isIdentity = true := by
    rw [(hp.mul Scalar.zero_denotes.reduced).isIdentity_iff]
    exact zero_nsmul P
  have hfree : Batch.sumSatisfies (Batch.mulFirst 1 (some [a]) (some [p]))
      (sameOctets · (p.mul a)) = true := by
    rw [Batch.mulFirst_one, Batch.sumSatisfies_ok]
    exact (hp.mul ha).sameOctets (hp.mul ha) rfl
  refine .cons ?_ (.cons hfree (.cons ?_ (.cons ?_ (.cons ?_ (.cons hzero (.cons ?_ .nil))))))
  · exact (hp.mul ha).sameOctets (hp.mulVartime ha) rfl
  · exact (hp.mulVartime hsum).sameOctets ((hp.mul ha).add (hp.mul hb))
      (AffinePoint.toNat_add_nsmul hP ha hb)
  · exact (base_denotes.mulVartime hproduct).sameOctets
      ((base_denotes.mulVartime hb).mulVartime ha) (AffinePoint.toNat_mul_nsmul hbase ha hb)
  · exact (hp.mul ha.denotes.neg.reduced).sameOctets (hp.mul ha).neg
      (AffinePoint.toNat_neg_nsmul hP ha)
  · exact (hp.mul Scalar.one_denotes.reduced).sameOctets hp (one_nsmul P)

/-- What is drawn is in the subgroup and reduced. -/
theorem always_multipleTrial (i : Nat) : Always (multipleTrial i) AllPass :=
  always_point.bind fun _ hp => always_scalar.bind fun _ ha => always_scalar.bind fun _ hb =>
    Always.pure (multipleChecks_pass _ hp ha hb)

end Point

end TwistedEdwards
