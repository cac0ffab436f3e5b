import TwistedEdwards.Random.Sample
import TwistedEdwards.Proofs.Point.Decoding
import TwistedEdwards.Proofs.Point.Multiple
import TwistedEdwards.Proofs.Scalar.Reading

/-!
# What is drawn

A draw takes a state of the generator to a result and a state.  What every result of a draw
has in common does not depend on the state, so it is carried through a computation draw by
draw: field elements come with limbs below `2 ^ 51`, scalars are reduced, and points are
multiples of the base point, which the order kills.

Main statements: `Generator.Always.bind`, `Generator.Always.mapM` and
`Generator.always_point`.
-/

namespace TwistedEdwards

/-- The point stands for one that the order kills. -/
def Point.InSubgroup (p : Point) : Prop := ∃ P : AffinePoint, p.Denotes P ∧ groupOrder • P = 0

theorem Point.InSubgroup.valid {p : Point} (hp : p.InSubgroup) : p.Valid := by
  obtain ⟨P, hP, -⟩ := hp
  exact hP.valid

namespace Generator

variable {α β : Type}

/-- What is drawn in a state. -/
def drawn (g : Generator) (draw : Draw α) : α := (draw.run g).1

/-- The state that a draw leaves. -/
def after (g : Generator) (draw : Draw α) : Generator := (draw.run g).2

section Run

variable (g : Generator) (a : α) (f : α → β) (draw : Draw α) (next : α → Draw β)

theorem drawn_pure : g.drawn (pure a) = a := rfl

/-- What is drawn second is drawn from the generator that the first leaves. -/
theorem drawn_bind : g.drawn (draw >>= next) = (g.after draw).drawn (next (g.drawn draw)) := rfl

theorem drawn_map : g.drawn (f <$> draw) = f (g.drawn draw) := rfl

theorem after_map : g.after (f <$> draw) = g.after draw := rfl

end Run

/-- Whatever the state, the result has the property. -/
def Always (draw : Draw α) (property : α → Prop) : Prop := ∀ g : Generator, property (g.drawn draw)

variable {draw : Draw α} {property : α → Prop}

theorem Always.pure {a : α} (h : property a) : Always (pure a) property := fun _ => h

/-- A property of the whole follows from one of the first result. -/
theorem Always.bind {next : α → Draw β} {property' : β → Prop} (h : Always draw property)
    (hnext : ∀ a, property a → Always (next a) property') : Always (draw >>= next) property' :=
  fun g => hnext _ (h g) (g.after draw)

/-- A property of what is drawn gives one of what is made of it. -/
theorem Always.map {f : α → β} {property' : β → Prop} (h : Always draw property)
    (hf : ∀ a, property a → property' (f a)) : Always (f <$> draw) property' :=
  fun g => hf _ (h g)

/-- Draws along a list give as many results, each with what the draws have in common. -/
theorem Always.mapM {f : α → Draw β} {property' : β → Prop} {xs : List α}
    (h : ∀ x ∈ xs, Always (f x) property') :
    Always (xs.mapM f) fun ys => ys.length = xs.length ∧ ∀ y ∈ ys, property' y := by
  induction xs with
  | nil =>
      rw [List.mapM_nil]
      exact Always.pure ⟨rfl, List.forall_mem_nil _⟩
  | cons x xs ih =>
      have hrest := ih fun y hy => h y (List.mem_cons_of_mem x hy)
      rw [List.mapM_cons]
      refine (h x List.mem_cons_self).bind fun y hy => hrest.bind fun ys hys => Always.pure ?_
      exact ⟨congrArg (· + 1) hys.1, List.forall_mem_cons.mpr ⟨hy, hys.2⟩⟩

theorem always_true (draw : Draw α) : Always draw fun _ => True := fun _ => trivial

/-- An element is drawn as a string, so its limbs are below the radix. -/
theorem always_fieldElement : Always fieldElement (FieldElement.Bounded (2 ^ 51)) :=
  (always_true octets32).bind fun bs _ => Always.pure (Point.ofOctets_denotes bs).bounded

theorem always_scalar : Always scalar Scalar.Reduced :=
  (always_true octets64).bind fun bs _ => Always.pure (Scalar.ofWide_denotes bs).reduced

/-- A multiple of the base point is killed by the order, as the base point is. -/
theorem always_point : Always point Point.InSubgroup := by
  refine always_scalar.bind fun s hs => Always.pure ?_
  refine ⟨s.toNat • AffinePoint.base, Point.base_denotes.mulVartime hs, ?_⟩
  rw [nsmul_left_comm, AffinePoint.groupOrder_nsmul_base, nsmul_zero]

end Generator

end TwistedEdwards
