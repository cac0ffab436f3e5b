import TwistedEdwards.Check.Arithmetic
import TwistedEdwards.Proofs.Random.Sample

/-!
# Checks of a run

The checks of a run are gathered trial after trial, and a trial draws in the state that the
trials before it leave.  So every check of a run belongs to one trial, and all of them pass if
those of a trial do in whatever state it draws.  A check that may fail has to say when.

Main statements: `mem_drawn_trials`, `PassBut.trials` and `always_trials`.
-/

namespace TwistedEdwards

open Generator

/-- Every check passes or is excused. -/
def PassBut (excused : Check → Prop) (checks : List Check) : Prop :=
  ∀ c ∈ checks, c.isPassed = true ∨ excused c

/-- Every check passes. -/
abbrev AllPass : List Check → Prop := PassBut fun _ => False

namespace PassBut

variable {excused : Check → Prop} {label : String} {condition : Bool} {rest rest' : List Check}

theorem nil : PassBut excused [] := List.forall_mem_nil _

/-- A condition that holds, then checks that pass. -/
theorem cons (h : condition = true) (hrest : PassBut excused rest) :
    PassBut excused (.holds label condition :: rest) :=
  List.forall_mem_cons.mpr ⟨.inl (by rw [Check.isPassed_holds, h]), hrest⟩

/-- A condition that may fail where it is excused. -/
theorem cons_excused (h : condition = true ∨ excused (.holds label condition))
    (hrest : PassBut excused rest) : PassBut excused (.holds label condition :: rest) :=
  List.forall_mem_cons.mpr ⟨by rwa [Check.isPassed_holds], hrest⟩

theorem cons_same {expected actual : List UInt8} (h : expected = actual)
    (hrest : PassBut excused rest) :
    PassBut excused (.sameBytes label expected actual :: rest) :=
  List.forall_mem_cons.mpr
    ⟨.inl (by rw [Check.isPassed_sameBytes]; exact decide_eq_true h), hrest⟩

theorem append (h : PassBut excused rest) (h' : PassBut excused rest') :
    PassBut excused (rest ++ rest') :=
  List.forall_mem_append.mpr ⟨h, h'⟩

theorem flatten {checks : List (List Check)} (h : ∀ cs ∈ checks, PassBut excused cs) :
    PassBut excused checks.flatten := by
  intro c hc
  obtain ⟨cs, hcs, hc⟩ := List.mem_flatten.mp hc
  exact h cs hcs c hc

/-- More excuses excuse no less. -/
theorem mono {excused' : Check → Prop} (h : PassBut excused rest)
    (hexcused : ∀ c, excused c → excused' c) : PassBut excused' rest :=
  fun c hc => (h c hc).imp_right (hexcused c)

/-- Checks that all pass need no excuse. -/
theorem of_allPass (h : AllPass rest) : PassBut excused rest := h.mono fun _ => False.elim

end PassBut

section Trials

variable {trial : Nat → Draw (List Check)} {g : Generator} {n : Nat} {c : Check}

/-- One more trial draws in the state that the trials before it leave. -/
theorem drawn_trials_succ (trial : Nat → Draw (List Check)) (g : Generator) (n : Nat) :
    g.drawn (trials (n + 1) trial) =
      g.drawn (trials n trial) ++ (g.after (trials n trial)).drawn (trial n) := by
  simp only [trials, List.range_succ, List.mapM_append, List.mapM_cons, List.mapM_nil, drawn_map,
    drawn_bind, drawn_pure, after_map, List.flatten_append, List.flatten_singleton]

/-- Every check of a run is one of a trial. -/
theorem mem_drawn_trials : c ∈ g.drawn (trials n trial) ↔
    ∃ i < n, c ∈ (g.after (trials i trial)).drawn (trial i) := by
  induction n with
  | zero =>
      have hnone : g.drawn (trials 0 trial) = [] := rfl
      simp [hnone]
  | succ n ih =>
      rw [drawn_trials_succ, List.mem_append, ih]
      constructor
      · rintro (⟨i, hi, hc⟩ | hc)
        · exact ⟨i, Nat.lt_succ_of_lt hi, hc⟩
        · exact ⟨n, Nat.lt_succ_self n, hc⟩
      · rintro ⟨i, hi, hc⟩
        obtain hi | rfl := Nat.lt_succ_iff_lt_or_eq.mp hi
        · exact .inl ⟨i, hi, hc⟩
        · exact .inr hc

/-- Every trial starts from the generator that the trials before it leave. -/
theorem PassBut.trials {excused : Check → Prop}
    (h : ∀ i < n, PassBut excused ((g.after (trials i trial)).drawn (trial i))) :
    PassBut excused (g.drawn (trials n trial)) := by
  intro c hc
  obtain ⟨i, hi, hc⟩ := mem_drawn_trials.mp hc
  exact h i hi c hc

/-- Trials that pass from every generator pass one after the other. -/
theorem always_trials (h : ∀ i, Always (trial i) AllPass) : Always (trials n trial) AllPass :=
  fun _ => PassBut.trials fun i _ => h i _

end Trials

/-- Checks gathered along a list. -/
theorem always_flatten_mapM {α : Type} {xs : List α} {f : α → Draw (List Check)}
    (h : ∀ x ∈ xs, Always (f x) AllPass) : Always (List.flatten <$> xs.mapM f) AllPass :=
  (Always.mapM h).map fun _ hchecks => PassBut.flatten hchecks.2

end TwistedEdwards
