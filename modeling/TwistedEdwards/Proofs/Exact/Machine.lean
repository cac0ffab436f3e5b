import TwistedEdwards.Word.Wide

/-!
# Word machines

The limb arithmetic is written for words that wrap.  A machine says what each operation
on words gives: the wrapping machine gives the wrapped word, and the stopping machine
computes with the unbounded number and stops where that number is none of a word.  An
operation written for a machine names every sum, difference, product and shift that is
made on the way, so that it runs to its end on the stopping machine says that none of
them lost anything, also where a later one would have made up for it.

A machine is faithful if it gives the word wherever the number fits.  What is shown for
every faithful machine holds for both.  The product of two words in a double word fits
always and is no operation of a machine.

Main statements: `Machine.wrapping_faithful`, `Machine.stopping_faithful`, and the laws
of loops, `Machine.repeatOn_eq`, `Machine.descendOn_eq_of_lt` and `Machine.foldlM_eq`.
-/

namespace TwistedEdwards

/-- What the operations on words give; nothing where the machine stops. -/
structure Machine where
  add : UInt64 → UInt64 → Option UInt64
  sub : UInt64 → UInt64 → Option UInt64
  mul : UInt64 → UInt64 → Option UInt64
  addWide : Wide → Wide → Option Wide
  addWord : Wide → UInt64 → Option Wide
  shiftRight : Wide → UInt64 → Option UInt64

namespace Machine

/-- The machine that never stops. -/
def wrapping : Machine where
  add a b := some (a + b)
  sub a b := some (a - b)
  mul a b := some (a * b)
  addWide x y := some (x + y)
  addWord x c := some (x.addWord c)
  shiftRight x k := some (x.shiftRight k)

/-- The word of a number, if it is a number of a word. -/
def word? (n : Int) : Option UInt64 :=
  if 0 ≤ n ∧ n.toNat < 2 ^ 64 then some (UInt64.ofNat n.toNat) else none

/-- The double word of a number, if it is a number of a double word. -/
def wide? (n : Nat) : Option Wide :=
  if n < 2 ^ 128 then some ⟨UInt64.ofNat (n / 2 ^ 64), UInt64.ofNat n⟩ else none

/-- The machine that computes with unbounded numbers and stops at one that does not fit. -/
def stopping : Machine where
  add a b := word? ((a.toNat : Int) + b.toNat)
  sub a b := word? ((a.toNat : Int) - b.toNat)
  mul a b := word? ((a.toNat : Int) * b.toNat)
  addWide x y := wide? (x.toNat + y.toNat)
  addWord x c := wide? (x.toNat + c.toNat)
  shiftRight x k := word? (x.toNat / 2 ^ k.toNat : Nat)

/-- The machine gives the word wherever the number fits. -/
structure Faithful (M : Machine) : Prop where
  add : ∀ {a b : UInt64}, a.toNat + b.toNat < 2 ^ 64 → M.add a b = some (a + b)
  sub : ∀ {a b : UInt64}, b.toNat ≤ a.toNat → M.sub a b = some (a - b)
  mul : ∀ {a b : UInt64}, a.toNat * b.toNat < 2 ^ 64 → M.mul a b = some (a * b)
  addWide : ∀ {x y : Wide}, x.toNat + y.toNat < 2 ^ 128 → M.addWide x y = some (x + y)
  addWord : ∀ {x : Wide} {c : UInt64}, x.toNat + c.toNat < 2 ^ 128 →
    M.addWord x c = some (x.addWord c)
  shiftRight : ∀ {x : Wide} {k : UInt64}, 0 < k.toNat → k.toNat < 64 →
    x.toNat / 2 ^ k.toNat < 2 ^ 64 → M.shiftRight x k = some (x.shiftRight k)

/-- Words that wrap lose nothing of a number that fits them. -/
theorem wrapping_faithful : wrapping.Faithful :=
  ⟨fun _ => rfl, fun _ => rfl, fun _ => rfl, fun _ => rfl, fun _ => rfl, fun _ _ _ => rfl⟩

/-- A number that fits is the number of its word. -/
theorem word?_eq_some {n : Nat} {a : UInt64} (ha : a.toNat = n) : word? n = some a := by
  have hlt := a.toNat_lt
  rw [ha] at hlt
  rw [word?, if_pos ⟨Int.natCast_nonneg n, hlt⟩, Int.toNat_natCast, ← ha, UInt64.ofNat_toNat]

/-- A number that fits is the number of its double word. -/
theorem wide?_eq_some {n : Nat} {x : Wide} (hx : x.toNat = n) : wide? n = some x := by
  have hlt := x.toNat_lt
  rw [hx] at hlt
  rw [wide?, if_pos hlt]
  congr 1
  apply Wide.toNat_inj
  rw [hx, Wide.toNat, UInt64.toNat_ofNat', UInt64.toNat_ofNat']
  omega

/-- The machine that stops goes on with every number that fits. -/
theorem stopping_faithful : stopping.Faithful where
  add {a b} h := by
    have hsum : (a + b).toNat = a.toNat + b.toNat := by
      rw [UInt64.toNat_add, Nat.mod_eq_of_lt h]
    exact word?_eq_some hsum
  sub {a b} h := by
    have hdiff : (a - b).toNat = a.toNat - b.toNat :=
      UInt64.toNat_sub_of_le a b (UInt64.le_iff_toNat_le.mpr h)
    have hcast : ((a.toNat : Int) - b.toNat) = ((a.toNat - b.toNat : Nat) : Int) := by omega
    change word? ((a.toNat : Int) - b.toNat) = _
    rw [hcast]
    exact word?_eq_some hdiff
  mul {a b} h := by
    have hprod : (a * b).toNat = a.toNat * b.toNat := by
      rw [UInt64.toNat_mul, Nat.mod_eq_of_lt h]
    exact word?_eq_some hprod
  addWide {x y} h := wide?_eq_some (by rw [Wide.toNat_add, Nat.mod_eq_of_lt h])
  addWord {x c} h := wide?_eq_some (by rw [Wide.toNat_addWord, Nat.mod_eq_of_lt h])
  shiftRight {x k} hpos hk h :=
    word?_eq_some (by rw [Wide.toNat_shiftRight x hpos hk, Nat.mod_eq_of_lt h])

/-! Loops run on a machine as they run without it, if the invariant that the operations need
is kept. -/

section Loops

variable {α β : Type} {inv : α → Prop}

/-- Repeats an operation that can stop. -/
def repeatOn (f : α → Option α) : Nat → α → Option α
  | 0, a => some a
  | n + 1, a => do f (← repeatOn f n a)

/-- Counts down through an operation that can stop. -/
def descendOn (f : Nat → α → Option α) : Nat → α → Option α
  | 0, a => some a
  | n + 1, a => do descendOn f n (← f n a)

/-- A step that keeps an invariant and runs from it is repeated any number of times. -/
theorem repeatOn_eq {f : α → Option α} {g : α → α}
    (hstep : ∀ a, inv a → f a = some (g a) ∧ inv (g a)) {a : α} (ha : inv a) (n : Nat) :
    repeatOn f n a = some (Nat.repeat g n a) ∧ inv (Nat.repeat g n a) := by
  induction n with
  | zero => exact ⟨rfl, ha⟩
  | succ n ih =>
    obtain ⟨heq, hinv⟩ := ih
    obtain ⟨hrun, hkept⟩ := hstep _ hinv
    refine ⟨?_, hkept⟩
    rw [repeatOn, heq]
    exact hrun

/-- Only the steps that are counted through are needed. -/
theorem descendOn_eq_of_lt {f : Nat → α → Option α} {g : Nat → α → α} {n : Nat}
    (hstep : ∀ i < n, ∀ a, inv a → f i a = some (g i a) ∧ inv (g i a)) {a : α} (ha : inv a) :
    descendOn f n a = some (n.foldRev (fun i _ => g i) a) ∧
      inv (n.foldRev (fun i _ => g i) a) := by
  induction n generalizing a with
  | zero => exact ⟨rfl, ha⟩
  | succ n ih =>
    obtain ⟨hrun, hkept⟩ := hstep n (Nat.lt_succ_self n) a ha
    rw [descendOn, hrun, Nat.foldRev_succ]
    exact ih (fun i hi => hstep i (Nat.lt_succ_of_lt hi)) hkept

/-- The same for steps that are numbered downwards. -/
theorem descendOn_eq {f : Nat → α → Option α} {g : Nat → α → α}
    (hstep : ∀ i a, inv a → f i a = some (g i a) ∧ inv (g i a)) {a : α} (ha : inv a) (n : Nat) :
    descendOn f n a = some (n.foldRev (fun i _ => g i) a) ∧
      inv (n.foldRev (fun i _ => g i) a) :=
  descendOn_eq_of_lt (fun i _ => hstep i) ha

theorem foldlM_eq {f : α → β → Option α} {g : α → β → α} {bs : List β} {ok : β → Prop}
    (hstep : ∀ a b, inv a → ok b → f a b = some (g a b) ∧ inv (g a b)) {a : α} (ha : inv a)
    (hbs : ∀ b ∈ bs, ok b) :
    bs.foldlM f a = some (bs.foldl g a) ∧ inv (bs.foldl g a) := by
  induction bs generalizing a with
  | nil => exact ⟨rfl, ha⟩
  | cons b rest ih =>
    obtain ⟨hrun, hkept⟩ := hstep a b ha (hbs b List.mem_cons_self)
    rw [List.foldlM_cons, hrun, List.foldl_cons]
    exact ih hkept fun c hc => hbs c (List.mem_cons_of_mem b hc)

/-- A loop whose operation never stops needs no invariant. -/
theorem descendOn_eq_foldRev {f : Nat → α → Option α} {g : Nat → α → α} {n : Nat}
    (hstep : ∀ i < n, ∀ a, f i a = some (g i a)) (a : α) :
    descendOn f n a = some (n.foldRev (fun i _ => g i) a) := by
  have hkept : ∀ i < n, ∀ a, True → f i a = some (g i a) ∧ True :=
    fun i hi a _ => ⟨hstep i hi a, trivial⟩
  exact (descendOn_eq_of_lt hkept trivial).1

/-- Along a list, where no step asks anything of what it starts from. -/
theorem foldlM_eq_foldl {f : α → β → Option α} {g : α → β → α} {bs : List β}
    (hstep : ∀ b ∈ bs, ∀ a, f a b = some (g a b)) (a : α) :
    bs.foldlM f a = some (bs.foldl g a) := by
  have hkept : ∀ a b, True → b ∈ bs → f a b = some (g a b) ∧ True :=
    fun a b _ hb => ⟨hstep b hb a, trivial⟩
  exact (foldlM_eq hkept trivial fun _ hb => hb).1

theorem mapM_eq {f : α → Option β} {g : α → β} {as : List α}
    (hstep : ∀ a ∈ as, f a = some (g a)) : as.mapM f = some (as.map g) := by
  induction as with
  | nil => rfl
  | cons a rest ih =>
    rw [List.mapM_cons, hstep a List.mem_cons_self,
      ih fun b hb => hstep b (List.mem_cons_of_mem a hb)]
    rfl

/-- What holds of each result holds of all of them. -/
theorem mapM_eq_and_forall {f : α → Option β} {g : α → β} {as : List α} {P : β → Prop}
    (hstep : ∀ a ∈ as, f a = some (g a) ∧ P (g a)) :
    as.mapM f = some (as.map g) ∧ ∀ b ∈ as.map g, P b :=
  ⟨mapM_eq fun a ha => (hstep a ha).1, List.forall_mem_map.mpr fun a ha => (hstep a ha).2⟩

end Loops

end Machine

end TwistedEdwards
