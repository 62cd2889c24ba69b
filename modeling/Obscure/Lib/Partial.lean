import Mathlib.Data.Option.Basic

/-!
# Partial computations

Computations on a state that need not have a result, among them loops, which have none when
the fuel runs out.

* `Commutes f m` — `m` does not notice the change `f` of the state: it gives the same
  result, and the same change of the state after it;
* `Yields P m`   — every result of `m` has the property.

Both are closed under sequences and loops.
-/

namespace Lib

variable {σ α β ρ : Type}

/-- Go round until the test fails or the body leaves with a result. -/
def rounds (test : StateT σ Option Bool) (body : StateT σ Option (Option ρ))
    (next : StateT σ Option Unit) : Nat → StateT σ Option (Option ρ)
  | 0 => failure
  | fuel + 1 => do
    if ← test then
      match ← body with
      | some r => return some r
      | none => do
        next
        rounds test body next fuel
    else return none

/-- A change of the state before is the same change of the state after. -/
def Commutes (f : σ → σ) (m : StateT σ Option α) : Prop :=
  ∀ s, m.run (f s) = (m.run s).map (Prod.map id f)

/-- Every result has the property. -/
def Yields (P : α → Prop) (m : StateT σ Option α) : Prop :=
  ∀ s out, m.run s = some out → P out.1

@[simp] theorem liftM_some (a : α) : (liftM (some a) : StateT σ Option α) = pure a := rfl

section Commutes

variable {f : σ → σ} {m : StateT σ Option α} {k : α → StateT σ Option β}

theorem Commutes.pure (a : α) : Commutes f (pure a : StateT σ Option α) := fun _ => rfl

theorem Commutes.failure : Commutes f (failure : StateT σ Option α) := fun _ => rfl

theorem Commutes.lift (o : Option α) : Commutes f (monadLift o : StateT σ Option α) := by
  intro s
  cases o with
  | none => rfl
  | some a => rfl

/-- No change. -/
theorem Commutes.none (hf : ∀ s, f s = s) : Commutes f m := by
  intro s
  have hMap : Prod.map id f = (id : α × σ → α × σ) := funext fun out => Prod.ext rfl (hf out.2)
  rw [hf s, hMap, Option.map_id]
  rfl

/-- What follows may use the property of the result. -/
theorem Commutes.bind_yields {P : α → Prop} (hm : Commutes f m) (hP : Yields P m)
    (hk : ∀ a, P a → Commutes f (k a)) : Commutes f (m >>= k) := by
  intro s
  rw [StateT.run_bind, StateT.run_bind, hm s]
  cases hRun : m.run s with
  | none => rfl
  | some out => exact hk out.1 (hP s out hRun) out.2

/-- Two steps commute if each of them does. -/
theorem Commutes.bind (hm : Commutes f m) (hk : ∀ a, Commutes f (k a)) : Commutes f (m >>= k) :=
  hm.bind_yields (P := fun _ => True) (fun _ _ _ => trivial) fun a _ => hk a

theorem Commutes.map (g : α → β) (hm : Commutes f m) : Commutes f (g <$> m) := by
  rw [map_eq_pure_bind]
  exact hm.bind fun a => .pure (g a)

/-- A computation that only changes the state. -/
theorem Commutes.change {g : σ → σ} (h : ∀ s, g (f s) = f (g s)) :
    Commutes f (modify g : StateT σ Option PUnit) := by
  intro s
  show some (PUnit.unit, g (f s)) = some (PUnit.unit, f (g s))
  rw [h]

/-- The change can come after. -/
theorem Commutes.change_bind (hm : Commutes f m) :
    (do modify f; m >>= k) = (do let a ← m; modify f; k a) := by
  funext s
  show (m.run (f s)).bind _ = (m.run s).bind _
  rw [hm s]
  cases m.run s with
  | none => rfl
  | some out => rfl

/-- A loop commutes if its test, its body and its step do. -/
theorem Commutes.rounds {test : StateT σ Option Bool} {body : StateT σ Option (Option ρ)}
    {next : StateT σ Option Unit} (hTest : Commutes f test) (hBody : Commutes f body)
    (hNext : Commutes f next) (fuel : Nat) : Commutes f (rounds test body next fuel) := by
  induction fuel with
  | zero => exact .failure
  | succ fuel ih =>
    refine hTest.bind fun b => ?_
    split
    · refine hBody.bind fun r => ?_
      split
      · exact .pure _
      · exact hNext.bind fun _ => ih
    · exact .pure _

/-- Where the change is none before, it is none after. -/
theorem Commutes.fixed (hm : Commutes f m) {s : σ} (hs : f s = s) {out : α × σ}
    (h : m.run s = some out) : f out.2 = out.2 := by
  have hEq := hm s
  rw [hs, h] at hEq
  exact (congrArg Prod.snd (Option.some.inj hEq)).symm

end Commutes

section Yields

variable {P : α → Prop} {Q : β → Prop} {m : StateT σ Option α} {k : α → StateT σ Option β}

theorem Yields.pure {a : α} (h : P a) : Yields P (pure a : StateT σ Option α) := by
  rintro s out ⟨rfl⟩
  exact h

/-- What the first step yields is what the second one starts from. -/
theorem Yields.bind (hm : Yields P m) (hk : ∀ a, P a → Yields Q (k a)) : Yields Q (m >>= k) := by
  intro s out h
  rw [StateT.run_bind] at h
  obtain ⟨mid, hMid, hOut⟩ := Option.bind_eq_some_iff.mp h
  exact hk mid.1 (hm s mid hMid) mid.2 out hOut

theorem Yields.any : Yields (fun _ => True) m := fun _ _ _ => trivial

theorem Yields.map {g : α → β} (h : ∀ a, Q (g a)) : Yields Q (g <$> m) := by
  rw [map_eq_pure_bind]
  exact Yields.any.bind fun a _ => .pure (h a)

/-- A loop whose body does not leave it. -/
theorem Yields.rounds {test : StateT σ Option Bool} {body : StateT σ Option (Option ρ)}
    {next : StateT σ Option Unit} (hBody : Yields (· = none) body) (fuel : Nat) :
    Yields (· = none) (rounds test body next fuel) := by
  induction fuel with
  | zero =>
    intro s out h
    cases h
  | succ fuel ih =>
    refine Yields.any.bind fun b _ => ?_
    split
    · refine hBody.bind fun r hr => ?_
      subst hr
      exact Yields.any.bind fun _ _ => ih
    · exact .pure rfl

/-- What follows need only agree where the result has the property. -/
theorem Yields.bind_congr {k' : α → StateT σ Option β} (hm : Yields P m)
    (h : ∀ a, P a → k a = k' a) : m >>= k = m >>= k' := by
  funext s
  show (m.run s).bind _ = (m.run s).bind _
  cases hRun : m.run s with
  | none => rfl
  | some out =>
    show k out.1 out.2 = k' out.1 out.2
    rw [h out.1 (hm s out hRun)]

end Yields

end Lib
