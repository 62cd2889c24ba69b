import Mathlib.Order.WellFounded
import Mathlib.Data.List.Forall2
import Mathlib.Order.Lattice.Nat

/-!
# Loops with exceptions

A `while` loop whose body may raise, given fuel. The body gets the number of the
round it is in, and answers with the next state or with the result of the loop.
Whether a computation returns is a statement about all large enough fuels
(`Returns`), so it composes without counting rounds.

* `loop_ok`      — the invariant rule: what holds of a result, for any fuel;
* `loop_returns` — the termination rule: a body that goes down in a well-founded
  order makes the loop return;
* `Stable`       — one fuel that suffices is enough.
-/

namespace Lib

variable {ε σ α β : Type}

/-- `while`: rounds are numbered from `i`, and running out of fuel is `stuck`. -/
def loop (stuck : ε) (body : Nat → σ → Except ε (σ ⊕ β)) : Nat → Nat → σ → Except ε β
  | 0, _, _ => .error stuck
  | fuel + 1, i, s =>
    match body i s with
    | .error e => .error e
    | .ok (.inl s') => loop stuck body fuel (i + 1) s'
    | .ok (.inr b) => .ok b

/-- What a successful sequence of two computations went through. -/
theorem bind_eq_ok {x : Except ε α} {f : α → Except ε β} {b : β} :
    x >>= f = .ok b ↔ ∃ a, x = .ok a ∧ f a = .ok b := by
  cases x with
  | error e => simp [bind, Except.bind]
  | ok a => simp [bind, Except.bind]

@[simp] theorem ok_bind {a : α} {f : α → Except ε β} : Except.ok a >>= f = f a := rfl

/-- A list on which every step succeeds. -/
theorem mapM_ok {f : α → Except ε β} {g : α → β} {l : List α} (h : ∀ a ∈ l, f a = .ok (g a)) :
    l.mapM f = .ok (l.map g) := by
  induction l with
  | nil => rfl
  | cons a l ih =>
    rw [List.mapM_cons, h a (by simp), ih fun b hb => h b (by simp [hb])]
    rfl

/-- The same, with a relation between the arguments and the results. -/
theorem exists_mapM_ok {f : α → Except ε β} {P : α → β → Prop} {l : List α}
    (h : ∀ a ∈ l, ∃ b, f a = .ok b ∧ P a b) : ∃ bs, l.mapM f = .ok bs ∧ List.Forall₂ P l bs := by
  induction l with
  | nil => exact ⟨[], rfl, .nil⟩
  | cons a l ih =>
    obtain ⟨b, hb, hP⟩ := h a (by simp)
    obtain ⟨bs, hbs, hAll⟩ := ih fun c hc => h c (by simp [hc])
    refine ⟨b :: bs, ?_, .cons hP hAll⟩
    rw [List.mapM_cons, hb, hbs]
    rfl

/-- A `for` loop over a list, with an invariant that says how much of the list is
done. -/
theorem exists_foldlM_ok {f : σ → α → Except ε σ} {P : List α → σ → Prop} {l : List α}
    (hStep : ∀ done a rest, l = done ++ a :: rest → ∀ s, P done s →
      ∃ s', f s a = .ok s' ∧ P (done ++ [a]) s') {s : σ} (hs : P [] s) :
    ∃ s', l.foldlM f s = .ok s' ∧ P l s' := by
  suffices h : ∀ done rest s, l = done ++ rest → P done s →
      ∃ s', rest.foldlM f s = .ok s' ∧ P l s' from h [] l s rfl hs
  intro done rest
  induction rest generalizing done with
  | nil =>
    intro s hl hs
    rw [List.append_nil] at hl
    exact ⟨s, rfl, hl ▸ hs⟩
  | cons a rest ih =>
    intro s hl hs
    obtain ⟨s₁, hOne, hs₁⟩ := hStep done a rest hl s hs
    obtain ⟨s', hRest, hs'⟩ := ih (done ++ [a]) s₁ (by simp [hl]) hs₁
    refine ⟨s', ?_, hs'⟩
    rw [List.foldlM_cons, hOne]
    exact hRest

/-- A `for` loop that raises nothing. -/
theorem foldl_induct {f : σ → α → σ} {P : List α → σ → Prop} {l : List α}
    (hStep : ∀ done a rest, l = done ++ a :: rest → ∀ s, P done s → P (done ++ [a]) (f s a))
    {s : σ} (hs : P [] s) : P l (l.foldl f s) := by
  suffices h : ∀ done rest s, l = done ++ rest → P done s →
    P l (rest.foldl f s) from h [] l s rfl hs
  intro done rest
  induction rest generalizing done with
  | nil =>
    intro s hl hs
    rw [List.append_nil] at hl
    exact hl ▸ hs
  | cons a rest ih =>
    intro s hl hs
    exact ih (done ++ [a]) (f s a) (by simp [hl]) (hStep done a rest hl s hs)

/-- A `for` loop seen through a function of its state. -/
theorem foldlM_map_ok {τ : Type} {step : σ → α → Except ε σ} {step' : τ → α → Except ε τ}
    {f : σ → τ} (h : ∀ s s' a, step s a = .ok s' → step' (f s) a = .ok (f s')) {l : List α}
    {s s' : σ} (hFold : l.foldlM step s = .ok s') : l.foldlM step' (f s) = .ok (f s') := by
  induction l generalizing s with
  | nil =>
    cases hFold
    rfl
  | cons a l ih =>
    rw [List.foldlM_cons] at hFold ⊢
    obtain ⟨s₁, hOne, hRest⟩ := bind_eq_ok.mp hFold
    rw [h s s₁ a hOne]
    exact ih hRest

/-- A sequence raises what its first or its second part raises. -/
theorem bind_ne_error {e : ε} {x : Except ε α} {f : α → Except ε β} (hx : x ≠ .error e)
    (hf : ∀ a, x = .ok a → f a ≠ .error e) : x >>= f ≠ .error e := by
  cases x with
  | error e' =>
    intro h
    cases h
    exact hx rfl
  | ok a => exact hf a rfl

/-- A fold raises only what a step raises. -/
theorem foldlM_ne_error {e : ε} {step : σ → α → Except ε σ} {l : List α}
    (h : ∀ a ∈ l, ∀ s, step s a ≠ .error e) (s : σ) : l.foldlM step s ≠ .error e := by
  induction l generalizing s with
  | nil => exact nofun
  | cons a l ih =>
    rw [List.foldlM_cons]
    exact bind_ne_error (h a (by simp) s) fun s' _ => ih (fun b hb => h b (by simp [hb])) s'

/-- So does a map. -/
theorem mapM_ne_error {e : ε} {f : α → Except ε β} {l : List α} (h : ∀ a, f a ≠ .error e) :
    l.mapM f ≠ .error e := by
  induction l with
  | nil => exact nofun
  | cons a l ih =>
    rw [List.mapM_cons]
    exact bind_ne_error (h a) fun b _ => bind_ne_error ih fun bs _ => nofun

/-- With enough fuel the computation returns `a`. -/
def Returns (f : Nat → Except ε α) (a : α) : Prop := ∃ N, ∀ k ≥ N, f k = .ok a

theorem Returns.of_eq {f : Nat → Except ε α} {a : α} (h : ∀ k, f k = .ok a) : Returns f a :=
  ⟨0, fun k _ => h k⟩

theorem Returns.congr {f g : Nat → Except ε α} {a : α} (h : Returns f a) (hEq : ∀ k, f k = g k) :
    Returns g a := by
  obtain ⟨N, hN⟩ := h
  exact ⟨N, fun k hk => hEq k ▸ hN k hk⟩

/-- There is one result. -/
theorem Returns.unique {f : Nat → Except ε α} {a b : α} (ha : Returns f a) (hb : Returns f b) :
    a = b := by
  obtain ⟨N, hN⟩ := ha
  obtain ⟨M, hM⟩ := hb
  have hEq := (hN _ (le_max_left N M)).symm.trans (hM _ (le_max_right N M))
  exact Except.ok.inj hEq

/-- One computation after another. -/
theorem Returns.bind {f : Nat → Except ε α} {g : Nat → α → Except ε β} {a : α} {b : β}
    (hf : Returns f a) (hg : Returns (fun k => g k a) b) :
    Returns (fun k => f k >>= g k) b := by
  obtain ⟨N, hN⟩ := hf
  obtain ⟨M, hM⟩ := hg
  refine ⟨max N M, fun k hk => ?_⟩
  show f k >>= g k = .ok b
  rw [hN k (le_trans (le_max_left N M) hk)]
  exact hM k (le_trans (le_max_right N M) hk)

/-- Two steps return if each of them does. -/
theorem Returns.exists_bind {f : Nat → Except ε α} {g : Nat → α → Except ε β} {a : α}
    (hf : Returns f a) (hg : ∃ b, Returns (fun k => g k a) b) :
    ∃ b, Returns (fun k => f k >>= g k) b := by
  obtain ⟨b, hb⟩ := hg
  exact ⟨b, hf.bind hb⟩

/-- A `for` loop whose rounds share the fuel. -/
theorem exists_foldlM_returns {f : Nat → σ → α → Except ε σ} {P : List α → σ → Prop} {l : List α}
    (hStep : ∀ done a rest, l = done ++ a :: rest → ∀ s, P done s →
      ∃ s', Returns (fun k => f k s a) s' ∧ P (done ++ [a]) s') {s : σ} (hs : P [] s) :
    ∃ s', Returns (fun k => l.foldlM (f k) s) s' ∧ P l s' := by
  suffices h : ∀ done rest s, l = done ++ rest → P done s →
      ∃ s', Returns (fun k => rest.foldlM (f k) s) s' ∧ P l s' from h [] l s rfl hs
  intro done rest
  induction rest generalizing done with
  | nil =>
    intro s hl hs
    rw [List.append_nil] at hl
    exact ⟨s, Returns.of_eq fun _ => rfl, hl ▸ hs⟩
  | cons a rest ih =>
    intro s hl hs
    obtain ⟨s₁, hOne, hs₁⟩ := hStep done a rest hl s hs
    obtain ⟨s', hRest, hs'⟩ := ih (done ++ [a]) s₁ (by simp [hl]) hs₁
    exact ⟨s', (hOne.bind hRest).congr fun _ => (List.foldlM_cons ..).symm, hs'⟩

/-- A search without a state returns when some round finds something. -/
theorem loop_search_returns {e : ε} {f : Nat → Unit → Except ε (Unit ⊕ β)} {Q : β → Prop}
    (hBody : ∀ i, f i () = .ok (.inl ()) ∨ ∃ b, f i () = .ok (.inr b) ∧ Q b) {t : Nat}
    (ht : ∃ b, f t () = .ok (.inr b)) :
    ∃ b, Returns (fun k => loop e f k 0 ()) b ∧ Q b := by
  suffices h : ∀ d i, i + d = t → ∃ b, Returns (fun k => loop e f k i ()) b ∧ Q b from
    h t 0 (Nat.zero_add t)
  intro d
  induction d with
  | zero =>
    rintro i rfl
    obtain ⟨b, hb⟩ := ht
    rcases hBody i with hGo | ⟨b', hb', hQ⟩
    · cases hb.symm.trans hGo
    · refine ⟨b', ⟨1, fun k hk => ?_⟩, hQ⟩
      obtain ⟨k, rfl⟩ := Nat.exists_eq_succ_of_ne_zero (show k ≠ 0 by omega)
      show loop e f (k + 1) i () = _
      rw [loop, hb']
  | succ d ih =>
    intro i hi
    rcases hBody i with hGo | ⟨b, hb, hQ⟩
    · obtain ⟨b, ⟨N, hN⟩, hQ⟩ := ih (i + 1) (by omega)
      refine ⟨b, ⟨N + 1, fun k hk => ?_⟩, hQ⟩
      obtain ⟨k, rfl⟩ := Nat.exists_eq_succ_of_ne_zero (show k ≠ 0 by omega)
      show loop e f (k + 1) i () = _
      rw [loop, hGo]
      exact hN k (by omega)
    · refine ⟨b, ⟨1, fun k hk => ?_⟩, hQ⟩
      obtain ⟨k, rfl⟩ := Nat.exists_eq_succ_of_ne_zero (show k ≠ 0 by omega)
      show loop e f (k + 1) i () = _
      rw [loop, hb]

/-- A property of every state the loop can be in gives a property of its
result. -/
theorem loop_ok {stuck : ε} {body : Nat → σ → Except ε (σ ⊕ β)} {P : σ → Prop} {Q : β → Prop}
    (hStep : ∀ i s s', P s → body i s = .ok (.inl s') → P s')
    (hDone : ∀ i s b, P s → body i s = .ok (.inr b) → Q b) {fuel i : Nat} {s : σ} {b : β}
    (hs : P s) (h : loop stuck body fuel i s = .ok b) : Q b := by
  induction fuel generalizing i s with
  | zero => cases h
  | succ fuel ih =>
    rw [loop] at h
    split at h
    · cases h
    · next s' hBody => exact ih (hStep i s s' hs hBody) h
    · next b' hBody =>
      cases h
      exact hDone i s b hs hBody

/-- A loop whose body returns from every state of the invariant, and goes down
when it goes on, returns. The body shares the fuel of the loop. -/
theorem loop_returns {stuck : ε} {body : Nat → Nat → σ → Except ε (σ ⊕ β)} {P : σ → Prop}
    {Q : β → Prop} {lt : σ → σ → Prop} (hWf : WellFounded lt)
    (hBody : ∀ i s, P s → ∃ r, Returns (fun k => body k i s) r ∧
      match r with
      | .inl s' => P s' ∧ lt s' s
      | .inr b => Q b)
    (i : Nat) {s : σ} (hs : P s) :
    ∃ b, Returns (fun k => loop stuck (body k) k i s) b ∧ Q b := by
  -- the fuel that counts rounds and the fuel of the body grow independently
  suffices h : ∃ b N, (∀ k ≥ N, ∀ fuel ≥ N, loop stuck (body k) fuel i s = .ok b) ∧ Q b by
    obtain ⟨b, N, hN, hb⟩ := h
    exact ⟨b, ⟨N, fun k hk => hN k hk k hk⟩, hb⟩
  induction s using hWf.induction generalizing i with
  | _ s ih =>
    obtain ⟨r, ⟨M, hM⟩, hr⟩ := hBody i s hs
    match r, hM, hr with
    | .inr b, hM, hb =>
      refine ⟨b, M + 1, fun k hk fuel hFuel => ?_, hb⟩
      obtain ⟨fuel, rfl⟩ := Nat.exists_eq_succ_of_ne_zero (show fuel ≠ 0 by omega)
      have hBodyEq : body k i s = .ok (.inr b) := hM k (by omega)
      rw [loop, hBodyEq]
    | .inl s', hM, hr =>
      obtain ⟨b, N, hN, hb⟩ := ih s' hr.2 (i + 1) hr.1
      refine ⟨b, max M N + 1, fun k hk fuel hFuel => ?_, hb⟩
      have hLeft := le_max_left M N
      have hRight := le_max_right M N
      obtain ⟨fuel, rfl⟩ := Nat.exists_eq_succ_of_ne_zero (show fuel ≠ 0 by omega)
      have hBodyEq : body k i s = .ok (.inl s') := hM k (by omega)
      rw [loop, hBodyEq]
      exact hN k (by omega) fuel (by omega)

/-- What is returned is returned with more fuel too. -/
def Stable (f : Nat → Except ε α) : Prop := ∀ k k' a, k ≤ k' → f k = .ok a → f k' = .ok a

theorem Stable.returns {f : Nat → Except ε α} (h : Stable f) {k : Nat} {a : α} (hk : f k = .ok a) :
    Returns f a :=
  ⟨k, fun k' hk' => h k k' a hk' hk⟩

theorem Stable.const (x : Except ε α) : Stable fun _ => x := fun _ _ _ _ h => h

/-- Two stable steps are. -/
theorem Stable.bind {f : Nat → Except ε α} {g : Nat → α → Except ε β} (hf : Stable f)
    (hg : ∀ a, Stable fun k => g k a) : Stable fun k => f k >>= g k := by
  intro k k' b hk h
  obtain ⟨a, ha, hb⟩ := bind_eq_ok.mp h
  exact bind_eq_ok.mpr ⟨a, hf k k' a hk ha, hg a k k' b hk hb⟩

/-- So is a fold of them. -/
theorem Stable.foldlM {f : Nat → σ → α → Except ε σ} (h : ∀ s a, Stable fun k => f k s a)
    (l : List α) (s : σ) : Stable fun k => l.foldlM (f k) s := by
  induction l generalizing s with
  | nil => exact Stable.const _
  | cons a l ih =>
    simp only [List.foldlM_cons]
    exact (h s a).bind ih

/-- A loop is stable even where its body is not given more fuel. -/
theorem Stable.loop (stuck : ε) (body : Nat → σ → Except ε (σ ⊕ β)) (i : Nat) (s : σ) :
    Stable fun k => loop stuck body k i s := by
  intro k
  induction k generalizing i s with
  | zero => exact fun _ _ _ h => nomatch h
  | succ k ih =>
    intro k' b hk h
    obtain ⟨k', rfl⟩ := Nat.exists_eq_succ_of_ne_zero (show k' ≠ 0 by omega)
    simp only [Lib.loop] at h ⊢
    split at h
    · cases h
    · exact ih _ _ k' b (by omega) h
    · exact h

end Lib
