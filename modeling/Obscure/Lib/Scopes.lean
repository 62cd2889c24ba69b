import Mathlib.Data.List.Nodup
import Mathlib.Data.List.GetD
import Obscure.Lib.Lists

/-!
# Declarations, uses and their scopes

A program, as far as names go, is the list of what a traversal meets: declarations and
uses of names, and the brackets of scopes. A use means the latest declaration of its
name in the scopes that are open; declarations are numbered in the order in which they
are met.

A renaming pass gives new names to the declarations of some names and rewrites the uses
it sees. It may have an idea of its own of where scopes begin and end: every bracket says
whether it is one of the language, of the pass, or of both.

* `renameEvents`        — the pass, with a generator of fresh names;
* `nodup_declared_renameEvents` — the declared names of the result are distinct;
* `rename_keeps_iff`    — it keeps the meaning of all uses exactly when, for the names it
  renames, it finds the declarations that the language means.
-/

namespace Lib

variable {ν β σ : Type}

-- ---------------------------------------------------------------------------
-- Scopes
-- ---------------------------------------------------------------------------

/-- What a traversal meets. -/
inductive Event (ν : Type) where
  | enter (language pass : Bool)
  | leave (language pass : Bool)
  | declare (x : ν)
  | use (x : ν) (seen : Bool)
deriving DecidableEq

/-- The bindings in force, newest first, and those in force where the open scopes were
entered. -/
structure Scopes (ν β : Type) where
  top : List (ν × β)
  outer : List (List (ν × β))

namespace Scopes

def start : Scopes ν β := ⟨[], []⟩

/-- Enter a scope, if this is one. -/
def enter (b : Bool) (s : Scopes ν β) : Scopes ν β := if b then ⟨s.top, s.top :: s.outer⟩ else s

/-- Leave a scope, if this is one. -/
def leave (b : Bool) (s : Scopes ν β) : Scopes ν β :=
  if b then
    match s.outer with
    | [] => s
    | t :: ts => ⟨t, ts⟩
  else s

def bind (s : Scopes ν β) (x : ν) (b : β) : Scopes ν β := ⟨(x, b) :: s.top, s.outer⟩

/-- All bindings satisfy `p`. -/
structure All (p : ν × β → Prop) (s : Scopes ν β) : Prop where
  top : ∀ e ∈ s.top, p e
  outer : ∀ t ∈ s.outer, ∀ e ∈ t, p e

/-- Rewrite all bindings, or drop them. -/
def filterMap {ν' β' : Type} (f : ν × β → Option (ν' × β')) (s : Scopes ν β) : Scopes ν' β' :=
  ⟨s.top.filterMap f, s.outer.map fun t => t.filterMap f⟩

section Lemmas

variable {ν' β' : Type} {p : ν × β → Prop} {f : ν × β → Option (ν' × β')} {s : Scopes ν β}

theorem All.enter (h : s.All p) (b : Bool) : (s.enter b).All p := by
  cases b
  · exact h
  · exact ⟨h.top, List.forall_mem_cons.mpr ⟨h.top, h.outer⟩⟩

theorem All.leave (h : s.All p) (b : Bool) : (s.leave b).All p := by
  obtain ⟨top, outer⟩ := s
  cases b
  · exact h
  · cases outer with
    | nil => exact h
    | cons t ts =>
      obtain ⟨hTop, hOuter⟩ := List.forall_mem_cons.mp h.outer
      exact ⟨hTop, hOuter⟩

theorem All.bind (h : s.All p) {x : ν} {b : β} (hx : p (x, b)) : (s.bind x b).All p :=
  ⟨List.forall_mem_cons.mpr ⟨hx, h.top⟩, h.outer⟩

theorem filterMap_enter (b : Bool) : (s.enter b).filterMap f = (s.filterMap f).enter b := by
  cases b <;> rfl

theorem filterMap_leave (b : Bool) : (s.leave b).filterMap f = (s.filterMap f).leave b := by
  obtain ⟨top, outer⟩ := s
  cases b
  · rfl
  · cases outer <;> rfl

theorem filterMap_bind {x : ν} {b : β} :
    (s.bind x b).filterMap f =
      match f (x, b) with
      | none => s.filterMap f
      | some (x', b') => (s.filterMap f).bind x' b' := by
  unfold Scopes.bind filterMap
  cases h : f (x, b) with
  | none => simp [h]
  | some e => simp [h]

end Lemmas

end Scopes

-- ---------------------------------------------------------------------------
-- Uses and declarations
-- ---------------------------------------------------------------------------

/-- The declared names. -/
def declared : List (Event ν) → List ν
  | [] => []
  | .declare x :: es => x :: declared es
  | _ :: es => declared es

variable [DecidableEq ν]

/-- What the uses mean in the language; `n` is the number of the next declaration. -/
def meanings : List (Event ν) → Scopes ν Nat → Nat → List (Option Nat)
  | [], _, _ => []
  | .enter l _ :: es, s, n => meanings es (s.enter l) n
  | .leave l _ :: es, s, n => meanings es (s.leave l) n
  | .declare x :: es, s, n => meanings es (s.bind x n) (n + 1)
  | .use x _ :: es, s, n => s.top.lookup x :: meanings es s n

/-- A use: its name, what it means, and the declaration that the pass finds for it, if it sees
the use at all. -/
structure Use (ν : Type) where
  name : ν
  meant : Option Nat
  found : Option Nat
deriving DecidableEq

/-- The uses, with the scopes of the language and those of the pass. -/
def uses : List (Event ν) → Scopes ν Nat → Scopes ν Nat → Nat → List (Use ν)
  | [], _, _, _ => []
  | .enter l p :: es, s, t, n => uses es (s.enter l) (t.enter p) n
  | .leave l p :: es, s, t, n => uses es (s.leave l) (t.leave p) n
  | .declare x :: es, s, t, n => uses es (s.bind x n) (t.bind x n) (n + 1)
  | .use x seen :: es, s, t, n =>
    ⟨x, s.top.lookup x, if seen then t.top.lookup x else none⟩ :: uses es s t n

/-- The renaming pass: declarations of names with `dup` get fresh names, which `env` remembers. -/
def renameEvents (gen : ν → σ → ν × σ) (dup : ν → Bool) :
    List (Event ν) → Scopes ν ν → σ → List (Event ν) × Scopes ν ν × σ
  | [], env, st => ([], env, st)
  | .enter l p :: es, env, st =>
    let (es', out) := renameEvents gen dup es (env.enter p) st
    (.enter l p :: es', out)
  | .leave l p :: es, env, st =>
    let (es', out) := renameEvents gen dup es (env.leave p) st
    (.leave l p :: es', out)
  | .declare x :: es, env, st =>
    if dup x then
      let (x', st) := gen x st
      let (es', out) := renameEvents gen dup es (env.bind x x') st
      (.declare x' :: es', out)
    else
      let (es', out) := renameEvents gen dup es env st
      (.declare x :: es', out)
  | .use x seen :: es, env, st =>
    let (es', out) := renameEvents gen dup es env st
    (.use (if seen then (env.top.lookup x).getD x else x) seen :: es', out)

theorem meant_uses (es : List (Event ν)) (s t : Scopes ν Nat) (n : Nat) :
    (uses es s t n).map Use.meant = meanings es s n := by
  induction es generalizing s t n with
  | nil => rfl
  | cons e es ih => cases e <;> simp [uses, meanings, ih]

omit [DecidableEq ν] in
theorem declared_append (a b : List (Event ν)) : declared (a ++ b) = declared a ++ declared b := by
  induction a with
  | nil => rfl
  | cons e a ih => cases e <;> simp [declared, ih]

/-- Passes compose along the list. -/
theorem renameEvents_append (gen : ν → σ → ν × σ) (dup : ν → Bool) (a b : List (Event ν))
    (env : Scopes ν ν) (st : σ) :
    renameEvents gen dup (a ++ b) env st =
      let (a', env', st') := renameEvents gen dup a env st
      let (b', out) := renameEvents gen dup b env' st'
      (a' ++ b', out) := by
  induction a generalizing env st with
  | nil => rfl
  | cons e a ih =>
    cases e with
    | declare x =>
      simp only [List.cons_append, renameEvents, ih]
      split <;> rfl
    | _ => simp only [List.cons_append, renameEvents, ih]

-- ---------------------------------------------------------------------------
-- The new names
-- ---------------------------------------------------------------------------

/-- The generator gives out names that are not taken, and takes them. -/
structure FreshGen (gen : ν → σ → ν × σ) (taken : σ → List ν) : Prop where
  fresh : ∀ x st, (gen x st).1 ∉ taken st
  grows : ∀ x st y, y ∈ taken (gen x st).2 ↔ y = (gen x st).1 ∨ y ∈ taken st

section Names

variable {gen : ν → σ → ν × σ} {taken : σ → List ν} {dup : ν → Bool}

/-- Declarations keep their names or get new ones. -/
theorem declared_renameEvents (hGen : FreshGen gen taken) (es : List (Event ν)) (env : Scopes ν ν)
    (st : σ) :
    List.Forall₂ (fun x y => (dup x = false → y = x) ∧ (dup x = true → y ∉ taken st)) (declared es)
      (declared (renameEvents gen dup es env st).1) := by
  induction es generalizing env st with
  | nil => exact .nil
  | cons e es ih =>
    cases e with
    | declare x =>
      rw [renameEvents]
      split
      · next hDup =>
        refine .cons ⟨fun hNot => absurd hDup (by simp [hNot]), fun _ => hGen.fresh x st⟩ ?_
        refine (ih _ _).imp fun a b hab => ⟨hab.1, fun ha hTaken => hab.2 ha ?_⟩
        exact (hGen.grows x st b).mpr (Or.inr hTaken)
      · next hDup => exact .cons ⟨fun _ => rfl, fun hYes => absurd hYes hDup⟩ (ih _ _)
    | _ => exact ih _ _

/-- The declared names of the result are distinct when only repeated names are renamed. -/
theorem nodup_declared_renameEvents (hGen : FreshGen gen taken) (es : List (Event ν))
    (env : Scopes ν ν) (st : σ) (hTaken : ∀ x ∈ declared es, x ∈ taken st)
    (hOnce : ((declared es).filter fun x => !dup x).Nodup) :
    (declared (renameEvents gen dup es env st).1).Nodup := by
  induction es generalizing env st with
  | nil => exact List.nodup_nil
  | cons e es ih =>
    cases e with
    | declare x =>
      obtain ⟨hx, hTaken⟩ := List.forall_mem_cons.mp hTaken
      rw [declared] at hOnce
      rw [renameEvents]
      split
      · next hDup =>
        rw [List.filter_cons_of_neg (by simpa using hDup)] at hOnce
        have hStill : ∀ y ∈ declared es, y ∈ taken (gen x st).2 := fun y hy =>
          (hGen.grows x st y).mpr (Or.inr (hTaken y hy))
        refine List.nodup_cons.mpr ⟨fun hMem => ?_, ih _ _ hStill hOnce⟩
        obtain ⟨y, hy, hKeep, hNew⟩ :=
          exists_left_of_forall₂ (declared_renameEvents hGen es _ _) hMem
        cases hDup' : dup y with
        | false => exact hGen.fresh x st (hKeep hDup' ▸ hTaken y hy)
        | true => exact hNew hDup' ((hGen.grows x st _).mpr (Or.inl rfl))
      · next hDup =>
        rw [List.filter_cons_of_pos (by simpa using hDup), List.nodup_cons] at hOnce
        refine List.nodup_cons.mpr ⟨fun hMem => ?_, ih _ _ hTaken hOnce.2⟩
        obtain ⟨y, hy, hKeep, hNew⟩ :=
          exists_left_of_forall₂ (declared_renameEvents hGen es _ _) hMem
        cases hDup' : dup y with
        | false =>
          obtain rfl := hKeep hDup'
          exact hOnce.1 (List.mem_filter.mpr ⟨hy, by simpa using hDup'⟩)
        | true => exact hNew hDup' hx
    | _ => exact ih _ _ hTaken hOnce

end Names

-- ---------------------------------------------------------------------------
-- What the uses mean afterwards
-- ---------------------------------------------------------------------------

section Meaning

variable {gen : ν → σ → ν × σ} {dup : ν → Bool} {names : Nat → ν} {decls : List ν} {N : Nat}

/-- A binding of a name that was declared: `names` knows the new name of the declaration. -/
structure Renamed (dup : ν → Bool) (names : Nat → ν) (decls : List ν) (N : Nat) (e : ν × Nat) :
    Prop where
  lt : e.2 < N
  mem : e.1 ∈ decls
  kept : dup e.1 = false → names e.2 = e.1
  new : dup e.1 = true → names e.2 ∉ decls

/-- What the pass remembers of a binding. -/
def remembered (dup : ν → Bool) (names : Nat → ν) (e : ν × Nat) : Option (ν × ν) :=
  if dup e.1 then some (e.1, names e.2) else none

/-- A binding in the renamed program. -/
def rebound (names : Nat → ν) (e : ν × Nat) : Option (ν × Nat) := some (names e.2, e.2)

theorem lookup_remembered (l : List (ν × Nat)) (x : ν) :
    (l.filterMap (remembered dup names)).lookup x =
      if dup x then (l.lookup x).map names else none := by
  induction l with
  | nil => simp
  | cons e l ih =>
    obtain ⟨y, d⟩ := e
    rw [lookup_cons_ite]
    cases hDup : dup y with
    | true =>
      rw [List.filterMap_cons_some
        (show remembered dup names (y, d) = some (y, names d) by simp [remembered, hDup]),
          lookup_cons_ite, ih]
      by_cases hxy : x = y
      · simp [hxy, hDup]
      · simp [hxy]
    | false =>
      rw [List.filterMap_cons_none (by simp [remembered, hDup]), ih]
      by_cases hxy : x = y
      · simp [hxy, hDup]
      · simp [hxy]

theorem mem_of_lookup_eq_some {l : List (ν × Nat)} {x : ν} {d : Nat} (h : l.lookup x = some d) :
    (x, d) ∈ l := by
  obtain ⟨pre, post, rfl, -⟩ := List.lookup_eq_some_iff.mp h
  simp

/-- New names lead to their declarations. -/
theorem lookup_rebound {l : List (ν × Nat)} (hInj : ∀ i < N, ∀ j < N, names i = names j → i = j)
    (hLt : ∀ e ∈ l, e.2 < N) {y : ν} {d : Nat} :
    (l.filterMap (rebound names)).lookup y = some d ↔ (∃ x, (x, d) ∈ l) ∧ names d = y := by
  induction l with
  | nil => simp
  | cons e l ih =>
    obtain ⟨z, k⟩ := e
    obtain ⟨hk, hLt⟩ := List.forall_mem_cons.mp hLt
    rw [List.filterMap_cons_some (show rebound names (z, k) = some (names k, k) from rfl),
      lookup_cons_ite]
    split
    · next hy =>
      constructor
      · intro hEq
        cases hEq
        exact ⟨⟨z, by simp⟩, hy.symm⟩
      · rintro ⟨⟨x, hx⟩, hName⟩
        have hd : d < N := by
          rcases List.mem_cons.mp hx with hEq | hx
          · cases hEq
            exact hk
          · exact hLt _ hx
        rw [hInj k hk d hd (hy ▸ hName.symm)]
    · next hy =>
      rw [ih hLt]
      refine and_congr_left fun hName => ⟨fun ⟨x, hx⟩ => ⟨x, by simp [hx]⟩, fun ⟨x, hx⟩ => ⟨x, ?_⟩⟩
      rcases List.mem_cons.mp hx with hEq | hx
      · cases hEq
        exact absurd hName.symm hy
      · exact hx

/-- One use means what it meant exactly when the pass finds that, or leaves the name alone. -/
theorem use_iff (hInj : ∀ i < N, ∀ j < N, names i = names j → i = j) {l r : List (ν × Nat)}
    (hl : ∀ e ∈ l, Renamed dup names decls N e) (hr : ∀ e ∈ r, Renamed dup names decls N e) (x : ν)
    (seen : Bool) (d : Nat) (hMeant : l.lookup x = some d) :
    (l.filterMap (rebound names)).lookup
        (if seen then ((r.filterMap (remembered dup names)).lookup x).getD x else x) = some d ↔
      (dup x = true → (if seen then r.lookup x else none) = some d) := by
  have hEntry := hl _ (mem_of_lookup_eq_some hMeant)
  rw [lookup_rebound hInj fun e he => (hl e he).lt, lookup_remembered,
    and_iff_right ⟨x, mem_of_lookup_eq_some hMeant⟩]
  cases hDup : dup x with
  | false =>
    -- the name is kept, and so is the use
    refine iff_of_true ?_ (by simp)
    rw [hEntry.kept hDup]
    cases seen <;> simp
  | true =>
    have hNew := hEntry.new hDup
    have hOld : names d ≠ x := fun hEq => hNew (hEq ▸ hEntry.mem)
    cases seen with
    | false => exact iff_of_false hOld (by simp)
    | true =>
      simp only [if_true, true_implies]
      cases hFound : r.lookup x with
      | none => exact iff_of_false hOld (by simp)
      | some k =>
        rw [Option.map_some, Option.getD_some]
        have hk := (hr _ (mem_of_lookup_eq_some hFound)).lt
        exact ⟨fun hEq => congrArg some (hInj k hk d hEntry.lt hEq.symm),
          fun hEq => by cases hEq; rfl⟩

/-- The uses of a program and what they mean in the renamed one. -/
theorem uses_renameEvents (hInj : ∀ i < N, ∀ j < N, names i = names j → i = j)
    (es : List (Event ν)) (s t : Scopes ν Nat) (n : Nat) (st : σ)
    (hs : s.All (Renamed dup names decls N)) (ht : t.All (Renamed dup names decls N))
    (hNew : List.Forall₂ (fun x y => (dup x = false → y = x) ∧ (dup x = true → y ∉ decls))
      (declared es) (declared (renameEvents gen dup es (t.filterMap (remembered dup names)) st).1))
    (hNames : ∀ k y, (declared
      (renameEvents gen dup es (t.filterMap (remembered dup names)) st).1)[k]? =
      some y → names (n + k) = y)
    (hDecls : ∀ x ∈ declared es, x ∈ decls) (hN : n + (declared es).length ≤ N) :
    List.Forall₂ (fun u r => ∀ d, u.meant = some d →
      (r = some d ↔ (dup u.name = true → u.found = some d))) (uses es s t n)
      (meanings (renameEvents gen dup es (t.filterMap (remembered dup names)) st).1
        (s.filterMap (rebound names)) n) := by
  -- along the walk: `s` is the scopes of the language, `t` the dictionaries of the renaming
  induction es generalizing s t n st with
  | nil => exact .nil
  | cons e es ih =>
    cases e with
    | enter l p =>
      simp only [renameEvents, meanings, uses, declared, ← Scopes.filterMap_enter] at hNew hNames ⊢
      exact ih (s.enter l) (t.enter p) n st (hs.enter l) (ht.enter p) hNew hNames hDecls hN
    | leave l p =>
      simp only [renameEvents, meanings, uses, declared, ← Scopes.filterMap_leave] at hNew hNames ⊢
      exact ih (s.leave l) (t.leave p) n st (hs.leave l) (ht.leave p) hNew hNames hDecls hN
    | use x seen =>
      simp only [renameEvents, meanings, uses, declared] at hNew hNames ⊢
      -- a use is resolved at once, the rest by induction
      refine .cons (fun d hMeant => use_iff hInj hs.top ht.top x seen d hMeant) ?_
      exact ih s t n st hs ht hNew hNames hDecls hN
    | declare x =>
      obtain ⟨hx, hDecls⟩ := List.forall_mem_cons.mp hDecls
      rw [declared, List.length_cons] at hN
      -- a name declared once stays and is forgotten; one declared twice is remembered under its
      -- new name
      cases hDup : dup x with
      | false =>
        have hDup' : ¬ dup x = true := by simp [hDup]
        simp only [renameEvents, if_neg hDup', meanings, uses, declared] at hNew hNames ⊢
        obtain ⟨-, hNew⟩ := List.forall₂_cons.mp hNew
        have hName : names n = x := hNames 0 x rfl
        have hEntry : Renamed dup names decls N (x, n) :=
          ⟨by show n < N; omega, hx, fun _ => hName, fun h => absurd h hDup'⟩
        have hForget : (t.bind x n).filterMap (remembered dup names) = t.filterMap
            (remembered dup names) := by
          rw [Scopes.filterMap_bind]
          simp [remembered, hDup]
        have hBind : (s.filterMap (rebound names)).bind x n = (s.bind x n).filterMap
            (rebound names) := by
          rw [Scopes.filterMap_bind]
          simp [rebound, hName]
        rw [hBind]
        have hRest := ih (s.bind x n) (t.bind x n) (n + 1) st (hs.bind hEntry) (ht.bind hEntry)
        rw [hForget] at hRest
        refine hRest hNew (fun k y hy => ?_) hDecls (by omega)
        rw [Nat.add_assoc, Nat.add_comm 1 k]
        exact hNames (k + 1) y hy
      | true =>
        simp only [renameEvents, hDup, if_true, meanings, uses, declared] at hNew hNames ⊢
        obtain ⟨hFirst, hNew⟩ := List.forall₂_cons.mp hNew
        have hName : names n = (gen x st).1 := hNames 0 _ rfl
        have hEntry : Renamed dup names decls N (x, n) :=
          ⟨by show n < N; omega, hx, fun h => absurd h (by simp [hDup]),
            fun h => hName ▸ hFirst.2 h⟩
        have hKeep : (t.bind x n).filterMap (remembered dup names) =
            (t.filterMap (remembered dup names)).bind x (gen x st).1 := by
          rw [Scopes.filterMap_bind]
          simp [remembered, hDup, hName]
        have hBind : (s.filterMap (rebound names)).bind (gen x st).1 n =
            (s.bind x n).filterMap (rebound names) := by
          rw [Scopes.filterMap_bind]
          simp [rebound, hName]
        rw [hBind]
        have hRest := ih (s.bind x n) (t.bind x n) (n + 1) (gen x st).2 (hs.bind hEntry)
          (ht.bind hEntry)
        rw [hKeep] at hRest
        refine hRest hNew (fun k y hy => ?_) hDecls (by omega)
        rw [Nat.add_assoc, Nat.add_comm 1 k]
        exact hNames (k + 1) y hy

end Meaning

/-- Whether the partners agree can be read off the left list. -/
theorem forall₂_iff_of_iff {α β : Type} {R : α → β → Prop} {p : α → Prop} {xs : List α}
    {ys : List β} (h : List.Forall₂ (fun x y => R x y ↔ p x) xs ys) :
    List.Forall₂ R xs ys ↔ ∀ x ∈ xs, p x := by
  induction h with
  | nil => simp
  | cons hxy _ ih => rw [List.forall₂_cons, List.forall_mem_cons, hxy, ih]

/-- The renaming keeps the meaning of all uses exactly when the pass finds, for the names that it
renames, the declarations that the language means. -/
theorem rename_keeps_iff [Inhabited ν] {gen : ν → σ → ν × σ} {taken : σ → List ν} {dup : ν → Bool}
    (hGen : FreshGen gen taken) (es : List (Event ν)) (st : σ)
    (hTaken : ∀ x ∈ declared es, x ∈ taken st)
    (hOnce : ((declared es).filter fun x => !dup x).Nodup) :
    List.Forall₂ (fun m r => ∀ d, m = some d → r = some d) (meanings es .start 0)
        (meanings (renameEvents gen dup es .start st).1 .start 0) ↔
      ∀ u ∈ uses es .start .start 0, dup u.name = true → ∀ d, u.meant = some d →
        u.found = some d := by
  let names : Nat → ν := fun k => (declared (renameEvents gen dup es .start st).1).getD k default
  have hRel : List.Forall₂ (fun x y => (dup x = false → y = x) ∧ (dup x = true → y ∉ taken st))
      (declared es) (declared (renameEvents gen dup es .start st).1) :=
    declared_renameEvents hGen es .start st
  have hNodup := nodup_declared_renameEvents hGen es .start st hTaken hOnce
  have hInj : ∀ i < (declared es).length, ∀ j < (declared es).length, names i = names j →
      i = j := by
    intro i hi j hj hEq
    rw [hRel.length_eq] at hi hj
    simp only [names, List.getD_eq_getElem _ _ hi, List.getD_eq_getElem _ _ hj] at hEq
    exact (hNodup.getElem_inj_iff).mp hEq
  have hEach : List.Forall₂
      (fun u r => ∀ d, u.meant = some d → (r = some d ↔ (dup u.name = true → u.found = some d)))
      (uses es .start .start 0) (meanings (renameEvents gen dup es .start st).1 .start 0) :=
    uses_renameEvents hInj es .start .start 0 st ⟨by simp [Scopes.start], by simp [Scopes.start]⟩
    ⟨by simp [Scopes.start], by simp [Scopes.start]⟩
    (hRel.imp fun x y hxy => ⟨hxy.1, fun hDup hMem => hxy.2 hDup (hTaken y hMem)⟩)
    (fun k y hy => by
      have hEq : (declared (renameEvents gen dup es .start st).1)[k]? = some y := hy
      simp [names, List.getD, hEq])
    (fun x hx => hx) (by omega)
  rw [← meant_uses es .start .start 0, List.forall₂_map_left_iff]
  refine forall₂_iff_of_iff (hEach.imp fun u r hUse => ?_)
  exact ⟨fun h hDup d hMeant => (hUse d hMeant).mp (h d hMeant) hDup,
    fun h d hMeant => (hUse d hMeant).mpr fun hDup => h hDup d hMeant⟩

end Lib
