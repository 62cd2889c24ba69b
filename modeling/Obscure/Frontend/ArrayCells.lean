import Mathlib.Data.List.Perm.Subperm
import Mathlib.Logic.Function.Basic
import Obscure.Frontend.ArrayRemover

/-!
# OBSCURE — the cells that C designates

What pointers point to in C, and when `ArrayRemover` agrees. The alias of a pointer is right after
an assignment exactly when the pointer that it is computed from can be resolved in one go
(`Faithful`): it has not been moved within its own array, nobody has moved the pointer that names
the array it points to, and nothing is subtracted. The size of a pointer parameter counts an access
through another pointer at the place where that pointer ends up.

* `resolve_iff`         — one assignment;
* `removeArrays_right`  — a run whose steps meet these conditions.
-/

namespace Obscure

open Lib

-- ---------------------------------------------------------------------------
-- Pointers in C
-- ---------------------------------------------------------------------------

/-- The names that have been declared, and the arrays and offsets that pointers have. An array is
called by its name, and what a pointer parameter points to by the name of the parameter. -/
structure PtrState where
  declared : List String
  points : String → Option (String × Int)

abbrev Cell := String × Int

namespace PtrState

def set (σ : PtrState) (p : String) (c : Cell) : PtrState :=
  { σ with points := Function.update σ.points p (some c) }

/-- A pointer has the new cell, or the one that it had. -/
theorem points_set {σ : PtrState} {p x : String} {c c' : Cell}
    (h : (σ.set p c).points x = some c') :
    c' = c ∨ σ.points x = some c' := by
  by_cases hxp : x = p
  · subst hxp
    simp only [set, Function.update_self] at h
    exact Or.inl (Option.some.inj h).symm
  · simp only [set, Function.update_of_ne hxp] at h
    exact Or.inr h

/-- The value of a pointer expression. -/
def eval (σ : PtrState) : Expr → Option Cell
  | .id q => σ.points q
  | .unaryOp .addressOf (.arrayRef (.id q) (.constant k)) =>
    (σ.points q).map fun c => (c.1, c.2 + k)
  | .binaryOp .add (.id q) (.constant k) => (σ.points q).map fun c => (c.1, c.2 + k)
  | .binaryOp .add (.constant k) (.id q) => (σ.points q).map fun c => (c.1, c.2 + k)
  | .binaryOp .sub (.id q) (.constant k) => (σ.points q).map fun c => (c.1, c.2 - k)
  | _ => none

/-- The cell of an access. -/
def cell (σ : PtrState) (r : String × Expr) : Option Cell :=
  (σ.points r.1).bind fun c => r.2.getVal.map fun i => (c.1, c.2 + i)

def declare (σ : PtrState) (x : String) : PtrState := { σ with declared := x :: σ.declared }

/-- A new array, or a pointer that is declared. -/
def visitDecl (σ : PtrState) (d : Decl) : Option (PtrState × List Cell) :=
  if d.name ∈ σ.declared then none
  else
    match d.init, d.type with
    | none, .arrayDecl .. => some ((σ.declare d.name).set d.name (d.name, 0), [])
    | none, _ => some (σ.declare d.name, [])
    | some (.initList exprs), .arrayDecl .. =>
      ((Expr.refsList exprs).mapM σ.cell).map fun cells =>
        ((σ.declare d.name).set d.name (d.name, 0), cells)
    | some init, _ => (σ.eval init).map fun c => ((σ.declare d.name).set d.name c, [])

/-- One node of the body: the pointers after it and the cells that it accesses. -/
def visit (σ : PtrState) : ArrayNode → Option (PtrState × List Cell)
  | .decl d => σ.visitDecl d
  | .assign p rvalue =>
    if p ∈ σ.declared then (σ.eval rvalue).map fun c => (σ.set p c, []) else none
  | .ref name subscript => (σ.cell (name, subscript)).map fun c => (σ, [c])

def run : List ArrayNode → PtrState → Option (PtrState × List Cell)
  | [], σ => some (σ, [])
  | n :: nodes, σ =>
    (σ.visit n).bind fun out => (run nodes out.1).map fun rest => (rest.1, out.2 ++ rest.2)

end PtrState

namespace ArrayFunction

/-- At the start of the body every parameter points to the array that is called by its name. -/
def start (f : ArrayFunction) : PtrState where
  declared := f.params.map Decl.name
  points x := if x ∈ f.params.map Decl.name then some (x, 0) else none

/-- The pointers at the end and the cells that are accessed. -/
def run (f : ArrayFunction) : Option (PtrState × List Cell) := PtrState.run f.body f.start

/-- The declarations of arrays and pointers. -/
def decls (f : ArrayFunction) : List Decl :=
  f.params ++ f.body.filterMap fun n => match n with
    | .decl d => some d
    | _ => none

/-- The declarations are of pointers and of arrays with known dimensions; the parameters have
different names. -/
structure Valid (f : ArrayFunction) : Prop where
  distinct : (f.params.map Decl.name).Nodup
  no_init : ∀ d ∈ f.params, d.init = none
  types : ∀ d ∈ f.decls, (∃ type, d.type = .ptrDecl type) ∨
    ∃ type n, d.type = .arrayDecl type (some (.constant n))

/-- A pointer parameter. -/
def IsPtrParam (f : ArrayFunction) (t : String) : Prop :=
  ∃ d ∈ f.params, d.name = t ∧ ∃ type, d.type = .ptrDecl type

/-- No access is outside of its array. -/
def InBounds (f : ArrayFunction) (cells : List Cell) : Prop :=
  ∀ c ∈ cells, 0 ≤ c.2 ∧ ∀ d ∈ f.decls, d.name = c.1 → ∀ type n,
    d.type = .arrayDecl type (some (.constant n)) → c.2 < n

end ArrayFunction

-- ---------------------------------------------------------------------------
-- The condition
-- ---------------------------------------------------------------------------

/-- What `visit_ptr_assignment` makes of a pointer `q` and a number `k` is right: `q` points to the
array that it names itself and the number is the new offset, or `q` points to another array whose
own pointer still points to it, and the number is added. -/
def Faithful (σ : PtrState) (e : Expr) : Prop :=
  ∀ q k t o o', e.ptrParts = some (q, k) → σ.points q = some (t, o) → σ.eval e = some (t, o') →
    if t = q then o' = k else (∃ u, σ.points t = some (t, u)) ∧ o' = o + k

/-- An access through `p` with the offset `o` in the array of a pointer parameter `t` is counted:
either `p` is the parameter itself, which has not been moved, or `p` ends up in this array at the
same offset or a larger one, and the parameter in the array, too. -/
def Counted (final : PtrState) (p t : String) (o : Int) : Prop :=
  (p = t ∧ o = 0) ∨
  ((∃ off, final.points p = some (t, off) ∧ o ≤ off) ∧ ∃ u, final.points t = some (t, u))

/-- The condition on the pointers that a node sets. -/
def PtrOK (σ : PtrState) : ArrayNode → Prop
  | .decl d => ∀ e ∈ d.init, e.isPtr = true → Faithful σ e
  | .assign _ rvalue => Faithful σ rvalue
  | .ref _ _ => True

/-- The condition on the accesses of a node: they are not in an initializer list, and those to
pointer parameters are counted. -/
def AccessOK (f : ArrayFunction) (final σ : PtrState) : ArrayNode → Prop
  | .decl d => ∀ e ∈ d.init, e.isPtr = false → e.refs = []
  | .assign _ _ => True
  | .ref p _ => ∀ t o, σ.points p = some (t, o) → f.IsPtrParam t → Counted final p t o

/-- A condition holds at all nodes of a run. -/
def AllSteps (P : PtrState → ArrayNode → Prop) : List ArrayNode → PtrState → Prop
  | [], _ => True
  | n :: nodes, σ => P σ n ∧ ∀ out, σ.visit n = some out → AllSteps P nodes out.1

-- ---------------------------------------------------------------------------
-- One assignment
-- ---------------------------------------------------------------------------

/-- The aliases are those of C. Pointers that name an array come before those that point to it. -/
structure AliasesOf (σ : PtrState) (aliases : Aliases) : Prop where
  keys : (aliases.map Prod.fst).Nodup
  current : ∀ x t o, σ.points x = some (t, o) → (aliases.lookup x).getD ⟨x, 0⟩ = ⟨t, o⟩
  known : ∀ x a, aliases.lookup x = some a → σ.points x = some (a.name, a.offset)
  declared : ∀ x c, σ.points x = some c → x ∈ σ.declared
  owner : ∀ x t o, σ.points x = some (t, o) → ∃ c, σ.points t = some c
  rank : ∃ r : String → Nat, ∀ x t o, σ.points x = some (t, o) → x ≠ t → r t < r x

section Resolve

variable {σ : PtrState} {aliases : Aliases}

/-- What `resolve_alias` ends with is not an alias of something else. -/
theorem resolveAlias_root {fuel : Nat} {x : String} {k : Int} {a : Alias}
    (h : resolveAlias aliases fuel x k = some a) :
    ∀ b, aliases.lookup a.name = some b → b.name = a.name := by
  induction fuel generalizing x k with
  | zero => cases h
  | succ fuel ih =>
    rw [resolveAlias] at h
    split at h
    · next hNone =>
      cases h
      intro b hb
      rw [hNone] at hb
      cases hb
    · next a' hSome =>
      split at h
      · exact ih h
      · next hSelf =>
        cases h
        intro b hb
        rw [hSome] at hb
        cases hb
        exact not_not.mp hSelf

/-- A recursion that does not end goes through as many different names as it has steps. -/
theorem chain_of_resolveAlias {r : String → Nat}
    (hRank : ∀ x a, aliases.lookup x = some a → x ≠ a.name → r a.name < r x) {fuel : Nat}
    {x : String} {k : Int} (h : resolveAlias aliases fuel x k = none) :
    ∃ l : List String, l.length = fuel ∧ (∀ y ∈ l, y ∈ aliases.map Prod.fst ∧ r y ≤ r x) ∧
      l.Pairwise fun y z => r z < r y := by
  induction fuel generalizing x k with
  | zero => exact ⟨[], rfl, by simp, .nil⟩
  | succ fuel ih =>
    rw [resolveAlias] at h
    split at h
    · cases h
    · next a hSome =>
      split at h
      · next hNe =>
        have hLess := hRank x a hSome fun hEq => hNe hEq.symm
        obtain ⟨l, hLen, hKeys, hPair⟩ := ih h
        have hKey : x ∈ aliases.map Prod.fst := by
          obtain ⟨pre, post, rfl, -⟩ := List.lookup_eq_some_iff.mp hSome
          simp
        refine ⟨x :: l, by rw [List.length_cons, hLen], ?_, .cons (fun y hy => ?_) hPair⟩
        · exact List.forall_mem_cons.mpr ⟨⟨hKey, Nat.le_refl _⟩, fun y hy =>
            ⟨(hKeys y hy).1, Nat.le_trans (hKeys y hy).2 (Nat.le_of_lt hLess)⟩⟩
        · exact Nat.lt_of_le_of_lt (hKeys y hy).2 hLess
      · cases h

/-- Every name can be resolved: the aliases go down in rank. -/
theorem AliasesOf.resolve_isSome (h : AliasesOf σ aliases) (x : String) (k : Int) :
    ∃ a, aliases.resolve x k = some a := by
  obtain ⟨r, hRank⟩ := h.rank
  by_contra hNone
  rw [← Option.isSome_iff_exists, Option.not_isSome_iff_eq_none] at hNone
  obtain ⟨l, hLen, hKeys, hPair⟩ := chain_of_resolveAlias
    (fun x a ha hNe => hRank x a.name a.offset (h.known x a ha) hNe) hNone
  have hNodup : l.Nodup := hPair.imp fun {y z} (hLess : r z < r y) (hEq : y = z) =>
    absurd hLess (by rw [hEq]; exact Nat.lt_irrefl _)
  have hLe := (hNodup.subperm fun y hy => (hKeys y hy).1).length_le
  rw [hLen, List.length_map] at hLe
  omega

/-- A pointer into the array that it names itself. -/
theorem AliasesOf.resolve_self (h : AliasesOf σ aliases) {q : String} {o : Int}
    (hq : σ.points q = some (q, o)) (k : Int) : aliases.resolve q k = some ⟨q, k⟩ := by
  have hAlias := h.current q q o hq
  rw [Aliases.resolve, resolveAlias]
  cases hLookup : aliases.lookup q with
  | none => rfl
  | some a =>
    rw [hLookup, Option.getD_some] at hAlias
    subst hAlias
    simp

/-- A pointer into another array is resolved in one step if the pointer that names the array is in
it, and otherwise ends up somewhere else. -/
theorem AliasesOf.resolve_other (h : AliasesOf σ aliases) {q t : String} {o : Int}
    (hq : σ.points q = some (t, o)) (hNe : t ≠ q) (k o' : Int) :
    aliases.resolve q k = some ⟨t, o'⟩ ↔ (∃ u, σ.points t = some (t, u)) ∧ o' = o + k := by
  have hAlias := h.current q t o hq
  have hLookup : aliases.lookup q = some ⟨t, o⟩ := by
    cases hLookup : aliases.lookup q with
    | none =>
      rw [hLookup, Option.getD_none, Alias.mk.injEq] at hAlias
      exact absurd hAlias.1.symm hNe
    | some a =>
      rw [hLookup, Option.getD_some] at hAlias
      rw [hAlias]
  obtain ⟨⟨t', u⟩, ht⟩ := h.owner q t o hq
  have hPos : ∃ n, aliases.length = n + 1 := by
    cases aliases with
    | nil => cases hLookup
    | cons e l => exact ⟨l.length, rfl⟩
  obtain ⟨n, hn⟩ := hPos
  -- one step leads from `q` to `t`
  have hFirst : aliases.resolve q k = resolveAlias aliases (n + 1) t (k + o) := by
    rw [Aliases.resolve, resolveAlias, hLookup, hn]
    simp [hNe]
  rw [hFirst]
  -- which ends there exactly when `t` is its own root
  have hOwner := h.current t t' u ht
  by_cases hRoot : t' = t
  · subst hRoot
    have hEnd : resolveAlias aliases (n + 1) t' (k + o) = some ⟨t', k + o⟩ := by
      rw [resolveAlias]
      cases hOwn : aliases.lookup t' with
      | none => rfl
      | some a =>
        rw [hOwn, Option.getD_some] at hOwner
        subst hOwner
        simp
    rw [hEnd, Option.some.injEq, Alias.mk.injEq, and_iff_right rfl, and_iff_right ⟨u, ht⟩,
      Int.add_comm]
    exact eq_comm
  · refine iff_of_false (fun hRes => ?_) fun ⟨⟨u', hu'⟩, _⟩ => hRoot ?_
    · -- `t` itself is an alias, so the recursion does not stop there
      have hEnd := resolveAlias_root hRes ⟨t', u⟩
      refine hRoot (hEnd ?_)
      cases hOwn : aliases.lookup t with
      | none =>
        rw [hOwn, Option.getD_none, Alias.mk.injEq] at hOwner
        exact absurd hOwner.1.symm hRoot
      | some a =>
        rw [hOwn, Option.getD_some] at hOwner
        rw [hOwner]
    · rw [ht] at hu'
      cases hu'
      rfl

/-- The parts of a pointer expression of C. -/
theorem PtrState.eval_parts {e : Expr} {c : Cell} (h : σ.eval e = some c) :
    e.isPtr = true ∧ ∃ q k o, e.ptrParts = some (q, k) ∧ σ.points q = some (c.1, o) := by
  unfold PtrState.eval at h
  split at h
  · exact ⟨rfl, _, _, _, rfl, h⟩
  iterate 4
    · obtain ⟨⟨t', o⟩, hq, hEq⟩ := Option.map_eq_some_iff.mp h
      cases hEq
      exact ⟨rfl, _, _, o, rfl, hq⟩
  · cases h

/-- A pointer expression is resolved to what it is in C exactly when it is faithful. -/
theorem AliasesOf.resolve_iff (h : AliasesOf σ aliases) {e : Expr} {c : Cell}
    (hEval : σ.eval e = some c) :
    (e.ptrParts.bind fun part => aliases.resolve part.1 part.2) = some ⟨c.1, c.2⟩ ↔
      Faithful σ e := by
  obtain ⟨t, o'⟩ := c
  obtain ⟨-, q, k, o, hParts, hq⟩ := σ.eval_parts hEval
  have hFaithful : Faithful σ e ↔
      if t = q then o' = k else (∃ u, σ.points t = some (t, u)) ∧ o' = o + k := by
    constructor
    · intro hAll
      exact hAll q k t o o' hParts hq hEval
    · intro hOne q₁ k₁ t₁ o₁ o₁' hParts₁ hq₁ hEval₁
      rw [hParts] at hParts₁
      cases hParts₁
      rw [hq] at hq₁
      cases hq₁
      rw [hEval] at hEval₁
      cases hEval₁
      exact hOne
  rw [hFaithful, hParts, Option.bind_some]
  split
  · next hSelf =>
    subst hSelf
    rw [h.resolve_self hq, Option.some.injEq, Alias.mk.injEq, and_iff_right rfl]
    exact eq_comm
  · next hNe => exact h.resolve_other hq hNe k o'

end Resolve

-- ---------------------------------------------------------------------------
-- The aliases along a run
-- ---------------------------------------------------------------------------

section Aliases

variable {σ : PtrState} {aliases : Aliases}

/-- A faithful expression points to an array whose own pointer has stayed in it. -/
theorem Faithful.root {e : Expr} (h : Faithful σ e) {t : String} {o' : Int}
    (hEval : σ.eval e = some (t, o')) : ∃ u, σ.points t = some (t, u) := by
  obtain ⟨-, q, k, o, hParts, hq⟩ := σ.eval_parts hEval
  have hOne := h q k t o o' hParts hq hEval
  split at hOne
  · next hSelf => exact ⟨o, hSelf ▸ hq⟩
  · exact hOne.1

/-- A pointer that gets a value in an array whose own pointer is in it. -/
theorem AliasesOf.set (h : AliasesOf σ aliases) {p t : String} {o : Int} (hp : p ∈ σ.declared)
    (hRoot : ∃ u, σ.points t = some (t, u)) :
    AliasesOf (σ.set p (t, o)) (dictSet aliases p ⟨t, o⟩) := by
  obtain ⟨u, hRoot⟩ := hRoot
  have hNew : (σ.set p (t, o)).points p = some (t, o) := Function.update_self ..
  have hOld : ∀ x, x ≠ p → (σ.set p (t, o)).points x = σ.points x := fun x hx =>
    Function.update_of_ne hx ..
  refine ⟨?keys, fun x t' o' hx => ?current, fun x a ha => ?known, fun x c hx => ?declared,
    fun x t' o' hx => ?owner, ?rank⟩
  case keys =>
    rw [map_fst_dictSet]
    split
    · exact h.keys
    · next hKey => exact h.keys.append (List.nodup_singleton p) (by simpa using hKey)
  -- the assigned name, or one whose entry stays
  case current =>
    rw [lookup_dictSet]
    by_cases hxp : x = p
    · rw [hxp, hNew] at hx
      cases hx
      rw [if_pos hxp, Option.getD_some]
    · rw [if_neg hxp]
      exact h.current x t' o' (hOld x hxp ▸ hx)
  case known =>
    rw [lookup_dictSet] at ha
    split at ha
    · next hxp =>
      cases ha
      rw [hxp, hNew]
    · next hxp =>
      rw [hOld x hxp]
      exact h.known x a ha
  case declared =>
    by_cases hxp : x = p
    · exact hxp ▸ hp
    · exact h.declared x c (hOld x hxp ▸ hx)
  -- the array `t` still points to itself
  case owner =>
    have hSome : ∃ c, σ.points t' = some c := by
      by_cases hxp : x = p
      · rw [hxp, hNew] at hx
        cases hx
        exact ⟨_, hRoot⟩
      · exact h.owner x t' o' (hOld x hxp ▸ hx)
    by_cases ht : t' = p
    · exact ⟨(t, o), by rw [ht]; exact hNew⟩
    · rw [hOld t' ht]
      exact hSome
  case rank =>
    obtain ⟨r, hRank⟩ := h.rank
    -- `t` points to itself, so it can come first
    refine ⟨fun x => if x = t then 0 else r x + 1, fun x t' o' hx hNe => ?_⟩
    by_cases hxp : x = p
    · rw [hxp, hNew] at hx
      cases hx
      simp [hNe]
    · rw [hOld x hxp] at hx
      have hxt : x ≠ t := fun hEq => hNe (by rw [hEq, hRoot] at hx; cases hx; exact hEq)
      have hLess := hRank x t' o' hx hNe
      simp only [hxt, if_false]
      split <;> omega

/-- A name that is not declared points nowhere and has no alias. -/
theorem AliasesOf.not_declared (h : AliasesOf σ aliases) {x : String} (hx : x ∉ σ.declared) :
    σ.points x = none ∧ aliases.lookup x = none := by
  constructor
  · cases hPoints : σ.points x with
    | none => rfl
    | some c => exact absurd (h.declared x c hPoints) hx
  · cases hLookup : aliases.lookup x with
    | none => rfl
    | some a => exact absurd (h.declared x _ (h.known x a hLookup)) hx

/-- A pointer without a value. -/
theorem AliasesOf.declare (h : AliasesOf σ aliases) (x : String) :
    AliasesOf (σ.declare x) aliases where
  keys := h.keys
  current := h.current
  known := h.known
  declared y c hy := List.mem_cons_of_mem _ (h.declared y c hy)
  owner := h.owner
  rank := h.rank

/-- A new array. -/
theorem AliasesOf.array (h : AliasesOf σ aliases) {x : String} (hx : x ∉ σ.declared) :
    AliasesOf ((σ.declare x).set x (x, 0)) aliases := by
  obtain ⟨hNone, hLookup⟩ := h.not_declared hx
  have hNew : ((σ.declare x).set x (x, 0)).points x = some (x, 0) := Function.update_self ..
  have hOld : ∀ y, y ≠ x → ((σ.declare x).set x (x, 0)).points y = σ.points y := fun y hy =>
    Function.update_of_ne hy ..
  refine ⟨h.keys, fun y t o hy => ?current, fun y a ha => ?known, fun y c hy => ?declared,
    fun y t o hy => ?owner, ?rank⟩
  case current =>
    by_cases hyx : y = x
    · rw [hyx, hNew] at hy
      cases hy
      rw [hyx, hLookup, Option.getD_none]
    · exact h.current y t o (hOld y hyx ▸ hy)
  case known =>
    have hyx : y ≠ x := fun hEq => by rw [hEq, hLookup] at ha; cases ha
    rw [hOld y hyx]
    exact h.known y a ha
  case declared =>
    by_cases hyx : y = x
    · rw [hyx]
      exact List.mem_cons_self
    · exact List.mem_cons_of_mem _ (h.declared y c (hOld y hyx ▸ hy))
  case owner =>
    by_cases hyx : y = x
    · rw [hyx, hNew] at hy
      cases hy
      exact ⟨_, hNew⟩
    · obtain ⟨c, hc⟩ := h.owner y t o (hOld y hyx ▸ hy)
      have htx : t ≠ x := fun hEq => by rw [hEq, hNone] at hc; cases hc
      exact ⟨c, (hOld t htx).trans hc⟩
  case rank =>
    obtain ⟨r, hRank⟩ := h.rank
    refine ⟨r, fun y t o hy hNe => ?_⟩
    by_cases hyx : y = x
    · rw [hyx, hNew] at hy
      cases hy
      exact absurd hyx hNe
    · exact hRank y t o (hOld y hyx ▸ hy) hNe

/-- A faithful assignment. -/
theorem AliasesOf.assign (h : AliasesOf σ aliases) {p : String} (hp : p ∈ σ.declared) {e : Expr}
    {c : Cell} (hEval : σ.eval e = some c) (hFaithful : Faithful σ e) :
    aliases.visitPtrAssignment p e = some (dictSet aliases p ⟨c.1, c.2⟩) ∧
      AliasesOf (σ.set p c) (dictSet aliases p ⟨c.1, c.2⟩) := by
  have hResolve := (h.resolve_iff hEval).mpr hFaithful
  obtain ⟨part, hPart, hResolve⟩ := Option.bind_eq_some_iff.mp hResolve
  refine ⟨?_, h.set hp (hFaithful.root hEval)⟩
  rw [Aliases.visitPtrAssignment, hPart, Option.bind_some, hResolve, Option.map_some]

/-- What both visitors do with the aliases. -/
def Aliases.visit (aliases : Aliases) : ArrayNode → Option Aliases
  | .decl d => aliases.visitInit d
  | .assign p rvalue => aliases.visitAssign p rvalue
  | .ref _ _ => some aliases

/-- A node changes the aliases of the remover by `Aliases.visit`. -/
theorem ArrayRemover.aliases_visit {sizes : Sizes} {st st' : ArrayRemover} {n : ArrayNode}
    (h : st.visit sizes n = some st') : st.aliases.visit n = some st'.aliases := by
  have hArray : ∀ d, ArrayRemover.visitArray sizes false st d = some st' →
      st'.aliases = st.aliases := by
    intro d hd
    obtain ⟨size, -, rfl⟩ := Option.map_eq_some_iff.mp hd
    rfl
  cases n with
  | decl d =>
    have hDecl : ArrayRemover.visitDecl sizes false st d = some st' := h
    rw [Aliases.visit, Aliases.visitInit]
    unfold ArrayRemover.visitDecl at hDecl
    split at hDecl
    · next init hInit =>
      rw [hInit]
      by_cases hPtr : init.isPtr = true
      · rw [if_pos hPtr] at hDecl
        obtain ⟨aliases', hAssign, rfl⟩ := Option.map_eq_some_iff.mp hDecl
        simp [hPtr, hAssign]
      · rw [if_neg hPtr] at hDecl
        simp [hPtr, hArray d hDecl]
    · next hInit _ =>
      rw [hInit]
      exact congrArg some (congrArg ArrayRemover.aliases (Option.some.inj hDecl))
    · next hInit _ =>
      rw [hInit]
      exact congrArg some (hArray d hDecl).symm
  | assign p rvalue =>
    obtain ⟨aliases', hAssign, rfl⟩ := Option.map_eq_some_iff.mp h
    exact hAssign
  | ref name subscript =>
    obtain ⟨e, -, rfl⟩ := Option.map_eq_some_iff.mp h
    rfl

/-- A node changes the aliases of the calculator by `Aliases.visit`. -/
theorem ArraySizeCalculator.aliases_visit {st st' : ArraySizeCalculator} {n : ArrayNode}
    (h : st.visit n = some st') : st.aliases.visit n = some st'.aliases := by
  cases n with
  | decl d =>
    obtain ⟨aliases', hInit, hMap⟩ := Option.bind_eq_some_iff.mp h
    obtain ⟨sizes', -, rfl⟩ := Option.map_eq_some_iff.mp hMap
    exact hInit
  | assign p rvalue =>
    obtain ⟨aliases', hAssign, rfl⟩ := Option.map_eq_some_iff.mp h
    exact hAssign
  | ref name subscript =>
    obtain ⟨sizes', -, rfl⟩ := Option.map_eq_some_iff.mp h
    rfl

/-- Over a list of nodes the remover has the aliases of `Aliases.visit`. -/
theorem ArrayRemover.aliases_run {sizes : Sizes} {nodes : List ArrayNode} {st st' : ArrayRemover}
    (h : nodes.foldlM (ArrayRemover.visit sizes) st = some st') :
    nodes.foldlM Aliases.visit st.aliases = some st'.aliases := by
  induction nodes generalizing st with
  | nil =>
    cases h
    rfl
  | cons n nodes ih =>
    obtain ⟨mid, hVisit, hRest⟩ := Option.bind_eq_some_iff.mp h
    rw [List.foldlM_cons, ArrayRemover.aliases_visit hVisit]
    exact ih hRest

/-- Over a list of nodes the calculator has the aliases of `Aliases.visit`. -/
theorem ArraySizeCalculator.aliases_run {nodes : List ArrayNode} {st st' : ArraySizeCalculator}
    (h : nodes.foldlM ArraySizeCalculator.visit st = some st') :
    nodes.foldlM Aliases.visit st.aliases = some st'.aliases := by
  induction nodes generalizing st with
  | nil =>
    cases h
    rfl
  | cons n nodes ih =>
    obtain ⟨mid, hVisit, hRest⟩ := Option.bind_eq_some_iff.mp h
    rw [List.foldlM_cons, ArraySizeCalculator.aliases_visit hVisit]
    exact ih hRest

/-- What a declaration of the program does: a new array, a pointer without a value, or a pointer
that is set. -/
theorem PtrState.visitDecl_cases {d : Decl} {out : PtrState × List Cell}
    (h : σ.visitDecl d = some out) :
    d.name ∉ σ.declared ∧
      ((∃ type dim, d.type = .arrayDecl type dim ∧
          out.1 = (σ.declare d.name).set d.name (d.name, 0) ∧
          ((d.init = none ∧ out.2 = []) ∨ ∃ exprs, d.init = some (.initList exprs) ∧
            (Expr.refsList exprs).mapM σ.cell = some out.2)) ∨
        (d.init = none ∧ (∀ type dim, d.type ≠ .arrayDecl type dim) ∧
          out = (σ.declare d.name, [])) ∨
        ∃ e c, d.init = some e ∧ σ.eval e = some c ∧
          out = ((σ.declare d.name).set d.name c, [])) := by
  unfold PtrState.visitDecl at h
  split at h
  · cases h
  · next hNew =>
    refine ⟨hNew, ?_⟩
    split at h
    · next hInit hType =>
      cases h
      exact Or.inl ⟨_, _, hType, rfl, Or.inl ⟨hInit, rfl⟩⟩
    · next hInit hType =>
      cases h
      exact Or.inr (Or.inl ⟨hInit, fun type dim hEq => hType type dim hEq, rfl⟩)
    · next hInit hType =>
      obtain ⟨cells, hCells, rfl⟩ := Option.map_eq_some_iff.mp h
      exact Or.inl ⟨_, _, hType, rfl, Or.inr ⟨_, hInit, hCells⟩⟩
    · next hInit _ =>
      obtain ⟨c, hc, rfl⟩ := Option.map_eq_some_iff.mp h
      exact Or.inr (Or.inr ⟨_, c, hInit, hc, rfl⟩)

/-- The aliases stay those of C. -/
theorem AliasesOf.visit (h : AliasesOf σ aliases) {n : ArrayNode} (hOK : PtrOK σ n)
    {out : PtrState × List Cell} (hVisit : σ.visit n = some out) :
    ∃ aliases', aliases.visit n = some aliases' ∧ AliasesOf out.1 aliases' := by
  cases n with
  | decl d =>
    obtain ⟨hNew, ⟨type, dim, -, hOut, hInit⟩ | ⟨hInit, -, rfl⟩ | ⟨e, c, hInit, hEval, rfl⟩⟩ :=
      σ.visitDecl_cases hVisit
    · refine ⟨aliases, ?_, hOut ▸ h.array hNew⟩
      rcases hInit with ⟨hInit, -⟩ | ⟨exprs, hInit, -⟩
      · simp [Aliases.visit, Aliases.visitInit, hInit]
      · simp [Aliases.visit, Aliases.visitInit, hInit, Expr.isPtr]
    · exact ⟨aliases, by simp [Aliases.visit, Aliases.visitInit, hInit], h.declare d.name⟩
    · have hPtr := (σ.eval_parts hEval).1
      have hFaithful : Faithful σ e := hOK e hInit hPtr
      obtain ⟨hAssign, hAliases⟩ :=
        (h.declare d.name).assign (p := d.name) List.mem_cons_self (e := e) (c := c) hEval hFaithful
      exact ⟨_, by simp [Aliases.visit, Aliases.visitInit, hInit, hPtr, hAssign], hAliases⟩
  | assign p rvalue =>
    rw [PtrState.visit] at hVisit
    split at hVisit
    · next hp =>
      obtain ⟨c, hEval, rfl⟩ := Option.map_eq_some_iff.mp hVisit
      have hPtr := (σ.eval_parts hEval).1
      obtain ⟨hAssign, hAliases⟩ := h.assign hp hEval hOK
      exact ⟨_, by simp [Aliases.visit, Aliases.visitAssign, hPtr, hAssign], hAliases⟩
    · cases hVisit
  | ref name subscript =>
    obtain ⟨c, -, rfl⟩ := Option.map_eq_some_iff.mp hVisit
    exact ⟨aliases, rfl, h⟩

/-- The alias of every pointer is what it points to in C, so that an access through it becomes the
scalar of the cell that C designates. -/
def Current (σ : PtrState) (aliases : Aliases) : Prop :=
  ∀ x t o, σ.points x = some (t, o) → (aliases.lookup x).getD ⟨x, 0⟩ = ⟨t, o⟩

/-- A pointer whose alias is right was set faithfully. -/
theorem AliasesOf.faithful (h : AliasesOf σ aliases) {p : String} {e : Expr} {c : Cell}
    (hEval : σ.eval e = some c) {aliases' : Aliases}
    (hVisit : aliases.visitPtrAssignment p e = some aliases')
    (hp : aliases'.lookup p = some ⟨c.1, c.2⟩) : Faithful σ e := by
  refine (h.resolve_iff hEval).mp ?_
  obtain ⟨part, hPart, hMap⟩ := Option.bind_eq_some_iff.mp hVisit
  obtain ⟨a, hResolve, rfl⟩ := Option.map_eq_some_iff.mp hMap
  rw [lookup_dictSet, if_pos rfl] at hp
  rw [hPart, Option.bind_some, hResolve, hp]

/-- A node after which the aliases are right has set its pointer faithfully. -/
theorem AliasesOf.ptrOK (h : AliasesOf σ aliases) {n : ArrayNode} {out : PtrState × List Cell}
    (hVisit : σ.visit n = some out) {aliases' : Aliases}
    (hAliases : aliases.visit n = some aliases') (hCurrent : Current out.1 aliases') :
    PtrOK σ n := by
  -- a pointer that has been set is in the dictionary
  have hSet : ∀ p e, ∀ c : Cell, σ.eval e = some c →
      aliases.visitPtrAssignment p e = some aliases' →
      out.1.points p = some c → Faithful σ e := by
    intro p e c hEval hAssign hp
    refine h.faithful hEval hAssign ?_
    obtain ⟨part, -, hMap⟩ := Option.bind_eq_some_iff.mp hAssign
    obtain ⟨a, -, rfl⟩ := Option.map_eq_some_iff.mp hMap
    have hAlias := hCurrent p c.1 c.2 hp
    rw [lookup_dictSet, if_pos rfl, Option.getD_some] at hAlias
    rw [lookup_dictSet, if_pos rfl, hAlias]
  cases n with
  | decl d =>
    intro e hInit hPtr
    have hAssign : aliases.visitPtrAssignment d.name e = some aliases' := by
      have hInit' : d.init = some e := hInit
      simpa [Aliases.visit, Aliases.visitInit, hInit', hPtr] using hAliases
    obtain ⟨-, ⟨type, dim, -, -, ⟨hNone, -⟩ | ⟨exprs, hSome, -⟩⟩ | ⟨hNone, -⟩ |
        ⟨e', c, hSome, hEval, rfl⟩⟩ :=
      σ.visitDecl_cases hVisit
    · rw [hInit] at hNone
      cases hNone
    · rw [hInit] at hSome
      cases hSome
      cases hPtr
    · rw [hInit] at hNone
      cases hNone
    · rw [hInit] at hSome
      cases hSome
      exact hSet d.name e c hEval hAssign (Function.update_self ..)
  | assign p rvalue =>
    rw [PtrState.visit] at hVisit
    split at hVisit
    · obtain ⟨c, hEval, rfl⟩ := Option.map_eq_some_iff.mp hVisit
      have hPtr := (σ.eval_parts hEval).1
      have hAssign : aliases.visitPtrAssignment p rvalue = some aliases' := by
        simpa [Aliases.visit, Aliases.visitAssign, hPtr] using hAliases
      exact hSet p rvalue c hEval hAssign (Function.update_self ..)
    · cases hVisit
  | ref name subscript => exact trivial

/-- The aliases are right at every point of a run exactly when all pointers are set faithfully. -/
theorem AliasesOf.current_iff {nodes : List ArrayNode} (h : AliasesOf σ aliases)
    {out : PtrState × List Cell} (hRun : PtrState.run nodes σ = some out) :
    (∀ pre post σ' cells, nodes = pre ++ post → PtrState.run pre σ = some (σ', cells) →
      ∃ aliases', pre.foldlM Aliases.visit aliases = some aliases' ∧ Current σ' aliases') ↔
    AllSteps PtrOK nodes σ := by
  -- along the body: a visit keeps the map right exactly when the pointer of the node does
  induction nodes generalizing σ aliases out with
  | nil =>
    refine iff_of_true (fun pre post σ' cells hSplit hPre => ?_) trivial
    obtain ⟨rfl, rfl⟩ := List.append_eq_nil_iff.mp hSplit.symm
    cases hPre
    exact ⟨aliases, rfl, h.current⟩
  | cons n nodes ih =>
    obtain ⟨mid, hVisit, hMap⟩ := Option.bind_eq_some_iff.mp hRun
    obtain ⟨rest, hRest, -⟩ := Option.map_eq_some_iff.mp hMap
    constructor
    · intro hRight
      -- the map is right after the first node alone, so its pointer was
      have hOne : PtrState.run [n] σ = some (mid.1, mid.2 ++ []) := by
        simp [PtrState.run, hVisit]
      obtain ⟨aliases₁, hFold, hCurrent⟩ := hRight [n] nodes mid.1 _ rfl hOne
      have hAliases : aliases.visit n = some aliases₁ := by simpa using hFold
      have hPtr := h.ptrOK hVisit hAliases hCurrent
      obtain ⟨aliases₂, hAliases₂, hOf⟩ := h.visit hPtr hVisit
      rw [hAliases] at hAliases₂
      cases hAliases₂
      refine ⟨hPtr, fun out hOut => ?_⟩
      rw [hVisit] at hOut
      cases hOut
      refine (ih hOf hRest).mp fun pre post σ' cells hSplit hPre => ?_
      obtain ⟨aliases', hFold', hCurrent'⟩ := hRight (n :: pre) post σ' (mid.2 ++ cells)
        (by rw [hSplit, List.cons_append]) (by simp [PtrState.run, hVisit, hPre])
      refine ⟨aliases', ?_, hCurrent'⟩
      simpa [List.foldlM_cons, hAliases] using hFold'
    · rintro ⟨hPtr, hSteps⟩ pre post σ' cells hSplit hPre
      obtain ⟨aliases₁, hAliases, hOf⟩ := h.visit hPtr hVisit
      -- nothing has run yet, or at least the first node
      cases pre with
      | nil =>
        cases hPre
        exact ⟨aliases, rfl, h.current⟩
      | cons n' pre =>
        rw [List.cons_append, List.cons.injEq] at hSplit
        obtain ⟨rfl, rfl⟩ := hSplit
        obtain ⟨mid', hVisit', hMap'⟩ := Option.bind_eq_some_iff.mp hPre
        rw [hVisit] at hVisit'
        cases hVisit'
        obtain ⟨rest', hRest', hEq⟩ := Option.map_eq_some_iff.mp hMap'
        cases hEq
        obtain ⟨aliases', hFold', hCurrent'⟩ :=
          (ih hOf hRest).mpr (hSteps mid hVisit) pre post rest'.1 rest'.2
          rfl hRest'
        exact ⟨aliases', by simp [List.foldlM_cons, hAliases, hFold'], hCurrent'⟩

end Aliases

-- ---------------------------------------------------------------------------
-- The sizes of pointer parameters
-- ---------------------------------------------------------------------------

/-- The size that is known for an array is `b` or more. -/
def AtLeast (sizes : Sizes) (x : String) (b : Int) : Prop := ∃ v, sizes.lookup x = some v ∧ b ≤ v

def Grows (sizes sizes' : Sizes) : Prop := ∀ x b, AtLeast sizes x b → AtLeast sizes' x b

section Sizes

variable {f : ArrayFunction} {σ final : PtrState} {sizes : Sizes}

/-- A size that is large enough is so for less. -/
theorem AtLeast.mono {x : String} {b b' : Int} (h : AtLeast sizes x b) (hLe : b' ≤ b) :
    AtLeast sizes x b' := by
  obtain ⟨v, hv, hb⟩ := h
  exact ⟨v, hv, Int.le_trans hLe hb⟩

/-- The size that is read is one of at least the bound. -/
theorem AtLeast.get {x : String} {b : Int} (h : AtLeast sizes x b) : b ≤ sizes.get x := by
  obtain ⟨v, hv, hb⟩ := h
  rwa [Sizes.get, hv]

/-- A size that is entered is as large as it was entered. -/
theorem atLeast_dictSet_self (sizes : Sizes) (x : String) (v : Int) :
    AtLeast (dictSet sizes x v) x v :=
  ⟨v, by rw [lookup_dictSet, if_pos rfl], Int.le_refl v⟩

/-- A size is replaced by a larger one. -/
theorem grows_dictSet {x : String} {v : Int} (hv : sizes.get x ≤ v) :
    Grows sizes (dictSet sizes x v) := by
  intro y b hy
  by_cases hyx : y = x
  · subst hyx
    exact (atLeast_dictSet_self sizes y v).mono (Int.le_trans hy.get hv)
  · obtain ⟨w, hw, hb⟩ := hy
    exact ⟨w, by rw [lookup_dictSet, if_neg hyx, hw], hb⟩

/-- An access makes room for its element. -/
theorem visitRef_spec (sizes : Sizes) {r : String × Expr} {i : Int} (hi : r.2.getVal = some i) :
    ∃ sizes', sizes.visitRef r = some sizes' ∧ Grows sizes sizes' ∧ AtLeast sizes' r.1 (i + 1) :=
  ⟨_, by rw [Sizes.visitRef, hi, Option.map_some], grows_dictSet (Int.le_max_left ..),
    (atLeast_dictSet_self ..).mono (Int.le_max_right ..)⟩

/-- So do all accesses of a list. -/
theorem visitRefs_spec {refs : List (String × Expr)} (h : ∀ r ∈ refs, ∃ i, r.2.getVal = some i)
    (sizes : Sizes) : ∃ sizes', refs.foldlM Sizes.visitRef sizes = some sizes' ∧
      Grows sizes sizes' := by
  induction refs generalizing sizes with
  | nil => exact ⟨sizes, rfl, fun _ _ h => h⟩
  | cons r refs ih =>
    obtain ⟨⟨i, hi⟩, hRest⟩ := List.forall_mem_cons.mp h
    obtain ⟨sizes₁, hFirst, hGrows₁, -⟩ := visitRef_spec sizes hi
    obtain ⟨sizes₂, hFold, hGrows₂⟩ := ih hRest sizes₁
    refine ⟨sizes₂, by rw [List.foldlM_cons, hFirst]; exact hFold, fun x b hx => ?_⟩
    exact hGrows₂ x b (hGrows₁ x b hx)

/-- The subscripts in a pointer expression of C are known. -/
theorem PtrState.getVal_of_eval {e : Expr} {c : Cell} (h : σ.eval e = some c) :
    ∀ r ∈ e.refs, ∃ i, r.2.getVal = some i := by
  unfold PtrState.eval at h
  split at h
  · simp [Expr.refs]
  · simp [Expr.refs, Expr.getVal]
  iterate 3 · simp [Expr.refs]
  · cases h

/-- One node for the calculator. -/
theorem ArraySizeCalculator.visit_spec {st : ArraySizeCalculator} (h : AliasesOf σ st.aliases)
    {n : ArrayNode} (hPtr : PtrOK σ n) (hAccess : AccessOK f final σ n) {out : PtrState × List Cell}
    (hVisit : σ.visit n = some out) :
    ∃ st', st.visit n = some st' ∧ AliasesOf out.1 st'.aliases ∧ Grows st.sizes st'.sizes ∧
      ∀ c ∈ out.2, f.IsPtrParam c.1 →
        ∃ p i o, AtLeast st'.sizes p (i + 1) ∧ c.2 = o + i ∧ Counted final p c.1 o := by
  obtain ⟨aliases', hAliases, hAliasesOf⟩ := h.visit hPtr hVisit
  cases n with
  | decl d =>
    have hInit : st.aliases.visitInit d = some aliases' := hAliases
    -- no cell is accessed, and the subscripts in an initializer are known
    have hRefs : out.2 = [] ∧ ∀ r ∈ (d.init.map Expr.refs).getD [], ∃ i, r.2.getVal = some i := by
      obtain ⟨-, ⟨-, -, -, -, ⟨hNone, hCells⟩ | ⟨exprs, hSome, hCells⟩⟩ | ⟨hNone, -, rfl⟩ |
        ⟨e, c, hSome, hEval, rfl⟩⟩ := σ.visitDecl_cases hVisit
      · simp [hNone, hCells]
      · have hNoRefs : Expr.refsList exprs = [] := hAccess _ hSome rfl
        rw [hNoRefs, List.mapM_nil] at hCells
        have hNil : out.2 = [] := (Option.some.inj hCells).symm
        simp [hSome, Expr.refs, hNoRefs, hNil]
      · simp [hNone]
      · exact ⟨rfl, by simpa [hSome] using σ.getVal_of_eval hEval⟩
    obtain ⟨sizes', hFold, hGrows⟩ := visitRefs_spec hRefs.2 st.sizes
    refine ⟨⟨aliases', sizes'⟩, by simp [ArraySizeCalculator.visit, hInit, hFold], hAliasesOf,
      hGrows, ?_⟩
    simp [hRefs.1]
  | assign p rvalue =>
    have hAssign : st.aliases.visitAssign p rvalue = some aliases' := hAliases
    refine ⟨{ st with aliases := aliases' }, by simp [ArraySizeCalculator.visit, hAssign],
      hAliasesOf, fun _ _ hx => hx, ?_⟩
    rw [PtrState.visit] at hVisit
    split at hVisit
    · obtain ⟨c, -, rfl⟩ := Option.map_eq_some_iff.mp hVisit
      simp
    · cases hVisit
  | ref p subscript =>
    obtain ⟨c, hCell, rfl⟩ := Option.map_eq_some_iff.mp hVisit
    obtain ⟨⟨t, o⟩, hp, hRest⟩ := Option.bind_eq_some_iff.mp hCell
    obtain ⟨i, hi, rfl⟩ := Option.map_eq_some_iff.mp hRest
    obtain ⟨sizes', hRef, hGrows, hLeast⟩ := visitRef_spec (r := (p, subscript)) st.sizes hi
    cases hAliases
    refine ⟨{ st with sizes := sizes' }, by simp [ArraySizeCalculator.visit, hRef], hAliasesOf,
      hGrows, ?_⟩
    intro c hc hParam
    cases List.mem_singleton.mp hc
    exact ⟨p, i, o, hLeast, rfl, hAccess t o hp hParam⟩

/-- The walk of the calculator. -/
theorem ArraySizeCalculator.run_spec {nodes : List ArrayNode} {st : ArraySizeCalculator}
    (h : AliasesOf σ st.aliases) (hPtr : AllSteps PtrOK nodes σ)
    (hAccess : AllSteps (AccessOK f final) nodes σ) {out : PtrState × List Cell}
    (hRun : PtrState.run nodes σ = some out) :
    ∃ st', nodes.foldlM ArraySizeCalculator.visit st = some st' ∧ AliasesOf out.1 st'.aliases ∧
      Grows st.sizes st'.sizes ∧ ∀ c ∈ out.2, f.IsPtrParam c.1 →
        ∃ p i o, AtLeast st'.sizes p (i + 1) ∧ c.2 = o + i ∧ Counted final p c.1 o := by
  induction nodes generalizing σ st out with
  | nil =>
    cases hRun
    exact ⟨st, rfl, h, fun _ _ hx => hx, by simp⟩
  | cons n nodes ih =>
    obtain ⟨mid, hVisit, hMap⟩ := Option.bind_eq_some_iff.mp hRun
    obtain ⟨rest, hRest, rfl⟩ := Option.map_eq_some_iff.mp hMap
    obtain ⟨st₁, hFirst, hAliases₁, hGrows₁, hCells₁⟩ :=
      ArraySizeCalculator.visit_spec h hPtr.1 hAccess.1 hVisit
    obtain ⟨st₂, hFold, hAliases₂, hGrows₂, hCells₂⟩ := ih hAliases₁ (hPtr.2 mid hVisit)
      (hAccess.2 mid hVisit) hRest
    refine ⟨st₂, by rw [List.foldlM_cons, hFirst]; exact hFold, hAliases₂,
      fun x b hx => hGrows₂ x b (hGrows₁ x b hx), fun c hc hParam => ?_⟩
    rcases List.mem_append.mp hc with hc | hc
    · obtain ⟨p, i, o, hLeast, hAt⟩ := hCells₁ c hc hParam
      exact ⟨p, i, o, hGrows₂ _ _ hLeast, hAt⟩
    · exact hCells₂ c hc hParam

/-- The last loop of the calculator. -/
theorem accountFor_spec {aliases l : Aliases} (h : AliasesOf σ aliases) (sizes : Sizes) :
    ∃ sizes', l.foldlM (ArraySizeCalculator.accountFor aliases) sizes = some sizes' ∧
      Grows sizes sizes' ∧
      ∀ p a, (p, a) ∈ l → (∃ u, σ.points a.name = some (a.name, u)) → ∀ b, AtLeast sizes p b →
        AtLeast sizes' a.name (b + a.offset) := by
  induction l generalizing sizes with
  | nil => exact ⟨sizes, rfl, fun _ _ hx => hx, by simp⟩
  | cons entry l ih =>
    obtain ⟨a, hResolve⟩ := h.resolve_isSome entry.2.name entry.2.offset
    have hStep : ArraySizeCalculator.accountFor aliases sizes entry =
        some (dictSet sizes a.name (max (sizes.get entry.1 + a.offset) (sizes.get a.name))) := by
      rw [ArraySizeCalculator.accountFor, hResolve, Option.map_some]
    have hGrows := grows_dictSet (x := a.name) (Int.le_max_right (sizes.get entry.1 + a.offset)
      (sizes.get a.name))
    obtain ⟨sizes', hFold, hGrows', hCounted⟩ := ih
      (dictSet sizes a.name (max (sizes.get entry.1 + a.offset) (sizes.get a.name)))
    refine ⟨sizes', by rw [List.foldlM_cons, hStep]; exact hFold,
      fun x b hx => hGrows' x b (hGrows x b hx), ?_⟩
    intro p a' hMem hRoot b hb
    rcases List.mem_cons.mp hMem with rfl | hMem
    · obtain ⟨u, hu⟩ := hRoot
      rw [h.resolve_self hu] at hResolve
      cases hResolve
      refine hGrows' _ _ ((atLeast_dictSet_self ..).mono ?_)
      exact Int.le_trans (Int.add_le_add_right hb.get _) (Int.le_max_left ..)
    · exact hCounted p a' hMem hRoot b (hGrows p b hb)

end Sizes

namespace ArrayFunction

variable {f : ArrayFunction} {out : PtrState × List Cell}

/-- At the start every parameter points to itself. -/
theorem aliasesOf_start (f : ArrayFunction) : AliasesOf f.start [] where
  keys := List.nodup_nil
  current x t o hx := by
    simp only [start, Option.ite_none_right_eq_some, Option.some.injEq] at hx
    obtain ⟨-, hEq⟩ := hx
    cases hEq
    rfl
  known x a ha := by cases ha
  declared x c hx := by
    simp only [start, Option.ite_none_right_eq_some] at hx
    exact hx.1
  owner x t o hx := by
    have hSame := hx
    simp only [start, Option.ite_none_right_eq_some, Option.some.injEq] at hSame
    obtain ⟨-, hEq⟩ := hSame
    cases hEq
    exact ⟨_, hx⟩
  rank := by
    refine ⟨fun _ => 0, fun x t o hx hNe => ?_⟩
    simp only [start, Option.ite_none_right_eq_some, Option.some.injEq] at hx
    obtain ⟨-, hEq⟩ := hx
    cases hEq
    exact absurd rfl hNe

/-- Parameters mean nothing to the calculator. -/
theorem calculator_params {params : List Decl} (hNoInit : ∀ d ∈ params, d.init = none) :
    (params.map ArrayNode.decl).foldlM ArraySizeCalculator.visit ⟨[], []⟩ = some ⟨[], []⟩ := by
  induction params with
  | nil => rfl
  | cons d params ih =>
    obtain ⟨hInit, hRest⟩ := List.forall_mem_cons.mp hNoInit
    have hVisit : ArraySizeCalculator.visit ⟨[], []⟩ (.decl d) = some ⟨[], []⟩ := by
      simp [ArraySizeCalculator.visit, Aliases.visitInit, hInit]
    rw [List.map_cons, List.foldlM_cons, hVisit]
    exact ih hRest

/-- Every cell that is accessed in the array of a pointer parameter is below its size. -/
theorem getArraySizes_spec (hValid : f.Valid) (hRun : f.run = some out)
    (hPtr : AllSteps PtrOK f.body f.start) (hAccess : AllSteps (AccessOK f out.1) f.body f.start) :
    ∃ sizes, getArraySizes f = some sizes ∧
      ∀ c ∈ out.2, f.IsPtrParam c.1 → AtLeast sizes c.1 (c.2 + 1) := by
  obtain ⟨st, hFold, hAliases, -, hCells⟩ := ArraySizeCalculator.run_spec
    (show AliasesOf f.start (⟨[], []⟩ : ArraySizeCalculator).aliases from f.aliasesOf_start)
      hPtr hAccess hRun
  obtain ⟨sizes, hLoop, hGrows, hCounted⟩ := accountFor_spec (l := st.aliases) hAliases st.sizes
  refine ⟨sizes, ?_, fun c hc hParam => ?_⟩
  · rw [getArraySizes, nodes, List.foldlM_append, calculator_params hValid.no_init]
    simp [hFold, hLoop]
  · obtain ⟨p, i, o, hLeast, hEq, ⟨rfl, rfl⟩ | ⟨⟨off, hFinal, hLe⟩, hRoot⟩⟩ := hCells c hc hParam
    · exact (hGrows _ _ hLeast).mono (by omega)
    · have hAlias := hAliases.current p c.1 off hFinal
      cases hLookup : st.aliases.lookup p with
      | none =>
        rw [hLookup, Option.getD_none, Alias.mk.injEq] at hAlias
        rw [← hAlias.1]
        exact (hGrows _ _ hLeast).mono (by omega)
      | some a =>
        rw [hLookup, Option.getD_some] at hAlias
        subst hAlias
        have hMem := (mem_iff_lookup hAliases.keys).mpr hLookup
        exact (hCounted p _ hMem hRoot _ hLeast).mono (by show c.2 + 1 ≤ i + 1 + off; omega)

end ArrayFunction

-- ---------------------------------------------------------------------------
-- The scalars
-- ---------------------------------------------------------------------------

/-- The array `t` has been replaced by as many scalars as it has cells. -/
def Replaced (f : ArrayFunction) (sizes : Sizes) (decls : List (String × List String))
    (t : String) : Prop :=
  ∃ d ∈ f.decls, d.name = t ∧ ((∃ type, d.type = .ptrDecl type) → d ∈ f.params) ∧
    ∃ n, ArrayRemover.arraySize sizes d = some n ∧ (t, cellNames t n) ∈ decls

section Remover

variable {f : ArrayFunction} {σ final : PtrState} {sizes : Sizes}

/-- More declarations replace as much. -/
theorem Replaced.mono {decls decls' : List (String × List String)} {t : String}
    (h : Replaced f sizes decls t) (hSub : ∀ e ∈ decls, e ∈ decls') :
    Replaced f sizes decls' t := by
  obtain ⟨d, hd, hName, hParam, n, hSize, hMem⟩ := h
  exact ⟨d, hd, hName, hParam, n, hSize, hSub _ hMem⟩

/-- What holds between the C program and the visitor. -/
structure Removing (f : ArrayFunction) (sizes : Sizes) (σ : PtrState) (st : ArrayRemover) :
    Prop where
  aliases : AliasesOf σ st.aliases
  replaced : ∀ x c, σ.points x = some c → Replaced f sizes st.decls c.1

/-- What becomes of the accesses to `cells`. -/
def scalars (cells : List Cell) : List Expr := cells.map fun c => .id (cellName c.1 c.2)

/-- One node for the visitor. -/
theorem Removing.visit {st : ArrayRemover} (h : Removing f sizes σ st) (hValid : f.Valid)
    {n : ArrayNode} (hNode : n ∈ f.body) (hPtr : PtrOK σ n) (hAccess : AccessOK f final σ n)
    {out : PtrState × List Cell} (hVisit : σ.visit n = some out) :
    ∃ st', st.visit sizes n = some st' ∧ Removing f sizes out.1 st' ∧ st'.returns = st.returns ∧
      st'.accesses = st.accesses ++ scalars out.2 ∧ (∀ e ∈ st.decls, e ∈ st'.decls) ∧
      (∀ e ∈ st'.decls, e ∈ st.decls ∨ e.1 ∉ σ.declared) ∧
      (∀ x ∈ σ.declared, x ∈ out.1.declared) ∧ ∀ c ∈ out.2, Replaced f sizes st'.decls c.1 := by
  obtain ⟨aliases', hAliases, hAliasesOf⟩ := h.aliases.visit hPtr hVisit
  cases n with
  | decl d =>
    have hMem : d ∈ f.decls := List.mem_append_right _ (List.mem_filterMap.mpr ⟨_, hNode, rfl⟩)
    -- an array, a pointer without and a pointer with a value
    obtain ⟨hNew, ⟨type, dim, hType, hOut, hInit⟩ | ⟨hInit, hNotArray, rfl⟩ |
        ⟨e, c, hInit, hEval, rfl⟩⟩ :=
      σ.visitDecl_cases hVisit
    · -- an array becomes scalars
      have hSize : ∃ n, ArrayRemover.arraySize sizes d = some n := by
        rcases hValid.types d hMem with ⟨type', hPtr⟩ | ⟨type', n, hArray⟩
        · rw [hType] at hPtr
          cases hPtr
        · exact ⟨n, by rw [ArrayRemover.arraySize, hArray]; rfl⟩
      obtain ⟨n, hSize⟩ := hSize
      -- an initializer that is a list has no accesses, so both visits are of the array alone
      have hRefs : out.2 = [] ∧ (d.init.map Expr.refs).getD [] = [] ∧
          st.visit sizes (.decl d) = ArrayRemover.visitArray sizes false st d := by
        rcases hInit with ⟨hNone, hCells⟩ | ⟨exprs, hSome, hCells⟩
        · simp [hNone, hCells, ArrayRemover.visit, ArrayRemover.visitDecl, hType]
        · have hNoRefs : Expr.refsList exprs = [] := hAccess _ hSome rfl
          rw [hNoRefs, List.mapM_nil] at hCells
          have hNil : out.2 = [] := (Option.some.inj hCells).symm
          simp [hSome, Expr.refs, hNoRefs, hNil, ArrayRemover.visit, ArrayRemover.visitDecl,
            Expr.isPtr]
      obtain ⟨hNil, hNoRefs, hStep⟩ := hRefs
      have hSame : aliases' = st.aliases := by
        rcases hInit with ⟨hNone, -⟩ | ⟨exprs, hSome, -⟩
        · simpa [Aliases.visit, Aliases.visitInit, hNone, eq_comm] using hAliases
        · simpa [Aliases.visit, Aliases.visitInit, hSome, Expr.isPtr, eq_comm] using hAliases
      subst hSame
      have hThis : Replaced f sizes (st.decls ++ [(d.name, cellNames d.name n)]) d.name :=
        ⟨d, hMem, rfl, by simp [hType], n, hSize, by simp⟩
      refine ⟨{ st with decls := st.decls ++ [(d.name, cellNames d.name n)] }, ?_,
        ⟨hAliasesOf, fun x c hx => ?_⟩, rfl, by simp [hNil, scalars],
        fun e he => List.mem_append_left _ he, fun e he => ?_, fun x hx => ?_, by simp [hNil]⟩
      · rw [hStep, ArrayRemover.visitArray, hSize]
        simp [hNoRefs]
      · rw [hOut] at hx
        rcases PtrState.points_set hx with rfl | hOld
        · exact hThis
        · exact (h.replaced x c hOld).mono fun e he => List.mem_append_left _ he
      · rcases List.mem_append.mp he with he | he
        · exact Or.inl he
        · cases List.mem_singleton.mp he
          exact Or.inr hNew
      · rw [hOut]
        exact List.mem_cons_of_mem _ hx
    · -- a pointer without a value is dropped
      have hPtrType : ∃ type, d.type = .ptrDecl type :=
        (hValid.types d hMem).resolve_right fun hIs =>
          hIs.elim fun type h => h.elim fun _ => hNotArray type _
      obtain ⟨type, hType⟩ := hPtrType
      refine ⟨st, by simp [ArrayRemover.visit, ArrayRemover.visitDecl, hInit, hType],
        ⟨h.aliases.declare d.name, h.replaced⟩, rfl, by simp [scalars], fun e he => he,
        fun e he => Or.inl he, fun x hx => List.mem_cons_of_mem _ hx, by simp⟩
    · -- a pointer with a value becomes an alias
      obtain ⟨hIsPtr, q, k, o, -, hq⟩ := σ.eval_parts hEval
      have hAssign : st.aliases.visitPtrAssignment d.name e = some aliases' := by
        simpa [Aliases.visit, Aliases.visitInit, hInit, hIsPtr] using hAliases
      refine ⟨{ st with aliases := aliases' }, ?_, ⟨hAliasesOf, fun x c' hx => ?_⟩,
        rfl, by simp [scalars], fun e he => he, fun e he => Or.inl he,
        fun x hx => List.mem_cons_of_mem _ hx, by simp⟩
      · simp [ArrayRemover.visit, ArrayRemover.visitDecl, hInit, hIsPtr, hAssign]
      -- the new pointer points where the right-hand side does, the others as before
      · rcases PtrState.points_set hx with rfl | hOld
        · exact h.replaced q (c'.1, o) hq
        · exact h.replaced x c' hOld
  | assign p rvalue =>
    have hAssign : st.aliases.visitAssign p rvalue = some aliases' := hAliases
    rw [PtrState.visit] at hVisit
    split at hVisit
    · obtain ⟨c, hEval, rfl⟩ := Option.map_eq_some_iff.mp hVisit
      obtain ⟨-, q, k, o, -, hq⟩ := σ.eval_parts hEval
      refine ⟨{ st with aliases := aliases' }, by simp [ArrayRemover.visit, hAssign],
        ⟨hAliasesOf, fun x c' hx => ?_⟩, rfl, by simp [scalars], fun e he => he,
        fun e he => Or.inl he, fun x hx => hx, by simp⟩
      rcases PtrState.points_set hx with rfl | hOld
      · exact h.replaced q (c'.1, o) hq
      · exact h.replaced x c' hOld
    · cases hVisit
  | ref p subscript =>
    obtain ⟨c, hCell, rfl⟩ := Option.map_eq_some_iff.mp hVisit
    obtain ⟨⟨t, o⟩, hp, hRest⟩ := Option.bind_eq_some_iff.mp hCell
    obtain ⟨i, hi, rfl⟩ := Option.map_eq_some_iff.mp hRest
    have hAlias := h.aliases.current p t o hp
    -- an access becomes the scalar of the cell it names
    refine ⟨{ st with accesses := st.accesses ++ [.id (cellName t (o + i))] }, ?_,
      ⟨h.aliases, h.replaced⟩, rfl, rfl, fun e he => he, fun e he => Or.inl he, fun x hx => hx, ?_⟩
    · rw [ArrayRemover.visit, ArrayRemover.visitArrayRef, hAlias, hi]
      rfl
    · intro c hc
      cases List.mem_singleton.mp hc
      exact h.replaced p (t, o) hp

/-- The walk over the body. -/
theorem Removing.run {nodes : List ArrayNode} {st : ArrayRemover} (h : Removing f sizes σ st)
    (hValid : f.Valid) (hNodes : ∀ n ∈ nodes, n ∈ f.body) (hPtr : AllSteps PtrOK nodes σ)
    (hAccess : AllSteps (AccessOK f final) nodes σ) {out : PtrState × List Cell}
    (hRun : PtrState.run nodes σ = some out) :
    ∃ st', nodes.foldlM (ArrayRemover.visit sizes) st = some st' ∧ st'.returns = st.returns ∧
      st'.accesses = st.accesses ++ scalars out.2 ∧ (∀ e ∈ st.decls, e ∈ st'.decls) ∧
      (∀ e ∈ st'.decls, e ∈ st.decls ∨ e.1 ∉ σ.declared) ∧
      ∀ c ∈ out.2, Replaced f sizes st'.decls c.1 := by
  induction nodes generalizing σ st out with
  | nil =>
    cases hRun
    exact ⟨st, rfl, rfl, by simp [scalars], fun e he => he, fun e he => Or.inl he, by simp⟩
  | cons n nodes ih =>
    obtain ⟨hNode, hNodes⟩ := List.forall_mem_cons.mp hNodes
    obtain ⟨mid, hVisit, hMap⟩ := Option.bind_eq_some_iff.mp hRun
    obtain ⟨rest, hRest, rfl⟩ := Option.map_eq_some_iff.mp hMap
    obtain ⟨st₁, hStep, h₁, hReturns₁, hAccesses₁, hSub₁, hNew₁, hDeclared₁, hCells₁⟩ :=
      h.visit hValid hNode hPtr.1 hAccess.1 hVisit
    obtain ⟨st₂, hFold, hReturns₂, hAccesses₂, hSub₂, hNew₂, hCells₂⟩ :=
      ih h₁ hNodes (hPtr.2 mid hVisit) (hAccess.2 mid hVisit) hRest
    refine ⟨st₂, by rw [List.foldlM_cons, hStep]; exact hFold, hReturns₂.trans hReturns₁, ?_,
      fun e he => hSub₂ e (hSub₁ e he), fun e he => ?_, fun c hc => ?_⟩
    · rw [hAccesses₂, hAccesses₁, List.append_assoc, scalars, scalars, scalars, List.map_append]
    · rcases hNew₂ e he with he | he
      · exact hNew₁ e he
      · exact Or.inr fun hMem => he (hDeclared₁ _ hMem)
    · rcases List.mem_append.mp hc with hc | hc
      · exact (hCells₁ c hc).mono hSub₂
      · exact hCells₂ c hc

/-- The scalars for a parameter. -/
def paramCells (sizes : Sizes) (d : Decl) : List String :=
  cellNames d.name ((ArrayRemover.arraySize sizes d).getD 0)

/-- The walk over the parameters. -/
theorem visitParams_spec {params : List Decl} (hNoInit : ∀ d ∈ params, d.init = none)
    (hTypes : ∀ d ∈ params, (∃ type, d.type = .ptrDecl type) ∨
      ∃ type dim, d.type = .arrayDecl type dim)
    (hSizes : ∀ d ∈ params, ∃ n, ArrayRemover.arraySize sizes d = some n) (st : ArrayRemover) :
    ∃ st', params.foldlM (ArrayRemover.visitDecl sizes true) st = some st' ∧
      st'.aliases = st.aliases ∧
      st'.accesses = st.accesses ∧
      st'.decls = st.decls ++ params.map (fun d => (d.name, paramCells sizes d)) ∧
      st'.returns = st.returns ++
        (params.filter fun d => "const" ∉ d.quals).flatMap (paramCells sizes) := by
  induction params generalizing st with
  | nil => exact ⟨st, rfl, rfl, rfl, by simp, by simp⟩
  | cons d params ih =>
    obtain ⟨hInit, hNoInit⟩ := List.forall_mem_cons.mp hNoInit
    obtain ⟨hType, hTypes⟩ := List.forall_mem_cons.mp hTypes
    obtain ⟨⟨n, hSize⟩, hSizes⟩ := List.forall_mem_cons.mp hSizes
    have hCells : paramCells sizes d = cellNames d.name n := by
      rw [paramCells, hSize, Option.getD_some]
    have hStep : ArrayRemover.visitDecl sizes true st d =
        ArrayRemover.visitArray sizes true st d := by
      rcases hType with ⟨type, hType⟩ | ⟨type, dim, hType⟩ <;>
        simp [ArrayRemover.visitDecl, hInit, hType]
    have hVisit : ArrayRemover.visitArray sizes true st d = some
        { st with
          returns := st.returns ++ if "const" ∉ d.quals then paramCells sizes d else []
          decls := st.decls ++ [(d.name, paramCells sizes d)] } := by
      rw [ArrayRemover.visitArray, hSize, hCells]
      by_cases hConst : "const" ∈ d.quals <;> simp [hInit, hConst]
    obtain ⟨st', hFold, hAliases, hAccesses, hDecls, hReturns⟩ := ih hNoInit hTypes hSizes
      { st with
        returns := st.returns ++ if "const" ∉ d.quals then paramCells sizes d else []
        decls := st.decls ++ [(d.name, paramCells sizes d)] }
    refine ⟨st', by rw [List.foldlM_cons, hStep, hVisit]; exact hFold, hAliases, hAccesses,
      by rw [hDecls, List.append_assoc]; rfl, ?_⟩
    rw [hReturns, List.append_assoc]
    by_cases hConst : "const" ∈ d.quals <;> simp [hConst]

end Remover

namespace ArrayFunction

/-- What the pass should do: every access has become the scalar of the cell that it designates,
which is one of those that replace its array, and what is returned are the scalars of the
parameters that are not `const`. -/
structure Right (f : ArrayFunction) (cells : List Cell) (res : ArrayRemover) : Prop where
  accesses : res.accesses = scalars cells
  declared : ∀ c ∈ cells, ∃ names, (c.1, names) ∈ res.decls ∧ cellName c.1 c.2 ∈ names
  returned : ∀ x, x ∈ res.returns ↔
    ∃ d ∈ f.params, "const" ∉ d.quals ∧ ∃ names, (d.name, names) ∈ res.decls ∧ x ∈ names

/-- The size of every pointer parameter can be computed: some access designates a cell of it. -/
def ParamsUsed (f : ArrayFunction) (cells : List Cell) : Prop :=
  ∀ t, f.IsPtrParam t → ∃ c ∈ cells, c.1 = t

/-- The cells of an array are those within its size. -/
theorem mem_cellNames {t : String} {j n : Int} (h0 : 0 ≤ j) (hLt : j < n) :
    cellName t j ∈ cellNames t n :=
  List.mem_map.mpr ⟨j.toNat, List.mem_range.mpr (by omega), by rw [Int.toNat_of_nonneg h0]⟩

/-- A run whose steps meet the condition. -/
theorem removeArrays_right (f : ArrayFunction) (hValid : f.Valid) {out : PtrState × List Cell}
    (hRun : f.run = some out) (hBounds : f.InBounds out.2) (hUsed : f.ParamsUsed out.2)
    (hPtr : AllSteps PtrOK f.body f.start) (hAccess : AllSteps (AccessOK f out.1) f.body f.start) :
    ∃ res, removeArrays f = some res ∧ f.Right out.2 res := by
  obtain ⟨sizes, hGet, hLeast⟩ := getArraySizes_spec hValid hRun hPtr hAccess
  have hParamTypes : ∀ d ∈ f.params, (∃ type, d.type = .ptrDecl type) ∨
      ∃ type dim, d.type = .arrayDecl type dim := fun d hd =>
    (hValid.types d (List.mem_append_left _ hd)).imp_right fun ⟨type, n, h⟩ => ⟨type, _, h⟩
  -- the sizes of all parameters are known
  have hSizes : ∀ d ∈ f.params, ∃ n, ArrayRemover.arraySize sizes d = some n := by
    intro d hd
    rcases hValid.types d (List.mem_append_left _ hd) with ⟨type, hType⟩ | ⟨type, n, hType⟩
    · have hParam : f.IsPtrParam d.name := ⟨d, hd, rfl, type, hType⟩
      obtain ⟨c, hc, hName⟩ := hUsed d.name hParam
      obtain ⟨v, hv, -⟩ := hLeast c hc (hName ▸ hParam)
      exact ⟨v, by rw [ArrayRemover.arraySize, hType, ← hName]; exact hv⟩
    · exact ⟨n, by rw [ArrayRemover.arraySize, hType]; rfl⟩
  obtain ⟨st, hParams, hAliases, hAccesses, hDecls, hReturns⟩ :=
    visitParams_spec hValid.no_init hParamTypes hSizes ⟨[], [], [], []⟩
  have hStart : Removing f sizes f.start st := by
    refine ⟨hAliases ▸ f.aliasesOf_start, fun x c hx => ?_⟩
    simp only [start, Option.ite_none_right_eq_some, Option.some.injEq] at hx
    obtain ⟨hMem, rfl⟩ := hx
    obtain ⟨d, hd, rfl⟩ := List.mem_map.mp hMem
    obtain ⟨n, hn⟩ := hSizes d hd
    refine ⟨d, List.mem_append_left _ hd, rfl, fun _ => hd, n, hn, ?_⟩
    rw [hDecls, List.nil_append, List.mem_map]
    exact ⟨d, hd, by rw [paramCells, hn, Option.getD_some]⟩
  obtain ⟨res, hFold, hReturns', hAccesses', hSub, hNew, hCells⟩ :=
    hStart.run hValid (fun n hn => hn) hPtr hAccess hRun
  refine ⟨res, by rw [removeArrays, hGet, Option.bind_some, hParams]; exact hFold, ?_,
    fun c hc => ?_, fun x => ?_⟩
  · rw [hAccesses', hAccesses, List.nil_append]
  · obtain ⟨d, hd, hName, hParam, n, hSize, hMem⟩ := hCells c hc
    refine ⟨_, hMem, mem_cellNames (hBounds c hc).1 ?_⟩
    rcases hValid.types d hd with ⟨type, hType⟩ | ⟨type, n', hType⟩
    · -- a pointer parameter has a cell for every access
      obtain ⟨v, hv, hLe⟩ := hLeast c hc ⟨d, hParam ⟨type, hType⟩, hName, type, hType⟩
      rw [ArrayRemover.arraySize, hType, hName] at hSize
      have hEq : v = n := Option.some.inj (hv.symm.trans hSize)
      omega
    · rw [ArrayRemover.arraySize, hType] at hSize
      have hEq : n' = n := Option.some.inj hSize
      exact hEq ▸ (hBounds c hc).2 d hd hName type n' hType
  · rw [hReturns', hReturns, List.nil_append, List.mem_flatMap]
    constructor
    · rintro ⟨d, hd, hx⟩
      obtain ⟨hd, hConst⟩ := List.mem_filter.mp hd
      refine ⟨d, hd, by simpa using hConst, _, hSub _ ?_, hx⟩
      rw [hDecls, List.nil_append]
      exact List.mem_map_of_mem hd
    · rintro ⟨d, hd, hConst, names, hMem, hx⟩
      refine ⟨d, List.mem_filter.mpr ⟨hd, by simpa using hConst⟩, ?_⟩
      -- the names of the parameters are not declared again
      have hOld := (hNew _ hMem).resolve_right fun h => h (List.mem_map_of_mem hd)
      rw [hDecls, List.nil_append, List.mem_map] at hOld
      obtain ⟨d', hd', hEq⟩ := hOld
      rw [Prod.mk.injEq] at hEq
      obtain rfl := List.inj_on_of_nodup_map hValid.distinct hd' hd hEq.1
      rw [hEq.2]
      exact hx

/-- At every point of the body the visitors have the aliases of C. -/
def AliasesRight (f : ArrayFunction) : Prop :=
  ∀ pre post σ cells, f.body = pre ++ post → PtrState.run pre f.start = some (σ, cells) →
    ∃ aliases, pre.foldlM Aliases.visit [] = some aliases ∧ Current σ aliases

/-- The two visitors, wherever in the body they get to, have the aliases of C there. -/
def VisitorsRight (f : ArrayFunction) : Prop :=
  ∀ pre post σ cells, f.body = pre ++ post → PtrState.run pre f.start = some (σ, cells) →
    (∀ st st' : ArraySizeCalculator, st.aliases = [] →
      pre.foldlM ArraySizeCalculator.visit st = some st' → Current σ st'.aliases) ∧
    ∀ (sizes : Sizes) (st st' : ArrayRemover), st.aliases = [] →
      pre.foldlM (ArrayRemover.visit sizes) st = some st' → Current σ st'.aliases

/-- Aliases that are right are those of the visitors. -/
theorem AliasesRight.visitors {f : ArrayFunction} (h : f.AliasesRight) : f.VisitorsRight := by
  intro pre post σ cells hBody hRun
  obtain ⟨aliases, hFold, hCurrent⟩ := h pre post σ cells hBody hRun
  refine ⟨fun st st' hStart hVisit => ?_, fun sizes st st' hStart hVisit => ?_⟩
  · have hAliases := ArraySizeCalculator.aliases_run hVisit
    rw [hStart, hFold] at hAliases
    exact Option.some.inj hAliases ▸ hCurrent
  · have hAliases := ArrayRemover.aliases_run hVisit
    rw [hStart, hFold] at hAliases
    exact Option.some.inj hAliases ▸ hCurrent

/-- The aliases are those of C as long as pointers are set faithfully, and only then, and the two
visitors have them. If also the accesses to pointer parameters are counted, and none is in an
initializer list, every access becomes the scalar of its cell. -/
theorem removeArrays_designates (f : ArrayFunction) (hValid : f.Valid) {out : PtrState × List Cell}
    (hRun : f.run = some out) (hBounds : f.InBounds out.2) :
    (f.AliasesRight ↔ AllSteps PtrOK f.body f.start) ∧ (f.AliasesRight → f.VisitorsRight) ∧
    (AllSteps PtrOK f.body f.start → AllSteps (AccessOK f out.1) f.body f.start →
      f.ParamsUsed out.2 → ∃ res, removeArrays f = some res ∧ f.Right out.2 res) :=
  ⟨f.aliasesOf_start.current_iff hRun, AliasesRight.visitors, fun hPtr hAccess hUsed =>
    f.removeArrays_right hValid hRun hBounds hUsed hPtr hAccess⟩

/-- `unsigned int f(const unsigned int *x) {unsigned int *p = x + 2; p = &p[1]; return p[1] ^
x[0];}` -/
def movedPointer : ArrayFunction where
  params := [⟨"x", ["const"], .ptrDecl unsignedInt, none⟩]
  body :=
    [.decl ⟨"p", [], .ptrDecl unsignedInt, some (.binaryOp .add (.id "x") (.constant 2))⟩,
     .assign "p" (.unaryOp .addressOf (.arrayRef (.id "p") (.constant 1))),
     .ref "p" (.constant 1), .ref "x" (.constant 0)]

/-- Both accesses become the scalars of their cells. -/
theorem movedPointer_right : ∃ res, removeArrays movedPointer = some res ∧
    movedPointer.Right [("x", 4), ("x", 0)] res := by
  have hValid : movedPointer.Valid :=
    { distinct := by decide, no_init := by simp [movedPointer],
      types := by simp [movedPointer, decls] }
  obtain ⟨σ, hRun, hx, hp⟩ : ∃ σ, movedPointer.run = some (σ, [("x", 4), ("x", 0)]) ∧
      σ.points "x" = some ("x", 0) ∧ σ.points "p" = some ("x", 3) := ⟨_, rfl, rfl, rfl⟩
  refine (movedPointer.removeArrays_designates hValid hRun ?_).2.2 ?_ ?_ ?_
  · simp [InBounds, decls, movedPointer]
  · refine ⟨fun e he _ => ?_, fun out hOut => ?_⟩
    · cases he
      intro q k t o o' hParts hq hEval
      cases hParts
      cases hq
      cases hEval
      rfl
    cases hOut
    refine ⟨fun q k t o o' hParts hq hEval => ?_, fun out hOut => ?_⟩
    · cases hParts
      cases hq
      cases hEval
      exact ⟨⟨0, rfl⟩, rfl⟩
    cases hOut
    exact ⟨trivial, fun out _ => ⟨trivial, fun _ _ => trivial⟩⟩
  · refine ⟨fun e he hNot => ?_, fun out hOut => ?_⟩
    · cases he
      cases hNot
    cases hOut
    refine ⟨trivial, fun out hOut => ?_⟩
    cases hOut
    refine ⟨fun t o hPoints _ => ?_, fun out hOut => ?_⟩
    · cases hPoints
      exact Or.inr ⟨⟨3, hp, by decide⟩, 0, hx⟩
    cases hOut
    refine ⟨fun t o hPoints _ => ?_, fun _ _ => trivial⟩
    cases hPoints
    exact Or.inl ⟨rfl, rfl⟩
  · rintro t ⟨d, hd, rfl, -⟩
    cases List.mem_singleton.mp hd
    exact ⟨("x", 4), by simp, rfl⟩

/-- `unsigned int f(const unsigned int a[4]) {unsigned int *p = a + 2; unsigned int *q = p - 1;
return q[0];}` -/
def movedBack : ArrayFunction where
  params := [⟨"a", ["const"], .arrayDecl unsignedInt (some (.constant 4)), none⟩]
  body :=
    [.decl ⟨"p", [], .ptrDecl unsignedInt, some (.binaryOp .add (.id "a") (.constant 2))⟩,
     .decl ⟨"q", [], .ptrDecl unsignedInt, some (.binaryOp .sub (.id "p") (.constant 1))⟩,
     .ref "q" (.constant 0)]

/-- The access to `a[1]` becomes one to `a[3]`. -/
theorem movedBack_wrong : movedBack.Valid ∧ (∃ σ, movedBack.run = some (σ, [("a", 1)])) ∧
    ¬ ∃ res, removeArrays movedBack = some res ∧ movedBack.Right [("a", 1)] res := by
  refine ⟨⟨by decide, by simp [movedBack], by simp [movedBack, decls]⟩, ⟨_, rfl⟩, ?_⟩
  rintro ⟨res, hRes, hRight⟩
  have hAccesses : (removeArrays movedBack).map ArrayRemover.accesses = some [.id "a[3]"] := by rfl
  rw [hRes, Option.map_some, Option.some.injEq, hRight.accesses] at hAccesses
  exact absurd (Expr.id.inj (List.cons.inj hAccesses).1) (by decide)

end ArrayFunction

end Obscure
