import Obscure.DFG
import Obscure.Lib.Table
import Mathlib.Data.Nat.Log

/-!
# OBSCURE — shuffles and routing programs

The objects of `compiler/src/universalization/routing.py` that a routing network
is made of. A `Shuffle` lists, for each position, the position its value comes
from. A routing program is a list of rows: a `PublicShuffle` is wiring between
multi-instructions, a `SecretShuffles` is a dictionary from offsets to shuffles,
each of which is hidden inside one multi-instruction.

A row that fits a list of `n` values rearranges it along a function on indices,
its `wire`: the values `X 0 … X (n - 1)` become `X ∘ wire`. A program composes
the wires of its rows.
-/

namespace Obscure.Routing

open Lib

/-- `[xs[i] for i in idx]`. -/
def gather {α : Type} (idx : List Nat) (xs : List α) : Except Fault (List α) :=
  idx.mapM fun i =>
    match xs[i]? with
    | some a => .ok a
    | none => .error .indexError

/-- The constructor of `Shuffle` asserts that the entries are indices of a list
of its own length; `input_size` never differs from the length. -/
structure Shuffle where
  entries : List Nat
  ne_nil : entries ≠ []
  lt_length : ∀ i ∈ entries, i < entries.length
deriving DecidableEq

namespace Shuffle

/-- `Shuffle.__init__`: `min` raises on an empty list. -/
def ofInts (l : List Int) : Except Fault Shuffle :=
  if hNil : l = [] then .error .valueError
  else if h : ∀ i ∈ l, 0 ≤ i ∧ i < l.length then
    .ok ⟨l.map Int.toNat, by simpa using hNil, by
      intro i hi
      obtain ⟨v, hv, rfl⟩ := List.mem_map.mp hi
      have := h v hv
      rw [List.length_map]
      omega⟩
  else .error .assertionError

/-- The constructor on natural numbers. -/
def ofNats (l : List Nat) : Except Fault Shuffle := ofInts (l.map Int.ofNat)

/-- `_compose1`. -/
def compose (p q : Shuffle) : Except Fault Shuffle := do
  let l ← gather q.entries p.entries
  ofNats l

/-- `__invert__`: `ip[j] = i` for every entry `j` at `i`. -/
def invert (p : Shuffle) : Except Fault Shuffle := do
  let ip := p.entries.zipIdx.foldl (fun ip ji => ip.set ji.1 (some ji.2))
    (List.replicate p.entries.length none)
  let l ← ip.mapM fun
    | some i => .ok i
    | none => .error .assertionError
  ofNats l

/-- `ROTR`. -/
def rotr (word m i : Nat) : Except Fault Nat :=
  let i := i % m
  let mask := (1 <<< m) - 1
  if word ≤ mask then .ok (((word >>> i) ||| (word <<< (m - i))) &&& mask)
  else .error .assertionError

/-- `make_index_ROTL`: rotate indices to the left. -/
def makeIndexROTL (m s : Nat) : Except Fault Shuffle := do
  let l ← (List.range (2 ^ m)).mapM fun i => rotr i m s
  ofNats l

end Shuffle

/-- `composeinv`. -/
def composeinv (c pi : List Nat) : List Nat :=
  ((pi.zip c).insertionSort PairLE).map Prod.snd

/-- `log2exact`. -/
def log2exact (n : Nat) : Except Fault Nat :=
  if n = 1 <<< Nat.log 2 n then .ok (Nat.log 2 n) else .error .assertionError

/-- One row of a canonical program. -/
inductive Row where
  | publicShuffle (p : Shuffle)
  | secretShuffles (windows : List (Nat × Shuffle))
deriving DecidableEq

/-- `ff[off:off+n] = [ff[off+i] for i in perm]`. -/
def runWindow {α : Type} (xs : List α) (window : Nat × Shuffle) : Except Fault (List α) := do
  let new ← gather (window.2.entries.map (window.1 + ·)) xs
  return xs.take window.1 ++ (new ++ xs.drop (window.1 + window.2.entries.length))

/-- One round of `canononical_run`. -/
def Row.run {α : Type} (xs : List α) : Row → Except Fault (List α)
  | .publicShuffle p => gather p.entries xs
  | .secretShuffles windows => windows.foldlM runWindow xs

/-- `canononical_run`, from any list of values. -/
def runProgram {α : Type} (program : List Row) (xs : List α) : Except Fault (List α) :=
  program.foldlM Row.run xs

/-- A public row that moves nothing. -/
def Row.isPublicIdentity : Row → Bool
  | .publicShuffle p => p.entries = List.range p.entries.length
  | .secretShuffles _ => false

/-- One round of `optimize`. -/
def dropIdentities (program : List Row) : List Row :=
  program.filter fun row => !row.isPublicIdentity

/-- `optimize`: rounds until one drops nothing. -/
def optimize (program : List Row) : List Row :=
  if (dropIdentities program).length < program.length then optimize (dropIdentities program)
  else dropIdentities program
termination_by program.length

/-- The optimized program is the one without public identities. -/
theorem optimize_eq (program : List Row) : optimize program = dropIdentities program := by
  induction program using optimize.induct with
  | case1 program h ih =>
    rw [optimize, if_pos h, ih, dropIdentities, dropIdentities, List.filter_filter]
    simp
  | case2 program h => rw [optimize, if_neg h]

/-! ## Computations that succeed -/

/-- Entries of a table are gathered. -/
theorem gather_tab {α : Type} {n : Nat} {X : Nat → α} {idx : List Nat} (h : ∀ i ∈ idx, i < n) :
    gather idx (tab n X) = .ok (idx.map X) :=
  mapM_ok fun i hi => by rw [getElem?_tab (h i hi)]

/-- The table of an index map as a shuffle. -/
def Shuffle.ofTab (n : Nat) (hn : 0 < n) (w : Nat → Nat) (h : ∀ i < n, w i < n) : Shuffle where
  entries := tab n w
  ne_nil := by
    rw [← List.length_pos_iff, length_tab]
    exact hn
  lt_length := by
    intro i hi
    obtain ⟨j, hj, rfl⟩ := mem_tab.mp hi
    rw [length_tab]
    exact h j hj

/-- A table of integers within its bounds is a shuffle. -/
theorem Shuffle.ofInts_tab {n : Nat} (hn : 0 < n) {v : Nat → Int} {w : Nat → Nat}
    (hv : ∀ i < n, v i = w i) (h : ∀ i < n, w i < n) :
    Shuffle.ofInts (tab n v) = .ok (Shuffle.ofTab n hn w h) := by
  have hNil : tab n v ≠ [] := by
    rw [← List.length_pos_iff, length_tab]
    exact hn
  have hEntries : ∀ i ∈ tab n v, 0 ≤ i ∧ i < (tab n v).length := by
    intro i hi
    obtain ⟨j, hj, rfl⟩ := mem_tab.mp hi
    have := h j hj
    rw [length_tab, hv j hj]
    omega
  rw [Shuffle.ofInts, dif_neg hNil, dif_pos hEntries]
  congr 2
  rw [map_tab]
  refine tab_congr fun i hi => ?_
  rw [Function.comp_apply, hv i hi, Int.toNat_natCast]

theorem Shuffle.ofNats_tab {n : Nat} (hn : 0 < n) {w : Nat → Nat} (h : ∀ i < n, w i < n) :
    Shuffle.ofNats (tab n w) = .ok (Shuffle.ofTab n hn w h) := by
  rw [Shuffle.ofNats, map_tab]
  exact Shuffle.ofInts_tab hn (fun i _ => rfl) h

/-- Shuffles are composed as functions. -/
theorem Shuffle.compose_ofTab {n : Nat} (hn : 0 < n) {v w : Nat → Nat} (hv : ∀ i < n, v i < n)
    (hw : ∀ i < n, w i < n) :
    (Shuffle.ofTab n hn v hv).compose (Shuffle.ofTab n hn w hw) =
      .ok (Shuffle.ofTab n hn (v ∘ w) fun i hi => hv _ (hw i hi)) := by
  have hGather : gather (tab n w) (tab n v) = .ok (tab n (v ∘ w)) := by
    rw [gather_tab fun i hi => ?_, map_tab]
    obtain ⟨j, hj, rfl⟩ := mem_tab.mp hi
    exact hw j hj
  show (gather (tab n w) (tab n v) >>= Shuffle.ofNats) = _
  rw [hGather]
  exact Shuffle.ofNats_tab hn _

/-- A shuffle without duplicates is the table of a permutation. -/
def Shuffle.ofPerm (n : Nat) (hn : 0 < n) (p : Equiv.Perm Nat) (h : Below n p) : Shuffle :=
  Shuffle.ofTab n hn p fun i hi => (h i).mpr hi

/-- The list `ip` after the entries at the positions below `k`. -/
theorem foldl_set_tab {n : Nat} (p : Equiv.Perm Nat) (k : Nat) (hk : k ≤ n) :
    (tab k p).zipIdx.foldl (fun ip ji => ip.set ji.1 (some ji.2)) (List.replicate n none) =
      tab n fun j => if p⁻¹ j < k then some (p⁻¹ j) else none := by
  induction k with
  | zero =>
    refine List.ext_getElem (by simp [tab]) fun i _ _ => ?_
    simp [tab]
  | succ k ih =>
    rw [tab_succ, List.zipIdx_append, List.foldl_append, ih (by omega)]
    refine List.ext_getElem (by simp) fun j h₁ h₂ => ?_
    have hj : j < n := by simpa using h₂
    simp only [length_tab, List.zipIdx_singleton, List.foldl_cons, List.foldl_nil,
      List.getElem_set, getElem_tab]
    by_cases hEq : p k = j
    · simp [← hEq]
    · have hne : p⁻¹ j ≠ k := fun h => hEq (by rw [← h]; simp)
      rw [if_neg (by simpa using hEq)]
      by_cases hlt : p⁻¹ j < k
      · rw [if_pos hlt, if_pos (by omega)]
      · rw [if_neg hlt, if_neg (by omega)]

/-- The inverse of a shuffle is the inverse permutation. -/
theorem Shuffle.invert_ofPerm {n : Nat} (hn : 0 < n) {p : Equiv.Perm Nat} (hp : Below n p) :
    (Shuffle.ofPerm n hn p hp).invert = .ok (Shuffle.ofPerm n hn p⁻¹ hp.inv) := by
  have hFold := foldl_set_tab p n le_rfl
  have hAll : (tab n fun j => if p⁻¹ j < n then some (p⁻¹ j) else none) =
      tab n fun j => some (p⁻¹ j) :=
    tab_congr fun j hj => if_pos ((hp.inv j).mpr hj)
  unfold Shuffle.invert
  simp only [Shuffle.ofPerm, Shuffle.ofTab, length_tab, hFold, hAll]
  rw [mapM_ok (g := fun o => o.getD 0) ?_, map_tab]
  · exact Shuffle.ofNats_tab hn fun i hi => (hp.inv i).mpr hi
  · intro o ho
    obtain ⟨j, -, rfl⟩ := mem_tab.mp ho
    rfl

/-! ## Wires -/

/-- Where a position takes its value from. -/
def windowWire (window : Nat × Shuffle) (j : Nat) : Nat :=
  if window.1 ≤ j ∧ j < window.1 + window.2.entries.length then
    window.1 + window.2.entries.getD (j - window.1) 0
  else j

def Row.wire : Row → Nat → Nat
  | .publicShuffle p, j => p.entries.getD j 0
  | .secretShuffles windows, j => windows.foldr windowWire j

def programWire (program : List Row) (j : Nat) : Nat := program.foldr Row.wire j

/-- The row stays within a list of `n` values. -/
def Row.Fits (n : Nat) : Row → Prop
  | .publicShuffle p => p.entries.length = n
  | .secretShuffles windows => ∀ w ∈ windows, w.1 + w.2.entries.length ≤ n

/-- A window keeps wires within the row. -/
theorem windowWire_lt {n : Nat} {w : Nat × Shuffle} (h : w.1 + w.2.entries.length ≤ n) {j : Nat}
    (hj : j < n) : windowWire w j < n := by
  unfold windowWire
  split
  · next hIn =>
    have hLt : j - w.1 < w.2.entries.length := by omega
    have := w.2.lt_length _ (List.getElem_mem hLt)
    rw [List.getD_eq_getElem _ _ hLt]
    omega
  · exact hj

theorem foldr_lt {α : Type} {n : Nat} {f : α → Nat → Nat} {l : List α}
    (h : ∀ a ∈ l, ∀ j < n, f a j < n) {j : Nat} (hj : j < n) : l.foldr f j < n := by
  induction l with
  | nil => exact hj
  | cons a l ih => exact h a (by simp) _ (ih fun b hb => h b (by simp [hb]))

/-- So does a row. -/
theorem Row.wire_lt {n : Nat} {row : Row} (h : row.Fits n) {j : Nat} (hj : j < n) :
    row.wire j < n := by
  cases row with
  | publicShuffle p =>
    have hLen : j < p.entries.length := (show p.entries.length = n from h) ▸ hj
    rw [Row.wire, List.getD_eq_getElem _ _ hLen]
    exact (show p.entries.length = n from h) ▸ p.lt_length _ (List.getElem_mem hLen)
  | secretShuffles windows => exact foldr_lt (fun w hw _ hj => windowWire_lt (h w hw) hj) hj

/-- So does a program. -/
theorem programWire_lt {n : Nat} {program : List Row} (h : ∀ row ∈ program, row.Fits n) {j : Nat}
    (hj : j < n) : programWire program j < n :=
  foldr_lt (fun row hRow _ hj => row.wire_lt (h row hRow) hj) hj

section Run

variable {α : Type} {n : Nat} {X : Nat → α}

/-- A window rearranges a table. -/
theorem runWindow_tab {w : Nat × Shuffle} (h : w.1 + w.2.entries.length ≤ n) :
    runWindow (tab n X) w = .ok (tab n (X ∘ windowWire w)) := by
  have hGather : gather (w.2.entries.map (w.1 + ·)) (tab n X) =
      .ok ((w.2.entries.map (w.1 + ·)).map X) := by
    refine gather_tab fun i hi => ?_
    obtain ⟨k, hk, rfl⟩ := List.mem_map.mp hi
    have := w.2.lt_length k hk
    omega
  have hLen : ((w.2.entries.map (w.1 + ·)).map X).length = w.2.entries.length := by simp
  unfold runWindow
  rw [hGather]
  show Except.ok _ = _
  rw [← hLen, tab_overwrite X (by rw [hLen]; exact h) (X 0), hLen]
  congr 1
  refine tab_congr fun j hj => ?_
  rw [Function.comp_apply, windowWire]
  split
  · next hIn =>
    have hLt : j - w.1 < w.2.entries.length := by omega
    rw [List.getD_eq_getElem _ _ (by simpa using hLt), List.getD_eq_getElem _ _ hLt]
    simp
  · rfl

/-- A fold of rearrangements composes their index maps. -/
theorem foldlM_tab {β : Type} {step : List α → β → Except Fault (List α)} {wire : β → Nat → Nat}
    {l : List β} (h : ∀ b ∈ l, ∀ X : Nat → α, step (tab n X) b = .ok (tab n (X ∘ wire b))) :
    l.foldlM step (tab n X) = .ok (tab n (X ∘ fun j => l.foldr wire j)) := by
  induction l generalizing X with
  | nil => rfl
  | cons b l ih =>
    rw [List.foldlM_cons, h b (by simp)]
    exact ih fun b hb => h b (by simp [hb])

/-- So does a row. -/
theorem Row.run_tab {row : Row} (h : row.Fits n) :
    row.run (tab n X) = .ok (tab n (X ∘ row.wire)) := by
  cases row with
  | publicShuffle p =>
    have hLen : p.entries.length = n := h
    rw [Row.run, gather_tab fun i hi => hLen ▸ p.lt_length i hi]
    congr 1
    refine List.ext_getElem (by simp [hLen]) fun j h₁ h₂ => ?_
    rw [List.getElem_map, getElem_tab, Function.comp_apply, Row.wire,
      List.getD_eq_getElem _ _ (by simpa using h₁)]
  | secretShuffles windows => exact foldlM_tab fun w hw _ => runWindow_tab (h w hw)

/-- A program rearranges the values along its wire. -/
theorem runProgram_tab {program : List Row} (h : ∀ row ∈ program, row.Fits n) :
    runProgram program (tab n X) = .ok (tab n (X ∘ programWire program)) :=
  foldlM_tab fun row hRow _ => row.run_tab (h row hRow)

end Run

/-- Dropping public identities keeps the wire. -/
theorem programWire_optimize {n : Nat} {program : List Row} (h : ∀ row ∈ program, row.Fits n)
    {j : Nat} (hj : j < n) : programWire (optimize program) j = programWire program j := by
  rw [optimize_eq]
  induction program with
  | nil => rfl
  | cons row program ih =>
    have ih := ih fun r hr => h r (by simp [hr])
    have hRest := programWire_lt (fun r hr => h r (by simp [hr]) : ∀ r ∈ program, r.Fits n) hj
    rw [dropIdentities, List.filter_cons]
    cases row with
    | secretShuffles windows => exact congrArg (Row.wire (.secretShuffles windows)) ih
    | publicShuffle p =>
      have hLen : p.entries.length = n := h (.publicShuffle p) (by simp)
      by_cases hId : p.entries = List.range p.entries.length
      · rw [if_neg (by simpa [Row.isPublicIdentity] using hId)]
        refine ih.trans ?_
        show _ = p.entries.getD (programWire program j) 0
        rw [hId, List.getD_eq_getElem _ _ (by simpa [hLen] using hRest), List.getElem_range]
      · rw [if_pos (by simpa [Row.isPublicIdentity] using hId)]
        exact congrArg (Row.wire (.publicShuffle p)) ih

end Obscure.Routing
