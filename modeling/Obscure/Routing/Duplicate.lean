import Obscure.Routing.BenesMI

/-!
# OBSCURE — forward duplication

In a list whose equal entries are neighbours, forward duplication copies the
value at the head of every run over the whole run. `ForwardDup` scans the list
once; `ForwardDupMI` does it in windows of `2 ** le` positions, each of which
starts at the last position of the one before.

* `forwardDup_spec`    — the scan;
* `forwardDupMI_spec`  — the windows.
-/

namespace Obscure.Routing

open Lib

/-! ## The two networks -/

variable {β : Type} [DecidableEq β]

/-- The column of `ForwardDup`. -/
def dupCol (f : List β) : List Bool :=
  (List.range (f.length - 1)).map fun i => f[i + 1]? = f[i]?

/-- `ForwardDup._apply`, from position `i` on. -/
def dupLoop {α : Type} : Nat → List Bool → List α → Except Fault (List α)
  | _, [], f => .ok f
  | i, flag :: col, f =>
    match f[i]?, f[i + 1]? with
    | some a, some b => dupLoop (i + 1) col (f.set (i + 1) (if flag then a else b))
    | _, _ => .error .indexError

/-- `ForwardDup(f).apply(x)`. -/
def forwardDupApply {α : Type} (f : List β) (x : List α) : Except Fault (List α) := do
  let _ ← log2exact f.length
  if x.length = f.length then dupLoop 0 (dupCol f) x else .error .assertionError

/-- The loop of `clean_f`, with the entries of the list behind `prev`. -/
def cleanLoop : Nat → β → Nat → List β → List Nat
  | _, _, _, [] => []
  | i, prev, last, a :: rest =>
    let head := if a = prev then last else i
    head :: cleanLoop (i + 1) a head rest

/-- `clean_f`. -/
def cleanF : List β → List Nat
  | [] => [0]
  | a :: rest => 0 :: cleanLoop 1 a 0 rest

/-- One window of `ForwardDupMI`. -/
def dupWindow (f : List β) (off size : Nat) : Except Fault Row := do
  let p ← Shuffle.ofNats (cleanF ((f.drop off).take size))
  return .secretShuffles [(off, p)]

/-- One window behind the first. -/
def nextDupWindow (f : List β) (size off : Nat) : Except Fault Row :=
  if (cleanF ((f.drop off).take size)).length > 1 then dupWindow f off size
  else .error .assertionError

/-- `ForwardDupMI(f, le).canonical()`. The `while` loop steps through a
`range`. -/
def forwardDupMI (f : List β) (le : Nat) : Except Fault (List Row) := do
  if le < 1 then .error .assertionError
  else
    let m ← log2exact f.length
    if le ≥ m then
      let p ← Shuffle.ofNats (cleanF f)
      return [.secretShuffles [(0, p)]]
    else
      let first ← dupWindow f 0 (2 ^ le)
      let rest ← (rangeStep (2 ^ le - 1) (f.length - 1) (2 ^ le - 1)).mapM
        (nextDupWindow f (2 ^ le))
      return first :: rest

/-! ## Runs -/

/-- The head of the run of equal values that position `i` is in. -/
def runHead (P : Nat → β) : Nat → Nat
  | 0 => 0
  | i + 1 => if P (i + 1) = P i then runHead P i else i + 1

theorem runHead_le (P : Nat → β) (i : Nat) : runHead P i ≤ i := by
  induction i with
  | zero => exact le_rfl
  | succ i ih =>
    rw [runHead]
    split <;> omega

/-- The head of a run, looked for from position `off` on. -/
theorem runHead_add (P : Nat → β) (off j : Nat) :
    runHead P (off + j) =
      if runHead (fun i => P (off + i)) j = 0 then runHead P off
      else off + runHead (fun i => P (off + i)) j := by
  induction j with
  | zero => simp [runHead]
  | succ j ih =>
    rw [← add_assoc, runHead, runHead, add_assoc]
    split
    · exact ih
    · rw [if_neg (by omega)]

theorem cleanLoop_tab (P : Nat → β) (k i : Nat) :
    cleanLoop (i + 1) (P i) (runHead P i) (tab k fun j => P (i + 1 + j)) =
      tab k fun j => runHead P (i + 1 + j) := by
  induction k generalizing i with
  | zero => rfl
  | succ k ih =>
    have hShift : ∀ {γ : Type} (g : Nat → γ), (tab k fun j => g (i + 1 + (j + 1))) =
        tab k fun j => g (i + 1 + 1 + j) := fun _ =>
      tab_congr fun j _ => by rw [show i + 1 + (j + 1) = i + 1 + 1 + j by omega]
    rw [tab_succ_eq_cons, tab_succ_eq_cons, cleanLoop, hShift P, hShift (runHead P)]
    simp only [add_zero]
    rw [← ih (i + 1), runHead]

theorem cleanF_tab (P : Nat → β) {k : Nat} (hk : 0 < k) : cleanF (tab k P) = tab k (runHead P) := by
  obtain ⟨k, rfl⟩ := Nat.exists_eq_succ_of_ne_zero (show k ≠ 0 by omega)
  have hShift : ∀ {γ : Type} (g : Nat → γ), (tab k fun j => g (j + 1)) =
      tab k fun j => g (0 + 1 + j) := fun _ =>
    tab_congr fun j _ => by rw [show j + 1 = 0 + 1 + j by omega]
  rw [tab_succ_eq_cons, tab_succ_eq_cons, cleanF, hShift P, hShift (runHead P),
    ← cleanLoop_tab P k 0]
  rfl

/-! ## The scan -/

section Scan

variable {α : Type} {n : Nat} {P : Nat → β} {X : Nat → α}

/-- The scan at position `i` has filled the runs up to there. -/
theorem dupLoop_tab (k i : Nat) (hn : i + k + 1 ≤ n) :
    dupLoop i (tab k fun j => decide (P (i + j + 1) = P (i + j)))
        (tab n fun x => if x ≤ i then X (runHead P x) else X x) =
      .ok (tab n fun x => if x ≤ i + k then X (runHead P x) else X x) := by
  induction k generalizing i with
  | zero => rfl
  | succ k ih =>
    have hCons : (tab (k + 1) fun j => decide (P (i + j + 1) = P (i + j))) =
        decide (P (i + 1) = P i) :: tab k fun j => decide (P (i + 1 + j + 1) = P (i + 1 + j)) := by
      rw [tab_succ_eq_cons]
      refine congrArg₂ List.cons rfl (tab_congr fun j _ => ?_)
      rw [show i + (j + 1) = i + 1 + j by omega]
    have hSet : (tab n fun x => if x ≤ i then X (runHead P x) else X x).set (i + 1)
        (if decide (P (i + 1) = P i) = true then X (runHead P i) else X (i + 1)) =
        tab n fun x => if x ≤ i + 1 then X (runHead P x) else X x := by
      refine List.ext_getElem (by simp) fun x h₁ h₂ => ?_
      rw [List.getElem_set, getElem_tab, getElem_tab]
      by_cases hx : i + 1 = x
      · subst hx
        rw [if_pos rfl, if_pos le_rfl, runHead]
        by_cases hP : P (i + 1) = P i
        · simp [hP]
        · simp [hP]
      · rw [if_neg hx]
        by_cases hLe : x ≤ i
        · rw [if_pos hLe, if_pos (by omega)]
        · rw [if_neg hLe, if_neg (by omega)]
    rw [hCons, dupLoop, getElem?_tab (by omega), getElem?_tab (by omega)]
    simp only [le_refl, if_true, show ¬ i + 1 ≤ i by omega, if_false]
    rw [hSet, ih (i + 1) (by omega), show i + 1 + k = i + (k + 1) by omega]

theorem forwardDup_spec {m : Nat} :
    forwardDupApply (tab (2 ^ m) P) (tab (2 ^ m) X) = .ok (tab (2 ^ m) (X ∘ runHead P)) := by
  have hn := Nat.two_pow_pos m
  have hCol : dupCol (tab (2 ^ m) P) =
      tab (2 ^ m - 1) fun j => decide (P (0 + j + 1) = P (0 + j)) := by
    rw [dupCol, length_tab]
    refine List.map_congr_left fun i hi => ?_
    have := List.mem_range.mp hi
    simp only [getElem?_tab (show i + 1 < 2 ^ m by omega), getElem?_tab (show i < 2 ^ m by omega),
      Option.some.injEq, zero_add]
  have hStart : (tab (2 ^ m) X) = tab (2 ^ m) fun x => if x ≤ 0 then X (runHead P x) else X x :=
    tab_congr fun x _ => by
      split
      · rw [show x = 0 by omega, runHead]
      · rfl
  unfold forwardDupApply
  rw [length_tab, log2exact_two_pow, ok_bind, length_tab, if_pos rfl, hCol, hStart,
    dupLoop_tab (2 ^ m - 1) 0 (by omega)]
  congr 1
  exact tab_congr fun x hx => if_pos (by omega)

end Scan

/-! ## The windows -/

section Windows

variable {n : Nat} {P : Nat → β}

omit [DecidableEq β] in
theorem slice_tab {off size : Nat} :
    ((tab n P).drop off).take size = tab (min size (n - off)) fun i => P (off + i) := by
  refine List.ext_getElem (by simp) fun i _ _ => ?_
  simp

/-- A window from `off` on finds the heads of the runs, as far as they lie in
it. -/
theorem dupWindow_tab {off size : Nat} (hOff : off < n) (hSize : 0 < size) :
    ∃ p, dupWindow (tab n P) off size = .ok (.secretShuffles [(off, p)]) ∧
      p.entries = tab (min size (n - off)) (runHead fun i => P (off + i)) := by
  have hk : 0 < min size (n - off) := by omega
  have hClean : Shuffle.ofNats (cleanF (((tab n P).drop off).take size)) =
      .ok (Shuffle.ofTab _ hk (runHead fun i => P (off + i)) fun i hi =>
        lt_of_le_of_lt (runHead_le _ i) hi) := by
    rw [slice_tab, cleanF_tab _ hk]
    exact Shuffle.ofNats_tab hk _
  exact ⟨Shuffle.ofTab _ hk (runHead fun i => P (off + i)) _, by rw [dupWindow, hClean]; rfl, rfl⟩

/-- The rows so far have filled the runs up to position `e`. -/
structure Duplicated (n : Nat) (P : Nat → β) (shapes : List RowShape) (e : Nat)
    (rows : List Row) : Prop where
  fits : ∀ row ∈ rows, row.Fits n
  done : ∀ x ≤ e, programWire rows x = runHead P x
  rest : ∀ x, e < x → programWire rows x = x
  shape : rows.map Row.shape = shapes

/-- One more window, which starts where the rows so far end. -/
theorem Duplicated.push {shapes : List RowShape} {e size : Nat} {rows : List Row} {p : Shuffle}
    (h : Duplicated n P shapes e rows) (he : e < n) (hSize : 0 < size)
    (hp : p.entries = tab (min size (n - e)) (runHead fun i => P (e + i))) :
    Duplicated n P (shapes ++ [.secretShuffles [(e, min size (n - e))]]) (e + min size (n - e) - 1)
      (rows ++ [.secretShuffles [(e, p)]]) := by
  have hLen : p.entries.length = min size (n - e) := by rw [hp, length_tab]
  refine ⟨fun row hRow => ?_, fun x hx => ?_, fun x hx => ?_, ?_⟩
  · rcases List.mem_append.mp hRow with hRow | hRow
    · exact h.fits row hRow
    · rw [List.mem_singleton.mp hRow]
      intro w hw
      rw [List.mem_singleton.mp hw]
      show e + p.entries.length ≤ n
      omega
  · rw [programWire_append]
    show programWire rows (windowWire (e, p) x) = runHead P x
    by_cases hIn : e ≤ x
    · -- the head within the window, and from there the head in the rows before
      rw [windowWire, if_pos ⟨hIn, show x < e + p.entries.length by omega⟩]
      show programWire rows (e + p.entries.getD (x - e) 0) = runHead P x
      rw [hp, getD_tab (by omega), ← Nat.add_sub_cancel' hIn, runHead_add P e (x - e),
        Nat.add_sub_cancel_left]
      split
      · next hHead => rw [hHead, add_zero, h.done e le_rfl]
      · exact h.rest _ (by omega)
    · rw [windowWire, if_neg (fun hx => hIn hx.1)]
      exact h.done x (by omega)
  · rw [programWire_append]
    show programWire rows (windowWire (e, p) x) = x
    have hOut : ¬ (e ≤ x ∧ x < e + p.entries.length) := by omega
    rw [windowWire, if_neg hOut]
    exact h.rest x (by omega)
  · rw [List.map_append, h.shape]
    show shapes ++ [RowShape.secretShuffles [(e, p.entries.length)]] = _
    rw [hLen]

/-- Windows behind one another, overlapping in one position. -/
theorem Duplicated.pushAll {size K : Nat} (hSize : 2 ≤ size) {shapes : List RowShape} {e : Nat}
    {rows ws : List Row} (h : Duplicated n P shapes e rows)
    (hEnd : ∀ k < K, e + k * (size - 1) < n - 1)
    (hws : List.Forall₂ (fun off row => ∃ p : Shuffle, row = .secretShuffles [(off, p)] ∧
      p.entries = tab (min size (n - off)) (runHead fun i => P (off + i)))
      ((List.range K).map fun k => e + k * (size - 1)) ws) :
    Duplicated n P
      (shapes ++ ((List.range K).map fun k => e + k * (size - 1)).map fun off =>
        .secretShuffles [(off, min size (n - off))])
      (if K = 0 then e else min (e + K * (size - 1)) (n - 1)) (rows ++ ws) := by
  -- on the number of windows still to come
  induction K generalizing e shapes rows ws with
  | zero =>
    cases hws
    simpa using h
  | succ K ih =>
    have hFirst := hEnd 0 (by omega)
    rw [zero_mul, add_zero] at hFirst
    have hRange : ((List.range (K + 1)).map fun k => e + k * (size - 1)) =
        e :: (List.range K).map fun k => e + (size - 1) + k * (size - 1) := by
      rw [List.range_succ_eq_map, List.map_cons, List.map_map]
      refine congrArg₂ List.cons (by simp) (List.map_congr_left fun k _ => ?_)
      rw [Function.comp_apply, Nat.succ_mul]
      omega
    rw [hRange] at hws ⊢
    cases hws with
    | cons hHead hTail =>
      rename_i row ws
      obtain ⟨p, rfl, hp⟩ := hHead
      have hStep := h.push (by omega) (by omega) hp
      rw [if_neg (by omega)]
      -- only the last window may be cut off by the end of the wires
      by_cases hLast : K = 0
      · subst hLast
        cases hTail
        rw [show min (e + (0 + 1) * (size - 1)) (n - 1) = e + min size (n - e) - 1 by omega]
        exact hStep
      · have hNext := hEnd 1 (by omega)
        rw [one_mul] at hNext
        rw [show e + min size (n - e) - 1 = e + (size - 1) by omega] at hStep
        have hAll := ih hStep (fun k hk => by
          have := hEnd (k + 1) (by omega)
          rw [Nat.succ_mul] at this
          omega) hTail
        rw [if_neg hLast, List.append_assoc, List.append_assoc] at hAll
        rw [Nat.succ_mul, show e + (K * (size - 1) + (size - 1)) =
          e + (size - 1) + K * (size - 1) by omega]
        exact hAll

/-- The shapes of the rows of `ForwardDupMI`. -/
def dupShapes (m le : Nat) : List RowShape :=
  if le ≥ m then [.secretShuffles [(0, 2 ^ m)]]
  else .secretShuffles [(0, 2 ^ le)] :: (rangeStep (2 ^ le - 1) (2 ^ m - 1) (2 ^ le - 1)).map
    fun off => .secretShuffles [(off, min (2 ^ le) (2 ^ m - off))]

/-- `ForwardDupMI` compiles every list, and its rows fill the runs. -/
theorem forwardDupMI_spec {m le : Nat} (hle : 0 < le) :
    ∃ rows, forwardDupMI (tab (2 ^ m) P) le = .ok rows ∧ (∀ row ∈ rows, row.Fits (2 ^ m)) ∧
      (∀ x < 2 ^ m, programWire rows x = runHead P x) ∧ rows.map Row.shape = dupShapes m le := by
  have hn := Nat.two_pow_pos m
  have hNone : Duplicated (2 ^ m) P [] 0 [] := by
    refine ⟨by simp, fun x hx => ?_, fun x _ => rfl, rfl⟩
    rw [show x = 0 by omega]
    rfl
  unfold forwardDupMI
  rw [if_neg (by omega), length_tab, log2exact_two_pow, ok_bind]
  by_cases hBig : le ≥ m
  · -- one window holds everything
    obtain ⟨p, hWindow, hp⟩ := dupWindow_tab (P := P) hn hn
    have hOne := hNone.push hn hn hp
    have hAll : ((tab (2 ^ m) P).drop 0).take (2 ^ m) = tab (2 ^ m) P := by
      rw [List.drop_zero, List.take_of_length_le (by simp)]
    rw [dupWindow, hAll] at hWindow
    rw [if_pos hBig, dupShapes, if_pos hBig]
    obtain ⟨q, hq, hRow⟩ := bind_eq_ok.mp hWindow
    cases hRow
    rw [hq, ok_bind]
    rw [Nat.sub_zero, min_self, zero_add] at hOne
    exact ⟨_, rfl, hOne.fits, fun x hx => hOne.done x (by omega), hOne.shape⟩
  · have hlm : le < m := by omega
    have hl : 2 ^ 1 ≤ 2 ^ le := Nat.pow_le_pow_right (by decide) hle
    have hln : 2 ^ le < 2 ^ m := Nat.pow_lt_pow_right (by decide) hlm
    obtain ⟨p, hFirst, hp⟩ := dupWindow_tab (P := P) hn (Nat.two_pow_pos le)
    have hOne := hNone.push hn (Nat.two_pow_pos le) hp
    rw [Nat.sub_zero, min_eq_left hln.le, zero_add] at hOne
    rw [if_neg hBig, hFirst, ok_bind, dupShapes, if_neg hBig]
    -- the windows behind the first, each from where the rows before it end
    obtain ⟨ws, hws, hAll⟩ := exists_mapM_ok
      (l := rangeStep (2 ^ le - 1) (2 ^ m - 1) (2 ^ le - 1))
        (f := nextDupWindow (tab (2 ^ m) P) (2 ^ le))
      (P := fun off row => ∃ p : Shuffle, row = .secretShuffles [(off, p)] ∧
        p.entries = tab (min (2 ^ le) (2 ^ m - off)) (runHead fun i => P (off + i)))
      (by
        intro off hOff
        obtain ⟨done, rest, hSplit⟩ := List.append_of_mem hOff
        obtain ⟨-, hLt⟩ := rangeStep_split (by omega) hSplit
        obtain ⟨p, hWindow, hp⟩ := dupWindow_tab (P := P) (show off < 2 ^ m by omega)
          (Nat.two_pow_pos le)
        refine ⟨_, ?_, p, rfl, hp⟩
        rw [nextDupWindow, slice_tab, cleanF_tab _ (by omega), length_tab, if_pos (by omega),
          hWindow])
    have hCount := @le_length_rangeStep (2 ^ le - 1) (2 ^ m - 1) _
      (show 0 < 2 ^ le - 1 by omega)
    have hInside : ∀ k < (rangeStep (2 ^ le - 1) (2 ^ m - 1) (2 ^ le - 1)).length,
        2 ^ le - 1 + k * (2 ^ le - 1) < 2 ^ m - 1 :=
      fun k hk => rangeStep_lt (by omega) hk
    -- the windows overlap in one wire: each starts where the last one ended
    have hLen : (rangeStep (2 ^ le - 1) (2 ^ m - 1) (2 ^ le - 1)) =
        (List.range (rangeStep (2 ^ le - 1) (2 ^ m - 1) (2 ^ le - 1)).length).map
          fun k => 2 ^ le - 1 + k * (2 ^ le - 1) := by
      simp [rangeStep]
    rw [hLen] at hAll
    have hEnds := hOne.pushAll (by omega) hInside hAll
    rw [← hLen, if_neg (by
      intro hZero
      rw [hZero] at hCount
      omega), min_eq_right hCount] at hEnds
    rw [hws, ok_bind]
    exact ⟨_, rfl, hEnds.fits, fun x hx => hEnds.done x (by omega), hEnds.shape⟩

end Windows

end Obscure.Routing
