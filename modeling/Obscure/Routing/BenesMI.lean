import Obscure.Routing.Benes
import Obscure.Routing.Rotation
import Obscure.Lib.Lists

/-!
# OBSCURE — a Benes network in multi-instructions

`BenesPermMI` cuts the columns of a network into groups of up to `le` (the `2 le
- 1` columns in the middle work on `le` digits too, and make one group). A group
is conjugated by the rotation that brings its digits to the low end, and is then
a row of independent windows of `2 ** le` positions; rotations between two
groups are merged into one public row.

* `compileCols_spec`  — one group;
* `benesPermMI_spec`  — the rows together are the permutation, and their public
  part depends on the sizes only.
-/

namespace Obscure.Routing

open Lib

/-- `range(start, stop, step)`. -/
def rangeStep (start stop step : Nat) : List Nat :=
  (List.range ((stop - start + (step - 1)) / step)).map fun k => start + k * step

/-- The three parts that `_compile_cols` returns. -/
structure Group where
  lift : Shuffle
  main : List (Nat × Shuffle)
  sink : Shuffle

/-- `min`, which raises on an empty list. -/
def listMin (l : List Nat) : Except Fault Nat :=
  match l.min? with
  | some s => .ok s
  | none => .error .valueError

/-- One round of the loop that cuts `mid` into groups. -/
def cutWindow (mid : List Nat) (window i : Nat) : Except Fault (Nat × Shuffle) := do
  let group ← Shuffle.ofInts (((mid.drop i).take window).map fun v : Nat => (v : Int) - (i : Int))
  return (i, group)

/-- `_compile_cols`. -/
def compileCols (m le : Nat) (icols : List (Nat × List Nat)) (width : Nat) :
    Except Fault Group := do
  let shift ← listMin (icols.map Prod.fst)
  let sink ← Shuffle.makeIndexROTL m shift
  let lift ← sink.invert
  let mid ← icols.foldlM (fun mid ic => applyCol mid m ic.1 ic.2) (List.range (2 ^ m))
  let mid ← Shuffle.ofNats mid
  let mid ← sink.compose mid
  let mid ← mid.compose lift
  let window := max (2 ^ width) (2 ^ le)
  let main ← (rangeStep 0 (2 ^ m) window).mapM (cutWindow mid.entries window)
  return ⟨lift, main, sink⟩

/-- `_add_to_result`. -/
def addToResult (result : List Row) (group : Group) : Except Fault (List Row) :=
  match result.getLast? with
  | none => .ok [.publicShuffle group.lift, .secretShuffles group.main, .publicShuffle group.sink]
  | some (.publicShuffle last) => do
    let merged ← group.lift.compose last
    return result.dropLast ++
      [.publicShuffle merged, .secretShuffles group.main, .publicShuffle group.sink]
  -- composing shuffles of two kinds fails an assertion
  | some (.secretShuffles _) => .error .assertionError

/-- One round of the loops of `_compile`. -/
def addCols (m le : Nat) (result : List Row) (icols : List (Nat × List Nat)) (width : Nat) :
    Except Fault (List Row) := do
  let group ← compileCols m le icols width
  addToResult result group

/-- The second half of `BenesPermMI._compile`, for `le < m`. -/
def groupCols (m le : Nat) (cols : List (List Nat)) : Except Fault (List Row) := do
  let midl := m - le
  let midr := m + le - 2
  let icols := cols.zipIdx.map fun ci => (min ci.2 (2 * m - 2 - ci.2), ci.1)
  let result ← (rangeStep 0 midl le).foldlM (fun result i =>
    let sub := ((icols.take midl).drop i).take le
    addCols m le result sub sub.length) []
  let result ← addCols m le result ((icols.take (midr + 1)).drop midl) le
  (rangeStep (midr + 1) (2 * m - 1) le).foldlM (fun result i =>
    let sub := (icols.drop i).take le
    addCols m le result sub sub.length) result

/-- `BenesPermMI(f, le).canonical()`. -/
def benesPermMI (f : List Nat) (le : Nat) : Except Fault (List Row) := do
  if le < 1 then .error .assertionError
  else
    let m ← log2exact f.length
    if le ≥ m then
      let p ← Shuffle.ofNats f
      return [.secretShuffles [(0, p)]]
    else if 2 ^ m % 2 ^ le ≠ 0 then .error .assertionError
    else
      let cols ← benesPerm f
      if cols.length = 2 * m - 1 ∧ ∀ col ∈ cols, col.length = 2 ^ m / 2 then groupCols m le cols
      else .error .assertionError

/-- What everyone may see of a row. -/
inductive RowShape where
  | publicShuffle (entries : List Nat)
  | secretShuffles (windows : List (Nat × Nat))
deriving DecidableEq

def Row.shape : Row → RowShape
  | .publicShuffle p => .publicShuffle p.entries
  | .secretShuffles windows => .secretShuffles (windows.map fun w => (w.1, w.2.entries.length))

/-! ## Windows -/

/-- Consecutive windows that contain the table of `W`. -/
def Windows (w k : Nat) (W : Nat → Nat) (main : List (Nat × Shuffle)) : Prop :=
  main.map (fun win => (win.1, win.2.entries)) =
    (List.range k).map fun t => (t * w, tab w fun j => W (t * w + j) - t * w)

section Windows

variable {w k : Nat} {W : Nat → Nat} {main : List (Nat × Shuffle)}

/-- What a window does depends on its offset and its entries. -/
theorem windowWire_congr {a : Nat × Shuffle} {off : Nat} {entries : List Nat}
    (h : (a.1, a.2.entries) = (off, entries)) (j : Nat) :
    windowWire a j =
      if off ≤ j ∧ j < off + entries.length then off + entries.getD (j - off) 0 else j := by
  obtain ⟨rfl, rfl⟩ := Prod.mk.inj h
  rfl

/-- Each index is moved by the window it is in, and by no other. -/
theorem Windows.wire (hw : 0 < w) (h : Windows w k W main)
    (hW : ∀ x < w * k, W x / w = x / w) {x : Nat} (hx : x < w * k) :
    (Row.secretShuffles main).wire x = W x := by
  show main.foldr windowWire x = W x
  induction k generalizing main with
  | zero => simp at hx
  | succ k ih =>
    rw [Windows, List.range_succ, List.map_append, List.map_eq_append_iff] at h
    obtain ⟨before, last, rfl, hBefore, hLast⟩ := h
    rw [List.map_singleton, List.map_eq_singleton_iff] at hLast
    obtain ⟨win, rfl, hWin⟩ := hLast
    have hGuard : ∀ j, (k * w ≤ j ∧ j < k * w + w) ↔ j / w = k := by
      intro j
      rw [Nat.div_eq_iff hw, mul_comm]
      omega
    rw [List.foldr_append, List.foldr_cons, List.foldr_nil, windowWire_congr hWin, length_tab]
    by_cases hHere : x / w = k
    · have hIn := (hGuard x).mpr hHere
      have hWx := (hGuard (W x)).mpr ((hW x hx).trans hHere)
      rw [if_pos hIn, getD_tab (by omega), Nat.add_sub_cancel' hIn.1, Nat.add_sub_cancel' hWx.1]
      -- the windows before leave it where it is
      have hKeep : ∀ (l : List (Nat × Shuffle)), (∀ a ∈ l, a.1 + a.2.entries.length ≤ k * w) →
          l.foldr windowWire (W x) = W x := by
        intro l hl
        induction l with
        | nil => rfl
        | cons a l ihl =>
          rw [List.foldr_cons, ihl fun b hb => hl b (by simp [hb]), windowWire, if_neg]
          have := hl a (by simp)
          omega
      refine hKeep before fun a ha => ?_
      have hMem : (a.1, a.2.entries) ∈ before.map (fun win => (win.1, win.2.entries)) :=
        List.mem_map_of_mem ha
      rw [hBefore, List.mem_map] at hMem
      obtain ⟨t, ht, hEq⟩ := hMem
      obtain ⟨h1, h2⟩ := Prod.mk.inj hEq
      rw [← h1, ← h2, length_tab, ← Nat.succ_mul]
      exact Nat.mul_le_mul_right w (List.mem_range.mp ht)
    · rw [if_neg (fun hIn => hHere ((hGuard x).mp hIn))]
      have hx' : x < w * k := by
        have hLe : x / w < k + 1 := (Nat.div_lt_iff_lt_mul hw).mpr (by rwa [mul_comm])
        rw [mul_comm]
        exact (Nat.div_lt_iff_lt_mul hw).mp (by omega)
      exact ih hBefore (fun y hy => hW y (lt_of_lt_of_le hy (by rw [mul_add]; omega))) hx'

/-- The windows are within the wires. -/
theorem Windows.fits (h : Windows w k W main) {n : Nat} (hn : w * k ≤ n) :
    (Row.secretShuffles main).Fits n := by
  intro a ha
  have hMem : (a.1, a.2.entries) ∈ main.map (fun win => (win.1, win.2.entries)) :=
    List.mem_map_of_mem ha
  rw [show main.map _ = _ from h, List.mem_map] at hMem
  obtain ⟨t, ht, hEq⟩ := hMem
  obtain ⟨h1, h2⟩ := Prod.mk.inj hEq
  rw [← h1, ← h2, length_tab, ← Nat.succ_mul]
  exact le_trans (Nat.mul_le_mul_right w (List.mem_range.mp ht)) (by rwa [mul_comm])

/-- Their shape does not depend on what they do. -/
theorem Windows.shape (h : Windows w k W main) :
    (Row.secretShuffles main).shape = .secretShuffles ((List.range k).map fun t => (t * w, w)) := by
  have hMap := congrArg (List.map fun p : Nat × List Nat => (p.1, p.2.length)) h
  rw [List.map_map, List.map_map] at hMap
  rw [Row.shape]
  congr 1
  simpa [Function.comp_def] using hMap

end Windows

/-! ## One group -/

/-- The columns work on the digits `s … s + le - 1` only, on `s` among them. -/
structure Digits (m le : Nat) (net : List (Nat × (Nat → Nat))) (s : Nat) : Prop where
  le_pos : 0 < le
  fits : s + le ≤ m
  mem : s ∈ net.map Prod.fst
  low : ∀ bc ∈ net, s ≤ bc.1
  high : ∀ bc ∈ net, bc.1 < s + le

/-- The columns with their tables of control bits. -/
def tables (m : Nat) (net : List (Nat × (Nat → Nat))) : List (Nat × List Nat) :=
  net.map fun bc => (bc.1, tab (2 ^ (m - 1)) bc.2)

theorem netWire_append (a b : List (Nat × (Nat → Nat))) (x : Nat) :
    netWire (a ++ b) x = netWire a (netWire b x) := by
  rw [netWire, List.foldr_append]
  rfl

section Group

variable {m le s : Nat} {net : List (Nat × (Nat → Nat))}

/-- A network keeps positions within the array. -/
theorem netWire_lt (h : ∀ bc ∈ net, bc.1 < m) {x : Nat} (hx : x < 2 ^ m) :
    netWire net x < 2 ^ m :=
  foldr_lt (fun bc hbc _ hj => colMap_lt bc.2 (h bc hbc) hj) hx

/-- A column leaves the digits below its own. -/
theorem colMap_mod {b : Nat} (h : s ≤ b) (c : Nat → Nat) (x : Nat) :
    colMap b c x % 2 ^ s = x % 2 ^ s := by
  unfold colMap
  split
  · rw [Nat.xor_mod_two_pow, Nat.mod_eq_zero_of_dvd (Nat.pow_dvd_pow 2 h), Nat.xor_zero]
  · rfl

/-- It leaves those above. -/
theorem colMap_div {b t : Nat} (h : b < t) (c : Nat → Nat) (x : Nat) :
    colMap b c x / 2 ^ t = x / 2 ^ t := by
  unfold colMap
  split
  · rw [Nat.xor_div_two_pow, Nat.div_eq_of_lt (Nat.pow_lt_pow_right (by decide) h), Nat.xor_zero]
  · rfl

/-- The other digits are not touched. -/
theorem netWire_outside {t : Nat} (hLow : ∀ bc ∈ net, s ≤ bc.1) (hHigh : ∀ bc ∈ net, bc.1 < t)
    (x : Nat) :
    netWire net x % 2 ^ s = x % 2 ^ s ∧ netWire net x / 2 ^ t = x / 2 ^ t := by
  induction net with
  | nil => exact ⟨rfl, rfl⟩
  | cons bc net ih =>
    obtain ⟨hMod, hDiv⟩ := ih (fun a ha => hLow a (by simp [ha])) fun a ha => hHigh a (by simp [ha])
    constructor
    · exact (colMap_mod (hLow bc (by simp)) bc.2 _).trans hMod
    · exact (colMap_div (hHigh bc (by simp)) bc.2 _).trans hDiv

/-- The columns of a group, seen between its two rotations. -/
def midWire (m : Nat) (hm : 0 < m) (s : Nat) (net : List (Nat × (Nat → Nat))) (x : Nat) : Nat :=
  (rot m hm ^ s) (netWire net ((rot m hm ^ s)⁻¹ x))

theorem Digits.lt (h : Digits m le net s) : ∀ bc ∈ net, bc.1 < m := fun bc hbc =>
  lt_of_lt_of_le (h.high bc hbc) h.fits

/-- There is at least one digit. -/
theorem Digits.pos (h : Digits m le net s) : 0 < m :=
  lt_of_lt_of_le h.le_pos (by have := h.fits; omega)

/-- It stays within the windows. -/
theorem midWire_div (h : Digits m le net s) {x : Nat} (hx : x < 2 ^ m) :
    midWire m h.pos s net x / 2 ^ le = x / 2 ^ le := by
  have hR := (rot_below h.pos).pow s
  have hy : (rot m h.pos ^ s)⁻¹ x < 2 ^ m := (hR.inv x).mpr hx
  obtain ⟨hMod, hDiv⟩ := netWire_outside h.low h.high ((rot m h.pos ^ s)⁻¹ x)
  have hBack : (rot m h.pos ^ s) ((rot m h.pos ^ s)⁻¹ x) = x := by simp
  conv_rhs => rw [← hBack]
  rw [midWire, rot_pow_div h.pos h.fits (netWire_lt h.lt hy), rot_pow_div h.pos h.fits hy, hMod,
    hDiv]

/-- The offsets of the windows are the multiples of their size. -/
theorem rangeStep_windows (hle : le ≤ m) :
    rangeStep 0 (2 ^ m) (2 ^ le) = (List.range (2 ^ (m - le))).map fun t => t * 2 ^ le := by
  have hPos := Nat.two_pow_pos le
  have hPow : 2 ^ m = 2 ^ (m - le) * 2 ^ le := by
    rw [← pow_add, Nat.sub_add_cancel hle]
  have hCount : (2 ^ m - 0 + (2 ^ le - 1)) / 2 ^ le = 2 ^ (m - le) := by
    rw [Nat.sub_zero, hPow, add_comm, Nat.add_mul_div_right _ _ hPos, Nat.div_eq_of_lt (by omega),
      zero_add]
  rw [rangeStep, hCount]
  simp

/-- The columns are applied one after the other. -/
theorem foldlM_applyCol {α : Type} (h : ∀ bc ∈ net, bc.1 < m) {X : Nat → α} :
    (tables m net).foldlM (fun mid ic => applyCol mid m ic.1 ic.2) (tab (2 ^ m) X) =
      .ok (tab (2 ^ m) (X ∘ netWire net)) := by
  rw [tables, List.foldlM_map]
  exact foldlM_tab fun bc hbc _ => applyCol_tab (h bc hbc) bc.2

/-- A window of a table that is closed under it. -/
theorem cutWindow_tab {n w i : Nat} {W : Nat → Nat} (hw : 0 < w) (hi : i + w ≤ n)
    (hStay : ∀ j < w, i ≤ W (i + j) ∧ W (i + j) < i + w) :
    ∃ win, cutWindow (tab n W) w i = .ok win ∧
      (win.1, win.2.entries) = (i, tab w fun j => W (i + j) - i) := by
  have hBelow : ∀ j < w, W (i + j) - i < w := fun j hj => by
    have := hStay j hj
    omega
  have hInts : Shuffle.ofInts (((tab n W).drop i |>.take w).map fun v : Nat => (v : Int) - i) =
      .ok (Shuffle.ofTab w hw (fun j => W (i + j) - i) hBelow) := by
    rw [take_drop_tab W hi, map_tab]
    refine Shuffle.ofInts_tab hw (fun j hj => ?_) _
    have := (hStay j hj).1
    simp only [Function.comp_apply]
    omega
  rw [cutWindow, hInts]
  exact ⟨_, rfl, rfl⟩

/-- What `_compile_cols` makes of a group. -/
theorem compileCols_spec (h : Digits m le net s) {width : Nat} (hWidth : width ≤ le) :
    ∃ main, compileCols m le (tables m net) width = .ok {
        lift := Shuffle.ofPerm (2 ^ m) (Nat.two_pow_pos m) (rot m h.pos ^ s)⁻¹
          ((rot_below h.pos).pow s).inv
        main := main
        sink := Shuffle.ofPerm (2 ^ m) (Nat.two_pow_pos m) (rot m h.pos ^ s)
          ((rot_below h.pos).pow s) } ∧
      Windows (2 ^ le) (2 ^ (m - le)) (midWire m h.pos s net) main := by
  have hn := Nat.two_pow_pos m
  have hw := Nat.two_pow_pos le
  have hle : le ≤ m := le_trans (Nat.le_add_left le s) h.fits
  have hR := (rot_below h.pos).pow s
  have hsm : s < m := lt_of_lt_of_le (Nat.lt_add_of_pos_right h.le_pos) h.fits
  have hFst : (tables m net).map Prod.fst = net.map Prod.fst := by
    simp [tables, Function.comp_def]
  have hMin : listMin (net.map Prod.fst) = .ok s := by
    have hEq : (net.map Prod.fst).min? = some s := by
      refine List.min?_eq_some_iff.mpr ⟨h.mem, fun b hb => ?_⟩
      obtain ⟨bc, hbc, rfl⟩ := List.mem_map.mp hb
      exact h.low bc hbc
    rw [listMin, hEq]
  have hRange : List.range (2 ^ m) = tab (2 ^ m) id := by simp [tab]
  have hMax : max (2 ^ width) (2 ^ le) = 2 ^ le :=
    max_eq_right (Nat.pow_le_pow_right (by decide) hWidth)
  -- the group as one shuffle of all positions, cut into windows
  set W := midWire m h.pos s net with hW
  obtain ⟨main, hMain, hAll⟩ := exists_mapM_ok (l := rangeStep 0 (2 ^ m) (2 ^ le))
    (f := cutWindow (tab (2 ^ m) W) (2 ^ le))
    (P := fun i win => (win.1, win.2.entries) = (i, tab (2 ^ le) fun j => W (i + j) - i)) (by
      intro i hi
      rw [rangeStep_windows hle] at hi
      obtain ⟨t, ht, rfl⟩ := List.mem_map.mp hi
      have hEnd : t * 2 ^ le + 2 ^ le ≤ 2 ^ m := by
        rw [← Nat.succ_mul, ← Nat.sub_add_cancel hle, pow_add]
        exact Nat.mul_le_mul_right _ (List.mem_range.mp ht)
      refine cutWindow_tab hw hEnd fun j hj => ?_
      have hDiv : W (t * 2 ^ le + j) / 2 ^ le = (t * 2 ^ le + j) / 2 ^ le :=
        midWire_div h (lt_of_lt_of_le (Nat.add_lt_add_left hj _) hEnd)
      rw [mul_comm t, Nat.mul_add_div hw, Nat.div_eq_of_lt hj, add_zero] at hDiv
      have hWin := Nat.div_add_mod (W (2 ^ le * t + j)) (2 ^ le)
      have hMod := Nat.mod_lt (W (2 ^ le * t + j)) hw
      rw [hDiv] at hWin
      rw [mul_comm t]
      omega)
  refine ⟨main, ?_, ?_⟩
  · unfold compileCols
    rw [hFst, hMin, ok_bind, makeIndexROTL_eq h.pos hsm, ok_bind, Shuffle.invert_ofPerm hn hR,
      ok_bind, hRange, foldlM_applyCol h.lt, ok_bind, Function.id_comp,
      Shuffle.ofNats_tab hn fun i hi => netWire_lt h.lt hi, ok_bind, Shuffle.ofPerm,
      Shuffle.compose_ofTab, ok_bind, Shuffle.ofPerm, Shuffle.compose_ofTab, ok_bind, hMax]
    exact (congrArg (fun r => r >>= _) hMain).trans rfl
  · rw [Windows, map_eq_map_of_forall₂ hAll, rangeStep_windows hle, List.map_map]
    rfl

end Group

/-! ## All groups -/

/-- The shapes after one more group, with rotation `s`. -/
def addShape (m : Nat) (hm : 0 < m) (le : Nat) (shapes : List RowShape) (s : Nat) : List RowShape :=
  let lift : Nat → Nat := ⇑(rot m hm ^ s)⁻¹
  let merged := match shapes.getLast? with
    | some (.publicShuffle last) => last.map lift
    | _ => tab (2 ^ m) lift
  shapes.dropLast ++ [.publicShuffle merged,
    .secretShuffles ((List.range (2 ^ (m - le))).map fun t => (t * 2 ^ le, 2 ^ le)),
    .publicShuffle (tab (2 ^ m) ⇑(rot m hm ^ s))]

/-- The rows that a list of columns has been compiled to. -/
structure Compiled (m : Nat) (hm : 0 < m) (net : List (Nat × (Nat → Nat))) (shapes : List RowShape)
    (result : List Row) : Prop where
  fits : ∀ row ∈ result, row.Fits (2 ^ m)
  wire : ∀ x < 2 ^ m, programWire result x = netWire net x
  last : result = [] ∨ ∃ init s, result = init ++
    [.publicShuffle
      (Shuffle.ofPerm (2 ^ m) (Nat.two_pow_pos m) (rot m hm ^ s) ((rot_below hm).pow s))]
  shape : result.map Row.shape = shapes

theorem programWire_append (a b : List Row) (x : Nat) :
    programWire (a ++ b) x = programWire a (programWire b x) := by
  rw [programWire, List.foldr_append]
  rfl

section Compiled

variable {m le s : Nat} {hm : 0 < m} {net chunk : List (Nat × (Nat → Nat))}
  {shapes : List RowShape} {result : List Row}

/-- A row of a table does what the table says. -/
theorem wire_ofTab {n : Nat} (hn : 0 < n) {v : Nat → Nat} (hv : ∀ i < n, v i < n) {x : Nat}
    (hx : x < n) : (Row.publicShuffle (Shuffle.ofTab n hn v hv)).wire x = v x :=
  getD_tab hx

/-- The three rows of a group, the first of them merged with what stands before
it, put the columns of the group behind. -/
theorem groupWire (h : Digits m le chunk s) {main : List (Nat × Shuffle)}
    (hMain : Windows (2 ^ le) (2 ^ (m - le)) (midWire m h.pos s chunk) main) {x : Nat}
    (hx : x < 2 ^ m) :
    (rot m h.pos ^ s)⁻¹ ((Row.secretShuffles main).wire ((rot m h.pos ^ s) x)) =
      netWire chunk x := by
  have hle : le ≤ m := le_trans (Nat.le_add_left le s) h.fits
  have hSize : 2 ^ le * 2 ^ (m - le) = 2 ^ m := by rw [← pow_add, Nat.add_sub_cancel' hle]
  have hR := (rot_below h.pos).pow s
  rw [hMain.wire (Nat.two_pow_pos le) (fun y hy => midWire_div h (hSize ▸ hy))
    (hSize ▸ (hR x).mpr hx), midWire]
  simp

/-- The rows of a group behind rows that do the columns before it up to a
rotation `prev`. -/
theorem Compiled.push {init : List Row} {v prev : Nat → Nat} {hn : 0 < 2 ^ m}
    {hv : ∀ i < 2 ^ m, v i < 2 ^ m} (h : Digits m le chunk s) {main : List (Nat × Shuffle)}
    (hMain : Windows (2 ^ le) (2 ^ (m - le)) (midWire m h.pos s chunk) main)
    (hInit : ∀ row ∈ init, row.Fits (2 ^ m))
    (hMerged : ∀ y < 2 ^ m, v y = prev ((rot m h.pos ^ s)⁻¹ y))
    (hWire : ∀ y < 2 ^ m, programWire init (prev y) = netWire net y) :
    Compiled m h.pos (net ++ chunk)
      (init.map Row.shape ++ [.publicShuffle (tab (2 ^ m) v),
        .secretShuffles ((List.range (2 ^ (m - le))).map fun t => (t * 2 ^ le, 2 ^ le)),
        .publicShuffle (tab (2 ^ m) ⇑(rot m h.pos ^ s))])
      (init ++ [.publicShuffle (Shuffle.ofTab (2 ^ m) hn v hv), .secretShuffles main,
        .publicShuffle (Shuffle.ofPerm (2 ^ m) (Nat.two_pow_pos m) (rot m h.pos ^ s)
          ((rot_below h.pos).pow s))]) := by
  have hle : le ≤ m := le_trans (Nat.le_add_left le s) h.fits
  have hSize : 2 ^ le * 2 ^ (m - le) = 2 ^ m := by rw [← pow_add, Nat.add_sub_cancel' hle]
  have hR := (rot_below h.pos).pow s
  have hFits := hMain.fits hSize.le
  refine ⟨fun row hRow => ?_, fun x hx => ?_, Or.inr ⟨init ++
    [.publicShuffle (Shuffle.ofTab (2 ^ m) hn v hv), .secretShuffles main], s, by simp⟩, ?_⟩
  · rcases List.mem_append.mp hRow with hRow | hRow
    · exact hInit row hRow
    · simp only [List.mem_cons, List.not_mem_nil, or_false] at hRow
      rcases hRow with rfl | rfl | rfl
      · exact length_tab _ _
      · exact hFits
      · exact length_tab _ _
  · have hSink := (hR x).mpr hx
    have hMid := Row.wire_lt hFits hSink
    rw [programWire_append, netWire_append, ← groupWire h hMain hx]
    show programWire init ((Row.publicShuffle _).wire ((Row.secretShuffles main).wire
      ((Row.publicShuffle _).wire x))) = _
    rw [Shuffle.ofPerm, wire_ofTab _ _ hx, wire_ofTab hn hv hMid, hMerged _ hMid,
      hWire _ ((hR.inv _).mpr hMid)]
  · rw [List.map_append, List.map_cons, List.map_cons, hMain.shape]
    rfl

/-- One more group. -/
theorem addCols_spec (hc : Compiled m hm net shapes result) (h : Digits m le chunk s)
    {width : Nat} (hWidth : width ≤ le) :
    ∃ result', addCols m le result (tables m chunk) width = .ok result' ∧
      Compiled m hm (net ++ chunk) (addShape m hm le shapes s) result' := by
  have hn := Nat.two_pow_pos m
  have hR := (rot_below hm).pow s
  obtain ⟨main, hGroup, hMain⟩ := compileCols_spec h hWidth
  unfold addCols
  rw [hGroup, ok_bind]
  rcases hc.last with rfl | ⟨init, s', rfl⟩
  · -- the first group: nothing to merge with
    have hShape : shapes = [] := hc.shape.symm
    subst hShape
    refine ⟨_, rfl, ?_⟩
    have hv : ∀ i < 2 ^ m, (rot m hm ^ s)⁻¹ i < 2 ^ m := fun i hi => (hR.inv i).mpr hi
    exact @Compiled.push _ _ _ _ _ [] _ id hn hv h _ hMain (by simp) (fun y _ => rfl) hc.wire
  · have hShape := hc.shape
    have hR' := (rot_below hm).pow s'
    rw [List.map_append, List.map_singleton] at hShape
    -- the rotation behind the last group is merged with the one before this group
    have hLast : shapes.getLast? = some (.publicShuffle (tab (2 ^ m) ⇑(rot m hm ^ s'))) := by
      rw [← hShape, List.getLast?_concat]
      rfl
    have hInit : shapes.dropLast = init.map Row.shape := by
      rw [← hShape, List.dropLast_concat]
    have hAdd : addShape m hm le shapes s = init.map Row.shape ++
        [.publicShuffle (tab (2 ^ m) (⇑(rot m hm ^ s)⁻¹ ∘ ⇑(rot m hm ^ s'))),
          .secretShuffles ((List.range (2 ^ (m - le))).map fun t => (t * 2 ^ le, 2 ^ le)),
          .publicShuffle (tab (2 ^ m) ⇑(rot m hm ^ s))] := by
      rw [addShape, hLast, hInit]
      simp only [map_tab]
    have hMerge := Shuffle.compose_ofTab hn (v := ⇑(rot m hm ^ s)⁻¹) (w := ⇑(rot m hm ^ s'))
      (fun i hi => (hR.inv i).mpr hi) (fun i hi => (hR' i).mpr hi)
    rw [addToResult, List.getLast?_concat]
    simp only [Shuffle.ofPerm]
    rw [hMerge, ok_bind, List.dropLast_concat, hAdd]
    refine ⟨_, rfl, @Compiled.push _ _ _ _ _ init _ ⇑(rot m hm ^ s') _ _ h _ hMain
      (fun row hRow => hc.fits row (by simp [hRow])) (fun y _ => ?_) fun y hy => ?_⟩
    · -- rotations commute
      have hComm : (rot m hm ^ s)⁻¹ * rot m hm ^ s' = rot m hm ^ s' * (rot m hm ^ s)⁻¹ :=
        ((Commute.refl (rot m hm)).pow_pow s s').inv_left.eq
      exact congrArg (fun p : Equiv.Perm Nat => p y) hComm
    · have hWire := hc.wire y hy
      rw [programWire_append] at hWire
      rw [← hWire]
      exact congrArg (programWire init) (wire_ofTab _ _ hy).symm

end Compiled

/-! ## The cut into groups -/

/-- The numbers of a range are multiples of its step. -/
theorem rangeStep_split {start stop step a : Nat} {done rest : List Nat} (hStep : 0 < step)
    (h : rangeStep start stop step = done ++ a :: rest) :
    a = start + done.length * step ∧ a < stop := by
  have hLen : done.length < (rangeStep start stop step).length := by simp [h]
  have hGet : (rangeStep start stop step)[done.length] = a := by simp [h]
  have hCount : done.length < (stop - start + (step - 1)) / step := by
    simpa [rangeStep] using hLen
  rw [Nat.lt_div_iff_mul_lt hStep] at hCount
  simp only [rangeStep, List.getElem_map, List.getElem_range] at hGet
  refine ⟨hGet.symm, ?_⟩
  omega

/-- All of them are below the end. -/
theorem rangeStep_lt {start stop step k : Nat} (hStep : 0 < step)
    (hk : k < (rangeStep start stop step).length) : start + k * step < stop := by
  have hSplit := List.take_append_drop k (rangeStep start stop step)
  rw [List.drop_eq_getElem_cons hk] at hSplit
  obtain ⟨hEq, hLt⟩ := rangeStep_split hStep hSplit.symm
  rw [List.length_take, min_eq_left hk.le] at hEq
  omega

/-- There are enough of them to reach the end. -/
theorem le_length_rangeStep {start stop step : Nat} (hStep : 0 < step) :
    stop ≤ start + (rangeStep start stop step).length * step := by
  have hLen : (rangeStep start stop step).length = (stop - start + (step - 1)) / step := by
    simp [rangeStep]
  have hDiv := Nat.lt_mul_div_succ (stop - start + (step - 1)) hStep
  rw [hLen, mul_comm]
  rw [mul_add, mul_one] at hDiv
  omega

section Cut

variable {m le : Nat} {cs : List (Nat → Nat)}

/-- The columns from `a` to `b`. -/
theorem mem_columns {a b : Nat} {bc : Nat × (Nat → Nat)}
    (h : bc ∈ (((ibits m).zip cs).take b).drop a) :
    ∃ i, a ≤ i ∧ i < b ∧ i < 2 * m - 1 ∧ bc.1 = min i (2 * m - 2 - i) := by
  obtain ⟨k, hk, rfl⟩ := List.getElem_of_mem h
  have hLen : a + k < b ∧ a + k < 2 * m - 1 := by
    simp [length_ibits] at hk
    omega
  refine ⟨a + k, by omega, hLen.1, hLen.2, ?_⟩
  simp [ibits]

/-- The digits of the columns between two positions. -/
theorem mem_digits (hcs : cs.length = 2 * m - 1) {a b i : Nat} (ha : a ≤ i) (hb : i < b)
    (hi : i < 2 * m - 1) :
    min i (2 * m - 2 - i) ∈ ((((ibits m).zip cs).take b).drop a).map Prod.fst := by
  have hLen : i - a < ((((ibits m).zip cs).take b).drop a).length := by
    simp [length_ibits, hcs]
    omega
  refine List.mem_map.mpr ⟨_, List.getElem_mem hLen, ?_⟩
  simp [ibits, Nat.add_sub_cancel' ha]

/-- A group before the middle. -/
theorem digits_before (hcs : cs.length = 2 * m - 1) (hle : 0 < le) {a b : Nat} (ha : a < m - le)
    (hab : a < b) (hb : b ≤ a + le) : Digits m le ((((ibits m).zip cs).take b).drop a) a where
  le_pos := hle
  fits := by omega
  mem := by
    have := mem_digits hcs (le_refl a) hab (by omega)
    rwa [min_eq_left (by omega)] at this
  low := fun bc hbc => by
    obtain ⟨i, hai, hib, him, hEq⟩ := mem_columns hbc
    omega
  high := fun bc hbc => by
    obtain ⟨i, hai, hib, him, hEq⟩ := mem_columns hbc
    omega

/-- The group in the middle. -/
theorem digits_middle (hcs : cs.length = 2 * m - 1) (hle : 0 < le) (hlm : le < m) :
    Digits m le ((((ibits m).zip cs).take (m + le - 2 + 1)).drop (m - le)) (m - le) where
  le_pos := hle
  fits := by omega
  mem := by
    have := mem_digits hcs (a := m - le) (b := m + le - 2 + 1) (i := m - le) (le_refl _) (by omega)
      (by omega)
    rwa [min_eq_left (by omega)] at this
  low := fun bc hbc => by
    obtain ⟨i, hai, hib, him, hEq⟩ := mem_columns hbc
    omega
  high := fun bc hbc => by
    obtain ⟨i, hai, hib, him, hEq⟩ := mem_columns hbc
    omega

/-- A group behind the middle. -/
theorem digits_after (hcs : cs.length = 2 * m - 1) (hle : 0 < le) (hlm : le < m) {a b : Nat}
    (ha : m + le - 1 ≤ a) (hab : a < b) (hb : b ≤ a + le) (hbm : b ≤ 2 * m - 1) :
    Digits m le ((((ibits m).zip cs).take b).drop a) (2 * m - 1 - b) where
  le_pos := hle
  fits := by omega
  mem := by
    have := mem_digits hcs (a := a) (b := b) (i := b - 1) (by omega) (by omega) (by omega)
    rwa [min_eq_right (by omega), show 2 * m - 2 - (b - 1) = 2 * m - 1 - b by omega] at this
  low := fun bc hbc => by
    obtain ⟨i, hai, hib, him, hEq⟩ := mem_columns hbc
    omega
  high := fun bc hbc => by
    obtain ⟨i, hai, hib, him, hEq⟩ := mem_columns hbc
    omega

/-- The columns come with the digits of the network. -/
theorem icols_eq (hcs : cs.length = 2 * m - 1) :
    ((cs.map (tab (2 ^ (m - 1)))).zipIdx.map fun ci => (min ci.2 (2 * m - 2 - ci.2), ci.1)) =
      tables m ((ibits m).zip cs) := by
  refine List.ext_getElem (by simp [tables, length_ibits, hcs]) fun i h₁ h₂ => ?_
  simp [tables, ibits]

theorem take_drop_take {α : Type} (l : List α) (a le stop : Nat) :
    ((l.take stop).drop a).take le = (l.take (min (a + le) stop)).drop a := by
  rw [List.take_drop, List.take_take]

/-- The columns up to `b` are those up to `a` and the group between. -/
theorem take_eq_append {α : Type} (l : List α) {a b : Nat} (h : a ≤ b) :
    l.take b = l.take a ++ (l.take b).drop a := by
  conv_lhs => rw [← List.take_append_drop a (l.take b), List.take_take, min_eq_left h]

/-- A group of columns is a group of tables. -/
theorem tables_columns (net : List (Nat × (Nat → Nat))) (a b : Nat) :
    ((tables m net).take b).drop a = tables m ((net.take b).drop a) := by
  rw [tables, ← List.map_take, ← List.map_drop]
  rfl

/-- The shapes of the compiled network. -/
def groupShapes (m : Nat) (hm : 0 < m) (le : Nat) : List RowShape :=
  (rangeStep (m + le - 2 + 1) (2 * m - 1) le).foldl
    (fun shapes i => addShape m hm le shapes (2 * m - 1 - min (i + le) (2 * m - 1)))
    (addShape m hm le ((rangeStep 0 (m - le) le).foldl (addShape m hm le) []) (m - le))

/-- The groups are compiled one after the other, each of them into windows on the digits that its
columns use. -/
theorem groupCols_spec (hcs : cs.length = 2 * m - 1) (hm : 0 < m) (hle : 0 < le) (hlm : le < m) :
    ∃ result, groupCols m le (cs.map (tab (2 ^ (m - 1)))) = .ok result ∧
      Compiled m hm ((ibits m).zip cs) (groupShapes m hm le) result := by
  set net := (ibits m).zip cs with hNet
  have hLen : net.length = 2 * m - 1 := by simp [hNet, length_ibits, hcs]
  have hStart : Compiled m hm [] [] [] := ⟨by simp, fun x _ => rfl, Or.inl rfl, rfl⟩
  -- one round of either loop, on the columns from `a` to `b`
  have hRound : ∀ result shapes a b s, a ≤ b → b ≤ a + le → Digits m le ((net.take b).drop a) s →
      Compiled m hm (net.take a) shapes result →
      ∃ result', addCols m le result (((tables m net).take b).drop a)
          (((tables m net).take b).drop a).length = .ok result' ∧
        Compiled m hm (net.take b) (addShape m hm le shapes s) result' := by
    intro result shapes a b s hab hb hDigits hResult
    rw [tables_columns]
    have hWidth : (tables m ((net.take b).drop a)).length ≤ le := by
      simp [tables]
      omega
    obtain ⟨result', hAdd, hResult'⟩ := addCols_spec hResult hDigits hWidth
    rw [← take_eq_append net hab] at hResult'
    exact ⟨result', hAdd, hResult'⟩
  -- prefix
  obtain ⟨pre, hPre, hPreOk⟩ := @exists_foldlM_ok _ _ _
    (fun result i =>
      let sub := (((tables m net).take (m - le)).drop i).take le
      addCols m le result sub sub.length)
    (fun done result => Compiled m hm (net.take (min (done.length * le) (m - le)))
      (done.foldl (addShape m hm le) []) result)
    (rangeStep 0 (m - le) le)
    (by
      intro done a rest hSplit result hResult
      obtain ⟨ha, hLt⟩ := rangeStep_split hle hSplit
      rw [zero_add] at ha
      rw [← ha, min_eq_left hLt.le] at hResult
      have hDigits := digits_before (b := min (a + le) (m - le)) hcs hle hLt (by omega) (by omega)
      obtain ⟨result', hAdd, hResult'⟩ := hRound result _ a (min (a + le) (m - le)) a (by omega)
        (by omega) hDigits hResult
      refine ⟨result', ?_, ?_⟩
      · show addCols m le result ((((tables m net).take (m - le)).drop a).take le) _ = _
        rw [take_drop_take]
        exact hAdd
      · rw [List.length_append, List.length_singleton, Nat.succ_mul, ← ha, List.foldl_append]
        exact hResult')
    _ (by simpa using hStart)
  -- middle
  rw [min_eq_right (by have := @le_length_rangeStep 0 (m - le) le hle; omega)] at hPreOk
  obtain ⟨mid, hMid, hMidOk⟩ := addCols_spec hPreOk (digits_middle hcs hle hlm) le_rfl
  rw [← hNet, ← take_eq_append net (by omega)] at hMidOk
  -- suffix
  obtain ⟨result, hSuf, hSufOk⟩ := @exists_foldlM_ok _ _ _
    (fun result i =>
      let sub := ((tables m net).drop i).take le
      addCols m le result sub sub.length)
    (fun done result =>
      Compiled m hm (net.take (min (m + le - 2 + 1 + done.length * le) (2 * m - 1)))
        (done.foldl (fun shapes i => addShape m hm le shapes (2 * m - 1 - min (i + le) (2 * m - 1)))
          (addShape m hm le ((rangeStep 0 (m - le) le).foldl (addShape m hm le) [])
            (m - le))) result)
    (rangeStep (m + le - 2 + 1) (2 * m - 1) le)
    (by
      intro done a rest hSplit result hResult
      obtain ⟨ha, hLt⟩ := rangeStep_split hle hSplit
      rw [← ha, min_eq_left hLt.le] at hResult
      have hDigits := digits_after (b := min (a + le) (2 * m - 1)) hcs hle hlm (a := a) (by omega)
        (by omega) (by omega) (by omega)
      obtain ⟨result', hAdd, hResult'⟩ := hRound result _ a (min (a + le) (2 * m - 1))
        (2 * m - 1 - min (a + le) (2 * m - 1)) (by omega) (by omega) hDigits hResult
      have hAll : (tables m net).take (2 * m - 1) = tables m net :=
        List.take_of_length_le (by simp [tables, hLen])
      refine ⟨result', ?_, ?_⟩
      · show addCols m le result (((tables m net).drop a).take le) _ = _
        rw [← hAll, take_drop_take]
        exact hAdd
      · rw [List.length_append, List.length_singleton, Nat.succ_mul, ← add_assoc, ← ha,
          List.foldl_append]
        exact hResult')
    _
    (by
      rw [List.length_nil, zero_mul, add_zero, min_eq_left (by omega)]
      exact hMidOk)
  have hDone : min (m + le - 2 + 1 + (rangeStep (m + le - 2 + 1) (2 * m - 1) le).length * le)
      (2 * m - 1) = 2 * m - 1 :=
    min_eq_right (le_length_rangeStep hle)
  rw [hDone, List.take_of_length_le hLen.le] at hSufOk
  refine ⟨result, ?_, hSufOk⟩
  unfold groupCols
  simp only [icols_eq hcs, ← hNet]
  rw [hPre, ok_bind, tables_columns, hMid, ok_bind]
  exact hSuf

end Cut

/-- A power of two has its exponent. -/
theorem log2exact_two_pow (m : Nat) : log2exact (2 ^ m) = .ok m := by
  rw [log2exact, Nat.log_pow (by decide), Nat.one_shiftLeft, if_pos rfl]

/-- The shapes of the rows of `BenesPermMI`. -/
def benesShapes (m le : Nat) : List RowShape :=
  if h : le ≥ m then [.secretShuffles [(0, 2 ^ m)]] else groupShapes m (by omega) le

/-- `BenesPermMI` compiles every permutation; the rows together are the
permutation, and their shapes depend on the sizes only. -/
theorem benesPermMI_spec {m le : Nat} (hle : 0 < le) {π : Equiv.Perm Nat}
    (hπ : Below (2 ^ m) π) :
    ∃ rows, benesPermMI (tab (2 ^ m) π) le = .ok rows ∧ (∀ row ∈ rows, row.Fits (2 ^ m)) ∧
      (∀ x < 2 ^ m, programWire rows x = π x) ∧ rows.map Row.shape = benesShapes m le := by
  have hn := Nat.two_pow_pos m
  unfold benesPermMI
  rw [if_neg (by omega), length_tab, log2exact_two_pow, ok_bind]
  by_cases hBig : le ≥ m
  · -- the whole permutation in one window
    rw [if_pos hBig, Shuffle.ofNats_tab hn fun i hi => (hπ i).mpr hi]
    refine ⟨_, rfl, ?_, fun x hx => ?_, ?_⟩
    · intro row hRow
      rw [List.mem_singleton.mp hRow]
      intro w hw
      rw [List.mem_singleton.mp hw]
      show 0 + (tab (2 ^ m) π).length ≤ 2 ^ m
      rw [length_tab, zero_add]
    · show windowWire (0, _) x = π x
      rw [windowWire, if_pos]
      · show 0 + (tab (2 ^ m) π).getD (x - 0) 0 = π x
        rw [Nat.sub_zero, getD_tab hx, zero_add]
      · show 0 ≤ x ∧ x < 0 + (tab (2 ^ m) π).length
        rw [length_tab]
        omega
    · rw [benesShapes, dif_pos hBig]
      show [RowShape.secretShuffles [(0, (tab (2 ^ m) π).length)]] = _
      rw [length_tab]
  · have hlm : le < m := by omega
    have hMod : 2 ^ m % 2 ^ le = 0 := Nat.mod_eq_zero_of_dvd (Nat.pow_dvd_pow 2 hlm.le)
    have hm : 0 < m := by omega
    have hHalf : 2 ^ m / 2 = 2 ^ (m - 1) := by
      rw [← Nat.sub_add_cancel hm, pow_succ, Nat.mul_div_cancel _ (by decide), Nat.add_sub_cancel]
    -- the columns of the network, grouped by the windows they fit into
    obtain ⟨k, rfl⟩ : ∃ k, m = k + 1 := ⟨m - 1, by omega⟩
    obtain ⟨cs, hCols, hLen, -, hNet⟩ := benesCols_spec k hπ
    obtain ⟨rows, hRows, hOk⟩ :=
      groupCols_spec (m := k + 1) (show cs.length = _ by omega) hm hle hlm
    have hPerm : benesPerm (tab (2 ^ (k + 1)) π) = .ok (cs.map (tab (2 ^ k))) := by
      rw [benesPerm, length_tab, log2exact_two_pow, ok_bind, hCols]
    rw [if_neg hBig, if_neg (not_not.mpr hMod), hPerm, ok_bind, if_pos]
    · refine ⟨rows, hRows, hOk.fits, fun x hx => ?_, ?_⟩
      · rw [hOk.wire x hx, hNet x hx]
      · rw [hOk.shape, benesShapes, dif_neg hBig]
    · refine ⟨by rw [List.length_map, hLen]; omega, fun col hCol => ?_⟩
      obtain ⟨c, -, rfl⟩ := List.mem_map.mp hCol
      rw [length_tab, hHalf, Nat.add_sub_cancel]

end Obscure.Routing
