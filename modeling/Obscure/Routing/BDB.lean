import Obscure.Routing.Duplicate
import Mathlib.Algebra.BigOperators.Group.List.Basic
import Mathlib.Algebra.Order.BigOperators.Group.List
import Mathlib.Data.List.Perm.Lattice

/-!
# OBSCURE — Benes, duplicate, Benes

`BDBFunc` routes an arbitrary function `f` on positions. A first permutation
brings one copy of each value that is used to the head of a block as long as the
value is needed often, and unused values to the rest of the block; forward
duplication fills the block; a second permutation sends the members of the block
to the positions that want them.

* `splitFunc_spec`   — the three lists that `_compile` computes;
* `bdbFuncMI_spec`   — the rows of `BDBFuncMI(f, le)` route `f`, and their public
  part depends on the sizes only.
-/

namespace Obscure.Routing

open Lib

/-! ## The compiler -/

/-- `pos[a].append(i)`. -/
def addPos (pos : List (Nat × List Nat)) (ai : Nat × Nat) : List (Nat × List Nat) :=
  if ai.1 ∈ pos.map Prod.fst then
    pos.map fun kv => if kv.1 = ai.1 then (kv.1, kv.2 ++ [ai.2]) else kv
  else pos ++ [(ai.1, [ai.2])]

/-- The dictionary `pos`, with its keys in the order of insertion. -/
def positions (f : List Nat) : List (Nat × List Nat) := f.zipIdx.foldl addPos []

/-- What the loop over `pos` has computed. -/
structure Blocks where
  pi : List Nat
  pif : List Nat
  start : Nat → Nat
  missing : List Nat

/-- One round of the loop over `pos`: the value, then as many missing ones as the
block has room for. The list `pi2` that the source fills here is thrown away. -/
def addBlock (st : Blocks) (kv : Nat × List Nat) : Except Fault Blocks :=
  let c := kv.2.length
  if st.missing.length < c - 1 then .error .keyError
  else .ok {
    pi := st.pi ++ kv.1 :: st.missing.take (c - 1)
    pif := st.pif ++ List.replicate c kv.1
    start := Function.update st.start kv.1 st.pi.length
    missing := st.missing.drop (c - 1) }

/-- The loop that computes `pi2`. -/
def pi2Loop : List Nat → (Nat → Nat) → List Nat
  | [], _ => []
  | a :: f, start => start a :: pi2Loop f (Function.update start a (start a + 1))

/-- The lists that `_compile` hands to `_compile_finish`. -/
structure Split where
  pi : List Nat
  pif : List Nat
  pi2 : List Nat

/-- `BDBFunc._compile`. Popping from `missing` until it is empty lists it in some
order. -/
def splitFunc (ord : Orders) (f : List Nat) : Except Fault Split := do
  let missing := ord.list ((List.range f.length).filter fun a => a ∉ f)
  let st ← (positions f).foldlM addBlock ⟨[], [], fun _ => 0, missing⟩
  return ⟨st.pi, st.pif, pi2Loop f st.start⟩

/-- `BDBFuncMI(f, le).canonical()`. -/
def bdbFuncMI (ord : Orders) (f : List Nat) (le : Nat) : Except Fault (List Row) := do
  if le < 1 then .error .assertionError
  else
    let _ ← log2exact f.length
    let split ← splitFunc ord f
    let inputPerm ← benesPermMI split.pi le
    let outputPerm ← benesPermMI split.pi2 le
    let dups ← forwardDupMI split.pif le
    return inputPerm ++ dups ++ outputPerm

/-! ## The blocks -/

section Positions

variable {f : List Nat}

/-- The keys of `pos` are the values of `f`, each with as many positions as it
has occurrences. -/
structure IsPositions (f : List Nat) (pos : List (Nat × List Nat)) : Prop where
  nodup : (pos.map Prod.fst).Nodup
  mem_iff : ∀ a, a ∈ pos.map Prod.fst ↔ a ∈ f
  count : ∀ kv ∈ pos, kv.2.length = f.count kv.1

theorem IsPositions.add {pos : List (Nat × List Nat)} (h : IsPositions f pos) (a i : Nat) :
    IsPositions (f ++ [a]) (addPos pos (a, i)) := by
  unfold addPos
  by_cases ha : a ∈ pos.map Prod.fst
  · rw [if_pos ha]
    have hKeys : (pos.map fun kv => if kv.1 = a then (kv.1, kv.2 ++ [i]) else kv).map Prod.fst =
        pos.map Prod.fst := by
      rw [List.map_map]
      refine List.map_congr_left fun kv _ => ?_
      rw [Function.comp_apply]
      split <;> rfl
    refine ⟨hKeys ▸ h.nodup, fun b => ?_, fun kv hkv => ?_⟩
    · rw [hKeys, h.mem_iff, List.mem_append, List.mem_singleton]
      refine ⟨Or.inl, fun hb => hb.elim id fun hba => ?_⟩
      exact hba ▸ (h.mem_iff a).mp ha
    · obtain ⟨kv', hkv', rfl⟩ := List.mem_map.mp hkv
      have hCount := h.count kv' hkv'
      by_cases hEq : kv'.1 = a
      · simp [hEq] at hCount ⊢
        rw [hCount]
      · have hne : a ≠ kv'.1 := fun hEq' => hEq hEq'.symm
        simp [hEq, hCount, List.count_append, hne]
  · rw [if_neg ha]
    have hNot : a ∉ f := fun hIn => ha ((h.mem_iff a).mpr hIn)
    refine ⟨?_, fun b => ?_, fun kv hkv => ?_⟩
    · rw [List.map_append]
      exact h.nodup.append (by simp) (by simpa using ha)
    · simp [← h.mem_iff]
    · rcases List.mem_append.mp hkv with hkv | hkv
      · have hne : a ≠ kv.1 := fun hEq => ha (hEq ▸ List.mem_map_of_mem hkv)
        simp [h.count kv hkv, List.count_append, hne]
      · rw [List.mem_singleton.mp hkv]
        simp [List.count_append, List.count_eq_zero_of_not_mem hNot]

theorem isPositions (f : List Nat) : IsPositions f (positions f) := by
  induction f using List.reverseRecOn with
  | nil => exact ⟨by simp [positions], by simp [positions], by simp [positions]⟩
  | append_singleton f a ih =>
    rw [positions, List.zipIdx_append, List.foldl_append]
    exact ih.add a _

/-- The positions of all values together are all positions. -/
theorem sum_positions (f : List Nat) :
    ((positions f).map fun kv => kv.2.length).sum = f.length := by
  have h := isPositions f
  have hPerm : ((positions f).map Prod.fst).Perm f.dedup := by
    refine (List.perm_ext_iff_of_nodup h.nodup f.nodup_dedup).mpr fun a => ?_
    rw [h.mem_iff, List.mem_dedup]
  have hCount : ((positions f).map fun kv => kv.2.length) =
      ((positions f).map Prod.fst).map fun a => f.count a := by
    rw [List.map_map]
    exact List.map_congr_left fun kv hkv => h.count kv hkv
  rw [hCount, (hPerm.map _).sum_eq, List.sum_map_count_dedup_eq_length]

/-- The indices that `f` does not use. -/
def unused (f : List Nat) : List Nat := (List.range f.length).filter fun a => a ∉ f

theorem keys_unused_perm (hf : ∀ a ∈ f, a < f.length) :
    ((positions f).map Prod.fst ++ unused f).Perm (List.range f.length) := by
  have h := isPositions f
  have hKeys : ((positions f).map Prod.fst).Perm ((List.range f.length).filter fun a => a ∈ f) := by
    refine (List.perm_ext_iff_of_nodup h.nodup (List.nodup_range.filter _)).mpr fun a => ?_
    rw [h.mem_iff, List.mem_filter, List.mem_range]
    simp only [decide_eq_true_eq]
    exact ⟨fun ha => ⟨hf a ha, ha⟩, fun ha => ha.2⟩
  have hSplit := List.filter_append_perm (fun a => decide (a ∈ f)) (List.range f.length)
  refine (hKeys.append_right _).trans ?_
  simpa [unused] using hSplit

/-- There are just enough unused indices to fill the blocks. -/
theorem sum_room (hf : ∀ a ∈ f, a < f.length) :
    ((positions f).map fun kv => kv.2.length - 1).sum = (unused f).length := by
  have h := isPositions f
  have hPos : ∀ kv ∈ positions f, 0 < kv.2.length := fun kv hkv => by
    rw [h.count kv hkv]
    exact List.count_pos_iff.mpr ((h.mem_iff _).mp (List.mem_map_of_mem hkv))
  have hSum : ∀ l : List (Nat × List Nat), (∀ kv ∈ l, 0 < kv.2.length) →
      (l.map fun kv => kv.2.length - 1).sum + l.length = (l.map fun kv => kv.2.length).sum := by
    intro l hl
    induction l with
    | nil => rfl
    | cons kv l ih =>
      have := hl kv (by simp)
      have := ih fun kv hkv => hl kv (by simp [hkv])
      simp only [List.map_cons, List.sum_cons, List.length_cons]
      omega
  have hTotal := hSum (positions f) hPos
  have hAll := (keys_unused_perm hf).length_eq
  rw [sum_positions] at hTotal
  rw [List.length_append, List.length_map, List.length_range] at hAll
  omega

end Positions

section Blocks

variable {f : List Nat}

/-- The blocks of the values done. -/
structure IsBlocks (missing : List Nat) (done : List (Nat × List Nat)) (st : Blocks) : Prop where
  length_eq : st.pif.length = st.pi.length
  perm : (st.pi ++ st.missing).Perm (done.map Prod.fst ++ missing)
  room : st.missing.length + (done.map fun kv => kv.2.length - 1).sum = missing.length
  head : ∀ a ∈ done.map Prod.fst, st.pi[st.start a]? = some a
  block : ∀ i a, st.pif[i]? = some a →
    ∃ kv ∈ done, kv.1 = a ∧ st.start a ≤ i ∧ i < st.start a + kv.2.length
  filled : ∀ kv ∈ done, ∀ j < kv.2.length, st.pif[st.start kv.1 + j]? = some kv.1

theorem IsBlocks.add {missing : List Nat} {done : List (Nat × List Nat)} {st : Blocks}
    (h : IsBlocks missing done st) {kv : Nat × List Nat} (hNew : kv.1 ∉ done.map Prod.fst)
    (hPos : 0 < kv.2.length) (hRoom : kv.2.length - 1 ≤ st.missing.length) :
    ∃ st', addBlock st kv = .ok st' ∧ IsBlocks missing (done ++ [kv]) st' := by
  have hOld : ∀ a ∈ done.map Prod.fst,
      Function.update st.start kv.1 st.pi.length a = st.start a := by
    intro a ha
    have hne : a ≠ kv.1 := fun hEq => hNew (hEq ▸ ha)
    exact Function.update_of_ne hne _ _
  -- what was there stays in place
  have hPrefix : ∀ {l l' : List Nat} {i a : Nat}, l[i]? = some a → (l ++ l')[i]? = some a := by
    intro l l' i a hi
    rw [List.getElem?_append_left (List.getElem?_eq_some_iff.mp hi).1, hi]
  have hKeys : (done ++ [kv]).map Prod.fst = done.map Prod.fst ++ [kv.1] := by simp
  refine ⟨_, if_neg (by omega), ?length_eq, ?perm, ?room, ?head, ?block, ?filled⟩
  case length_eq =>
    simp [h.length_eq, min_eq_left hRoom]
    omega
  -- the head of the block is `kv.1`, its tail is taken from the missing values
  case perm =>
    rw [hKeys]
    have hTake : st.missing.take (kv.2.length - 1) ++ st.missing.drop (kv.2.length - 1) =
        st.missing :=
      List.take_append_drop _ _
    show ((st.pi ++ kv.1 :: st.missing.take (kv.2.length - 1)) ++
      st.missing.drop (kv.2.length - 1)).Perm _
    rw [List.append_assoc, List.cons_append, hTake]
    refine List.perm_middle.trans ?_
    rw [List.append_assoc]
    exact (h.perm.cons kv.1).trans List.perm_middle.symm
  case room =>
    rw [List.map_append, List.sum_append, ← h.room]
    simp only [List.length_drop, List.map_cons, List.map_nil, List.sum_singleton]
    omega
  case head =>
    intro a ha
    rw [hKeys, List.mem_append, List.mem_singleton] at ha
    rcases ha with ha | rfl
    · show (st.pi ++ _)[Function.update st.start kv.1 st.pi.length a]? = some a
      rw [hOld a ha]
      exact hPrefix (h.head a ha)
    · show (st.pi ++ _)[Function.update st.start kv.1 st.pi.length kv.1]? = some kv.1
      rw [Function.update_self, List.getElem?_append_right le_rfl, Nat.sub_self]
      rfl
  -- a position of an old block, or of the new one
  case block =>
    intro i a hi
    show ∃ kv' ∈ done ++ [kv], kv'.1 = a ∧ Function.update st.start kv.1 st.pi.length a ≤ i ∧
      i < Function.update st.start kv.1 st.pi.length a + kv'.2.length
    by_cases hIn : i < st.pif.length
    · obtain ⟨kv', hkv', rfl, hLow, hHigh⟩ := h.block i a (by rwa [← List.getElem?_append_left hIn])
      refine ⟨kv', by simp [hkv'], rfl, ?_⟩
      rw [hOld kv'.1 (List.mem_map_of_mem hkv')]
      exact ⟨hLow, hHigh⟩
    · rw [List.getElem?_append_right (by omega), List.getElem?_replicate] at hi
      split at hi
      · cases hi
        refine ⟨kv, by simp, rfl, ?_⟩
        rw [Function.update_self, ← h.length_eq]
        omega
      · cases hi
  case filled =>
    intro kv' hkv' j hj
    show (st.pif ++ List.replicate kv.2.length kv.1)[
      Function.update st.start kv.1 st.pi.length kv'.1 + j]? = some kv'.1
    rcases List.mem_append.mp hkv' with hkv' | hkv'
    · rw [hOld kv'.1 (List.mem_map_of_mem hkv')]
      exact hPrefix (h.filled kv' hkv' j hj)
    · rw [List.mem_singleton.mp hkv'] at hj ⊢
      rw [Function.update_self, ← h.length_eq, List.getElem?_append_right (by omega),
        Nat.add_sub_cancel_left, List.getElem?_replicate, if_pos hj]

/-- The loop over `pos` returns, and has made a block of every value. -/
theorem exists_blocks (hf : ∀ a ∈ f, a < f.length) {missing : List Nat}
    (hMissing : missing.length = (unused f).length) :
    ∃ st, (positions f).foldlM addBlock ⟨[], [], fun _ => 0, missing⟩ = .ok st ∧
      IsBlocks missing (positions f) st := by
  have hPositions := isPositions f
  refine exists_foldlM_ok (fun done kv rest hSplit st hst => ?_) ?_
  · have hNodup := hPositions.nodup
    rw [hSplit, List.map_append, List.map_cons, List.nodup_middle, List.nodup_cons] at hNodup
    have hSum := sum_room hf
    rw [hSplit, List.map_append, List.map_cons, List.sum_append, List.sum_cons] at hSum
    have hRoom := hst.room
    refine hst.add (fun hIn => hNodup.1 (List.mem_append_left _ hIn)) ?_ (by omega)
    have hkv : kv ∈ positions f := by simp [hSplit]
    rw [hPositions.count kv hkv]
    exact List.count_pos_iff.mpr ((hPositions.mem_iff _).mp (List.mem_map_of_mem hkv))
  · exact ⟨rfl, by simp, by simp, by simp, by simp, by simp⟩

theorem length_pi2Loop (f : List Nat) (start : Nat → Nat) :
    (pi2Loop f start).length = f.length := by
  induction f generalizing start with
  | nil => rfl
  | cons a f ih => rw [pi2Loop, List.length_cons, List.length_cons, ih]

/-- Each occurrence of a value gets the next member of its block. -/
theorem getElem_pi2Loop (f : List Nat) (start : Nat → Nat) {i : Nat}
    (hi : i < (pi2Loop f start).length) (hi' : i < f.length) :
    (pi2Loop f start)[i] = start f[i] + (f.take i).count f[i] := by
  induction f generalizing start i with
  | nil => simp at hi'
  | cons a f ih =>
    cases i with
    | zero => simp [pi2Loop]
    | succ i =>
      have hTail : i < f.length := by simpa using hi'
      simp only [pi2Loop, List.getElem_cons_succ, List.take_succ_cons, List.count_cons]
      rw [ih _ _ hTail]
      by_cases hEq : f[i] = a
      · simp [hEq]
        omega
      · have hne : ¬ a = f[i] := fun h => hEq h.symm
        simp [Function.update_of_ne hEq, hne]

/-- Runs that are blocks start at the start of the block. -/
theorem runHead_eq_start {n : Nat} {P start : Nat → Nat} (hLow : ∀ i < n, start (P i) ≤ i)
    (hFill : ∀ i < n, ∀ j, start (P i) ≤ j → j ≤ i → P j = P i) {i : Nat} (hi : i < n) :
    runHead P i = start (P i) := by
  induction i with
  | zero =>
    have := hLow 0 hi
    rw [runHead]
    omega
  | succ i ih =>
    rw [runHead]
    split
    · next hEq => rw [ih (by omega), hEq]
    · next hne =>
      have hLe := hLow (i + 1) hi
      by_contra hOther
      exact hne (hFill (i + 1) hi i (by omega) (by omega)).symm

end Blocks

/-- The two permutations and the blocks between them route `F`. -/
theorem splitFunc_spec (ord : Orders) {n : Nat} {F : Nat → Nat} (hF : ∀ i < n, F i < n) :
    ∃ (split : Split) (π π₂ : Equiv.Perm Nat) (P : Nat → Nat),
      splitFunc ord (tab n F) = .ok split ∧ Below n π ∧ Below n π₂ ∧ split.pi = tab n π ∧
      split.pif = tab n P ∧ split.pi2 = tab n π₂ ∧ ∀ i < n, π (runHead P (π₂ i)) = F i := by
  have hf : ∀ a ∈ tab n F, a < (tab n F).length := by
    intro a ha
    obtain ⟨i, hi, rfl⟩ := mem_tab.mp ha
    rw [length_tab]
    exact hF i hi
  have hPositions := isPositions (tab n F)
  have hOrd : (ord.list (unused (tab n F))).Perm (unused (tab n F)) := ord.nats.perm 0 _
  obtain ⟨st, hFold, hst⟩ := exists_blocks hf hOrd.length_eq
  -- the blocks use up all indices
  have hRoom := hst.room
  rw [sum_room hf, hOrd.length_eq] at hRoom
  have hNone : st.missing = [] := List.length_eq_zero_iff.mp (by omega)
  have hPerm : st.pi.Perm (List.range n) := by
    have := hst.perm
    rw [hNone, List.append_nil] at this
    have hKeys := (hOrd.append_left _).trans (keys_unused_perm hf)
    rw [length_tab] at hKeys
    exact this.trans hKeys
  obtain ⟨π, hπ, hpi⟩ := exists_below hPerm
  have hLen : st.pif.length = n := by rw [hst.length_eq, hpi, length_tab]
  set P : Nat → Nat := fun i => st.pif.getD i default with hP
  have hpif : st.pif = tab n P := by
    conv_lhs => rw [eq_tab st.pif, hLen]
  have hGet : ∀ i < n, st.pif[i]? = some (P i) := fun i hi => by rw [hpif, getElem?_tab hi]
  have hValue : ∀ i a, st.pif[i]? = some a → i < n ∧ P i = a := by
    intro i a hi
    have hLt : i < n := hLen ▸ (List.getElem?_eq_some_iff.mp hi).1
    rw [hGet i hLt, Option.some.injEq] at hi
    exact ⟨hLt, hi⟩
  have hHead : ∀ i < n, runHead P i = st.start (P i) := by
    intro i hi
    refine runHead_eq_start (n := n) (fun i hi => ?_) (fun i hi j hLow hHigh => ?_) hi
    · obtain ⟨kv, -, -, hLow, -⟩ := hst.block i (P i) (hGet i hi)
      exact hLow
    · obtain ⟨kv, hkv, hEq, hLow', hLt⟩ := hst.block i (P i) (hGet i hi)
      have hFilled := hst.filled kv hkv (j - st.start (P i)) (by omega)
      rw [hEq, Nat.add_sub_cancel' hLow] at hFilled
      exact (hValue j _ hFilled).2
  -- the members of a block go to the positions that want its value
  set G : Nat → Nat := fun i => st.start (F i) + ((tab n F).take i).count (F i) with hG
  have hpi2 : pi2Loop (tab n F) st.start = tab n G := by
    refine List.ext_getElem (by rw [length_pi2Loop, length_tab, length_tab]) fun i h₁ h₂ => ?_
    rw [getElem_pi2Loop _ _ h₁ (by simpa using h₂), getElem_tab, getElem_tab]
  have hBlock : ∀ i < n, G i < n ∧ P (G i) = F i := by
    intro i hi
    have hMem : F i ∈ (positions (tab n F)).map Prod.fst :=
      (hPositions.mem_iff _).mpr (mem_tab.mpr ⟨i, hi, rfl⟩)
    obtain ⟨kv, hkv, hEq⟩ := List.mem_map.mp hMem
    have hLess : ((tab n F).take i).count (F i) < kv.2.length := by
      rw [hPositions.count kv hkv, hEq]
      have hSplit := List.take_append_drop i (tab n F)
      rw [List.drop_eq_getElem_cons (by simpa using hi), getElem_tab] at hSplit
      conv_rhs => rw [← hSplit]
      rw [List.count_append, List.count_cons_self]
      omega
    have hFilled := hst.filled kv hkv _ hLess
    rw [hEq] at hFilled
    exact hValue _ _ hFilled
  have hLater : ∀ i j, i < j → j < n → F i = F j →
      ((tab n F).take i).count (F i) < ((tab n F).take j).count (F j) := by
    intro i j hij hj hEq
    have hSnoc : (tab n F).take (i + 1) = (tab n F).take i ++ [F i] := by
      rw [List.take_add_one, getElem?_tab (by omega)]
      rfl
    have hSub : ((tab n F).take (i + 1)).Sublist ((tab n F).take j) :=
      (List.take_prefix_take_left (show i + 1 ≤ j by omega)).sublist
    have hLe := hSub.count_le (F i)
    rw [hSnoc, List.count_append, List.count_singleton_self] at hLe
    rw [← hEq]
    omega
  have hInj : ∀ i < n, ∀ j < n, G i = G j → i = j := by
    intro i hi j hj hEq
    have hSame : F i = F j := by rw [← (hBlock i hi).2, ← (hBlock j hj).2, hEq]
    have hCounts : ((tab n F).take i).count (F i) = ((tab n F).take j).count (F j) := by
      simp only [hG, hSame] at hEq ⊢
      omega
    rcases Nat.lt_trichotomy i j with hij | hij | hij
    · have := hLater i j hij hj hSame
      omega
    · exact hij
    · have := hLater j i hij hi hSame.symm
      omega
  obtain ⟨π₂, hπ₂, hEq₂⟩ := exists_below_of_inj (fun i hi => (hBlock i hi).1) hInj
  refine ⟨⟨st.pi, st.pif, pi2Loop (tab n F) st.start⟩, π, π₂, P, ?_, hπ, hπ₂, hpi, hpif, ?_,
    fun i hi => ?_⟩
  · have hUnused : ord.list ((List.range (tab n F).length).filter fun a => a ∉ tab n F) =
        ord.list (unused (tab n F)) := rfl
    rw [splitFunc, hUnused, hFold]
    rfl
  · rw [hpi2]
    exact tab_congr fun i hi => (hEq₂ i hi).symm
  · obtain ⟨hLt, hVal⟩ := hBlock i hi
    have hAt := hst.head (F i) ((hPositions.mem_iff _).mpr (mem_tab.mpr ⟨i, hi, rfl⟩))
    have hStart : st.start (F i) < n := by
      have := (List.getElem?_eq_some_iff.mp hAt).1
      rwa [hpi, length_tab] at this
    rw [hpi, getElem?_tab hStart, Option.some.injEq] at hAt
    rw [hEq₂ i hi, hHead _ hLt, hVal, hAt]

/-- The shapes of the rows of `BDBFuncMI`. -/
def bdbShapes (m le : Nat) : List RowShape := benesShapes m le ++ dupShapes m le ++ benesShapes m le

/-- The rows of `BDBFuncMI` take position `i` from position `F i`. -/
theorem bdbFuncMI_spec (ord : Orders) {m le : Nat} (hle : 0 < le) {F : Nat → Nat}
    (hF : ∀ i < 2 ^ m, F i < 2 ^ m) :
    ∃ rows, bdbFuncMI ord (tab (2 ^ m) F) le = .ok rows ∧ (∀ row ∈ rows, row.Fits (2 ^ m)) ∧
      (∀ i < 2 ^ m, programWire rows i = F i) ∧ rows.map Row.shape = bdbShapes m le := by
  obtain ⟨split, π, π₂, P, hSplit, hπ, hπ₂, hpi, hpif, hpi2, hRoute⟩ := splitFunc_spec ord hF
  obtain ⟨inputPerm, hIn, hInFits, hInWire, hInShape⟩ := benesPermMI_spec hle hπ
  obtain ⟨outputPerm, hOut, hOutFits, hOutWire, hOutShape⟩ := benesPermMI_spec hle hπ₂
  obtain ⟨dups, hDup, hDupFits, hDupWire, hDupShape⟩ := forwardDupMI_spec (P := P) (m := m) hle
  refine ⟨inputPerm ++ dups ++ outputPerm, ?_, fun row hRow => ?_, fun i hi => ?_, ?_⟩
  · rw [bdbFuncMI, if_neg (by omega), length_tab, log2exact_two_pow, ok_bind, hSplit, ok_bind, hpi,
      hIn, ok_bind, hpi2, hOut, ok_bind, hpif, hDup]
    rfl
  · rcases List.mem_append.mp hRow with hRow | hRow
    · rcases List.mem_append.mp hRow with hRow | hRow
      · exact hInFits row hRow
      · exact hDupFits row hRow
    · exact hOutFits row hRow
  · have h₂ : π₂ i < 2 ^ m := (hπ₂ i).mpr hi
    rw [programWire_append, programWire_append, hOutWire i hi, hDupWire _ h₂,
      hInWire _ (lt_of_le_of_lt (runHead_le P _) h₂), hRoute i hi]
  · rw [List.map_append, List.map_append, hInShape, hDupShape, hOutShape, bdbShapes]

end Obscure.Routing
