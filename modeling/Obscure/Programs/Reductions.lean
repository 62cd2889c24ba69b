import Obscure.IR
import Obscure.Lib.PairUp

/-!
# OBSCURE — the tree-shaped benchmark programs

`programs/findmax` and `programs/sum` each have a naive version, which goes through the array,
and a tree-shaped one. The tree-shaped version writes the first level into temporaries and every
further level over the one before; as the inner loop of a level ends before the last position,
the last two values of the level before are kept in variables.

The programs fix the length to 1000; here it is any `unsigned int`. Scalars are words, so their
arithmetic wraps as in C, and an index outside of its array ends the run.

* `findmaxTree_spec`, `sumTree_spec` — a tree-shaped program folds the whole array;
* `treesAgree_iff` — it returns what the naive one returns, at every length but the largest, for
  which `(n + 1) / 2` wraps around.
-/

namespace Obscure

open Lib

-- ---------------------------------------------------------------------------
-- The statements of the programs
-- ---------------------------------------------------------------------------

/-- `xs[i]`. -/
def load (xs : List Word) (i : Word) : Option Word := xs[i.toNat]?

/-- `xs[i] = v;`. -/
def store (xs : List Word) (i v : Word) : Option (List Word) :=
  if i.toNat < xs.length then some (xs.set i.toNat v) else none

/-- `a < b`. -/
def ltWord (a b : Word) : Word := if a < b then 1 else 0

/-- `c ? a : b`. -/
def selectWord (c a b : Word) : Word := if c = 0 then b else a

/-- `for (i = lo; i < hi; i++)`. -/
def forRange {σ : Type} (lo hi : Word) (body : Word → σ → Option σ) (s : σ) : Option σ :=
  (List.range' lo.toNat (hi.toNat - lo.toNat)).foldlM (fun s i => body (BitVec.ofNat 32 i) s) s

/-- `(m + 1) / 2`. -/
def halfUp (m : Word) : Word := (m + 1) / 2

theorem toNat_halfUp (m : Word) : (halfUp m).toNat = (m.toNat + 1) % 2 ^ 32 / 2 := by
  simp [halfUp]

theorem halfUp_lt {m : Word} (h : 1 < m) : (halfUp m).toNat < m.toNat := by
  have hm : 1 < m.toNat := h
  rw [toNat_halfUp]
  omega

/-- `for (; m > 1; m = (m + 1) / 2)`. -/
def halvings {σ : Type} (body : Word → σ → Option σ) (m : Word) (s : σ) : Option σ :=
  if 1 < m then do
    let s ← body m s
    halvings body (halfUp m) s
  else some s
termination_by m.toNat
decreasing_by exact halfUp_lt ‹_›

/-- The larger of two words, as the loops compute it. -/
def larger (a b : Word) : Word := selectWord (ltWord a b) b a

/-- The body of the inner loops: `tmp[i]` from `src[2*i]` and `src[2*i+1]`. -/
def combine (op : Word → Word → Word) (src : List Word) (i : Word) (tmp : List Word) :
    Option (List Word) := do
  let a ← load src (2 * i)
  let b ← load src (2 * i + 1)
  store tmp i (op a b)

-- ---------------------------------------------------------------------------
-- The programs
-- ---------------------------------------------------------------------------

/-- `findmax_naive`. -/
def findmaxNaive (n : Word) (array : List Word) : Option Word := do
  let m ← load array 0
  forRange 1 n (fun i m => do
    let a ← load array i
    let c := ltWord m a
    return selectWord c a m) m

/-- The variables of `findmax_tree` between two levels. -/
structure FindmaxState where
  tmp : List Word
  last1 : Word
  mlast : Word
  cl : Word

/-- What `findmax_tree` reads off a level of `m` values. -/
def findmaxLast (m : Word) (tmp : List Word) : Option FindmaxState := do
  let last1 ← load tmp (m - 1)
  let last2 ← load tmp (m - 2)
  let c := ltWord last2 last1
  let mlast := selectWord c last1 last2
  let cl := m % 2
  return ⟨tmp, last1, mlast, cl⟩

/-- One round of the outer loop of `findmax_tree`. -/
def findmaxLevel (m : Word) (s : FindmaxState) : Option FindmaxState := do
  let tmp ← forRange 0 (m - 1) (fun i tmp => combine larger tmp i tmp) s.tmp
  let tmp ← store tmp (m - 1) (selectWord s.cl s.last1 s.mlast)
  findmaxLast m tmp

/-- `findmax_tree`. -/
def findmaxTree (n : Word) (array tmp : List Word) : Option Word := do
  let m := halfUp n
  let last1 ← load array (n - 1)
  let last2 ← load array (n - 2)
  let tmp ← forRange 0 (m - 1) (combine larger array) tmp
  let cl := n % 2
  let c := ltWord last2 last1
  let mlast := selectWord c last1 last2
  let tmp ← store tmp (m - 1) (selectWord cl last1 mlast)
  let s ← findmaxLast m tmp
  let s ← halvings findmaxLevel (halfUp m) s
  let a ← load s.tmp 0
  let b ← load s.tmp 1
  return larger a b

/-- `sum_naive`. -/
def sumNaive (n : Word) (array : List Word) : Option Word :=
  forRange 0 n (fun i s => do
    let a ← load array i
    return s + a) 0

/-- The variables of `sum_tree` between two levels. -/
structure SumState where
  tmp : List Word
  last1 : Word
  last2 : Word
  cond : Word

/-- What `sum_tree` reads off a level of `m` values. -/
def sumLast (m : Word) (tmp : List Word) : Option SumState := do
  let last1 ← load tmp (m - 1)
  let last2 ← load tmp (m - 2)
  let cond := m % 2
  return ⟨tmp, last1, last2, cond⟩

/-- One round of the outer loop of `sum_tree`. -/
def sumLevel (m : Word) (s : SumState) : Option SumState := do
  let tmp ← forRange 0 (m - 1) (fun i tmp => combine (· + ·) tmp i tmp) s.tmp
  let tmp ← store tmp (m - 1) (s.cond * s.last1 + (1 - s.cond) * (s.last1 + s.last2))
  sumLast m tmp

/-- `sum_tree`. -/
def sumTree (n : Word) (array tmp : List Word) : Option Word := do
  let m := halfUp n
  let last1 ← load array (n - 1)
  let last2 ← load array (n - 2)
  let tmp ← forRange 0 (m - 1) (combine (· + ·) array) tmp
  let cond := n % 2
  let tmp ← store tmp (m - 1) (cond * last1 + (1 - cond) * (last1 + last2))
  let s ← sumLast m tmp
  let s ← halvings sumLevel (halfUp m) s
  let a ← load s.tmp 0
  let b ← load s.tmp 1
  return a + b

/-- On an array and temporaries, both tree-shaped programs stay within them and return what the
naive ones return. -/
structure TreesAgree (n : Word) (array tmp : List Word) : Prop where
  findmax : ∃ v, findmaxTree n array tmp = some v ∧ findmaxNaive n array = some v
  sum : ∃ v, sumTree n array tmp = some v ∧ sumNaive n array = some v

-- ---------------------------------------------------------------------------
-- Loops
-- ---------------------------------------------------------------------------

theorem toNat_index {i : Nat} (h : i < 2 ^ 32) : (BitVec.ofNat 32 i).toNat = i := by
  rw [BitVec.toNat_ofNat, Nat.mod_eq_of_lt h]

theorem load_eq {xs : List Word} {i : Word} {k : Nat} (h : i.toNat = k) : load xs i = xs[k]? := by
  rw [load, h]

section Loops

variable {σ : Type} (lo hi : Word) (body : Word → σ → Option σ)

/-- The rule for a loop over a range. -/
theorem forRange_spec (Inv : Nat → σ → Prop) (hle : lo.toNat ≤ hi.toNat)
    (hStep : ∀ i s, lo.toNat ≤ i → i < hi.toNat → Inv i s →
      ∃ s', body (BitVec.ofNat 32 i) s = some s' ∧ Inv (i + 1) s') {s : σ} (h : Inv lo.toNat s) :
    ∃ s', forRange lo hi body s = some s' ∧ Inv hi.toNat s' := by
  have hRun : ∀ k i s, lo.toNat ≤ i → i + k = hi.toNat → Inv i s →
      ∃ s', (List.range' i k).foldlM (fun s i => body (BitVec.ofNat 32 i) s) s = some s' ∧
        Inv hi.toNat s' := by
    intro k
    induction k with
    | zero =>
      intro i s _ hEnd hInv
      exact ⟨s, rfl, hEnd ▸ hInv⟩
    | succ k ih =>
      intro i s hLow hEnd hInv
      obtain ⟨s₁, hBody, hInv₁⟩ := hStep i s hLow (by omega) hInv
      obtain ⟨s', hRest, hInv'⟩ := ih (i + 1) s₁ (by omega) (by omega) hInv₁
      refine ⟨s', ?_, hInv'⟩
      rw [List.range'_succ, List.foldlM_cons, hBody]
      exact hRest
  exact hRun _ _ s le_rfl (by omega) h

/-- A round that fails in every state ends the run. -/
theorem forRange_eq_none {i : Nat} (hLow : lo.toNat ≤ i) (hHigh : i < hi.toNat)
    (hBody : ∀ s, body (BitVec.ofNat 32 i) s = none) (s : σ) : forRange lo hi body s = none := by
  have hMem : i ∈ List.range' lo.toNat (hi.toNat - lo.toNat) := by
    rw [List.mem_range'_1]
    omega
  unfold forRange
  generalize List.range' lo.toNat (hi.toNat - lo.toNat) = is at hMem
  induction is generalizing s with
  | nil => cases hMem
  | cons k is ih =>
    rw [List.foldlM_cons]
    rcases List.mem_cons.mp hMem with rfl | hMem
    · rw [hBody s]
      rfl
    · cases body (BitVec.ofNat 32 k) s with
      | none => rfl
      | some s₁ => exact ih s₁ hMem

end Loops

/-- A loop that goes through the rest of an array folds it. -/
theorem forRange_fold (f : Word → Word → Word) (e lo : Word) {array : List Word} {n : Word}
    (hn : array.length = n.toNat) (hLow : lo.toNat ≤ n.toNat) :
    forRange lo n (fun i s => do
      let a ← load array i
      return f s a) ((array.take lo.toNat).foldl f e) = some (array.foldl f e) := by
  obtain ⟨s, hRun, hEnd⟩ := forRange_spec lo n
    (fun i s => do
      let a ← load array i
      return f s a)
    (fun i s => s = (array.take i).foldl f e) hLow
    (by
      rintro i s - hi rfl
      have hIn : i < array.length := by omega
      refine ⟨f ((array.take i).foldl f e) array[i], ?_, ?_⟩
      · rw [load_eq (toNat_index (by omega)), List.getElem?_eq_getElem hIn]
        rfl
      · rw [List.take_succ_eq_append_getElem hIn, List.foldl_append]
        rfl) rfl
  rw [hRun, hEnd, ← hn, List.take_length]

-- ---------------------------------------------------------------------------
-- One level
-- ---------------------------------------------------------------------------

section Level

variable {op : Word → Word → Word} {l d : List Word} {m : Word}

/-- One position of a level is written. -/
theorem combine_overlay {src : List Word} {j : Nat} (hj : 2 * j + 1 < l.length)
    (hSmall : l.length < 2 ^ 32) (hd : j < d.length) (h₁ : src[2 * j]? = l[2 * j]?)
    (h₂ : src[2 * j + 1]? = l[2 * j + 1]?) :
    combine op src (BitVec.ofNat 32 j) (overlay (pairUp op l) d j) =
      some (overlay (pairUp op l) d (j + 1)) := by
  have hIdx : (BitVec.ofNat 32 j).toNat = j := toNat_index (by omega)
  have hLeft : (2 * BitVec.ofNat 32 j).toNat = 2 * j := by
    rw [BitVec.toNat_mul, hIdx]
    exact Nat.mod_eq_of_lt (by simp; omega)
  have hRight : (2 * BitVec.ofNat 32 j + 1).toNat = 2 * j + 1 := by
    rw [BitVec.toNat_add, hLeft]
    exact Nat.mod_eq_of_lt (by simp; omega)
  have hA := List.getElem?_eq_getElem (show 2 * j < l.length by omega)
  have hB := List.getElem?_eq_getElem hj
  have hLevel := getElem?_pairUp op hA hB
  obtain ⟨hIn, -⟩ := List.getElem?_eq_some_iff.mp hLevel
  rw [combine, load_eq hLeft, h₁, hA, Option.bind_eq_bind, Option.bind_some, load_eq hRight, h₂, hB,
    Option.bind_some, store, hIdx, length_overlay hIn.le hd.le, if_pos hd, overlay_set hLevel hd]

/-- The inner loop writes all of a level but its last position. -/
theorem forRange_combine (op : Word → Word → Word) (body : Word → List Word → Option (List Word))
    (hm : m.toNat = (l.length + 1) / 2) (hLen : 2 ≤ l.length)
    (hBody : ∀ j, 2 * j + 1 < l.length → body (BitVec.ofNat 32 j) (overlay (pairUp op l) d j) =
      some (overlay (pairUp op l) d (j + 1))) :
    forRange 0 (m - 1) body d = some (overlay (pairUp op l) d (m.toNat - 1)) := by
  have hEnd : (m - 1).toNat = m.toNat - 1 := by
    have hPos : 1 ≤ m.toNat := by omega
    bv_omega
  obtain ⟨tmp, hRun, rfl⟩ := forRange_spec 0 (m - 1) body
    (fun j tmp => tmp = overlay (pairUp op l) d j) (Nat.zero_le _)
    (by
      rintro j tmp - hj rfl
      exact ⟨_, hBody j (by omega), rfl⟩) (s := d) (overlay_zero _ d).symm
  rw [hRun, hEnd]

/-- The store behind the inner loop completes the level. -/
theorem store_last (hm : m.toNat = (l.length + 1) / 2) (hLen : 2 ≤ l.length)
    (hRoom : m.toNat ≤ d.length) {v : Word} (hv : (pairUp op l)[m.toNat - 1]? = some v) :
    store (overlay (pairUp op l) d (m.toNat - 1)) (m - 1) v =
      some (pairUp op l ++ d.drop (pairUp op l).length) := by
  have hEnd : (m - 1).toNat = m.toNat - 1 := by
    have hPos : 1 ≤ m.toNat := by omega
    bv_omega
  have hFull : (pairUp op l).length = m.toNat := by rw [length_pairUp, hm]
  rw [store, hEnd, length_overlay (by omega) (by omega), if_pos (by omega),
    overlay_set hv (by omega), overlay_full (by omega)]

/-- The last value of a level, in terms of the last two of the level before. -/
theorem pairUp_last (op : Word → Word → Word) (hLen : 2 ≤ l.length)
    (hm : m.toNat = (l.length + 1) / 2) {a b : Word} (ha : l[l.length - 1]? = some a)
    (hb : l[l.length - 2]? = some b) :
    (pairUp op l)[m.toNat - 1]? = some (if l.length % 2 = 1 then a else op b a) := by
  split
  · next hOdd =>
    rw [getElem?_pairUp_last (by omega), ← ha]
    congr 1
    omega
  · next hEven =>
    refine getElem?_pairUp op ?_ ?_
    · rw [← hb]
      congr 1
      omega
    · rw [← ha]
      congr 1
      omega

end Level

/-- The rule for the outer loop: a round reduces the values by a level, and two are left. -/
theorem halvings_spec {σ : Type} (op : Word → Word → Word) [Std.Associative op]
    {body : Word → σ → Option σ} {Inv : List Word → σ → Prop}
    (hBody : ∀ l m s, 2 ≤ l.length → l.length + 1 < 2 ^ 32 → m.toNat = (l.length + 1) / 2 →
      2 ≤ m.toNat → Inv l s → ∃ s', body m s = some s' ∧ Inv (pairUp op l) s')
    {l : List Word} {m : Word} {s : σ} (hLen : 2 ≤ l.length) (hSmall : l.length + 1 < 2 ^ 32)
    (hm : m.toNat = (l.length + 1) / 2) (h : Inv l s) :
    ∃ l' s', halvings body m s = some s' ∧ Inv l' s' ∧ l'.length = 2 ∧
      ∀ x, l'.foldl op x = l.foldl op x := by
  induction hk : l.length using Nat.strong_induction_on generalizing l m s with
  | _ k ih =>
    subst hk
    rw [halvings]
    by_cases hOne : 1 < m
    · have hTwo : 1 < m.toNat := hOne
      obtain ⟨s₁, hStep, hInv⟩ := hBody l m s hLen hSmall hm hTwo h
      have hLevel := length_pairUp op l
      have hNext : (halfUp m).toNat = ((pairUp op l).length + 1) / 2 := by
        rw [toNat_halfUp, Nat.mod_eq_of_lt (by omega), hLevel, hm]
      obtain ⟨l', s', hRun, hInv', hTwo', hFold⟩ := ih (pairUp op l).length (by omega) (by omega)
        (by omega) hNext hInv rfl
      refine ⟨l', s', ?_, hInv', hTwo', fun x => (hFold x).trans (foldl_pairUp x l)⟩
      rw [if_pos hOne, hStep]
      exact hRun
    · have hLe : ¬ 1 < m.toNat := hOne
      exact ⟨l, s, if_neg hOne, h, by omega, fun x => rfl⟩

-- ---------------------------------------------------------------------------
-- The programs fold the array
-- ---------------------------------------------------------------------------

theorem larger_eq (a b : Word) : larger a b = if a < b then b else a := by
  unfold larger selectWord ltWord
  split <;> simp_all

instance : Std.Associative larger := ⟨fun a b c => by
  simp only [larger_eq]
  split_ifs <;> first | rfl | bv_omega⟩

instance : Std.Associative fun a b : Word => a + b := ⟨BitVec.add_assoc⟩

/-- `n % 2`. -/
theorem umod_two (n : Word) : n % 2 = if n.toNat % 2 = 1 then 1 else 0 := by
  have hMod : (n % 2).toNat = n.toNat % 2 := by simp [BitVec.toNat_umod]
  split <;> exact BitVec.eq_of_toNat_eq (by rw [hMod]; simp; omega)

/-- `cl ? last1 : mlast`. -/
theorem selectWord_parity (n a b : Word) :
    selectWord (n % 2) a b = if n.toNat % 2 = 1 then a else b := by
  rw [umod_two, selectWord]
  split <;> simp

/-- `cond * last1 + (1-cond) * (last1 + last2)`. -/
theorem select_sum_parity (n a b : Word) :
    n % 2 * a + (1 - n % 2) * (a + b) = if n.toNat % 2 = 1 then a else b + a := by
  rw [umod_two]
  split
  · simp
  · simp [BitVec.add_comm]

section Ends

variable {l tmp : List Word} {m : Word}

theorem getElem?_of_isPrefix (hPre : l <+: tmp) {i : Nat} (hi : i < l.length) :
    tmp[i]? = l[i]? := by
  obtain ⟨rest, rfl⟩ := hPre
  exact List.getElem?_append_left hi

/-- The last two values of a level are where the programs look for them. -/
theorem load_last (hPre : l <+: tmp) (hm : m.toNat = l.length) (hLen : 2 ≤ l.length) :
    ∃ a b, load tmp (m - 1) = some a ∧ load tmp (m - 2) = some b ∧
      l[l.length - 1]? = some a ∧ l[l.length - 2]? = some b := by
  have hOne : (m - 1).toNat = l.length - 1 := by bv_omega
  have hTwo : (m - 2).toNat = l.length - 2 := by bv_omega
  have hA := List.getElem?_eq_getElem (show l.length - 1 < l.length by omega)
  have hB := List.getElem?_eq_getElem (show l.length - 2 < l.length by omega)
  refine ⟨_, _, ?_, ?_, hA, hB⟩
  · rw [load_eq hOne, getElem?_of_isPrefix hPre (by omega), hA]
  · rw [load_eq hTwo, getElem?_of_isPrefix hPre (by omega), hB]

/-- The two values that the outer loop leaves. -/
theorem load_pair (hPre : l <+: tmp) (hLen : l.length = 2) :
    ∃ a b, load tmp 0 = some a ∧ load tmp 1 = some b ∧ l = [a, b] := by
  obtain ⟨a, b, rfl⟩ := List.length_eq_two.mp hLen
  exact ⟨a, b, getElem?_of_isPrefix hPre Nat.two_pos, getElem?_of_isPrefix hPre Nat.one_lt_two, rfl⟩

/-- A level read from the temporaries that it is written over. -/
theorem combine_inPlace {op : Word → Word → Word} (hPre : l <+: tmp) (hSmall : l.length < 2 ^ 32)
    {j : Nat} (hj : 2 * j + 1 < l.length) :
    combine op (overlay (pairUp op l) tmp j) (BitVec.ofNat 32 j) (overlay (pairUp op l) tmp j) =
      some (overlay (pairUp op l) tmp (j + 1)) := by
  have hRoom := hPre.length_le
  have hLevel := length_pairUp op l
  have hSource : ∀ k, j ≤ k → k < l.length → (overlay (pairUp op l) tmp j)[k]? = l[k]? :=
    fun k hk hIn => by rw [getElem?_overlay (by omega) hk, getElem?_of_isPrefix hPre hIn]
  exact combine_overlay hj hSmall (by omega) (hSource _ (by omega) (by omega))
    (hSource _ (by omega) hj)

end Ends

/-- The steps that both tree-shaped programs take, for what `last` reads off a level and a `body`
that reduces it: all of them succeed, and what is left folds to what the array does. -/
theorem tree_runs {σ : Type} (op : Word → Word → Word) [Std.Associative op]
    {tmpOf : σ → List Word} {Holds : List Word → σ → Prop} {last : Word → List Word → Option σ}
    {body : Word → σ → Option σ} (hTmp : ∀ l s, Holds l s → l <+: tmpOf s)
    (hLast : ∀ l tmp (m : Word), l <+: tmp → m.toNat = l.length → 2 ≤ l.length →
      ∃ s, last m tmp = some s ∧ Holds l s)
    (hBody : ∀ l m s, 2 ≤ l.length → l.length + 1 < 2 ^ 32 → m.toNat = (l.length + 1) / 2 →
      2 ≤ m.toNat → Holds l s → ∃ s', body m s = some s' ∧ Holds (pairUp op l) s')
    {n : Word} {array tmp : List Word} (hn : 2 < n.toNat) (hSmall : n.toNat + 1 < 2 ^ 32)
    (hArray : array.length = n.toNat) (hRoom : (n.toNat + 1) / 2 ≤ tmp.length) :
    ∃ a b tmp₁ tmp₂ s s' x y, load array (n - 1) = some a ∧ load array (n - 2) = some b ∧
      forRange 0 (halfUp n - 1) (combine op array) tmp = some tmp₁ ∧
      store tmp₁ (halfUp n - 1) (if n.toNat % 2 = 1 then a else op b a) = some tmp₂ ∧
      last (halfUp n) tmp₂ = some s ∧ halvings body (halfUp (halfUp n)) s = some s' ∧
      load (tmpOf s') 0 = some x ∧ load (tmpOf s') 1 = some y ∧
      ∀ e, op (op e x) y = array.foldl op e := by
  have hm : (halfUp n).toNat = (array.length + 1) / 2 := by
    rw [toNat_halfUp, Nat.mod_eq_of_lt hSmall, hArray]
  have hLevel := length_pairUp op array
  obtain ⟨a, b, hA, hB, hAt, hBefore⟩ := load_last (List.prefix_refl array) hArray.symm (by omega)
  have hValue := pairUp_last op (by omega) hm hAt hBefore
  rw [hArray] at hValue
  -- the first level is read from the array
  have hFirst := forRange_combine op (d := tmp) (combine op array) hm (by omega) fun j hj =>
    combine_overlay hj (by omega) (by omega) rfl rfl
  have hStore := store_last (d := tmp) hm (by omega) (by omega) hValue
  obtain ⟨s, hRead, hs⟩ := hLast _ _ _
    (List.prefix_append (pairUp op array) (tmp.drop (pairUp op array).length))
      (hm.trans hLevel.symm)
    (by omega)
  obtain ⟨l, s', hLoop, hs', hPair, hFold⟩ := halvings_spec op (m := halfUp (halfUp n)) hBody
    (by omega) (by omega) (by rw [toNat_halfUp, Nat.mod_eq_of_lt (by omega), hLevel, hm]) hs
  obtain ⟨x, y, hX, hY, rfl⟩ := load_pair (hTmp _ _ hs') hPair
  exact ⟨a, b, _, _, s, s', x, y, hA, hB, hFirst, hStore, hRead, hLoop, hX, hY, fun e =>
    (hFold e).trans (foldl_pairUp e array)⟩

section Findmax

variable {l tmp : List Word} {m : Word}

/-- The variables of `findmax_tree` when `l` is the last level that it has written. -/
structure FindmaxState.Holds (l : List Word) (s : FindmaxState) : Prop where
  level : l <+: s.tmp
  parity : ∃ m : Word, m.toNat = l.length ∧ s.cl = m % 2
  last : ∃ last2, l[l.length - 1]? = some s.last1 ∧ l[l.length - 2]? = some last2 ∧
    s.mlast = larger last2 s.last1

theorem findmaxLast_spec (hPre : l <+: tmp) (hm : m.toNat = l.length) (hLen : 2 ≤ l.length) :
    ∃ s, findmaxLast m tmp = some s ∧ s.Holds l := by
  obtain ⟨a, b, hA, hB, hLast, hNext⟩ := load_last hPre hm hLen
  refine ⟨⟨tmp, a, larger b a, m % 2⟩, ?_, hPre, ⟨m, hm, rfl⟩, b, hLast, hNext, rfl⟩
  rw [findmaxLast, hA, Option.bind_eq_bind, Option.bind_some, hB]
  rfl

theorem findmaxLevel_spec (hLen : 2 ≤ l.length) (hSmall : l.length + 1 < 2 ^ 32)
    (hm : m.toNat = (l.length + 1) / 2) (hTwo : 2 ≤ m.toNat) {s : FindmaxState} (h : s.Holds l) :
    ∃ s', findmaxLevel m s = some s' ∧ s'.Holds (pairUp larger l) := by
  obtain ⟨m₀, hm₀, hCl⟩ := h.parity
  obtain ⟨last2, hLast, hNext, hMlast⟩ := h.last
  have hRoom := h.level.length_le
  have hValue := pairUp_last larger hLen hm hLast hNext
  have hLevel := length_pairUp larger l
  obtain ⟨s', hEnd, hs'⟩ := findmaxLast_spec
    (List.prefix_append (pairUp larger l) (s.tmp.drop (pairUp larger l).length))
      (hm.trans hLevel.symm)
    (by omega)
  refine ⟨s', ?_, hs'⟩
  rw [findmaxLevel, forRange_combine _ _ hm hLen fun j hj => combine_inPlace h.level (by omega) hj,
    Option.bind_eq_bind, Option.bind_some, hCl, selectWord_parity, hm₀, hMlast,
    store_last hm hLen (by omega) hValue, Option.bind_some, hEnd]

theorem larger_zero (a : Word) : larger 0 a = a := by
  rw [larger_eq]
  split
  · rfl
  · bv_omega

/-- **`findmax_tree` folds the array.** -/
theorem findmaxTree_spec {n : Word} {array tmp : List Word} (hn : 2 < n.toNat)
    (hSmall : n.toNat + 1 < 2 ^ 32) (hArray : array.length = n.toNat)
    (hTmp : (n.toNat + 1) / 2 ≤ tmp.length) :
    findmaxTree n array tmp = some (array.foldl larger 0) := by
  obtain ⟨a, b, tmp₁, tmp₂, s, s', x, y, hA, hB, hFirst, hStore, hRead, hLoop, hX, hY, hFold⟩ :=
    tree_runs larger (fun _ _ h => h.level) (fun _ _ _ => findmaxLast_spec)
      (fun _ _ _ hLen hSmall hm hTwo h => findmaxLevel_spec hLen hSmall hm hTwo h) hn hSmall hArray
        hTmp
  have hOdd : selectWord (n % 2) a (selectWord (ltWord b a) a b) =
      if n.toNat % 2 = 1 then a else larger b a := selectWord_parity n a _
  unfold findmaxTree
  simp only [Option.bind_eq_bind, hA, hB, Option.bind_some, hFirst, hOdd, hStore, hRead, hLoop, hX,
    hY]
  rw [← hFold 0, larger_zero]
  rfl

/-- `findmax_naive` folds the array too. -/
theorem findmaxNaive_spec {n : Word} {array : List Word} (hn : 1 ≤ n.toNat)
    (hArray : array.length = n.toNat) : findmaxNaive n array = some (array.foldl larger 0) := by
  obtain ⟨x, rest, rfl⟩ := List.exists_cons_of_length_pos (show 0 < array.length by omega)
  have hHead : load (x :: rest) 0 = some x := rfl
  have hLoop := forRange_fold larger 0 1 hArray hn
  rw [show ((x :: rest).take (1 : Word).toNat).foldl larger 0 = x from larger_zero x] at hLoop
  rw [findmaxNaive, hHead]
  exact hLoop

end Findmax

section Sum

variable {l tmp : List Word} {m : Word}

/-- The variables of `sum_tree` when `l` is the last level that it has written. -/
structure SumState.Holds (l : List Word) (s : SumState) : Prop where
  level : l <+: s.tmp
  parity : ∃ m : Word, m.toNat = l.length ∧ s.cond = m % 2
  last : l[l.length - 1]? = some s.last1 ∧ l[l.length - 2]? = some s.last2

theorem sumLast_spec (hPre : l <+: tmp) (hm : m.toNat = l.length) (hLen : 2 ≤ l.length) :
    ∃ s, sumLast m tmp = some s ∧ s.Holds l := by
  obtain ⟨a, b, hA, hB, hLast, hNext⟩ := load_last hPre hm hLen
  refine ⟨⟨tmp, a, b, m % 2⟩, ?_, hPre, ⟨m, hm, rfl⟩, hLast, hNext⟩
  rw [sumLast, hA, Option.bind_eq_bind, Option.bind_some, hB]
  rfl

theorem sumLevel_spec (hLen : 2 ≤ l.length) (hSmall : l.length + 1 < 2 ^ 32)
    (hm : m.toNat = (l.length + 1) / 2) (hTwo : 2 ≤ m.toNat) {s : SumState} (h : s.Holds l) :
    ∃ s', sumLevel m s = some s' ∧ s'.Holds (pairUp (· + ·) l) := by
  obtain ⟨m₀, hm₀, hCond⟩ := h.parity
  have hRoom := h.level.length_le
  have hValue := pairUp_last (· + ·) hLen hm h.last.1 h.last.2
  have hLevel := length_pairUp (· + ·) l
  obtain ⟨s', hEnd, hs'⟩ := sumLast_spec
    (List.prefix_append (pairUp (· + ·) l) (s.tmp.drop (pairUp (· + ·) l).length))
    (hm.trans hLevel.symm) (by omega)
  refine ⟨s', ?_, hs'⟩
  rw [sumLevel, forRange_combine _ _ hm hLen fun j hj => combine_inPlace h.level (by omega) hj,
    Option.bind_eq_bind, Option.bind_some, hCond, select_sum_parity, hm₀,
    store_last hm hLen (by omega) hValue, Option.bind_some, hEnd]

/-- **`sum_tree` folds the array.** -/
theorem sumTree_spec {n : Word} {array tmp : List Word} (hn : 2 < n.toNat)
    (hSmall : n.toNat + 1 < 2 ^ 32) (hArray : array.length = n.toNat)
    (hTmp : (n.toNat + 1) / 2 ≤ tmp.length) :
    sumTree n array tmp = some (array.foldl (· + ·) 0) := by
  obtain ⟨a, b, tmp₁, tmp₂, s, s', x, y, hA, hB, hFirst, hStore, hRead, hLoop, hX, hY, hFold⟩ :=
    tree_runs (· + ·) (fun _ _ h => h.level) (fun _ _ _ => sumLast_spec)
      (fun _ _ _ hLen hSmall hm hTwo h => sumLevel_spec hLen hSmall hm hTwo h) hn hSmall hArray hTmp
  unfold sumTree
  simp only [Option.bind_eq_bind, hA, hB, Option.bind_some, hFirst, select_sum_parity, hStore,
    hRead, hLoop, hX, hY]
  rw [← hFold 0]
  simp

/-- `sum_naive` folds the array too. -/
theorem sumNaive_spec {n : Word} {array : List Word} (hArray : array.length = n.toNat) :
    sumNaive n array = some (array.foldl (· + ·) 0) :=
  forRange_fold (· + ·) 0 0 hArray (Nat.zero_le _)

end Sum

-- ---------------------------------------------------------------------------
-- The comparison
-- ---------------------------------------------------------------------------

/-- At the largest length `m` is 0, and the first inner loop leaves the array. -/
theorem findmaxTree_largest {n : Word} (hn : n.toNat = 2 ^ 32 - 1) {array tmp : List Word}
    (hArray : array.length = n.toNat) : findmaxTree n array tmp = none := by
  have hm : (halfUp n - 1).toNat = 2 ^ 32 - 1 := by
    have hZero : (halfUp n).toNat = 0 := by
      rw [toNat_halfUp, hn]
      decide
    bv_omega
  have hBody : ∀ tmp, combine larger array (BitVec.ofNat 32 (2 ^ 31 - 1)) tmp = none := by
    intro tmp
    have hOut : load array (2 * BitVec.ofNat 32 (2 ^ 31 - 1) + 1) = none := by
      rw [load_eq (k := 2 ^ 32 - 1) rfl, List.getElem?_eq_none (by omega)]
    rw [combine, hOut]
    cases load array (2 * BitVec.ofNat 32 (2 ^ 31 - 1)) <;> rfl
  have hLoop := forRange_eq_none 0 (halfUp n - 1) (combine larger array) (i := 2 ^ 31 - 1)
    (Nat.zero_le _) (by rw [hm]; decide) hBody tmp
  unfold findmaxTree
  simp only [hLoop]
  cases load array (n - 1) with
  | none => rfl
  | some a => cases load array (n - 2) <;> rfl

/-- **The tree-shaped programs return what the naive ones return**, within their arrays, at every
length above 2 that is not the largest one. -/
theorem treesAgree_iff {n : Word} (hn : 2 < n) {array tmp : List Word}
    (hArray : array.length = n.toNat) (hTmp : tmp.length = (n.toNat + 1) / 2) :
    TreesAgree n array tmp ↔ n.toNat ≠ 2 ^ 32 - 1 := by
  have hLow : 2 < n.toNat := hn
  have hHigh := n.isLt
  constructor
  · intro h hLargest
    obtain ⟨v, hTree, -⟩ := h.findmax
    rw [findmaxTree_largest hLargest hArray] at hTree
    cases hTree
  · intro hNe
    have hSmall : n.toNat + 1 < 2 ^ 32 := by omega
    exact ⟨⟨_, findmaxTree_spec hLow hSmall hArray hTmp.ge, findmaxNaive_spec (by omega) hArray⟩,
      ⟨_, sumTree_spec hLow hSmall hArray hTmp.ge, sumNaive_spec hArray⟩⟩

/-- The theorem at an array of five words. -/
theorem treesAgree_iff_five : TreesAgree 5 [3, 1, 4, 1, 5] [0, 0, 0] :=
  (treesAgree_iff (by decide) rfl rfl).mpr (by decide)

/-- An array of 4294967295 words. -/
theorem not_treesAgree_largest :
    ¬ TreesAgree 4294967295 (List.replicate 4294967295 0) (List.replicate 2147483648 0) := by
  intro h
  obtain ⟨v, hTree, -⟩ := h.findmax
  rw [findmaxTree_largest (n := 4294967295) rfl (by rw [List.length_replicate]; rfl)] at hTree
  cases hTree

end Obscure
