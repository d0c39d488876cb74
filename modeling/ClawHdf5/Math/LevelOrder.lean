import Mathlib.Tactic.Positivity
import Mathlib.Tactic.Ring

/-!
# Perfect binary trees in level order

A perfect binary tree of height `a` is a labelling `t` of the positions `1, 2, …`: the
root is position `1`, the children of position `m` are `2 * m` and `2 * m + 1`, and the
leaves are the positions from `2 ^ a` to `2 ^ (a + 1) - 1`. It is *hashed* when every
inner label is `pair` of the labels of its two children.

The binding results compare a hashed tree with a second computation that reaches the same
root: a climb along one path with arbitrary siblings, or another hashed tree of arbitrary
height. They need `pair` to be injective only on the pairs that occur, and leaf labels
that are not themselves a `pair` of a pair that occurs.
-/

namespace ClawHdf5.LevelOrder

open List Function

variable {α : Type*} (pair : α → α → α)
variable {m k j h : ℕ} {x r : α} {sib : ℕ → α} {nodes : List α}

/-- Every position above the leaf row carries `pair` of its children's labels. -/
def IsHashed (a : ℕ) (t : ℕ → α) : Prop :=
  ∀ m, 1 ≤ m → m < 2 ^ a → t m = pair (t (2 * m)) (t (2 * m + 1))

/-- The other child of the parent of `m`. -/
def sibling (m : ℕ) : ℕ := if m % 2 = 0 then m + 1 else m - 1

/-- The pair hashed at the parent of `m` when `m` carries `x` and its sibling `s`. -/
def arrange (m : ℕ) (x s : α) : α × α := if m % 2 = 0 then (x, s) else (s, x)

/-- The parent's label when `m` carries `x` and its sibling carries `s`. -/
def join (m : ℕ) (x s : α) : α := pair (arrange m x s).1 (arrange m x s).2

/-- Climb `k` levels from position `m` with label `x`; `sib m` is the label supplied for
the sibling of `m`. -/
def climb (sib : ℕ → α) : ℕ → ℕ → α → α
  | 0, _, x => x
  | k + 1, m, x => climb sib k (m / 2) (join pair m x (sib m))

/-- The pairs hashed during a climb, lowest level first. -/
def climbPairs (sib : ℕ → α) : ℕ → ℕ → α → List (α × α)
  | 0, _, _ => []
  | k + 1, m, x => arrange m x (sib m) :: climbPairs sib k (m / 2) (join pair m x (sib m))

/-- The pairs hashed to label the inner positions of a tree of height `a`. -/
def treePairs (a : ℕ) (t : ℕ → α) : Set (α × α) :=
  {p | ∃ m, 1 ≤ m ∧ m < 2 ^ a ∧ p = (t (2 * m), t (2 * m + 1))}

/-- `pair` does not confuse the pairs in `S` with each other or with the labels in `L`. -/
structure Separated (S : Set (α × α)) (L : Set α) : Prop where
  inj : Set.InjOn (Function.uncurry pair) S
  ne_leaf : ∀ p ∈ S, pair p.1 p.2 ∉ L

variable {pair} {a b : ℕ} {t u : ℕ → α} {S : Set (α × α)} {L : Set α}

theorem mem_treePairs (h1 : 1 ≤ m) (hm : m < 2 ^ a) : (t (2 * m), t (2 * m + 1)) ∈ treePairs a t :=
  ⟨m, h1, hm, rfl⟩

theorem IsHashed.parent (ht : IsHashed pair a t) (h2 : 2 ≤ m) (hm : m / 2 < 2 ^ a) :
    t (m / 2) = join pair m (t m) (t (sibling m)) := by
  rw [ht (m / 2) (by omega) hm]
  unfold join arrange sibling
  split_ifs with heven
  · rw [show 2 * (m / 2) = m by omega]
  · rw [show 2 * (m / 2) + 1 = m by omega, show 2 * (m / 2) = m - 1 by omega]

theorem arrange_mem_treePairs (h2 : 2 ≤ m) (hm : m / 2 < 2 ^ a) :
    arrange m (t m) (t (sibling m)) ∈ treePairs a t := by
  have hmem := mem_treePairs (t := t) (a := a) (m := m / 2) (by omega) hm
  unfold arrange sibling
  split_ifs with heven
  · rwa [show 2 * (m / 2) = m by omega] at hmem
  · rwa [show 2 * (m / 2) + 1 = m by omega, show 2 * (m / 2) = m - 1 by omega] at hmem

theorem arrange_inj {y s : α} (h : arrange m x s = arrange m y r) : x = y ∧ s = r := by
  unfold arrange at h
  split_ifs at h with heven
  · exact Prod.mk.inj h
  · exact (Prod.mk.inj h).symm

/-! ### Honest climbs -/

section

variable (ht : IsHashed pair a t) (hsib : ∀ j < k, sib (m / 2 ^ j) = t (sibling (m / 2 ^ j)))
  (hk : 2 ^ k ≤ m)
include ht hsib hk

/-- With the tree's own siblings, climbing `k` levels from `m` reaches the label of the
`k`-th ancestor. -/
theorem climb_eq_ancestor (hm : m < 2 ^ (a + 1)) : climb pair sib k m (t m) = t (m / 2 ^ k) := by
  induction k generalizing m with
  | zero => simp [climb]
  | succ k ih =>
    have hone := Nat.two_pow_pos k
    have hstep : join pair m (t m) (sib m) = t (m / 2) := by
      have h0 := hsib 0 (by omega)
      simp only [pow_zero, Nat.div_one] at h0
      rw [h0, ← ht.parent (by omega) (by omega)]
    have hdiv (j : ℕ) : m / 2 / 2 ^ j = m / 2 ^ (j + 1) := by
      rw [Nat.div_div_eq_div_mul, pow_succ']
    rw [climb, hstep, ih, hdiv]
    · intro j hj
      rw [hdiv]
      exact hsib (j + 1) (by omega)
    · omega
    · omega

/-- With the tree's own siblings, a climb from any position reaches the root. -/
theorem climb_eq_root (hk' : m < 2 ^ (k + 1)) (hka : k ≤ a) : climb pair sib k m (t m) = t 1 := by
  have hm : m < 2 ^ (a + 1) := hk'.trans_le (Nat.pow_le_pow_right (by omega) (by omega))
  have hroot : m / 2 ^ k = 1 := by
    exact Nat.div_eq_of_lt_le (by omega) (by omega)
  rw [climb_eq_ancestor ht hsib hk hm, hroot]

end

/-! ### Binding of one path -/

theorem climb_add (sib : ℕ → α) (k l m : ℕ) (x : α) :
    climb pair sib (l + k) m x = climb pair sib k (m / 2 ^ l) (climb pair sib l m x) ∧
      climbPairs pair sib (l + k) m x =
        climbPairs pair sib l m x ++ climbPairs pair sib k (m / 2 ^ l) (climb pair sib l m x) := by
  induction l generalizing m x with
  | zero => simp [climb, climbPairs]
  | succ l ih =>
    rw [show l + 1 + k = (l + k) + 1 by omega, pow_succ', ← Nat.div_div_eq_div_mul]
    simp [climb, climbPairs, ih]

variable (pair) in
/-- A climb over at least one level ends in a `pair` of a pair it hashed. -/
theorem climb_succ_eq_pair (sib : ℕ → α) (k m : ℕ) (x : α) :
    ∃ p ∈ climbPairs pair sib (k + 1) m x, climb pair sib (k + 1) m x = pair p.1 p.2 := by
  induction k generalizing m x with
  | zero => exact ⟨arrange m x (sib m), by simp [climbPairs], rfl⟩
  | succ k ih =>
    obtain ⟨p, hp, heq⟩ := ih (m / 2) (join pair m x (sib m))
    exact ⟨p, mem_cons_of_mem _ hp, heq⟩

/-- A climb inside the tree that ends in the tree's label started with the tree's label. -/
theorem climb_label (hS : Separated pair S L) (ht : IsHashed pair a t) (htS : treePairs a t ⊆ S)
    (hcS : ∀ p ∈ climbPairs pair sib k m x, p ∈ S) (hk : 2 ^ k ≤ m) (hm : m < 2 ^ (a + 1))
    (h : climb pair sib k m x = t (m / 2 ^ k)) : x = t m := by
  induction k generalizing m x with
  | zero => simpa [climb] using h
  | succ k ih =>
    have hone := Nat.two_pow_pos k
    rw [show m / 2 ^ (k + 1) = m / 2 / 2 ^ k by
      rw [Nat.div_div_eq_div_mul, pow_succ']] at h
    -- the parent's recomputed label is the tree's, so the hashed pairs coincide
    have hparent : join pair m x (sib m) = t (m / 2) :=
      ih (fun p hp => hcS p (mem_cons_of_mem _ hp)) (by omega) (by omega) h
    rw [ht.parent (by omega) (by omega)] at hparent
    have hin : arrange m x (sib m) ∈ S := hcS _ mem_cons_self
    have hin' := htS (arrange_mem_treePairs (t := t) (a := a) (m := m) (by omega) (by omega))
    exact (arrange_inj (hS.inj hin hin' hparent)).1

/-- **Path binding.** A climb of `b` levels from a position of depth `b` that reaches the
root of a hashed tree, starting from a leaf-like label, started at a leaf position and
with the label of that leaf. -/
theorem climb_binds (hS : Separated pair S L) (ht : IsHashed pair a t) (htS : treePairs a t ⊆ S)
    (htL : ∀ m, 2 ^ a ≤ m → m < 2 ^ (a + 1) → t m ∈ L) (hxL : x ∈ L)
    (hcS : ∀ p ∈ climbPairs pair sib b m x, p ∈ S) (hb : 2 ^ b ≤ m) (hb' : m < 2 ^ (b + 1))
    (h : climb pair sib b m x = t 1) : b = a ∧ x = t m := by
  have hroot : m / 2 ^ b = 1 := by
    exact Nat.div_eq_of_lt_le (by omega) (by omega)
  rcases lt_trichotomy b a with hlt | rfl | hgt
  · -- the climb starts above the leaf row, where every label is a hashed pair
    have hma : m < 2 ^ a := hb'.trans_le (Nat.pow_le_pow_right (by omega) (by omega))
    have hx : x = t m := climb_label hS ht htS hcS hb
      (hma.trans_le (Nat.pow_le_pow_right (by omega) (by omega))) (by rw [h, hroot])
    rw [ht m (by omega) hma] at hx
    exact absurd (hx ▸ hxL) (hS.ne_leaf _ (htS (mem_treePairs (by omega) hma)))
  · exact ⟨rfl, climb_label hS ht htS hcS hb hb' (by rw [h, hroot])⟩
  · -- the climb starts below the leaf row: cut it where it crosses that row
    obtain ⟨l, rfl⟩ : ∃ l, b = l + 1 + a := ⟨b - a - 1, by omega⟩
    rw [(climb_add _ _ _ _ _).1] at h
    rw [(climb_add _ _ _ _ _).2] at hcS
    have hlow : 2 ^ a ≤ m / 2 ^ (l + 1) := by
      rw [Nat.le_div_iff_mul_le (by positivity), ← pow_add]
      rwa [show a + (l + 1) = l + 1 + a by omega]
    have hhigh : m / 2 ^ (l + 1) < 2 ^ (a + 1) := by
      rw [Nat.div_lt_iff_lt_mul (by positivity), ← pow_add]
      rwa [show a + 1 + (l + 1) = l + 1 + a + 1 by omega]
    have hone : m / 2 ^ (l + 1) / 2 ^ a = 1 := by
      rw [Nat.div_div_eq_div_mul, ← pow_add, hroot]
    have hcut : climb pair sib (l + 1) m x = t (m / 2 ^ (l + 1)) :=
      climb_label hS ht htS (fun p hp => hcS p (mem_append_right _ hp)) hlow hhigh (by rw [h, hone])
    obtain ⟨p, hp, hpair⟩ := climb_succ_eq_pair pair sib l m x
    exact absurd (hpair ▸ hcut ▸ htL _ hlow hhigh) (hS.ne_leaf p (hcS p (mem_append_left _ hp)))

/-! ### Paths to the root -/

variable (pair) in
/-- The label `x` at position `m` leads to the root label `r` by hashing pairs in `S`. -/
inductive ClimbsTo (S : Set (α × α)) (r : α) : ℕ → α → Prop
  | root : ClimbsTo S r 1 r
  | step {m : ℕ} {x s : α} (h2 : 2 ≤ m) (hS : arrange m x s ∈ S)
      (hup : ClimbsTo S r (m / 2) (join pair m x s)) : ClimbsTo S r m x

theorem ClimbsTo.one_le (h : ClimbsTo pair S r m x) : 1 ≤ m := by
  cases h with
  | root => exact le_rfl
  | step h2 _ _ => omega

variable (pair) in
/-- A climb only asks for the siblings of its start and of positions above it. -/
theorem climb_congr {sib' : ℕ → α} (h : ∀ j ≤ m, sib j = sib' j) (k : ℕ) (x : α) :
    climb pair sib k m x = climb pair sib' k m x ∧
      climbPairs pair sib k m x = climbPairs pair sib' k m x := by
  induction k generalizing m x with
  | zero => exact ⟨rfl, rfl⟩
  | succ k ih =>
    have hup := ih (fun j hj => h j (hj.trans (Nat.div_le_self m 2))) (join pair m x (sib' m))
    rw [climb, climbPairs, climbPairs, h m le_rfl]
    exact ⟨hup.1, by rw [hup.2]⟩

/-- A path to the root is a climb with some supply of siblings. -/
theorem ClimbsTo.exists_climb (h : ClimbsTo pair S r m x) :
    ∃ (k : ℕ) (sib : ℕ → α), 2 ^ k ≤ m ∧ m < 2 ^ (k + 1) ∧
      (∀ p ∈ climbPairs pair sib k m x, p ∈ S) ∧ climb pair sib k m x = r := by
  induction h with
  | root => exact ⟨0, fun _ => r, by simp [climb, climbPairs]⟩
  | @step m x s h2 hS _ ih =>
    obtain ⟨k, sib, hk, hk', hpairs, hclimb⟩ := ih
    -- the supply above `m` does not mention `m` itself
    have hsib : ∀ j ≤ m / 2, sib j = update sib m s j :=
      fun j hj => (update_of_ne (by omega) _ _).symm
    have hcongr := climb_congr pair hsib k (join pair m x s)
    refine ⟨k + 1, update sib m s, ?_, ?_, ?_, ?_⟩
    · rw [pow_succ]
      omega
    · rw [pow_succ]
      omega
    · rw [climbPairs, update_self, ← hcongr.2]
      exact forall_mem_cons.mpr ⟨hS, hpairs⟩
    · rw [climb, update_self, ← hcongr.1, hclimb]

/-! ### Folded rows -/

def rowPairs : List α → List (α × α)
  | [] => []
  | [_] => []
  | x :: y :: row => (x, y) :: rowPairs row

variable (pair) in
/-- The row above: one label for each adjacent pair. -/
def pairUp (row : List α) : List α := (rowPairs row).map fun p => pair p.1 p.2

variable (pair) in
/-- The label above a row of `2 ^ l` labels. -/
def foldUp [Inhabited α] : ℕ → List α → α
  | 0, row => row.headD default
  | l + 1, row => foldUp l (pairUp pair row)

variable (pair) in
/-- The pairs hashed to fold a row, lowest level first. -/
def foldPairs : ℕ → List α → List (α × α)
  | 0, _ => []
  | l + 1, row => rowPairs row ++ foldPairs l (pairUp pair row)

@[simp] theorem length_rowPairs (row : List α) : (rowPairs row).length = row.length / 2 := by
  fun_induction rowPairs row with
  | case1 => simp
  | case2 => simp
  | case3 x y row ih =>
    rw [length_cons, length_cons, length_cons]
    omega

theorem getElem?_rowPairs {row : List α} {y : α} (hx : row[2 * j]? = some x)
    (hy : row[2 * j + 1]? = some y) : (rowPairs row)[j]? = some (x, y) := by
  fun_induction rowPairs row generalizing j with
  | case1 => simp at hx
  | case2 => simp at hy
  | case3 x' y' row ih =>
    cases j with
    | zero => simp_all
    | succ j => exact ih (by simpa [Nat.mul_succ] using hx) (by simpa [Nat.mul_succ] using hy)

/-- A label that leads to the root leads there from every slot of a row folded into it. -/
theorem ClimbsTo.of_foldUp [Inhabited α] {l i : ℕ} {row : List α} (hlen : row.length = 2 ^ l)
    (hS : ∀ p ∈ foldPairs pair l row, p ∈ S) (h : ClimbsTo pair S r m (foldUp pair l row))
    (hx : row[i]? = some x) :
    ClimbsTo pair S r (2 ^ l * m + i) x := by
  induction l generalizing row x i with
  | zero =>
    obtain ⟨y, rfl⟩ := length_eq_one_iff.mp hlen
    obtain ⟨rfl, rfl⟩ : i = 0 ∧ y = x := by simpa [getElem?_singleton] using hx
    simpa [foldUp] using h
  | succ l ih =>
    obtain ⟨hi, rfl⟩ := List.getElem?_eq_some_iff.mp hx
    have hpos : 1 ≤ 2 ^ l * m := mul_pos (Nat.two_pow_pos l) h.one_le
    have hposition : 2 ^ (l + 1) * m + i = 2 * (2 ^ l * m) + i := by rw [pow_succ']; ring
    -- slot `i` is one side of the pair `i / 2`
    have hpair := getElem?_rowPairs (j := i / 2)
      (getElem?_eq_getElem (l := row) (i := 2 * (i / 2)) (by omega))
      (getElem?_eq_getElem (l := row) (i := 2 * (i / 2) + 1) (by omega))
    have habove : (pairUp pair row)[i / 2]? =
        some (pair row[2 * (i / 2)] row[2 * (i / 2) + 1]) := by
      rw [pairUp, getElem?_map, hpair]
      rfl
    have hup := ih (by rw [pairUp, length_map, length_rowPairs]; omega)
      (fun p hp => hS p (mem_append_right _ hp)) h habove
    have hin := hS _ (mem_append_left _ (mem_of_getElem? hpair))
    rw [hposition]
    have hparent : (2 * (2 ^ l * m) + i) / 2 = 2 ^ l * m + i / 2 := by omega
    rcases Nat.mod_two_eq_zero_or_one i with heven | hodd
    · have hself : 2 * (i / 2) = i := by omega
      have harrange (s : α) : arrange (2 * (2 ^ l * m) + i) row[i] s = (row[i], s) :=
        if_pos (by omega)
      refine .step (s := row[2 * (i / 2) + 1]) (by omega) ?_ ?_
      · rw [harrange]
        simpa only [hself] using hin
      · rw [hparent, join, harrange]
        simpa only [hself] using hup
    · have hself : 2 * (i / 2) + 1 = i := by omega
      have harrange (s : α) : arrange (2 * (2 ^ l * m) + i) row[i] s = (s, row[i]) :=
        if_neg (by omega)
      refine .step (s := row[2 * (i / 2)]) (by omega) ?_ ?_
      · rw [harrange]
        simpa only [hself] using hin
      · rw [hparent, join, harrange]
        simpa only [hself] using hup

/-! ### Values computed from the leaves -/

/-- The positions `h` levels below `m`, from left to right. -/
def below : ℕ → ℕ → List ℕ
  | 0, m => [m]
  | h + 1, m => below h (2 * m) ++ below h (2 * m + 1)

theorem below_eq_range' (h m : ℕ) : below h m = range' (2 ^ h * m) (2 ^ h) := by
  induction h generalizing m with
  | zero => rw [below, pow_zero, one_mul, range'_one]
  | succ h ih =>
    have hleft : 2 ^ (h + 1) * m = 2 ^ h * (2 * m) := by ring
    have hright : 2 ^ h * (2 * m + 1) = 2 ^ h * (2 * m) + 2 ^ h := by ring
    have hcount : 2 ^ (h + 1) = 2 ^ h + 2 ^ h := by ring
    rw [below, ih, ih, hleft, hright, hcount, range'_append_1]

theorem below_succ (h m : ℕ) :
    below (h + 1) m = (below h m).flatMap fun j => [2 * j, 2 * j + 1] := by
  induction h generalizing m with
  | zero => rfl
  | succ h ih => rw [below, ih, ih, ← flatMap_append, ← below]

theorem mem_below : j ∈ below h m ↔ 2 ^ h * m ≤ j ∧ j < 2 ^ h * (m + 1) := by
  rw [below_eq_range', mem_range'_1, Nat.mul_succ]

theorem rowPairs_map_flatMap (js : List ℕ) :
    rowPairs ((js.flatMap fun j => [2 * j, 2 * j + 1]).map t) =
      js.map fun j => (t (2 * j), t (2 * j + 1)) := by
  induction js with
  | nil => rfl
  | cons j js ih => exact congrArg ((t (2 * j), t (2 * j + 1)) :: ·) ih

/-- Folding the labels of a row of a hashed tree yields the label above. -/
theorem IsHashed.foldUp_below [Inhabited α] (ht : IsHashed pair a t) (h1 : 1 ≤ m)
    (hm : 2 ^ h * (m + 1) ≤ 2 ^ (a + 1)) : foldUp pair h ((below h m).map t) = t m := by
  induction h with
  | zero => rfl
  | succ h ih =>
    have hpow : 2 ^ (h + 1) * (m + 1) = 2 * (2 ^ h * (m + 1)) := by ring
    have habove : pairUp pair ((below (h + 1) m).map t) = (below h m).map t := by
      rw [pairUp, below_succ, rowPairs_map_flatMap, map_map]
      refine map_congr_left fun j hj => ?_
      obtain ⟨hfirst, hlast⟩ := mem_below.mp hj
      have hpos := mul_pos (Nat.two_pow_pos h) h1
      exact (ht j (by omega) (by omega)).symm
    rw [foldUp, habove, ih (by omega)]

variable (pair) in
/-- The label of `m` computed from labels of the positions `h` levels below it. -/
def value (leaf : ℕ → α) : ℕ → ℕ → α
  | 0, m => leaf m
  | h + 1, m => pair (value leaf h (2 * m)) (value leaf h (2 * m + 1))

variable (pair) in
/-- The pairs hashed to compute a value. -/
def valuePairs (leaf : ℕ → α) : ℕ → ℕ → List (α × α)
  | 0, _ => []
  | h + 1, m => (value pair leaf h (2 * m), value pair leaf h (2 * m + 1)) ::
      (valuePairs leaf h (2 * m) ++ valuePairs leaf h (2 * m + 1))

/-- Where the tree's label is the value computed from other leaves, the leaves are the same. -/
theorem IsHashed.leaf_eq_of_value_eq (ht : IsHashed pair a t)
    (hinj : Set.InjOn (uncurry pair) S) (htS : treePairs a t ⊆ S) {leaf : ℕ → α}
    (hS : ∀ p ∈ valuePairs pair leaf h m, p ∈ S) (h1 : 1 ≤ m) (hm : 2 ^ h * (m + 1) ≤ 2 ^ (a + 1))
    (heq : value pair leaf h m = t m) :
    ∀ j ∈ below h m, leaf j = t j := by
  induction h generalizing m with
  | zero =>
    intro j hj
    rw [below, mem_singleton] at hj
    rw [hj]
    exact heq
  | succ h ih =>
    have hpow : 2 ^ (h + 1) * (m + 1) = 2 ^ h * (2 * m + 1 + 1) := by ring
    have hinner : m < 2 ^ a := by
      have hone : 2 * (m + 1) ≤ 2 ^ (h + 1) * (m + 1) := by
        rw [pow_succ', mul_assoc]
        exact Nat.mul_le_mul_left 2 (Nat.le_mul_of_pos_left _ (Nat.two_pow_pos h))
      rw [pow_succ'] at hm
      rw [pow_succ'] at hone
      omega
    rw [valuePairs, forall_mem_cons] at hS
    rw [value, ht m h1 hinner] at heq
    -- the two pairs at `m` are hashed to one label
    have hpairs := hinj hS.1 (htS (mem_treePairs h1 hinner)) heq
    obtain ⟨hleft, hright⟩ := Prod.mk.inj hpairs
    intro j hj
    rcases mem_append.mp hj with hj | hj
    · refine ih (fun p hp => hS.2 p (mem_append_left _ hp)) (by omega) ?_ hleft j hj
      rw [hpow] at hm
      exact (Nat.mul_le_mul_left _ (by omega)).trans hm
    · refine ih (fun p hp => hS.2 p (mem_append_right _ hp)) (by omega) ?_ hright j hj
      rwa [← hpow]

/-! ### Binding of whole trees -/

/-- The pairs of one tree are not confused with the pairs or the leaves of another, which may
be hashed by another function. -/
structure Apart (pair pair' : α → α → α) (S S' : Set (α × α)) (L L' : Set α) : Prop where
  inj : ∀ p ∈ S, ∀ q ∈ S', pair p.1 p.2 = pair' q.1 q.2 → p = q
  ne_leaf : ∀ p ∈ S, pair p.1 p.2 ∉ L'
  leaf_ne : ∀ q ∈ S', pair' q.1 q.2 ∉ L

theorem Separated.apart (hS : Separated pair S L) : Apart pair pair S S L L :=
  ⟨fun _ hp _ hq h => hS.inj hp hq h, hS.ne_leaf, hS.ne_leaf⟩

variable {pair' : α → α → α} {S' : Set (α × α)} {L' : Set α}

theorem Apart.symm (hS : Apart pair pair' S S' L L') : Apart pair' pair S' S L' L :=
  ⟨fun p hp q hq h => (hS.inj q hq p hp h.symm).symm, hS.leaf_ne, hS.ne_leaf⟩

section

variable (hS : Apart pair pair' S S' L L') (ht : IsHashed pair a t) (hu : IsHashed pair' b u)
  (htS : treePairs a t ⊆ S) (huS : treePairs b u ⊆ S')
include hS ht hu htS huS

/-- Hashed trees with one root agree on every position that lies in both. -/
theorem label_eq_of_root_eq (h : t 1 = u 1) (h1 : 1 ≤ m) (ha : m < 2 ^ (a + 1))
    (hb : m < 2 ^ (b + 1)) :
    t m = u m := by
  induction m using Nat.strong_induction_on with
  | _ m ih =>
    rcases lt_or_ge 1 m with h2 | hle
    · have hpa : m / 2 < 2 ^ a := by rw [pow_succ] at ha; omega
      have hpb : m / 2 < 2 ^ b := by rw [pow_succ] at hb; omega
      have hparent := ih (m / 2) (by omega) (by omega)
        (hpa.trans_le (Nat.pow_le_pow_right (by omega) (by omega)))
        (hpb.trans_le (Nat.pow_le_pow_right (by omega) (by omega)))
      rw [ht.parent (by omega) hpa, hu.parent (by omega) hpb] at hparent
      exact (arrange_inj (hS.inj _ (htS (arrange_mem_treePairs (by omega) hpa))
        _ (huS (arrange_mem_treePairs (by omega) hpb)) hparent)).1
    · rwa [show m = 1 by omega]

/-- A tree whose root is that of a tree with leaf-like leaves is at least as high. -/
theorem height_le_of_root_eq (huL : ∀ m, 2 ^ b ≤ m → m < 2 ^ (b + 1) → u m ∈ L') (h : t 1 = u 1) :
    a ≤ b := by
  by_contra hlt
  have hpow : 2 ^ b < 2 ^ a := Nat.pow_lt_pow_right (by omega) (by omega)
  have hone := Nat.two_pow_pos b
  have hself : 2 ^ b < 2 ^ (b + 1) := Nat.pow_lt_pow_right (by omega) (by omega)
  have heq := label_eq_of_root_eq hS ht hu htS huS h (m := 2 ^ b) hone (by omega) hself
  rw [ht (2 ^ b) hone hpow] at heq
  exact hS.ne_leaf _ (htS (mem_treePairs hone hpow)) (heq ▸ huL _ le_rfl hself)

/-- **Tree binding.** Hashed trees with leaf-like leaves and one root have one height and
the same leaf row. -/
theorem leaves_eq_of_root_eq (htL : ∀ m, 2 ^ a ≤ m → m < 2 ^ (a + 1) → t m ∈ L)
    (huL : ∀ m, 2 ^ b ≤ m → m < 2 ^ (b + 1) → u m ∈ L') (h : t 1 = u 1) :
    a = b ∧ ∀ i < 2 ^ a, t (2 ^ a + i) = u (2 ^ a + i) := by
  have hab : a = b := le_antisymm (height_le_of_root_eq hS ht hu htS huS huL h)
    (height_le_of_root_eq hS.symm hu ht huS htS htL h.symm)
  subst hab
  refine ⟨rfl, fun i hi => ?_⟩
  have hlt : 2 ^ a + i < 2 ^ (a + 1) := by rw [pow_succ]; omega
  exact label_eq_of_root_eq hS ht hu htS huS h (by omega) hlt hlt

end

/-! ### Trees over one leaf row -/

/-- The leaf row determines a hashed tree. -/
theorem IsHashed.eq_of_leaves_eq (ht : IsHashed pair a t) (hu : IsHashed pair a u)
    (hleaves : ∀ i < 2 ^ a, t (2 ^ a + i) = u (2 ^ a + i)) (h1 : 1 ≤ m) (hm : m < 2 ^ (a + 1)) :
    t m = u m := by
  -- from the leaf row upwards, that is by induction on the distance to its end
  induction hd : 2 ^ (a + 1) - m using Nat.strong_induction_on generalizing m with
  | _ d ih =>
    by_cases hleaf : 2 ^ a ≤ m
    · have hi := hleaves (m - 2 ^ a) (by omega)
      rwa [Nat.add_sub_cancel' hleaf] at hi
    · rw [ht m h1 (by omega), hu m h1 (by omega),
        ih _ (by omega) (by omega) (by omega) rfl, ih _ (by omega) (by omega) (by omega) rfl]

/-! ### Changing one leaf -/

variable (pair) in
/-- Every inner position that is not above `m` carries `pair` of its children's labels. -/
def HashedBeside (a m : ℕ) (t : ℕ → α) : Prop :=
  ∀ j, 1 ≤ j → j < 2 ^ a → (∀ i, j ≠ m / 2 ^ (i + 1)) → t j = pair (t (2 * j)) (t (2 * j + 1))

theorem IsHashed.hashedBeside (ht : IsHashed pair a t) (hm : 2 ^ a ≤ m)
    (hu : ∀ j, 1 ≤ j → j ≠ m → u j = t j) : HashedBeside pair a m u := by
  intro j h1 hj habove
  have hparent := habove 0
  rw [hu j h1 (by omega), hu (2 * j) (by omega) (by omega), hu (2 * j + 1) (by omega) (by omega),
    ht j h1 hj]

/-- Hashing the parent of `m` leaves the path above that parent. -/
theorem HashedBeside.step (ht : HashedBeside pair a m t) (hm : 2 ≤ m)
    (hparent : u (m / 2) = pair (t (2 * (m / 2))) (t (2 * (m / 2) + 1)))
    (hu : ∀ j, 1 ≤ j → j ≠ m / 2 → u j = t j) : HashedBeside pair a (m / 2) u := by
  intro j h1 hj habove
  have hgrandparent := habove 0
  by_cases hself : j = m / 2
  · rw [hself, hparent, hu _ (by omega) (by omega), hu _ (by omega) (by omega)]
  · -- any other position was not above `m` either
    have hbeside : ∀ i, j ≠ m / 2 ^ (i + 1) := by
      intro i
      cases i with
      | zero => rwa [pow_one]
      | succ i =>
        have hi := habove i
        rwa [Nat.div_div_eq_div_mul, ← pow_succ'] at hi
    rw [hu j h1 hself, ht j h1 hj hbeside, hu _ (by omega) (by omega), hu _ (by omega) (by omega)]

theorem HashedBeside.isHashed (ht : HashedBeside pair a 1 t) : IsHashed pair a t := by
  intro j h1 hj
  apply ht j h1 hj
  intro i
  rw [Nat.div_eq_of_lt (Nat.one_lt_two_pow (Nat.succ_ne_zero i))]
  omega

/-! ### Level-order arrays -/

section

variable [Inhabited α]
variable {nodes : List α}

/-- The label of position `m` in a level-order array; the root is its first cell. -/
def label (nodes : List α) (m : ℕ) : α := nodes.getD (m - 1) default

/-- Writing the cell of position `p` relabels that position. -/
theorem label_set {p : ℕ} (hp : 1 ≤ p) (hlen : p - 1 < nodes.length) (x : α) (hj : 1 ≤ j) :
    label (nodes.set (p - 1) x) j = if j = p then x else label nodes j := by
  unfold label
  rw [getD_eq_getElem?_getD, getD_eq_getElem?_getD]
  split_ifs with hjp
  · rw [hjp, getElem?_set_self hlen, Option.getD_some]
  · rw [getElem?_set_ne (by omega)]

/-- Arrays of one length with the same labels are equal. -/
theorem eq_of_label_eq {nodes' : List α} (hlen : nodes.length = nodes'.length)
    (h : ∀ m, 1 ≤ m → m ≤ nodes.length → label nodes m = label nodes' m) : nodes = nodes' := by
  refine ext_getElem hlen fun i hi hi' => ?_
  have hlabel := h (i + 1) (by omega) (by omega)
  unfold label at hlabel
  simpa [getElem?_eq_getElem hi,
    getElem?_eq_getElem hi'] using hlabel

variable (pair) in
/-- Fill cells `n - 1, …, 0` in this order, each from its two children. -/
def hashUp : ℕ → List α → List α
  | 0, nodes => nodes
  | i + 1, nodes =>
    hashUp i (nodes.set i (pair (nodes.getD (2 * i + 1) default)
      (nodes.getD (2 * i + 2) default)))

@[simp] theorem length_hashUp (n : ℕ) (nodes : List α) :
    (hashUp pair n nodes).length = nodes.length := by
  induction n generalizing nodes with
  | zero => rfl
  | succ n ih => simp [hashUp, ih]

/-- Filling the first `n` cells leaves the others alone. -/
theorem getD_hashUp_of_le {n : ℕ} (nodes : List α) (hj : n ≤ j) (d : α) :
    (hashUp pair n nodes).getD j d = nodes.getD j d := by
  induction n generalizing nodes with
  | zero => rfl
  | succ n ih =>
    rw [hashUp, ih _ (by omega)]
    simp [getElem?_set_ne (show n ≠ j by omega)]

/-- Each filled cell holds `pair` of its children's cells. -/
theorem getD_hashUp {n i : ℕ} (nodes : List α) (hi : i < n) (hn : n ≤ nodes.length) :
    (hashUp pair n nodes).getD i default = pair ((hashUp pair n nodes).getD (2 * i + 1) default)
        ((hashUp pair n nodes).getD (2 * i + 2) default) := by
  induction n generalizing nodes with
  | zero => omega
  | succ n ih =>
    rw [hashUp]
    rcases lt_or_ge i n with hlt | hge
    · exact ih _ hlt (by simp; omega)
    · obtain rfl : i = n := by omega
      rw [getD_hashUp_of_le _ le_rfl, getD_hashUp_of_le _ (by omega),
        getD_hashUp_of_le _ (by omega)]
      simp [getElem?_set_ne (show i ≠ 2 * i + 1 by omega),
        getElem?_set_ne (show i ≠ 2 * i + 2 by omega),
        getElem?_set_self (show i < nodes.length by omega)]

/-- Filling all inner cells of an array of height `a` gives a hashed tree. -/
theorem hashUp_isHashed (hlen : nodes.length = 2 ^ (a + 1) - 1) :
    IsHashed pair a (label (hashUp pair (2 ^ a - 1) nodes)) := by
  intro m h1 hm
  unfold label
  rw [getD_hashUp nodes (i := m - 1) (by omega) (by omega),
    show 2 * (m - 1) + 1 = 2 * m - 1 by omega, show 2 * (m - 1) + 2 = 2 * m + 1 - 1 by omega]

theorem hashUp_leaf (nodes : List α) (i : ℕ) :
    label (hashUp pair (2 ^ a - 1) nodes) (2 ^ a + i) = nodes.getD (2 ^ a - 1 + i) default := by
  have hone := Nat.two_pow_pos a
  rw [label, getD_hashUp_of_le _ (by omega), show 2 ^ a + i - 1 = 2 ^ a - 1 + i by omega]

end

/-! ### The frontier of a set of leaves -/

section

variable {D : Set ℕ} {p q : ℕ}

/-- Position `q` lies in the subtree of position `p`. -/
def Under (p q : ℕ) : Prop := ∃ i, q / 2 ^ i = p

/-- A leaf of `D` lies under the position. -/
def Reached (D : Set ℕ) (p : ℕ) : Prop := ∃ q ∈ D, Under p q

/-- The position is down to row `a` and not reached, although its parent is. -/
def Frontier (a : ℕ) (D : Set ℕ) (p : ℕ) : Prop :=
  p < 2 ^ (a + 1) ∧ ¬ Reached D p ∧ Reached D (p / 2)

theorem Reached.of_under (hq : Reached D q) (h : Under p q) : Reached D p := by
  obtain ⟨x, hx, i, rfl⟩ := hq
  obtain ⟨j, rfl⟩ := h
  exact ⟨x, hx, i + j, by rw [pow_add, Nat.div_div_eq_div_mul]⟩

/-- A reached position above the leaf row has a reached child. -/
theorem Reached.child (hD : ∀ x ∈ D, 2 ^ a ≤ x) (hp : p < 2 ^ a) (h : Reached D p) :
    ∃ c, Reached D c ∧ c / 2 = p := by
  obtain ⟨x, hx, i, rfl⟩ := h
  cases i with
  | zero =>
    rw [pow_zero, Nat.div_one] at hp
    exact absurd hp (hD x hx).not_gt
  | succ i => exact ⟨x / 2 ^ i, ⟨x, hx, i, rfl⟩, by rw [pow_succ, Nat.div_div_eq_div_mul]⟩

/-- In the leaf row only the leaves themselves are reached. -/
theorem reached_iff_mem (hD : ∀ x ∈ D, x < 2 ^ (a + 1)) (hp : 2 ^ a ≤ p) :
    Reached D p ↔ p ∈ D := by
  refine ⟨?_, fun h => ⟨p, h, 0, Nat.div_one p⟩⟩
  rintro ⟨x, hx, i, rfl⟩
  cases i with
  | zero => rwa [pow_zero, Nat.div_one]
  | succ i =>
    have hhalf : x / 2 ^ (i + 1) ≤ x / 2 :=
      Nat.div_le_div_left (Nat.le_self_pow i.succ_ne_zero 2) two_pos
    have hlt := hD x hx
    omega

/-- A position that is not reached lies under exactly one position of the frontier: below its
first reached ancestor. -/
theorem existsUnique_frontier (hD : ∃ x ∈ D, x < 2 ^ (a + 1)) (hq : q < 2 ^ (a + 1))
    (hout : ¬ Reached D q) : ∃! p, Frontier a D p ∧ Under p q := by
  classical
  obtain ⟨x, hx, hlt⟩ := hD
  have htop : ∃ i, Reached D (q / 2 ^ i) :=
    ⟨a + 1, x, hx, a + 1, by rw [Nat.div_eq_of_lt hq, Nat.div_eq_of_lt hlt]⟩
  obtain ⟨i, hi⟩ : ∃ i, Nat.find htop = i + 1 :=
    Nat.exists_eq_succ_of_ne_zero fun h0 => hout (by simpa [h0] using Nat.find_spec htop)
  have hhalf (j : ℕ) : q / 2 ^ j / 2 = q / 2 ^ (j + 1) := by
    rw [pow_succ, Nat.div_div_eq_div_mul]
  refine ⟨q / 2 ^ i, ⟨⟨(Nat.div_le_self _ _).trans_lt hq, Nat.find_min htop (by omega), ?_⟩,
    i, rfl⟩, ?_⟩
  · rw [hhalf, ← hi]
    exact Nat.find_spec htop
  · rintro _ ⟨⟨-, hnot, hparent⟩, j, rfl⟩
    rw [hhalf] at hparent
    have hle : Nat.find htop ≤ j + 1 := Nat.find_min' htop hparent
    have hge : ¬ i + 1 ≤ j := fun h => hnot <| (Nat.find_spec htop).of_under
      ⟨j - (i + 1), by rw [hi, Nat.div_div_eq_div_mul, ← pow_add, Nat.add_sub_cancel' h]⟩
    rw [show j = i by omega]

/-- Positions of the frontier are not nested. -/
theorem Frontier.eq_of_under (hp : Frontier a D p) (hq : Frontier b D q) (h : Under p q) :
    p = q := by
  obtain ⟨i, rfl⟩ := h
  cases i with
  | zero => rw [pow_zero, Nat.div_one]
  | succ i =>
    exact absurd (hq.2.2.of_under ⟨i, by rw [pow_succ', Nat.div_div_eq_div_mul]⟩) hp.2.1

end

end ClawHdf5.LevelOrder
