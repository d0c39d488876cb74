import Mathlib.Data.List.GetD
import Mathlib.Data.List.Forall2
import Mathlib.Order.Basic

/-!
# Fallible computations

Code that may return early with an error, as `Except`, or also stop in a panic, as `Except`
over `Halt`. The rules here invert a successful run: a sequence succeeded when each part
did, a guard when its condition was false, and a loop when every iteration did.
-/

namespace ClawHdf5.Fallible

open List Except

variable {ε α β : Type}
variable {x : Except ε α} {a : α} {e : ε} {xs : List α} {p : α → Except ε Bool}
  {f : α → Except ε (Option β)} {ys : List β} {R : α → β → Prop}

theorem bind_ok_iff {first : Except ε α} {rest : α → Except ε β} {result : β} :
    (first >>= rest) = .ok result ↔ ∃ value, first = .ok value ∧ rest value = .ok result := by
  rcases first with e | value
  · constructor
    · rintro ⟨⟩
    · rintro ⟨_, ⟨⟩, _⟩
  · constructor
    · intro h
      exact ⟨value, rfl, h⟩
    · rintro ⟨_, ⟨rfl⟩, h⟩
      exact h

@[simp] theorem ok_bind (value : α) (rest : α → Except ε β) :
    ((.ok value : Except ε α) >>= rest) = rest value := rfl

theorem error_bind (e : ε) (rest : α → Except ε β) : (error e >>= rest) = .error e := rfl

theorem exists_ok_of_map_eq {f : α → β} {b : β} (h : f <$> x = .ok b) :
    ∃ a, x = .ok a ∧ f a = b := by
  cases x with
  | error e => cases h
  | ok a => exact ⟨a, rfl, ok.inj h⟩

/-- A property of the value of a run is decided by running. -/
instance decidableExistsOk (x : Except ε α) (P : α → Prop) [DecidablePred P] :
    Decidable (∃ a, x = .ok a ∧ P a) :=
  match x with
  | .ok a => decidable_of_iff (P a)
      ⟨fun h => ⟨a, rfl, h⟩, fun ⟨_, heq, h⟩ => Except.ok.inj heq ▸ h⟩
  | .error _ => isFalse fun ⟨_, heq, _⟩ => nomatch heq

instance decidableForallOk (x : Except ε α) (P : α → Prop) [DecidablePred P] :
    Decidable (∀ a, x = .ok a → P a) :=
  match x with
  | .ok a => decidable_of_iff (P a)
      ⟨fun h _ heq => Except.ok.inj heq ▸ h, fun h => h a rfl⟩
  | .error _ => isTrue fun _ heq => nomatch heq

@[simp] theorem mapError_eq_ok {δ : Type} {f : ε → δ} : x.mapError f = .ok a ↔ x = .ok a := by
  cases x <;> simp [Except.mapError]

/-- Return early with `e` when `c` holds. -/
def reject (c : Prop) [Decidable c] (e : ε) : Except ε Unit := if c then .error e else .ok ()

@[simp] theorem reject_eq_ok {c : Prop} [Decidable c] {u : Unit} : reject c e = .ok u ↔ ¬ c := by
  unfold reject
  split_ifs with h <;> simp [h]

theorem reject_of_not {c : Prop} [Decidable c] (h : ¬ c) : reject c e = .ok () := if_neg h

theorem reject_bind {c : Prop} [Decidable c] (h : ¬ c) (rest : Unit → Except ε α) :
    (reject c e >>= rest) = rest () := by
  rw [reject_of_not h, ok_bind]

/-- Return the error `e` when there is no value. -/
def okOr (e : ε) : Option α → Except ε α
  | none => .error e
  | some a => .ok a

@[simp] theorem okOr_eq_ok {o : Option α} : okOr e o = .ok a ↔ o = some a := by
  cases o <;> simp [okOr]

/-- How code stops without a result: it returns an error, or it panics. -/
inductive Halt (ε : Type)
  | error (e : ε)
  | panic
  deriving DecidableEq

/-- Run code that only returns errors where a panic is possible. -/
def returning : Except ε α → Except (Halt ε) α
  | .ok a => .ok a
  | .error e => .error (.error e)

@[simp] theorem returning_eq_ok : returning x = .ok a ↔ x = .ok a := by
  cases x <;> simp [returning]

/-- Slice access. An index past the end panics. -/
def index (xs : List α) (i : ℕ) : Except (Halt ε) α := okOr .panic xs[i]?

theorem lt_of_getElem? {i : ℕ} (h : xs[i]? = some a) : i < xs.length :=
  (List.getElem?_eq_some_iff.mp h).1

@[simp] theorem index_eq_ok {i : ℕ} : (index xs i : Except (Halt ε) α) = .ok a ↔ xs[i]? = some a :=
  okOr_eq_ok

theorem index_ok {i : ℕ} (h : i < xs.length) : ∃ a, (index xs i : Except (Halt ε) α) = .ok a :=
  ⟨xs[i], index_eq_ok.mpr (getElem?_eq_getElem h)⟩

/-- Whether every element passes a test. The loop stops at the first that does not. -/
def every (p : α → Except ε Bool) : List α → Except ε Bool
  | [] => .ok true
  | x :: xs => do
    let pass ← p x
    if pass then every p xs else .ok false

theorem every_eq_ok_true : every p xs = .ok true ↔ ∀ x ∈ xs, p x = .ok true := by
  induction xs with
  | nil => simp [every]
  | cons x xs ih =>
    rw [every, bind_ok_iff, forall_mem_cons, ← ih]
    constructor
    · rintro ⟨pass, hpass, hrest⟩
      cases pass with
      | false => simp at hrest
      | true => exact ⟨hpass, by simpa using hrest⟩
    · rintro ⟨hx, hrest⟩
      exact ⟨true, hx, by simpa using hrest⟩

theorem every_ok (h : ∀ x ∈ xs, ∃ b, p x = .ok b) : ∃ b, every p xs = .ok b := by
  induction xs with
  | nil => exact ⟨true, rfl⟩
  | cons x xs ih =>
    obtain ⟨⟨pass, hpass⟩, hrest⟩ := forall_mem_cons.mp h
    rw [every, hpass]
    cases pass with
    | false => exact ⟨false, rfl⟩
    | true => exact ih hrest

/-- Keep the elements that pass a test, in order. -/
def keep (p : α → Except ε Bool) : List α → Except ε (List α)
  | [] => .ok []
  | x :: xs => do
    let pass ← p x
    let ys ← keep p xs
    .ok (if pass then x :: ys else ys)

/-- A sweep succeeds when every test does, and then filters. -/
theorem keep_eq_ok {ys : List α} : keep p xs = .ok ys ↔
      (∀ x ∈ xs, ∃ b, p x = .ok b) ∧ ys = xs.filter fun x => p x matches .ok true := by
  induction xs generalizing ys with
  | nil => simp [keep]
  | cons x xs ih =>
    simp only [keep, bind_ok_iff, ih, ok.injEq, forall_mem_cons]
    constructor
    · rintro ⟨b, hb, _, ⟨hall, rfl⟩, rfl⟩
      refine ⟨⟨⟨b, hb⟩, hall⟩, ?_⟩
      cases b <;> simp [hb]
    · rintro ⟨⟨⟨b, hb⟩, hall⟩, rfl⟩
      refine ⟨b, hb, _, ⟨hall, rfl⟩, ?_⟩
      cases b <;> simp [hb]

theorem mem_of_keep {ys : List α} (h : keep p xs = .ok ys) {y : α} :
    y ∈ ys ↔ y ∈ xs ∧ p y = .ok true := by
  rw [(keep_eq_ok.mp h).2, mem_filter]
  rcases p y with e | _ | _ <;> simp

/-- Collect one value for each element; an element without one ends the loop with `none`. -/
def collectSome (f : α → Except ε (Option β)) : List α → Except ε (Option (List β))
  | [] => .ok (some [])
  | x :: xs => do
    match ← f x with
    | none => .ok none
    | some y =>
      match ← collectSome f xs with
      | none => .ok none
      | some ys => .ok (some (y :: ys))

/-- The loop succeeds when every iteration does. -/
theorem collectSome_ok (h : ∀ x ∈ xs, ∃ y, f x = .ok y) : ∃ ys, collectSome f xs = .ok ys := by
  induction xs with
  | nil => exact ⟨_, rfl⟩
  | cons x xs ih =>
    obtain ⟨⟨y, hy⟩, hxs⟩ := forall_mem_cons.mp h
    obtain ⟨ys, hys⟩ := ih hxs
    rw [collectSome, hy]
    cases y with
    | none => exact ⟨_, rfl⟩
    | some y =>
      simp only [hys]
      cases ys <;> exact ⟨_, rfl⟩

/-- A loop that ended without collecting was ended by some element. -/
theorem collectSome_none (h : collectSome f xs = .ok none) : ∃ x ∈ xs, f x = .ok none := by
  induction xs with
  | nil => simp [collectSome] at h
  | cons x xs ih =>
    rw [collectSome, bind_ok_iff] at h
    obtain ⟨y, hy, h⟩ := h
    cases y with
    | none => exact ⟨x, mem_cons_self, hy⟩
    | some y =>
      obtain ⟨ys, hys, h⟩ := bind_ok_iff.mp h
      cases ys with
      | some ys => simp at h
      | none =>
        obtain ⟨z, hz, hnone⟩ := ih hys
        exact ⟨z, mem_cons_of_mem x hz, hnone⟩

/-- A loop that collected found a value for every element. -/
theorem collectSome_some (h : collectSome f xs = .ok (some ys)) :
    Forall₂ (fun x y => f x = .ok (some y)) xs ys := by
  induction xs generalizing ys with
  | nil =>
    simp only [collectSome, ok.injEq, Option.some.injEq] at h
    exact h ▸ .nil
  | cons x xs ih =>
    rw [collectSome, bind_ok_iff] at h
    obtain ⟨y, hy, h⟩ := h
    cases y with
    | none => simp at h
    | some y =>
      obtain ⟨zs, hzs, h⟩ := bind_ok_iff.mp h
      cases zs with
      | none => simp at h
      | some zs =>
        simp only [ok.injEq, Option.some.injEq] at h
        exact h ▸ .cons hy (ih hzs)

theorem forall₂_iff_getElem? : Forall₂ R xs ys ↔
      xs.length = ys.length ∧ ∀ (i : ℕ) x y, xs[i]? = some x → ys[i]? = some y → R x y := by
  rw [forall₂_iff_get]
  refine and_congr_right fun _ => ⟨fun h i x y hx hy => ?_, fun h i hx hy => ?_⟩
  · obtain ⟨hi, rfl⟩ := List.getElem?_eq_some_iff.mp hx
    obtain ⟨hi', rfl⟩ := List.getElem?_eq_some_iff.mp hy
    exact h i hi hi'
  · exact h i _ _ (getElem?_eq_getElem hx) (getElem?_eq_getElem hy)

theorem forall₂_iff_getD (a : α) (b : β) : Forall₂ R xs ys ↔
      xs.length = ys.length ∧ ∀ i < xs.length, R (xs.getD i a) (ys.getD i b) := by
  rw [forall₂_iff_get]
  refine and_congr_right fun hlen => ⟨fun h i hi => ?_, fun h i hx hy => ?_⟩
  · rw [getD_eq_getElem _ _ hi, getD_eq_getElem _ _ (hlen ▸ hi)]
    exact h i hi _
  · have hR := h i hx
    rwa [getD_eq_getElem _ _ hx, getD_eq_getElem _ _ hy] at hR

theorem exists_of_mem_right {y : β} (h : Forall₂ R xs ys) (hy : y ∈ ys) : ∃ x ∈ xs, R x y := by
  induction h with
  | nil => cases hy
  | cons hxy _ ih =>
    rcases mem_cons.mp hy with rfl | hy
    · exact ⟨_, mem_cons_self, hxy⟩
    · obtain ⟨x, hx, hR⟩ := ih hy
      exact ⟨x, mem_cons_of_mem _ hx, hR⟩

/-- A loop over the first `n` indices that collected. -/
theorem collectSome_range {f : ℕ → Except ε (Option β)} {n : ℕ} (b : β)
    (h : collectSome f (range n) = .ok (some ys)) :
    ys.length = n ∧ ∀ i < n, f i = .ok (some (ys.getD i b)) := by
  obtain ⟨hlen, hall⟩ := (forall₂_iff_getD 0 b).mp (collectSome_some h)
  rw [length_range] at hlen hall
  refine ⟨hlen.symm, fun i hi => ?_⟩
  have hread := hall i hi
  rwa [getD_eq_getElem _ _ (length_range.symm ▸ hi), getElem_range] at hread

/-- A loop over the first `n` indices collects values with a property exactly when every iteration
finds one. -/
theorem collectSome_range_iff {f : ℕ → Except ε (Option β)} {n : ℕ} {r : Option (List β)}
    {P : ℕ → β → Prop} {b : β} (h : collectSome f (range n) = .ok r) :
    (∃ ys, r = some ys ∧ ys.length = n ∧ ∀ i < n, P i (ys.getD i b)) ↔
      ∀ i < n, ∀ y, f i = .ok y → ∃ z, y = some z ∧ P i z := by
  constructor
  · rintro ⟨ys, rfl, -, hP⟩ i hi y hy
    obtain rfl := ok.inj (((collectSome_range b h).2 i hi).symm.trans hy)
    exact ⟨_, rfl, hP i hi⟩
  · intro hall
    cases r with
    | none =>
      obtain ⟨i, hi, hnone⟩ := collectSome_none h
      obtain ⟨z, hz, -⟩ := hall i (mem_range.mp hi) none hnone
      exact absurd hz (by simp)
    | some ys =>
      obtain ⟨hlen, hread⟩ := collectSome_range b h
      refine ⟨ys, rfl, hlen, fun i hi => ?_⟩
      obtain ⟨z, hz, hP⟩ := hall i hi _ (hread i hi)
      rwa [Option.some.inj hz]

/-- Run `f` on each element and collect what it finds. -/
def collectFound (f : α → Except ε (Option β)) : List α → Except ε (List β)
  | [] => .ok []
  | x :: xs => do
    let found ← f x
    let rest ← collectFound f xs
    .ok (found.toList ++ rest)

theorem collectFound_eq {g : α → Option β} (h : ∀ x ∈ xs, f x = .ok (g x)) :
    collectFound f xs = .ok (xs.filterMap g) := by
  induction xs with
  | nil => rfl
  | cons x xs ih =>
    obtain ⟨hx, hxs⟩ := forall_mem_cons.mp h
    rw [collectFound, hx, ih hxs, filterMap_cons]
    cases g x <;> rfl

theorem length_collectFound_le (h : collectFound f xs = .ok ys) : ys.length ≤ xs.length := by
  induction xs generalizing ys with
  | nil =>
    rw [← ok.inj h]
    exact Nat.zero_le _
  | cons x xs ih =>
    simp only [collectFound, bind_ok_iff, ok.injEq] at h
    obtain ⟨found, -, rest, hrest, rfl⟩ := h
    have hfound : found.toList.length ≤ 1 := by cases found <;> simp
    have hle := ih hrest
    rw [length_append, length_cons]
    omega

/-- What a loop found, some iteration found. -/
theorem exists_of_mem_collectFound (h : collectFound f xs = .ok ys) {y : β} (hy : y ∈ ys) :
    ∃ x ∈ xs, f x = .ok (some y) := by
  induction xs generalizing ys with
  | nil =>
    rw [← ok.inj h] at hy
    cases hy
  | cons x xs ih =>
    simp only [collectFound, bind_ok_iff, ok.injEq] at h
    obtain ⟨found, hfound, rest, hrest, rfl⟩ := h
    rcases mem_append.mp hy with hy | hy
    · obtain rfl := Option.mem_toList.mp hy
      exact ⟨x, mem_cons_self, hfound⟩
    · obtain ⟨z, hz, hfz⟩ := ih hrest hy
      exact ⟨z, mem_cons_of_mem x hz, hfz⟩

/-- A loop over elements in another order finds the same values, in another order. -/
theorem collectFound_perm {xs' : List α} (h : Forall₂ (fun x y => f x = .ok (some y)) xs ys)
    (hperm : xs'.Perm xs) :
    ∃ out, collectFound f xs' = .ok out ∧ out.Perm ys := by
  obtain ⟨g, hg⟩ : ∃ g : α → Option β, ∀ x o, f x = .ok o → g x = o :=
    ⟨fun x => match f x with | .ok o => o | .error _ => none, fun x o hx => by simp only [hx]⟩
  have hfound : ∀ x ∈ xs', f x = .ok (g x) := by
    intro x hx
    obtain ⟨y, -, hy⟩ := exists_of_mem_right h.flip (hperm.mem_iff.mp hx)
    rw [hy, hg x _ hy]
  have hall : xs.filterMap g = ys := by
    clear hfound hperm
    induction h with
    | nil => rfl
    | cons hxy _ ih => rw [filterMap_cons, hg _ _ hxy, ih]
  exact ⟨_, collectFound_eq hfound, hall ▸ hperm.filterMap g⟩

theorem mapM_eq {f : α → Except ε β} {g : α → β} (h : ∀ x ∈ xs, f x = .ok (g x)) :
    xs.mapM f = .ok (xs.map g) := by
  induction xs with
  | nil => rfl
  | cons x xs ih =>
    obtain ⟨hx, hxs⟩ := forall_mem_cons.mp h
    rw [mapM_cons, hx, ih hxs]
    rfl

/-- A loop succeeds when every iteration does, and collects their results. -/
theorem mapM_eq_ok {f : α → Except ε β} :
    xs.mapM f = .ok ys ↔ Forall₂ (fun x y => f x = .ok y) xs ys := by
  induction xs generalizing ys with
  | nil =>
    rw [forall₂_nil_left_iff]
    exact ⟨fun h => (ok.inj h).symm, fun h => h ▸ rfl⟩
  | cons x xs ih =>
    simp only [mapM_cons, bind_ok_iff, ih, forall₂_cons_left_iff]
    constructor
    · rintro ⟨y, hy, rest, hrest, h⟩
      exact ⟨y, rest, hy, hrest, (ok.inj h).symm⟩
    · rintro ⟨y, rest, hy, hrest, rfl⟩
      exact ⟨y, hy, rest, hrest, rfl⟩

theorem mapM_congr_left {f g : α → Except ε β} (h : ∀ x ∈ xs, f x = g x) :
    xs.mapM f = xs.mapM g := by
  induction xs with
  | nil => rfl
  | cons x xs ih =>
    obtain ⟨hx, hxs⟩ := forall_mem_cons.mp h
    rw [mapM_cons, mapM_cons, hx, ih hxs]

theorem exists_mapM_eq_ok {f : α → Except ε β} :
    (∃ ys, xs.mapM f = .ok ys) ↔ ∀ x ∈ xs, ∃ y, f x = .ok y := by
  simp only [mapM_eq_ok]
  induction xs with
  | nil => exact ⟨fun _ _ hx => (nomatch hx), fun _ => ⟨[], .nil⟩⟩
  | cons x xs ih =>
    rw [forall_mem_cons, ← ih]
    constructor
    · rintro ⟨_, _ | ⟨hy, hys⟩⟩
      exact ⟨⟨_, hy⟩, _, hys⟩
    · rintro ⟨⟨y, hy⟩, ys, hys⟩
      exact ⟨y :: ys, .cons hy hys⟩

/-- Run `f` on each element with its index, counted from `k`, and collect the results. -/
def traverseIdx (f : ℕ → α → Except ε β) : ℕ → List α → Except ε (List β)
  | _, [] => .ok []
  | k, x :: xs => do
    let y ← f k x
    let ys ← traverseIdx f (k + 1) xs
    .ok (y :: ys)

/-- When an iteration succeeds exactly under `P` and then yields `g`, so does the loop. -/
theorem traverseIdx_eq_ok {f : ℕ → α → Except ε β} {P : ℕ → α → Prop} {g : ℕ → α → β}
    (hf : ∀ i x y, f i x = .ok y ↔ P i x ∧ y = g i x) {k : ℕ} :
    traverseIdx f k xs = .ok ys ↔
      (∀ i (h : i < xs.length), P (k + i) xs[i]) ∧ ys = xs.mapIdx fun i x => g (k + i) x := by
  induction xs generalizing k ys with
  | nil => simp [traverseIdx]
  | cons x xs ih =>
    simp only [traverseIdx, bind_ok_iff, hf, ih, ok.injEq, length_cons]
    constructor
    · rintro ⟨_, ⟨hx, rfl⟩, _, ⟨hxs, rfl⟩, rfl⟩
      refine ⟨fun i hi => ?_, by simp [Nat.add_assoc, Nat.add_comm 1]⟩
      cases i with
      | zero => exact hx
      | succ i =>
        have := hxs i (by omega)
        rwa [Nat.add_assoc, Nat.add_comm 1 i] at this
    · rintro ⟨hall, rfl⟩
      refine ⟨_, ⟨hall 0 (by omega), rfl⟩, _, ⟨fun i hi => ?_, rfl⟩, ?_⟩
      · have := hall (i + 1) (by omega)
        simpa [Nat.add_assoc, Nat.add_comm 1 i] using this
      · simp [Nat.add_assoc, Nat.add_comm 1]

end ClawHdf5.Fallible
