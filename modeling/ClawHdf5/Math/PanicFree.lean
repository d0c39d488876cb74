import ClawHdf5.Math.Fallible

/-!
# Code that does not panic

A computation that may panic is judged by whether it returns, with a value or with an error. The
rules follow the structure of the code: a sequence returns when its first part does and the rest
does on every value of it, and a loop when no iteration panics before one has returned an error.
-/

namespace ClawHdf5.Fallible

open List

variable {ε α β : Type}
variable {x : Except (Halt ε) α} {f : α → Except (Halt ε) β} {c : Prop} {e : ε} {xs : List α}

/-- A computation does not panic. -/
def Returns (x : Except (Halt ε) α) : Prop := x ≠ .error .panic

theorem returns_ok (a : α) : Returns (.ok a : Except (Halt ε) α) := nofun

theorem returns_error (e : ε) : Returns (.error (.error e) : Except (Halt ε) α) := nofun

theorem not_returns_panic : ¬Returns (.error .panic : Except (Halt ε) α) := fun h => h rfl

/-- A sequence returns when its first part does, and the rest does on every value of it. -/
theorem returns_bind : Returns (x >>= f) ↔ Returns x ∧ ∀ a, x = .ok a → Returns (f a) := by
  cases x with
  | ok a =>
    constructor
    · intro h
      exact ⟨returns_ok a, fun b hb => Except.ok.inj hb ▸ h⟩
    · intro h
      exact h.2 a rfl
  | error halt =>
    cases halt with
    | error e => exact ⟨fun _ => ⟨returns_error e, nofun⟩, fun _ => returns_error e⟩
    | panic => exact ⟨fun h => absurd rfl h, fun h => absurd rfl h.1⟩

theorem returns_reject_bind [Decidable c] {f : Unit → Except (Halt ε) β} :
    Returns (reject c (.error e) >>= f) ↔ (¬c → Returns (f ())) := by
  rw [returns_bind]
  constructor
  · intro h hc
    exact h.2 () (reject_of_not hc)
  · intro h
    refine ⟨?_, fun _ hok => h (reject_eq_ok.mp hok)⟩
    unfold reject
    split_ifs
    · exact returns_error e
    · exact returns_ok ()

theorem reject_bind_of [Decidable c] (h : c) (f : Unit → Except ε β) :
    (reject c e >>= f) = .error e := by
  rw [reject, if_pos h]
  rfl

theorem returns_map {f : α → β} : Returns (f <$> x) ↔ Returns x := by
  rcases x with ⟨_ | _⟩ | a
  · exact ⟨fun _ => nofun, fun _ => nofun⟩
  · exact ⟨fun h => absurd rfl h, fun h => absurd rfl h⟩
  · exact ⟨fun _ => nofun, fun _ => nofun⟩

theorem returns_index {i : ℕ} (h : i < xs.length) : Returns (index xs i : Except (Halt ε) α) := by
  obtain ⟨a, ha⟩ := index_ok h
  rw [ha]
  exact returns_ok a

/-- A loop returns when no iteration panics to which the ones before it let it come. -/
theorem returns_mapM : Returns (xs.mapM f) ↔
      ∀ before x after, xs = before ++ x :: after → (∀ y ∈ before, ∃ b, f y = .ok b) →
        Returns (f x) := by
  induction xs with
  | nil =>
    refine ⟨fun _ before x after h => ?_, fun _ => returns_ok []⟩
    exact absurd h.symm (by simp)
  | cons x xs ih =>
    rw [mapM_cons, returns_bind]
    constructor
    · rintro ⟨hx, hrest⟩ before y after h hbefore
      cases before with
      | nil =>
        obtain ⟨rfl, -⟩ := cons.inj h
        exact hx
      | cons z before =>
        obtain ⟨rfl, rfl⟩ := cons.inj h
        obtain ⟨⟨b, hb⟩, hbefore⟩ := forall_mem_cons.mp hbefore
        exact ih.mp (returns_bind.mp (hrest b hb)).1 before y after rfl hbefore
    · intro h
      refine ⟨h [] x xs rfl nofun, fun b hb => returns_bind.mpr ⟨ih.mpr ?_, ?_⟩⟩
      · intro before y after hxs hbefore
        refine h (x :: before) y after (by rw [hxs]; rfl) ?_
        exact forall_mem_cons.mpr ⟨⟨b, hb⟩, hbefore⟩
      · intro bs _
        exact returns_ok _

theorem returns_returning (x : Except ε α) : Returns (returning x) := by
  cases x with
  | ok a => exact returns_ok a
  | error e => exact returns_error e

theorem returns_returning_bind {x : Except ε α} :
    Returns (returning x >>= f) ↔ ∀ a, x = .ok a → Returns (f a) := by
  rw [returns_bind, and_iff_right (returns_returning x)]
  simp

/-- A loop over numbered elements returns when every iteration does. -/
theorem returns_traverseIdx {f : ℕ → α → Except (Halt ε) β} {k : ℕ}
    (h : ∀ i x, xs[i]? = some x → Returns (f (k + i) x)) : Returns (traverseIdx f k xs) := by
  induction xs generalizing k with
  | nil => exact returns_ok []
  | cons x xs ih =>
    refine returns_bind.mpr ⟨h 0 x rfl, fun y _ => returns_bind.mpr ⟨ih fun i z hz => ?_, ?_⟩⟩
    · have := h (i + 1) z hz
      rwa [Nat.add_assoc, Nat.add_comm 1 i]
    · exact fun ys _ => returns_ok _

/-- A loop that collects values returns when no iteration panics to which the ones before it let it
come. -/
theorem returns_collectSome {f : α → Except (Halt ε) (Option β)} : Returns (collectSome f xs) ↔
      ∀ (i : ℕ) x, xs[i]? = some x →
        (∀ j < i, ∀ y, xs[j]? = some y → ∃ b, f y = .ok (some b)) → Returns (f x) := by
  induction xs with
  | nil => exact ⟨fun _ i x hx => absurd hx (by simp), fun _ => returns_ok _⟩
  | cons x xs ih =>
    rw [collectSome, returns_bind]
    constructor
    · intro h i y hy hbefore
      cases i with
      | zero =>
        obtain rfl := Option.some.inj hy
        exact h.1
      | succ i =>
        obtain ⟨b, hb⟩ := hbefore 0 (Nat.succ_pos i) x rfl
        exact ih.mp (returns_bind.mp (h.2 (some b) hb)).1 i y hy
          fun j hj z hz => hbefore (j + 1) (Nat.succ_lt_succ hj) z hz
    · intro h
      refine ⟨h 0 x rfl fun j hj => absurd hj (Nat.not_lt_zero j), fun r hr => ?_⟩
      cases r with
      | none => exact returns_ok none
      | some b =>
        refine returns_bind.mpr ⟨ih.mpr fun i y hy hbefore => ?_, fun ys _ => ?_⟩
        · refine h (i + 1) y hy fun j hj z hz => ?_
          cases j with
          | zero => exact Option.some.inj hz ▸ ⟨b, hr⟩
          | succ j => exact hbefore j (Nat.lt_of_succ_lt_succ hj) z hz
        · cases ys with
          | none => exact returns_ok none
          | some ys => exact returns_ok _

theorem returns_collectSome_range {f : ℕ → Except (Halt ε) (Option β)} {n : ℕ} :
    Returns (collectSome f (range n)) ↔
      ∀ d < n, (∀ i < d, ∃ b, f i = .ok (some b)) → Returns (f d) := by
  rw [returns_collectSome]
  constructor
  · intro h d hd hbefore
    refine h d d (getElem?_range hd) fun i hi j hj => ?_
    rw [getElem?_range (Nat.lt_trans hi hd), Option.some.injEq] at hj
    exact hj ▸ hbefore i hi
  · intro h d x hx hbefore
    have hd : d < n := by
      have := (List.getElem?_eq_some_iff.mp hx).1
      rwa [length_range] at this
    rw [getElem?_range hd, Option.some.injEq] at hx
    rw [← hx]
    exact h d hd fun i hi => hbefore i hi i (getElem?_range (Nat.lt_trans hi hd))

theorem returns_keep {p : α → Except (Halt ε) Bool} (h : ∀ x ∈ xs, ∃ b, p x = .ok b) :
    Returns (keep p xs) := by
  rw [keep_eq_ok.mpr ⟨h, rfl⟩]
  exact returns_ok _

/-! ### Values that are returned -/

/-- A computation returns an error, or a value with property `P`. -/
def Yields (P : α → Prop) (x : Except (Halt ε) α) : Prop := Returns x ∧ ∀ a, x = .ok a → P a

section

variable {P : α → Prop} {Q : β → Prop}

theorem yields_ok {a : α} (h : P a) : Yields P (.ok a : Except (Halt ε) α) :=
  ⟨returns_ok a, fun _ heq => Except.ok.inj heq ▸ h⟩

theorem yields_error (e : ε) : Yields P (.error (.error e) : Except (Halt ε) α) :=
  ⟨returns_error e, nofun⟩

theorem Yields.bind (hx : Yields P x) (hf : ∀ a, P a → Yields Q (f a)) : Yields Q (x >>= f) := by
  refine ⟨returns_bind.mpr ⟨hx.1, fun a ha => (hf a (hx.2 a ha)).1⟩, fun b hb => ?_⟩
  obtain ⟨a, ha, hb⟩ := bind_ok_iff.mp hb
  exact (hf a (hx.2 a ha)).2 b hb

theorem yields_reject_bind [Decidable c] {f : Unit → Except (Halt ε) β} (hf : ¬c → Yields Q (f ()))
    : Yields Q (reject c (.error e) >>= f) := by
  by_cases hc : c
  · rw [reject_bind_of hc]
    exact yields_error e
  · rw [reject_of_not hc]
    exact hf hc

theorem yields_foldlM {f : β → α → Except (Halt ε) β} {b : β} (hb : Q b)
    (hstep : ∀ b, ∀ a ∈ xs, Q b → Yields Q (f b a)) : Yields Q (xs.foldlM f b) := by
  induction xs generalizing b with
  | nil => exact yields_ok hb
  | cons a xs ih =>
    refine (hstep b a mem_cons_self hb).bind fun c hc => ih hc fun d x hx => ?_
    exact hstep d x (mem_cons_of_mem a hx)

theorem yields_okOr {o : Option α} (h : ∀ a ∈ o, P a) :
    Yields P (okOr (.error e) o : Except (Halt ε) α) := by
  cases o with
  | none => exact yields_error e
  | some a => exact yields_ok (h a rfl)

end

/-! ### Values behind checks -/

/-- A computation returns an error exactly when `P` holds, and otherwise the value `a`. -/
def Checked (P : Prop) (a : α) (x : Except (Halt ε) α) : Prop :=
  (P ∧ ∃ e, x = .error (.error e)) ∨ (¬P ∧ x = .ok a)

section

variable {P Q : Prop} {a : α} {b : β} {x : Except (Halt ε) α}

theorem checked_ok (hP : ¬P) : Checked P a (.ok a : Except (Halt ε) α) := .inr ⟨hP, rfl⟩

theorem checked_reject_bind [Decidable c] {f : Unit → Except (Halt ε) β}
    (hf : ¬c → Checked Q b (f ())) : Checked (c ∨ Q) b (reject c (.error e) >>= f) := by
  by_cases hc : c
  · exact .inl ⟨.inl hc, e, reject_bind_of hc f⟩
  · rw [reject_bind hc, or_iff_right hc]
    exact hf hc

theorem checked_reject_ok [Decidable c] : Checked c b (reject c (.error e) >>= fun _ => .ok b) := by
  by_cases hc : c
  · exact .inl ⟨hc, e, reject_bind_of hc _⟩
  · exact .inr ⟨hc, by rw [reject_bind hc]⟩

namespace Checked

theorem congr (h : Checked P a x) (hPQ : P ↔ Q) : Checked Q a x := propext hPQ ▸ h

theorem error_iff (h : Checked P a x) : (∃ e, x = .error (.error e)) ↔ P := by
  rcases h with ⟨hP, he⟩ | ⟨hP, rfl⟩
  · exact iff_of_true he hP
  · exact iff_of_false nofun hP

theorem eq_ok (h : Checked P a x) (hP : ¬P) : x = .ok a := (h.resolve_left fun hx => hP hx.1).2

theorem bind (hx : Checked P a x) (hf : ¬P → Checked Q b (f a)) : Checked (P ∨ Q) b (x >>= f) := by
  rcases hx with ⟨hP, e, rfl⟩ | ⟨hP, rfl⟩
  · exact .inl ⟨.inl hP, e, rfl⟩
  · rw [or_iff_right hP]
    exact hf hP

theorem mapM {P : α → Prop} {g : α → β} (h : ∀ x ∈ xs, Checked (P x) (g x) (f x)) :
    Checked (∃ x ∈ xs, P x) (xs.map g) (xs.mapM f) := by
  induction xs with
  | nil => exact checked_ok nofun
  | cons x xs ih =>
    obtain ⟨hx, hxs⟩ := forall_mem_cons.mp h
    rw [mapM_cons]
    refine (hx.bind fun _ => ?_).congr (exists_mem_cons_iff P x xs).symm
    refine ((ih hxs).bind fun _ => ?_).congr (or_iff_left not_false)
    exact checked_ok not_false

end Checked

end

/-! ### Tasks that run side by side -/

/-- The result of tasks that end in the given order. The first failure stops the others. -/
def firstStop (tasks : List (Except (Halt ε) α)) (order : List ℕ) : Except (Halt ε) (List α) := do
  let _ ← (order.filterMap fun i => tasks[i]?).mapM id
  tasks.mapM id

/-- Tasks succeed in any order exactly if they succeed one after the other. -/
theorem firstStop_eq_ok {tasks : List (Except (Halt ε) α)} {order : List ℕ} {results : List α} :
    firstStop tasks order = .ok results ↔ tasks.mapM id = .ok results := by
  rw [firstStop, bind_ok_iff]
  constructor
  · rintro ⟨_, _, h⟩
    exact h
  · intro h
    have hall := exists_mapM_eq_ok.mp ⟨results, h⟩
    obtain ⟨ended, hended⟩ : ∃ ended, (order.filterMap fun i => tasks[i]?).mapM id = .ok ended := by
      refine exists_mapM_eq_ok.mpr fun task htask => ?_
      obtain ⟨i, -, hi⟩ := mem_filterMap.mp htask
      exact hall task (mem_of_getElem? hi)
    exact ⟨ended, hended, h⟩

/-- Tasks return in every order exactly if each of them does. -/
theorem returns_firstStop_iff {tasks : List (Except (Halt ε) α)} :
    (∀ order, order.Perm (range tasks.length) → Returns (firstStop tasks order)) ↔
      ∀ task ∈ tasks, Returns task := by
  constructor
  · intro h task htask hpanic
    obtain ⟨i, hi, rfl⟩ := mem_iff_getElem.mp htask
    -- the task that panics may be the first to end
    refine h (i :: (range tasks.length).erase i) (perm_cons_erase (mem_range.mpr hi)).symm ?_
    have hget : tasks[i]? = some (.error .panic) := by
      rw [getElem?_eq_getElem hi, hpanic]
    rw [firstStop, filterMap_cons, hget]
    rfl
  · intro h order _
    have hall (xs : List (Except (Halt ε) α)) (hxs : ∀ x ∈ xs, x ∈ tasks) : Returns (xs.mapM id) :=
      returns_mapM.mpr fun before x after heq _ => h x (hxs x (by simp [heq]))
    refine returns_bind.mpr ⟨hall _ fun x hx => ?_, fun _ _ => hall _ fun x hx => hx⟩
    obtain ⟨i, -, hi⟩ := mem_filterMap.mp hx
    exact mem_of_getElem? hi

end ClawHdf5.Fallible
