import ClawHdf5.Math.Bytes
import ClawHdf5.Math.Fallible

/-!
# Logs of self-delimiting records

A log is a byte string to which records are appended. What is written for a record may depend
on the records before it, through a state that each record advances. A reader takes one record
after the other from the front. It stops where the log ends, and also inside a record that was
not written to its end.
-/

namespace ClawHdf5.RecordLog

open Fallible List

variable {σ ρ ε : Type}

/-- Take records from the front of a log until the reader stops, at most `fuel` of them. The
result has the records and the state behind them. -/
def collect (next : σ → Bytes → Except ε (Option (ρ × σ × Bytes))) :
    ℕ → σ → Bytes → Except ε (List ρ × σ)
  | 0, s, _ => .ok ([], s)
  | fuel + 1, s, data => do
    match ← next s data with
    | none => pure ([], s)
    | some (r, s', rest) =>
      let (rs, t) ← collect next fuel s' rest
      pure (r :: rs, t)

section

variable (encode : σ → ρ → Bytes) (advance : σ → ρ → σ)

/-- The bytes of a list of records written one after the other. -/
def encodeAll (s : σ) : List ρ → Bytes
  | [] => []
  | r :: rs => encode s r ++ encodeAll (advance s r) rs

/-- The state behind a list of records. -/
def advanceAll (s : σ) (rs : List ρ) : σ := rs.foldl advance s

/-- The number of records of a log that lie wholly in its first `n` bytes. -/
def wholeCount (s : σ) (n : ℕ) : List ρ → ℕ
  | [] => 0
  | r :: rs =>
    if (encode s r).length ≤ n then
      wholeCount (advance s r) (n - (encode s r).length) rs + 1
    else 0

variable {encode advance}

@[simp] theorem advanceAll_cons (s : σ) (r : ρ) (rs : List ρ) :
    advanceAll advance s (r :: rs) = advanceAll advance (advance s r) rs := rfl

@[simp] theorem advanceAll_append (s : σ) (rs ts : List ρ) :
    advanceAll advance s (rs ++ ts) = advanceAll advance (advanceAll advance s rs) ts :=
  foldl_append

theorem encodeAll_append (s : σ) (rs ts : List ρ) : encodeAll encode advance s (rs ++ ts) =
      encodeAll encode advance s rs ++ encodeAll encode advance (advanceAll advance s rs) ts := by
  induction rs generalizing s with
  | nil => rfl
  | cons r rs ih => rw [cons_append, encodeAll, encodeAll, ih, append_assoc]; rfl

theorem wholeCount_le (s : σ) (n : ℕ) (rs : List ρ) :
    wholeCount encode advance s n rs ≤ rs.length := by
  induction rs generalizing s n with
  | nil => exact le_refl 0
  | cons r rs ih =>
    rw [wholeCount]
    split
    · exact Nat.succ_le_succ (ih _ _)
    · exact zero_le

theorem wholeCount_of_length_le (s : σ) (n : ℕ) (rs : List ρ)
    (h : (encodeAll encode advance s rs).length ≤ n) :
    wholeCount encode advance s n rs = rs.length := by
  induction rs generalizing s n with
  | nil => rfl
  | cons r rs ih =>
    rw [encodeAll, length_append] at h
    rw [wholeCount, if_pos (by omega), ih _ _ (by omega), length_cons]

/-- The whole records of a shorter prefix are found among those of a longer one. -/
theorem take_wholeCount_min (s : σ) (n m : ℕ) (rs : List ρ) :
    rs.take (wholeCount encode advance s (min n m) rs) =
      (rs.take (wholeCount encode advance s m rs)).take
        (wholeCount encode advance s n (rs.take (wholeCount encode advance s m rs))) := by
  induction rs generalizing s n m with
  | nil => rfl
  | cons r rs ih =>
    by_cases hm : (encode s r).length ≤ m
    · rw [wholeCount, wholeCount, if_pos hm, take_succ_cons, wholeCount]
      by_cases hn : (encode s r).length ≤ n
      · rw [if_pos (le_min hn hm), if_pos hn, take_succ_cons, take_succ_cons,
          ← Nat.sub_min_sub_right, ih]
      · rw [if_neg fun h => hn (h.trans (min_le_left n m)), if_neg hn]
        rfl
    · rw [wholeCount, wholeCount, if_neg hm, if_neg fun h => hm (h.trans (min_le_right n m))]
      rfl

end

/-- The reader `next` takes a whole record that meets `Fits` from the front of any input and
stops inside of one. -/
structure Framed (next : σ → Bytes → Except ε (Option (ρ × σ × Bytes))) (encode : σ → ρ → Bytes)
    (advance : σ → ρ → σ) (Fits : ρ → Prop) : Prop where
  nonempty (s : σ) (r : ρ) : encode s r ≠ []
  take (s : σ) {r : ρ} (rest : Bytes) :
    Fits r → next s (encode s r ++ rest) = .ok (some (r, advance s r, rest))
  stop (s : σ) {r : ρ} {p : Bytes} :
    Fits r → p <+: encode s r → p ≠ encode s r → next s p = .ok none
  stop_nil (s : σ) : next s [] = .ok none

namespace Framed

variable {next : σ → Bytes → Except ε (Option (ρ × σ × Bytes))} {encode : σ → ρ → Bytes}
  {advance : σ → ρ → σ} {Fits : ρ → Prop}

theorem length_le_encodeAll (h : Framed next encode advance Fits) (s : σ) (rs : List ρ) :
    rs.length ≤ (encodeAll encode advance s rs).length := by
  induction rs generalizing s with
  | nil => exact le_refl 0
  | cons r rs ih =>
    have hpos := length_pos_iff.mpr (h.nonempty s r)
    have hrest := ih (advance s r)
    rw [encodeAll, length_append, length_cons]
    omega

theorem collect_of_stop {s : σ} {data : Bytes} (h : next s data = .ok none) (fuel : ℕ) :
    collect next fuel s data = .ok ([], s) := by
  cases fuel with
  | zero => rfl
  | succ fuel => rw [collect, h]; rfl

section

variable (h : Framed next encode advance Fits)
include h

/-- The reader takes the records a log starts with and continues behind them. -/
theorem collect_append {s : σ} {rs : List ρ} (hfits : ∀ r ∈ rs, Fits r) (tail : Bytes) (fuel : ℕ) :
    collect next (rs.length + fuel) s (encodeAll encode advance s rs ++ tail) =
      (fun p => (rs ++ p.1, p.2)) <$> collect next fuel (advanceAll advance s rs) tail := by
  induction rs generalizing s with
  | nil =>
    rw [length_nil, zero_add, advanceAll]
    exact (id_map (collect next fuel s tail)).symm
  | cons r rs ih =>
    have hr := h.take s (encodeAll encode advance (advance s r) rs ++ tail) (hfits r mem_cons_self)
    rw [length_cons, add_right_comm, collect, encodeAll, append_assoc, hr]
    simp only [ok_bind, advanceAll_cons]
    rw [ih fun t ht => hfits t (mem_cons_of_mem r ht)]
    cases collect next fuel (advanceAll advance (advance s r) rs) tail <;> rfl

/-- The reader takes all records of a log when it stops behind them. -/
theorem collect_of_tail {s : σ} {rs : List ρ} {tail : Bytes} (hfits : ∀ r ∈ rs, Fits r)
    (htail : next (advanceAll advance s rs) tail = .ok none) {n : ℕ} (hn : rs.length ≤ n) :
    collect next n s (encodeAll encode advance s rs ++ tail) =
      .ok (rs, advanceAll advance s rs) := by
  obtain ⟨fuel, rfl⟩ := Nat.exists_eq_add_of_le hn
  rw [h.collect_append hfits, collect_of_stop htail]
  show Except.ok (rs ++ [], _) = _
  rw [append_nil]

/-- A prefix of a log is its whole records and a part of the next one. -/
theorem exists_take_eq (s : σ) (n : ℕ) {rs : List ρ} (hfits : ∀ r ∈ rs, Fits r) :
    ∃ tail, (encodeAll encode advance s rs).take n =
        encodeAll encode advance s (rs.take (wholeCount encode advance s n rs)) ++ tail ∧
      next (advanceAll advance s (rs.take (wholeCount encode advance s n rs))) tail =
        .ok none := by
  induction rs generalizing s n with
  | nil => exact ⟨[], by simp [encodeAll], h.stop_nil _⟩
  | cons r rs ih =>
    rw [encodeAll, wholeCount]
    split
    case isTrue hle =>
      -- the first record is whole: the rest of the prefix is a prefix of the rest of the log
      obtain ⟨tail, htake, hstop⟩ :=
        ih (advance s r) (n - (encode s r).length) fun t ht => hfits t (mem_cons_of_mem r ht)
      refine ⟨tail, ?_, ?_⟩
      · rw [take_append, take_of_length_le hle, htake, take_succ_cons, encodeAll, append_assoc]
      · rwa [take_succ_cons]
    case isFalse hlt =>
      refine ⟨(encode s r).take n, ?_, ?_⟩
      · rw [take_append_of_le_length (by omega), take_zero, encodeAll, nil_append]
      · refine h.stop s (hfits r mem_cons_self) (List.take_prefix n _) fun heq => ?_
        have hlen := congrArg length heq
        rw [length_take] at hlen
        omega

/-- From a prefix of a log the reader takes the records that lie wholly in it. -/
theorem collect_take {s : σ} {rs : List ρ} (hfits : ∀ r ∈ rs, Fits r) (n : ℕ) {fuel : ℕ}
    (hfuel : ((encodeAll encode advance s rs).take n).length ≤ fuel) :
    collect next fuel s ((encodeAll encode advance s rs).take n) =
      .ok (rs.take (wholeCount encode advance s n rs),
        advanceAll advance s (rs.take (wholeCount encode advance s n rs))) := by
  obtain ⟨tail, htake, hstop⟩ := h.exists_take_eq s n hfits
  rw [htake, length_append] at hfuel
  have hlen := h.length_le_encodeAll s (rs.take (wholeCount encode advance s n rs))
  rw [htake]
  exact h.collect_of_tail (fun r hr => hfits r (mem_of_mem_take hr)) hstop (by omega)

end

end Framed

end ClawHdf5.RecordLog
