import ClawHdf5.Agent.Cache
import Mathlib.Data.List.Nodup
import Mathlib.Data.List.Perm.Subperm

/-!
# Searching the knowledge graph

Entities are found breadth first from a seed, along relations in either direction. Relations may
name entities that do not exist: such an endpoint is marked as visited, but not entered.
-/

namespace ClawHdf5.Agent

open List

/-- The state of a search: the identifiers seen, those to be expanded with their depth, and the
entities found. -/
structure BfsState where
  visited : List UInt64
  queue : List (UInt64 × ℕ)
  results : List (Entity × ℕ)

/-- What was found, from the seed on, in the order of its discovery. -/
def BfsState.found (seed : UInt64) (s : BfsState) : List (UInt64 × ℕ) :=
  (seed, 0) :: s.results.map fun p => (p.1.id, p.2)

namespace KnowledgeCache

section

variable (k : KnowledgeCache)

def getEntity (id : UInt64) : Option Entity := k.entities.find? (·.id == id)

/-- The other ends of the relations at an entity. -/
def neighbours (currentId : UInt64) : List UInt64 :=
  k.relations.filterMap fun r =>
    if r.src = currentId then some r.tgt else if r.tgt = currentId then some r.src else none

/-- Look at a neighbour of an entity at `depth`. -/
def bfsVisit (depth : ℕ) (s : BfsState) (id : UInt64) : BfsState :=
  if id ∈ s.visited then s
  else match k.getEntity id with
    | none => { s with visited := id :: s.visited }
    | some entity =>
      ⟨id :: s.visited, s.queue ++ [(id, depth + 1)], s.results ++ [(entity, depth + 1)]⟩

/-- Expand the queue, one identifier per unit of fuel. -/
def bfsLoop (maxDepth : ℕ) : ℕ → BfsState → BfsState
  | 0, s => s
  | fuel + 1, s =>
    match s.queue with
    | [] => s
    | (currentId, depth) :: queue =>
      let s := { s with queue }
      if depth ≥ maxDepth then bfsLoop maxDepth fuel s
      else bfsLoop maxDepth fuel ((k.neighbours currentId).foldl (k.bfsVisit depth) s)

/-- The entities around a seed, with their depth. -/
def bfsNeighbors (entityId : UInt64) (maxDepth : ℕ) : List (Entity × ℕ) :=
  (k.bfsLoop maxDepth (k.entities.length + 1) ⟨[entityId], [(entityId, 0)], []⟩).results

/-! ### Paths -/

def Has (id : UInt64) : Prop := ∃ e ∈ k.entities, e.id = id
  deriving Decidable

/-- A relation joins the two, in one direction or the other. -/
def Adjacent (x y : UInt64) : Prop :=
  ∃ r ∈ k.relations, r.src = x ∧ r.tgt = y ∨ r.tgt = x ∧ r.src = y

/-- `n` relations lead from the seed to `y`, over entities that exist. -/
inductive Path (seed : UInt64) : ℕ → UInt64 → Prop
  | nil : Path seed 0 seed
  | snoc {n : ℕ} {x y : UInt64} (path : Path seed n x) (inner : n = 0 ∨ k.Has x)
      (step : k.Adjacent x y) : Path seed (n + 1) y

/-- The length of the shortest path to `y`. -/
def IsDistance (seed : UInt64) (n : ℕ) (y : UInt64) : Prop :=
  k.Path seed n y ∧ ∀ m, k.Path seed m y → n ≤ m

end

variable {k : KnowledgeCache} {seed id : UInt64} {maxDepth depth : ℕ} {s : BfsState}
  {done : List (UInt64 × ℕ)}

theorem mem_neighbours {x y : UInt64} : y ∈ k.neighbours x ↔ k.Adjacent x y := by
  simp only [neighbours, Adjacent]
  grind

/-! ### The invariant -/

/-- The state of a search that has expanded `done`. -/
structure BfsInv (k : KnowledgeCache) (seed : UInt64) (maxDepth : ℕ) (done : List (UInt64 × ℕ))
    (s : BfsState) : Prop where
  split : s.found seed = done ++ s.queue
  sorted : (s.found seed).Pairwise (·.2 ≤ ·.2)
  nodup : ((s.found seed).map Prod.fst).Nodup
  visited : ∀ x, k.Has x → (x ∈ s.visited ↔ x ∈ (s.found seed).map Prod.fst)
  path : ∀ p ∈ s.found seed, k.Path seed p.2 p.1 ∧ p.2 ≤ maxDepth
  entity : ∀ p ∈ s.results, p.1 ∈ k.entities

/-- The neighbours of what was expanded are found, one level further down at the latest. -/
def Expanded (k : KnowledgeCache) (seed : UInt64) (maxDepth : ℕ) (done : List (UInt64 × ℕ))
    (s : BfsState) : Prop :=
  ∀ p ∈ done, p.2 < maxDepth → ∀ y, k.Adjacent p.1 y → k.Has y →
    ∃ d ≤ p.2 + 1, (y, d) ∈ s.found seed

/-- Looking at neighbours of an entity at `depth` loses nothing, and finds entities of the next
level only. -/
structure Visits (k : KnowledgeCache) (seed : UInt64) (maxDepth : ℕ) (done : List (UInt64 × ℕ))
    (depth : ℕ) (ids : List UInt64) (s s' : BfsState) : Prop where
  inv : BfsInv k seed maxDepth done s'
  depth_le : ∀ p ∈ s'.found seed, p.2 ≤ depth + 1
  found : s.found seed ⊆ s'.found seed
  visited : ids ++ s.visited ⊆ s'.visited

theorem BfsInv.visit (h : BfsInv k seed maxDepth done s)
    (hdepth : ∀ p ∈ s.found seed, p.2 ≤ depth + 1) (hpath : k.Path seed (depth + 1) id)
    (hmax : depth < maxDepth) :
    Visits k seed maxDepth done depth [id] s (k.bfsVisit depth s id) := by
  unfold bfsVisit
  split_ifs with hseen
  · exact ⟨h, hdepth, Subset.refl _, cons_subset.mpr ⟨hseen, Subset.refl _⟩⟩
  cases hget : k.getEntity id with
  | none =>
    refine ⟨{ h with visited := fun x hx => ?_ }, hdepth, Subset.refl _, Subset.refl _⟩
    have hne : x ≠ id := by
      obtain ⟨e, he, heq⟩ := hx
      simpa [heq] using find?_eq_none.mp hget e he
    rw [mem_cons, or_iff_right hne]
    exact h.visited x hx
  | some e =>
    have he := mem_of_find?_eq_some hget
    obtain rfl : e.id = id := by simpa using find?_some hget
    have hnew : BfsState.found seed ⟨e.id :: s.visited, s.queue ++ [(e.id, depth + 1)],
        s.results ++ [(e, depth + 1)]⟩ = s.found seed ++ [(e.id, depth + 1)] := by
      simp [BfsState.found]
    have hfresh := (h.visited e.id ⟨e, he, rfl⟩).not.mp hseen
    refine ⟨⟨?_, ?_, ?_, ?_, ?_, ?_⟩, ?_, ?_, Subset.refl _⟩
    · rw [hnew, h.split, append_assoc]
    · rw [hnew, pairwise_append]
      exact ⟨h.sorted, pairwise_singleton _ _, fun p hp q hq => mem_singleton.mp hq ▸ hdepth p hp⟩
    · rw [hnew, map_append, map_singleton, ← concat_eq_append]
      exact h.nodup.concat hfresh
    · intro x hx
      rw [hnew, mem_cons, h.visited x hx, or_comm]
      simp
    · rw [hnew]
      exact forall_mem_append.mpr ⟨h.path, forall_mem_singleton.mpr ⟨hpath, hmax⟩⟩
    · exact forall_mem_append.mpr ⟨h.entity, forall_mem_singleton.mpr he⟩
    · rw [hnew]
      exact forall_mem_append.mpr ⟨hdepth, forall_mem_singleton.mpr le_rfl⟩
    · rw [hnew]
      exact subset_append_left _ _

theorem BfsInv.visitAll {ids : List UInt64} (h : BfsInv k seed maxDepth done s)
    (hdepth : ∀ p ∈ s.found seed, p.2 ≤ depth + 1)
    (hpath : ∀ id ∈ ids, k.Path seed (depth + 1) id) (hmax : depth < maxDepth) :
    Visits k seed maxDepth done depth ids s (ids.foldl (k.bfsVisit depth) s) := by
  induction ids generalizing s with
  | nil => exact ⟨h, hdepth, Subset.refl _, Subset.refl _⟩
  | cons id ids ih =>
    obtain ⟨hid, hids⟩ := forall_mem_cons.mp hpath
    have hfirst := h.visit hdepth hid hmax
    have hrest := ih hfirst.inv hfirst.depth_le hids
    refine { hrest with found := Subset.trans hfirst.found hrest.found, visited := fun x hx => ?_ }
    have := @hfirst.visited x
    apply hrest.visited
    grind

/-- There are no more identifiers to be found than entities, beside the seed. -/
theorem BfsInv.length_found_le (h : BfsInv k seed maxDepth done s) :
    (s.found seed).length ≤ k.entities.length + 1 := by
  have hnodup := (nodup_cons.mp h.nodup).2
  rw [map_map] at hnodup
  have hsub : s.results.map (·.1.id) ⊆ k.entities.map (·.id) := by
    intro x hx
    obtain ⟨p, hp, rfl⟩ := mem_map.mp hx
    exact mem_map_of_mem (h.entity p hp)
  simpa [BfsState.found] using (hnodup.subperm hsub).length_le

/-- The loop ends with an empty queue, and everything found was expanded. -/
theorem BfsInv.loop {fuel : ℕ} (h : BfsInv k seed maxDepth done s)
    (hexpanded : Expanded k seed maxDepth done s)
    (hdepth : ∀ p ∈ s.found seed, ∀ q ∈ s.queue, p.2 ≤ q.2 + 1)
    (hfuel : k.entities.length + 1 ≤ done.length + fuel) :
    ∃ s', k.bfsLoop maxDepth fuel s = s' ∧ BfsInv k seed maxDepth (s'.found seed) s' ∧
      Expanded k seed maxDepth (s'.found seed) s' := by
  induction fuel generalizing s done with
  | zero =>
    have hle := h.length_found_le
    have hsplit := h.split
    have hqueue : s.queue = [] := by
      rw [hsplit, length_append] at hle
      exact length_eq_zero_iff.mp (by omega)
    rw [hqueue, append_nil] at hsplit
    exact ⟨s, rfl, hsplit ▸ h, hsplit ▸ hexpanded⟩
  | succ fuel ih =>
    obtain ⟨visited, queue, results⟩ := s
    cases queue with
    | nil =>
      have hsplit := h.split
      rw [append_nil] at hsplit
      exact ⟨_, rfl, hsplit ▸ h, hsplit ▸ hexpanded⟩
    | cons cur queue =>
      obtain ⟨currentId, depth⟩ := cur
      -- the head of the queue counts as expanded from here on
      have hpopped : BfsInv k seed maxDepth (done ++ [(currentId, depth)])
          ⟨visited, queue, results⟩ := { h with split := h.split.trans (append_cons ..) }
      have hle : ∀ p ∈ BfsState.found seed ⟨visited, queue, results⟩, p.2 ≤ depth + 1 :=
        fun p hp => hdepth p hp _ mem_cons_self
      have hnext {s' : BfsState} (h' : BfsInv k seed maxDepth (done ++ [(currentId, depth)]) s')
          (hle' : ∀ p ∈ s'.found seed, p.2 ≤ depth + 1) :
          ∀ p ∈ s'.found seed, ∀ q ∈ s'.queue, p.2 ≤ q.2 + 1 := by
        intro p hp q hq
        have hsorted := h'.sorted
        rw [h'.split, pairwise_append] at hsorted
        exact (hle' p hp).trans (Nat.succ_le_succ (hsorted.2.2 (currentId, depth) (by simp) q hq))
      have hfuel' : k.entities.length + 1 ≤ (done ++ [(currentId, depth)]).length + fuel := by
        rw [length_append, length_singleton]
        omega
      rw [bfsLoop]
      dsimp only
      split_ifs with hmax
      · refine ih hpopped (forall_mem_append.mpr ⟨hexpanded, ?_⟩) (hnext hpopped hle) hfuel'
        exact forall_mem_singleton.mpr fun hlt => absurd hlt (not_lt_of_ge hmax)
      · have hmem : (currentId, depth) ∈ BfsState.found seed ⟨visited, queue, results⟩ :=
          hpopped.split ▸ mem_append_left _ (by simp)
        have hinner : depth = 0 ∨ k.Has currentId := by
          rcases mem_cons.mp hmem with heq | hmem
          · exact .inl (congrArg Prod.snd heq)
          · obtain ⟨p, hp, heq⟩ := mem_map.mp hmem
            exact .inr ⟨p.1, h.entity p hp, congrArg Prod.fst heq⟩
        obtain ⟨h', hdepth', hfound, hvisited⟩ := hpopped.visitAll hle
          (fun id hid => .snoc (h.path _ hmem).1 hinner (mem_neighbours.mp hid))
          (lt_of_not_ge hmax)
        refine ih h' (forall_mem_append.mpr ⟨fun p hp hlt y hy hhas => ?_, ?_⟩)
          (hnext h' hdepth') hfuel'
        · obtain ⟨d, hd, hmem⟩ := hexpanded p hp hlt y hy hhas
          exact ⟨d, hd, hfound hmem⟩
        · refine forall_mem_singleton.mpr fun _ y hy hhas => ?_
          have hseen := hvisited (mem_append_left _ (mem_neighbours.mpr hy))
          obtain ⟨p, hp, rfl⟩ := mem_map.mp ((h'.visited y hhas).mp hseen)
          exact ⟨p.2, hdepth' p hp, hp⟩

/-- The search finds what paths within the depth lead to, no later than on any of them. -/
theorem exists_found (k : KnowledgeCache) (seed : UInt64) (maxDepth : ℕ) :
    ∃ s, k.bfsNeighbors seed maxDepth = s.results ∧ BfsInv k seed maxDepth (s.found seed) s ∧
      ∀ n x, k.Path seed n x → n ≤ maxDepth → n = 0 ∨ k.Has x →
        ∃ d ≤ n, (x, d) ∈ s.found seed := by
  have hinit : BfsInv k seed maxDepth [] ⟨[seed], [(seed, 0)], []⟩ :=
    { split := rfl
      sorted := pairwise_singleton _ _
      nodup := pairwise_singleton _ _
      visited := fun _ _ => Iff.rfl
      path := forall_mem_singleton.mpr ⟨.nil, zero_le⟩
      entity := fun _ hp => absurd hp not_mem_nil }
  obtain ⟨s, hloop, h, hexpanded⟩ := hinit.loop (fun _ hp => absurd hp not_mem_nil)
    (by simp [BfsState.found]) (Nat.le_add_left (k.entities.length + 1) _)
  refine ⟨s, congrArg BfsState.results hloop, h, fun n x hpath => ?_⟩
  induction hpath with
  | nil => exact fun _ _ => ⟨0, le_rfl, mem_cons_self⟩
  | snoc path inner step ih =>
    intro hn hhas
    obtain ⟨d, hd, hfound⟩ := ih (Nat.le_of_succ_le hn) inner
    obtain ⟨d', hd', hfound'⟩ := hexpanded _ hfound (lt_of_le_of_lt hd hn) _ step
      (hhas.resolve_left (Nat.succ_ne_zero _))
    exact ⟨d', hd'.trans (Nat.succ_le_succ hd), hfound'⟩

/-- The search returns the entities within the depth, except the seed, each once with its
distance, in the order of the distances. -/
theorem bfsNeighbors_spec (hids : (k.entities.map (·.id)).Nodup) (seed : UInt64) (maxDepth : ℕ) :
    (k.bfsNeighbors seed maxDepth).Pairwise (·.2 ≤ ·.2) ∧
      ((k.bfsNeighbors seed maxDepth).map (·.1)).Nodup ∧
      ∀ e d, (e, d) ∈ k.bfsNeighbors seed maxDepth ↔
        e ∈ k.entities ∧ e.id ≠ seed ∧ d ≤ maxDepth ∧ k.IsDistance seed d e.id := by
  obtain ⟨s, hs, h, hcomplete⟩ := k.exists_found seed maxDepth
  have hsorted := (pairwise_cons.mp h.sorted).2
  obtain ⟨hseed, hnodup⟩ := nodup_cons.mp h.nodup
  rw [pairwise_map] at hsorted
  rw [map_map] at hseed hnodup
  rw [hs]
  refine ⟨hsorted, Nodup.of_map Entity.id (by rwa [map_map]), fun e d => ⟨fun he => ?_, ?_⟩⟩
  · have hmem : (e.id, d) ∈ s.found seed := mem_cons_of_mem _ (mem_map.mpr ⟨_, he, rfl⟩)
    obtain ⟨hpath, hle⟩ := h.path _ hmem
    refine ⟨h.entity _ he, fun heq => hseed (mem_map.mpr ⟨_, he, heq⟩), hle, hpath, fun m hm => ?_⟩
    rcases Nat.lt_or_ge maxDepth m with hlt | hge
    · exact hle.trans hlt.le
    obtain ⟨d', hd', hmem'⟩ := hcomplete m _ hm hge (.inr ⟨e, h.entity _ he, rfl⟩)
    exact (congrArg Prod.snd (inj_on_of_nodup_map h.nodup hmem hmem' rfl)).le.trans hd'
  · rintro ⟨he, hne, hle, hpath, hmin⟩
    obtain ⟨d', hd', hmem⟩ := hcomplete d _ hpath hle (.inr ⟨e, he, rfl⟩)
    obtain rfl : d = d' := Nat.le_antisymm (hmin _ (h.path _ hmem).1) hd'
    rcases mem_cons.mp hmem with heq | hmem
    · exact absurd (congrArg Prod.fst heq) hne
    · obtain ⟨⟨e', d'⟩, hp, heq⟩ := mem_map.mp hmem
      obtain rfl := inj_on_of_nodup_map hids (h.entity _ hp) he (congrArg Prod.fst heq)
      obtain rfl : d' = d := congrArg Prod.snd heq
      exact hp

def circle : KnowledgeCache where
  entities := [⟨1, "", "", -1⟩, ⟨2, "", "", -1⟩, ⟨3, "", "", -1⟩]
  relations := [⟨1, 2, "", 0, 0⟩, ⟨2, 3, "", 0, 0⟩, ⟨3, 1, "", 0, 0⟩]
  aliases := []
  nextEntityId := 4

theorem bfsNeighbors_spec_circle : (circle.entities.map (·.id)).Nodup ∧
    ∀ e d, (e, d) ∈ circle.bfsNeighbors 1 2 ↔
      e ∈ circle.entities ∧ e.id ≠ 1 ∧ d ≤ 2 ∧ circle.IsDistance 1 d e.id :=
  ⟨by decide, (bfsNeighbors_spec (by decide) 1 2).2.2⟩

/-! ### Subgraphs -/

variable (k : KnowledgeCache) (seedIds : List UInt64) (maxDepth : ℕ)

/-- The entities around some seeds, and the relations between them. -/
def getSubgraph : List Entity × List Relation :=
  let entityIds := seedIds ++ seedIds.flatMap fun seed =>
    (k.bfsNeighbors seed maxDepth).map (·.1.id)
  (k.entities.filter (·.id ∈ entityIds),
    k.relations.filter fun r => r.src ∈ entityIds ∧ r.tgt ∈ entityIds)

/-- A path within the depth leads from one of the seeds to `x`. -/
def Near (x : UInt64) : Prop := ∃ seed ∈ seedIds, ∃ n ≤ maxDepth, k.Path seed n x

/-- An identifier is that of a seed, or of an entity near a seed. -/
def Chosen (x : UInt64) : Prop := x ∈ seedIds ∨ k.Has x ∧ k.Near seedIds maxDepth x

theorem mem_getSubgraph_iff : (∀ e, e ∈ (k.getSubgraph seedIds maxDepth).1 ↔
      e ∈ k.entities ∧ k.Near seedIds maxDepth e.id) ∧
    ∀ r, r ∈ (k.getSubgraph seedIds maxDepth).2 ↔
      r ∈ k.relations ∧ ∀ x ∈ [r.src, r.tgt], k.Chosen seedIds maxDepth x := by
  have hids (x : UInt64) : (x ∈ seedIds ++ seedIds.flatMap fun seed =>
      (k.bfsNeighbors seed maxDepth).map (·.1.id)) ↔ k.Chosen seedIds maxDepth x := by
    rw [mem_append, mem_flatMap]
    constructor
    · rintro (hx | ⟨seed, hseed, hx⟩)
      · exact .inl hx
      · obtain ⟨p, hp, rfl⟩ := mem_map.mp hx
        obtain ⟨s, hs, h, -⟩ := k.exists_found seed maxDepth
        rw [hs] at hp
        obtain ⟨hpath, hle⟩ := h.path (p.1.id, p.2) (mem_cons_of_mem _ (mem_map_of_mem hp))
        exact .inr ⟨⟨p.1, h.entity p hp, rfl⟩, seed, hseed, p.2, hle, hpath⟩
    · rintro (hx | ⟨hhas, seed, hseed, n, hn, hpath⟩)
      · exact .inl hx
      · obtain ⟨s, hs, -, hcomplete⟩ := k.exists_found seed maxDepth
        obtain ⟨d, -, hmem⟩ := hcomplete n x hpath hn (.inr hhas)
        rcases mem_cons.mp hmem with heq | hmem
        · obtain rfl : x = seed := congrArg Prod.fst heq
          exact .inl hseed
        · obtain ⟨p, hp, heq⟩ := mem_map.mp hmem
          exact .inr ⟨seed, hseed, mem_map.mpr ⟨p, hs ▸ hp, congrArg Prod.fst heq⟩⟩
  constructor
  · intro e
    simp only [getSubgraph, mem_filter, decide_eq_true_eq, hids]
    refine and_congr_right fun he => ⟨?_, fun hnear => .inr ⟨⟨e, he, rfl⟩, hnear⟩⟩
    rintro (hseed | hnear)
    · exact ⟨_, hseed, 0, zero_le, .nil⟩
    · exact hnear.2
  · intro r
    simp only [getSubgraph, mem_filter, decide_eq_true_eq, hids, forall_mem_cons,
      not_mem_nil, false_implies, implies_true, and_true]

/-- What a subgraph should have: the entities near a seed that exists, each once, and the relations
between them. -/
def Closed (sub : List Entity × List Relation) : Prop :=
  sub.1.Nodup ∧
    (∀ e, e ∈ sub.1 ↔ e ∈ k.entities ∧ k.Near (seedIds.filter (k.Has ·)) maxDepth e.id) ∧
    ∀ r, r ∈ sub.2 ↔ r ∈ k.relations ∧ ∀ x ∈ [r.src, r.tgt], ∃ e ∈ sub.1, e.id = x

/-- A subgraph is right exactly if seeds that do not exist lead to no other entities than those
that do, and no relation is found that has an end without an entity. -/
theorem getSubgraph_closed_iff (hids : (k.entities.map (·.id)).Nodup) :
    k.Closed seedIds maxDepth (k.getSubgraph seedIds maxDepth) ↔
      (∀ e ∈ k.entities, k.Near seedIds maxDepth e.id →
        k.Near (seedIds.filter (k.Has ·)) maxDepth e.id) ∧
      ∀ r ∈ k.relations, (∀ x ∈ [r.src, r.tgt], k.Chosen seedIds maxDepth x) →
        ∀ x ∈ [r.src, r.tgt], k.Has x := by
  obtain ⟨hentities, hrelations⟩ := k.mem_getSubgraph_iff seedIds maxDepth
  have hnodup : (k.getSubgraph seedIds maxDepth).1.Nodup :=
    (Nodup.of_map Entity.id hids).filter _
  have hhas (x : UInt64) : (∃ e ∈ (k.getSubgraph seedIds maxDepth).1, e.id = x) ↔
      k.Has x ∧ k.Near seedIds maxDepth x := by
    simp only [hentities]
    constructor
    · rintro ⟨e, ⟨he, hnear⟩, rfl⟩
      exact ⟨⟨e, he, rfl⟩, hnear⟩
    · rintro ⟨⟨e, he, rfl⟩, hnear⟩
      exact ⟨e, ⟨he, hnear⟩, rfl⟩
  unfold Closed
  simp only [hhas]
  simp only [hentities, hrelations]
  refine (and_iff_right hnodup).trans (and_congr ?_ ?_)
  · constructor
    · intro h e he hnear
      exact ((h e).mp ⟨he, hnear⟩).2
    · intro h e
      refine and_congr_right fun he => ⟨h e he, ?_⟩
      rintro ⟨seed, hseed, hpath⟩
      exact ⟨seed, mem_of_mem_filter hseed, hpath⟩
  · constructor
    · intro h r hr hin x hx
      exact (((h r).mp ⟨hr, hin⟩).2 x hx).1
    · intro h r
      refine and_congr_right fun hr => ⟨fun hin x hx => ?_, fun hout x hx => .inr (hout x hx)⟩
      rcases hin x hx with hseed | hnear
      · exact ⟨h r hr hin x hx, x, hseed, 0, zero_le, .nil⟩
      · exact hnear

theorem getSubgraph_closed_circle : (circle.entities.map (·.id)).Nodup ∧
    circle.Closed [1, 2] 1 (circle.getSubgraph [1, 2] 1) := by
  have hseeds : [1, 2].filter (circle.Has ·) = [1, 2] := by decide
  have hends : ∀ r ∈ circle.relations, ∀ x ∈ [r.src, r.tgt], circle.Has x := by
    simp [circle, Has]
  refine ⟨by decide, (circle.getSubgraph_closed_iff [1, 2] 1 (by decide)).mpr ⟨?_, ?_⟩⟩
  · exact fun e _ hnear => hseeds.symm ▸ hnear
  · exact fun r hr _ => hends r hr

/-- One entity, and a relation that leads to it from where there is none. -/
def dangling : KnowledgeCache := ⟨[⟨1, "", "", -1⟩], [⟨9, 1, "", 0, 0⟩], [], 2⟩

/-- From a seed that does not exist, an entity is found. -/
theorem getSubgraph_not_closed : ¬ dangling.Closed [9] 1 (dangling.getSubgraph [9] 1) := by
  intro h
  obtain ⟨-, seed, hseed, -⟩ := (h.2.1 ⟨1, "", "", -1⟩).mp (by decide)
  have hnone : ([9] : List UInt64).filter (dangling.Has ·) = [] := by decide
  exact not_mem_nil (hnone ▸ hseed)

end KnowledgeCache

end ClawHdf5.Agent
