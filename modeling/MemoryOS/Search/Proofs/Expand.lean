/-
Expansion scores by nearest rare connection (`_score`).

The loop keeps the first reach of each entity and chunk, which is what
`DISTINCT ON` keeps (`distinctReaches_eq`). On reaches in the order of their
hops it is one of fewest hops, so what an entity adds is said by the reaches
as a set, and the ranking depends on nothing else (`ranking_perm`).
-/
import Mathlib.Algebra.BigOperators.Group.Finset.Basic
import Mathlib.Order.Lattice.Nat
import MemoryOS.Lib.DistinctOn
import MemoryOS.Search.Expand

namespace MemoryOS.GraphExpand

open Lib.DistinctOn

-- ====== statement vocabulary

/-- As `GraphStore.reach` returns them. -/
def InOrder (reached : List GraphReach) : Prop :=
  reached.Pairwise fun a b => a.hops ≤ b.hops

/-- The entities that reach a chunk. -/
def entitiesOf (reached : List GraphReach) (key : ChunkKey) : Finset Id :=
  ((reached.filter fun r => decide (reachKey r = key)).map (·.entityId)).toFinset

/-- The smallest hop count of an entity that reaches a chunk. -/
noncomputable def fewestHops (reached : List GraphReach) (key : ChunkKey) (e : Id) :
    Nat :=
  sInf {hops | ∃ r ∈ reached, reachKey r = key ∧ r.entityId = e ∧ r.hops = hops}

/-- What a chunk is worth: each entity that reaches it once, at its nearest. -/
noncomputable def nearness (reached : List GraphReach) (idf : Id → ℚ)
    (key : ChunkKey) : ℚ :=
  ∑ e ∈ entitiesOf reached key, idf e / max 1 (fewestHops reached key e : ℚ)

/-- No reach of the chunk has fewer hops, and none of as few has a rarer
endpoint. -/
def Nearest (reached : List GraphReach) (idf : Id → ℚ) (key : ChunkKey)
    (r : GraphReach) : Prop :=
  r ∈ reached ∧ reachKey r = key
    ∧ ∀ other ∈ reached, reachKey other = key →
      r.hops < other.hops
        ∨ (r.hops = other.hops ∧ idf other.entityId ≤ idf r.entityId)

/-- A ranking without its routes. -/
def ranking (scored : List (ChunkKey × ℚ × List Text)) : List (ChunkKey × ℚ) :=
  scored.map fun s => (s.1, s.2.1)

variable {reached reached' seen rs : List GraphReach} {idf : Id → ℚ}
  {key : ChunkKey} {r s : GraphReach} {e : Id}

-- ====== distinct reaches

/-- `marker`. -/
def marker (r : GraphReach) : ChunkKey × Id := (reachKey r, r.entityId)

/-- `marker not in seen`. -/
def isNew (seen : List GraphReach) (r : GraphReach) : Bool :=
  !seen.any fun s => decide (reachKey s = reachKey r ∧ s.entityId = r.entityId)

theorem isNew_concat : isNew (seen ++ [s]) r
    = (isNew seen r && decide (marker r ≠ marker s)) := by
  have hmarker : marker r = marker s
      ↔ reachKey s = reachKey r ∧ s.entityId = r.entityId := by
    unfold marker
    rw [Prod.ext_iff]
    exact ⟨fun h => ⟨h.1.symm, h.2.symm⟩, fun h => ⟨h.1.symm, h.2.symm⟩⟩
  unfold isNew
  rw [List.any_append, List.any_cons, List.any_nil, Bool.or_false, Bool.not_or,
    ← decide_eq_decide.2 hmarker, decide_not]

theorem isNew_of_marker (h : marker r = marker s) : isNew seen r = isNew seen s := by
  have hkey : reachKey r = reachKey s := congrArg Prod.fst h
  have hentity : r.entityId = s.entityId := congrArg Prod.snd h
  unfold isNew
  rw [hkey, hentity]

theorem distinctReaches_from : distinctReaches seen rs
    = seen ++ (distinctOn marker rs).filter (isNew seen) := by
  induction rs generalizing seen with
  | nil => exact (List.append_nil seen).symm
  | cons r rest ih =>
    rw [distinctReaches, distinctOn_cons]
    by_cases hnew : isNew seen r = true
    · have hno : ¬ (seen.any fun s =>
          decide (reachKey s = reachKey r ∧ s.entityId = r.entityId)) = true := by
        simpa [isNew] using hnew
      rw [if_neg hno, ih, List.filter_cons_of_pos hnew, List.filter_filter,
        List.append_assoc, List.singleton_append]
      congr 2
      apply List.filter_congr
      intro x _
      exact isNew_concat
    · have hyes : (seen.any fun s =>
          decide (reachKey s = reachKey r ∧ s.entityId = r.entityId)) = true := by
        unfold isNew at hnew
        simpa using hnew
      rw [if_pos hyes, ih, List.filter_cons_of_neg hnew, List.filter_filter]
      congr 1
      apply List.filter_congr
      intro x _
      by_cases hx : marker x = marker r
      · rw [isNew_of_marker hx, Bool.eq_false_iff.2 hnew, Bool.false_and]
      · rw [decide_eq_true hx, Bool.and_true]

theorem distinctReaches_eq : distinctReaches [] reached = distinctOn marker reached := by
  rw [distinctReaches_from, List.nil_append]
  apply List.filter_eq_self.2
  intro r _
  rfl

theorem exists_distinct (hr : r ∈ reached) : ∃ s ∈ distinctReaches [] reached,
    reachKey s = reachKey r ∧ s.entityId = r.entityId := by
  rw [distinctReaches_eq]
  obtain ⟨s, hs, hmarker⟩ := @exists_mem_distinctOn _ _ _ marker _ _ hr
  exact ⟨s, hs, congrArg Prod.fst hmarker, congrArg Prod.snd hmarker⟩

theorem mem_of_distinct (hs : s ∈ distinctReaches [] reached) : s ∈ reached := by
  rw [distinctReaches_eq] at hs
  exact mem_of_mem_distinctOn hs

theorem distinct_least (h : InOrder reached) (hs : s ∈ distinctReaches [] reached)
    (hr : r ∈ reached) (hkey : reachKey r = reachKey s)
    (hentity : r.entityId = s.entityId) : s.hops ≤ r.hops := by
  rw [distinctReaches_eq] at hs
  have hmarker : marker r = marker s := Prod.ext hkey hentity
  have hrefl : ∀ a : GraphReach, a.hops ≤ a.hops := fun a => Nat.le_refl a.hops
  exact le_of_mem_distinctOn (r := fun a b : GraphReach => a.hops ≤ b.hops)
    hrefl h hs hr hmarker

theorem hops_eq_fewest (h : InOrder reached) (hs : s ∈ distinctReaches [] reached) :
    s.hops = fewestHops reached (reachKey s) s.entityId := by
  have hself : s.hops ∈ {hops | ∃ r ∈ reached, reachKey r = reachKey s
      ∧ r.entityId = s.entityId ∧ r.hops = hops} :=
    ⟨s, mem_of_distinct hs, rfl, rfl, rfl⟩
  apply Nat.le_antisymm
  · apply le_csInf ⟨s.hops, hself⟩
    intro hops hhops
    obtain ⟨r, hr, hkey, hentity, rfl⟩ := hhops
    exact distinct_least h hs hr hkey hentity
  · exact Nat.sInf_le hself

-- ======= the score

/-- The reaches that are kept of a chunk. -/
def keptOf (reached : List GraphReach) (key : ChunkKey) : List GraphReach :=
  (distinctReaches [] reached).filter fun r => decide (reachKey r = key)

theorem mem_keptOf (hs : s ∈ keptOf reached key) :
    s ∈ distinctReaches [] reached ∧ reachKey s = key := by
  have hmem := List.mem_filter.1 hs
  exact ⟨hmem.1, of_decide_eq_true hmem.2⟩

theorem exists_keptOf (hr : r ∈ reached) :
    ∃ s ∈ keptOf reached (reachKey r), s.entityId = r.entityId := by
  obtain ⟨s, hs, hkey, hentity⟩ := exists_distinct hr
  exact ⟨s, List.mem_filter.2 ⟨hs, decide_eq_true hkey⟩, hentity⟩

theorem nodup_keptOf : ((keptOf reached key).map (·.entityId)).Nodup := by
  have hpair : (distinctReaches [] reached).Pairwise
      fun a b => marker a ≠ marker b := by
    rw [distinctReaches_eq]
    exact pairwise_distinctOn
  apply List.pairwise_map.2
  refine (hpair.filter _).imp_of_mem fun ha hb hne heq => hne ?_
  have hkey := (mem_keptOf ha).2.trans (mem_keptOf hb).2.symm
  exact Prod.ext hkey heq

theorem toFinset_keptOf :
    ((keptOf reached key).map (·.entityId)).toFinset = entitiesOf reached key := by
  ext e
  unfold entitiesOf
  simp only [List.mem_toFinset, List.mem_map]
  constructor
  · intro h
    obtain ⟨s, hs, rfl⟩ := h
    obtain ⟨hs, hkey⟩ := mem_keptOf hs
    exact ⟨s, List.mem_filter.2 ⟨mem_of_distinct hs, decide_eq_true hkey⟩, rfl⟩
  · intro h
    obtain ⟨r, hr, rfl⟩ := h
    obtain ⟨hr, hkey⟩ := List.mem_filter.1 hr
    obtain ⟨s, hs, hentity⟩ := exists_keptOf hr
    rw [of_decide_eq_true hkey] at hs
    exact ⟨s, hs, hentity⟩

theorem sum_keptOf (h : InOrder reached) :
    ((keptOf reached key).map fun r => idf r.entityId / max 1 (r.hops : ℚ)).sum
      = nearness reached idf key := by
  have hterms : ((keptOf reached key).map fun r =>
        idf r.entityId / max 1 (r.hops : ℚ))
      = ((keptOf reached key).map (·.entityId)).map fun e =>
        idf e / max 1 (fewestHops reached key e : ℚ) := by
    rw [List.map_map]
    apply List.map_congr_left
    intro r hr
    obtain ⟨hdistinct, rfl⟩ := mem_keptOf hr
    show idf r.entityId / max 1 (r.hops : ℚ) = _
    rw [hops_eq_fewest h hdistinct]
    rfl
  rw [hterms, ← List.sum_toFinset _ nodup_keptOf, toFinset_keptOf]
  rfl

-- ======= the route

theorem bestRoute_spec (hne : rs ≠ []) : ∃ r ∈ rs, bestRoute idf rs = r.route
    ∧ ∀ other ∈ rs, r.hops < other.hops
      ∨ (r.hops = other.hops ∧ idf other.entityId ≤ idf r.entityId) := by
  obtain ⟨first, rest, rfl⟩ := List.exists_cons_of_ne_nil hne
  rw [bestRoute]
  clear hne
  induction rest generalizing first with
  | nil =>
    refine ⟨first, List.mem_cons_self, rfl, fun other hother => ?_⟩
    rw [List.mem_singleton.1 hother]
    exact .inr ⟨rfl, le_refl _⟩
  | cons next rest ih =>
    rw [List.foldl_cons]
    split
    case isTrue hbetter =>
      obtain ⟨r, hr, hroute, hbest⟩ := ih next
      refine ⟨r, List.mem_cons_of_mem first hr, hroute, fun other hother => ?_⟩
      rcases List.mem_cons.1 hother with rfl | hother
      · have hnext := hbest next List.mem_cons_self
        rcases hbetter with hfewer | ⟨hsame, hrarer⟩
        · left
          omega
        · rcases hnext with hfewer | ⟨heq, hrare⟩
          · left
            omega
          · exact .inr ⟨by omega, hrarer.le.trans hrare⟩
      · exact hbest other hother
    case isFalse hbetter =>
      obtain ⟨r, hr, hroute, hbest⟩ := ih first
      have hmem : r ∈ first :: next :: rest := by
        rcases List.mem_cons.1 hr with rfl | hr
        · exact List.mem_cons_self
        · exact List.mem_cons_of_mem first (List.mem_cons_of_mem next hr)
      refine ⟨r, hmem, hroute, fun other hother => ?_⟩
      rcases List.mem_cons.1 hother with rfl | hother
      · exact hbest other List.mem_cons_self
      rcases List.mem_cons.1 hother with rfl | hother
      · have hfirst := hbest first List.mem_cons_self
        obtain ⟨hmore, hrare⟩ := not_or.1 hbetter
        by_cases hsame : other.hops = first.hops
        · have hrarest := not_lt.1 fun hlt => hrare ⟨hsame, hlt⟩
          rcases hfirst with hfewer | ⟨heq, hfirst⟩
          · left
            omega
          · exact .inr ⟨by omega, hrarest.trans hfirst⟩
        · left
          rcases hfirst with hfewer | ⟨heq, -⟩
          · omega
          · omega
      · exact hbest other (List.mem_cons_of_mem first hother)

theorem nearest_route (h : InOrder reached) (hr : r ∈ reached)
    (hkey : reachKey r = key) :
    ∃ s, Nearest reached idf key s
      ∧ bestRoute idf (keptOf reached key) = s.route := by
  obtain ⟨kept, hkept, -⟩ := exists_keptOf hr
  rw [hkey] at hkept
  obtain ⟨s, hs, hroute, hbest⟩ :=
    @bestRoute_spec (keptOf reached key) idf (List.ne_nil_of_mem hkept)
  obtain ⟨hdistinct, hskey⟩ := mem_keptOf hs
  refine ⟨s, ⟨mem_of_distinct hdistinct, hskey, fun other hother hokey => ?_⟩, hroute⟩
  -- the one that is kept of the other's entity has no more hops
  obtain ⟨first, hfirst, hentity⟩ := exists_keptOf hother
  rw [hokey] at hfirst
  obtain ⟨hfdistinct, hfkey⟩ := mem_keptOf hfirst
  have hleast := distinct_least h hfdistinct hother (hokey.trans hfkey.symm)
    hentity.symm
  rcases hbest first hfirst with hfewer | ⟨hsame, hrare⟩
  · left
    omega
  · rw [hentity] at hrare
    by_cases heq : first.hops = other.hops
    · exact .inr ⟨hsame.trans heq, hrare⟩
    · left
      omega

-- ====== the ranking

/-- One entry of the ranking, before it is sorted. -/
def entryOf (reached : List GraphReach) (idf : Id → ℚ) (key : ChunkKey) :
    ChunkKey × ℚ × List Text :=
  let rs := keptOf reached key
  (key, (rs.map fun r => idf r.entityId / max 1 (r.hops : ℚ)).sum, bestRoute idf rs)

/-- The order of the ranking: by score, then by the chunk. -/
def Ranked (a b : ChunkKey × ℚ) : Prop :=
  b.2 < a.2 ∨ (a.2 = b.2 ∧ (a.1.1 < b.1.1 ∨ (a.1.1 = b.1.1 ∧ a.1.2 ≤ b.1.2)))

instance : DecidableRel Ranked := fun a b => by
  unfold Ranked
  infer_instance

theorem key_trans {i j k m n p : Nat} (h : i < j ∨ (i = j ∧ m ≤ n))
    (h' : j < k ∨ (j = k ∧ n ≤ p)) : i < k ∨ (i = k ∧ m ≤ p) := by
  omega

theorem key_antisymm {i j m n : Nat} (h : i < j ∨ (i = j ∧ m ≤ n))
    (h' : j < i ∨ (j = i ∧ n ≤ m)) : i = j ∧ m = n := by
  omega

theorem ranked_total (a b : ChunkKey × ℚ) : Ranked a b ∨ Ranked b a := by
  unfold Ranked
  rcases lt_trichotomy a.2 b.2 with hless | hsame | hmore
  · exact .inr (.inl hless)
  · by_cases hid : a.1.1 = b.1.1
    · rcases Nat.le_total a.1.2 b.1.2 with hle | hle
      · exact .inl (.inr ⟨hsame, .inr ⟨hid, hle⟩⟩)
      · exact .inr (.inr ⟨hsame.symm, .inr ⟨hid.symm, hle⟩⟩)
    · rcases Nat.lt_or_gt_of_ne hid with hlt | hlt
      · exact .inl (.inr ⟨hsame, .inl hlt⟩)
      · exact .inr (.inr ⟨hsame.symm, .inl hlt⟩)
  · exact .inl (.inl hmore)

theorem ranked_trans {a b c : ChunkKey × ℚ} (hab : Ranked a b) (hbc : Ranked b c) :
    Ranked a c := by
  unfold Ranked at *
  rcases hab with hab | ⟨hab, hkey⟩
  · left
    rcases hbc with hbc | ⟨hbc, -⟩
    · exact hbc.trans hab
    · exact hbc ▸ hab
  · rcases hbc with hbc | ⟨hbc, hkey'⟩
    · left
      exact hab.symm ▸ hbc
    · right
      exact ⟨hab.trans hbc, key_trans hkey hkey'⟩

theorem ranked_antisymm {a b : ChunkKey × ℚ} (hab : Ranked a b) (hba : Ranked b a) :
    a = b := by
  unfold Ranked at hab hba
  rcases hab with hab | ⟨hsame, hkey⟩
  · rcases hba with hba | ⟨hba, -⟩
    · exact absurd hba (lt_asymm hab)
    · exact absurd hba.symm hab.ne'
  · rcases hba with hba | ⟨-, hkey'⟩
    · exact absurd hsame hba.ne
    · have heq := key_antisymm hkey hkey'
      exact Prod.ext (Prod.ext heq.1 heq.2) hsame

instance : Std.Total Ranked := ⟨ranked_total⟩

instance : IsTrans (ChunkKey × ℚ) Ranked := ⟨fun _ _ _ => ranked_trans⟩

theorem score_eq : score reached idf
    = (((distinctReaches [] reached).map reachKey).dedup.map
        (entryOf reached idf)).insertionSort fun a b =>
          Ranked (a.1, a.2.1) (b.1, b.2.1) := rfl

theorem mem_score_iff {entry : ChunkKey × ℚ × List Text} :
    entry ∈ score reached idf
      ↔ ∃ r ∈ reached, entry = entryOf reached idf (reachKey r) := by
  rw [score_eq, List.mem_insertionSort, List.mem_map]
  simp only [List.mem_dedup, List.mem_map]
  constructor
  · intro h
    obtain ⟨key, ⟨s, hs, rfl⟩, rfl⟩ := h
    exact ⟨s, mem_of_distinct hs, rfl⟩
  · intro h
    obtain ⟨r, hr, rfl⟩ := h
    obtain ⟨s, hs, hkey, -⟩ := exists_distinct hr
    exact ⟨reachKey r, ⟨s, hs, hkey⟩, rfl⟩

theorem nodup_score : ((score reached idf).map (·.1)).Nodup := by
  have hperm := (List.perm_insertionSort (fun a b : ChunkKey × ℚ × List Text =>
    Ranked (a.1, a.2.1) (b.1, b.2.1))
    (((distinctReaches [] reached).map reachKey).dedup.map
      (entryOf reached idf))).map (·.1)
  rw [score_eq, hperm.nodup_iff, List.map_map]
  have hkeys : (((distinctReaches [] reached).map reachKey).dedup.map
      ((·.1) ∘ entryOf reached idf))
      = ((distinctReaches [] reached).map reachKey).dedup := by
    exact List.map_id _
  rw [hkeys]
  exact List.nodup_dedup _

theorem ranking_score (h : InOrder reached) : ranking (score reached idf)
    = (((distinctReaches [] reached).map reachKey).dedup.map
        fun key => (key, nearness reached idf key)).insertionSort Ranked := by
  have hmap : ((((distinctReaches [] reached).map reachKey).dedup.map
        (entryOf reached idf)).insertionSort fun a b =>
          Ranked (a.1, a.2.1) (b.1, b.2.1)).map (fun s => (s.1, s.2.1))
      = ((((distinctReaches [] reached).map reachKey).dedup.map
        (entryOf reached idf)).map fun s => (s.1, s.2.1)).insertionSort Ranked :=
    List.map_insertionSort _ _ _ _ fun a _ b _ => Iff.rfl
  rw [ranking, score_eq, hmap, List.map_map]
  congr 1
  apply List.map_congr_left
  intro key _
  exact Prod.ext rfl (sum_keptOf h)

theorem nearness_perm (h : reached.Perm reached') (key : ChunkKey) :
    nearness reached idf key = nearness reached' idf key := by
  have hentities : entitiesOf reached key = entitiesOf reached' key := by
    ext e
    unfold entitiesOf
    simp only [List.mem_toFinset, List.mem_map, List.mem_filter, h.mem_iff]
  have hfewest : ∀ e, fewestHops reached key e = fewestHops reached' key e := by
    intro e
    unfold fewestHops
    simp only [h.mem_iff]
  unfold nearness
  rw [hentities]
  simp only [hfewest]

theorem ranking_perm (h : InOrder reached) (h' : InOrder reached')
    (hperm : reached.Perm reached') :
    ranking (score reached idf) = ranking (score reached' idf) := by
  have hkeys : ∀ {rs : List GraphReach} (key : ChunkKey),
      key ∈ ((distinctReaches [] rs).map reachKey).dedup
        ↔ ∃ r ∈ rs, reachKey r = key := by
    intro rs key
    rw [List.mem_dedup, List.mem_map]
    constructor
    · intro hs
      obtain ⟨s, hs, rfl⟩ := hs
      exact ⟨s, mem_of_distinct hs, rfl⟩
    · intro hr
      obtain ⟨r, hr, rfl⟩ := hr
      obtain ⟨s, hs, hkey, -⟩ := exists_distinct hr
      exact ⟨s, hs, hkey⟩
  have hdedup : (((distinctReaches [] reached).map reachKey).dedup).Perm
      ((distinctReaches [] reached').map reachKey).dedup := by
    apply (List.perm_ext_iff_of_nodup (List.nodup_dedup _) (List.nodup_dedup _)).2
    intro key
    rw [hkeys, hkeys]
    simp only [hperm.mem_iff]
  have hsame : (fun key => (key, nearness reached idf key))
      = fun key => (key, nearness reached' idf key) := by
    funext key
    rw [nearness_perm hperm]
  rw [ranking_score h, ranking_score h', hsame]
  refine List.Perm.eq_of_pairwise (fun a b _ _ hab hba => ranked_antisymm hab hba)
    (List.pairwise_insertionSort Ranked _) (List.pairwise_insertionSort Ranked _) ?_
  exact ((List.perm_insertionSort Ranked _).trans (hdedup.map _)).trans
    (List.perm_insertionSort Ranked _).symm

/-- Two routes of one entity and a longer one of a rarer one. -/
def twoEntities : List GraphReach :=
  [⟨1, 0, 10, 2, ["near".toList]⟩, ⟨1, 0, 10, 4, ["far".toList]⟩,
    ⟨1, 0, 11, 4, ["rare".toList]⟩]

end MemoryOS.GraphExpand
