/-
What `_deduplicated` keeps for a pair, and when that can be acted on.

The kept candidate is the foremost of its pair by confidence
(`Best.mem_best_iff`), whatever its strategy. A pair that could be merged is
so exactly when no candidate of an untrusted strategy is foremost
(`deduplicated_actionable_iff`).
-/
import MemoryOS.Entities.Resolution

namespace MemoryOS.ResolveEntities

open Lib

-- ====== statement vocabulary

/-- Each pair that has candidates has one. -/
def OnePerPair (candidates : List MergeCandidate) : Prop :=
  ((deduplicated candidates).map (·.pair)).Nodup
    ∧ ∀ p, p ∈ (deduplicated candidates).map (·.pair)
        ↔ p ∈ candidates.map (·.pair)

/-- Where some candidate of a pair may be merged, the one kept may be. -/
def KeepsActionable (threshold : ℚ) (candidates : List MergeCandidate) : Prop :=
  ∀ c ∈ candidates, wouldAutoMerge threshold c = true →
    ∀ kept ∈ deduplicated candidates, kept.pair = c.pair →
      wouldAutoMerge threshold kept = true

/-- Where some candidate of a pair may be merged, every candidate of an
untrusted strategy for the pair gives way to a trusted one: a more confident
one, or one as confident that comes before it. -/
def Unmasked (threshold : ℚ) (candidates : List MergeCandidate) : Prop :=
  ∀ earlier u later, candidates = earlier ++ u :: later → u.trusted = false →
    (∃ c ∈ candidates, c.pair = u.pair ∧ wouldAutoMerge threshold c = true) →
    (∃ t ∈ candidates, t.pair = u.pair ∧ t.trusted = true
        ∧ u.confidence < t.confidence)
      ∨ ∃ t ∈ earlier, t.pair = u.pair ∧ t.trusted = true
        ∧ u.confidence ≤ t.confidence

-- ====== what is kept

variable {threshold : ℚ} {candidates : List MergeCandidate}

theorem mem_deduplicated {c : MergeCandidate} :
    c ∈ deduplicated candidates
      ↔ Best.Foremost MergeCandidate.pair MergeCandidate.confidence
          candidates c := by
  unfold deduplicated
  rw [List.mem_insertionSort, Best.mem_best_iff]

theorem one_per_pair (candidates : List MergeCandidate) :
    OnePerPair candidates := by
  have hperm := (List.perm_insertionSort MergeCandidate.Before
    (Best.best MergeCandidate.pair MergeCandidate.confidence candidates)).map
    MergeCandidate.pair
  constructor
  · exact hperm.nodup_iff.2 (Best.best_keys_nodup candidates)
  · intro p
    exact hperm.mem_iff.trans Best.mem_best_keys

theorem wouldAutoMerge_iff {c : MergeCandidate} :
    wouldAutoMerge threshold c = true
      ↔ c.trusted = true ∧ threshold ≤ c.confidence := by
  unfold wouldAutoMerge
  rw [Bool.and_eq_true, decide_eq_true_eq]

theorem keepsActionable_of_unmasked (h : Unmasked threshold candidates) :
    KeepsActionable threshold candidates := by
  intro c hc hact kept hkept hpair
  have hfore := mem_deduplicated.1 hkept
  have hle := (wouldAutoMerge_iff.1 hact).2.trans (hfore.le hc hpair.symm)
  rw [wouldAutoMerge_iff]
  refine ⟨?_, hle⟩
  by_contra htrusted
  obtain ⟨earlier, later, heq, hearlier, -⟩ := id hfore
  rcases h earlier kept later heq (Bool.eq_false_iff.2 htrusted)
    ⟨c, hc, hpair.symm, hact⟩ with ⟨t, ht, htpair, -, hlt⟩ | ⟨t, ht, htpair, -, hge⟩
  · exact absurd (hfore.le ht htpair) (not_le_of_gt hlt)
  · exact absurd hge (not_le_of_gt (hearlier t ht htpair))

theorem unmasked_of_keepsActionable (h : KeepsActionable threshold candidates) :
    Unmasked threshold candidates := by
  rintro earlier u later heq hu ⟨c, hc, hcpair, hact⟩
  obtain ⟨kept, hkept, hpair⟩ := List.mem_map.1
    ((one_per_pair candidates).2 c.pair |>.2 (List.mem_map_of_mem hc))
  have htrusted := (wouldAutoMerge_iff.1 (h c hc hact kept hkept hpair)).1
  have hfore := mem_deduplicated.1 hkept
  have hne : kept ≠ u := by
    rintro rfl
    rw [htrusted] at hu
    cases hu
  have hupair := hpair.trans hcpair
  have hmem : u ∈ candidates := by
    rw [heq]
    simp
  rcases lt_or_eq_of_le (hfore.le hmem hupair.symm) with hlt | htie
  · exact .inl ⟨kept, hfore.mem, hupair, htrusted, hlt⟩
  · -- as confident as the kept one, so it came later
    refine .inr ⟨kept, ?_, hupair, htrusted, le_of_eq htie⟩
    obtain ⟨before, after, heq', hbefore, -⟩ := hfore
    rw [heq] at heq'
    rcases List.append_eq_append_iff.1 heq' with ⟨mid, hmid, hrest⟩ | ⟨mid, hmid, hrest⟩
    · cases mid with
      | nil => exact absurd (List.cons.inj hrest).1.symm hne
      | cons x mid =>
        have hx : x = u := (List.cons.inj hrest).1.symm
        have hlt := hbefore u (by rw [hmid, hx]; simp) hupair.symm
        exact absurd htie (ne_of_lt hlt)
    · cases mid with
      | nil => exact absurd (List.cons.inj hrest).1 hne
      | cons x mid =>
        have hx : x = kept := (List.cons.inj hrest).1.symm
        rw [hmid, hx]
        simp

/-- Each pair is kept once, and a pair that could be merged by a candidate
that can be, exactly when no untrusted candidate masks the trusted ones. -/
theorem deduplicated_actionable_iff (threshold : ℚ)
    (candidates : List MergeCandidate) :
    (OnePerPair candidates ∧ KeepsActionable threshold candidates)
      ↔ Unmasked threshold candidates := by
  constructor
  · exact fun h => unmasked_of_keepsActionable h.2
  · exact fun h => ⟨one_per_pair candidates, keepsActionable_of_unmasked h⟩

-- ------ a close pair of spellings that is an alias too

/-- The alias table's pair, and what the embedder says of it. -/
def aliasAndEmbedding : List MergeCandidate :=
  [⟨1, 2, .alias, 99 / 100, "alias 'postgres' = 'postgresql'"⟩,
    ⟨1, 2, .embedding, 995 / 1000, "cosine 0.995"⟩]

theorem not_keepsActionable :
    ¬ (OnePerPair aliasAndEmbedding
      ∧ KeepsActionable defaultThreshold aliasAndEmbedding) := by
  rintro ⟨-, h⟩
  have hkept := h ⟨1, 2, .alias, 99 / 100, "alias 'postgres' = 'postgresql'"⟩
    List.mem_cons_self (by decide +kernel)
    ⟨1, 2, .embedding, 995 / 1000, "cosine 0.995"⟩ (by decide +kernel) rfl
  exact absurd hkept (by decide +kernel)

end MemoryOS.ResolveEntities
