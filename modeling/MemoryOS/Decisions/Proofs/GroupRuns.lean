/-
What one run of `GroupAssumptions` does to the groups and to the queue.

`groupAssumptions_spec`: an assumption without an edge keeps its group, one
with an edge gets a new group, which it shares with its connected component
and nobody else (`Regrouped`); and the queue gets a row for every pair
between the bars that is not outstanding, and no other (`Queued`).

The components come from union-find (`sameRoot_iff_joined`), and the loop
over the clusters is one map over the assumptions (`writeClusters_spec`).
-/
import MemoryOS.Decisions.AssumptionGroups

namespace MemoryOS

open Lib Decisions

namespace AssumptionGroups

-- ====== statement vocabulary

/-- The group of an assumption. -/
def groupOf (t : GroupTables) (x : Id) : Option Id :=
  (t.assumption x).bind (·.groupId)

/-- Two assumptions at the threshold. -/
def Edge (s : GroupSetup) (t : GroupTables) (x y : Id) : Prop :=
  x ≠ y ∧ ∃ a ∈ eligible t, ∃ b ∈ eligible t, a.id = x ∧ b.id = y
    ∧ s.reviewFloor ≤ score s a.statement b.statement
    ∧ s.threshold ≤ similarity s a.statement b.statement

/-- Two assumptions of one connected component. -/
def Joined (s : GroupSetup) (t : GroupTables) : Id → Id → Prop :=
  Relation.EqvGen (Edge s t)

/-- An assumption with an edge. -/
def Touched (s : GroupSetup) (t : GroupTables) (x : Id) : Prop :=
  ∃ y, Edge s t x y

/-- A pair of a run's rows between the two bars. -/
def Waits (s : GroupSetup) (rows : List DecisionAssumption) (x y : Id) :
    Prop :=
  ∃ pair ∈ triangle rows,
    s.reviewFloor ≤ score s pair.1.statement pair.2.statement
      ∧ similarity s pair.1.statement pair.2.statement < s.threshold
      ∧ pair.1.id = x ∧ pair.2.id = y

-- ========== scores

variable {rows : List DecisionAssumption} {t : GroupTables}
  {a b : DecisionAssumption} {x y n : Id} {s : GroupSetup}
  {cs : List (List Id)}

theorem score_comm (s : GroupSetup) (a b : Text) :
    score s a b = score s b a := by
  unfold score inner
  rw [List.zipWith_comm_of_comm mul_comm]

theorem similarity_comm (s : GroupSetup) (a b : Text) :
    similarity s a b = similarity s b a := by
  unfold similarity
  rw [score_comm]

-- =========== pairs

theorem mem_triangle (h : (a, b) ∈ triangle rows) :
    a ∈ rows ∧ b ∈ rows := by
  induction rows with
  | nil => cases h
  | cons row rows ih =>
    rcases List.mem_append.1 h with h | h
    · obtain ⟨c, hc, heq⟩ := List.mem_map.1 h
      obtain ⟨rfl, rfl⟩ := Prod.mk.inj heq
      exact ⟨List.mem_cons_self .., List.mem_cons_of_mem _ hc⟩
    · exact ⟨List.mem_cons_of_mem _ (ih h).1,
        List.mem_cons_of_mem _ (ih h).2⟩

theorem triangle_ne (hrows : (rows.map (·.id)).Nodup)
    (h : (a, b) ∈ triangle rows) : a.id ≠ b.id := by
  induction rows with
  | nil => cases h
  | cons row rows ih =>
    obtain ⟨hnot, hrows⟩ := List.nodup_cons.1 hrows
    rcases List.mem_append.1 h with h | h
    · obtain ⟨c, hc, heq⟩ := List.mem_map.1 h
      obtain ⟨rfl, rfl⟩ := Prod.mk.inj heq
      exact fun hid => hnot (List.mem_map.2 ⟨_, hc, hid.symm⟩)
    · exact ih hrows h

theorem triangle_complete (ha : a ∈ rows) (hb : b ∈ rows) (hne : a ≠ b) :
    (a, b) ∈ triangle rows ∨ (b, a) ∈ triangle rows := by
  induction rows with
  | nil => cases ha
  | cons row rows ih =>
    unfold triangle
    simp only [List.mem_append]
    rcases List.mem_cons.1 ha with rfl | hrest
    · have hb := (List.mem_cons.1 hb).resolve_left hne.symm
      exact .inl (.inl (List.mem_map.2 ⟨b, hb, rfl⟩))
    · rcases List.mem_cons.1 hb with rfl | hrest'
      · exact .inr (.inl (List.mem_map.2 ⟨a, hrest, rfl⟩))
      · exact (ih hrest hrest').imp .inr .inr

theorem mem_propose
    {c : GroupCandidate} : c ∈ propose s rows ↔ ∃ a b, (a, b) ∈ triangle rows
      ∧ s.reviewFloor ≤ score s a.statement b.statement
      ∧ c = ⟨a.id, b.id, a.statement, b.statement,
          similarity s a.statement b.statement⟩ := by
  unfold propose
  rw [List.mem_insertionSort, List.mem_filterMap]
  constructor
  · rintro ⟨⟨a, b⟩, hpair, hc⟩
    unfold proposePair at hc
    split at hc
    case isTrue => cases hc
    case isFalse hscore =>
      exact ⟨a, b, hpair, not_lt.1 hscore, (Option.some.inj hc).symm⟩
  · rintro ⟨a, b, hpair, hscore, rfl⟩
    exact ⟨(a, b), hpair, if_neg (not_lt.2 hscore)⟩

theorem mem_autoPairs : (x, y) ∈ autoPairs s rows ↔ ∃ a b, (a, b) ∈ triangle rows
      ∧ s.reviewFloor ≤ score s a.statement b.statement
      ∧ s.threshold ≤ similarity s a.statement b.statement
      ∧ a.id = x ∧ b.id = y := by
  unfold autoPairs
  simp only [List.mem_map, List.mem_filter, mem_propose, clears,
    decide_eq_true_eq, Prod.mk.injEq]
  constructor
  · rintro ⟨_, ⟨⟨a, b, hpair, hscore, rfl⟩, hsim⟩, hx, hy⟩
    exact ⟨a, b, hpair, hscore, hsim, hx, hy⟩
  · rintro ⟨a, b, hpair, hscore, hsim, hx, hy⟩
    exact ⟨_, ⟨⟨a, b, hpair, hscore, rfl⟩, hsim⟩, hx, hy⟩

section

variable {s : GroupSetup} {t : GroupTables} {rows : List DecisionAssumption}
  (hids : (t.assumptions.map (·.id)).Nodup) (hrows : Ordered s t rows)

include hids hrows

theorem rows_nodup : (rows.map (·.id)).Nodup :=
  (hrows.1.map _).nodup_iff.2 (hids.sublist (List.filter_sublist.map _))

theorem edge_iff : Edge s t x y
    ↔ (x, y) ∈ autoPairs s rows ∨ (y, x) ∈ autoPairs s rows := by
  constructor
  · rintro ⟨hne, a, ha, b, hb, rfl, rfl, hscore, hsim⟩
    rcases triangle_complete (hrows.1.mem_iff.2 ha) (hrows.1.mem_iff.2 hb)
      (fun heq => hne (heq ▸ rfl)) with hpair | hpair
    · exact .inl (mem_autoPairs.2 ⟨a, b, hpair, hscore, hsim, rfl, rfl⟩)
    · refine .inr (mem_autoPairs.2 ⟨b, a, hpair, ?_, ?_, rfl, rfl⟩)
      · exact score_comm s a.statement b.statement ▸ hscore
      · exact similarity_comm s a.statement b.statement ▸ hsim
  · rintro (hmem | hmem)
    · obtain ⟨a, b, hpair, hscore, hsim, rfl, rfl⟩ := mem_autoPairs.1 hmem
      obtain ⟨ha, hb⟩ := mem_triangle hpair
      exact ⟨triangle_ne (rows_nodup hids hrows) hpair, a, hrows.1.mem_iff.1 ha,
        b, hrows.1.mem_iff.1 hb, rfl, rfl, hscore, hsim⟩
    · obtain ⟨a, b, hpair, hscore, hsim, rfl, rfl⟩ := mem_autoPairs.1 hmem
      obtain ⟨ha, hb⟩ := mem_triangle hpair
      refine ⟨(triangle_ne (rows_nodup hids hrows) hpair).symm, b,
        hrows.1.mem_iff.1 hb, a, hrows.1.mem_iff.1 ha, rfl, rfl, ?_, ?_⟩
      · exact score_comm s a.statement b.statement ▸ hscore
      · exact similarity_comm s a.statement b.statement ▸ hsim

theorem sameRoot_iff_joined :
    UnionFind.SameRoot (UnionFind.unions (autoPairs s rows)) x y
      ↔ Joined s t x y := by
  rw [(UnionFind.unions_spec (autoPairs s rows)).2.2]
  constructor
  · exact fun h => Relation.EqvGen.mono
      (fun x y hxy => (edge_iff hids hrows).2 (.inl hxy)) x y h
  · intro h
    induction h with
    | rel x y hxy =>
      rcases (edge_iff hids hrows).1 hxy with hxy | hxy
      · exact .rel _ _ hxy
      · exact .symm _ _ (.rel _ _ hxy)
    | refl x => exact .refl x
    | symm x y _ ih => exact .symm _ _ ih
    | trans x y z _ _ ih ih' => exact .trans _ _ _ ih ih'

theorem mem_keys_iff_touched :
    x ∈ (UnionFind.unions (autoPairs s rows)).map Prod.fst
      ↔ Touched s t x := by
  rw [(UnionFind.unions_spec (autoPairs s rows)).2.1]
  constructor
  · rintro ⟨⟨a, b⟩, hpair, rfl | rfl⟩
    · exact ⟨b, (edge_iff hids hrows).2 (.inl hpair)⟩
    · exact ⟨a, (edge_iff hids hrows).2 (.inr hpair)⟩
  · rintro ⟨y, hxy⟩
    rcases (edge_iff hids hrows).1 hxy with hxy | hxy
    · exact ⟨_, hxy, .inl rfl⟩
    · exact ⟨_, hxy, .inr rfl⟩

end

-- ======== clusters

/-- The new group of an assumption, if the clusters give it one. -/
def assigned : Id → List (List Id) → Id → Option Id
  | _, [], _ => none
  | n, members :: rest, x =>
    if members.length < 2 then assigned n rest x
    else (assigned (n + 1) rest x).or (if x ∈ members then some n else none)

theorem assigned_none (h : ∀ members ∈ cs, x ∉ members) : assigned n cs x = none:= by
  induction cs generalizing n with
  | nil => rfl
  | cons members rest ih =>
    obtain ⟨hfirst, hrest⟩ := List.forall_mem_cons.1 h
    unfold assigned
    rw [ih hrest, ih hrest, if_neg hfirst]
    exact ite_self _

theorem assigned_fresh {g : Id}
    (h : assigned n cs x = some g) : n ≤ g := by
  induction cs generalizing n with
  | nil => cases h
  | cons members rest ih =>
    unfold assigned at h
    split at h
    case isTrue => exact ih h
    case isFalse =>
      rcases Option.or_eq_some_iff.1 h with h | ⟨-, h⟩
      · exact Nat.le_trans (Nat.le_succ n) (ih h)
      · split at h
        case isTrue => exact Nat.le_of_eq (Option.some.inj h)
        case isFalse => cases h

theorem assigned_some
    {members : List Id} (hmem : members ∈ cs) (htwo : 2 ≤ members.length)
    (hx : x ∈ members) : ∃ g, n ≤ g ∧ assigned n cs x = some g := by
  suffices h : (assigned n cs x).isSome by
    obtain ⟨g, hg⟩ := Option.isSome_iff_exists.1 h
    exact ⟨g, assigned_fresh hg, hg⟩
  induction cs generalizing n with
  | nil => cases hmem
  | cons first rest ih =>
    unfold assigned
    rcases List.mem_cons.1 hmem with rfl | hmem
    · rw [if_neg (Nat.not_lt.2 htwo), if_pos hx, Option.isSome_or]
      exact Bool.or_true _
    · split
      case isTrue => exact ih hmem
      case isFalse => rw [Option.isSome_or, ih hmem, Bool.true_or]

theorem assigned_eq_iff
    (hdisj : cs.Pairwise List.Disjoint) {members others : List Id}
    (hmem : members ∈ cs) (htwo : 2 ≤ members.length) (hx : x ∈ members)
    (hmem' : others ∈ cs) (htwo' : 2 ≤ others.length) (hy : y ∈ others) :
    assigned n cs x = assigned n cs y ↔ y ∈ members := by
  induction cs generalizing n with
  | nil => cases hmem
  | cons first rest ih =>
    obtain ⟨hfirst, hrest⟩ := List.pairwise_cons.1 hdisj
    unfold assigned
    by_cases hone : first.length < 2
    · rw [if_pos hone, if_pos hone]
      have hin : ∀ {ms}, ms ∈ first :: rest → 2 ≤ ms.length → ms ∈ rest := by
        intro ms hms hlen
        refine (List.mem_cons.1 hms).resolve_left fun heq => ?_
        exact absurd hone (Nat.not_lt.2 (heq ▸ hlen))
      exact ih hrest (hin hmem htwo) (hin hmem' htwo')
    · rw [if_neg hone, if_neg hone]
      -- A member of the first cluster is in none of the rest.
      have hnone : ∀ {z}, z ∈ first → assigned (n + 1) rest z = none :=
        fun hz => assigned_none fun ms hms hz' => hfirst ms hms hz hz'
      have hsome : ∀ {z ms}, ms ∈ rest → 2 ≤ ms.length → z ∈ ms →
          ∃ g, n + 1 ≤ g ∧ assigned (n + 1) rest z = some g :=
        fun hms hlen hz => assigned_some hms hlen hz
      rcases List.mem_cons.1 hmem with rfl | hrestx
      · rcases List.mem_cons.1 hmem' with rfl | hresty
        · rw [hnone hx, hnone hy, if_pos hx, if_pos hy]
          exact iff_of_true rfl hy
        · obtain ⟨g, hle, hg⟩ := hsome hresty htwo' hy
          rw [hnone hx, hg, if_pos hx]
          refine iff_of_false (fun heq => ?_)
            fun hy' => hfirst _ hresty hy' hy
          exact absurd hle (Option.some.inj heq ▸ Nat.not_succ_le_self n)
      · obtain ⟨g, hle, hg⟩ := hsome hrestx htwo hx
        rcases List.mem_cons.1 hmem' with rfl | hresty
        · rw [hnone hy, hg, if_pos hy]
          refine iff_of_false (fun heq => ?_)
            fun hy' => hfirst _ hrestx hy hy'
          exact absurd hle (Option.some.inj heq ▸ Nat.not_succ_le_self n)
        · obtain ⟨g', -, hg'⟩ := hsome hresty htwo' hy
          have hih := ih (n := n + 1) hrest hrestx hresty
          rw [hg, hg'] at hih ⊢
          exact hih

/-- An assumption in a group of its clusters' making. -/
def regrouped (f : Id → Option Id) (a : DecisionAssumption) :
    DecisionAssumption :=
  { a with groupId := (f a.id).or a.groupId }

theorem writeClusters_spec (rows : List DecisionAssumption)
    (cs : List (List Id)) (t : GroupTables) :
    (cs.foldl (writeCluster rows) t).assumptions
        = t.assumptions.map (regrouped (assigned t.nextId cs))
      ∧ (cs.foldl (writeCluster rows) t).candidates = t.candidates
      ∧ t.nextId ≤ (cs.foldl (writeCluster rows) t).nextId
      ∧ ∀ x g, assigned t.nextId cs x = some g →
          g < (cs.foldl (writeCluster rows) t).nextId := by
  induction cs generalizing t with
  | nil =>
    refine ⟨?_, rfl, Nat.le_refl _, fun _ _ h => (by cases h)⟩
    exact (List.map_id' _).symm
  | cons members rest ih =>
    rw [List.foldl_cons]
    by_cases hone : members.length < 2
    · have hstep : writeCluster rows t members = t := if_pos hone
      have hassigned : assigned t.nextId (members :: rest)
          = assigned t.nextId rest := funext fun x => if_pos hone
      rw [hstep, hassigned]
      exact ih t
    · have hstep : writeCluster rows t members = _ := if_neg hone
      have hassigned : ∀ x, assigned t.nextId (members :: rest) x
          = (assigned (t.nextId + 1) rest x).or
              (if x ∈ members then some t.nextId else none) :=
        fun x => if_neg hone
      obtain ⟨hassumptions, hcandidates, hnext, hbound⟩ :=
        ih (writeCluster rows t members)
      rw [hstep] at hassumptions hcandidates hnext hbound ⊢
      refine ⟨?_, hcandidates, Nat.le_trans (Nat.le_succ _) hnext,
        fun x g hg => ?_⟩
      · rw [hassumptions, List.map_map]
        refine List.map_congr_left fun a _ => ?_
        show regrouped _ (regroup members t.nextId a) = _
        unfold regrouped regroup
        rw [hassigned]
        split
        case isTrue => simp
        case isFalse => simp
      · rw [hassigned] at hg
        rcases Option.or_eq_some_iff.1 hg with hg | ⟨-, hg⟩
        · exact hbound x g hg
        · split at hg
          case isTrue => exact Option.some.inj hg ▸ hnext
          case isFalse => cases hg

-- =========== a run

/-- Ids are unique, and every id was drawn from the supply. -/
structure GroupsKeyed (t : GroupTables) : Prop where
  ids : (t.assumptions.map (·.id)).Nodup
  groups : ∀ a ∈ t.assumptions, ∀ g, a.groupId = some g → g < t.nextId
  candidates : ∀ c ∈ t.candidates, c.id < t.nextId
  unique : (t.candidates.map (·.id)).Nodup

theorem assumption_map {assumptions : List DecisionAssumption}
    {f : DecisionAssumption → DecisionAssumption} (hf : ∀ a, (f a).id = a.id)
    (h : assumptions = t.assumptions.map f) (x : Id) :
    (assumptions.find? fun a => decide (a.id = x))
      = (t.assumption x).map f := by
  rw [h, List.find?_map]
  unfold GroupTables.assumption
  congr 2
  funext a
  simp only [Function.comp, hf]

theorem assumption_id (h : t.assumption x = some a) : a.id = x:= by
  simpa using List.find?_some h

theorem mem_of_assumption (h : t.assumption x = some a) : a ∈ t.assumptions:=
  List.mem_of_find?_eq_some h

theorem exists_assumption
    (h : x ∈ t.assumptions.map (·.id)) : ∃ a, t.assumption x = some a := by
  obtain ⟨a, ha, rfl⟩ := List.mem_map.1 h
  refine Option.isSome_iff_exists.1 (List.find?_isSome.2 ⟨a, ha, ?_⟩)
  exact decide_eq_true rfl

theorem groupOf_lt (h : GroupsKeyed t) {g : Id}
    (hg : groupOf t x = some g) : g < t.nextId := by
  obtain ⟨a, ha, hg⟩ := Option.bind_eq_some_iff.1 hg
  exact h.groups a (mem_of_assumption ha) g hg

theorem mem_of_touched (h : Touched s t x) : x ∈ t.assumptions.map (·.id):= by
  obtain ⟨y, -, a, ha, -, -, rfl, -⟩ := h
  exact List.mem_map.2 ⟨a, (List.mem_filter.1 ha).1, rfl⟩

theorem queue_spec (s : GroupSetup) (cs : List GroupCandidate)
    (t : GroupTables) :
    ∃ new, cs.foldl (queue s) t
        = { t with candidates := t.candidates ++ new
                   nextId := t.nextId + new.length }
      ∧ new.map (·.id) = List.range' t.nextId new.length
      ∧ (∀ d ∈ new, d.status = .pending ∧ ∃ c ∈ cs, d.leftId = c.leftId
          ∧ d.rightId = c.rightId
          ∧ outstanding t c.leftId c.rightId = false)
      ∧ ∀ c ∈ cs, outstanding t c.leftId c.rightId = false →
          ∃ d ∈ new, d.leftId = c.leftId ∧ d.rightId = c.rightId := by
  induction cs generalizing t with
  | nil =>
    exact ⟨[], by simp, rfl, fun _ h => absurd h List.not_mem_nil,
      fun _ h => absurd h List.not_mem_nil⟩
  | cons c cs ih =>
    rw [List.foldl_cons]
    by_cases hout : outstanding t c.leftId c.rightId = true
    · have hstep : queue s t c = t := if_pos hout
      obtain ⟨new, hnew, hids, hfresh, hcover⟩ := ih t
      rw [hstep]
      refine ⟨new, hnew, hids, fun d hd => ?_, List.forall_mem_cons.2
        ⟨fun hno => absurd hout (hno ▸ Bool.false_ne_true), hcover⟩⟩
      obtain ⟨hstatus, c', hc', hrest⟩ := hfresh d hd
      exact ⟨hstatus, c', List.mem_cons_of_mem _ hc', hrest⟩
    · have hout := Bool.eq_false_of_not_eq_true hout
      obtain ⟨d, hd⟩ : ∃ d : AssumptionGroupCandidate, d =
        ⟨t.nextId, c.leftId, c.rightId, c.similarity, .pending, s.modelId,
          none⟩ := ⟨_, rfl⟩
      have hstep : queue s t c =
          { t with candidates := t.candidates ++ [d]
                   nextId := t.nextId + 1 } := by
        unfold queue
        rw [hout, hd]
        rfl
      obtain ⟨new, hnew, hids, hfresh, hcover⟩ := ih (queue s t c)
      rw [hstep] at hnew hids hfresh hcover ⊢
      -- What is outstanding afterwards and was not before is the new row.
      have hmore : ∀ x y, outstanding { t with
          candidates := t.candidates ++ [d], nextId := t.nextId + 1 } x y
            = (outstanding t x y
              || decide (d.leftId = x ∧ d.rightId = y
                ∧ d.status = .pending)) := by
        intro x y
        simp [outstanding, List.any_append]
      refine ⟨d :: new, ?_, ?_, ?_, ?_⟩
      · rw [hnew]
        simp [Nat.add_assoc, Nat.add_comm 1]
      · rw [List.map_cons, hids, List.length_cons, List.range'_succ, hd]
      · refine List.forall_mem_cons.2 ⟨?_, fun e he => ?_⟩
        · subst hd
          exact ⟨rfl, c, List.mem_cons_self .., rfl, rfl, hout⟩
        · obtain ⟨hstatus, c', hc', hl, hr, hno⟩ := hfresh e he
          rw [hmore, Bool.or_eq_false_iff] at hno
          exact ⟨hstatus, c', List.mem_cons_of_mem _ hc', hl, hr, hno.1⟩
      · refine List.forall_mem_cons.2
          ⟨fun _ => ⟨d, List.mem_cons_self .., hd ▸ rfl, hd ▸ rfl⟩,
            fun c' hc' hno => ?_⟩
        by_cases hsame : c.leftId = c'.leftId ∧ c.rightId = c'.rightId
        · exact ⟨d, List.mem_cons_self .., hd ▸ hsame.1, hd ▸ hsame.2⟩
        · obtain ⟨e, he, hpair⟩ := hcover c' hc' (by
            rw [hmore, hno, hd]
            simpa using hsame)
          exact ⟨e, List.mem_cons_of_mem _ he, hpair⟩

/-- What a run makes of the groups. -/
structure Regrouped (s : GroupSetup) (t t' : GroupTables) : Prop where
  /-- Without an edge, nothing happens. -/
  untouched : ∀ x, ¬ Touched s t x → groupOf t' x = groupOf t x
  /-- With one, the group is new. -/
  touched : ∀ x, Touched s t x →
    ∃ g, t.nextId ≤ g ∧ groupOf t' x = some g
  /-- One group for each component. -/
  joined : ∀ x y, Touched s t x → Touched s t y →
    (groupOf t' x = groupOf t' y ↔ Joined s t x y)

section

variable {s : GroupSetup} {t : GroupTables} {rows : List DecisionAssumption}
  (hkeyed : GroupsKeyed t) (hrows : Ordered s t rows)

include hkeyed hrows

theorem cluster_of_touched (hx : Touched s t x) :
    ∃ members ∈ (UnionFind.clusters
        (UnionFind.unions (autoPairs s rows))).map Prod.snd,
      2 ≤ members.length ∧ x ∈ members
        ∧ ∀ y, Touched s t y → (y ∈ members ↔ Joined s t x y) := by
  have hforest := (UnionFind.unions_spec (autoPairs s rows)).1
  have hkey := fun x => mem_keys_iff_touched hkeyed.ids hrows (x := x)
  obtain ⟨-, -, hin⟩ := UnionFind.clusters_spec hforest
  obtain ⟨g, hg, hxg⟩ := hin x ((hkey x).2 hx)
  have hsame : ∀ y, Touched s t y → (y ∈ g.2 ↔ Joined s t x y) := by
    intro y hy
    rw [UnionFind.clusters_sameRoot hforest hg hxg,
      sameRoot_iff_joined hkeyed.ids hrows]
    exact and_iff_right ((hkey y).2 hy)
  refine ⟨g.2, List.mem_map.2 ⟨g, hg, rfl⟩, ?_, hxg, hsame⟩
  obtain ⟨y, hxy⟩ := hx
  have hy : y ∈ g.2 := by
    refine (hsame y ⟨x, ?_⟩).2 (.rel _ _ hxy)
    exact (edge_iff hkeyed.ids hrows).2
      ((edge_iff hkeyed.ids hrows).1 hxy).symm
  by_contra hone
  match hlist : g.2, hone with
  | [], _ =>
    rw [hlist] at hxg
    cases hxg
  | [z], _ =>
    rw [hlist] at hxg hy
    exact hxy.1 ((List.mem_singleton.1 hxg).trans
      (List.mem_singleton.1 hy).symm)
  | _ :: _ :: _, hone => exact hone (Nat.le_add_left 2 _)

theorem writeGroups_spec : Regrouped s t (writeGroups s rows t) := by
  have hforest := (UnionFind.unions_spec (autoPairs s rows)).1
  unfold writeGroups
  generalize hcs : (UnionFind.clusters
    (UnionFind.unions (autoPairs s rows))).map Prod.snd = cs
  have hdisj : cs.Pairwise List.Disjoint := by
    rw [← hcs, List.pairwise_map]
    exact UnionFind.clusters_disjoint hforest
  have hgroup : ∀ x, groupOf (cs.foldl (writeCluster rows) t) x
      = (t.assumption x).bind fun a =>
          (assigned t.nextId cs x).or a.groupId := by
    intro x
    show ((List.find? _ _).bind _) = _
    rw [assumption_map (t := t) (f := regrouped (assigned t.nextId cs))
      (fun _ => rfl) (writeClusters_spec rows cs t).1 x]
    cases ha : t.assumption x with
    | none => rfl
    | some a =>
      show (assigned t.nextId cs a.id).or a.groupId = _
      rw [assumption_id ha]
      rfl
  have hcluster := fun {x} (hx : Touched s t x) =>
    hcs ▸ cluster_of_touched hkeyed hrows hx
  have htouched : ∀ x, Touched s t x →
      groupOf (cs.foldl (writeCluster rows) t) x = assigned t.nextId cs x
        ∧ ∃ g, t.nextId ≤ g ∧ assigned t.nextId cs x = some g := by
    intro x hx
    obtain ⟨members, hmem, htwo, hxm, -⟩ := hcluster hx
    obtain ⟨g, hle, hg⟩ := assigned_some (n := t.nextId) hmem htwo hxm
    obtain ⟨a, ha⟩ := exists_assumption (mem_of_touched hx)
    refine ⟨?_, g, hle, hg⟩
    rw [hgroup, ha, hg]
    rfl
  constructor
  case untouched =>
    intro x hx
    have hnone : assigned t.nextId cs x = none := by
      refine assigned_none fun members hmem hxm => hx ?_
      rw [← hcs] at hmem
      obtain ⟨g, hg, rfl⟩ := List.mem_map.1 hmem
      exact (mem_keys_iff_touched hkeyed.ids hrows).1
        (((UnionFind.clusters_spec hforest).2.1 g hg x hxm).1)
    rw [hgroup, hnone]
    rfl
  case touched =>
    intro x hx
    obtain ⟨heq, g, hle, hg⟩ := htouched x hx
    exact ⟨g, hle, heq.trans hg⟩
  case joined =>
    intro x y hx hy
    obtain ⟨members, hmem, htwo, hxm, hsame⟩ := hcluster hx
    obtain ⟨others, hmem', htwo', hym, -⟩ := hcluster hy
    rw [(htouched x hx).1, (htouched y hy).1,
      assigned_eq_iff hdisj hmem htwo hxm hmem' htwo' hym]
    exact hsame y hy

end

theorem joined_touched
    (h : Joined s t x y) : x = y ∨ Touched s t x ∧ Touched s t y := by
  induction h with
  | rel x y hxy =>
    obtain ⟨hne, a, ha, b, hb, hx, hy, hscore, hsim⟩ := hxy
    refine .inr ⟨⟨y, hne, a, ha, b, hb, hx, hy, hscore, hsim⟩, x, hne.symm,
      b, hb, a, ha, hy, hx, ?_, ?_⟩
    · exact score_comm s a.statement b.statement ▸ hscore
    · exact similarity_comm s a.statement b.statement ▸ hsim
  | refl => exact .inl rfl
  | symm _ _ _ ih => exact ih.imp Eq.symm And.symm
  | trans x y z _ _ ih ih' =>
    rcases ih with rfl | ih
    · exact ih'
    · rcases ih' with rfl | ih'
      · exact .inr ih
      · exact .inr ⟨ih.1, ih'.2⟩

theorem edge_congr {t' : GroupTables}
    {f : DecisionAssumption → DecisionAssumption}
    (hid : ∀ a, (f a).id = a.id) (htext : ∀ a, (f a).statement = a.statement)
    (h : t'.assumptions = t.assumptions.map f) : Edge s t' = Edge s t := by
  have heligible : eligible t' = (eligible t).map f := by
    unfold eligible
    rw [h, List.filter_map]
    congr 2
    funext a
    simp only [Function.comp, htext]
  funext x y
  unfold Edge
  rw [heligible]
  simp only [List.mem_map, exists_exists_and_eq_and, hid, htext]
-- ====== a whole run

/-- What a run makes of the queue. -/
structure Queued (s : GroupSetup) (rows : List DecisionAssumption)
    (t t' : GroupTables) (new : List AssumptionGroupCandidate) : Prop where
  appended : t'.candidates = t.candidates ++ new
  fresh : ∀ d ∈ new, t.nextId ≤ d.id
  pending : ∀ d ∈ new, d.status = .pending
  waits : ∀ d ∈ new, Waits s rows d.leftId d.rightId
    ∧ outstanding t d.leftId d.rightId = false
  complete : ∀ x y, Waits s rows x y → outstanding t x y = false →
    ∃ d ∈ new, d.leftId = x ∧ d.rightId = y

theorem groupAssumptions_spec (hkeyed : GroupsKeyed t)
    (hrows : Ordered s t rows) :
    ∃ new, Queued s rows t (groupAssumptions s rows t) new
      ∧ Regrouped s t (groupAssumptions s rows t)
      ∧ Edge s (groupAssumptions s rows t) = Edge s t
      ∧ GroupsKeyed (groupAssumptions s rows t) := by
  have hgroups := writeGroups_spec hkeyed hrows
  obtain ⟨hassumptions, hcandidates, hnext, hbound⟩ := writeClusters_spec rows
    ((UnionFind.clusters (UnionFind.unions (autoPairs s rows))).map Prod.snd) t
  generalize hcs : (UnionFind.clusters
    (UnionFind.unions (autoPairs s rows))).map Prod.snd = cs at *
  have ht₁ : writeGroups s rows t = cs.foldl (writeCluster rows) t := by
    rw [← hcs]
    rfl
  rw [← ht₁] at hassumptions hcandidates hnext hbound
  obtain ⟨new, hnew, hids, hfresh, hcover⟩ := queue_spec s
    ((propose s rows).filter fun c => !clears s c) (writeGroups s rows t)
  have hout : outstanding (writeGroups s rows t) = outstanding t := by
    unfold outstanding
    rw [hcandidates]
  rw [hout] at hfresh hcover
  have ht' : groupAssumptions s rows t = _ := hnew
  have hedge : Edge s (groupAssumptions s rows t) = Edge s t := by
    refine edge_congr (f := regrouped (assigned t.nextId cs)) (fun _ => rfl)
      (fun _ => rfl) ?_
    rw [ht']
    exact hassumptions
  have hgroup : groupOf (groupAssumptions s rows t)
      = groupOf (writeGroups s rows t) := by
    rw [ht']
    rfl
  have hwaits : ∀ x y, Waits s rows x y ↔
      ∃ c ∈ (propose s rows).filter fun c => !clears s c,
        c.leftId = x ∧ c.rightId = y := by
    intro x y
    simp only [List.mem_filter, mem_propose, clears, Bool.not_eq_true',
      decide_eq_false_iff_not, not_le]
    constructor
    · rintro ⟨⟨a, b⟩, hpair, hscore, hsim, hx, hy⟩
      exact ⟨_, ⟨⟨a, b, hpair, hscore, rfl⟩, hsim⟩, hx, hy⟩
    · rintro ⟨_, ⟨⟨a, b, hpair, hscore, rfl⟩, hsim⟩, hx, hy⟩
      exact ⟨(a, b), hpair, hscore, hsim, hx, hy⟩
  have hqueued : Queued s rows t (groupAssumptions s rows t) new := by
    constructor
    case appended =>
      rw [ht', ← hcandidates]
    case fresh =>
      intro d hd
      have hmem : d.id ∈ new.map (·.id) := List.mem_map.2 ⟨d, hd, rfl⟩
      rw [hids, List.mem_range'_1] at hmem
      exact Nat.le_trans hnext hmem.1
    case pending => exact fun d hd => (hfresh d hd).1
    case waits =>
      intro d hd
      obtain ⟨-, c, hc, hl, hr, hno⟩ := hfresh d hd
      rw [hl, hr]
      exact ⟨(hwaits _ _).2 ⟨c, hc, rfl, rfl⟩, hno⟩
    case complete =>
      intro x y hxy hno
      obtain ⟨c, hc, rfl, rfl⟩ := (hwaits x y).1 hxy
      exact hcover c hc hno
  refine ⟨new, hqueued, ?_, hedge, ?_⟩
  · exact ⟨fun x hx => hgroup ▸ hgroups.untouched x hx,
      fun x hx => hgroup ▸ hgroups.touched x hx,
      fun x y hx hy => hgroup ▸ hgroups.joined x y hx hy⟩
  · have hle : (writeGroups s rows t).nextId
        ≤ (groupAssumptions s rows t).nextId := by
      rw [ht']
      exact Nat.le_add_right _ _
    have hrows' : (groupAssumptions s rows t).assumptions
        = t.assumptions.map (regrouped (assigned t.nextId cs)) := by
      rw [ht']
      exact hassumptions
    constructor
    case ids =>
      rw [hrows', List.map_map]
      exact hkeyed.ids
    case groups =>
      intro a ha g hg
      rw [hrows'] at ha
      obtain ⟨b, hb, rfl⟩ := List.mem_map.1 ha
      refine Nat.lt_of_lt_of_le ?_ hle
      rcases Option.or_eq_some_iff.1 hg with hg | ⟨-, hg⟩
      · exact hbound b.id g hg
      · exact Nat.lt_of_lt_of_le (hkeyed.groups b hb g hg) hnext
    case candidates =>
      intro c hc
      rw [hqueued.appended] at hc
      rcases List.mem_append.1 hc with hc | hc
      · exact Nat.lt_of_lt_of_le (hkeyed.candidates c hc)
          (Nat.le_trans hnext hle)
      · have hmem : c.id ∈ new.map (·.id) := List.mem_map.2 ⟨c, hc, rfl⟩
        rw [hids, List.mem_range'_1] at hmem
        rw [ht']
        exact hmem.2
    case unique =>
      rw [hqueued.appended, List.map_append, List.nodup_append]
      refine ⟨hkeyed.unique, hids ▸ List.nodup_range', ?_⟩
      intro x hx y hy heq
      obtain ⟨c, hc, rfl⟩ := List.mem_map.1 hx
      obtain ⟨d, hd, rfl⟩ := List.mem_map.1 hy
      exact absurd (hkeyed.candidates c hc)
        (Nat.not_lt.2 (heq ▸ hqueued.fresh d hd))

end AssumptionGroups

end MemoryOS
