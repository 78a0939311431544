/-
Pruning never changes a decision (`Debounce`).

The greedy rule looks at the whole history: a touch is emitted unless the last
emitted one of its key is less than a window ago. The pruned table agrees with
the history (`Agrees`): what it has forgotten is a window old already, and with
a clock that does not run back it stays so. So both decide alike, and the
spacing and the cover of a burst are facts about the greedy rule.
-/
import MemoryOS.Corpus.Watcher

namespace MemoryOS

-- ====== statement vocabulary

/-- The last emitted touch of a key. -/
def lastEmitted (log : List Decided) (key : String) : Option Decided :=
  log.reverse.find? fun d => d.emitted && d.key == key

/-- The greedy rule, over the whole history: nothing is ever forgotten. -/
def greedy (window : Int) (log : List Decided) : List Touch → List Decided
  | [] => []
  | touch :: rest =>
    let emitted := match lastEmitted log touch.key with
      | none => true
      | some last => !decide (touch.time - last.time < window)
    let decided : Decided := ⟨touch, emitted⟩
    decided :: greedy window (log ++ [decided]) rest

/-- Emitted touches of a key are a window apart. -/
def Spaced (window : Int) (log : List Decided) : Prop :=
  log.Pairwise fun x y => x.emitted = true → y.emitted = true → x.key = y.key →
    window ≤ y.time - x.time

/-- Every suppressed touch is within a window after the last emitted touch of
its key. -/
def Covered (window : Int) (log : List Decided) : Prop :=
  ∀ before d after, log = before ++ d :: after → d.emitted = false →
    ∃ last, lastEmitted before d.key = some last ∧ d.time - last.time < window

/-- The clock does not run back. -/
def Ticks (touches : List Touch) : Prop :=
  touches.Pairwise fun x y => x.time ≤ y.time

variable {window : Int} {log : List Decided} {touches : List Touch}
  {key other : String} {now later : Timestamp} {d : Debounce} {x : Decided}
  {entry : String × Timestamp}

-- ======= the table

theorem le_sub_iff_window {last now window : Int} :
    last ≤ now - window ↔ ¬ now - last < window := by
  omega

theorem window_earlier {last now later window : Int} (hle : now ≤ later)
    (hlate : later - last < window) : now - last < window := by
  omega

theorem window_since {first last now window : Int} (hle : first ≤ last)
    (hapart : ¬ now - last < window) : window ≤ now - first := by
  omega

theorem Debounce.mem_prune : entry ∈ (d.prune now).last
    ↔ entry ∈ d.last ∧ now - entry.2 < d.window := by
  unfold prune
  simp only [List.mem_filter, Bool.not_eq_true', decide_eq_false_iff_not,
    le_sub_iff_window, not_not]

theorem Debounce.mem_set : entry ∈ (d.set key now).last
    ↔ entry = (key, now) ∨ (entry ∈ d.last ∧ entry.1 ≠ key) := by
  unfold set
  by_cases hkey : (d.last.any fun entry => entry.1 == key) = true
  · simp only [if_pos hkey, List.mem_map]
    obtain ⟨old, hold, hsame⟩ := List.any_eq_true.1 hkey
    constructor
    · intro h
      obtain ⟨e, he, rfl⟩ := h
      by_cases heq : e.1 = key
      · left
        simp [heq]
      · right
        simpa [heq] using he
    · intro h
      rcases h with h | ⟨h, hne⟩
      · exact ⟨old, hold, by rw [if_pos hsame, h]⟩
      · exact ⟨entry, h, if_neg (by simpa using hne)⟩
  · have hnone : ∀ e ∈ d.last, e.1 ≠ key := by
      intro e he heq
      exact hkey (List.any_eq_true.2 ⟨e, he, by simpa using heq⟩)
    simp only [if_neg hkey, List.mem_append, List.mem_singleton]
    constructor
    · intro h
      rcases h with h | h
      · exact .inr ⟨h, hnone entry h⟩
      · exact .inl h
    · intro h
      rcases h with h | h
      · exact .inr h
      · exact .inl h.1

theorem Debounce.mem_of_get (h : d.get key = some now) : (key, now) ∈ d.last := by
  obtain ⟨before, after, hsplit, -⟩ := List.lookup_eq_some_iff.1 h
  rw [hsplit]
  simp

theorem Debounce.notMem_of_get (h : d.get key = none) : (key, now) ∉ d.last := by
  intro hmem
  have hne := List.lookup_eq_none_iff.1 h _ hmem
  simp at hne

-- ====== the history

theorem lastEmitted_append : lastEmitted (log ++ [x]) key
    = if x.emitted = true ∧ x.key = key then some x else lastEmitted log key := by
  unfold lastEmitted
  rw [List.reverse_append, List.reverse_singleton, List.singleton_append,
    List.find?_cons]
  by_cases hx : x.emitted = true ∧ x.key = key
  · rw [if_pos hx]
    simp [hx]
  · rw [if_neg hx]
    have hno : (x.emitted && x.key == key) = false := by simpa using hx
    rw [hno]

theorem le_lastEmitted {y : Decided} (hticks : log.Pairwise fun x y => x.time ≤ y.time)
    (h : lastEmitted log key = some x) (hy : y ∈ log) (hemitted : y.emitted = true)
    (hkey : y.key = key) : y.time ≤ x.time := by
  obtain ⟨hx, before, after, hsplit, hnone⟩ := List.find?_eq_some_iff_append.1 h
  have hlog : log = after.reverse ++ [x] ++ before.reverse := by
    rw [← List.reverse_inj, hsplit]
    simp
  rw [hlog] at hy hticks
  rcases List.mem_append.1 hy with hy | hy
  · rcases List.mem_append.1 hy with hy | hy
    · have hpair := (List.pairwise_append.1 hticks).1
      exact (List.pairwise_append.1 hpair).2.2 y hy x (List.mem_singleton_self x)
    · exact (List.mem_singleton.1 hy) ▸ Int.le_refl _
  · have hno := hnone y (List.mem_reverse.1 hy)
    simp [hemitted, hkey] at hno

-- ======= agreement

/-- What the table holds is the history's last word on a key, and of a key
whose window has not passed it holds that. -/
structure Agrees (d : Debounce) (log : List Decided) (now : Timestamp) : Prop where
  sound : ∀ entry ∈ d.last,
    ∃ last, lastEmitted log entry.1 = some last ∧ last.time = entry.2
  kept : ∀ key last, lastEmitted log key = some last →
    now - last.time < d.window → (key, last.time) ∈ d.last

theorem Agrees.prune (h : Agrees d log now) (hle : now ≤ later) :
    Agrees (d.prune later) log later := by
  constructor
  · exact fun entry hentry => h.sound entry (Debounce.mem_prune.1 hentry).1
  · intro key last hlast hlate
    apply Debounce.mem_prune.2
    exact ⟨h.kept key last hlast (window_earlier hle hlate), hlate⟩

theorem Agrees.suppress (h : Agrees d log now) (hx : x.emitted = false) :
    Agrees d (log ++ [x]) now := by
  have hsame : ∀ key, lastEmitted (log ++ [x]) key = lastEmitted log key := by
    intro key
    rw [lastEmitted_append, if_neg (by simp [hx])]
  constructor
  · simpa only [hsame] using h.sound
  · simpa only [hsame] using h.kept

theorem Agrees.emit (h : Agrees d log now) (hx : x.emitted = true)
    (htime : x.time = now) : Agrees (d.set x.key now) (log ++ [x]) now := by
  constructor
  · intro entry hentry
    rcases Debounce.mem_set.1 hentry with rfl | ⟨hentry, hne⟩
    · exact ⟨x, by rw [lastEmitted_append, if_pos ⟨hx, rfl⟩], htime⟩
    · rw [lastEmitted_append, if_neg (fun hkey => hne hkey.2.symm)]
      exact h.sound entry hentry
  · intro key last hlast hlate
    apply Debounce.mem_set.2
    rw [lastEmitted_append] at hlast
    split at hlast
    case isTrue hkey =>
      left
      obtain rfl := Option.some.inj hlast
      rw [hkey.2, htime]
    case isFalse hno =>
      right
      refine ⟨h.kept key last hlast hlate, fun heq => hno ⟨hx, heq.symm⟩⟩

theorem Agrees.step (h : Agrees d log now) {touch : Touch} (hle : now ≤ touch.time) :
    let answer := d.shouldEmit touch.key touch.time
    (answer.1 = match lastEmitted log touch.key with
        | none => true
        | some last => !decide (touch.time - last.time < d.window))
      ∧ answer.2.window = d.window
      ∧ Agrees answer.2 (log ++ [⟨touch, answer.1⟩]) touch.time := by
  have hpruned := h.prune hle
  cases hget : (d.prune touch.time).get touch.key with
  | none =>
    have hanswer : d.shouldEmit touch.key touch.time
        = (true, (d.prune touch.time).set touch.key touch.time) := by
      simp only [Debounce.shouldEmit, hget]
    rw [hanswer]
    refine ⟨?_, rfl, hpruned.emit (x := ⟨touch, true⟩) rfl rfl⟩
    cases hlast : lastEmitted log touch.key with
    | none => rfl
    | some last =>
      have hold : ¬ touch.time - last.time < d.window := fun hlate =>
        Debounce.notMem_of_get hget (hpruned.kept _ _ hlast hlate)
      simp [hold]
  | some last =>
    have hmem := Debounce.mem_of_get hget
    obtain ⟨x, hlast, htime⟩ := hpruned.sound _ hmem
    have hlate : touch.time - last < d.window := (Debounce.mem_prune.1 hmem).2
    have hlate' : touch.time - x.time < d.window := by rw [htime]; exact hlate
    have hanswer : d.shouldEmit touch.key touch.time
        = (false, d.prune touch.time) := by
      simp only [Debounce.shouldEmit, hget]
      exact if_pos hlate
    rw [hanswer]
    exact ⟨by simp [hlast, hlate'], rfl,
      hpruned.suppress (x := ⟨touch, false⟩) rfl⟩

theorem Agrees.run (h : Agrees d log now) (hticks : Ticks touches)
    (hle : ∀ touch ∈ touches, now ≤ touch.time) :
    d.run touches = greedy d.window log touches := by
  induction touches generalizing d log now with
  | nil => rfl
  | cons touch rest ih =>
    obtain ⟨hnext, hrest⟩ := List.pairwise_cons.1 hticks
    obtain ⟨hdecided, hwindow, hagrees⟩ :=
      h.step (hle touch List.mem_cons_self)
    rw [Debounce.run, greedy, ih hagrees hrest hnext, hwindow, hdecided]

-- ====== the greedy rule

theorem greedy_spec (hticks : Ticks touches)
    (htimes : log.Pairwise fun x y => x.time ≤ y.time)
    (hle : ∀ d ∈ log, ∀ touch ∈ touches, d.time ≤ touch.time)
    (hspaced : Spaced window log) (hcovered : Covered window log) :
    Spaced window (log ++ greedy window log touches)
      ∧ Covered window (log ++ greedy window log touches) := by
  induction touches generalizing log with
  | nil => simpa [greedy] using ⟨hspaced, hcovered⟩
  | cons touch rest ih =>
    obtain ⟨hnext, hrest⟩ := List.pairwise_cons.1 hticks
    rw [greedy]
    generalize hdecided : (Decided.mk touch (match lastEmitted log touch.key with
      | none => true
      | some last => !decide (touch.time - last.time < window))) = decided
    have htouch : decided.toTouch = touch := by rw [← hdecided]
    have hemitted : decided.emitted = match lastEmitted log decided.key with
        | none => true
        | some last => !decide (decided.time - last.time < window) := by
      rw [← hdecided]
    have hbefore : ∀ d ∈ log, d.time ≤ decided.time := by
      intro d hd
      rw [htouch]
      exact hle d hd touch List.mem_cons_self
    rw [← List.singleton_append, ← List.append_assoc]
    apply ih hrest
    · rw [List.pairwise_append]
      refine ⟨htimes, List.pairwise_singleton _ _, fun d hd e he => ?_⟩
      rw [List.mem_singleton.1 he]
      exact hbefore d hd
    · intro d hd next hnext'
      rcases List.mem_append.1 hd with hd | hd
      · exact hle d hd next (List.mem_cons_of_mem touch hnext')
      · rw [List.mem_singleton.1 hd, htouch]
        exact hnext next hnext'
    · apply List.pairwise_append.2
      refine ⟨hspaced, List.pairwise_singleton _ _, fun d hd e he hd' he' hkey => ?_⟩
      obtain rfl := List.mem_singleton.1 he
      rw [he'] at hemitted
      cases hlast : lastEmitted log e.key with
      | none =>
        have hno := List.find?_eq_none.1 hlast d (List.mem_reverse.2 hd)
        simp [hd', hkey] at hno
      | some last =>
        have hlate := le_lastEmitted htimes hlast hd hd' hkey
        simp only [hlast] at hemitted
        exact window_since hlate (by simpa using hemitted)
    · intro before d after hsplit hsuppressed
      rcases List.eq_nil_or_concat after with rfl | ⟨after, last, rfl⟩
      · obtain ⟨rfl, hd⟩ := List.append_inj' hsplit rfl
        obtain rfl := List.singleton_inj.1 hd
        rw [hsuppressed] at hemitted
        cases hlast : lastEmitted log decided.key with
        | none => simp [hlast] at hemitted
        | some last =>
          simp only [hlast] at hemitted
          exact ⟨last, rfl, by simpa using hemitted⟩
      · rw [List.concat_eq_append, ← List.cons_append, ← List.append_assoc]
          at hsplit
        obtain ⟨hlog, -⟩ := List.append_inj' hsplit rfl
        exact hcovered before d after hlog hsuppressed

/-- Touches of two files. -/
def twoFiles : List Touch :=
  [⟨"a", 0⟩, ⟨"b", 1⟩, ⟨"a", 2⟩, ⟨"a", 9⟩, ⟨"b", 9⟩]

example : ((Debounce.mk 5 []).run twoFiles).map Decided.emitted
    = [true, true, false, true, true] := by decide

end MemoryOS
