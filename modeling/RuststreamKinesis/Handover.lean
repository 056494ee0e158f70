import RuststreamKinesis.Turns

/-!
# What a reader is handed

A reader is handed what the one before it returned so long as the handle of every reader that gives
a place back is polled within the budget of the coordinator's task (`Kept`). Past it the place is
lost, whatever the budget (`outage_loses`).
-/

namespace RuststreamKinesis

set_option autoImplicit false

variable {Shard : Type}

namespace Readers

open Runs

/-- `p` is the last reader of `shard` among the first `j` tasks. -/
def Previous (tasks : List (ReaderTask Shard)) (shard : Shard) (j : Nat) (p : ReaderTask Shard) :
    Prop :=
  ∃ i < j, tasks[i]? = some p ∧ p.shard = shard ∧
    ∀ (k : Nat) (u : ReaderTask Shard), i < k → k < j → tasks[k]? = some u → u.shard ≠ shard

/-- `rewind` is what the last reader of `shard` among the first `j` tasks returned: none if there
was none, it returned none or it panicked. -/
def Handed (tasks : List (ReaderTask Shard)) (shard : Shard) (j : Nat)
    (rewind : Option ShardStart) : Prop :=
  (∀ p, Previous tasks shard j p → ∃ exit, p.stage = .finished exit ∧ rewind = exit.rewind) ∧
  ((∀ i < j, ∀ u : ReaderTask Shard, tasks[i]? = some u → u.shard ≠ shard) → rewind = none)

section Lists
variable {tasks : List (ReaderTask Shard)} {shard : Shard} {i j : Nat} {t : ReaderTask Shard}
  {stage : TaskStage} {rewind : Option ShardStart}

theorem Handed.push (h : Handed tasks shard j rewind) (hj : j ≤ tasks.length) :
    Handed (tasks ++ [t]) shard j rewind := by
  refine ⟨?_, ?_⟩
  · intro p hprevious
    obtain ⟨i, hij, hp, hs, hlast⟩ := hprevious
    rw [List.getElem?_append_left (by omega)] at hp
    refine h.1 p ⟨i, hij, hp, hs, ?_⟩
    intro k u hik hkj hu
    exact hlast k u hik hkj (Cells.get_push_old hu)
  · intro hnone
    refine h.2 ?_
    intro i hij u hu
    exact hnone i hij u (Cells.get_push_old hu)

/-- A reader of another shard is spawned. -/
theorem Handed.skip (h : Handed tasks shard tasks.length rewind) (ht : t.shard ≠ shard) :
    Handed (tasks ++ [t]) shard (tasks ++ [t]).length rewind := by
  refine ⟨?_, ?_⟩
  · intro p hprevious
    obtain ⟨i, hij, hp, hs, hlast⟩ := hprevious
    rcases Cells.get_push hp with hp | ⟨_, rfl⟩
    · refine h.1 p ⟨i, Cells.get_lt hp, hp, hs, ?_⟩
      intro k u hik hk hu
      refine hlast k u hik ?_ (Cells.get_push_old hu)
      simp only [List.length_append, List.length_singleton]
      omega
    · exact absurd hs ht
  · intro hnone
    refine h.2 ?_
    intro i hi u hu
    refine hnone i ?_ u (Cells.get_push_old hu)
    simp only [List.length_append, List.length_singleton]
    omega

/-- What was handed on came from a task that finished, which takes no step. -/
theorem Handed.set (h : Handed tasks shard j rewind) (ht : tasks[i]? = some t)
    (hf : t.isFinished = false) :
    Handed (tasks.set i { t with stage := stage }) shard j rewind := by
  have hold : ∀ (k : Nat) (u : ReaderTask Shard), tasks[k]? = some u →
      ∃ v, (tasks.set i { t with stage := stage })[k]? = some v ∧ v.shard = u.shard := by
    intro k u hu
    by_cases hk : k = i
    · subst hk
      obtain rfl := Option.some.inj (ht.symm.trans hu)
      exact ⟨_, Cells.get_set_self ht, rfl⟩
    · exact ⟨u, by rw [Cells.get_set_ne hk, hu], rfl⟩
  refine ⟨?_, ?_⟩
  · intro p hprevious
    obtain ⟨k, hkj, hp, hs, hlast⟩ := hprevious
    have hlast' : ∀ (m : Nat) (u : ReaderTask Shard), k < m → m < j → tasks[m]? = some u →
        u.shard ≠ shard := by
      intro m u hkm hmj hu
      obtain ⟨v, hv, hvs⟩ := hold m u hu
      rw [← hvs]
      exact hlast m v hkm hmj hv
    rcases Cells.get_set hp with ⟨rfl, rfl⟩ | ⟨_, hp⟩
    · obtain ⟨exit, hexit, _⟩ := h.1 t ⟨k, hkj, ht, hs, hlast'⟩
      simp [ReaderTask.isFinished, hexit] at hf
    · exact h.1 p ⟨k, hkj, hp, hs, hlast'⟩
  · intro hnone
    refine h.2 ?_
    intro k hkj u hu
    obtain ⟨v, hv, hvs⟩ := hold k u hu
    rw [← hvs]
    exact hnone k hkj v hv

/-- The shard's latest reader finished. -/
theorem Handed.finished {exit : ReaderExit} (ht : tasks[i]? = some t) (hs : t.shard = shard)
    (hlatest : ∀ (k : Nat) (u : ReaderTask Shard), tasks[k]? = some u → u.shard = shard → k ≤ i)
    (hexit : t.stage = .finished exit) : Handed tasks shard tasks.length exit.rewind := by
  refine ⟨?_, ?_⟩
  · intro p hprevious
    obtain ⟨k, _, hp, hps, hlast⟩ := hprevious
    have hk := hlatest k p hp hps
    rcases Nat.lt_or_eq_of_le hk with hlt | rfl
    · exact absurd hs (hlast i t hlt (Cells.get_lt ht) ht)
    · obtain rfl := Option.some.inj (ht.symm.trans hp)
      exact ⟨exit, hexit, rfl⟩
  · intro hnone
    exact absurd hs (hnone i (Cells.get_lt ht) t ht)

end Lists

/-- At most one reader of a shard runs, each with its own handle on the seek surface, and each was
handed its predecessor's rewind. -/
structure InTurn [DecidableEq Shard] (s : Readers Shard) : Prop where
  single : ∀ (i j : Nat) (t u : ReaderTask Shard), s.tasks[i]? = some t → s.tasks[j]? = some u →
    t.shard = u.shard → t.isFinished = false → u.isFinished = false → i = j
  own : ∀ (i j : Nat) (t u : ReaderTask Shard), s.tasks[i]? = some t → s.tasks[j]? = some u →
    t.gate = u.gate ∨ t.seekRx = u.seekRx → i = j
  handle : ∀ (i : Nat) (t : ReaderTask Shard), s.tasks[i]? = some t → t.guarded = true →
    s.shards.lookup t.shard = some t.handle
  behind : ∀ shard handle, s.shards.lookup shard = some handle →
    (∃ (i : Nat) (t : ReaderTask Shard), s.tasks[i]? = some t ∧ t.guarded = true ∧
      t.shard = shard ∧ t.handle = handle) ∨ s.stage.registering = some (shard, handle)
  rewind : ∀ (j : Nat) (t : ReaderTask Shard), s.tasks[j]? = some t →
    Handed s.tasks t.shard j t.rewind

section Steps
variable [DecidableEq Shard] {s s' : Readers Shard} {act : ReadersAct Shard} {budget : Nat}

/-- A shard without a reader has what its last one returned in `rewinds`. -/
structure Kept (s : Readers Shard) : Prop where
  past : ∀ (j : Nat) (t : ReaderTask Shard), s.tasks[j]? = some t →
    Handed s.tasks t.shard j t.rewind
  idle : ∀ shard, s.readers.lookup shard = none →
    Handed s.tasks shard s.tasks.length (s.rewinds.lookup shard)
  taken : ∀ shard i, s.readers.lookup shard = some i → s.rewinds.lookup shard = none

namespace Kept

theorem init : Kept ({} : Readers Shard) where
  past j t ht := by simp at ht
  idle shard _ := by
    refine ⟨?_, ?_⟩
    · intro p hprevious
      obtain ⟨i, hi, _⟩ := hprevious
      exact absurd hi (Nat.not_lt_zero i)
    · intro _
      exact AList.lookup_empty shard
  taken shard i hi := by simp at hi

/-- The entry of a reader that finished goes, and `rewinds` has what it gives back. -/
theorem erase (h : Kept s) (htracked : Tracked s) {shard : Shard} {i : Nat} {t : ReaderTask Shard}
    {exit : ReaderExit} (hi : s.readers.lookup shard = some i) (ht : s.tasks[i]? = some t)
    (hexit : t.stage = .finished exit) {s' : Readers Shard} (htasks : s'.tasks = s.tasks)
    (hreaders : s'.readers = s.readers.erase shard)
    (hself : s'.rewinds.lookup shard = exit.rewind)
    (hother : ∀ k, k ≠ shard → s'.rewinds.lookup k = s.rewinds.lookup k) : Kept s' := by
  refine ⟨?_, ?_, ?_⟩
  · rw [htasks]
    exact h.past
  · intro k hk
    rw [htasks]
    by_cases he : k = shard
    · subst he
      obtain ⟨u, hu, hs⟩ := htracked.reads k i hi
      obtain rfl := Option.some.inj (ht.symm.trans hu)
      rw [hself]
      exact Handed.finished ht hs (htracked.latest k i hi) hexit
    · rw [hother k he]
      rw [hreaders, AList.lookup_erase_ne he] at hk
      exact h.idle k hk
  · intro k j hj
    rw [hreaders] at hj
    by_cases he : k = shard
    · subst he
      rw [AList.lookup_erase] at hj
      cases hj
    · rw [AList.lookup_erase_ne he] at hj
      rw [hother k he]
      exact h.taken k j hj

theorem spawn (h : Kept s) (htracked : Tracked s) {shard : Shard} {handle : ShardHandle}
    {lineage : Lineage} {todo : List Shard}
    (hstage : s.stage = .registered shard handle lineage todo) :
    Kept (s.spawn shard handle lineage todo) := by
  have hfree := htracked.free shard (by rw [hstage]; rfl)
  refine ⟨?_, ?_, ?_⟩
  · intro j t ht
    rcases Cells.get_push ht with ht | ⟨rfl, rfl⟩
    · exact (h.past j t ht).push (Cells.get_lt ht).le
    · exact (h.idle shard hfree).push le_rfl
  · intro k hk
    have hne : k ≠ shard := by
      intro hne
      subst hne
      cases (AList.lookup_insert _).symm.trans hk
    have hrewind : (s.rewinds.erase shard).lookup k = s.rewinds.lookup k :=
      AList.lookup_erase_ne hne
    show Handed _ k _ ((s.rewinds.erase shard).lookup k)
    rw [hrewind]
    exact (h.idle k ((AList.lookup_insert_ne hne).symm.trans hk)).skip (Ne.symm hne)
  · intro k j hj
    by_cases hk : k = shard
    · subst hk
      exact AList.lookup_erase _ _
    · exact (AList.lookup_erase_ne hk).trans
        (h.taken k j ((AList.lookup_insert_ne hk).symm.trans hj))

theorem set (h : Kept s) {i : Nat} {t : ReaderTask Shard} {stage : TaskStage}
    (ht : s.tasks[i]? = some t) (hf : t.isFinished = false) {s' : Readers Shard}
    (htasks : s'.tasks = s.tasks.set i { t with stage := stage })
    (hreaders : s'.readers = s.readers) (hrewinds : s'.rewinds = s.rewinds) : Kept s' := by
  refine ⟨?_, ?_, ?_⟩
  · intro j u hu
    rw [htasks] at hu ⊢
    obtain ⟨v, hv, hs, _, _, hrewind⟩ := get_set_stage ht hu
    rw [← hs, ← hrewind]
    exact (h.past j v hv).set ht hf
  · intro k hk
    rw [hreaders] at hk
    rw [htasks, hrewinds, List.length_set]
    exact (h.idle k hk).set ht hf
  · rw [hreaders, hrewinds]
    exact h.taken

theorem step (h : Kept s) (htracked : Tracked s) (hm : Moves s act s')
    (hbudget : s.inBudget act = true) : Kept s' := by
  cases hm with
  | goes => exact ⟨h.past, h.idle, h.taken⟩
  | @drops shard _ left _ i t exit hstage hi ht hexit hnone =>
    have hrewind : exit.rewind = none := by
      rcases hnone with hnone | rfl
      · exact hnone
      · simpa [inBudget, hstage, Readers.givenBack, hi, ht, ReaderTask.givenBack, hexit]
          using hbudget
    refine h.erase htracked hi ht hexit rfl rfl ?_ ?_
    · rw [hrewind]
      exact h.taken shard i hi
    · intro k _
      rfl
  | keeps _ hi ht hexit hrewind =>
    refine h.erase htracked hi ht hexit rfl rfl ?_ ?_
    · rw [hrewind]
      exact AList.lookup_insert _
    · intro k hk
      exact AList.lookup_insert_ne hk
  | claims => exact ⟨h.past, h.idle, h.taken⟩
  | spawns hstage => exact h.spawn htracked hstage
  | deregisters ht hexit =>
    exact h.set ht (by simp [ReaderTask.isFinished, hexit]) rfl rfl rfl
  | task ht hnext => exact h.set ht (TaskStage.next_isFinished hnext) rfl rfl rfl

end Kept

end Steps

/-- A pass starts the reader of shard `k`, which reads, cannot record its opening and gives up. -/
def giving (k : Nat) : List (ReadersAct Nat) :=
  [.pass .visit, .pass (.acquire (some .opens)), .pass .spawn, .task k .start,
    .task k (.leave (.returned (some (.atSeq 0)))), .task k .deregister, .task k .finish]

/-- The first pass and what becomes of its readers. -/
def opening (count : Nat) : List (ReadersAct Nat) :=
  [.pass (.enter [] 0), .pass .forget, .pass (.list (some (List.range count)))] ++
    (List.range count).flatMap giving

/-- The next pass, with all of its budget left, forgets the readers; shard 0 comes last. -/
def forgetting (budget : Nat) : List (ReadersAct Nat) :=
  [.pass .visit, .pass (.rest false), .pass (.enter (List.range (budget + 1)).reverse budget)] ++
    List.replicate (budget + 1) (.pass .forget)

/-- The pass goes on to the next reader of shard 0. -/
def restarting (count : Nat) : List (ReadersAct Nat) :=
  [.pass .forget, .pass (.list (some (List.range count))), .pass .visit,
    .pass (.acquire (some .opens)), .pass .spawn]

/-- One reader more than the budget gives up between two passes. -/
def outage (budget : Nat) : List (ReadersAct Nat) :=
  opening (budget + 1) ++ forgetting budget ++ restarting (budget + 1)

/-- Readers take turns in every run that polls each place given back within the budget: at most one
reader of a shard runs, its handle is the shard's on the seek surface until it drops its guard, and
it was handed what the shard's reader before it returned. -/
theorem readers_in_turn [DecidableEq Shard] {s : Readers Shard} {budget : Nat}
    (hrun : Run (step budget) (fun s act => s.inBudget act = true) {} s) : s.InTurn := by
  have hkept : Tracked s ∧ Kept s := by
    refine hrun.invariant (I := fun s => Tracked s ∧ Kept s) ?_ ⟨.init, .init⟩
    intro s a t hs hbudget hstep
    obtain ⟨htracked, hkept⟩ := hs
    have hm := step_moves hstep
    exact ⟨htracked.step hm, hkept.step htracked hm hbudget⟩
  obtain ⟨htracked, hbound, howned⟩ := surface_of_run hrun
  exact {
    single := fun i j t u ht hu hs hft hfu => htracked.single ht hu hs hft hfu
    own := howned.own
    handle := hbound.handle
    behind := hbound.behind
    rewind := hkept.2.past }

/-- The reader of a shard gives up, and the next one opens where it had started. -/
theorem readers_in_turn_handed :
    ∃ s, check (step 128) inBudget {} (opening 1 ++ [.pass .visit, .pass (.rest false),
        .pass (.enter [0] 127), .pass .forget] ++ restarting 1) = some s ∧
      s.InTurn ∧ s.tasks[1]?.map ReaderTask.rewind = some (some (.atSeq 0)) := by
  obtain ⟨s, hs, hrewind⟩ : ∃ s, check (step 128) inBudget {} (opening 1 ++ [.pass .visit,
      .pass (.rest false), .pass (.enter [0] 127), .pass .forget] ++ restarting 1) = some s ∧
        s.tasks[1]?.map ReaderTask.rewind = some (some (.atSeq 0)) := ⟨_, rfl, rfl⟩
  exact ⟨s, hs, readers_in_turn (Run.of_check hs), hrewind⟩

/-- The task of a reader that gave up after it had read from the beginning of shard `k`. -/
def gaveUp (k : Nat) : ReaderTask Nat :=
  { shard := k, gate := k, seekRx := k, lineage := .opens, rewind := none,
    stage := .finished (.returned (some (.atSeq 0))) }

/-- The readers of the first `n` shards gave up and no pass has been since. -/
structure Down (s : Readers Nat) (n : Nat) : Prop where
  tasks : s.tasks = (List.range n).map gaveUp
  keys : s.readers.keys = (List.range n).reverse
  read : ∀ k < n, s.readers.lookup k = some k
  rewinds : s.rewinds = ∅
  gates : s.gates = n
  channels : s.channels = n

namespace Down

variable {s : Readers Nat} {n : Nat}

theorem unread (h : Down s n) : s.readers.lookup n = none := by
  rw [AList.lookup_eq_none, AList.mem_keys, h.keys]
  simp

theorem giving (budget : Nat) {todo : List Nat} (h : Down s n)
    (hstage : s.stage = .visiting (n :: todo)) :
    ∃ s', exec (step budget) s (giving n) = some s' ∧ Down s' (n + 1) ∧
      s'.stage = .visiting todo := by
  have hn := h.unread
  have hlen : s.tasks.length = n := by simp [h.tasks]
  have hnext : s.tasks[n]? = none := List.getElem?_eq_none hlen.le
  refine ⟨{ s with
    tasks := s.tasks ++ [gaveUp n]
    readers := s.readers.insert n n
    rewinds := s.rewinds.erase n
    shards := (s.shards.insert n ⟨n, n⟩).erase n
    gates := n + 1
    channels := n + 1
    stage := .visiting todo }, ?_, ?_, rfl⟩
  · simp [Readers.giving, exec, step, coordinate, taskStep, claim, register, spawn, deregister,
      TaskStage.next, gaveUp, hstage, hn, hlen, h.gates, h.channels, h.rewinds]
  · refine ⟨?_, ?_, ?_, ?_, rfl, rfl⟩
    · simp [h.tasks, List.range_succ]
    · simp [h.keys, List.range_succ]
    · intro k hk
      by_cases he : k = n
      · subst he
        exact AList.lookup_insert _
      · exact (AList.lookup_insert_ne he).trans (h.read k (by omega))
    · show s.rewinds.erase n = ∅
      rw [h.rewinds]
      rfl

theorem opened (budget n : Nat) (todo : List Nat) (h : Down s 0)
    (hstage : s.stage = .visiting (List.range n ++ todo)) :
    ∃ s', exec (step budget) s ((List.range n).flatMap Readers.giving) = some s' ∧ Down s' n ∧
      s'.stage = .visiting todo := by
  induction n generalizing todo with
  | zero => exact ⟨s, rfl, h, hstage⟩
  | succ n ih =>
    rw [List.range_succ, List.append_assoc] at hstage
    obtain ⟨t, ht, hdown, hvisiting⟩ := ih _ hstage
    obtain ⟨u, hu, hdown', hrest⟩ := hdown.giving budget hvisiting
    refine ⟨u, ?_, hdown', hrest⟩
    rw [List.range_succ, List.flatMap_append, exec_append ht]
    simpa using hu

end Down

/-- The polls of the budget go to the readers in front, and the last one's place is lost. -/
theorem forgets {s : Readers Nat} {last : Nat} (budget : Nat) (todo : List Nat)
    (hstage : s.stage = .forgetting (todo ++ [last]) todo.length)
    (hdistinct : (todo ++ [last]).Nodup)
    (hread : ∀ k ∈ todo ++ [last], s.readers.lookup k = some k)
    (htasks : ∀ k ∈ todo ++ [last], s.tasks[k]? = some (gaveUp k))
    (hrewind : s.rewinds.lookup last = none) :
    ∃ s', exec (step budget) s (List.replicate (todo.length + 1) (.pass .forget)) = some s' ∧
      s'.stage = .forgetting [] 0 ∧ s'.tasks = s.tasks ∧ s'.readers.lookup last = none ∧
      s'.rewinds.lookup last = none := by
  induction todo generalizing s with
  | nil =>
    have hr := hread last (by simp)
    have ht := htasks last (by simp)
    refine ⟨{ s with readers := s.readers.erase last, stage := .forgetting [] 0 }, ?_, rfl, rfl,
      AList.lookup_erase _ _, hrewind⟩
    have hs : s.stage = .forgetting [last] 0 := hstage
    simp [exec, step, coordinate, forget, nowOrNever, gaveUp, hs, hr, ht]
  | cons k todo ih =>
    have hr := hread k (by simp)
    have ht := htasks k (by simp)
    obtain ⟨hk, hdistinct⟩ := List.nodup_cons.mp hdistinct
    have hne : ∀ j ∈ todo ++ [last], j ≠ k := by
      intro j hj hjk
      subst hjk
      exact hk hj
    let t : Readers Nat := { s with
      readers := s.readers.erase k
      rewinds := s.rewinds.insert k (.atSeq 0)
      stage := .forgetting (todo ++ [last]) todo.length }
    have hstep : step budget s (.pass .forget) = some t := by
      have hs : s.stage = .forgetting (k :: (todo ++ [last])) (todo.length + 1) := hstage
      simp [step, coordinate, forget, nowOrNever, gaveUp, hs, hr, ht, t]
    have hlast : last ≠ k := hne last (by simp)
    obtain ⟨s', hs', hrest⟩ := ih (s := t) rfl hdistinct
      (fun j hj => (AList.lookup_erase_ne (hne j hj)).trans (hread j (List.mem_cons_of_mem _ hj)))
      (fun j hj => htasks j (List.mem_cons_of_mem _ hj))
      ((AList.lookup_insert_ne hlast).trans hrewind)
    refine ⟨s', ?_, hrest.1, hrest.2.1, hrest.2.2⟩
    show exec (step budget) s (.pass .forget :: List.replicate (todo.length + 1) _) = some s'
    simp only [exec, hstep, Option.bind_some]
    exact hs'

/-- The next reader of shard 0, whose rewind was lost. -/
theorem restarts {s : Readers Nat} (budget count : Nat) (hstage : s.stage = .forgetting [] 0)
    (hreader : s.readers.lookup 0 = none) (hrewind : s.rewinds.lookup 0 = none) :
    ∃ s' t, exec (step budget) s (restarting (count + 1)) = some s' ∧ s'.tasks = s.tasks ++ [t] ∧
      t.shard = 0 ∧ t.rewind = none := by
  let todo : List Nat := (List.range count).map Nat.succ
  let claimed : Readers Nat := s.claim 0 .opens todo
  refine ⟨claimed.spawn 0 ⟨s.gates, s.channels⟩ .opens todo,
    { shard := 0, gate := s.gates, seekRx := s.channels, lineage := .opens, rewind := none },
    ?_, ?_, rfl, rfl⟩
  · simp [restarting, List.range_succ_eq_map, exec, step, coordinate, hstage, hreader, claimed,
      claim, register, todo]
  · simp [spawn, claim, register, claimed, hrewind]

theorem opening_down (count budget : Nat) :
    ∃ s, exec (step budget) {} (opening count) = some s ∧ Down s count ∧
      s.stage = .visiting [] := by
  let first : Readers Nat := { stage := .visiting (List.range count ++ []) }
  have hfirst : exec (step budget) {} [.pass (.enter [] 0), .pass .forget,
      .pass (.list (some (List.range count)))] = some first := by
    simp [exec, step, coordinate, first]
  have hdown : Down first 0 :=
    ⟨rfl, rfl, fun k hk => absurd hk (Nat.not_lt_zero k), rfl, rfl, rfl⟩
  obtain ⟨s, hs, hdown', hvisiting⟩ := hdown.opened budget count [] rfl
  exact ⟨s, (exec_append hfirst).trans hs, hdown', hvisiting⟩

theorem Down.forgetting {s : Readers Nat} {budget : Nat} (h : Down s (budget + 1))
    (hstage : s.stage = .visiting []) :
    ∃ s', exec (step budget) s (forgetting budget) = some s' ∧ s'.stage = .forgetting [] 0 ∧
      s'.tasks = s.tasks ∧ s'.readers.lookup 0 = none ∧ s'.rewinds.lookup 0 = none := by
  let todo : List Nat := ((List.range budget).map Nat.succ).reverse
  have hkeys : (List.range (budget + 1)).reverse = todo ++ [0] := by
    rw [List.range_succ_eq_map, List.reverse_cons]
  have hlen : todo.length = budget := by simp [todo]
  have hmem : ∀ k ∈ todo ++ [0], k < budget + 1 := by
    intro k hk
    rw [← hkeys] at hk
    simpa using hk
  let entered : Readers Nat := { s with stage := .forgetting (todo ++ [0]) todo.length }
  have hentered : exec (step budget) s [.pass .visit, .pass (.rest false),
      .pass (.enter (List.range (budget + 1)).reverse budget)] = some entered := by
    simp [exec, step, coordinate, hstage, h.keys, hkeys, hlen, entered]
  obtain ⟨s', hs', hrest⟩ := forgets (s := entered) budget todo rfl
    (by rw [← hkeys]; exact List.nodup_reverse.mpr List.nodup_range)
    (fun k hk => h.read k (hmem k hk))
    (by
      intro k hk
      simp [entered, h.tasks, hmem k hk])
    (by simp [entered, h.rewinds])
  rw [hlen] at hs'
  exact ⟨s', (exec_append hentered).trans hs', hrest⟩

/-- Whatever the budget, if one reader more gives up between two passes, the place of the last one
is lost. -/
theorem outage_loses (budget : Nat) :
    ∃ s, exec (step budget) {} (outage budget) = some s ∧ ¬ s.InTurn := by
  obtain ⟨down, hdown, h, hvisiting⟩ := opening_down (budget + 1) budget
  obtain ⟨lost, hlost, hstage, htasks, hreader, hrewind⟩ := h.forgetting hvisiting
  obtain ⟨s, t, hs, hlist, hshard, hnone⟩ := restarts budget budget hstage hreader hrewind
  refine ⟨s, ?_, ?_⟩
  · rw [outage, List.append_assoc, exec_append hdown, exec_append hlost, hs]
  · intro hturn
    rw [htasks, h.tasks] at hlist
    have hlen : ((List.range (budget + 1)).map gaveUp).length = budget + 1 := by simp
    have ht : s.tasks[budget + 1]? = some t := by simp [hlist]
    have hold : ∀ k < budget + 1, s.tasks[k]? = some (gaveUp k) := by
      intro k hk
      rw [hlist, List.getElem?_append_left (by omega)]
      simp [hk]
    have hprevious : Previous s.tasks t.shard (budget + 1) (gaveUp 0) := by
      refine ⟨0, Nat.succ_pos _, hold 0 (Nat.succ_pos _), hshard.symm, ?_⟩
      intro k u hpos hk hu
      obtain rfl := Option.some.inj ((hold k hk).symm.trans hu)
      rw [hshard]
      exact Nat.ne_of_gt hpos
    obtain ⟨exit, hexit, hgiven⟩ := (hturn.rewind _ t ht).1 (gaveUp 0) hprevious
    obtain rfl : ReaderExit.returned (some (.atSeq 0)) = exit := by simpa [gaveUp] using hexit
    cases hnone.symm.trans hgiven

/-- With a budget of 128 polls and 129 shards. -/
theorem rewind_lost : ∃ s, exec (step 128) {} (outage 128) = some s ∧ ¬ s.InTurn :=
  outage_loses 128

end Readers

end RuststreamKinesis
