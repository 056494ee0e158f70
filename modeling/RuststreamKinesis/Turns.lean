import RuststreamKinesis.Readers

/-!
# The readers of a shard take turns

In every run at most one reader of a shard runs (`Tracked`), from its spawn until its guard drops
the seek surface holds its handle (`Bound`), and no two readers share a gate or a channel (`Owned`).
-/

namespace RuststreamKinesis

set_option autoImplicit false

variable {Shard : Type}

/-- The shard a pass is about to start a reader of. -/
def Coordinator.starting : Coordinator Shard → Option Shard
  | .acquiring shard _ | .registered shard _ _ _ => some shard
  | _ => none

/-- The handle on the seek surface that has no reader yet. -/
def Coordinator.registering : Coordinator Shard → Option (Shard × ShardHandle)
  | .registered shard handle _ _ => some (shard, handle)
  | _ => none

theorem Coordinator.starting_of_registering {stage : Coordinator Shard} {shard : Shard}
    {handle : ShardHandle} (h : stage.registering = some (shard, handle)) :
    stage.starting = some shard := by
  cases stage with
  | registered =>
    cases h
    rfl
  | _ => cases h

theorem TaskStage.next_isFinished {t : ReaderTask Shard} {act : TaskAct} {stage : TaskStage}
    (h : t.stage.next act = some stage) : t.isFinished = false := by
  unfold ReaderTask.isFinished
  split
  · rename_i hf
    rw [hf] at h
    cases act <;> cases h
  · rfl

/-- Only the guard's own step drops it. -/
theorem TaskStage.next_guarded {t : ReaderTask Shard} {act : TaskAct} {stage : TaskStage}
    (h : t.stage.next act = some stage) (hne : act ≠ .deregister) :
    ReaderTask.guarded { t with stage := stage } = t.guarded := by
  unfold TaskStage.next at h
  split at h
  · rename_i he
    obtain rfl := Option.some.inj h
    simp [ReaderTask.guarded, he]
  · rename_i he
    obtain rfl := Option.some.inj h
    simp [ReaderTask.guarded, he]
  · exact absurd rfl hne
  · rename_i he
    obtain rfl := Option.some.inj h
    simp [ReaderTask.guarded, he]
  · cases h

theorem ReaderTask.guarded_unfinished {t : ReaderTask Shard} (h : t.guarded = true) :
    t.isFinished = false := by
  unfold ReaderTask.guarded at h
  unfold ReaderTask.isFinished
  split at h
  · simp [*]
  · simp [*]
  · simp [*]
  · cases h

theorem TaskStage.leaving_of_deregister {stage stage' : TaskStage}
    (h : stage.next .deregister = some stage') :
    ∃ exit, stage = .leaving exit ∧ stage' = .deregistered exit := by
  cases stage with
  | leaving exit =>
    obtain rfl := Option.some.inj h
    exact ⟨exit, rfl, rfl⟩
  | _ => cases h

namespace Readers

open Runs

/-- A task step leaves every task its shard, its handle and its rewind. -/
theorem get_set_stage {tasks : List (ReaderTask Shard)} {i j : Nat} {t u : ReaderTask Shard}
    {stage : TaskStage} (ht : tasks[i]? = some t)
    (hu : (tasks.set i { t with stage := stage })[j]? = some u) :
    ∃ v, tasks[j]? = some v ∧ v.shard = u.shard ∧ v.gate = u.gate ∧ v.seekRx = u.seekRx ∧
      v.rewind = u.rewind := by
  rcases Cells.get_set hu with ⟨rfl, rfl⟩ | ⟨_, hu⟩
  · exact ⟨t, ht, rfl, rfl, rfl, rfl⟩
  · exact ⟨u, hu, rfl, rfl, rfl, rfl⟩

section Steps
variable [DecidableEq Shard]

/-- The outcomes of a step. -/
inductive Moves (s : Readers Shard) : ReadersAct Shard → Readers Shard → Prop where
  | goes {act : PassAct Shard} {stage : Coordinator Shard} :
      s.stage.registering = none → stage.registering = none →
      (∀ shard, stage.starting = some shard → s.readers.lookup shard = none) →
      Moves s (.pass act) { s with stage := stage }
  | drops {shard : Shard} {todo : List Shard} {left left' i : Nat} {t : ReaderTask Shard}
      {exit : ReaderExit} : s.stage = .forgetting (shard :: todo) left →
      s.readers.lookup shard = some i → s.tasks[i]? = some t → t.stage = .finished exit →
      exit.rewind = none ∨ left = 0 →
      Moves s (.pass .forget)
        { s with readers := s.readers.erase shard, stage := .forgetting todo left' }
  | keeps {shard : Shard} {todo : List Shard} {left left' i : Nat} {t : ReaderTask Shard}
      {exit : ReaderExit} {rewind : ShardStart} : s.stage = .forgetting (shard :: todo) left →
      s.readers.lookup shard = some i → s.tasks[i]? = some t → t.stage = .finished exit →
      exit.rewind = some rewind →
      Moves s (.pass .forget) { s with
        readers := s.readers.erase shard
        rewinds := s.rewinds.insert shard rewind
        stage := .forgetting todo left' }
  | claims {shard : Shard} {lineage : Lineage} {todo : List Shard} :
      s.stage = .acquiring shard todo →
      Moves s (.pass (.acquire (some lineage))) (s.claim shard lineage todo)
  | spawns {shard : Shard} {handle : ShardHandle} {lineage : Lineage} {todo : List Shard} :
      s.stage = .registered shard handle lineage todo →
      Moves s (.pass .spawn) (s.spawn shard handle lineage todo)
  | deregisters {i : Nat} {t : ReaderTask Shard} {exit : ReaderExit} :
      s.tasks[i]? = some t → t.stage = .leaving exit →
      Moves s (.task i .deregister) { s with
        tasks := s.tasks.set i { t with stage := .deregistered exit }
        shards := s.shards.erase t.shard }
  | task {i : Nat} {t : ReaderTask Shard} {act : TaskAct} {stage : TaskStage} :
      s.tasks[i]? = some t → t.stage.next act = some stage → act ≠ .deregister →
      Moves s (.task i act) { s with tasks := s.tasks.set i { t with stage := stage } }

variable {s s' : Readers Shard} {act : ReadersAct Shard} {budget : Nat}

/-- The coordinator goes on, and is not about to start a reader. -/
theorem Moves.turns {act : PassAct Shard} {stage stage' : Coordinator Shard} (h : s.stage = stage)
    (hold : stage.registering = none) (hnew : stage'.starting = none) :
    Moves s (.pass act) { s with stage := stage' } := by
  refine .goes (h ▸ hold) ?_ ?_
  · cases hr : stage'.registering with
    | none => rfl
    | some entry => cases hnew.symm.trans (Coordinator.starting_of_registering hr)
  · intro shard hs
    cases hnew.symm.trans hs

theorem forget_moves {shard : Shard} {todo : List Shard} {left : Nat}
    (hstage : s.stage = .forgetting (shard :: todo) left)
    (h : s.forget shard todo left = some s') : Moves s (.pass .forget) s' := by
  obtain ⟨t, ht, rfl⟩ := Option.map_eq_some_iff.mp h
  obtain ⟨i, hi, ht⟩ := Option.bind_eq_some_iff.mp ht
  dsimp only
  split
  · rename_i exit hf
    cases left with
    | zero => exact .drops hstage hi ht hf (.inr rfl)
    | succ left =>
      cases exit with
      | panicked => exact .drops hstage hi ht hf (.inl rfl)
      | returned rewind =>
        cases rewind with
        | none => exact .drops hstage hi ht hf (.inl rfl)
        | some rewind => exact .keeps hstage hi ht hf rfl
  · exact .turns hstage rfl rfl

theorem coordinate_moves {act : PassAct Shard} (h : s.coordinate budget act = some s') :
    Moves s (.pass act) s' := by
  unfold coordinate at h
  split at h
  · rename_i hstage
    split at h
    · obtain rfl := Option.some.inj h
      exact .turns hstage rfl rfl
    · cases h
  · rename_i hstage
    obtain rfl := Option.some.inj h
    exact .turns hstage rfl rfl
  · rename_i hstage
    exact forget_moves hstage h
  · rename_i hstage
    obtain rfl := Option.some.inj h
    exact .turns hstage rfl rfl
  · rename_i hstage
    obtain rfl := Option.some.inj h
    exact .turns hstage rfl rfl
  · rename_i hstage
    obtain rfl := Option.some.inj h
    exact .turns hstage rfl rfl
  · rename_i shard todo hstage
    obtain rfl := Option.some.inj h
    cases hr : s.readers.lookup shard with
    | some i => exact .turns hstage rfl rfl
    | none =>
      refine .goes (by rw [hstage]; rfl) rfl ?_
      intro k hk
      cases hk
      exact hr
  · rename_i hstage
    obtain rfl := Option.some.inj h
    exact .turns hstage rfl rfl
  · rename_i hstage
    obtain rfl := Option.some.inj h
    exact .claims hstage
  · rename_i hstage
    obtain rfl := Option.some.inj h
    exact .spawns hstage
  · rename_i closed hstage
    obtain rfl := Option.some.inj h
    cases closed with
    | true => exact .turns hstage rfl rfl
    | false => exact .turns hstage rfl rfl
  · cases h

theorem step_moves (h : step budget s act = some s') : Moves s act s' := by
  cases act with
  | pass act => exact coordinate_moves h
  | task i act =>
    obtain ⟨t, ht, h⟩ := Option.bind_eq_some_iff.mp h
    obtain ⟨stage, hnext, rfl⟩ := Option.map_eq_some_iff.mp h
    by_cases hact : act = .deregister
    · subst hact
      obtain ⟨exit, hexit, rfl⟩ := TaskStage.leaving_of_deregister hnext
      exact .deregisters ht hexit
    · dsimp only
      rw [if_neg hact]
      exact .task ht hnext hact

/-- The coordinator knows every task that has not finished, and it is the shard's latest. -/
structure Tracked (s : Readers Shard) : Prop where
  known : ∀ (i : Nat) (t : ReaderTask Shard), s.tasks[i]? = some t → t.isFinished = false →
    s.readers.lookup t.shard = some i
  reads : ∀ shard i, s.readers.lookup shard = some i →
    ∃ t : ReaderTask Shard, s.tasks[i]? = some t ∧ t.shard = shard
  latest : ∀ shard i, s.readers.lookup shard = some i →
    ∀ (j : Nat) (u : ReaderTask Shard), s.tasks[j]? = some u → u.shard = shard → j ≤ i
  free : ∀ shard, s.stage.starting = some shard → s.readers.lookup shard = none

namespace Tracked

theorem init : Tracked ({} : Readers Shard) where
  known i t ht := by simp at ht
  reads shard i hi := by simp at hi
  latest shard i hi := by simp at hi
  free shard hs := by cases hs

theorem single (h : Tracked s) {i j : Nat} {t u : ReaderTask Shard} (ht : s.tasks[i]? = some t)
    (hu : s.tasks[j]? = some u) (hshard : t.shard = u.shard) (hft : t.isFinished = false)
    (hfu : u.isFinished = false) : i = j := by
  have hi := h.known i t ht hft
  rw [hshard, h.known j u hu hfu] at hi
  exact (Option.some.inj hi).symm

/-- No task of a shard a reader is about to be started for is left. -/
theorem stopped (h : Tracked s) {shard : Shard} (hs : s.stage.starting = some shard) {i : Nat}
    {t : ReaderTask Shard} (ht : s.tasks[i]? = some t) (hf : t.isFinished = false) :
    t.shard ≠ shard := by
  intro hshard
  subst hshard
  cases (h.free _ hs).symm.trans (h.known i t ht hf)

/-- Dropping the handle of a task that finished. -/
theorem erase (h : Tracked s) {shard : Shard} {i : Nat} {t : ReaderTask Shard} {exit : ReaderExit}
    (hi : s.readers.lookup shard = some i) (ht : s.tasks[i]? = some t)
    (hexit : t.stage = .finished exit) {s' : Readers Shard} (htasks : s'.tasks = s.tasks)
    (hreaders : s'.readers = s.readers.erase shard) (hstage : s'.stage.starting = none) :
    Tracked s' := by
  have hold : ∀ k j, s'.readers.lookup k = some j → s.readers.lookup k = some j := by
    intro k j hj
    rw [hreaders] at hj
    by_cases hk : k = shard
    · subst hk
      rw [AList.lookup_erase] at hj
      cases hj
    · rwa [AList.lookup_erase_ne hk] at hj
  refine ⟨?_, ?_, ?_, ?_⟩
  · intro j u hu hf
    rw [htasks] at hu
    have hj := h.known j u hu hf
    rw [hreaders, AList.lookup_erase_ne, hj]
    intro hk
    rw [hk, hi] at hj
    obtain rfl := Option.some.inj hj
    obtain rfl := Option.some.inj (ht.symm.trans hu)
    simp [ReaderTask.isFinished, hexit] at hf
  · intro k j hj
    rw [htasks]
    exact h.reads k j (hold k j hj)
  · intro k j hj
    rw [htasks]
    exact h.latest k j (hold k j hj)
  · intro k hk
    cases hstage.symm.trans hk

/-- A step of a task that has not finished. -/
theorem set (h : Tracked s) {i : Nat} {t : ReaderTask Shard} {stage : TaskStage}
    (ht : s.tasks[i]? = some t) (hf : t.isFinished = false) {s' : Readers Shard}
    (htasks : s'.tasks = s.tasks.set i { t with stage := stage })
    (hreaders : s'.readers = s.readers) (hstage : s'.stage = s.stage) : Tracked s' := by
  refine ⟨?_, ?_, ?_, ?_⟩
  · intro j u hu hfu
    rw [htasks] at hu
    rw [hreaders]
    rcases Cells.get_set hu with ⟨rfl, rfl⟩ | ⟨_, hu⟩
    · exact h.known j t ht hf
    · exact h.known j u hu hfu
  · intro k j hj
    rw [hreaders] at hj
    obtain ⟨u, hu, hk⟩ := h.reads k j hj
    rw [htasks]
    by_cases hji : j = i
    · subst hji
      obtain rfl := Option.some.inj (ht.symm.trans hu)
      exact ⟨_, Cells.get_set_self ht, hk⟩
    · exact ⟨u, by rw [Cells.get_set_ne hji, hu], hk⟩
  · intro k j hj m u hu hk
    rw [hreaders] at hj
    rw [htasks] at hu
    obtain ⟨v, hv, hshard, _⟩ := get_set_stage ht hu
    exact h.latest k j hj m v hv (hshard.trans hk)
  · intro k hk
    rw [hstage] at hk
    rw [hreaders]
    exact h.free k hk

theorem spawn (h : Tracked s) {shard : Shard} {handle : ShardHandle} {lineage : Lineage}
    {todo : List Shard} (hstage : s.stage = .registered shard handle lineage todo) :
    Tracked (s.spawn shard handle lineage todo) := by
  have hs : s.stage.starting = some shard := by rw [hstage]; rfl
  refine ⟨?_, ?_, ?_, ?_⟩
  · intro j u hu hf
    rcases Cells.get_push hu with hu | ⟨rfl, rfl⟩
    · show (s.readers.insert shard s.tasks.length).lookup u.shard = some j
      rw [AList.lookup_insert_ne (h.stopped hs hu hf)]
      exact h.known j u hu hf
    · exact AList.lookup_insert _
  · intro k j hj
    by_cases hk : k = shard
    · subst hk
      obtain rfl : s.tasks.length = j := Option.some.inj ((AList.lookup_insert _).symm.trans hj)
      exact ⟨_, List.getElem?_concat_length, rfl⟩
    · obtain ⟨u, hu, hshard⟩ := h.reads k j ((AList.lookup_insert_ne hk).symm.trans hj)
      exact ⟨u, Cells.get_push_old hu, hshard⟩
  · intro k j hj m u hu hk
    by_cases hne : k = shard
    · subst hne
      obtain rfl : s.tasks.length = j := Option.some.inj ((AList.lookup_insert _).symm.trans hj)
      have hm := Cells.get_lt hu
      simp only [Readers.spawn, List.length_append, List.length_singleton] at hm
      omega
    · rcases Cells.get_push hu with hu | ⟨rfl, rfl⟩
      · exact h.latest k j ((AList.lookup_insert_ne hne).symm.trans hj) m u hu hk
      · exact absurd hk.symm hne
  · intro k hk
    cases hk

theorem step (h : Tracked s) (hm : Moves s act s') : Tracked s' := by
  cases hm with
  | goes _ _ hfree => exact ⟨h.known, h.reads, h.latest, hfree⟩
  | drops _ hi ht hexit => exact h.erase hi ht hexit rfl rfl rfl
  | keeps _ hi ht hexit => exact h.erase hi ht hexit rfl rfl rfl
  | claims hstage =>
    refine ⟨h.known, h.reads, h.latest, ?_⟩
    intro k hk
    cases hk
    exact h.free _ (by rw [hstage]; rfl)
  | spawns hstage => exact h.spawn hstage
  | deregisters ht hexit =>
    exact h.set ht (by simp [ReaderTask.isFinished, hexit]) rfl rfl rfl
  | task ht hnext => exact h.set ht (TaskStage.next_isFinished hnext) rfl rfl rfl

end Tracked

/-- The seek surface holds the handle of every reader that has its guard, and of no other one but
the one about to be spawned. -/
structure Bound (s : Readers Shard) : Prop where
  handle : ∀ (i : Nat) (t : ReaderTask Shard), s.tasks[i]? = some t → t.guarded = true →
    s.shards.lookup t.shard = some t.handle
  registered : ∀ shard handle, s.stage.registering = some (shard, handle) →
    s.shards.lookup shard = some handle
  behind : ∀ shard handle, s.shards.lookup shard = some handle →
    (∃ (i : Nat) (t : ReaderTask Shard), s.tasks[i]? = some t ∧ t.guarded = true ∧
      t.shard = shard ∧ t.handle = handle) ∨ s.stage.registering = some (shard, handle)

namespace Bound

theorem init : Bound ({} : Readers Shard) where
  handle i t ht := by simp at ht
  registered shard handle hs := by cases hs
  behind shard handle hs := by simp at hs

/-- A step of the coordinator that neither registers a handle nor spawns a reader. -/
theorem goes (h : Bound s) (hs : s.stage.registering = none) {s' : Readers Shard}
    (htasks : s'.tasks = s.tasks) (hshards : s'.shards = s.shards)
    (hs' : s'.stage.registering = none) : Bound s' := by
  refine ⟨?_, ?_, ?_⟩
  · rw [htasks, hshards]
    exact h.handle
  · intro shard handle hr
    cases hs'.symm.trans hr
  · intro shard handle hl
    rw [hshards] at hl
    rw [htasks]
    rcases h.behind shard handle hl with hl | hl
    · exact .inl hl
    · cases hs.symm.trans hl

theorem claim (h : Bound s) (htracked : Tracked s) {shard : Shard} {lineage : Lineage}
    {todo : List Shard} (hstage : s.stage = .acquiring shard todo) :
    Bound (s.claim shard lineage todo) := by
  have hs : s.stage.starting = some shard := by rw [hstage]; rfl
  refine ⟨?_, ?_, ?_⟩
  · intro i t ht hg
    have hne := htracked.stopped hs ht (ReaderTask.guarded_unfinished hg)
    exact (AList.lookup_insert_ne hne).trans (h.handle i t ht hg)
  · intro k handle hr
    cases hr
    exact AList.lookup_insert _
  · intro k handle hl
    by_cases hk : k = shard
    · subst hk
      obtain rfl := Option.some.inj ((AList.lookup_insert _).symm.trans hl)
      exact .inr rfl
    · rcases h.behind k handle ((AList.lookup_insert_ne hk).symm.trans hl) with hb | hb
      · exact .inl hb
      · rw [hstage] at hb
        cases hb

theorem spawn (h : Bound s) {shard : Shard} {handle : ShardHandle} {lineage : Lineage}
    {todo : List Shard} (hstage : s.stage = .registered shard handle lineage todo) :
    Bound (s.spawn shard handle lineage todo) := by
  have hr : s.stage.registering = some (shard, handle) := by rw [hstage]; rfl
  refine ⟨?_, ?_, ?_⟩
  · intro i t ht hg
    rcases Cells.get_push ht with ht | ⟨_, rfl⟩
    · exact h.handle i t ht hg
    · exact h.registered shard handle hr
  · intro k handle' hs
    cases hs
  · intro k handle' hl
    rcases h.behind k handle' hl with ⟨i, t, ht, hg, hk, hh⟩ | hb
    · exact .inl ⟨i, t, Cells.get_push_old ht, hg, hk, hh⟩
    · obtain ⟨rfl, rfl⟩ := Prod.mk.inj (Option.some.inj (hr.symm.trans hb))
      exact .inl ⟨s.tasks.length, _, List.getElem?_concat_length, rfl, rfl, rfl⟩

/-- The guard of a reader takes its own handle off the seek surface, and no other one. -/
theorem deregister (h : Bound s) (htracked : Tracked s) {i : Nat} {t : ReaderTask Shard}
    {exit : ReaderExit} (ht : s.tasks[i]? = some t) (hexit : t.stage = .leaving exit) :
    Bound { s with
      tasks := s.tasks.set i { t with stage := .deregistered exit }
      shards := s.shards.erase t.shard } := by
  have hf : t.isFinished = false := by simp [ReaderTask.isFinished, hexit]
  refine ⟨?_, ?_, ?_⟩
  · intro j u hu hg
    rcases Cells.get_set hu with ⟨_, rfl⟩ | ⟨hji, hu⟩
    · simp [ReaderTask.guarded] at hg
    · have hne : u.shard ≠ t.shard := by
        intro hs
        exact hji (htracked.single hu ht hs (ReaderTask.guarded_unfinished hg) hf)
      exact (AList.lookup_erase_ne hne).trans (h.handle j u hu hg)
  · intro shard handle hr
    have hne := htracked.stopped (Coordinator.starting_of_registering hr) ht hf
    exact (AList.lookup_erase_ne hne.symm).trans (h.registered shard handle hr)
  · intro shard handle hl
    by_cases hk : shard = t.shard
    · subst hk
      cases (AList.lookup_erase _ _).symm.trans hl
    · rcases h.behind shard handle ((AList.lookup_erase_ne hk).symm.trans hl) with
        ⟨j, u, hu, hg, hs, hh⟩ | hb
      · have hji : j ≠ i := by
          intro hji
          subst hji
          obtain rfl := Option.some.inj (ht.symm.trans hu)
          exact hk hs.symm
        exact .inl ⟨j, u, by rw [Cells.get_set_ne hji, hu], hg, hs, hh⟩
      · exact .inr hb

theorem set (h : Bound s) {i : Nat} {t : ReaderTask Shard} {stage : TaskStage}
    (ht : s.tasks[i]? = some t) (hg : ReaderTask.guarded { t with stage := stage } = t.guarded) :
    Bound { s with tasks := s.tasks.set i { t with stage := stage } } := by
  refine ⟨?_, h.registered, ?_⟩
  · intro j u hu hgu
    rcases Cells.get_set hu with ⟨_, rfl⟩ | ⟨_, hu⟩
    · exact h.handle i t ht (hg.symm.trans hgu)
    · exact h.handle j u hu hgu
  · intro shard handle hl
    rcases h.behind shard handle hl with ⟨j, u, hu, hgu, hs, hh⟩ | hb
    · by_cases hji : j = i
      · subst hji
        obtain rfl := Option.some.inj (ht.symm.trans hu)
        exact .inl ⟨j, _, Cells.get_set_self ht, hg.trans hgu, hs, hh⟩
      · exact .inl ⟨j, u, by rw [Cells.get_set_ne hji, hu], hgu, hs, hh⟩
    · exact .inr hb

theorem step (h : Bound s) (htracked : Tracked s) (hm : Moves s act s') : Bound s' := by
  cases hm with
  | goes hs hs' => exact h.goes hs rfl rfl hs'
  | drops hstage | keeps hstage => exact h.goes (by rw [hstage]; rfl) rfl rfl rfl
  | claims hstage => exact h.claim htracked hstage
  | spawns hstage => exact h.spawn hstage
  | deregisters ht hexit => exact h.deregister htracked ht hexit
  | task ht hnext hne => exact h.set ht (TaskStage.next_guarded hnext hne)

end Bound

/-- No two readers share a gate or a channel. -/
structure Owned (s : Readers Shard) : Prop where
  own : ∀ (i j : Nat) (t u : ReaderTask Shard), s.tasks[i]? = some t → s.tasks[j]? = some u →
    t.gate = u.gate ∨ t.seekRx = u.seekRx → i = j
  made : ∀ (i : Nat) (t : ReaderTask Shard), s.tasks[i]? = some t →
    t.gate < s.gates ∧ t.seekRx < s.channels
  fresh : ∀ shard handle, s.stage.registering = some (shard, handle) →
    (handle.gate < s.gates ∧ handle.tx < s.channels) ∧
    ∀ (i : Nat) (t : ReaderTask Shard), s.tasks[i]? = some t →
      t.gate ≠ handle.gate ∧ t.seekRx ≠ handle.tx

namespace Owned

omit [DecidableEq Shard] in
theorem init : Owned ({} : Readers Shard) where
  own i j t u ht := by simp at ht
  made i t ht := by simp at ht
  fresh shard handle hs := by cases hs

omit [DecidableEq Shard] in
theorem goes (h : Owned s) {s' : Readers Shard} (htasks : s'.tasks = s.tasks)
    (hgates : s'.gates = s.gates) (hchannels : s'.channels = s.channels)
    (hs' : s'.stage.registering = none) : Owned s' := by
  refine ⟨?_, ?_, ?_⟩
  · rw [htasks]
    exact h.own
  · rw [htasks, hgates, hchannels]
    exact h.made
  · intro shard handle hr
    cases hs'.symm.trans hr

theorem claim (h : Owned s) {shard : Shard} {lineage : Lineage} {todo : List Shard} :
    Owned (s.claim shard lineage todo) := by
  refine ⟨h.own, ?_, ?_⟩
  · intro i t ht
    obtain ⟨hg, hc⟩ := h.made i t ht
    exact ⟨Nat.lt_succ_of_lt hg, Nat.lt_succ_of_lt hc⟩
  · intro k handle hr
    cases hr
    refine ⟨⟨Nat.lt_succ_self _, Nat.lt_succ_self _⟩, ?_⟩
    intro i t ht
    obtain ⟨hg, hc⟩ := h.made i t ht
    exact ⟨Nat.ne_of_lt hg, Nat.ne_of_lt hc⟩

theorem spawn (h : Owned s) {shard : Shard} {handle : ShardHandle} {lineage : Lineage}
    {todo : List Shard} (hstage : s.stage = .registered shard handle lineage todo) :
    Owned (s.spawn shard handle lineage todo) := by
  obtain ⟨hmade, hfresh⟩ := h.fresh shard handle (by rw [hstage]; rfl)
  refine ⟨?_, ?_, ?_⟩
  · intro i j t u ht hu hsame
    rcases Cells.get_push ht with ht | ⟨rfl, rfl⟩
    · rcases Cells.get_push hu with hu | ⟨_, rfl⟩
      · exact h.own i j t u ht hu hsame
      · obtain ⟨hg, hc⟩ := hfresh i t ht
        exact (hsame.elim hg hc).elim
    · rcases Cells.get_push hu with hu | ⟨rfl, _⟩
      · obtain ⟨hg, hc⟩ := hfresh j u hu
        exact (hsame.elim (fun he => hg he.symm) (fun he => hc he.symm)).elim
      · rfl
  · intro i t ht
    rcases Cells.get_push ht with ht | ⟨_, rfl⟩
    · exact h.made i t ht
    · exact hmade
  · intro k handle' hs
    cases hs

omit [DecidableEq Shard] in
theorem set (h : Owned s) {i : Nat} {t : ReaderTask Shard} {stage : TaskStage}
    (ht : s.tasks[i]? = some t) {s' : Readers Shard}
    (htasks : s'.tasks = s.tasks.set i { t with stage := stage }) (hgates : s'.gates = s.gates)
    (hchannels : s'.channels = s.channels) (hstage : s'.stage = s.stage) : Owned s' := by
  refine ⟨?_, ?_, ?_⟩
  · intro j k u v hu hv hsame
    rw [htasks] at hu hv
    obtain ⟨u', hu', _, hgu, hcu, _⟩ := get_set_stage ht hu
    obtain ⟨v', hv', _, hgv, hcv, _⟩ := get_set_stage ht hv
    exact h.own j k u' v' hu' hv' (by rwa [hgu, hgv, hcu, hcv])
  · intro j u hu
    rw [htasks] at hu
    obtain ⟨u', hu', _, hgu, hcu, _⟩ := get_set_stage ht hu
    rw [hgates, hchannels, ← hgu, ← hcu]
    exact h.made j u' hu'
  · intro shard handle hr
    rw [hstage] at hr
    obtain ⟨hmade, hfresh⟩ := h.fresh shard handle hr
    rw [hgates, hchannels]
    refine ⟨hmade, ?_⟩
    intro j u hu
    rw [htasks] at hu
    obtain ⟨u', hu', _, hgu, hcu, _⟩ := get_set_stage ht hu
    rw [← hgu, ← hcu]
    exact hfresh j u' hu'

theorem step (h : Owned s) (hm : Moves s act s') : Owned s' := by
  cases hm with
  | goes _ hs' => exact h.goes rfl rfl rfl hs'
  | drops | keeps => exact h.goes rfl rfl rfl rfl
  | claims => exact h.claim
  | spawns hstage => exact h.spawn hstage
  | deregisters ht | task ht => exact h.set ht rfl rfl rfl rfl

end Owned

theorem surface_of_run {ok : Readers Shard → ReadersAct Shard → Prop}
    (hrun : Run (step budget) ok {} s) : Tracked s ∧ Bound s ∧ Owned s := by
  refine hrun.invariant (I := fun s => Tracked s ∧ Bound s ∧ Owned s) ?_ ⟨.init, .init, .init⟩
  intro s a t hs _ hstep
  obtain ⟨htracked, hbound, howned⟩ := hs
  have hm := step_moves hstep
  exact ⟨htracked.step hm, hbound.step htracked hm, howned.step hm⟩

end Steps

end Readers

end RuststreamKinesis
