import RuststreamKinesis.Cursor
import RuststreamKinesis.Lib.Cells
import RuststreamKinesis.Lib.Runs
import Mathlib.Data.List.AList

/-!
# The coordinator and the tasks of its readers

One subscription's coordinator and the tasks it spawns (`coordinate`, `forget_finished`,
`SeekState` and the guard of `read_shard` in `subscriber.rs`). Between any two steps of a pass a
reader may start, return, panic, run its guard or finish. What the listing, the parents and the
lease table answer is left to the run, and so is what a reader returns; `Subscription` has the
reader's body. A seek only copies handles off the seek surface. The wait of the first pass for its
readers' cursors only holds the coordinator back and is left out.
-/

namespace RuststreamKinesis

set_option autoImplicit false

/-- How the body of `read_shard` ends. -/
inductive ReaderExit where
  | returned (rewind : Option ShardStart)
  | panicked
deriving DecidableEq, Repr

/-- Where a reader that gave up had started reading, if it says so. -/
def ReaderExit.rewind : ReaderExit → Option ShardStart
  | .returned rewind => rewind
  | .panicked => none

/-- Where a reader's task is: its guard exists from the first poll on and drops before the task
counts as finished. -/
inductive TaskStage where
  | spawned
  | running
  | leaving (exit : ReaderExit)
  | deregistered (exit : ReaderExit)
  | finished (exit : ReaderExit)
deriving DecidableEq, Repr

inductive TaskAct where
  | start
  | leave (exit : ReaderExit)
  | deregister
  | finish
deriving DecidableEq, Repr

def TaskStage.next : TaskStage → TaskAct → Option TaskStage
  | .spawned, .start => some .running
  | .running, .leave exit => some (.leaving exit)
  | .leaving exit, .deregister => some (.deregistered exit)
  | .deregistered exit, .finish => some (.finished exit)
  | _, _ => none

/-- One shard's live seek surface: its gate and the sending end of its command channel. -/
structure ShardHandle where
  gate : Nat
  tx : Nat
deriving DecidableEq, Repr

/-- A task of `read_shard` and the arguments it was spawned with. -/
structure ReaderTask (Shard : Type) where
  shard : Shard
  gate : Nat
  seekRx : Nat
  lineage : Lineage
  rewind : Option ShardStart
  stage : TaskStage := .spawned
deriving DecidableEq, Repr

/-- Where the coordinator is in its loop. -/
inductive Coordinator (Shard : Type) where
  | looping
  | forgetting (todo : List Shard) (left : Nat)
  | listing
  | visiting (todo : List Shard)
  | acquiring (shard : Shard) (todo : List Shard)
  | registered (shard : Shard) (handle : ShardHandle) (lineage : Lineage) (todo : List Shard)
  | resting
  | stopped
deriving DecidableEq, Repr

/-- The coordinator's maps, the shared seek surface (`shards`) and every task ever spawned, at the
number its handle joins. -/
structure Readers (Shard : Type) where
  tasks : List (ReaderTask Shard) := []
  readers : AList fun _ : Shard => Nat := ∅
  rewinds : AList fun _ : Shard => ShardStart := ∅
  shards : AList fun _ : Shard => ShardHandle := ∅
  gates : Nat := 0
  channels : Nat := 0
  stage : Coordinator Shard := .looping

inductive PassAct (Shard : Type) where
  | enter (order : List Shard) (left : Nat)
  | forget
  | list (listing : Option (List Shard))
  | visit
  | acquire (lineage : Option Lineage)
  | spawn
  | rest (closed : Bool)
deriving DecidableEq, Repr

inductive ReadersAct (Shard : Type) where
  | pass (act : PassAct Shard)
  | task (i : Nat) (act : TaskAct)
deriving DecidableEq, Repr

namespace ReaderTask

variable {Shard : Type}

/-- What the subscription's seek surface holds for this very reader. -/
def handle (t : ReaderTask Shard) : ShardHandle := ⟨t.gate, t.seekRx⟩

/-- `is_finished` of the task's handle. -/
def isFinished (t : ReaderTask Shard) : Bool :=
  match t.stage with
  | .finished _ => true
  | _ => false

/-- The reader has not dropped its guard. -/
def guarded (t : ReaderTask Shard) : Bool :=
  match t.stage with
  | .spawned | .running | .leaving _ => true
  | _ => false

/-- The place a finished reader gives back. -/
def givenBack (t : ReaderTask Shard) : Option ShardStart :=
  match t.stage with
  | .finished exit => exit.rewind
  | _ => none

end ReaderTask

/-- `now_or_never` on the handle of a task that finished: one poll, by a task which has `left` polls
left of its cooperative budget. Beyond it the handle answers that it is pending. -/
def nowOrNever (exit : ReaderExit) : Nat → Option ReaderExit × Nat
  | 0 => (none, 0)
  | left + 1 => (some exit, left)

namespace Readers

variable {Shard : Type} [DecidableEq Shard]

def register (s : Readers Shard) (shard : Shard) (handle : ShardHandle) : Readers Shard :=
  { s with shards := s.shards.insert shard handle }

def deregister (s : Readers Shard) (shard : Shard) : Readers Shard :=
  { s with shards := s.shards.erase shard }

/-- One entry of `forget_finished`. -/
def forget (s : Readers Shard) (shard : Shard) (todo : List Shard) (left : Nat) :
    Option (Readers Shard) :=
  ((s.readers.lookup shard).bind (s.tasks[·]?)).map fun t =>
    match t.stage with
    | .finished exit =>
      let (answer, left) := nowOrNever exit left
      { s with
        readers := s.readers.erase shard
        rewinds :=
          match answer with
          | some (.returned (some rewind)) => s.rewinds.insert shard rewind
          | _ => s.rewinds
        stage := .forgetting todo left }
    | _ => { s with stage := .forgetting todo left }

/-- The lease of `shard` is taken: a fresh gate and channel go on the seek surface. -/
def claim (s : Readers Shard) (shard : Shard) (lineage : Lineage) (todo : List Shard) :
    Readers Shard :=
  { s.register shard ⟨s.gates, s.channels⟩ with
    gates := s.gates + 1
    channels := s.channels + 1
    stage := .registered shard ⟨s.gates, s.channels⟩ lineage todo }

/-- The reader takes over the shard's rewind. Both maps are the coordinator's own, so no step of
another task comes between the spawn and the entry in `readers`. -/
def spawn (s : Readers Shard) (shard : Shard) (handle : ShardHandle) (lineage : Lineage)
    (todo : List Shard) : Readers Shard :=
  { s with
    tasks := s.tasks ++ [{
      shard := shard
      gate := handle.gate
      seekRx := handle.tx
      lineage := lineage
      rewind := s.rewinds.lookup shard }]
    readers := s.readers.insert shard s.tasks.length
    rewinds := s.rewinds.erase shard
    stage := .visiting todo }

/-- A step of `coordinate`. A pass begins with at most `budget` polls left to its task, and
`retain` visits the readers in any order. -/
def coordinate (budget : Nat) (s : Readers Shard) (act : PassAct Shard) : Option (Readers Shard) :=
  match act, s.stage with
  | .enter order left, .looping =>
    if order.Perm s.readers.keys ∧ left ≤ budget then
      some { s with stage := .forgetting order left }
    else none
  | .forget, .forgetting [] _ => some { s with stage := .listing }
  | .forget, .forgetting (shard :: todo) left => s.forget shard todo left
  | .list none, .listing => some { s with stage := .resting }
  | .list (some listing), .listing => some { s with stage := .visiting listing }
  | .visit, .visiting [] => some { s with stage := .resting }
  | .visit, .visiting (shard :: todo) =>
    some { s with
      stage := if (s.readers.lookup shard).isSome then .visiting todo else .acquiring shard todo }
  | .acquire none, .acquiring _ todo => some { s with stage := .visiting todo }
  | .acquire (some lineage), .acquiring shard todo => some (s.claim shard lineage todo)
  | .spawn, .registered shard handle lineage todo => some (s.spawn shard handle lineage todo)
  | .rest closed, .resting => some { s with stage := if closed then .stopped else .looping }
  | _, _ => none

/-- A step of the `i`-th reader's task. -/
def taskStep (s : Readers Shard) (i : Nat) (act : TaskAct) : Option (Readers Shard) :=
  s.tasks[i]?.bind fun t => (t.stage.next act).map fun stage =>
    let s := { s with tasks := s.tasks.set i { t with stage := stage } }
    if act = .deregister then s.deregister t.shard else s

def step (budget : Nat) (s : Readers Shard) : ReadersAct Shard → Option (Readers Shard)
  | .pass act => s.coordinate budget act
  | .task i act => s.taskStep i act

/-- The place the reader of `shard` gives back, if it finished and gives one. -/
def givenBack (s : Readers Shard) (shard : Shard) : Option ShardStart :=
  ((s.readers.lookup shard).bind (s.tasks[·]?)).bind ReaderTask.givenBack

/-- The handle of a reader that gives a place back is polled within the budget. -/
def inBudget (s : Readers Shard) : ReadersAct Shard → Bool
  | .pass .forget =>
    match s.stage with
    | .forgetting (shard :: _) 0 => (s.givenBack shard).isNone
    | _ => true
  | _ => true

end Readers

end RuststreamKinesis
