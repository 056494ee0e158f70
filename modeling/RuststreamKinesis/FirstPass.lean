import RuststreamKinesis.Lib.Cells
import RuststreamKinesis.Lib.Simulation
import RuststreamKinesis.Subscription
import Mathlib.Data.List.Perm.Basic

/-!
# The first pass of the coordinator

`KinesisSubscriber::open` returns once the first pass of `coordinate` is over and every reader it
started has its starting cursor, and nobody reads the channel before that. So the errors of the pass
are held until then, and a reader drops its end of `started` before it reports one. What the pass
finds out of each shard, and why, is the matter of `Stream`; here it is one of three outcomes.
-/

namespace RuststreamKinesis

set_option autoImplicit false

open Runs

/-- How far a reader of the first pass has come. It holds its `started` while it is opening. -/
inductive Starting (Error : Type) where
  | opening
  | reporting (error : Error)
  | running
  | ended
deriving DecidableEq, Repr

/-- What comes through the channel, by who put it there. What a reader that has its starting cursor
sends is a `record`, an error of a later read included. -/
inductive Report (Error : Type) where
  | coordinator (error : Error)
  | reader (error : Error)
  | record
deriving DecidableEq, Repr

/-- Where the coordinator stands: `left` shards of the listing, or the cursors from `next` on, are
still ahead of it. -/
inductive PassStage where
  | listing
  | visiting (left : Nat)
  | awaiting (next : Nat)
  | flushing
  | watching
deriving DecidableEq, Repr

structure FirstPass (Error : Type) where
  stage : PassStage := .listing
  readers : List (Starting Error) := []
  held : List Error := []
  queue : List (Report Error) := []
  opened : Bool := false
  closed : Bool := false
deriving DecidableEq, Repr

inductive FirstPassAct (Error : Type) where
  | listed (shards : Nat)
  | listFails (error : Error)
  | passBy
  | fails (error : Error)
  | takes
  | visited
  | cursor
  | answer
  | flush
  | watch
  | positions (reader : Nat)
  | refuses (reader : Nat) (error : Error)
  | finishes (reader : Nat)
  | reports (reader : Nat)
  | forwards (reader : Nat)
  | stops (reader : Nat)
  | poll
  | leave
deriving DecidableEq, Repr

/-- The steps of the pass and of its readers' openings, each of which waits for nothing but an
answer of the service or of the lease store. -/
def FirstPassAct.opens {Error : Type} : FirstPassAct Error → Bool
  | .listed _ | .listFails _ | .passBy | .fails _ | .takes | .visited | .cursor | .answer
  | .positions _ | .refuses _ _ | .finishes _ => true
  | _ => false

/-- The error that a step of the coordinator comes upon. -/
def FirstPassAct.noted {Error : Type} : FirstPassAct Error → List Error
  | .listFails error | .fails error => [error]
  | _ => []

/-- The error that keeps a reader from its starting cursor. -/
def FirstPassAct.refused {Error : Type} : FirstPassAct Error → List Error
  | .refuses _ error => [error]
  | _ => []

def Starting.isOpening {Error : Type} : Starting Error → Bool
  | .opening => true
  | _ => false

/-- The error a reader still has to report. -/
def Starting.error {Error : Type} : Starting Error → Option Error
  | .reporting error => some error
  | _ => none

namespace Report

variable {Error : Type}

def ofCoordinator : Report Error → Option Error
  | .coordinator error => some error
  | _ => none

def ofReader : Report Error → Option Error
  | .reader error => some error
  | _ => none

end Report

namespace FirstPass

variable {Error : Type}

def room (s : FirstPass Error) : Bool := s.queue.length < channelCapacity

/-- `out.send`: it waits for room in the channel, and fails at once when the receiver is gone. -/
def send (s : FirstPass Error) (report : Report Error) : Option (FirstPass Error) :=
  if s.closed then some s
  else if s.room then some { s with queue := s.queue ++ [report] }
  else none

def setReader (s : FirstPass Error) (i : Nat) (reader : Starting Error) : FirstPass Error :=
  { s with readers := s.readers.set i reader }

/-- `report` of the first pass: the error is held. -/
def report (s : FirstPass Error) (error : Error) : FirstPass Error :=
  { s with held := s.held ++ [error] }

/-- A reader is done with its `initial_iterator`, however it went: `started` is dropped. -/
def starts (s : FirstPass Error) (i : Nat) (reader : Starting Error) : Option (FirstPass Error) :=
  match s.readers[i]? with
  | some .opening => some (s.setReader i reader)
  | _ => none

def step (s : FirstPass Error) : FirstPassAct Error → Option (FirstPass Error)
  | .listed shards =>
    if s.stage = .listing then some { s with stage := .visiting shards } else none
  | .listFails error =>
    if s.stage = .listing then some { s.report error with stage := .awaiting 0 } else none
  -- Waiting for its parents, finished, or owned by another instance.
  | .passBy =>
    match s.stage with
    | .visiting (left + 1) => some { s with stage := .visiting left }
    | _ => none
  | .fails error =>
    match s.stage with
    | .visiting (left + 1) => some { s.report error with stage := .visiting left }
    | _ => none
  | .takes =>
    match s.stage with
    | .visiting (left + 1) =>
      some { s with stage := .visiting left, readers := s.readers ++ [.opening] }
    | _ => none
  | .visited => if s.stage = .visiting 0 then some { s with stage := .awaiting 0 } else none
  | .cursor =>
    match s.stage with
    | .awaiting next =>
      if (s.readers[next]?).any fun reader => !reader.isOpening then
        some { s with stage := .awaiting (next + 1) }
      else none
    | _ => none
  | .answer =>
    if s.stage = .awaiting s.readers.length then
      some { s with stage := .flushing, opened := true }
    else none
  | .flush =>
    match s.stage, s.held with
    | .flushing, error :: held => { s with held := held }.send (.coordinator error)
    | _, _ => none
  | .watch =>
    if s.stage = .flushing ∧ s.held.isEmpty then some { s with stage := .watching } else none
  | .positions i => s.starts i .running
  | .refuses i error => s.starts i (.reporting error)
  | .finishes i => s.starts i .ended
  | .reports i =>
    match s.readers[i]? with
    | some (.reporting error) => (s.setReader i .ended).send (.reader error)
    | _ => none
  | .forwards i =>
    match s.readers[i]? with
    | some .running => if s.closed then some (s.setReader i .ended) else s.send .record
    | _ => none
  | .stops i =>
    match s.readers[i]? with
    | some .running => some (s.setReader i .ended)
    | _ => none
  | .poll =>
    match s.closed, s.queue with
    | false, _ :: rest => if s.opened then some { s with queue := rest } else none
    | _, _ => none
  | .leave => some { s with closed := true, queue := [] }

/-- What a send that went through has done. -/
inductive Sent (s : FirstPass Error) (report : Report Error) : FirstPass Error → Prop where
  | gone : s.closed = true → Sent s report s
  | queued : s.closed = false → Sent s report { s with queue := s.queue ++ [report] }

/-- The outcomes of a step. -/
inductive Step (s : FirstPass Error) : FirstPassAct Error → FirstPass Error → Prop where
  | listed {shards : Nat} : s.stage = .listing →
      Step s (.listed shards) { s with stage := .visiting shards }
  | listFails {error : Error} : s.stage = .listing →
      Step s (.listFails error) { s.report error with stage := .awaiting 0 }
  | passBy {left : Nat} : s.stage = .visiting (left + 1) →
      Step s .passBy { s with stage := .visiting left }
  | fails {left : Nat} {error : Error} : s.stage = .visiting (left + 1) →
      Step s (.fails error) { s.report error with stage := .visiting left }
  | takes {left : Nat} : s.stage = .visiting (left + 1) →
      Step s .takes { s with stage := .visiting left, readers := s.readers ++ [.opening] }
  | visited : s.stage = .visiting 0 → Step s .visited { s with stage := .awaiting 0 }
  | cursor {next : Nat} {reader : Starting Error} : s.stage = .awaiting next →
      s.readers[next]? = some reader → reader.isOpening = false →
      Step s .cursor { s with stage := .awaiting (next + 1) }
  | answer : s.stage = .awaiting s.readers.length →
      Step s .answer { s with stage := .flushing, opened := true }
  | flush {error : Error} {held : List Error} {s' : FirstPass Error} : s.stage = .flushing →
      s.held = error :: held → Sent { s with held := held } (.coordinator error) s' →
      Step s .flush s'
  | watch : s.stage = .flushing → s.held = [] → Step s .watch { s with stage := .watching }
  | starts {act : FirstPassAct Error} {i : Nat} {reader : Starting Error} :
      s.readers[i]? = some .opening →
      (act = .positions i ∧ reader = .running) ∨ (act = .finishes i ∧ reader = .ended) →
      Step s act (s.setReader i reader)
  | refuses {i : Nat} {error : Error} : s.readers[i]? = some .opening →
      Step s (.refuses i error) (s.setReader i (.reporting error))
  | reports {i : Nat} {error : Error} {s' : FirstPass Error} :
      s.readers[i]? = some (.reporting error) →
      Sent (s.setReader i .ended) (.reader error) s' → Step s (.reports i) s'
  | forwards {i : Nat} {s' : FirstPass Error} : Sent s .record s' → Step s (.forwards i) s'
  | stops {act : FirstPassAct Error} {i : Nat} : s.readers[i]? = some .running →
      act = .stops i ∨ act = .forwards i ∧ s.closed = true → Step s act (s.setReader i .ended)
  | poll {report : Report Error} {rest : List (Report Error)} : s.closed = false →
      s.queue = report :: rest → s.opened = true → Step s .poll { s with queue := rest }
  | leave : Step s .leave { s with closed := true, queue := [] }

variable {s s' s₁ : FirstPass Error} {act : FirstPassAct Error} {as bs : List (FirstPassAct Error)}
variable {report : Report Error} {i : Nat}

theorem send_cases (h : s.send report = some s') : Sent s report s' := by
  unfold send at h
  split at h
  · rename_i hclosed
    obtain rfl := Option.some.inj h
    exact .gone hclosed
  · rename_i hclosed
    split at h
    · obtain rfl := Option.some.inj h
      exact .queued (by simpa using hclosed)
    · cases h

theorem starts_cases {reader : Starting Error} (h : s.starts i reader = some s') :
    s.readers[i]? = some .opening ∧ s' = s.setReader i reader := by
  unfold starts at h
  split at h
  · rename_i hr
    exact ⟨hr, (Option.some.inj h).symm⟩
  · cases h

theorem step_cases (h : s.step act = some s') : Step s act s' := by
  cases act with
  | listed shards =>
    simp only [step, Option.ite_none_right_eq_some, Option.some.injEq] at h
    exact h.2 ▸ .listed h.1
  | listFails error =>
    simp only [step, Option.ite_none_right_eq_some, Option.some.injEq] at h
    exact h.2 ▸ .listFails h.1
  | passBy =>
    simp only [step] at h
    split at h
    · rename_i hs
      exact Option.some.inj h ▸ .passBy hs
    · cases h
  | fails error =>
    simp only [step] at h
    split at h
    · rename_i hs
      exact Option.some.inj h ▸ .fails hs
    · cases h
  | takes =>
    simp only [step] at h
    split at h
    · rename_i hs
      exact Option.some.inj h ▸ .takes hs
    · cases h
  | visited =>
    simp only [step, Option.ite_none_right_eq_some, Option.some.injEq] at h
    exact h.2 ▸ .visited h.1
  | cursor =>
    simp only [step] at h
    split at h
    · rename_i next hs
      split at h
      · rename_i hr
        obtain ⟨reader, hget, hstarted⟩ := (Option.any_eq_true _ _).mp hr
        exact Option.some.inj h ▸ .cursor hs hget (by simpa using hstarted)
      · cases h
    · cases h
  | answer =>
    simp only [step, Option.ite_none_right_eq_some, Option.some.injEq] at h
    exact h.2 ▸ .answer h.1
  | flush =>
    simp only [step] at h
    split at h
    · rename_i error held hs hh
      exact .flush hs hh (send_cases h)
    · cases h
  | watch =>
    simp only [step, Option.ite_none_right_eq_some, Option.some.injEq, List.isEmpty_iff] at h
    exact h.2 ▸ .watch h.1.1 h.1.2
  | positions i =>
    obtain ⟨hr, rfl⟩ := starts_cases h
    exact .starts hr (.inl ⟨rfl, rfl⟩)
  | refuses i error =>
    obtain ⟨hr, rfl⟩ := starts_cases h
    exact .refuses hr
  | finishes i =>
    obtain ⟨hr, rfl⟩ := starts_cases h
    exact .starts hr (.inr ⟨rfl, rfl⟩)
  | reports i =>
    simp only [step] at h
    split at h
    · rename_i error hr
      exact .reports hr (send_cases h)
    · cases h
  | forwards i =>
    simp only [step] at h
    split at h
    · rename_i hr
      split at h
      · rename_i hclosed
        exact Option.some.inj h ▸ .stops hr (.inr ⟨rfl, hclosed⟩)
      · exact .forwards (send_cases h)
    · cases h
  | stops i =>
    simp only [step] at h
    split at h
    · rename_i hr
      exact Option.some.inj h ▸ .stops hr (.inl rfl)
    · cases h
  | poll =>
    simp only [step] at h
    split at h
    · rename_i report rest hclosed hq
      simp only [Option.ite_none_right_eq_some, Option.some.injEq] at h
      exact h.2 ▸ .poll hclosed hq h.1
    · cases h
  | leave => exact Option.some.inj h ▸ .leave

/-- What is so in every state: `open` returns when the cursors have come in, and the errors of the
pass are not sent before. -/
structure Sound (s : FirstPass Error) : Prop where
  unlisted : s.stage = .listing → s.readers = []
  opened : s.opened = true ↔ s.stage = .flushing ∨ s.stage = .watching
  awaited : ∀ next, s.stage = .awaiting next → next ≤ s.readers.length ∧
    ∀ i < next, ∀ reader, s.readers[i]? = some reader → reader.isOpening = false
  started : s.opened = true → ∀ reader ∈ s.readers, reader.isOpening = false
  unsent : s.opened = false → s.queue.filterMap Report.ofCoordinator = []

theorem Sound.init : Sound ({} : FirstPass Error) := by
  constructor <;> simp

/-- A reader that is done with its opening stays so. -/
theorem Sound.setReader {reader : Starting Error} (h : Sound s)
    (hreader : reader.isOpening = false) :
    Sound (s.setReader i reader) where
  unlisted hs := by simp [FirstPass.setReader, h.unlisted hs]
  opened := h.opened
  awaited next hs := by
    obtain ⟨hle, hpassed⟩ := h.awaited next hs
    refine ⟨by simpa [FirstPass.setReader] using hle, fun j hj r hr => ?_⟩
    rcases Cells.get_set hr with ⟨-, rfl⟩ | ⟨-, hr⟩
    · exact hreader
    · exact hpassed j hj r hr
  started ho r hr := by
    rcases Cells.mem_set hr with rfl | hr
    · exact hreader
    · exact h.started ho r hr
  unsent := h.unsent

theorem Sound.sent (h : Sound s) (hs : Sent s report s')
    (hreport : s.opened = false → report.ofCoordinator = none) : Sound s' := by
  cases hs with
  | gone => exact h
  | queued =>
    refine ⟨h.unlisted, h.opened, h.awaited, h.started, fun ho => ?_⟩
    rw [List.filterMap_append, h.unsent ho, List.nil_append]
    simp [hreport ho]

theorem Sound.step (h : Sound s) (hs : Step s act s') : Sound s' := by
  have unopened : ∀ {stage : PassStage}, s.stage = stage → stage ≠ .flushing →
      stage ≠ .watching → s.opened = false := by
    intro stage he hf hw
    rw [← Bool.not_eq_true, h.opened, he]
    simp [hf, hw]
  cases hs with
  | listed hs | passBy hs | fails hs | takes hs =>
    have hfalse := unopened hs (by simp) (by simp)
    exact ⟨by simp, by simpa [report] using hfalse, by simp, by simp [report, hfalse],
      fun _ => h.unsent hfalse⟩
  | listFails hs | visited hs =>
    have hfalse := unopened hs (by simp) (by simp)
    exact ⟨by simp, by simpa [report] using hfalse, by simp, by simp [report, hfalse],
      fun _ => h.unsent hfalse⟩
  | @cursor next reader hs hr hstarted =>
    have hfalse := unopened hs (by simp) (by simp)
    obtain ⟨-, hpassed⟩ := h.awaited next hs
    refine ⟨by simp, by simpa using hfalse, ?_, by simp [hfalse], fun _ => h.unsent hfalse⟩
    rintro _ ⟨⟩
    refine ⟨Cells.get_lt hr, fun i hi r hget => ?_⟩
    rcases Nat.lt_succ_iff_lt_or_eq.mp hi with hi | rfl
    · exact hpassed i hi r hget
    · obtain rfl := Option.some.inj (hr.symm.trans hget)
      exact hstarted
  | answer hs =>
    obtain ⟨-, hpassed⟩ := h.awaited _ hs
    refine ⟨by simp, by simp, by simp, fun _ r hr => ?_, by simp⟩
    obtain ⟨i, hi⟩ := List.mem_iff_getElem?.mp hr
    exact hpassed i (Cells.get_lt hi) r hi
  | flush hs _ hsent =>
    have hheld : ∀ held, Sound { s with held := held } := fun held =>
      ⟨h.unlisted, h.opened, h.awaited, h.started, h.unsent⟩
    refine (hheld _).sent hsent fun hfalse => ?_
    rw [h.opened.mpr (.inl hs)] at hfalse
    cases hfalse
  | watch hs =>
    have htrue := h.opened.mpr (.inl hs)
    exact ⟨by simp, by simp [htrue], by simp, fun ho => h.started ho, by simp [htrue]⟩
  | starts _ he =>
    refine h.setReader ?_
    rcases he with ⟨-, rfl⟩ | ⟨-, rfl⟩ <;> rfl
  | refuses => exact h.setReader rfl
  | reports _ hsent => exact (h.setReader rfl).sent hsent fun _ => rfl
  | forwards hsent => exact h.sent hsent fun _ => rfl
  | stops => exact h.setReader rfl
  | poll _ _ ho => exact ⟨h.unlisted, h.opened, h.awaited, h.started, by simp [ho]⟩
  | leave => exact ⟨h.unlisted, h.opened, h.awaited, h.started, fun _ => rfl⟩

theorem sound_run (h : exec step ({} : FirstPass Error) as = some s) : Sound s := by
  have hrun : Run step (fun _ _ => True) {} s := .of_exec (fun _ _ => trivial) h
  exact hrun.invariant (fun _ _ _ h _ hs => h.step (step_cases hs)) .init

/-- How many of them there are at most until `open` returns, once the shards are listed. -/
def toReturn (s : FirstPass Error) : Nat :=
  (match s.stage with
    | .listing | .flushing | .watching => 0
    | .visiting left => 3 * left + s.readers.length + 2
    | .awaiting next => s.readers.length - next + 1) + s.readers.countP Starting.isOpening

theorem toReturn_set {old : Starting Error} (hold : s.readers[i]? = some old)
    (reader : Starting Error) (hreader : reader.isOpening = false) :
    (s.setReader i reader).toReturn + (if old.isOpening then 1 else 0) = s.toReturn := by
  obtain ⟨hlt, rfl⟩ := List.getElem?_eq_some_iff.mp hold
  have hle := List.boole_getElem_le_countP (p := Starting.isOpening) hlt
  simp only [toReturn, setReader, List.length_set, List.countP_set hlt, hreader,
    Bool.false_eq_true, if_false, Nat.add_zero]
  omega

theorem toReturn_sent (h : Sent s report s') : s'.toReturn = s.toReturn ∧ s'.stage = s.stage := by
  cases h <;> exact ⟨rfl, rfl⟩

/-- Each of these steps comes nearer to the return, and no other step gets further from it. -/
theorem toReturn_step (h : Step s act s') (hs : s.stage ≠ .listing) :
    s'.stage ≠ .listing ∧ (if act.opens then 1 else 0) + s'.toReturn ≤ s.toReturn := by
  cases h with
  | listed hl | listFails hl => exact absurd hl hs
  | passBy hv =>
    refine ⟨by simp, ?_⟩
    simp only [FirstPassAct.opens, toReturn, hv, if_true]
    omega
  | fails hv =>
    refine ⟨by simp, ?_⟩
    simp only [FirstPassAct.opens, toReturn, hv, report, if_true]
    omega
  | takes hv =>
    refine ⟨by simp, ?_⟩
    simp only [FirstPassAct.opens, toReturn, hv, List.length_append, List.countP_append,
      List.length_singleton, List.countP_singleton, Starting.isOpening, if_true]
    omega
  | visited hv =>
    refine ⟨by simp, ?_⟩
    simp only [FirstPassAct.opens, toReturn, hv, if_true]
    omega
  | cursor ha hr =>
    have hlt := Cells.get_lt hr
    refine ⟨by simp, ?_⟩
    simp only [FirstPassAct.opens, toReturn, ha, if_true]
    omega
  | answer ha =>
    refine ⟨by simp, ?_⟩
    simp only [FirstPassAct.opens, toReturn, ha, if_true]
    omega
  | flush hf _ hsent =>
    obtain ⟨hrank, hstage⟩ := toReturn_sent hsent
    refine ⟨by simp [hstage, hf], ?_⟩
    rw [hrank]
    simp [FirstPassAct.opens, toReturn]
  | watch hf =>
    refine ⟨by simp, ?_⟩
    simp [FirstPassAct.opens, toReturn, hf]
  | starts hr he =>
    refine ⟨hs, ?_⟩
    rcases he with ⟨rfl, rfl⟩ | ⟨rfl, rfl⟩
    · rw [← toReturn_set hr .running rfl]
      simp [FirstPassAct.opens, Starting.isOpening, Nat.add_comm]
    · rw [← toReturn_set hr .ended rfl]
      simp [FirstPassAct.opens, Starting.isOpening, Nat.add_comm]
  | @refuses i error hr =>
    refine ⟨hs, ?_⟩
    rw [← toReturn_set hr (.reporting error) rfl]
    simp [FirstPassAct.opens, Starting.isOpening, Nat.add_comm]
  | reports hr hsent =>
    obtain ⟨hrank, hstage⟩ := toReturn_sent hsent
    refine ⟨by simpa [hstage, setReader] using hs, ?_⟩
    rw [hrank, ← toReturn_set hr .ended rfl]
    simp [FirstPassAct.opens]
  | forwards hsent =>
    obtain ⟨hrank, hstage⟩ := toReturn_sent hsent
    refine ⟨by simpa [hstage] using hs, ?_⟩
    rw [hrank]
    simp [FirstPassAct.opens]
  | stops hr he =>
    refine ⟨hs, ?_⟩
    rw [← toReturn_set hr .ended rfl]
    rcases he with rfl | ⟨rfl, -⟩ <;> simp [FirstPassAct.opens]
  | poll => exact ⟨hs, by simp [FirstPassAct.opens, toReturn]⟩
  | leave => exact ⟨hs, by simp [FirstPassAct.opens, toReturn]⟩

theorem toReturn_run (h : exec step s as = some s') (hs : s.stage ≠ .listing) :
    as.countP FirstPassAct.opens + s'.toReturn ≤ s.toReturn := by
  induction as generalizing s with
  | nil =>
    obtain rfl := Option.some.inj h
    simp
  | cons act as ih =>
    obtain ⟨m, hm, hrest⟩ := Option.bind_eq_some_iff.mp h
    obtain ⟨hstage, hone⟩ := toReturn_step (step_cases hm) hs
    have hlater := ih hrest hstage
    rw [List.countP_cons]
    omega

/-- As long as `open` has not returned, a step towards it can be made, be the channel full or
not. -/
theorem goes_on (h : Sound s) (ho : s.opened = false) :
    ∃ act : FirstPassAct Error, act.opens = true ∧ (s.step act).isSome = true := by
  have hnot := (not_congr h.opened).mp (Bool.eq_false_iff.mp ho)
  cases hs : s.stage with
  | listing => exact ⟨.listed 0, rfl, by simp [step, hs]⟩
  | visiting left =>
    cases left with
    | zero => exact ⟨.visited, rfl, by simp [step, hs]⟩
    | succ left => exact ⟨.passBy, rfl, by simp [step, hs]⟩
  | awaiting next =>
    obtain ⟨hle, -⟩ := h.awaited next hs
    rcases Nat.eq_or_lt_of_le hle with rfl | hlt
    · exact ⟨.answer, rfl, by simp [step, hs]⟩
    · have hget : s.readers[next]? = some s.readers[next] := List.getElem?_eq_getElem hlt
      cases hr : s.readers[next] with
      | opening =>
        rw [hr] at hget
        exact ⟨.positions next, rfl, by simp [step, starts, hget]⟩
      | _ =>
        rw [hr] at hget
        exact ⟨.cursor, rfl, by simp [step, hs, hget, Starting.isOpening]⟩
  | flushing => exact absurd (.inl hs) hnot
  | watching => exact absurd (.inr hs) hnot

/-- Once the shards are listed `open` returns within three steps for each of them and two more, none
of which waits for the channel, and as long as it has not it can go on; and when it has returned,
each reader of the pass has its starting cursor or has stopped. -/
theorem subscribe_returns {shards : Nat} (h : exec step ({} : FirstPass Error) as = some s)
    (hlist : s.step (.listed shards) = some s₁) (h' : exec step s₁ bs = some s') :
    bs.countP FirstPassAct.opens ≤ 3 * shards + 2 ∧
    (s'.opened = false →
      ∃ act : FirstPassAct Error, act.opens = true ∧ (s'.step act).isSome = true) ∧
    (s'.opened = true → ∀ reader ∈ s'.readers, reader.isOpening = false) := by
  have hrun : exec step ({} : FirstPass Error) (as ++ .listed shards :: bs) = some s' := by
    rw [exec_append h]
    simp only [exec, hlist, Option.bind_some, h']
  have hsound := sound_run hrun
  refine ⟨?_, fun ho => goes_on hsound ho, hsound.started⟩
  have hstep := step_cases hlist
  cases hstep with
  | listed hl =>
    have hbound := toReturn_run h' (by simp)
    simp only [toReturn, (sound_run h).unlisted hl, List.length_nil, List.countP_nil] at hbound
    omega
  | starts _ he | stops _ he => simp at he

/-- What the consumer gets. -/
def received (s : FirstPass Error) : FirstPassAct Error → List (Report Error)
  | .poll => s.queue.head?.toList
  | _ => []

/-- The errors of the coordinator that are not received yet. -/
def unreceived (s : FirstPass Error) : List Error :=
  s.queue.filterMap Report.ofCoordinator ++ s.held

/-- The errors of the readers that are not received yet. -/
def unreported (s : FirstPass Error) : List Error :=
  s.queue.filterMap Report.ofReader ++ s.readers.filterMap Starting.error

theorem Sent.eq_queued (h : Sent s report s') (hopen : s'.closed = false) :
    s' = { s with queue := s.queue ++ [report] } := by
  cases h with
  | gone hclosed => exact absurd (hclosed.symm.trans hopen) (by simp)
  | queued => rfl

theorem Step.open_before (h : Step s act s') (hopen : s'.closed = false) : s.closed = false := by
  cases h with
  | flush _ _ hsent | reports _ hsent | forwards hsent =>
    cases hsent with
    | gone hclosed => exact absurd (hclosed.symm.trans hopen) (by simp)
    | queued hclosed => exact hclosed
  | leave => cases hopen
  | _ => exact hopen

/-- What the coordinator comes upon goes to the end of what is not received yet. -/
theorem Step.unreceived (h : Step s act s') (hopen : s'.closed = false) :
    s.unreceived ++ act.noted = (s.received act).filterMap Report.ofCoordinator ++
      s'.unreceived := by
  cases h with
  | listFails | fails =>
    simp [FirstPass.unreceived, FirstPassAct.noted, received, report]
  | flush _ hheld hsent =>
    rw [hsent.eq_queued hopen]
    simp [FirstPass.unreceived, FirstPassAct.noted, received, hheld, Report.ofCoordinator]
  | reports _ hsent =>
    rw [hsent.eq_queued hopen]
    simp [FirstPass.unreceived, FirstPassAct.noted, received, setReader, Report.ofCoordinator]
  | forwards hsent =>
    rw [hsent.eq_queued hopen]
    simp [FirstPass.unreceived, FirstPassAct.noted, received, Report.ofCoordinator]
  | @poll report rest _ hq =>
    cases hr : report.ofCoordinator <;>
      simp [FirstPass.unreceived, FirstPassAct.noted, received, hq, hr]
  | leave => cases hopen
  | starts _ he =>
    rcases he with ⟨rfl, rfl⟩ | ⟨rfl, rfl⟩ <;>
      simp [FirstPass.unreceived, FirstPassAct.noted, received, setReader]
  | stops _ he =>
    rcases he with rfl | ⟨rfl, -⟩ <;>
      simp [FirstPass.unreceived, FirstPassAct.noted, received, setReader]
  | _ => simp [FirstPass.unreceived, FirstPassAct.noted, received, setReader]

theorem unreported_set {old : Starting Error} (hold : s.readers[i]? = some old)
    (reader : Starting Error) :
    ((s.setReader i reader).unreported ++ old.error.toList).Perm
      (s.unreported ++ reader.error.toList) := by
  have hset := Cells.filterMap_set (f := Starting.error) (v := reader) hold
  simp only [FirstPass.unreported, setReader, List.append_assoc]
  exact hset.append_left _

/-- What a reader comes upon is among what is not received yet. -/
theorem Step.unreported (h : Step s act s') (hopen : s'.closed = false) :
    (s.unreported ++ act.refused).Perm
      ((s.received act).filterMap Report.ofReader ++ s'.unreported) := by
  cases h with
  | starts hr he =>
    rcases he with ⟨rfl, rfl⟩ | ⟨rfl, rfl⟩
    · simpa [FirstPassAct.refused, received, Starting.error] using
        (unreported_set hr .running).symm
    · simpa [FirstPassAct.refused, received, Starting.error] using (unreported_set hr .ended).symm
  | @refuses i error hr =>
    simpa [FirstPassAct.refused, received, Starting.error] using
      (unreported_set hr (.reporting error)).symm
  | @reports i error _ hr hsent =>
    rw [hsent.eq_queued hopen]
    have hset : s.unreported.Perm ((s.setReader i .ended).unreported ++ [error]) := by
      simpa [Starting.error] using (unreported_set hr .ended).symm
    have hnone : (FirstPassAct.reports i : FirstPassAct Error).refused = [] := rfl
    rw [hnone, List.append_nil]
    refine hset.trans ?_
    simp only [FirstPass.unreported, received, List.filterMap_append, List.filterMap_nil,
      List.nil_append, List.append_assoc]
    refine .append_left _ ?_
    exact List.perm_append_comm
  | stops hr he =>
    rcases he with rfl | ⟨rfl, -⟩ <;>
      simpa [FirstPassAct.refused, received, Starting.error] using (unreported_set hr .ended).symm
  | takes =>
    simp [FirstPass.unreported, FirstPassAct.refused, received, List.filterMap_cons, Starting.error]
  | flush _ _ hsent =>
    rw [hsent.eq_queued hopen]
    simp [FirstPass.unreported, FirstPassAct.refused, received, List.filterMap_cons,
      Report.ofReader]
  | forwards hsent =>
    rw [hsent.eq_queued hopen]
    simp [FirstPass.unreported, FirstPassAct.refused, received, List.filterMap_cons,
      Report.ofReader]
  | @poll report rest _ hq =>
    cases hr : report.ofReader <;>
      simp [FirstPass.unreported, FirstPassAct.refused, received, hq, hr]
  | leave => cases hopen
  | _ => simp [FirstPass.unreported, FirstPassAct.refused, received, report, Starting.error]

/-- As long as the subscription is open, each error the coordinator comes upon on its first pass has
been received or is on its way, once and in order, and none is sent before `open` returns; and so
has each error that kept a reader from its starting cursor, in some order. -/
theorem errors_come_through (h : exec step ({} : FirstPass Error) as = some s)
    (hopen : s.closed = false) :
    labels step (fun _ act => act.noted) ({} : FirstPass Error) as =
      (labels step received ({} : FirstPass Error) as).filterMap Report.ofCoordinator ++
        s.unreceived ∧
    (labels step (fun _ act => act.refused) ({} : FirstPass Error) as).Perm
      ((labels step received ({} : FirstPass Error) as).filterMap Report.ofReader ++
        s.unreported) ∧
    (s.opened = false → s.unreceived = s.held) := by
  refine ⟨?_, ?_, fun ho => ?_⟩
  · rw [labels_filterMap _ h]
    exact (exec_conserves (fun _ _ _ hs => (step_cases hs).open_before)
      (fun _ _ _ hs => (step_cases hs).unreceived) h hopen).2
  · rw [labels_filterMap _ h]
    exact (exec_conserves_perm (fun _ _ _ hs => (step_cases hs).open_before)
      (fun _ _ _ hs => (step_cases hs).unreported) h hopen).2
  · rw [unreceived, (sound_run h).unsent ho, List.nil_append]

/-- Two shards, of which one has no row that can be read and the reader of the other one fails. -/
def failingPass : List (FirstPassAct String) := [
  .listed 2, .fails "row", .takes, .visited, .refuses 0 "cursor", .cursor, .answer, .reports 0,
  .flush, .watch]

theorem subscribe_returns_failing : ∃ s₁ s' : FirstPass String,
    step {} (.listed 2) = some s₁ ∧ exec step s₁ failingPass.tail = some s' ∧
    s'.opened = true ∧ failingPass.tail.countP FirstPassAct.opens ≤ 8 ∧
    ∀ reader ∈ s'.readers, reader.isOpening = false := by
  obtain ⟨s₁, s', hinit, hs₁, hs', ho⟩ : ∃ s₁ s' : FirstPass String,
      exec step {} [] = some ({} : FirstPass String) ∧ step {} (.listed 2) = some s₁ ∧
      exec step s₁ failingPass.tail = some s' ∧ s'.opened = true := ⟨_, _, rfl, rfl, rfl, rfl⟩
  obtain ⟨hbound, -, hstarted⟩ := subscribe_returns hinit hs₁ hs'
  exact ⟨s₁, s', hs₁, hs', ho, hbound, hstarted ho⟩

theorem errors_come_through_failing : ∃ s : FirstPass String,
    exec step {} (failingPass ++ [.poll, .poll]) = some s ∧ s.queue = [] ∧
    (labels step received ({} : FirstPass String) (failingPass ++ [.poll, .poll])).filterMap
      Report.ofCoordinator = ["row"] := by
  obtain ⟨s, hs, hopen, hq, hnone⟩ : ∃ s : FirstPass String,
      exec step {} (failingPass ++ [.poll, .poll]) = some s ∧ s.closed = false ∧ s.queue = [] ∧
      s.unreceived = [] := ⟨_, rfl, rfl, rfl, rfl⟩
  obtain ⟨hcame, -⟩ := errors_come_through hs hopen
  rw [hnone, List.append_nil] at hcame
  exact ⟨s, hs, hq, hcame.symm⟩

end FirstPass

end RuststreamKinesis
