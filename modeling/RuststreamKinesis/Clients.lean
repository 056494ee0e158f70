import RuststreamKinesis.Lib.Cells
import RuststreamKinesis.Lib.Runs

/-!
# The client of a runtime

Which SDK client a request uses (`clients.rs`). A selection is a `RuntimeClients`; its token is an
allocation, known by the place of the selection in the list of all that were ever created. The
allocator may give an address out again once no `Arc` and no `Weak` refers to the allocation that
had it. A call of `with` goes step by step, one for each cell that other threads share, and all
threads interleave.
-/

namespace RuststreamKinesis

set_option autoImplicit false

/-- What the broker names over the `SdkConfig`. -/
structure Overrides where
  endpoint : Option String := none
  region : Option String := none
deriving DecidableEq, Repr

/-- What a thread uses for one selection. `owner` is the weak reference to the token, by the
allocation it refers to; `own` is the thread's own client, `none` the home client. -/
structure Slot where
  owner : Nat
  own : Option Nat
deriving DecidableEq, Repr

/-- `address` is the one of the token. A dropped selection has given up its `Arc`. -/
structure RuntimeClients (Config : Type) where
  home : Option Nat
  client : Nat
  config : Config
  overrides : Overrides
  address : Nat
  dropped : Bool := false

/-- A client that was built: for which selection, and on which thread if not at its creation. -/
structure Built (Client : Type) where
  client : Client
  selection : Nat
  thread : Option Nat
deriving DecidableEq, Repr

/-- A client that a thread builds for the selection, from its configuration. -/
def RuntimeClients.buildOn {Config Client : Type} (build : Config → Overrides → Client)
    (clients : RuntimeClients Config) (selection thread : Nat) : Built Client where
  client := build clients.config clients.overrides
  selection := selection
  thread := some thread

/-- How far a call of `with` has come. -/
inductive Stage where
  | finding
  | homing (current : Nat)
  | choosing (current home : Nat)
  /-- `retain` has passed the slots below `passed`. -/
  | clearing (passed : Nat) (own : Option Nat)
  /-- `request` runs with the thread's own client, or the home client. -/
  | serving (own : Option Nat)
deriving DecidableEq, Repr

/-- `current` is the runtime the call is made on, if any. -/
structure WithCall where
  selection : Nat
  current : Option Nat
  stage : Stage
deriving DecidableEq, Repr

/-- `runtime` is bookkeeping of the model: the runtime of the thread's first call inside one. -/
structure Thread where
  slots : List Slot := []
  call : Option WithCall := none
  torn : Bool := false
  runtime : Option Nat := none
deriving DecidableEq, Repr

structure Clients (Config Client : Type) where
  selections : List (RuntimeClients Config) := []
  threads : List Thread := []
  /-- Every client ever built. -/
  built : List (Built Client) := []

inductive ClientsAct (Config : Type) where
  | thread
  | homed (config : Config) (overrides : Overrides) (runtime address : Nat)
  | new (config : Config) (address : Nat)
  | drop (selection : Nat)
  /-- The thread tears down its locals. -/
  | tear (thread : Nat)
  | call (thread selection : Nat) (current : Option Nat)
  | find (thread : Nat)
  | home (thread : Nat)
  | choose (thread : Nat)
  | clear (thread : Nat)
  | serve (thread : Nat)

namespace Clients

variable {Config Client : Type}

/-- `Weak::strong_count` of the token: its one `Arc` is the selection's. -/
def strongCount (s : Clients Config Client) (k : Nat) : Nat :=
  if s.selections[k]?.any fun clients => !clients.dropped then 1 else 0

/-- An `Arc` or a `Weak` refers to the token of the selection. -/
def held (s : Clients Config Client) (k : Nat) : Bool :=
  0 < s.strongCount k || s.threads.any fun thread => thread.slots.any fun slot => slot.owner == k

/-- `as_ptr` of a reference to the token. -/
def address (s : Clients Config Client) (k : Nat) : Option Nat :=
  s.selections[k]?.map RuntimeClients.address

/-- What the allocator may give out. -/
def free (s : Clients Config Client) (address : Nat) : Bool :=
  (List.range s.selections.length).all fun k => !s.held k || s.address k != some address

def setThread (s : Clients Config Client) (t : Nat) (thread : Thread) : Clients Config Client :=
  { s with threads := s.threads.set t thread }

/-- The call goes on to a later stage. -/
def goto (s : Clients Config Client) (t : Nat) (thread : Thread) (call : WithCall) (stage : Stage) :
    Clients Config Client :=
  s.setThread t { thread with call := some { call with stage := stage } }

/-- `Arc::as_ptr` of the token against the slots of the thread. -/
def lookup (s : Clients Config Client) (thread : Thread) (k : Nat) : Option Slot :=
  thread.slots.find? fun slot => s.address slot.owner == s.address k

section Build
variable (build : Config → Overrides → Client)

def withOverrides (s : Clients Config Client) (config : Config) (overrides : Overrides)
    (home : Option Nat) (address : Nat) : Option (Clients Config Client) :=
  if s.free address then
    some { s with
      selections := s.selections ++ [{
        home, client := s.built.length, config, overrides, address }]
      built := s.built ++ [{
        client := build config overrides
        selection := s.selections.length
        thread := none }] }
  else none

/-- The call's lookup. Outside any runtime there is nothing to remember; a thread that tears down
its locals has no slots any more. -/
def find (s : Clients Config Client) (t : Nat) (thread : Thread) (call : WithCall) :
    Option (Clients Config Client) :=
  match call.stage with
  | .finding =>
    some (s.goto t thread call
      (if thread.torn then .serving none
      else
        match s.lookup thread call.selection, call.current with
        | some slot, _ => .serving slot.own
        | none, some current => .homing current
        | none, none => .serving none))
  | _ => none

/-- `OnceLock::get_or_init`. -/
def getHome (s : Clients Config Client) (t : Nat) (thread : Thread) (call : WithCall) :
    Option (Clients Config Client) :=
  match call.stage, s.selections[call.selection]? with
  | .homing current, some clients =>
    let home := clients.home.getD current
    some ({ s with
      selections := s.selections.set call.selection { clients with home := some home } }.goto t
        thread call (.choosing current home))
  | _, _ => none

/-- A thread that is not on the home runtime builds a client of its own. -/
def choose (s : Clients Config Client) (t : Nat) (thread : Thread) (call : WithCall) :
    Option (Clients Config Client) :=
  match call.stage, s.selections[call.selection]? with
  | .choosing current home, some clients =>
    if home = current then some (s.goto t thread call (.clearing 0 none))
    else
      some ({ s with built := s.built ++ [clients.buildOn build call.selection t] }.goto t thread
        call (.clearing 0 (some s.built.length)))
  | _, _ => none

/-- One slot of `retain`, or the `push` behind it. -/
def clear (s : Clients Config Client) (t : Nat) (thread : Thread) (call : WithCall) :
    Option (Clients Config Client) :=
  match call.stage with
  | .clearing passed own =>
    match thread.slots[passed]? with
    | some slot =>
      if 0 < s.strongCount slot.owner then
        some (s.goto t thread call (.clearing (passed + 1) own))
      else
        some (s.goto t { thread with slots := thread.slots.eraseIdx passed } call
          (.clearing passed own))
    | none =>
      some (s.goto t { thread with slots := thread.slots ++ [⟨call.selection, own⟩] } call
        (.serving own))
  | _ => none

def serve (s : Clients Config Client) (t : Nat) (thread : Thread) (call : WithCall) :
    Option (Clients Config Client) :=
  match call.stage with
  | .serving _ => some (s.setThread t { thread with call := none })
  | _ => none

/-- A step of the call that the thread is in. -/
def inCall (s : Clients Config Client) (t : Nat)
    (f : Thread → WithCall → Option (Clients Config Client)) : Option (Clients Config Client) :=
  s.threads[t]?.bind fun thread => thread.call.bind fun call => f thread call

def step (s : Clients Config Client) : ClientsAct Config → Option (Clients Config Client)
  | .thread => some { s with threads := s.threads ++ [{}] }
  | .homed config overrides runtime address =>
    s.withOverrides build config overrides (some runtime) address
  | .new config address => s.withOverrides build config {} none address
  | .drop k =>
    -- a call borrows its selection
    if s.threads.any fun thread => thread.call.any fun call => call.selection == k then none
    else s.selections[k]?.map fun clients =>
      { s with selections := s.selections.set k { clients with dropped := true } }
  | .tear t => s.threads[t]?.bind fun thread =>
    if thread.call.isSome then none
    else some (s.setThread t { thread with slots := [], torn := true })
  | .call t k current => s.threads[t]?.bind fun thread =>
    if thread.call.isNone ∧ 0 < s.strongCount k then
      some (s.setThread t { thread with
        call := some ⟨k, current, .finding⟩
        runtime := thread.runtime.or current })
    else none
  | .find t => s.inCall t (s.find t)
  | .home t => s.inCall t (s.getHome t)
  | .choose t => s.inCall t (s.choose build t)
  | .clear t => s.inCall t (s.clear t)
  | .serve t => s.inCall t (s.serve t)

end Build

/-- A thread stays on the runtime of its first call inside one. -/
def stays (s : Clients Config Client) : ClientsAct Config → Bool
  | .call t _ current => s.threads[t]?.all fun thread =>
    current.isNone || thread.runtime.isNone || current == thread.runtime
  | _ => true

/-- A state of some run whose threads stay on their runtimes. -/
def Reached (build : Config → Overrides → Client) (s : Clients Config Client) : Prop :=
  Runs.Run (step build) (fun s a => s.stays a = true) {} s

/-- The steps of a call that only take it to another stage. -/
inductive Next (s : Clients Config Client) (thread : Thread) (call : WithCall) : Stage → Prop where
  | torn : call.stage = .finding → thread.torn = true → Next s thread call (.serving none)
  | found {slot : Slot} : call.stage = .finding → thread.torn = false →
      s.lookup thread call.selection = some slot → Next s thread call (.serving slot.own)
  | missed {current : Nat} : call.stage = .finding → thread.torn = false →
      s.lookup thread call.selection = none → call.current = some current →
      Next s thread call (.homing current)
  | outside : call.stage = .finding → call.current = none → Next s thread call (.serving none)
  | shared {current : Nat} : call.stage = .choosing current current →
      Next s thread call (.clearing 0 none)
  | passed {passed : Nat} {own : Option Nat} {slot : Slot} : call.stage = .clearing passed own →
      thread.slots[passed]? = some slot → 0 < s.strongCount slot.owner →
      Next s thread call (.clearing (passed + 1) own)

/-- The outcomes of a step. -/
inductive Moves (build : Config → Overrides → Client) (s : Clients Config Client) :
    ClientsAct Config → Clients Config Client → Prop where
  | thread : Moves build s .thread { s with threads := s.threads ++ [{}] }
  | created {a : ClientsAct Config} {config : Config} {overrides : Overrides}
      {home : Option Nat} {address : Nat} : s.free address = true → (∀ t, a ≠ .tear t) →
      Moves build s a { s with
        selections := s.selections ++ [{
          home, client := s.built.length, config, overrides, address }]
        built := s.built ++ [{
          client := build config overrides
          selection := s.selections.length
          thread := none }] }
  | dropped {k : Nat} {clients : RuntimeClients Config} : s.selections[k]? = some clients →
      (∀ thread ∈ s.threads, ∀ call, thread.call = some call → call.selection ≠ k) →
      Moves build s (.drop k)
        { s with selections := s.selections.set k { clients with dropped := true } }
  | tore {t : Nat} {thread : Thread} : s.threads[t]? = some thread → thread.call = none →
      Moves build s (.tear t) (s.setThread t { thread with slots := [], torn := true })
  | called {t k : Nat} {current : Option Nat} {thread : Thread} : s.threads[t]? = some thread →
      thread.call = none → 0 < s.strongCount k →
      Moves build s (.call t k current) (s.setThread t { thread with
        call := some ⟨k, current, .finding⟩
        runtime := thread.runtime.or current })
  | next {a : ClientsAct Config} {t : Nat} {thread : Thread} {call : WithCall} {stage : Stage} :
      s.threads[t]? = some thread → thread.call = some call → Next s thread call stage →
      (∀ t, a ≠ .tear t) → Moves build s a (s.goto t thread call stage)
  | homed {t current : Nat} {thread : Thread} {call : WithCall} {clients : RuntimeClients Config} :
      s.threads[t]? = some thread → thread.call = some call → call.stage = .homing current →
      s.selections[call.selection]? = some clients →
      Moves build s (.home t) ({ s with
        selections := s.selections.set call.selection
          { clients with home := some (clients.home.getD current) } }.goto t thread call
            (.choosing current (clients.home.getD current)))
  | built {t current home : Nat} {thread : Thread} {call : WithCall}
      {clients : RuntimeClients Config} : s.threads[t]? = some thread →
      thread.call = some call → call.stage = .choosing current home → home ≠ current →
      s.selections[call.selection]? = some clients →
      Moves build s (.choose t)
        ({ s with built := s.built ++ [clients.buildOn build call.selection t] }.goto t thread
          call (.clearing 0 (some s.built.length)))
  | removed {t passed : Nat} {own : Option Nat} {thread : Thread} {call : WithCall} {slot : Slot} :
      s.threads[t]? = some thread → thread.call = some call →
      call.stage = .clearing passed own → thread.slots[passed]? = some slot →
      s.strongCount slot.owner = 0 →
      Moves build s (.clear t) (s.goto t { thread with slots := thread.slots.eraseIdx passed } call
        (.clearing passed own))
  | pushed {t passed : Nat} {own : Option Nat} {thread : Thread} {call : WithCall} :
      s.threads[t]? = some thread → thread.call = some call →
      call.stage = .clearing passed own → thread.slots[passed]? = none →
      Moves build s (.clear t)
        (s.goto t { thread with slots := thread.slots ++ [⟨call.selection, own⟩] } call
          (.serving own))
  | served {t : Nat} {own : Option Nat} {thread : Thread} {call : WithCall} :
      s.threads[t]? = some thread → thread.call = some call → call.stage = .serving own →
      Moves build s (.serve t) (s.setThread t { thread with call := none })

variable {build : Config → Overrides → Client} {s s' : Clients Config Client}
variable {a : ClientsAct Config}

theorem in_call {t : Nat} {f : Thread → WithCall → Option (Clients Config Client)}
    (h : s.inCall t f = some s') : ∃ thread call, s.threads[t]? = some thread ∧
      thread.call = some call ∧ f thread call = some s' := by
  obtain ⟨thread, hthread, h⟩ := Option.bind_eq_some_iff.mp h
  obtain ⟨call, hcall, h⟩ := Option.bind_eq_some_iff.mp h
  exact ⟨thread, call, hthread, hcall, h⟩

theorem stays_call {t k : Nat} {current : Option Nat} {thread : Thread}
    (h : s.stays (.call t k current) = true) (ht : s.threads[t]? = some thread) :
    current = none ∨ thread.runtime = none ∨ current = thread.runtime := by
  simpa [stays, ht, or_assoc] using h

theorem created_of_withOverrides {config : Config} {overrides : Overrides} {home : Option Nat}
    {address : Nat} (h : s.withOverrides build config overrides home address = some s')
    (ha : ∀ t, a ≠ .tear t) : Moves build s a s' := by
  unfold withOverrides at h
  split at h
  · obtain rfl := Option.some.inj h
    exact .created ‹_› ha
  · cases h

theorem find_next {t : Nat} {thread : Thread} {call : WithCall}
    (h : s.find t thread call = some s') :
    ∃ stage, Next s thread call stage ∧ s' = s.goto t thread call stage := by
  unfold find at h
  split at h
  · rename_i hstage
    obtain rfl := Option.some.inj h
    refine ⟨_, ?_, rfl⟩
    cases htorn : thread.torn with
    | true => exact .torn hstage htorn
    | false =>
      cases hfound : s.lookup thread call.selection with
      | some slot => exact .found hstage htorn hfound
      | none =>
        cases hcurrent : call.current with
        | some current => exact .missed hstage htorn hfound hcurrent
        | none => exact .outside hstage hcurrent
  · cases h

theorem step_moves (h : s.step build a = some s') : Moves build s a s' := by
  cases a with
  | thread =>
    obtain rfl := Option.some.inj h
    exact .thread
  | homed config overrides runtime address => exact created_of_withOverrides h (by simp)
  | new config address => exact created_of_withOverrides h (by simp)
  | drop k =>
    simp only [step] at h
    split at h
    · cases h
    · rename_i hidle
      obtain ⟨clients, hclients, rfl⟩ := Option.map_eq_some_iff.mp h
      refine .dropped hclients ?_
      intro thread hthread call hcall heq
      apply hidle
      simp only [List.any_eq_true, Option.any_eq_true, beq_iff_eq]
      exact ⟨thread, hthread, call, hcall, heq⟩
  | tear t =>
    obtain ⟨thread, hthread, h⟩ := Option.bind_eq_some_iff.mp h
    split at h
    · cases h
    · rename_i hcall
      obtain rfl := Option.some.inj h
      exact .tore hthread (by simpa using hcall)
  | call t k current =>
    obtain ⟨thread, hthread, h⟩ := Option.bind_eq_some_iff.mp h
    split at h
    · rename_i hguard
      obtain rfl := Option.some.inj h
      exact .called hthread (Option.isNone_iff_eq_none.mp hguard.1) hguard.2
    · cases h
  | find t =>
    obtain ⟨thread, call, hthread, hcall, h⟩ := in_call h
    obtain ⟨stage, hnext, rfl⟩ := find_next h
    exact .next hthread hcall hnext (by simp)
  | home t =>
    obtain ⟨thread, call, hthread, hcall, h⟩ := in_call h
    unfold getHome at h
    split at h
    · rename_i hstage hclients
      obtain rfl := Option.some.inj h
      exact .homed hthread hcall hstage hclients
    · cases h
  | choose t =>
    obtain ⟨thread, call, hthread, hcall, h⟩ := in_call h
    unfold choose at h
    split at h
    · rename_i current home clients hstage hclients
      split at h
      · rename_i hsame
        obtain rfl := Option.some.inj h
        exact .next hthread hcall (.shared (hsame ▸ hstage)) (by simp)
      · rename_i hother
        obtain rfl := Option.some.inj h
        exact .built hthread hcall hstage hother hclients
    · cases h
  | clear t =>
    obtain ⟨thread, call, hthread, hcall, h⟩ := in_call h
    unfold clear at h
    split at h
    · rename_i passed own hstage
      split at h
      · rename_i slot hslot
        split at h
        · rename_i halive
          obtain rfl := Option.some.inj h
          exact .next hthread hcall (.passed hstage hslot halive) (by simp)
        · rename_i hdead
          obtain rfl := Option.some.inj h
          exact .removed hthread hcall hstage hslot (Nat.eq_zero_of_not_pos hdead)
      · rename_i hend
        obtain rfl := Option.some.inj h
        exact .pushed hthread hcall hstage hend
    · cases h
  | serve t =>
    obtain ⟨thread, call, hthread, hcall, h⟩ := in_call h
    unfold serve at h
    split at h
    · rename_i own hstage
      obtain rfl := Option.some.inj h
      exact .served hthread hcall hstage
    · cases h

end Clients

end RuststreamKinesis
