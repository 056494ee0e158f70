import RuststreamKinesis.Envelope
import RuststreamKinesis.Lib.Cells
import RuststreamKinesis.Lib.Runs
import Mathlib.Data.Finset.Basic
import Mathlib.Data.String.Basic

/-!
# A broker and its clones

`KinesisBroker` values that share a connection cell, the connected forms made of them and the
subscriptions these open (`broker.rs`, `claim.rs`). A `subscribe_stream` runs up to its first
request in one step; the answers of the service and a drop of the future or of the subscriber are
steps of their own.
-/

namespace RuststreamKinesis

set_option autoImplicit false

open Runs

/-- The streams a connected broker has an open subscription to. -/
structure ReadStreams where
  streams : Finset String := ∅
deriving DecidableEq

/-- What the service, or the in-process transport in its place, refuses a stream for. -/
inductive StreamFault where
  | nameLength (bytes : Nat)
  | nameCharacter (refused : Char)
  | service
deriving DecidableEq, Repr

/-- What the service, or the in-process transport in its place, refuses a record for. -/
inductive RecordFault where
  | stream (fault : StreamFault)
  | keyLength (characters : Nat)
  | size (bytes : Nat)
  | service
deriving DecidableEq, Repr

inductive KinesisError where
  | notConnected
  | alreadySubscribed (stream : String)
  | invalid (reason : String)
  | stream (stream : String) (source : StreamFault)
  | envelope (stream : String) (source : EnvelopeError)
  | publish (stream : String) (source : RecordFault)
  | aggregatedRecord (shard : String)
deriving DecidableEq, Repr

namespace ReadStreams

/-- Records that a subscription to `stream` opens, or refuses it when one is already open. -/
def claim (read : ReadStreams) (stream : String) : Except KinesisError ReadStreams :=
  if stream ∈ read.streams then .error (.alreadySubscribed stream)
  else .ok ⟨insert stream read.streams⟩

/-- The claim is dropped. -/
def giveBack (read : ReadStreams) (stream : String) : ReadStreams := ⟨read.streams.erase stream⟩

end ReadStreams

structure KinesisStream where
  stream : String
  createShards : Option Int := none
deriving DecidableEq, Repr

/-- Rejects descriptors that cannot form a subscription. -/
def KinesisStream.validate (d : KinesisStream) : Option KinesisError :=
  if d.stream = "" then some (.invalid "stream must be non-empty")
  else if d.createShards.any (· < 1) then
    some (.invalid "create_if_missing needs at least one shard")
  else none

def maxStreamName : Nat := 128

def checkStream (stream : String) : Option StreamFault :=
  if stream = "" ∨ stream.utf8ByteSize > maxStreamName then
    some (.nameLength stream.utf8ByteSize)
  else (stream.toList.find? fun c =>
    !(c.isAlphanum || c == '_' || c == '.' || c == '-')).map .nameCharacter

/-- The client state of a connected broker. -/
structure Core (Owner Store : Type) where
  store : Store
  owner : Owner
  closed : Bool := false
deriving DecidableEq, Repr

inductive Link (Owner Store : Type) where
  | aws (core : Core Owner Store)
  | inProcess (closed : Bool)
deriving DecidableEq, Repr

structure KinesisBroker (Owner Store : Type) where
  store : Option Store := none
  owner : Option Owner := none
deriving DecidableEq, Repr

/-- A connected form. `gone` says that a `shutdown` consumed it. -/
structure ConnectedKinesisBroker where
  streams : ReadStreams := {}
  gone : Bool := false
deriving DecidableEq

/-- The request a `subscribe_stream` awaits, or what it has come to. -/
inductive OpeningPhase where
  | describing
  | creating
  | waiting
  | positioning
  | opened
  | ended (error : Option KinesisError)
deriving DecidableEq, Repr

/-- A `subscribe_stream` past its claim, and then the subscription it opened. -/
structure Opening where
  form : Nat
  descriptor : KinesisStream
  phase : OpeningPhase
deriving DecidableEq, Repr

/-- A broker and its clones: the cell they share, the forms they were connected to and the
subscriptions opened on these. -/
structure Family (Owner Store : Type) where
  cell : Option (Link Owner Store) := none
  forms : List ConnectedKinesisBroker := []
  openings : List Opening := []
deriving DecidableEq

inductive FamilyAct (Owner Store : Type) where
  | connect (broker : KinesisBroker Owner Store) (drawn : Owner) (made : Store)
  | connectInProcess
  | subscribe (form : Nat) (descriptor : KinesisStream)
  | reply (id : Nat) (ok : Bool)
  | drop (id : Nat)
  | shutdown (form : Nat)
deriving DecidableEq, Repr

/-- What `connect` puts into a cell that is empty: the owner id is drawn and the store made where
the broker names none. -/
def KinesisBroker.core {Owner Store : Type} (broker : KinesisBroker Owner Store) (drawn : Owner)
    (made : Store) : Core Owner Store where
  store := broker.store.getD made
  owner := broker.owner.getD drawn

namespace Link

variable {Owner Store : Type}

def closed : Link Owner Store → Bool
  | .aws core => core.closed
  | .inProcess closed => closed

def close : Link Owner Store → Link Owner Store
  | .aws core => .aws { core with closed := true }
  | .inProcess _ => .inProcess true

/-- What a claimed `subscribe_stream` does before its first request. -/
def start (link : Link Owner Store) (stream : String) : Except KinesisError OpeningPhase :=
  if link.closed then .error .notConnected
  else
    match link with
    | .aws _ => .ok .describing
    | .inProcess _ =>
      match checkStream stream with
      | some fault => .error (.stream stream fault)
      | none => .ok .opened

end Link

namespace Opening

def stream (c : Opening) : String := c.descriptor.stream

/-- Its claim is held: the call is under way or its subscription open. -/
def live (c : Opening) : Bool :=
  match c.phase with
  | .ended _ => false
  | _ => true

def failed (c : Opening) : OpeningPhase := .ended (some (.stream c.stream .service))

/-- The answer to the request it awaits: `ensure_stream` or `require_stream`, then the
coordinator's first pass. A lost creation race is an answer like any other. -/
def reply (c : Opening) (ok : Bool) : Option OpeningPhase :=
  match c.phase with
  | .describing =>
    match c.descriptor.createShards with
    | some _ => some (if ok then .waiting else .creating)
    | none => some (if ok then .positioning else c.failed)
  | .creating => some (if ok then .waiting else c.failed)
  | .waiting => some (if ok then .positioning else c.failed)
  | .positioning => some .opened
  | .opened | .ended _ => none

end Opening

namespace Family

variable {Owner Store : Type}

/-- `StreamClaim::drop` on the set of the form. -/
def giveBack (s : Family Owner Store) (form : Nat) (stream : String) : Family Owner Store :=
  { s with forms := s.forms.modify form fun f => { f with streams := f.streams.giveBack stream } }

/-- A form of its own set of streams over the shared cell. -/
def connected (s : Family Owner Store) (link : Link Owner Store) : Family Owner Store :=
  { s with cell := some (s.cell.getD link), forms := s.forms ++ [{}] }

/-- `subscribe_stream` up to its first request, with the error it returns. -/
def subscribeStream (s : Family Owner Store) (form : Nat) (d : KinesisStream) :
    Option (Option KinesisError × Family Owner Store) :=
  match s.cell, s.forms[form]? with
  | some link, some f =>
    if f.gone then none
    else
      match d.validate with
      | some error => some (some error, s)
      | none =>
        match f.streams.claim d.stream with
        | .error error => some (some error, s)
        | .ok streams =>
          let claimed := { s with forms := s.forms.set form { f with streams := streams } }
          match link.start d.stream with
          | .error error => some (some error, claimed.giveBack form d.stream)
          | .ok phase =>
            some (none, { claimed with openings := s.openings ++ [⟨form, d, phase⟩] })
  | _, _ => none

/-- An opening goes on; where it ends its claim is dropped. -/
def goOn (s : Family Owner Store) (id : Nat) (c : Opening) (phase : OpeningPhase) :
    Family Owner Store :=
  let s := { s with openings := s.openings.set id { c with phase := phase } }
  match phase with
  | .ended _ => s.giveBack c.form c.stream
  | _ => s

def step (s : Family Owner Store) : FamilyAct Owner Store → Option (Family Owner Store)
  | .connect broker drawn made => some (s.connected (.aws (broker.core drawn made)))
  | .connectInProcess => some (s.connected (.inProcess false))
  | .subscribe form d => (s.subscribeStream form d).map Prod.snd
  | .reply id ok => do
    let c ← s.openings[id]?
    let phase ← c.reply ok
    some (s.goOn id c phase)
  | .drop id => do
    let c ← s.openings[id]?
    if c.live then some (s.goOn id c (.ended none)) else none
  | .shutdown form => do
    let f ← s.forms[form]?
    if f.gone then none
    else some { s with
      cell := s.cell.map Link.close
      forms := s.forms.set form { f with gone := true } }

variable {s s' : Family Owner Store} {act : FamilyAct Owner Store} {form id : Nat}
variable {d : KinesisStream} {c : Opening} {phase : OpeningPhase}

/-- The sets of the forms say what their openings hold, each stream once. -/
structure Claimed (s : Family Owner Store) : Prop where
  formed : ∀ c ∈ s.openings, c.form < s.forms.length
  held : ∀ (i : Nat) (f : ConnectedKinesisBroker), s.forms[i]? = some f → ∀ stream,
    stream ∈ f.streams.streams ↔ ∃ c ∈ s.openings, c.live = true ∧ c.form = i ∧ c.stream = stream
  once : ∀ {i j : Nat} {c c' : Opening}, s.openings[i]? = some c → s.openings[j]? = some c' →
    c.live = true → c'.live = true → c.form = c'.form → c.stream = c'.stream → i = j

theorem Claimed.init : Claimed ({} : Family Owner Store) where
  formed _ h := by cases h
  held _ _ h := by cases h
  once h := by cases h

theorem Claimed.connected (hs : s.Claimed) (link : Link Owner Store) :
    (s.connected link).Claimed where
  formed c hc := by
    have := hs.formed c hc
    simp only [Family.connected, List.length_append, List.length_singleton]
    omega
  held i f hf stream := by
    rcases Cells.get_push hf with hf | ⟨hi, rfl⟩
    · exact hs.held i f hf stream
    · refine iff_of_false (Finset.notMem_empty stream) ?_
      rintro ⟨c, hc, _, hform, _⟩
      have := hs.formed c hc
      omega
  once := hs.once

theorem Claimed.shutdown {f : ConnectedKinesisBroker} (hs : s.Claimed)
    (hf : s.forms[form]? = some f) : Claimed { s with
      cell := s.cell.map Link.close
      forms := s.forms.set form { f with gone := true } } where
  formed c hc := by
    have := hs.formed c hc
    simpa using this
  held i g hg stream := by
    rcases Cells.get_set hg with ⟨rfl, rfl⟩ | ⟨_, hg⟩
    · exact hs.held i f hf stream
    · exact hs.held i g hg stream
  once := hs.once

theorem Claimed.push {f : ConnectedKinesisBroker} (hs : s.Claimed)
    (hf : s.forms[form]? = some f) (hfree : d.stream ∉ f.streams.streams)
    (hlive : Opening.live ⟨form, d, phase⟩ = true) : Claimed { s with
      forms := s.forms.set form { f with streams := ⟨insert d.stream f.streams.streams⟩ }
      openings := s.openings ++ [⟨form, d, phase⟩] } where
  formed c hc := by
    rw [List.length_set]
    rcases Cells.mem_push hc with hc | rfl
    · exact hs.formed c hc
    · exact Cells.get_lt hf
  held i g hg stream := by
    have hnew : (∃ c ∈ s.openings ++ [⟨form, d, phase⟩], c.live = true ∧ c.form = i ∧
        c.stream = stream) ↔
        (∃ c ∈ s.openings, c.live = true ∧ c.form = i ∧ c.stream = stream) ∨
          (form = i ∧ d.stream = stream) := by
      simp only [List.mem_append, List.mem_singleton, or_and_right, exists_or, exists_eq_left,
        hlive, true_and]
      rfl
    rw [hnew]
    rcases Cells.get_set hg with ⟨rfl, rfl⟩ | ⟨hne, hg⟩
    · rw [← hs.held i f hf stream, Finset.mem_insert, or_comm]
      simp [eq_comm]
    · rw [← hs.held i g hg stream]
      simp [Ne.symm hne]
  once {i j c c'} hc hc' hcl hcl' hform hstream := by
    have fresh : ∀ {k : Nat} {b : Opening}, s.openings[k]? = some b → b.live = true →
        b.form = form → b.stream ≠ d.stream := by
      intro k b hb hbl hbf hbs
      refine hfree ((hs.held form f hf d.stream).mpr ⟨b, List.mem_of_getElem? hb, hbl, hbf, hbs⟩)
    rcases Cells.get_push hc with hc | ⟨hi, rfl⟩ <;> rcases Cells.get_push hc' with hc' | ⟨hj, rfl⟩
    · exact hs.once hc hc' hcl hcl' hform hstream
    · exact absurd hstream (fresh hc hcl hform)
    · exact absurd hstream.symm (fresh hc' hcl' hform.symm)
    · omega

theorem goOn_live (h : Opening.live { c with phase := phase } = true) :
    s.goOn id c phase = { s with openings := s.openings.set id { c with phase := phase } } := by
  cases phase with
  | ended => cases h
  | _ => rfl

theorem Claimed.move (hs : s.Claimed) (hc : s.openings[id]? = some c) (hl : c.live = true)
    (hlive : Opening.live { c with phase := phase } = true) : (s.goOn id c phase).Claimed := by
  rw [goOn_live hlive]
  refine ⟨?_, ?_, ?_⟩
  · intro b hb
    rcases Cells.mem_set hb with rfl | hb
    · exact hs.formed c (List.mem_of_getElem? hc)
    · exact hs.formed b hb
  · intro i f hf stream
    rw [hs.held i f hf stream]
    constructor
    · rintro ⟨b, hb, hbl, hbf, hbs⟩
      obtain ⟨j, hj⟩ := List.mem_iff_getElem?.mp hb
      by_cases he : j = id
      · subst he
        obtain rfl := Option.some.inj (hc.symm.trans hj)
        exact ⟨_, List.mem_of_getElem? (Cells.get_set_self hc), hlive, hbf, hbs⟩
      · exact ⟨b, List.mem_of_getElem? ((Cells.get_set_ne he).trans hj), hbl, hbf, hbs⟩
    · rintro ⟨b, hb, hbl, hbf, hbs⟩
      rcases Cells.mem_set hb with rfl | hb
      · exact ⟨c, List.mem_of_getElem? hc, hl, hbf, hbs⟩
      · exact ⟨b, hb, hbl, hbf, hbs⟩
  · intro i j b b' hb hb' hbl hbl' hform hstream
    rcases Cells.get_set hb with ⟨hi, rfl⟩ | ⟨_, hb₀⟩ <;>
      rcases Cells.get_set hb' with ⟨hj, rfl⟩ | ⟨_, hb₀'⟩
    · exact hi.trans hj.symm
    · rw [hi]
      exact hs.once hc hb₀' hl hbl' hform hstream
    · rw [hj]
      exact hs.once hb₀ hc hbl hl hform hstream
    · exact hs.once hb₀ hb₀' hbl hbl' hform hstream

theorem Claimed.finish (hs : s.Claimed) (hc : s.openings[id]? = some c) (hl : c.live = true)
    (error : Option KinesisError) : (s.goOn id c (.ended error)).Claimed := by
  refine ⟨?_, ?_, ?_⟩
  · intro b hb
    simp only [goOn, giveBack, List.length_modify] at hb ⊢
    rcases Cells.mem_set hb with rfl | hb
    · exact hs.formed c (List.mem_of_getElem? hc)
    · exact hs.formed b hb
  · intro i f hf stream
    have hopen : (∃ b ∈ s.openings.set id { c with phase := .ended error },
        b.live = true ∧ b.form = i ∧ b.stream = stream) ↔
        (∃ b ∈ s.openings, b.live = true ∧ b.form = i ∧ b.stream = stream) ∧
          ¬ (c.form = i ∧ c.stream = stream) := by
      constructor
      · rintro ⟨b, hb, hbl, hbf, hbs⟩
        obtain ⟨j, hj⟩ := List.mem_iff_getElem?.mp hb
        rcases Cells.get_set hj with ⟨_, rfl⟩ | ⟨hne, hj⟩
        · cases hbl
        · refine ⟨⟨b, List.mem_of_getElem? hj, hbl, hbf, hbs⟩, ?_⟩
          rintro ⟨hcf, hcs⟩
          exact hne (hs.once hj hc hbl hl (hbf.trans hcf.symm) (hbs.trans hcs.symm))
      · rintro ⟨⟨b, hb, hbl, hbf, hbs⟩, hnot⟩
        obtain ⟨j, hj⟩ := List.mem_iff_getElem?.mp hb
        refine ⟨b, List.mem_of_getElem? ((Cells.get_set_ne ?_).trans hj), hbl, hbf, hbs⟩
        rintro rfl
        obtain rfl := Option.some.inj (hc.symm.trans hj)
        exact hnot ⟨hbf, hbs⟩
    simp only [goOn, giveBack, List.getElem?_modify] at hf ⊢
    obtain ⟨g, hg, rfl⟩ := Option.map_eq_some_iff.mp hf
    rw [hopen, ← hs.held i g hg stream]
    by_cases hi : c.form = i
    · simp [hi, ReadStreams.giveBack, and_comm, eq_comm]
    · simp [hi]
  · intro i j b b' hb hb' hbl hbl' hform hstream
    rcases Cells.get_set hb with ⟨_, rfl⟩ | ⟨_, hb₀⟩
    · cases hbl
    · rcases Cells.get_set hb' with ⟨_, rfl⟩ | ⟨_, hb₀'⟩
      · cases hbl'
      · exact hs.once hb₀ hb₀' hbl hbl' hform hstream

theorem giveBack_claimed {f : ConnectedKinesisBroker} (hf : s.forms[form]? = some f)
    (hfree : d.stream ∉ f.streams.streams) :
    giveBack { s with
      forms := s.forms.set form { f with streams := ⟨insert d.stream f.streams.streams⟩ } }
      form d.stream = s := by
  have hforms : (s.forms.set form { f with streams := ⟨insert d.stream f.streams.streams⟩ }).modify
      form (fun f => { f with streams := f.streams.giveBack d.stream }) = s.forms := by
    apply List.ext_getElem?
    intro i
    rw [List.getElem?_modify]
    by_cases hi : i = form
    · subst hi
      rw [Cells.get_set_self hf, hf]
      simp [ReadStreams.giveBack, Finset.erase_insert hfree]
    · rw [Cells.get_set_ne hi]
      simp [Ne.symm hi]
  simp only [giveBack, hforms]

/-- The outcomes of a `subscribe_stream` up to its first request. -/
inductive Subscribed (s : Family Owner Store) (form : Nat) (d : KinesisStream) :
    Option KinesisError → Family Owner Store → Prop where
  | invalid {reason : String} (hd : d.validate = some (.invalid reason)) :
      Subscribed s form d (some (.invalid reason)) s
  | refused {f : ConnectedKinesisBroker} (hd : d.validate = none)
      (hf : s.forms[form]? = some f) (hread : d.stream ∈ f.streams.streams) :
      Subscribed s form d (some (.alreadySubscribed d.stream)) s
  | failed {f : ConnectedKinesisBroker} {error : KinesisError} (hd : d.validate = none)
      (hf : s.forms[form]? = some f) (hfree : d.stream ∉ f.streams.streams)
      (herror : ∀ stream, error ≠ .alreadySubscribed stream) :
      Subscribed s form d (some error) s
  | started {f : ConnectedKinesisBroker} {phase : OpeningPhase} (hd : d.validate = none)
      (hf : s.forms[form]? = some f) (hfree : d.stream ∉ f.streams.streams)
      (hlive : Opening.live ⟨form, d, phase⟩ = true) : Subscribed s form d none { s with
        forms := s.forms.set form { f with streams := ⟨insert d.stream f.streams.streams⟩ }
        openings := s.openings ++ [⟨form, d, phase⟩] }

theorem validate_invalid {error : KinesisError} (h : d.validate = some error) :
    ∃ reason, error = .invalid reason := by
  unfold KinesisStream.validate at h
  split at h
  · exact ⟨_, (Option.some.inj h).symm⟩
  · split at h
    · exact ⟨_, (Option.some.inj h).symm⟩
    · cases h

theorem start_error {link : Link Owner Store} {stream : String} {error : KinesisError}
    (h : link.start stream = .error error) (other : String) : error ≠ .alreadySubscribed other := by
  unfold Link.start at h
  split at h
  · cases h
    exact nofun
  · split at h
    · cases h
    · split at h
      · cases h
        exact nofun
      · cases h

theorem start_ok {link : Link Owner Store} {stream : String}
    (h : link.start stream = .ok phase) : phase = .describing ∨ phase = .opened := by
  unfold Link.start at h
  split at h
  · cases h
  · split at h
    · cases h
      exact .inl rfl
    · split at h
      · cases h
      · cases h
        exact .inr rfl

theorem subscribe_cases {error : Option KinesisError}
    (h : s.subscribeStream form d = some (error, s')) : Subscribed s form d error s' := by
  unfold subscribeStream at h
  split at h
  · rename_i link f _ hf
    split at h
    · cases h
    · cases hd : d.validate with
      | some e =>
        obtain ⟨reason, rfl⟩ := validate_invalid hd
        simp only [hd] at h
        cases h
        exact .invalid hd
      | none =>
        by_cases hread : d.stream ∈ f.streams.streams
        · simp only [hd, ReadStreams.claim, if_pos hread] at h
          cases h
          exact .refused hd hf hread
        · simp only [hd, ReadStreams.claim, if_neg hread] at h
          split at h
          · rename_i hstart
            rw [giveBack_claimed hf hread] at h
            cases h
            exact .failed hd hf hread (start_error hstart)
          · rename_i hstart
            cases h
            refine .started hd hf hread ?_
            rcases start_ok hstart with rfl | rfl <;> rfl
  · cases h

theorem reply_live {ok : Bool} (h : c.reply ok = some phase) : c.live = true := by
  unfold Opening.reply at h
  unfold Opening.live
  split at h
  all_goals simp_all

theorem Claimed.goOn (hs : s.Claimed) (hc : s.openings[id]? = some c) (hl : c.live = true)
    (phase : OpeningPhase) : (s.goOn id c phase).Claimed := by
  cases phase with
  | ended error => exact hs.finish hc hl error
  | _ => exact hs.move hc hl rfl

theorem Claimed.step (hs : s.Claimed) (h : s.step act = some s') : s'.Claimed := by
  cases act with
  | connect | connectInProcess =>
    obtain rfl := Option.some.inj h
    exact hs.connected _
  | subscribe form d =>
    obtain ⟨⟨error, s''⟩, hsub, rfl⟩ := Option.map_eq_some_iff.mp h
    cases subscribe_cases hsub with
    | started _ hf hfree hlive => exact hs.push hf hfree hlive
    | _ => exact hs
  | reply id ok =>
    obtain ⟨c, hc, h⟩ := Option.bind_eq_some_iff.mp h
    obtain ⟨phase, hphase, h⟩ := Option.bind_eq_some_iff.mp h
    obtain rfl := Option.some.inj h
    exact hs.goOn hc (reply_live hphase) phase
  | drop id =>
    obtain ⟨c, hc, h⟩ := Option.bind_eq_some_iff.mp h
    split at h
    · rename_i hl
      obtain rfl := Option.some.inj h
      exact hs.finish hc hl none
    · cases h
  | shutdown form =>
    obtain ⟨f, hf, h⟩ := Option.bind_eq_some_iff.mp h
    split at h
    · cases h
    · obtain rfl := Option.some.inj h
      exact hs.shutdown hf

/-- A subscription to the stream is open or being opened. -/
def Reads (s : Family Owner Store) (stream : String) : Prop :=
  ∃ c ∈ s.openings, c.live = true ∧ c.stream = stream

/-- At most one subscription to a stream is open. -/
def Single (s : Family Owner Store) : Prop :=
  ∀ (i j : Nat) (c c' : Opening), s.openings[i]? = some c → s.openings[j]? = some c' →
    c.phase = .opened → c'.phase = .opened → c.stream = c'.stream → i = j

/-- No other form reads the stream a `subscribe_stream` asks for, and where its own form does its
descriptor is valid. -/
def lone (s : Family Owner Store) : FamilyAct Owner Store → Bool
  | .subscribe form d => s.openings.all fun c =>
      !c.live || c.stream != d.stream || (c.form == form && d.validate.isNone)
  | _ => true

theorem lone_iff : s.lone (.subscribe form d) = true ↔ ∀ c ∈ s.openings, c.live = true →
    c.stream = d.stream → c.form = form ∧ d.validate = none := by
  simp only [lone, List.all_eq_true, Bool.or_eq_true, Bool.not_eq_true', bne_iff_ne, ne_eq,
    Bool.and_eq_true, beq_iff_eq, Option.isNone_iff_eq_none]
  constructor
  · intro h c hc hl hstream
    rcases h c hc with (hl' | hne) | hgood
    · cases hl.symm.trans hl'
    · exact absurd hstream hne
    · exact hgood
  · intro h c hc
    cases hl : c.live with
    | false => exact .inl (.inl rfl)
    | true =>
      by_cases hstream : c.stream = d.stream
      · exact .inr (h c hc hl hstream)
      · exact .inl (.inr hstream)

/-- The sets cover the openings of all forms together. -/
structure Alone (s : Family Owner Store) : Prop where
  claimed : s.Claimed
  apart : ∀ {i j : Nat} {c c' : Opening}, s.openings[i]? = some c → s.openings[j]? = some c' →
    c.live = true → c'.live = true → c.stream = c'.stream → i = j

theorem Alone.single (hs : s.Alone) : s.Single := by
  intro i j c c' hc hc' ho ho'
  have live : ∀ {c : Opening}, c.phase = .opened → c.live = true := by
    intro c ho
    simp [Opening.live, ho]
  exact hs.apart hc hc' (live ho) (live ho')

theorem not_reads {f : ConnectedKinesisBroker} (hs : s.Claimed)
    (hf : s.forms[form]? = some f) (hfree : d.stream ∉ f.streams.streams)
    (hlone : s.lone (.subscribe form d) = true) : ¬ s.Reads d.stream := by
  rintro ⟨c, hc, hl, hstream⟩
  have hform := (lone_iff.mp hlone c hc hl hstream).1
  exact hfree ((hs.held form f hf d.stream).mpr ⟨c, hc, hl, hform, hstream⟩)

/-- A call is refused exactly when the stream is read, if and only if it is lone. -/
theorem Alone.refused_iff {error : Option KinesisError} (hs : s.Alone)
    (h : s.subscribeStream form d = some (error, s')) :
    (error = some (.alreadySubscribed d.stream) ↔ s.Reads d.stream) ↔
      s.lone (.subscribe form d) = true := by
  have unread : ¬ s.Reads d.stream → s.lone (.subscribe form d) = true := by
    intro hnone
    rw [lone_iff]
    intro c hc hl hstream
    exact absurd ⟨c, hc, hl, hstream⟩ hnone
  cases subscribe_cases h with
  | @invalid reason hd =>
    constructor
    · intro hiff
      refine unread fun hreads => ?_
      cases hiff.mpr hreads
    · intro hlone
      refine iff_of_false nofun ?_
      rintro ⟨c, hc, hl, hstream⟩
      have hnone := (lone_iff.mp hlone c hc hl hstream).2
      cases hd.symm.trans hnone
  | @refused f hd hf hread =>
    obtain ⟨c, hc, hl, hform, hstream⟩ := (hs.claimed.held form f hf d.stream).mp hread
    refine iff_of_true (iff_of_true rfl ⟨c, hc, hl, hstream⟩) ?_
    rw [lone_iff]
    intro b hb hbl hbs
    obtain ⟨i, hi⟩ := List.mem_iff_getElem?.mp hc
    obtain ⟨j, hj⟩ := List.mem_iff_getElem?.mp hb
    obtain rfl := hs.apart hi hj hl hbl (hstream.trans hbs.symm)
    obtain rfl := Option.some.inj (hi.symm.trans hj)
    exact ⟨hform, hd⟩
  | @failed f e hd hf hfree herror =>
    constructor
    · intro hiff
      refine unread fun hreads => ?_
      exact herror _ (Option.some.inj (hiff.mpr hreads))
    · intro hlone
      refine iff_of_false ?_ (not_reads hs.claimed hf hfree hlone)
      exact fun he => herror _ (Option.some.inj he)
  | @started f phase hd hf hfree =>
    constructor
    · intro hiff
      refine unread fun hreads => ?_
      cases hiff.mpr hreads
    · intro hlone
      exact iff_of_false nofun (not_reads hs.claimed hf hfree hlone)

theorem goOn_openings :
    (s.goOn id c phase).openings = s.openings.set id { c with phase := phase } := by
  cases phase <;> rfl

theorem Alone.goOn (hs : s.Alone) (hc : s.openings[id]? = some c) (hl : c.live = true)
    (phase : OpeningPhase) : (s.goOn id c phase).Alone := by
  refine ⟨hs.claimed.goOn hc hl phase, ?_⟩
  intro i j b b' hb hb' hbl hbl' hstream
  rw [goOn_openings] at hb hb'
  rcases Cells.get_set hb with ⟨hi, rfl⟩ | ⟨_, hb₀⟩ <;>
    rcases Cells.get_set hb' with ⟨hj, rfl⟩ | ⟨_, hb₀'⟩
  · exact hi.trans hj.symm
  · rw [hi]
    exact hs.apart hc hb₀' hl hbl' hstream
  · rw [hj]
    exact hs.apart hb₀ hc hbl hl hstream
  · exact hs.apart hb₀ hb₀' hbl hbl' hstream

theorem Alone.step (hs : s.Alone) (hlone : s.lone act = true) (h : s.step act = some s') :
    s'.Alone := by
  have hclaimed := hs.claimed.step h
  cases act with
  | connect | connectInProcess =>
    obtain rfl := Option.some.inj h
    exact ⟨hclaimed, hs.apart⟩
  | subscribe form d =>
    obtain ⟨⟨error, s''⟩, hsub, rfl⟩ := Option.map_eq_some_iff.mp h
    cases subscribe_cases hsub with
    | started hd hf hfree hlive =>
      have hnone := not_reads hs.claimed hf hfree hlone
      refine ⟨hclaimed, ?_⟩
      intro i j c c' hc hc' hl hl' hstream
      rcases Cells.get_push hc with hc₀ | ⟨hi, rfl⟩ <;>
        rcases Cells.get_push hc' with hc₀' | ⟨hj, rfl⟩
      · exact hs.apart hc₀ hc₀' hl hl' hstream
      · exact absurd ⟨c, List.mem_of_getElem? hc₀, hl, hstream⟩ hnone
      · exact absurd ⟨c', List.mem_of_getElem? hc₀', hl', hstream.symm⟩ hnone
      · exact hi.trans hj.symm
    | _ => exact hs
  | reply id ok =>
    obtain ⟨c, hc, h⟩ := Option.bind_eq_some_iff.mp h
    obtain ⟨phase, hphase, h⟩ := Option.bind_eq_some_iff.mp h
    obtain rfl := Option.some.inj h
    exact hs.goOn hc (reply_live hphase) phase
  | drop id =>
    obtain ⟨c, hc, h⟩ := Option.bind_eq_some_iff.mp h
    split at h
    · rename_i hl
      obtain rfl := Option.some.inj h
      exact hs.goOn hc hl _
    · cases h
  | shutdown form =>
    obtain ⟨f, hf, h⟩ := Option.bind_eq_some_iff.mp h
    split at h
    · cases h
    · obtain rfl := Option.some.inj h
      exact ⟨hclaimed, hs.apart⟩

/-- In a run of a broker and its clones a stream is read once, and a `subscribe_stream` is refused
exactly while it is read, if and only if every call is lone. -/
theorem reads_once_iff {acts : List (FamilyAct Owner Store)} {t : Family Owner Store}
    (h : exec step {} acts = some t) :
    ((∀ n s, exec step {} (acts.take n) = some s → s.Single) ∧
      ∀ n s form d error s', exec step {} (acts.take n) = some s →
        acts[n]? = some (.subscribe form d) → s.subscribeStream form d = some (error, s') →
        (error = some (.alreadySubscribed d.stream) ↔ s.Reads d.stream)) ↔
      check step lone {} acts = some t := by
  let Refuses (s : Family Owner Store) (act : FamilyAct Owner Store) : Prop :=
    ∀ form d error s', act = .subscribe form d → s.subscribeStream form d = some (error, s') →
      (error = some (.alreadySubscribed d.stream) ↔ s.Reads d.stream)
  have hinit : Alone ({} : Family Owner Store) := ⟨.init, nofun⟩
  have keep : ∀ (s : Family Owner Store) act t, s.Alone → s.lone act = true →
      s.step act = some t → t.Alone := fun _ _ _ hs hlone hstep => hs.step hlone hstep
  have same : ∀ (s : Family Owner Store) act t, s.Alone → s.step act = some t →
      (Refuses s act ↔ s.lone act = true) := by
    intro s act t hs hstep
    cases act with
    | subscribe form d =>
      obtain ⟨⟨error, s'⟩, hsub, _⟩ := Option.map_eq_some_iff.mp hstep
      rw [← hs.refused_iff hsub]
      constructor
      · exact fun hrefuses => hrefuses form d error s' rfl hsub
      · rintro hiff _ _ error₂ s₂ ⟨⟩ hsub₂
        obtain ⟨rfl, rfl⟩ := Prod.mk.inj (Option.some.inj (hsub.symm.trans hsub₂))
        exact hiff
    | _ =>
      refine iff_of_true ?_ rfl
      intro form d error s' hact
      cases hact
  rw [← check_iff (P := Refuses) keep same hinit h]
  constructor
  · rintro ⟨-, hanswers⟩ n s act hs hact form d error s' rfl hsub
    exact hanswers n s form d error s' hs hact hsub
  · intro hall
    refine ⟨?_, fun n s form d error s' hs hact hsub => hall n s _ hs hact form d error s' rfl hsub⟩
    intro n s hs
    have hcheck := (check_iff (P := Refuses) keep same hinit h).mp hall
    exact (check_upto keep hcheck hinit hs).single

/-- A broker and its clone are both connected, and each subscribes to the stream. -/
def twice : List (FamilyAct Nat Nat) := [
  .connect {} 1 0, .connect {} 2 0, .subscribe 0 ⟨"orders", none⟩, .subscribe 1 ⟨"orders", none⟩,
  .reply 0 true, .reply 1 true, .reply 0 true, .reply 1 true]

theorem reads_twice : ∃ s : Family Nat Nat, exec step {} twice = some s ∧ ¬ s.Single := by
  refine ⟨_, rfl, ?_⟩
  intro hsingle
  cases hsingle 0 1 _ _ rfl rfl rfl rfl rfl

/-- One form opens the stream, refuses it, and opens it again once it is dropped. -/
def again : List (FamilyAct Nat Nat) := [
  .connect {} 1 0, .subscribe 0 ⟨"orders", none⟩, .subscribe 0 ⟨"orders", none⟩, .reply 0 true,
  .reply 0 true, .drop 0, .subscribe 0 ⟨"orders", none⟩]

theorem reads_once_again :
    ¬∃ n s, exec step {} (again.take n) = some s ∧ ¬s.Single := by
  have hcheck : check step lone {} again = exec step {} again := by decide
  rintro ⟨n, s, hs, hmore⟩
  exact hmore (((reads_once_iff rfl).mpr hcheck).1 n s hs)

end Family

end RuststreamKinesis
