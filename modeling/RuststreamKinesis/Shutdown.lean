import RuststreamKinesis.Connection
import RuststreamKinesis.Passes

/-!
# What shutdown stops

Neither a coordinator nor a reader looks at the closed flag: they watch their channel, which is
open for as long as the consumer holds the subscription. So each kind of work goes on after a
shutdown wherever there is a subscription: a coordinator gets to the end of its pass, takes the
lease of the next shard that opens, and that shard's reader reads and hands out records.
-/

namespace RuststreamKinesis

set_option autoImplicit false

open Runs

namespace Subscription

variable {Owner : Type} [DecidableEq Owner]
variable {u u' : Subscription} {owner : Owner} {shard : Shard} {lease lease' : MemoryLease Owner}
variable {a : SubAct}

/-- No reader has been spawned for the shard, and the consumer holds the subscription. -/
structure Unread (u : Subscription) : Prop where
  closed : u.closed = false
  handle : u.handle = none
  reader : u.reader = none
  rewind : u.rewind = none
  gates : u.gates = []
  trackers : u.trackers = []
  deliveries : u.deliveries = []
  queue : ∀ stamped ∈ u.queue, ∀ id, stamped.item ≠ .delivery id

theorem Unread.step (h : u.Unread) (hs : Step u owner shard lease a lease' u') (hleave : a ≠ .leave)
    (hacquire : ∀ lineage now, a ≠ .acquire lineage now) : u'.Unread ∧ lease' = lease := by
  have hdeliveries : ∀ id : Nat, u.deliveries[id]? = none := by
    intro id
    rw [h.deliveries]
    rfl
  cases hs with
  | nothingFinished => exact ⟨h, rfl⟩
  | forgot hr | reader hr | sent _ _ hr => cases h.reader.symm.trans hr
  | acquired | notAcquired => exact absurd rfl (hacquire _ _)
  | leave => exact absurd rfl hleave
  | reported =>
    refine ⟨⟨h.closed, h.handle, h.reader, h.rewind, h.gates, h.trackers, h.deliveries, ?_⟩, rfl⟩
    intro stamped hmem id
    rcases Cells.mem_push hmem with hmem | rfl
    · exact h.queue stamped hmem id
    · nofun
  | reportClosed hclosed => cases h.closed.symm.trans hclosed
  | pollOther _ hqueue =>
    refine ⟨⟨h.closed, h.handle, h.reader, h.rewind, h.gates, h.trackers, h.deliveries, ?_⟩, rfl⟩
    intro stamped hmem
    apply h.queue
    rw [hqueue]
    exact List.mem_cons_of_mem _ hmem
  | pollDelivery _ _ _ hd | ackCurrent hd | ackStale hd | settled hd | written hd | notWritten hd
  | refuse hd => cases (hdeliveries _).symm.trans hd
  | install | findNone | sendGone | answered | answerGone =>
    exact ⟨⟨h.closed, h.handle, h.reader, h.rewind, h.gates, h.trackers, h.deliveries, h.queue⟩,
      rfl⟩
  | findLive hhandle => cases h.handle.symm.trans hhandle
  | bump _ _ hgate =>
    rw [h.gates] at hgate
    cases hgate

/-- The first reader of a shard, standing at `pc`. -/
def firstReader (pc : Pc) (reading : Reading) : Reader where
  gate := 0
  lineage := .opens
  pc := pc
  iterator := 0
  tracker := 0
  reading := reading
  failures := 0
  commands := []

def reads (u : Subscription) (pc : Pc) (reading : Reading) : Subscription :=
  { u with
    handle := some 0
    reader := some (firstReader pc reading)
    gates := [0]
    trackers := [{}] }

theorem Unread.spawn (h : u.Unread) : u.spawn .opens = u.reads (.opening false) {} := by
  simp only [Subscription.spawn, reads, firstReader, h.gates, h.trackers, h.rewind]
  rfl

end Subscription

namespace Stream

variable {Owner : Type} [DecidableEq Owner]
variable {w w' : Stream Owner} {owner : Owner} {act : StreamAct} {k : Nat}

/-- Nothing is known of a shard before it opens. -/
structure Bare (w : Stream Owner) : Prop where
  node : ∀ k, w.count ≤ k → w.node k = {}
  lease : ∀ k, w.count ≤ k → w.lease k = {}
  sub : ∀ k, w.count ≤ k → (w.sub k).Unread
  known : ∀ s ∈ w.known, s.id < w.count
  todo : ∀ s ∈ w.pass.todo, s.id < w.count
  examining : ∀ k rest lineage, w.pass.examining = some (k, rest, lineage) → k < w.count

theorem step_node (h : w.step owner act = some w') (hk : w'.count ≤ k) :
    w'.node k = w.node k := by
  have hs := step_cases h
  cases act with
  | tick j | close j | trim j =>
    simp only [step, Option.ite_none_right_eq_some, Option.some.injEq] at h
    obtain ⟨hlt, rfl⟩ := h
    exact Function.update_of_ne (Nat.ne_of_gt (Nat.lt_of_lt_of_le hlt hk)) _ _
  | append j data =>
    simp only [step, Option.ite_none_right_eq_some, Option.some.injEq, Bool.and_eq_true,
      decide_eq_true_eq] at h
    obtain ⟨⟨hlt, -⟩, rfl⟩ := h
    exact Function.update_of_ne (Nat.ne_of_gt (Nat.lt_of_lt_of_le hlt hk)) _ _
  | reshard parent adjacent =>
    simp only [step, reshard, Option.ite_none_right_eq_some, Option.some.injEq] at h
    obtain ⟨-, rfl⟩ := h
    exact Function.update_of_ne (Nat.ne_of_gt hk) _ _
  | coordinator c =>
    cases hs with
    | grows hact => simp at hact
    | coordinator hc => cases hc <;> rfl
  | sub j a =>
    cases hs with
    | grows hact => simp at hact
    | sub => rw [noting_node]; rfl
  | advance i order =>
    cases hs with
    | grows hact => simp at hact
    | advance _ hseek => cases hseek <;> rfl
  | seek position =>
    cases hs with
    | grows hact => simp at hact
    | _ => rfl
  | leave | disconnect =>
    obtain rfl := Option.some.inj h
    rfl

theorem Bare.step (h : w.Bare) (hstep : w.step owner act = some w') (hact : act ≠ .leave) :
    w'.Bare := by
  have hs := step_cases hstep
  have hcount := hs.evolves.count
  have hat : ∀ k, w'.count ≤ k → (w'.sub k).Unread ∧ w'.lease k = w.lease k := by
    intro k hk
    have hbare := h.sub k (Nat.le_trans hcount hk)
    rcases hs.at k with ⟨hsub, hlease⟩ | ⟨a, hdoes, hmove⟩
    · rw [hsub]
      exact ⟨hbare, hlease⟩
    · refine hbare.step hmove ?_ ?_
      · rintro rfl
        cases hdoes with
        | own hown => cases hown
        | leave => exact hact rfl
      · rintro lineage now rfl
        cases hdoes with
        | own hown => cases hown
        | acquire hpass =>
          have hlt := h.examining k [] (some lineage) (by rw [hpass]; rfl)
          omega
  have hknown : ∀ s ∈ w'.known, s.id < w'.count := by
    intro s hmem
    rcases hs.outside with ⟨c, -, hc⟩ | ⟨-, hknown⟩
    · rcases hc.known with rfl | hknown
      · exact (mem_listing.mp hmem).1
      · exact Nat.lt_of_lt_of_le (h.known s (hknown ▸ hmem)) hcount
    · exact Nat.lt_of_lt_of_le (h.known s (hknown ▸ hmem)) hcount
  refine ⟨?_, ?_, fun k hk => (hat k hk).1, hknown, ?_, ?_⟩
  · intro k hk
    rw [step_node hstep hk]
    exact h.node k (Nat.le_trans hcount hk)
  · intro k hk
    rw [(hat k hk).2]
    exact h.lease k (Nat.le_trans hcount hk)
  · intro s hmem
    rcases hs.outside with ⟨c, -, hc⟩ | ⟨hpass, -⟩
    · rcases hc.todo hmem with ⟨hold, -⟩ | hnew
      · exact Nat.lt_of_lt_of_le (h.todo s hold) hcount
      · exact hknown s hnew
    · rw [hpass] at hmem
      exact Nat.lt_of_lt_of_le (h.todo s hmem) hcount
  · intro k rest lineage hex
    apply Nat.lt_of_lt_of_le _ hcount
    rcases hs.outside with ⟨c, -, hc⟩ | ⟨hpass, -⟩
    · cases hc.examines hex with
      | stays hold => exact h.examining k _ _ hold
      | begins hmem hk =>
        rw [← hk]
        exact h.todo _ hmem
      | trimmed hold => exact h.examining k _ _ hold
      | passed _ hold =>
        apply h.examining k
        rw [hold]
        rfl
    · rw [hpass] at hex
      exact h.examining k _ _ hex

/-- A run in which the consumer holds the subscription, whatever the connection does. -/
def Goes (owner : Owner) : Stream Owner → Stream Owner → Prop :=
  Run (step owner) fun _ act => act ≠ .leave ∧ act ≠ .disconnect

theorem Goes.bare (h : Goes owner w w') (hw : w.Bare) : w'.Bare :=
  h.invariant (fun _ _ _ hbare hact hstep => hbare.step hstep hact.1) hw

theorem goes_step (act : StreamAct) (h : w.step owner act = some w')
    (hact : act ≠ .leave ∧ act ≠ .disconnect) : Goes owner w w' := .single hact h

theorem goes_coordinator {c : CoordinatorAct} (h : w.coordinate owner c = some w') :
    Goes owner w w' := goes_step (.coordinator c) h ⟨nofun, nofun⟩

theorem goes_gating {rest : List Nat} {outcome : Parents} {todo : List Listed}
    (hpass : w.pass = .gating k rest outcome todo) :
    Goes owner w { w with pass := .visiting todo } := by
  induction rest generalizing w with
  | nil =>
    cases hlineage : outcome.lineage with
    | none =>
      apply goes_coordinator (c := .visit)
      simp only [coordinate, hpass, hlineage]
    | some lineage =>
      have hchecking : Goes owner w { w with pass := .checking k lineage todo } := by
        apply goes_coordinator (c := .visit)
        simp only [coordinate, hpass, hlineage]
      exact hchecking.trans (goes_coordinator (c := .row false) rfl)
  | cons p rest ih =>
    cases hfind : w.known.find? (fun s => s.id == p) with
    | none =>
      have hnext : Goes owner w { w with pass := .gating k rest outcome todo } := by
        apply goes_coordinator (c := .visit)
        simp only [coordinate, hpass, hfind, Option.isNone_none, if_true]
      exact hnext.trans (ih rfl)
    | some parent =>
      apply goes_coordinator (c := .row false)
      simp only [coordinate, hpass, readParent, hfind, Option.bind_eq_bind, Option.bind_some,
        Bool.false_eq_true, if_false, if_true]

theorem goes_visiting {s : Listed} {todo : List Listed} (hpass : w.pass = .visiting (s :: todo)) :
    Goes owner w { w with pass := .visiting todo } := by
  by_cases hreader : (w.sub s.id).reader.isSome = true
  · apply goes_coordinator (c := .visit)
    simp only [coordinate, hpass, if_pos hreader]
  · have hgating : Goes owner w { w with pass := .gating s.id s.parents .skipped todo } := by
      apply goes_coordinator (c := .visit)
      simp only [coordinate, hpass, if_neg hreader]
    exact hgating.trans (goes_gating rfl)

/-- A pass goes over the shards before one it is asked for. -/
theorem goes_over {front todo : List Listed} (hpass : w.pass = .visiting (front ++ todo)) :
    Goes owner w { w with pass := .visiting todo } := by
  induction front generalizing w with
  | nil =>
    rw [List.nil_append] at hpass
    rw [← hpass]
    exact .refl w
  | cons s front ih => exact (goes_visiting hpass).trans (ih rfl)

theorem goes_endPass {todo : List Listed} (hpass : w.pass = .visiting todo) :
    Goes owner w w.endPass := by
  have hover : Goes owner w { w with pass := .visiting [] } := by
    apply goes_over
    rw [List.append_nil]
    exact hpass
  refine hover.trans (goes_coordinator (c := .visit) ?_)
  rfl

theorem step_reader {r : Reader} {a : ReaderAct} {lease : MemoryLease Owner} {u : Subscription}
    (hr : (w.sub k).reader = some r)
    (h : (w.sub k).readerStep owner (w.node k).shard (w.lease k) r a = some (lease, u)) :
    w.step owner (.sub k (.reader a)) =
      some (w.noting k (.reader a) (w.setSub k lease u)) := by
  simp only [step, on, SubAct.own, if_true, Subscription.step, hr, Option.bind_some, h,
    Option.map_some]

theorem goes_reader {r : Reader} {a : ReaderAct} {lease : MemoryLease Owner} {u : Subscription}
    (hr : (w.sub k).reader = some r)
    (h : (w.sub k).readerStep owner (w.node k).shard (w.lease k) r a = some (lease, u)) :
    Goes owner w (w.noting k (.reader a) (w.setSub k lease u)) :=
  goes_step _ (step_reader hr h) ⟨nofun, nofun⟩

/-- The reader of shard `k` is positioned, and nothing else has changed for the coordinator. -/
structure Positions (w w' : Stream Owner) (k : Nat) : Prop where
  count : w'.count = w.count
  pass : w'.pass = w.pass
  others : ∀ j, j ≠ k → w'.sub j = w.sub j
  reader : (w'.sub k).reader.all Reader.positioned = true

omit [DecidableEq Owner] in
theorem positions_exit {lease : MemoryLease Owner} {u : Subscription} {r : Reader} :
    Positions w (w.setSub k lease (u.exit r none)) k := by
  refine ⟨rfl, rfl, fun j hj => Function.update_of_ne hj _ _, ?_⟩
  simp only [setSub, Function.update_self, Subscription.exit, Option.all_some, Reader.positioned]

/-- A reader that is not positioned can be told that there is no iterator. -/
theorem goes_fetched (owner : Owner) {r : Reader} {start : ShardStart} {recorded again : Bool}
    (hr : (w.sub k).reader = some r) (hpc : r.pc = .fetching start recorded again) :
    ∃ w', Goes owner w w' ∧ Positions w w' k := by
  have hopen : (w.sub k).readerStep owner (w.node k).shard (w.lease k) r
      (.openIterator .noIterator) = some (w.lease k, (w.sub k).exit r none) := by
    simp only [Subscription.readerStep, Subscription.openIterator, hpc, Option.map_some]
  exact ⟨_, goes_reader hr hopen, positions_exit⟩

theorem goes_positioned_at (owner : Owner) {r : Reader} (hr : (w.sub k).reader = some r)
    (hnot : r.positioned = false) : ∃ w', Goes owner w w' ∧ Positions w w' k := by
  cases hpc : r.pc with
  | fetching start recorded again => exact goes_fetched owner hr hpc
  | opening again =>
    have hrow : ∃ u, (w.sub k).readRow (w.lease k) r true = some u ∧
        (u = (w.sub k).exit r none ∨
          ∃ start recorded, u = (w.sub k).goto r (.fetching start recorded again)) := by
      simp only [Subscription.readRow, hpc, if_true]
      split
      · exact ⟨_, rfl, Or.inl rfl⟩
      · exact ⟨_, rfl, Or.inr ⟨_, _, rfl⟩⟩
      · exact ⟨_, rfl, Or.inr ⟨_, _, rfl⟩⟩
    obtain ⟨u, hu, hnext⟩ := hrow
    have hread : (w.sub k).readerStep owner (w.node k).shard (w.lease k) r (.readRow true) =
        some (w.lease k, u) := by
      simp only [Subscription.readerStep, hu, Option.map_some]
    have hgo := goes_reader hr hread
    rcases hnext with rfl | ⟨start, recorded, rfl⟩
    · exact ⟨_, hgo, positions_exit⟩
    · have hnew : ((w.setSub k (w.lease k) ((w.sub k).goto r
          (.fetching start recorded again))).sub k).reader =
            some { r with pc := .fetching start recorded again } := by
        simp only [setSub, Function.update_self, Subscription.goto]
      obtain ⟨w', hgo', hpositions⟩ := goes_fetched owner hnew rfl
      refine ⟨w', hgo.trans hgo', hpositions.count, hpositions.pass, ?_, hpositions.reader⟩
      intro j hj
      rw [hpositions.others j hj]
      exact Function.update_of_ne hj _ _
  | _ => simp [Reader.positioned, hpc] at hnot

theorem goes_positioned (owner : Owner) (hpass : w.pass = .positioning) (n : Nat) :
    ∃ w', Goes owner w w' ∧ w'.count = w.count ∧ w'.pass = .positioning ∧
      ∀ k < n, (w'.sub k).reader.all Reader.positioned = true := by
  induction n with
  | zero => exact ⟨w, .refl w, rfl, hpass, nofun⟩
  | succ n ih =>
    obtain ⟨w₁, hgo₁, hcount₁, hpass₁, hall₁⟩ := ih
    by_cases hn : (w₁.sub n).reader.all Reader.positioned = true
    · refine ⟨w₁, hgo₁, hcount₁, hpass₁, ?_⟩
      intro k hk
      rcases Nat.lt_succ_iff_lt_or_eq.mp hk with hk | rfl
      · exact hall₁ k hk
      · exact hn
    · cases hr : (w₁.sub n).reader with
      | none => simp [hr] at hn
      | some r =>
        have hnot : r.positioned = false := by simpa [hr] using hn
        obtain ⟨w₂, hgo₂, h₂⟩ := goes_positioned_at owner hr hnot
        refine ⟨w₂, hgo₁.trans hgo₂, h₂.count.trans hcount₁, h₂.pass.trans hpass₁, ?_⟩
        intro k hk
        by_cases hkn : k = n
        · subst hkn
          exact h₂.reader
        · rw [h₂.others k hkn]
          exact hall₁ k (by omega)

/-- A pass gets to its end. -/
theorem goes_resting (owner : Owner) (w : Stream Owner) :
    ∃ w', Goes owner w w' ∧ w'.count = w.count ∧ w'.pass = .resting := by
  have hpositioning : ∀ {w : Stream Owner}, w.pass = .positioning →
      ∃ w', Goes owner w w' ∧ w'.count = w.count ∧ w'.pass = .resting := by
    intro w hpass
    obtain ⟨w₁, hgo, hcount, hpass₁, hall⟩ := goes_positioned owner hpass w.count
    refine ⟨{ w₁ with pass := .resting, opened := true }, hgo.trans ?_, hcount, rfl⟩
    apply goes_coordinator (c := .positioned)
    simp only [coordinate, hpass₁, List.all_eq_true, List.mem_range]
    rw [if_pos]
    intro k hk
    exact hall k (hcount ▸ hk)
  have hend : ∀ {w : Stream Owner}, Goes owner w w.endPass →
      ∃ w', Goes owner w w' ∧ w'.count = w.count ∧ w'.pass = .resting := by
    intro w hgo
    cases hopened : w.opened with
    | true =>
      refine ⟨w.endPass, hgo, rfl, ?_⟩
      simp only [endPass, hopened, if_true]
    | false =>
      have hpass : w.endPass.pass = .positioning := by simp [endPass, hopened]
      obtain ⟨w', hgo', hcount, hrest⟩ := hpositioning hpass
      exact ⟨w', hgo.trans hgo', hcount, hrest⟩
  cases hpass : w.pass with
  | resting => exact ⟨w, .refl w, rfl, hpass⟩
  | positioning => exact hpositioning hpass
  | listing =>
    apply hend
    apply goes_coordinator (c := .list false)
    simp only [coordinate, hpass, Bool.false_eq_true, if_false]
  | visiting todo => exact hend (goes_endPass hpass)
  | gating k rest outcome todo =>
    exact hend ((goes_gating hpass).trans (goes_endPass rfl))
  | checking k lineage todo =>
    have hgo : Goes owner w { w with pass := .visiting todo } := by
      apply goes_coordinator (c := .row false)
      simp only [coordinate, hpass, Bool.false_and, Bool.false_eq_true, if_false]
    exact hend (hgo.trans (goes_endPass rfl))
  | acquiring k lineage todo =>
    have hgo : Goes owner w { w with pass := .visiting todo } := by
      apply goes_coordinator (c := .acquire false 0)
      simp only [coordinate, hpass, Bool.false_eq_true, if_false]
    exact hend (hgo.trans (goes_endPass rfl))

theorem step_poll {u : Subscription} (h : (w.sub k).poll = some u) :
    w.step owner (.sub k .poll) = some (w.setSub k (w.lease k) u) := by
  simp only [step, on, SubAct.own, if_true, Subscription.step, h, Option.map_some, noting]

/-- The errors that are queued for a shard before it opens can be polled. -/
theorem goes_polled (owner : Owner) (h : w.Bare) (hk : w.count ≤ k) :
    ∃ w', Goes owner w w' ∧ w'.count = w.count ∧ w'.pass = w.pass ∧ (w'.sub k).queue = [] := by
  generalize hqueue : (w.sub k).queue = queue
  induction queue generalizing w with
  | nil => exact ⟨w, .refl w, rfl, rfl, hqueue⟩
  | cons stamped rest ih =>
    have hunread := h.sub k hk
    have hpoll : (w.sub k).poll = some { w.sub k with queue := rest } := by
      have hmem : stamped ∈ (w.sub k).queue := by
        rw [hqueue]
        exact List.mem_cons_self
      have hnot := hunread.queue stamped hmem
      simp only [Subscription.poll, hunread.closed, hqueue]
    have hgo : Goes owner w (w.setSub k (w.lease k) { w.sub k with queue := rest }) :=
      goes_step _ (step_poll hpoll) ⟨nofun, nofun⟩
    have hnew : ((w.setSub k (w.lease k) { w.sub k with queue := rest }).sub k).queue = rest := by
      simp only [setSub, Function.update_self]
    obtain ⟨w', hgo', hcount, hpass, hempty⟩ := ih (hgo.bare h) hk hnew
    exact ⟨w', hgo.trans hgo', hcount, hpass, hempty⟩

/-- None of the parents is on the listing any more: the pass goes over them. -/
theorem goes_trimmed {parents : List Nat} {todo : List Listed}
    (hpass : w.pass = .gating k parents .skipped todo)
    (hgone : ∀ p ∈ parents, w.known.find? (fun s => s.id == p) = none) :
    Goes owner w { w with pass := .gating k [] .skipped todo } := by
  induction parents generalizing w with
  | nil =>
    rw [← hpass]
    exact .refl w
  | cons p rest ih =>
    have hnext : Goes owner w { w with pass := .gating k rest .skipped todo } := by
      apply goes_coordinator (c := .visit)
      simp only [coordinate, hpass, hgone p List.mem_cons_self, Option.isNone_none, if_true]
    exact hnext.trans (ih rfl fun q hq => hgone q (List.mem_cons_of_mem p hq))

/-- The pass comes to the lease of a shard that nobody reads, of whose parents none is listed. -/
theorem goes_acquiring {front : List Listed} {parents : List Nat} {closed : Bool}
    (hpass : w.pass = .visiting (front ++ [⟨k, parents, closed⟩]))
    (hgone : ∀ p ∈ parents, w.known.find? (fun s => s.id == p) = none)
    (hreader : (w.sub k).reader = none) (hlease : w.lease k = {}) :
    Goes owner w { w with pass := .acquiring k .opens [] } := by
  have hover : Goes owner w { w with pass := .visiting [⟨k, parents, closed⟩] } := goes_over hpass
  have hgating : Goes owner { w with pass := .visiting [⟨k, parents, closed⟩] }
      { w with pass := .gating k parents .skipped [] } := by
    apply goes_coordinator (c := .visit)
    simp only [coordinate, hreader, Option.isSome_none, Bool.false_eq_true, if_false]
  have htrimmed : Goes owner { w with pass := .gating k parents .skipped [] }
      { w with pass := .gating k [] .skipped [] } := goes_trimmed rfl hgone
  have hchecking : Goes owner { w with pass := .gating k [] .skipped [] }
      { w with pass := .checking k .opens [] } := goes_coordinator (c := .visit) rfl
  have hacquiring : Goes owner { w with pass := .checking k .opens [] }
      { w with pass := .acquiring k .opens [] } := by
    apply goes_coordinator (c := .row true)
    simp only [coordinate, hlease]
    rfl
  exact hover.trans (hgating.trans (htrimmed.trans (hchecking.trans hacquiring)))

/-- A closed shard is split. -/
theorem step_split (owner : Owner) {p n : Nat} (hcount : w.count = n) (hp : p < n)
    (hclosed : (w.node p).shard.closed = true) (hblank : w.node n = {}) :
    w.step owner (.reshard (some p) none) = some { w with
      count := n + 1
      node := Function.update w.node n { parent := some p } } := by
  subst hcount
  simp [step, reshard, hblank, hclosed, hp, Node.parents]

/-- A shard is closed, split, and ages out of the listing. -/
theorem goes_split (owner : Owner) {p : Nat} (hp : p < w.count) (hblank : w.node w.count = {}) :
    ∃ w', Goes owner w w' ∧ w'.count = w.count + 1 ∧ w'.pass = w.pass ∧ w'.lease = w.lease ∧
      w'.sub = w.sub ∧ w'.node w.count = { parent := some p } ∧ (w'.node p).listed = false := by
  have hne : w.count ≠ p := Nat.ne_of_gt hp
  have hcloses : Goes owner w (w.setShard p { (w.node p).shard with closed := true }) := by
    apply goes_step (.close p) _ (by simp)
    simp only [step, if_pos hp]
  generalize hclosed : w.setShard p { (w.node p).shard with closed := true } = w₁ at hcloses
  have hw₁ : w₁.count = w.count ∧ (w₁.node p).shard.closed = true ∧ w₁.node w.count = {} := by
    subst hclosed
    exact ⟨rfl, by simp only [setShard, Function.update_self],
      (Function.update_of_ne hne _ _).trans hblank⟩
  obtain ⟨hcount, hshut, hblank₁⟩ := hw₁
  have hsplits : Goes owner w₁ { w₁ with
      count := w.count + 1
      node := Function.update w₁.node w.count { parent := some p } } :=
    goes_step (.reshard (some p) none) (step_split owner hcount hp hshut hblank₁) (by simp)
  have htrims : Goes owner
      { w₁ with
        count := w.count + 1
        node := Function.update w₁.node w.count { parent := some p } }
      { w₁ with
        count := w.count + 1
        node := Function.update (Function.update w₁.node w.count { parent := some p }) p
          { w₁.node p with listed := false } } := by
    apply goes_step (.trim p) _ (by simp)
    simp only [step, if_pos (Nat.lt_succ_of_lt hp), Function.update_of_ne (Ne.symm hne)]
  refine ⟨_, hcloses.trans (hsplits.trans htrims), rfl, ?_, ?_, ?_, ?_, ?_⟩
  · subst hclosed
    rfl
  · subst hclosed
    rfl
  · subst hclosed
    rfl
  · exact (Function.update_of_ne hne _ _).trans (Function.update_self _ _ _)
  · simp only [Function.update_self]

/-- A shard opens: the last one, which has no child yet, is split and ages out, or a stream without
any gets its first. -/
theorem goes_opened (owner : Owner) (h : w.Bare) :
    ∃ w' parent, Goes owner w w' ∧ w'.count = w.count + 1 ∧ w'.pass = w.pass ∧
      w'.lease = w.lease ∧ w'.sub = w.sub ∧ w'.node w.count = { parent } ∧
      ∀ p ∈ parent, (w'.node p).listed = false := by
  have hblank := h.node w.count (Nat.le_refl _)
  by_cases hfirst : w.count = 0
  · refine ⟨{ w with count := w.count + 1, node := Function.update w.node w.count {} }, none, ?_,
      rfl, rfl, rfl, rfl, Function.update_self _ _ _, nofun⟩
    apply goes_step (.reshard none none) _ ⟨nofun, nofun⟩
    simp only [step, reshard, hblank, Node.parents, Option.toList_none, List.append_nil,
      List.all_nil, if_true]
  · have hlast : w.count - 1 < w.count := by omega
    obtain ⟨w', hgo, hcount, hpass, hlease, hsub, hnode, hlisted⟩ := goes_split owner hlast hblank
    refine ⟨w', some (w.count - 1), hgo, hcount, hpass, hlease, hsub, hnode, ?_⟩
    intro p hp
    obtain rfl := Option.some.inj hp
    exact hlisted

/-- A shard opens and is on the next listing, without its parent. -/
theorem goes_listed (owner : Owner) (h : w.Bare) (hpass : w.pass = .resting) :
    ∃ w' front parents, Goes owner w w' ∧ w'.count = w.count + 1 ∧
      w'.pass = .visiting (front ++ [⟨w.count, parents, false⟩]) ∧
      (∀ p ∈ parents, w'.known.find? (fun s => s.id == p) = none) ∧
      (w'.node w.count).shard = {} ∧ w'.lease w.count = {} ∧ w'.sub w.count = w.sub w.count := by
  obtain ⟨w₁, parent, hopens, hcount, hpass₁, hlease, hsub, hnode, hgone⟩ := goes_opened owner h
  have hforgets : Goes owner w₁ { w₁ with
      pass := .listing
      sub := fun k => (w₁.sub k).forgetFinished (k ∉ ([] : List Nat)) } := by
    apply goes_coordinator (c := .forget [])
    simp only [coordinate, hpass₁, hpass]
  refine ⟨_, ((List.range w.count).filter fun k => (w₁.node k).listed).map fun k =>
      ⟨k, (w₁.node k).parents, (w₁.node k).shard.closed⟩, (w₁.node w.count).parents,
    hopens.trans (hforgets.trans (goes_coordinator (c := .list true) rfl)), hcount, ?_, ?_, ?_, ?_,
    ?_⟩
  · simp only [listing, hcount, List.range_succ, List.filter_append, List.map_append]
    rw [List.filter_cons_of_pos (by simp [hnode])]
    simp [hnode]
  · intro p hp
    have hlisted : (w₁.node p).listed = false := by
      apply hgone p
      simpa [hnode, Node.parents] using hp
    apply List.find?_eq_none.mpr
    intro s hs heq
    obtain rfl : s.id = p := by simpa using heq
    cases (mem_listing.mp hs).2.1.symm.trans hlisted
  · exact congrArg Node.shard hnode
  · exact (congrFun hlease _).trans (h.lease w.count (Nat.le_refl _))
  · show (w₁.sub w.count).forgetFinished _ = w.sub w.count
    simp only [hsub, Subscription.forgetFinished, (h.sub w.count (Nat.le_refl _)).reader]

/-- What stands for a shard that has opened. -/
structure Holds (w : Stream Owner) (k : Nat) (shard : Shard) (lease : MemoryLease Owner)
    (u : Subscription) : Prop where
  lt : k < w.count
  shard : (w.node k).shard = shard
  lease : w.lease k = lease
  sub : w.sub k = u

variable {shard : Shard} {lease lease' : MemoryLease Owner} {u u' : Subscription} {r : Reader}
variable {a : ReaderAct}

theorem Holds.step (h : w.Holds k shard lease u) (hr : u.reader = some r)
    (hstep : u.readerStep owner shard lease r a = some (lease', u')) :
    ∃ w', w.step owner (.sub k (.reader a)) = some w' ∧ w'.Holds k shard lease' u' := by
  obtain ⟨hlt, rfl, rfl, rfl⟩ := h
  refine ⟨_, step_reader hr hstep, ?_, ?_, ?_, ?_⟩
  · rw [noting_count]
    exact hlt
  · rw [noting_node]
    rfl
  · rw [noting_lease]
    exact Function.update_self _ _ _
  · rw [noting_sub]
    exact Function.update_self _ _ _

theorem Holds.goes (h : w.Holds k shard lease u) (hr : u.reader = some r)
    (hstep : u.readerStep owner shard lease r a = some (lease', u')) :
    ∃ w', Goes owner w w' ∧ w'.Holds k shard lease' u' := by
  obtain ⟨w', hw', hholds⟩ := h.step hr hstep
  exact ⟨w', goes_step _ hw' ⟨nofun, nofun⟩, hholds⟩

theorem Holds.isSome (h : w.Holds k shard lease u) (hr : u.reader = some r)
    (hstep : (u.readerStep owner shard lease r a).isSome) :
    (w.step owner (.sub k (.reader a))).isSome := by
  obtain ⟨⟨lease', u'⟩, heq⟩ := Option.isSome_iff_exists.mp hstep
  obtain ⟨w', hw', -⟩ := h.step hr heq
  rw [hw']
  rfl

/-- Time passes at the service. -/
theorem Holds.tick (owner : Owner) (h : w.Holds k shard lease u) (n : Nat) :
    ∃ w', Goes owner w w' ∧ w'.Holds k { shard with clock := shard.clock + n } lease u := by
  induction n with
  | zero => exact ⟨w, .refl w, h⟩
  | succ n ih =>
    obtain ⟨w₁, hgo, hholds⟩ := ih
    obtain ⟨hlt, hshard, rfl, rfl⟩ := hholds
    refine ⟨w₁.setShard k { shard with clock := shard.clock + (n + 1) }, hgo.trans ?_, hlt, ?_,
      rfl, rfl⟩
    · apply goes_step (.tick k) _ ⟨nofun, nofun⟩
      simp only [Stream.step, if_pos hlt, hshard]
      rfl
    · simp only [setShard, Function.update_self]

theorem Holds.append (owner : Owner) (h : w.Holds k shard lease u) (hopen : shard.closed = false)
    (data : List UInt8) :
    ∃ w', Goes owner w w' ∧ w'.Holds k (shard.append data) lease u := by
  obtain ⟨hlt, rfl, rfl, rfl⟩ := h
  refine ⟨w.setShard k ((w.node k).shard.append data), ?_, hlt, ?_, rfl, rfl⟩
  · apply goes_step (.append k data) _ ⟨nofun, nofun⟩
    simp only [Stream.step, hopen, hlt, decide_true, Bool.not_false, Bool.and_self, if_true]
  · simp only [setShard, Function.update_self]

/-- Some time after it opened an empty shard has an iterator for every position. -/
theorem exists_iterator (installed : Option StreamStart) : ∃ clock,
    ({ clock } : Shard).getShardIterator
      (iteratorAt (reopenAt none none none .opens installed)) = some 0 := by
  cases installed with
  | none => exact ⟨0, rfl⟩
  | some start =>
    cases start with
    | horizon | latest => exact ⟨0, rfl⟩
    | timestamp millis =>
      refine ⟨clampMillis millis, ?_⟩
      show (if clampMillis millis ≤ clampMillis millis then
        some (Shard.firstFrom [] (clampMillis millis)) else none) = some 0
      rw [if_pos (Nat.le_refl _)]
      rfl

/-- The lease that the owner has just taken of a shard nobody had read. -/
def taken (owner : Owner) : MemoryLease Owner :=
  { owner := some owner, expires := some leaseTtl }

theorem acquire_taken : ({} : MemoryLease Owner).acquire owner 0 leaseTtl = (true, taken owner) :=
  rfl

/-- The pass is about to take the lease of a shard that has just opened. -/
structure Offered (w : Stream Owner) (k : Nat) : Prop where
  lt : k < w.count
  pass : w.pass = .acquiring k .opens []
  shard : (w.node k).shard = {}
  lease : w.lease k = {}
  unread : (w.sub k).Unread
  queue : (w.sub k).queue = []

theorem goes_offered (owner : Owner) (h : w.Bare) :
    ∃ w' k, Goes owner w w' ∧ w.count ≤ k ∧ w'.Offered k := by
  obtain ⟨w₁, hgo₁, hcount₁, hpass₁⟩ := goes_resting owner w
  have hbare₁ := hgo₁.bare h
  obtain ⟨w₂, hgo₂, hcount₂, hpass₂, hqueue⟩ :=
    goes_polled owner hbare₁ (Nat.le_refl _)
  have hbare₂ := hgo₂.bare hbare₁
  rw [← hcount₂] at hqueue
  have hunread := hbare₂.sub w₂.count (Nat.le_refl _)
  obtain ⟨w₃, front, parents, hgo₃, hcount₃, hpass₃, hgone₃, hshard₃, hlease₃, hsub₃⟩ :=
    goes_listed owner hbare₂ (hpass₂.trans hpass₁)
  rw [← hsub₃] at hunread hqueue
  have hgo₄ : Goes owner w₃ { w₃ with pass := .acquiring w₂.count .opens [] } :=
    goes_acquiring hpass₃ hgone₃ hunread.reader hlease₃
  refine ⟨_, w₂.count, hgo₁.trans (hgo₂.trans (hgo₃.trans hgo₄)), by omega, ?_⟩
  exact ⟨by simp only [hcount₃]; omega, rfl, hshard₃, hlease₃, hunread, hqueue⟩

theorem Offered.step (h : w.Offered k) :
    w.step owner (.coordinator (.acquire true 0)) =
      some { w.setSub k (taken owner) ((w.sub k).reads (.opening false) {}) with
        pass := .visiting [] } := by
  have hon : w.on owner k (.acquire .opens 0) =
      some (w.setSub k (taken owner) ((w.sub k).reads (.opening false) {})) := by
    simp only [on, Subscription.step, Subscription.acquire, h.unread.reader, Option.isNone_none,
      if_true, h.lease, acquire_taken, h.unread.spawn, Option.map_some]
  simp only [Stream.step, coordinate, h.pass, if_true, hon, Option.map_some]

theorem Offered.goes (owner : Owner) (h : w.Offered k) :
    ∃ w', Goes owner w w' ∧
      w'.Holds k {} (taken owner) ((w.sub k).reads (.opening false) {}) := by
  refine ⟨_, goes_step _ h.step ⟨nofun, nofun⟩, h.lt, ?_, ?_, ?_⟩
  · exact h.shard
  · exact Function.update_self _ _ _
  · exact Function.update_self _ _ _

section FirstReader

open Subscription (firstReader readerStep openIterator)

variable {pc pc' : Pc} {reading reading' : Reading}

theorem Holds.moves (h : w.Holds k shard lease (u.reads pc reading))
    (hstep : (u.reads pc reading).readerStep owner shard lease (firstReader pc reading) a =
      some (lease', u.reads pc' reading')) :
    ∃ w', Goes owner w w' ∧ w'.Holds k shard lease' (u.reads pc' reading') :=
  h.goes rfl hstep

/-- The reader gets its starting iterator, and a record arrives. -/
theorem Holds.opened (h : w.Holds k {} (taken owner) (u.reads (.opening false) {})) :
    ∃ w' clock rewind, Goes owner w w' ∧
      w'.Holds k { log := [⟨[], clock⟩], clock } (taken owner) (u.reads .head ⟨rewind, true⟩) := by
  obtain ⟨clock, hiterator⟩ := exists_iterator u.installed
  generalize hstart : reopenAt none none none .opens u.installed = start at hiterator
  obtain ⟨w₁, hgo₁, h₁⟩ := h.tick owner clock
  rw [show ({ clock := 0 + clock } : Shard) = { clock } by rw [Nat.zero_add]] at h₁
  have hrow : (u.reads (.opening false) {}).readerStep owner { clock } (taken owner)
      (firstReader (.opening false) {}) (.readRow true) =
      some (taken owner, u.reads (.fetching start false false) {}) := by
    subst hstart
    rfl
  obtain ⟨w₂, hgo₂, h₂⟩ := h₁.moves hrow
  have hopen : (u.reads (.fetching start false false) {}).readerStep owner { clock } (taken owner)
      (firstReader (.fetching start false false) {}) (.openIterator .iterator) =
      some (taken owner, u.reads .head ⟨rewindTo start, true⟩) := by
    simp only [readerStep, openIterator, firstReader, hiterator]
    rfl
  obtain ⟨w₃, hgo₃, h₃⟩ := h₂.moves hopen
  obtain ⟨w₄, hgo₄, h₄⟩ := h₃.append owner rfl []
  exact ⟨w₄, clock, _, hgo₁.trans (hgo₂.trans (hgo₃.trans hgo₄)), h₄⟩

/-- A round of the reader's loop up to its renewal. -/
theorem Holds.round (owner : Owner) (h : w.Holds k shard lease (u.reads .head reading))
    (hopen : u.closed = false) :
    ∃ w', Goes owner w w' ∧ w'.Holds k shard lease (u.reads .renewing reading) := by
  have hcheck : (u.reads .head reading).readerStep owner shard lease (firstReader .head reading)
      .checkClosed = some (lease, u.reads .draining reading) := by
    simp only [readerStep, Subscription.checkClosed, firstReader, Subscription.reads, hopen]
    rfl
  obtain ⟨w₁, hgo₁, h₁⟩ := h.moves hcheck
  have hdrained : (u.reads .draining reading).readerStep owner shard lease
      (firstReader .draining reading) .drained = some (lease, u.reads .renewing reading) := rfl
  obtain ⟨w₂, hgo₂, h₂⟩ := h₁.moves hdrained
  exact ⟨w₂, hgo₁.trans hgo₂, h₂⟩

theorem Holds.renewed (h : w.Holds k shard (taken owner) (u.reads .renewing reading)) :
    ∃ w', Goes owner w w' ∧ w'.Holds k shard (taken owner) (u.reads .stamping reading) := by
  have hrenew : (u.reads .renewing reading).readerStep owner shard (taken owner)
      (firstReader .renewing reading) (.renew 0) =
      some (taken owner, u.reads .stamping reading) := by
    simp only [readerStep, Subscription.renew, firstReader, MemoryLease.renew, taken, if_true]
    rfl
  exact h.moves hrenew

/-- It reads the one record there is, and records its opening. -/
theorem Holds.read {rewind : Option ShardStart} {log : List Record} (hlog : log.length = 1)
    (hshard : shard.log = log)
    (h : w.Holds k shard (taken owner) (u.reads .stamping ⟨rewind, true⟩)) :
    ∃ w' lease' reading, Goes owner w w' ∧ reading.unrecorded = false ∧
      w'.Holds k shard lease' (u.reads (.forwarding 0 0 1 false false) reading) := by
  have hstamp : (u.reads .stamping ⟨rewind, true⟩).readerStep owner shard (taken owner)
      (firstReader .stamping ⟨rewind, true⟩) .stamp =
      some (taken owner, u.reads (.reading 0) ⟨rewind, true⟩) := rfl
  obtain ⟨w₁, hgo₁, h₁⟩ := h.moves hstamp
  have hget : (u.reads (.reading 0) ⟨rewind, true⟩).readerStep owner shard (taken owner)
      (firstReader (.reading 0) ⟨rewind, true⟩) (.getRecords 1 false) =
      some (taken owner, u.reads (.forwarding 0 0 1 false false) ⟨rewind, true⟩) := by
    simp only [readerStep, Subscription.getRecords, firstReader, hshard, hlog]
    rfl
  obtain ⟨w₂, hgo₂, h₂⟩ := h₁.moves hget
  have hrecord : (u.reads (.forwarding 0 0 1 false false) ⟨rewind, true⟩).readerStep owner shard
      (taken owner) (firstReader (.forwarding 0 0 1 false false) ⟨rewind, true⟩)
      (.recordOpening true) =
      some ({ taken owner with openedAt := some 0 }, u.reads (.forwarding 0 0 1 false false)
        { Reading.noteFirst ⟨rewind, true⟩ 0 with unrecorded := false }) := by
    simp only [readerStep, Subscription.recordOpening, firstReader, MemoryLease.recordOpenedAt,
      taken, if_true]
    rfl
  obtain ⟨w₃, hgo₃, h₃⟩ := h₂.moves hrecord
  exact ⟨w₃, _, _, hgo₁.trans (hgo₂.trans hgo₃), rfl, h₃⟩

theorem Holds.hands {record : Record}
    (h : w.Holds k shard lease (u.reads (.forwarding 0 0 1 false false) reading))
    (hunrecorded : reading.unrecorded = false) (hlog : shard.log = [record])
    (hplain : record.aggregated = false) (hopen : u.closed = false) (hqueue : u.queue = []) :
    (w.step owner (.sub k (.reader .handOut))).isSome := by
  apply h.isSome rfl
  simp [readerStep, Subscription.handOut, firstReader, Subscription.reads, hlog, hunrecorded,
    hplain, hopen, hqueue, Subscription.room, channelCapacity]

end FirstReader

omit [DecidableEq Owner] in
theorem Bare.spawned (shards : List (Node × MemoryLease Owner)) (connected : Bool) :
    (spawned shards connected).Bare := by
  refine ⟨?_, ?_, fun _ _ => ⟨rfl, rfl, rfl, rfl, rfl, rfl, rfl, nofun⟩, nofun, nofun, nofun⟩
  · intro k hk
    simp only [Stream.spawned, List.getElem?_eq_none hk, Option.elim_none]
  · intro k hk
    simp only [Stream.spawned, List.getElem?_eq_none hk, Option.elim_none]

omit [DecidableEq Owner] in
theorem Bare.row (h : w.Bare) (hk : k < w.count) (row : MemoryLease Owner) :
    ({ w with lease := Function.update w.lease k row } : Stream Owner).Bare := by
  refine ⟨h.node, ?_, h.sub, h.known, h.todo, h.examining⟩
  intro j hj
  have hne : j ≠ k := Nat.ne_of_gt (Nat.lt_of_lt_of_le hk hj)
  simp only [Function.update_of_ne hne]
  exact h.lease j hj

omit [DecidableEq Owner] in
theorem Bare.disconnected (h : w.Bare) : ({ w with connected := false } : Stream Owner).Bare :=
  ⟨h.node, h.lease, h.sub, h.known, h.todo, h.examining⟩

omit [DecidableEq Owner] in
theorem Bare.batch (h : w.Bare) (hk : w.count ≤ k) : w.batch k = none := by
  simp only [Stream.batch, (h.sub k hk).reader, Option.bind_none]

/-- Wherever a subscription stands, every kind of work is still to come. -/
theorem goes_on (owner : Owner) {before : Nat → Option (Nat × Nat)} (h : w.Bare)
    (hbefore : ∀ k, w.count ≤ k → before k = none) (work : Work) :
    ∃ w' act, Goes owner w w' ∧ (act ≠ .leave ∧ act ≠ .disconnect) ∧
      (w'.step owner act).isSome ∧ Starts owner before w' act work := by
  obtain ⟨w₁, k, hgo₁, hk, hoffered⟩ := goes_offered owner h
  have hopen := hoffered.unread.closed
  obtain ⟨w₂, hgo₂, h₂⟩ := hoffered.goes owner
  obtain ⟨w₃, clock, rewind, hgo₃, h₃⟩ := h₂.opened
  obtain ⟨w₄, hgo₄, h₄⟩ := h₃.round owner hopen
  obtain ⟨w₅, hgo₅, h₅⟩ := h₄.renewed
  obtain ⟨w₆, lease, reading, hgo₆, hunrecorded, h₆⟩ := h₅.read rfl rfl
  have hto₂ := hgo₁.trans hgo₂
  have hto₃ := hto₂.trans hgo₃
  have hto₄ := hto₃.trans hgo₄
  have hto₅ := hto₄.trans hgo₅
  cases work with
  | lease =>
    refine ⟨w₁, .coordinator (.acquire true 0), hgo₁, ⟨nofun, nofun⟩, ?_,
      .lease hoffered.pass ?_⟩
    · rw [hoffered.step]
      rfl
    · rw [hoffered.lease]
      rfl
  | fetch =>
    refine ⟨w₂, .sub k (.reader (.readRow true)), hto₂, ⟨nofun, nofun⟩, h₂.isSome rfl rfl,
      .fetch ?_⟩
    rw [h₂.lease]
    nofun
  | round =>
    exact ⟨w₃, .sub k (.reader .checkClosed), hto₃, ⟨nofun, nofun⟩, h₃.isSome rfl rfl, .round⟩
  | renew =>
    exact ⟨w₄, .sub k (.reader (.renew 0)), hto₄, ⟨nofun, nofun⟩, h₄.isSome rfl rfl, .renew⟩
  | read =>
    exact ⟨w₅, .sub k (.reader .stamp), hto₅, ⟨nofun, nofun⟩, h₅.isSome rfl rfl, .read⟩
  | handOut =>
    have hbatch : w₆.batch k = some (0, 1) := by
      simp only [batch, h₆.sub]
      rfl
    refine ⟨w₆, .sub k (.reader .handOut), hto₅.trans hgo₆, ⟨nofun, nofun⟩,
      h₆.hands hunrecorded rfl rfl hopen hoffered.queue, .handOut hbatch ?_⟩
    rw [hbefore k hk]
    rfl

end Stream

namespace Connection

variable {Owner : Type} [DecidableEq Owner]
variable {c c' : Connection Owner} {i : Nat} {w w' : Stream Owner} {act : ConnectionAct Owner}

theorem step_stream {a : StreamAct} (hi : c.streams[i]? = some w)
    (ha : a ≠ .leave ∧ a ≠ .disconnect) : c.step (.stream i a) =
      (w.step c.owner a).map fun w => { c with streams := c.streams.set i w } := by
  simp only [step, hi, ha.1, ha.2, or_self, if_false]

theorem Reached.bare (h : c.Reached) : ∀ w ∈ c.streams, w.Bare := by
  obtain ⟨owner, hrun⟩ := h
  apply hrun.invariant (I := fun c => ∀ w ∈ c.streams, w.Bare)
  · intro c act c' hbare _ hstep w hmem
    cases act with
    | subscribe =>
      simp only [step] at hstep
      split_ifs at hstep
      obtain rfl := Option.some.inj hstep
      exact hbare w hmem
    | fail =>
      simp only [step] at hstep
      split at hstep
      · cases hstep
      · obtain rfl := Option.some.inj hstep
        exact hbare w hmem
    | spawn shards =>
      simp only [step] at hstep
      split at hstep
      · cases hstep
      · obtain rfl := Option.some.inj hstep
        rcases Cells.mem_push hmem with hmem | rfl
        · exact hbare w hmem
        · exact .spawned shards _
    | stream i a =>
      simp only [step] at hstep
      split at hstep
      · rename_i old hi
        split_ifs at hstep with ha
        obtain ⟨new, hnew, rfl⟩ := Option.map_eq_some_iff.mp hstep
        rcases Cells.mem_set hmem with rfl | hmem
        · exact (hbare old (List.mem_of_getElem? hi)).step hnew fun hleave => ha (Or.inl hleave)
        · exact hbare w hmem
      · cases hstep
    | row i k row =>
      simp only [step] at hstep
      split at hstep
      · rename_i old hi
        split_ifs at hstep with hk
        obtain rfl := Option.some.inj hstep
        rcases Cells.mem_set hmem with rfl | hmem
        · exact (hbare old (List.mem_of_getElem? hi)).row hk row
        · exact hbare w hmem
      · cases hstep
    | shutdown =>
      obtain rfl := Option.some.inj hstep
      obtain ⟨old, hold, rfl⟩ := List.mem_map.mp hmem
      exact (hbare old hold).disconnected
  · intro w hmem
    exact absurd hmem List.not_mem_nil

/-- A run of one subscription is a run of the connection. -/
theorem run_stream (hgo : Stream.Goes c.owner w w') (hi : c.streams[i]? = some w) :
    ∃ c', Run step (fun _ _ => True) c c' ∧ c'.owner = c.owner ∧ c'.streams[i]? = some w' := by
  induction hgo with
  | refl => exact ⟨c, .refl c, rfl, hi⟩
  | @tail _ last a _ hact hstep ih =>
    obtain ⟨c₁, hrun, howner, hi₁⟩ := ih
    have hlast : c₁.step (.stream i a) = some { c₁ with streams := c₁.streams.set i last } := by
      rw [step_stream hi₁ hact, howner, hstep]
      rfl
    exact ⟨_, .tail hrun trivial hlast, howner, Cells.get_set_self hi₁⟩

/-- Where there is a subscription every kind of work goes on. -/
theorem not_never (hbare : w.Bare) (hi : c.streams[i]? = some w)
    {start : Connection Owner} (hrun : Run step (fun _ _ => True) start c)
    (hbatch : ∀ k, w.count ≤ k → start.batch i k = none) (work : Work) : ¬ start.Never work := by
  intro hnever
  obtain ⟨w', a, hgo, hact, hsome, hstarts⟩ :=
    Stream.goes_on c.owner hbare hbatch work
  obtain ⟨c', hrun', howner, hi'⟩ := run_stream hgo hi
  refine hnever c' i w' a (hrun.trans hrun') hi' ?_ (howner ▸ hstarts)
  rw [step_stream hi' hact, Option.isSome_map, howner]
  exact hsome

/-- A closed connection without a subscription has none ever after. -/
theorem quiet (hclosed : c.closed = true) (hopening : c.opening = 0) (hstreams : c.streams = [])
    (hrun : Run step (fun _ _ => True) c c') : c'.streams = [] := by
  have hinv := hrun.invariant
    (I := fun c => c.closed = true ∧ c.opening = 0 ∧ c.streams = []) ?_
    ⟨hclosed, hopening, hstreams⟩
  · exact hinv.2.2
  · rintro c act c' ⟨hclosed, hopening, hstreams⟩ _ hstep
    cases act with
    | shutdown =>
      obtain rfl := Option.some.inj hstep
      simp [hopening, hstreams]
    | _ => simp [step, hclosed, hopening, hstreams] at hstep

end Connection

/-- After a shutdown the work stops if and only if no subscription is open or being opened, and so
does each kind of it. -/
theorem shutdown_stops_iff {Owner : Type} [DecidableEq Owner] {c : Connection Owner}
    (hreached : c.Reached) (hclosed : c.closed = true) :
    (c.Stops ↔ c.streams = [] ∧ c.opening = 0) ∧
      ∀ work, c.Never work ↔ c.streams = [] ∧ c.opening = 0 := by
  have hnever : ∀ work, c.Never work ↔ c.streams = [] ∧ c.opening = 0 := by
    intro work
    constructor
    · intro hnever
      by_contra hopen
      rcases not_and_or.mp hopen with hstreams | hopening
      · obtain ⟨w, hmem⟩ := List.exists_mem_of_ne_nil _ hstreams
        obtain ⟨i, hi⟩ := List.mem_iff_getElem?.mp hmem
        have hbare := hreached.bare w hmem
        refine Connection.not_never hbare hi (.refl c) ?_ work hnever
        intro k hk
        simp only [Connection.batch, hi, Option.bind_some]
        exact hbare.batch hk
      · obtain ⟨opening, hsucc⟩ := Nat.exists_eq_succ_of_ne_zero hopening
        have hspawn : c.step (.spawn [({}, {})]) = some { c with
            opening := opening
            streams := c.streams ++ [.spawned [({}, {})] !c.closed] } := by
          simp only [Connection.step, hsucc]
        have hnew : (c.streams ++ [Stream.spawned [({}, {})] !c.closed])[c.streams.length]? =
            some (.spawned [({}, {})] !c.closed) := by simp
        refine Connection.not_never (.spawned _ _) hnew (.single trivial hspawn) ?_ work hnever
        intro k _
        simp [Connection.batch]
    · rintro ⟨hstreams, hopening⟩ c' i w a hrun hi
      rw [Connection.quiet hclosed hopening hstreams hrun] at hi
      cases hi
  refine ⟨?_, hnever⟩
  constructor
  · intro hstops
    exact (hnever .lease).mp (hstops .lease)
  · intro hquiet work
    exact (hnever work).mpr hquiet

/-- A subscription on a stream of one shard whose coordinator has not begun its first pass. -/
theorem shutdown_stops_iff_held : ∃ c : Connection Nat, c.closed = true ∧ c.streams.length = 1 ∧
    ¬ c.Stops := by
  obtain ⟨c, hexec, hclosed, hlength⟩ : ∃ c, exec Connection.step { owner := 0 }
      [.subscribe, .spawn [({}, {})], .shutdown] = some c ∧ c.closed = true ∧
      c.streams.length = 1 :=
    ⟨_, rfl, rfl, rfl⟩
  refine ⟨c, hclosed, hlength, ?_⟩
  intro hstops
  have hnone :=
    ((shutdown_stops_iff ⟨0, Run.of_exec (fun _ _ => trivial) hexec⟩ hclosed).1.mp hstops).1
  rw [hnone] at hlength
  cases hlength

/-- A reader that has its iterator at the shutdown asks for records after it. -/
theorem shutdown_reads_on : ¬ ∀ c : Connection Nat, c.Reached → c.closed = true → c.Stops := by
  intro h
  obtain ⟨c, c', w, hexec, hclosed, hafter, hw, hstep⟩ : ∃ c c' w,
      exec Connection.step { owner := 0 }
        [.subscribe, .spawn [({}, {})], .stream 0 (.coordinator (.list true)),
          .stream 0 (.coordinator .visit), .stream 0 (.coordinator .visit),
          .stream 0 (.coordinator (.row true)), .stream 0 (.coordinator (.acquire true 0)),
          .stream 0 (.sub 0 (.reader (.readRow true))),
          .stream 0 (.sub 0 (.reader (.openIterator .iterator))), .shutdown] = some c ∧
      c.closed = true ∧
      exec Connection.step c
        [.stream 0 (.sub 0 (.reader .checkClosed)), .stream 0 (.sub 0 (.reader .drained)),
          .stream 0 (.sub 0 (.reader .notDue))] = some c' ∧
      c'.streams[0]? = some w ∧
      (c'.step (.stream 0 (.sub 0 (.reader .stamp)))).isSome :=
    ⟨_, _, _, rfl, rfl, rfl, rfl, rfl⟩
  refine h c ⟨0, Run.of_exec (fun _ _ => trivial) hexec⟩ hclosed .read c' 0 w _
    (Run.of_exec (fun _ _ => trivial) hafter) hw hstep .read

end RuststreamKinesis
