import RuststreamKinesis.Passes

/-!
# Where a child shard opens

A shard that was split or merged is read on in its children from their beginning. The coordinator
tells so by the row of the parent: a parent that is closed and has no checkpoint counts as skipped,
and its child opens at the tip, whether or not the subscription reads the parent.
-/

namespace RuststreamKinesis

set_option autoImplicit false

open Runs

namespace Subscription

variable {Owner : Type} [DecidableEq Owner] {u u' : Subscription} {owner : Owner} {shard : Shard}
variable {lease lease' : MemoryLease Owner} {r r' : Reader} {act : ReaderAct} {a : SubAct}
variable {l : Lineage}

theorem ReaderStep.same_lineage (h : ReaderStep u owner shard lease r act lease' u')
    (hr' : u'.reader = some r') : r'.lineage = r.lineage := by
  cases h <;> obtain rfl := Option.some.inj hr' <;> rfl

theorem ReaderStep.unpositioned (h : ReaderStep u owner shard lease r act lease' u')
    (hr' : u'.reader = some r') (hp : r'.positioned = false) :
    r.positioned = false ∧ r'.reading = r.reading := by
  cases h with
  | @rowCheckpoint again | @rowBlank again =>
    rename_i hpc _
    obtain rfl := Option.some.inj hr'
    cases again with
    | true => simp [Reader.positioned] at hp
    | false => exact ⟨by simp [Reader.positioned, hpc], rfl⟩
  | @sought call idle | @seekFailed call idle =>
    obtain rfl := Option.some.inj hr'
    cases idle <;> cases hp
  | @batchDone epoch stop idle =>
    obtain rfl := Option.some.inj hr'
    cases idle <;> cases hp
  | recorded hpc =>
    obtain rfl := Option.some.inj hr'
    simp [Reader.positioned, hpc] at hp
  | _ =>
    obtain rfl := Option.some.inj hr'
    simp [Reader.positioned] at hp

/-- Before the first reader no place is kept for one. -/
structure Untouched (u : Subscription) : Prop where
  seated : Seated u
  rewind : u.gates = [] → u.rewind = none

theorem Untouched.init : Untouched {} where
  seated := Sound.init.seated
  rewind _ := rfl

theorem Untouched.step (h : Untouched u) (hs : Step u owner shard lease a lease' u') :
    Untouched u' := by
  refine ⟨h.seated.step hs, ?_⟩
  have hreader : ∀ r, u.reader = some r → u.gates ≠ [] := by
    intro r hr hnil
    have hlt := (h.seated r hr).2
    simp [hnil] at hlt
  intro hnil
  cases hs with
  | reader hr hs =>
    obtain ⟨r', hr'⟩ := hs.reader_isSome
    rw [(hs.seat hr').2.1] at hnil
    exact absurd hnil (hreader _ hr)
  | forgot hr => exact absurd hnil (hreader _ hr)
  | acquired => simp [spawn] at hnil
  | bump _ _ hg =>
    have hlt := Cells.get_lt hg
    have hnil' : u.gates = [] := by simpa using hnil
    simp [hnil'] at hlt
  | _ => exact h.rewind hnil

/-- While the first reader is there, it goes by its lineage. -/
structure First (l : Lineage) (u : Subscription) : Prop where
  begun : u.gates ≠ []
  installed : u.installed = none
  reader : ∀ r, u.gates.length = 1 → u.reader = some r →
    r.lineage = l ∧ (r.positioned = false → r.reading.rewind = none)
  asked : ∀ r start, u.gates.length = 1 → u.reader = some r →
    r.pc = .fetching start false false → start = reopenAt none none none l none

theorem Step.same_installed (hs : Step u owner shard lease a lease' u')
    (ha : ∀ start, a ≠ .install start) : u'.installed = u.installed := by
  cases hs with
  | install => exact absurd rfl (ha _)
  | reader _ hs => cases hs <;> rfl
  | _ => rfl

theorem Step.gates_length (hs : Step u owner shard lease a lease' u') :
    u'.gates.length = u.gates.length ∨ (u'.gates.length = u.gates.length + 1 ∧
      ∃ l, u' = u.spawn l ∧ u.reader = none) := by
  cases hs with
  | reader hr hs =>
    obtain ⟨r', hr'⟩ := hs.reader_isSome
    exact .inl (congrArg _ (hs.seat hr').2.1)
  | acquired hr => exact .inr ⟨by simp [spawn], _, rfl, hr⟩
  | bump => exact .inl (by simp)
  | _ => exact .inl rfl

theorem First.step (h : First l u) (hs : Step u owner shard lease a lease' u')
    (ha : ∀ start, a ≠ .install start) : First l u' := by
  have hpos : 0 < u.gates.length := List.length_pos_iff.mpr h.begun
  have hlen : u'.gates.length = 1 → u.gates.length = 1 ∧ ∀ l, u' ≠ u.spawn l := by
    intro hone
    rcases hs.gates_length with he | ⟨he, _⟩
    · refine ⟨he ▸ hone, ?_⟩
      rintro l rfl
      simp [spawn] at he
    · omega
  refine ⟨?_, (hs.same_installed ha).trans h.installed, ?_, ?_⟩
  · apply List.length_pos_iff.mp
    rcases hs.gates_length with he | ⟨he, _⟩ <;> omega
  · intro r' hone hr'
    obtain ⟨hfirst, hspawn⟩ := hlen hone
    cases hs with
    | reader hr hs =>
      obtain ⟨hl, hrew⟩ := h.reader _ hfirst hr
      refine ⟨(hs.same_lineage hr').trans hl, ?_⟩
      intro hp
      obtain ⟨hp, hreading⟩ := hs.unpositioned hr' hp
      exact hreading ▸ hrew hp
    | forgot => cases hr'
    | acquired => exact absurd rfl (hspawn _)
    | @sent _ _ r _ _ hr =>
      obtain rfl := Option.some.inj hr'
      exact h.reader r hfirst hr
    | _ => exact h.reader r' hfirst hr'
  · intro r' start hone hr' hpc'
    obtain ⟨hfirst, _⟩ := hlen hone
    obtain ⟨r, hr, hask⟩ := hs.asked hr' hpc'
    cases hask with
    | stays hpc => exact h.asked r start hfirst hr hpc
    | checkpoint _ _ _ _ _ _ _ hrec => cases hrec
    | blank _ hpc _ _ _ _ hstart hrec =>
      obtain ⟨hl, hrew⟩ := h.reader r hfirst hr
      have ho : lease.openedAt = none := by simpa using hrec.symm
      rw [hstart, ho, hrew (by simp [Reader.positioned, hpc]), hl, h.installed]

theorem Untouched.first {now : Nat} (h : Untouched u) (hnil : u.gates = [])
    (hinstalled : u.installed = none) (hs : Step u owner shard lease (.acquire l now) lease' u')
    (hone : u'.gates.length = 1) : First l u' := by
  cases hs with
  | acquired =>
    refine ⟨by simp [spawn], hinstalled, ?_, ?_⟩
    · intro r _ hr
      obtain rfl := Option.some.inj hr
      exact ⟨rfl, fun _ => h.rewind hnil⟩
    · intro r start _ hr hpc
      obtain rfl := Option.some.inj hr
      cases hpc
  | notAcquired => simp [hnil] at hone

end Subscription

namespace Stream

open Subscription

variable {Owner : Type} [DecidableEq Owner] {owner : Owner} {w w' : Stream Owner}
variable {act : StreamAct} {k p : Nat}

def seekless : StreamAct → Bool
  | .seek _ => false
  | _ => true

/-- When the row of a closed parent is read that this subscription opened while it was open for
writes, it has a checkpoint. -/
def consults (w : Stream Owner) : StreamAct → Bool
  | .coordinator (.row true) =>
    match w.pass with
    | .gating _ (p :: _) _ _ =>
      (w.lease p).checkpoint.isSome || !w.tailed p || w.known.all fun s => s.id != p || !s.closed
    | _ => true
  | _ => true

/-- What lets a shard start: a parent was consumed, or the parent was closed before this
subscription could open it. -/
def Resolved (w : Stream Owner) (lineage : Lineage) (p : Nat) : Prop :=
  lineage = .continues ∨ ((w.node p).shard.closed = true ∧ w.tailed p = false)

theorem Step.tailed (h : Step owner w act w') (hc : (w.node p).shard.closed = true) :
    w'.tailed p = w.tailed p := by
  cases h with
  | coordinator h => cases h <;> rfl
  | advance _ h => cases h <;> rfl
  | @sub k a =>
    simp only [noting]
    split
    · by_cases he : p = k
      · subst he
        simp [mark, hc]
      · simp [mark, he]
    · rfl
    · rfl
  | _ => rfl

theorem Resolved.step {lineage : Lineage} (h : Resolved w lineage p) (hs : Step owner w act w') :
    Resolved w' lineage p := by
  refine h.imp_right ?_
  rintro ⟨hc, ht⟩
  exact ⟨((hs.evolves.grows p).closed hc).1, (hs.tailed hc).trans ht⟩

omit [DecidableEq Owner] in
theorem Resolved.row {rest : List Nat} {outcome : Parents} {todo : List Listed} {s : Listed}
    {installed : Option StreamStart} {lineage : Lineage} (hchart : Charted w)
    (hpass : w.pass = .gating k (s.id :: rest) outcome todo) (hs : s ∈ w.known)
    (hl : (outcome.afterRow s.closed installed (w.lease s.id).checkpoint).lineage = some lineage)
    (hok : consults w (.coordinator (.row true)) = true) :
    Resolved w lineage s.id ∧ ∀ before p, outcome.lineage = some before →
      Resolved w before p → Resolved w lineage p := by
  cases hck : (w.lease s.id).checkpoint with
  | none =>
    rw [hck] at hl
    simp only [Parents.afterRow] at hl
    split at hl
    · rename_i htip
      have hclosed : s.closed = true := (Bool.and_eq_true_iff.mp htip).1
      refine ⟨.inr ⟨hchart.closed s hs hclosed, ?_⟩, ?_⟩
      · simp only [consults, hpass, hck, Option.isSome_none, Bool.false_or, Bool.or_eq_true,
          Bool.not_eq_true', List.all_eq_true, bne_iff_ne] at hok
        rcases hok with hok | hok
        · exact hok
        · rcases hok s hs with hne | hopen
          · exact absurd rfl hne
          · exact absurd (hclosed.symm.trans hopen) (by simp)
      · intro before p hbefore hfound
        obtain rfl : before = lineage := Option.some.inj (hbefore.symm.trans hl)
        exact hfound
    · cases hl
  | some c =>
    rw [hck] at hl
    cases c with
    | shardEnd =>
      obtain rfl : .continues = lineage := Option.some.inj hl
      exact ⟨.inl rfl, fun _ _ _ _ => .inl rfl⟩
    | sequence => cases hl

/-- What a pass keeps in order for a child to continue its parents. -/
structure Continuing (w : Stream Owner) : Prop where
  charted : Charted w
  examined : Examined Resolved w
  untouched : ∀ k, Untouched (w.sub k)
  installed : ∀ k, (w.sub k).installed = none

omit [DecidableEq Owner] in
theorem Continuing.fresh (h : Fresh w) : Continuing w where
  charted := .fresh h
  examined k rest lineage hex := by
    rw [h.pass] at hex
    cases hex
  untouched k := h.sub k ▸ .init
  installed k := by rw [h.sub k]

theorem Continuing.step (h : Continuing w) (hs : Step owner w act w') (hseek : seekless act = true)
    (hok : consults w act = true) : Continuing w' where
  charted := h.charted.step hs
  examined := by
    refine h.examined.step h.charted hs (fun _ _ hf => hf.step hs) ?_
    intro k s rest outcome todo installed lineage hact hpass hmem hl _
    subst hact
    obtain ⟨hself, hothers⟩ := Resolved.row h.charted hpass hmem hl hok
    exact ⟨hself.step hs, hothers⟩
  untouched k :=
    hs.keeps (I := fun _ => Untouched) (h.untouched k) (fun _ _ _ h _ => h)
      fun _ _ h' => (h.untouched k).step h'
  installed k := by
    refine hs.keeps (I := fun _ u => u.installed = none) (h.installed k) (fun _ _ _ h _ => h) ?_
    intro a hdoes h'
    refine (h'.same_installed ?_).trans (h.installed k)
    rintro start rfl
    cases hdoes with
    | own hown => cases hown
    | install => cases hseek

omit [DecidableEq Owner] in
theorem does_install {start : StreamStart} (h : Does w act k (.install start)) :
    seekless act = false := by
  cases h with
  | own hown => cases hown
  | install => rfl

/-- The steps of a run without a seek in which no parent that is being read counts as skipped. -/
def descends (w : Stream Owner) (act : StreamAct) : Bool := seekless act && consults w act

theorem Continuing.first {w₁ : Stream Owner} {now : Nat} (h : Continuing w)
    (hp : p ∈ (w.node k).parents) (hlisted : (w.node p).listed = true)
    (hopened : w.tailed p = true) (hnone : (w.sub k).gates = [])
    (hs : Step owner w (.coordinator (.acquire true now)) w₁)
    (hfirst : (w₁.sub k).gates.length = 1) : First .continues (w₁.sub k) := by
  rcases hs.at k with ⟨hsub, _⟩ | ⟨a, hdoes, h'⟩
  · rw [hsub, hnone] at hfirst
    cases hfirst
  · cases hdoes with
    | @acquire _ _ lineage todo hpass =>
      have hex : w.pass.examining = some (k, [], some lineage) := by rw [hpass]; rfl
      have hfound : Resolved w lineage p := h.examined k [] lineage hex p hp hlisted (by simp)
      have hl : lineage = .continues := by
        rcases hfound with hl | ⟨_, ht⟩
        · exact hl
        · exact absurd (hopened.symm.trans ht) (by simp)
      subst hl
      exact (h.untouched k).first hnone (h.installed k) h' hfirst

/-- The first cursor of the first reader of a child is the child's beginning, if a listed parent
was opened while it was open for writes and no such parent without a checkpoint counts as
skipped. -/
theorem child_opens_at_horizon {w₀ w w₁ w₂ : Stream Owner} {now : Nat} {r : Reader}
    {start : ShardStart} (hfresh : Fresh w₀)
    (hrun : Run (step owner) (fun w act => descends w act = true) w₀ w)
    (hp : p ∈ (w.node k).parents) (hlisted : (w.node p).listed = true)
    (hopened : w.tailed p = true) (hnone : (w.sub k).gates = [])
    (hstart : step owner w (.coordinator (.acquire true now)) = some w₁)
    (hfirst : (w₁.sub k).gates.length = 1)
    (hrest : Run (step owner) (fun w act => descends w act = true) w₁ w₂)
    (hone : (w₂.sub k).gates.length = 1) (hr : (w₂.sub k).reader = some r)
    (hpc : r.pc = .fetching start false false) : start = .stream .horizon := by
  have horderly : Continuing w := by
    refine hrun.invariant ?_ (.fresh hfresh)
    intro w act w' h hok hs
    obtain ⟨hseek, hok⟩ := Bool.and_eq_true_iff.mp hok
    exact h.step (step_cases hs) hseek hok
  have hbegun := horderly.first hp hlisted hopened hnone (step_cases hstart) hfirst
  have hlater : First .continues (w₂.sub k) := by
    refine hrest.invariant (I := fun w => First .continues (w.sub k)) ?_ hbegun
    intro w act w' h hok hs
    obtain ⟨hseek, _⟩ := Bool.and_eq_true_iff.mp hok
    refine (step_cases hs).keeps (I := fun _ => First .continues) h (fun _ _ _ h _ => h) ?_
    intro a hdoes h'
    refine h.step h' ?_
    rintro start rfl
    exact absurd (hseek.symm.trans (does_install hdoes)) (by simp)
  exact hlater.asked r start hone hr hpc

/-- A stream of one open shard without records. -/
def single : Stream Nat where
  count := 1
  node _ := {}
  lease _ := {}
  sub _ := {}

theorem single_fresh : Fresh single := by
  constructor <;> simp [single, Node.parents]

theorem single_marksClosed : single.MarksClosed := by
  intro k hend
  cases hend

/-- The subscription is opened on it. -/
def openingSingle : List StreamAct := [
  .coordinator (.list true), .coordinator .visit, .coordinator .visit, .coordinator (.row true),
  .coordinator (.acquire true 0), .sub 0 (.reader (.readRow true)),
  .sub 0 (.reader (.openIterator .iterator)), .coordinator .visit, .coordinator .positioned]

/-- After a record the shard is split in two, and a record is written to the first child. -/
def splitting : List StreamAct :=
  [.append 0 [1], .close 0, .reshard (some 0) none, .reshard (some 0) none, .append 1 [2]]

/-- A pass comes to acquire the first child while the parent is being read. -/
def visitingChild : List StreamAct := [
  .coordinator (.forget []), .coordinator (.list true), .coordinator .visit, .coordinator .visit,
  .coordinator (.row true), .coordinator .visit, .coordinator (.row true)]

/-- The parent is split before anything of it was read, and its child opens at the tip, past the
record it has. -/
theorem child_opens_at_tip : ∃ w w₁ w₂ : Stream Nat, ∃ r : Reader,
    check (step 0) (fun _ => seekless) single (openingSingle ++ splitting ++ visitingChild) =
      some w ∧
      0 ∈ (w.node 1).parents ∧ (w.node 0).listed = true ∧ w.tailed 0 = true ∧
      (w.sub 1).gates = [] ∧ step 0 w (.coordinator (.acquire true 0)) = some w₁ ∧
      (w₁.sub 1).gates.length = 1 ∧ step 0 w₁ (.sub 1 (.reader (.readRow true))) = some w₂ ∧
      (w₂.sub 1).reader = some r ∧ r.pc = .fetching (.stream .latest) false false ∧
      (w₂.node 1).shard.log.length = 1 := by
  have hrun : ((check (step 0) (fun _ => seekless) single
      (openingSingle ++ splitting ++ visitingChild)).bind fun w =>
        (step 0 w (.coordinator (.acquire true 0))).bind fun w₁ =>
          (step 0 w₁ (.sub 1 (.reader (.readRow true)))).bind fun w₂ =>
            (w₂.sub 1).reader.map fun r => (w.node 1).parents == [0] && (w.node 0).listed &&
              w.tailed 0 && (w.sub 1).gates == [] && (w₁.sub 1).gates == [0] &&
              r.pc == .fetching (.stream .latest) false false &&
              (w₂.node 1).shard.log.length == 1) = some true := by decide
  obtain ⟨w, hw, hrun⟩ := Option.bind_eq_some_iff.mp hrun
  obtain ⟨w₁, hw₁, hrun⟩ := Option.bind_eq_some_iff.mp hrun
  obtain ⟨w₂, hw₂, hrun⟩ := Option.bind_eq_some_iff.mp hrun
  obtain ⟨r, hr, hrun⟩ := Option.map_eq_some_iff.mp hrun
  simp only [Bool.and_eq_true, beq_iff_eq] at hrun
  obtain ⟨⟨⟨⟨⟨⟨hp, hlisted⟩, ht⟩, hnone⟩, hfirst⟩, hpc⟩, hlen⟩ := hrun
  exact ⟨w, w₁, w₂, r, hw, by simp [hp], hlisted, ht, hnone, hw₁, by simp [hfirst], hw₂, hr, hpc,
    hlen⟩

/-- The reader of a shard goes from the head of its loop to a first record it may hand out. -/
def reading (k : Nat) (last : Bool) : List StreamAct := [
  .sub k (.reader .checkClosed), .sub k (.reader .drained), .sub k (.reader .notDue),
  .sub k (.reader .stamp), .sub k (.reader (.getRecords 1 last)),
  .sub k (.reader (.recordOpening true))]

/-- The parent is read to its end, its record is acked and it is marked finished. -/
def finishing : List StreamAct := reading 0 true ++ [
  .sub 0 (.reader .handOut), .sub 0 (.reader .batchDone), .sub 0 .poll, .sub 0 (.ack 0),
  .sub 0 (.settle 0), .sub 0 (.write 0 true), .sub 0 (.reader (.markEnd true)),
  .sub 0 (.reader .release)]

/-- A pass comes to acquire the first child after the parent was finished. -/
def visitingAfter : List StreamAct := [
  .coordinator (.forget []), .coordinator (.list true), .coordinator .visit, .coordinator .visit,
  .coordinator (.row true), .coordinator .visit, .coordinator (.row true), .coordinator .visit,
  .coordinator (.row true)]

/-- The child of a parent that was read to its end. -/
theorem child_opens_at_horizon_split : ∃ w w₁ w₂ : Stream Nat, ∃ r : Reader, ∃ start,
    check (step 0) descends single (openingSingle ++ splitting ++ finishing ++ visitingAfter) =
      some w ∧ step 0 w (.coordinator (.acquire true 0)) = some w₁ ∧
      check (step 0) descends w₁ [.sub 1 (.reader (.readRow true))] = some w₂ ∧
      (w₂.sub 1).reader = some r ∧ r.pc = .fetching start false false ∧
      start = .stream .horizon := by
  have hrun : ((check (step 0) descends single
      (openingSingle ++ splitting ++ finishing ++ visitingAfter)).bind fun w =>
        (step 0 w (.coordinator (.acquire true 0))).bind fun w₁ =>
          (check (step 0) descends w₁ [.sub 1 (.reader (.readRow true))]).bind fun w₂ =>
            (w₂.sub 1).reader.map fun r => (w.node 1).parents == [0] && (w.node 0).listed &&
              w.tailed 0 && (w.sub 1).gates == [] && (w₁.sub 1).gates == [0] &&
              (w₂.sub 1).gates == [0] && r.pc == .fetching (.stream .horizon) false false) =
      some true := by decide
  obtain ⟨w, hw, hrun⟩ := Option.bind_eq_some_iff.mp hrun
  obtain ⟨w₁, hw₁, hrun⟩ := Option.bind_eq_some_iff.mp hrun
  obtain ⟨w₂, hw₂, hrun⟩ := Option.bind_eq_some_iff.mp hrun
  obtain ⟨r, hr, hrun⟩ := Option.map_eq_some_iff.mp hrun
  simp only [Bool.and_eq_true, beq_iff_eq] at hrun
  obtain ⟨⟨⟨⟨⟨⟨hp, hlisted⟩, ht⟩, hnone⟩, hfirst⟩, hone⟩, hpc⟩ := hrun
  exact ⟨w, w₁, w₂, r, _, hw, hw₁, hw₂, hr, hpc,
    child_opens_at_horizon single_fresh (.of_check hw) (by simp [hp]) hlisted ht hnone hw₁
      (by simp [hfirst]) (.of_check hw₂) (by simp [hone]) hr hpc⟩

end Stream

end RuststreamKinesis
