import RuststreamKinesis.Order
import RuststreamKinesis.Succession

/-!
# Lines of descent

The records of a partition key are in one shard at a time, and once this one is split or merged
they go to a child of it: to the shards of a line of descent, one after the other. Along such a line
`Succession` is taken from a parent and its child to the whole of it. A shard that begins finds its
parent finished, hence begun, or skipped; and over a skipped shard the line is cut, unless all
before it is at rest.
-/

namespace RuststreamKinesis

set_option autoImplicit false

open Runs

namespace Subscription

variable {Owner : Type} [DecidableEq Owner] {u u' : Subscription} {owner : Owner} {shard : Shard}
variable {lease lease' : MemoryLease Owner} {a : SubAct}

/-- Before its first reader nothing is handed out of a shard. -/
structure Unbegun (u : Subscription) : Prop where
  seated : Seated u
  deliveries : u.gates = [] → u.deliveries = []

theorem Unbegun.no_reader (h : Unbegun u) (hnil : u.gates = []) : u.reader = none := by
  cases hr : u.reader with
  | none => rfl
  | some r =>
    have hlt := (h.seated r hr).2
    simp [hnil] at hlt

theorem Step.unbegun_before (hs : Step u owner shard lease a lease' u') (hnil : u'.gates = []) :
    u.gates = [] := by
  apply List.length_eq_zero_iff.mp
  have hzero := List.length_eq_zero_iff.mpr hnil
  rcases hs.gates_length with hlen | ⟨hlen, _⟩ <;> omega

theorem Unbegun.step (h : Unbegun u) (hs : Step u owner shard lease a lease' u') :
    Unbegun u' := by
  refine ⟨h.seated.step hs, ?_⟩
  intro hnil
  have hold := h.deliveries (hs.unbegun_before hnil)
  cases hs.books with
  | quiet _ hd =>
    have hlen := hd.length
    rw [hold] at hlen
    exact List.length_eq_zero_iff.mp hlen
  | fresh _ hd => exact hd.trans hold
  | handed hr =>
    rw [h.no_reader (hs.unbegun_before hnil)] at hr
    cases hr
  | settled hget =>
    rw [hold] at hget
    cases hget

/-- The checkpoint of a shard that has not begun stays what it was. -/
theorem Unbegun.row (h : Unbegun u) (hs : Step u owner shard lease a lease' u')
    (hnil : u.gates = []) : lease'.checkpoint = lease.checkpoint := by
  cases hs.row with
  | kept hc | taken hc => exact hc
  | opened hr | ended hr =>
    rw [h.no_reader hnil] at hr
    cases hr
  | written hd =>
    rw [h.deliveries hnil] at hd
    cases hd

theorem exists_at (u : Subscription) : ∃ cursor, u.At cursor := by
  cases hr : u.reader with
  | none => exact ⟨0, fun r _ h => by cases hr.symm.trans h⟩
  | some r =>
    cases hp : r.position with
    | none => exact ⟨0, .absent fun r' h => by cases hr.symm.trans h; exact hp⟩
    | some p =>
      refine ⟨p, ?_⟩
      intro r' q h hq
      obtain rfl := Option.some.inj (hr.symm.trans h)
      exact Option.some.inj (hq.symm.trans hp)

/-- What is handed out goes to the end of what was. -/
theorem step_sequences (h : u.step owner shard lease a = some (lease', u')) :
    u'.sequences = u.sequences ++ (u.shown shard a).flatMap Reader.handsOut := by
  obtain ⟨cursor, hat⟩ := u.exists_at
  exact (step_shown (t := ⟨shard.log, cursor⟩) hat rfl h).2.1

end Subscription

namespace Stream

open Subscription

variable {Owner : Type} [DecidableEq Owner] {owner : Owner} {w w' w₀ : Stream Owner}
variable {act : StreamAct} {as : List StreamAct} {j k p q : Nat} {a : SubAct} {path : List Nat}

/-- What a step hands out, each record by its shard and its sequence number. -/
def handsOut (w : Stream Owner) : StreamAct → List (Nat × Nat)
  | .sub k a => (((w.sub k).shown (w.node k).shard a).flatMap Reader.handsOut).map fun n => (k, n)
  | _ => []

/-- What was handed out of a shard. -/
def handed (w : Stream Owner) (k : Nat) : List (Nat × Nat) :=
  (w.sub k).sequences.map fun n => (k, n)

theorem handed_step (hw : step owner w act = some w') (k : Nat) :
    w'.handed k = w.handed k ++ (w.handsOut act).filter fun e => e.1 == k := by
  cases act with
  | sub j a =>
    simp only [step, Option.ite_none_right_eq_some] at hw
    obtain ⟨v, hv, rfl⟩ := Option.map_eq_some_iff.mp hw.2
    obtain ⟨⟨lease, u⟩, hu, rfl⟩ := Option.map_eq_some_iff.mp hv
    by_cases he : j = k
    · subst he
      simp [handed, handsOut, setSub, step_sequences hu, List.filter_map, Function.comp_def]
    · simp [handed, handsOut, setSub, Function.update_of_ne (Ne.symm he), List.filter_map,
        Function.comp_def, he]
  | _ =>
    have hsame : (w'.sub k).sequences = (w.sub k).sequences := by
      rcases (step_cases hw).at k with ⟨hsub, -⟩ | ⟨a, hdoes, hs⟩
      · rw [hsub]
      · have hact : ∀ b, a ≠ .reader b := by
          intro b hb
          subst hb
          cases hdoes
        exact (hs.unhanded hact).1
    simp [handed, handsOut, hsame]

/-- All that was handed out of the shard has settled, and there is no more of it. -/
def restful (w : Stream Owner) (k : Nat) : Bool :=
  (w.node k).shard.closed && atRest (w.node k).shard (w.sub k)

/-- What `inOrder` asks of a shard that counts as skipped, asked of a shard `j` that comes before
it: it is at rest, and from then on its readers stay at its end. -/
def keepsBefore (w : Stream Owner) (act : StreamAct) (j q : Nat) : Bool :=
  match act with
  | .coordinator (.row true) =>
    match w.pass with
    | .gating k (p :: _) _ _ =>
      p != q || (w.lease p).checkpoint.isSome || !startsAtTip (w.sub k).installed ||
        (w.known.all fun s => s.id != p || !s.closed) || w.restful j
    | _ => true
  | .sub k a => k != j || !w.skipped q || staysAtEnd (w.node j).shard (w.sub j) a
  | _ => true

/-- A step in order, all along the line. -/
def keepsLine (path : List Nat) (w : Stream Owner) (act : StreamAct) : Bool :=
  inOrder w act && decide (path.Pairwise fun j q => w.keepsBefore act j q = true)

omit [DecidableEq Owner] in
theorem does_keepsBefore (h : Does w act j a) (hok : w.keepsBefore act j q = true)
    (hq : w.skipped q = true) : staysAtEnd (w.node j).shard (w.sub j) a = true := by
  cases h with
  | own => simpa [keepsBefore, hq] using hok
  | _ => rfl

/-- A shard is at rest as long as a later one of the line counts as skipped. -/
theorem quiet_before (hs : Step owner w act w')
    (hquiet : w.skipped q = true → Quiet (w.node j).shard (w.sub j))
    (hok : w.keepsBefore act j q = true) (hq : w'.skipped q = true) :
    Quiet (w'.node j).shard (w'.sub j) := by
  refine Quiet.grows ?_ (hs.evolves.grows j)
  rcases hs.skips hq with hq | ⟨k, rest, outcome, todo, s, rfl, hpass, hmem, rfl, hclosed, htip,
    hnone⟩
  · rcases hs.at j with ⟨hsub, -⟩ | ⟨a, hdoes, h'⟩
    · rw [hsub]
      exact hquiet hq
    · exact (hquiet hq).step h' (does_keepsBefore hdoes hok hq)
  · have hrest : w.restful j = true := by
      simp only [keepsBefore, hpass, hnone, htip, bne_self_eq_false, Option.isSome_none,
        Bool.not_true, Bool.false_or, Bool.or_eq_true, List.all_eq_true, bne_iff_ne,
        Bool.not_eq_true'] at hok
      apply hok.resolve_left
      intro hopen
      rcases hopen s hmem with hne | hopen
      · exact hne rfl
      · cases hclosed.symm.trans hopen
    obtain ⟨hshut, hrest⟩ := Bool.and_eq_true_iff.mp hrest
    obtain ⟨hsettled, hend⟩ := atRest_iff.mp hrest
    rcases hs.at j with ⟨hsub, -⟩ | ⟨a, hdoes, -⟩
    · rw [hsub]
      exact ⟨hshut, hsettled, hend⟩
    · cases hdoes

/-- Of the line no shard is marked finished before one it descends from is. -/
def MarksInLine (path : List Nat) (w : Stream Owner) : Prop :=
  path.Pairwise fun j q =>
    (w.lease q).checkpoint = some .shardEnd → (w.lease j).checkpoint = some .shardEnd

/-- What holds of a line of shards in a run whose steps keep to it. The marks that were there from
the start are those of shards that have not begun. -/
structure Line (path : List Nat) (w : Stream Owner) : Prop where
  ordered : Ordered w
  unbegun : ∀ k, Unbegun (w.sub k)
  marked : path.Pairwise fun j q => (w.sub q).gates = [] →
    (w.lease q).checkpoint = some .shardEnd → (w.lease j).checkpoint = some .shardEnd
  skipped : path.Pairwise fun j q => w.skipped q = true → Quiet (w.node j).shard (w.sub j)

omit [DecidableEq Owner] in
theorem Line.fresh (h : Fresh w) (hclosed : w.MarksClosed) (hline : w.MarksInLine path) :
    Line path w where
  ordered := .fresh h hclosed
  unbegun k := by
    rw [h.sub k]
    exact ⟨Sound.init.seated, fun _ => rfl⟩
  marked := by
    apply List.Pairwise.imp ?_ hline
    intro j q hmarks _
    exact hmarks
  skipped := by
    apply List.pairwise_of_forall
    intro j q hq
    cases (h.skipped q).symm.trans hq

theorem Line.step (h : Line path w) (hs : Step owner w act w')
    (hok : keepsLine path w act = true) : Line path w' where
  ordered := h.ordered.step hs (Bool.and_eq_true_iff.mp hok).1
  unbegun k := by
    rcases hs.at k with ⟨hsub, -⟩ | ⟨a, -, h'⟩
    · rw [hsub]
      exact h.unbegun k
    · exact (h.unbegun k).step h'
  marked := by
    apply h.marked.imp
    intro j q hmarks hnil hend
    have hold : (w.sub q).gates = [] ∧ (w.lease q).checkpoint = some .shardEnd := by
      rcases hs.at q with ⟨hsub, hlease⟩ | ⟨a, -, h'⟩
      · rw [hsub] at hnil
        rw [hlease] at hend
        exact ⟨hnil, hend⟩
      · have hnil' := h'.unbegun_before hnil
        exact ⟨hnil', ((h.unbegun q).row h' hnil').symm.trans hend⟩
    exact h.ordered.marked_step (hmarks hold.1 hold.2) hs
  skipped := by
    have hkeeps := of_decide_eq_true (Bool.and_eq_true_iff.mp hok).2
    apply (h.skipped.and hkeeps).imp
    intro j q hpair
    exact quiet_before hs hpair.1 hpair.2

/-- Each shard of the line that has begun descends from the one before it, which is still listed. -/
def Descends (path : List Nat) (w : Stream Owner) : Prop :=
  path.IsChain fun p q => (w.sub q).gates ≠ [] →
    p ∈ (w.node q).parents ∧ (w.node p).listed = true

theorem Line.descends_before (h : Line path w) (hs : Step owner w act w')
    (hdesc : Descends path w') : Descends path w := by
  apply hdesc.imp
  intro p q hparent hbegun
  have hbegun' : (w'.sub q).gates ≠ [] := by
    rcases hs.at q with ⟨hsub, -⟩ | ⟨a, -, h'⟩
    · rw [hsub]
      exact hbegun
    · intro hnil
      exact hbegun (h'.unbegun_before hnil)
  obtain ⟨hp, hl⟩ := hparent hbegun'
  rw [hs.evolves.parents q (h.ordered.within q hbegun)] at hp
  exact ⟨hp, hs.evolves.listed p hl⟩

omit [DecidableEq Owner] in
/-- Once a shard of the line has begun, all before it is at rest. -/
theorem Line.begun (h : Line path w) (hdesc : Descends path w) :
    path.Pairwise fun p q => (w.sub q).gates ≠ [] → Quiet (w.node p).shard (w.sub p) := by
  apply List.pairwise_iff_getElem.mpr
  intro i j hi hj hlt hbegun
  -- Along the line from `i` on: the shard before `j` was passed when `j` began.
  induction j with
  | zero => omega
  | succ j ih =>
    obtain ⟨hp, hl⟩ := List.isChain_iff_getElem.mp hdesc j hj hbegun
    have hpassed := h.ordered.begun _ hbegun _ hp hl
    rcases Nat.lt_succ_iff_lt_or_eq.mp hlt with hlt | rfl
    · rcases hpassed with hend | hskip
      · by_cases hnil : (w.sub path[j]).gates = []
        · have hmarks := List.pairwise_iff_getElem.mp h.marked i j hi (by omega) hlt hnil hend
          exact h.ordered.passed_quiet (.inl hmarks)
        · exact ih (by omega) hlt hnil
      · exact List.pairwise_iff_getElem.mp h.skipped i j hi (by omega) hlt hskip
    · exact h.ordered.passed_quiet hpassed

omit [DecidableEq Owner] in
theorem Line.handed_nil (h : Line path w) (hnil : (w.sub k).gates = []) : w.handed k = [] := by
  rw [handed, sequences, (h.unbegun k).deliveries hnil]
  rfl

/-- A shard at rest hands nothing out, nor does one that has not begun. -/
theorem Line.hands (h : Line path w) (hw : Stream.step owner w (.sub j a) = some w')
    (hne : w.handsOut (.sub j a) ≠ []) :
    (w.sub j).gates ≠ [] ∧ ¬ Quiet (w.node j).shard (w.sub j) := by
  have hall : (w.handsOut (.sub j a)).filter (fun e => e.1 == j) = w.handsOut (.sub j a) := by
    simp [handsOut, List.filter_map, Function.comp_def]
  constructor
  · intro hnil
    apply hne
    have hr := (h.unbegun j).no_reader hnil
    cases a with
    | reader act => simp [handsOut, Subscription.shown, hr]
    | _ => rfl
  · intro hquiet
    have hmore := Stream.handed_step hw j
    rw [hall] at hmore
    rcases (step_cases hw).at j with ⟨hsub, -⟩ | ⟨b, -, h'⟩
    · rw [handed, handed, hsub] at hmore
      exact hne (List.self_eq_append_right.mp hmore)
    · have hlen := congrArg List.length hmore
      have hsame := (hquiet.deliveries h').1
      simp only [handed, sequences, List.length_map, List.length_append] at hlen
      apply hne
      apply List.length_eq_zero_iff.mp
      omega

theorem Line.handed_step (h : Line path w) (hdesc : Descends path w)
    (hw : Stream.step owner w act = some w') :
    path.flatMap w'.handed =
      path.flatMap w.handed ++ (w.handsOut act).filter fun e => e.1 ∈ path := by
  have hmore := Stream.handed_step hw
  by_cases hne : w.handsOut act = []
  · rw [hne, List.filter_nil, List.append_nil]
    apply List.flatMap_congr
    intro k _
    rw [hmore k, hne, List.filter_nil, List.append_nil]
  · cases act with
    | sub j a =>
      have hfst : ∀ e ∈ w.handsOut (.sub j a), e.1 = j := by
        intro e he
        obtain ⟨n, -, rfl⟩ := List.mem_map.mp he
        rfl
      have hother : ∀ k, k ≠ j → w'.handed k = w.handed k := by
        intro k hk
        rw [hmore k, List.filter_eq_nil_iff.mpr, List.append_nil]
        intro e he
        simp [hfst e he, Ne.symm hk]
      by_cases hj : j ∈ path
      · obtain ⟨before, after, rfl⟩ := List.append_of_mem hj
        obtain ⟨hbegun, hquiet⟩ := h.hands hw hne
        have hpairs := h.begun hdesc
        obtain ⟨-, hafter, hbefore⟩ := List.pairwise_append.mp hpairs
        have hearlier : ∀ k ∈ before, w'.handed k = w.handed k := by
          intro k hk
          apply hother
          rintro rfl
          exact hquiet (hbefore k hk k List.mem_cons_self hbegun)
        have hlater : ∀ k ∈ after, w.handed k = [] ∧ w'.handed k = [] := by
          intro k hk
          have hnil : (w.sub k).gates = [] := by
            by_contra hk'
            exact hquiet ((List.pairwise_cons.mp hafter).1 k hk hk')
          have hkj : k ≠ j := by
            rintro rfl
            exact hbegun hnil
          exact ⟨h.handed_nil hnil, (hother k hkj).trans (h.handed_nil hnil)⟩
        have hjs : w'.handed j = w.handed j ++ w.handsOut (.sub j a) := by
          rw [hmore j, List.filter_eq_self.mpr]
          intro e he
          simp [hfst e he]
        have hin : (w.handsOut (.sub j a)).filter (fun e => e.1 ∈ before ++ j :: after) =
            w.handsOut (.sub j a) := by
          apply List.filter_eq_self.mpr
          intro e he
          simp [hfst e he]
        have hnone : after.flatMap w.handed = [] :=
          List.flatMap_eq_nil_iff.mpr fun k hk => (hlater k hk).1
        have hnone' : after.flatMap w'.handed = [] :=
          List.flatMap_eq_nil_iff.mpr fun k hk => (hlater k hk).2
        rw [hin, List.flatMap_append, List.flatMap_append, List.flatMap_cons, List.flatMap_cons,
          hnone, hnone', List.append_nil, List.append_nil, List.flatMap_congr hearlier, hjs,
          List.append_assoc]
      · rw [List.filter_eq_nil_iff.mpr, List.append_nil]
        · apply List.flatMap_congr
          intro k hk
          apply hother
          rintro rfl
          exact hj hk
        · intro e he
          simp [hfst e he, hj]
    | _ => exact absurd rfl hne

/-- What was handed out of the line so far, `out` being all that was handed out. -/
structure Descended (path : List Nat) (w : Stream Owner) (out : List (Nat × Nat)) : Prop where
  line : Line path w
  handed : Descends path w → out.filter (fun e => e.1 ∈ path) = path.flatMap w.handed

omit [DecidableEq Owner] in
theorem Descended.fresh (h : Fresh w) (hclosed : w.MarksClosed) (hline : w.MarksInLine path) :
    Descended path w [] where
  line := .fresh h hclosed hline
  handed _ := by
    symm
    apply List.flatMap_eq_nil_iff.mpr
    intro k _
    rw [Stream.handed, h.sub k]
    rfl

theorem Descended.step {out : List (Nat × Nat)} (h : Descended path w out)
    (hok : keepsLine path w act = true) (hw : Stream.step owner w act = some w') :
    Descended path w' (out ++ w.handsOut act) where
  line := h.line.step (step_cases hw) hok
  handed := by
    intro hdesc
    have hdesc := h.line.descends_before (step_cases hw) hdesc
    rw [List.filter_append, h.handed hdesc, h.line.handed_step hdesc hw]

/-- Along a line of descent whose shards are all still listed, a subscription hands out all it hands
out of a shard before it hands out anything of the next one, over any number of splits and merges:
so the records of a partition key come out shard by shard as they were written. What an earlier
subscription left marked finished is closed, and marked along the line from its beginning. -/
theorem descent_in_order (hfresh : Fresh w₀) (hclosed : w₀.MarksClosed)
    (hline : w₀.MarksInLine path)
    (hrun : check (step owner) (keepsLine path) w₀ as = some w)
    (hchain : path.IsChain fun p q => p ∈ (w.node q).parents)
    (hlisted : ∀ p ∈ path, (w.node p).listed = true) :
    (labels (step owner) handsOut w₀ as).filter (fun e => e.1 ∈ path) =
      path.flatMap w.handed := by
  have hstart : Descended path w₀ [] := .fresh hfresh hclosed hline
  have hend := check_labels (fun _ _ _ _ h hok hw => h.step hok hw) hrun hstart
  apply hend.handed
  apply List.isChain_iff_getElem.mpr
  intro i hi _
  refine ⟨List.isChain_iff_getElem.mp hchain i hi, ?_⟩
  apply hlisted
  exact List.getElem_mem _

/-- The shard is split and read to its end, and then a record of its child is handed out. -/
theorem descent_in_order_split : ∃ w : Stream Nat,
    check (step 0) (keepsLine [0, 1]) single (openingSingle ++ splitting ++ finishing ++
      visitingAfter ++ readingChild ++ [.sub 1 (.reader .handOut)]) = some w ∧
    (labels (step 0) handsOut single (openingSingle ++ splitting ++ finishing ++
      visitingAfter ++ readingChild ++ [.sub 1 (.reader .handOut)])).filter
        (fun e => e.1 ∈ [0, 1]) = [(0, 0), (1, 0)] := by
  obtain ⟨w, hw, hparents, hlisted, hhanded⟩ : ∃ w : Stream Nat,
      check (step 0) (keepsLine [0, 1]) single (openingSingle ++ splitting ++ finishing ++
        visitingAfter ++ readingChild ++ [.sub 1 (.reader .handOut)]) = some w ∧
      (w.node 1).parents = [0] ∧ (∀ p ∈ [0, 1], (w.node p).listed = true) ∧
      [0, 1].flatMap w.handed = [(0, 0), (1, 0)] := ⟨_, rfl, rfl, by decide, rfl⟩
  refine ⟨w, hw, ?_⟩
  rw [← hhanded]
  apply descent_in_order single_fresh single_marksClosed ?_ hw
  · simp [hparents]
  · exact hlisted
  · exact .cons (fun _ _ hend => hend) (List.pairwise_singleton _ _)

end Stream

end RuststreamKinesis
