import RuststreamKinesis.System

/-!
# Readings without gaps

A reading is gapless from `b` on when every record from `b` up to where its reader stands is done
or waited for. `T` picks the trackers and `Q` the readings that are considered. A gapless reading
stays gapless; one that begins is gapless if all that lies before its start is done.
-/

namespace RuststreamKinesis

set_option autoImplicit false

open Window

namespace Subscription

variable {Owner : Type} [DecidableEq Owner] {u u' : Subscription} {owner : Owner} {shard : Shard}
variable {lease lease' : MemoryLease Owner} {a : SubAct} {n : Nat}
variable {T : Nat → Prop} {Q : Nat → Reading → Prop} {Done Done' : Nat → Prop} {b : Nat}

structure Gapless (T : Nat → Prop) (Q : Nat → Reading → Prop) (Done : Nat → Prop) (b : Nat)
    (u : Subscription) : Prop where
  tracked : Tracked T Done b u
  reached : ∀ r p, u.reader = some r → r.position = some p → Q r.tracker r.reading →
    Reached Done b u r.tracker p

theorem Gapless.mono (h : Gapless T Q Done b u) (hmono : ∀ n, Done n → Done' n) :
    Gapless T Q Done' b u where
  tracked := h.tracked.mono hmono
  reached r p hr hp hq := (h.reached r p hr hp hq).mono hmono

/-- The step lemma of readings. What is left to show is which readings are considered while a
batch is handed out, and that a reading begins where all before it is done. -/
theorem Gapless.step (h : Gapless T Q Done b u) (hsound : Sound u)
    (hs : Step u owner shard lease a lease' u') (hmono : ∀ n, Done n → Done' n)
    (hacked : ∀ d ∈ u'.deliveries, T d.tracker → d.phase.acked = true → Done' d.sequence)
    (hrefused : ∀ n, shard.Unreadable n → u'.refused = u.refused ++ [n] → Done' n)
    (hT : ∀ t reading, Q t reading → T t)
    (hhand : ∀ r epoch next stop last idle, u.reader = some r →
      r.pc = .forwarding epoch next stop last idle → r.reading.unrecorded = false →
      (T r.tracker → Q r.tracker r.reading) ∧
        (Q r.tracker (r.reading.noteFirst next) → Q r.tracker r.reading))
    (hrecorded : ∀ r epoch next stop last idle, u.reader = some r →
      r.pc = .forwarding epoch next stop last idle → r.reading.unrecorded = true →
      lease.owner = some owner →
      Q r.tracker { r.reading.noteFirst next with unrecorded := false } → Q r.tracker r.reading)
    (hopened : ∀ r start recorded again p, a = .reader (.openIterator .iterator) →
      u.reader = some r → r.pc = .fetching start recorded again →
      shard.getShardIterator (iteratorAt start) = some p →
      Q r.tracker { rewind := rewindTo start, unrecorded := !recorded } → Through Done' b p [])
    (hsought : ∀ r call idle c p, u.reader = some r → r.pc = .seeking call idle →
      u.calls[call]? = some c → shard.getShardIterator (iteratorAt c.start) = some p →
      Q u.trackers.length { rewind := rewindTo c.start, unrecorded := true } →
      Through Done' b p []) :
    Gapless T Q Done' b u' := by
  have hseat : Seated u' := hsound.seated.step hs
  have keep : ∀ {r p}, u.reader = some r → r.position = some p → Q r.tracker r.reading →
      Reached Done' b u' r.tracker p := fun hr hp hq =>
    (h.reached _ _ hr hp hq).books (hT _ _ hq) h.tracked hsound.linked hs.books hmono hacked
  refine ⟨?_, ?_⟩
  · refine h.tracked.books hsound.linked hs.books hmono hacked ?_
    intro r epoch next stop last idle _ hr hpc hun _ _ _ _ hq
    exact h.reached r next hr (Reader.position_forwarding hpc)
      ((hhand r _ _ _ _ _ hr hpc hun).1 hq)
  · intro r' p hr' hp hq
    have hlt := (hseat r' hr').1
    obtain ⟨r, hr, hm⟩ := hs.moved hr' hp
    cases hm with
    | stays hp ht hreading =>
      rw [ht, hreading] at hq
      exact ht ▸ keep hr hp hq
    | opened ha hpc hget ht hreading =>
      rw [ht, hreading] at hq
      exact .start hlt (hopened r _ _ _ p ha hr hpc hget hq)
    | sought hpc hc hget ht _ hreading =>
      rw [ht, hreading] at hq
      exact .start hlt (hsought r _ _ _ p hr hpc hc hget hq)
    | recorded hpc hun hown _ ht hreading =>
      rw [ht, hreading] at hq
      exact ht ▸ keep hr (Reader.position_forwarding hpc)
        (hrecorded r _ _ _ _ _ hr hpc hun hown hq)
    | handed hpc hn hun hlog ht hreading hout =>
      subst hn
      rw [ht, hreading] at hq
      rw [ht]
      have hq' := (hhand r _ _ _ _ _ hr hpc hun).2 hq
      refine (keep hr (Reader.position_forwarding hpc) hq').next ?_
      rcases hout with ⟨hagg, href⟩ | hw
      · exact .inl (hrefused _ ⟨_, hlog, hagg⟩ href)
      · exact .inr hw

/-- The record was delivered to the consumer's channel, or refused there as aggregated. -/
def Handed (u : Subscription) (n : Nat) : Prop :=
  n ∈ u.refused ∨ ∃ d ∈ u.deliveries, d.sequence = n

theorem ReaderStep.refused {r : Reader} {act : ReaderAct}
    (h : ReaderStep u owner shard lease r act lease' u') (hn : n ∈ u.refused) :
    n ∈ u'.refused := by
  cases h with
  | refusedRecord => exact List.mem_append_left _ hn
  | _ => exact hn

theorem Step.refused (h : Step u owner shard lease a lease' u') (hn : n ∈ u.refused) :
    n ∈ u'.refused := by
  cases h with
  | reader hr h => exact h.refused hn
  | _ => exact hn

theorem Handed.step (h : Handed u n) (hs : Step u owner shard lease a lease' u') :
    Handed u' n := by
  rcases h with h | ⟨d, hd, rfl⟩
  · exact .inl (hs.refused h)
  · obtain ⟨i, hi⟩ := List.mem_iff_getElem?.mp hd
    obtain ⟨phase, hi', _⟩ := hs.books.get hi
    exact .inr ⟨_, List.mem_of_getElem? hi', rfl⟩

theorem Reached.handed {t p : Nat} (h : Reached Done b u t p) (hl : Linked u)
    (hd : ∀ n, Handed u n → Done n) : Through Done b p [] := by
  obtain ⟨w, hw, hthrough⟩ := h
  refine hthrough.mono (fun _ => id) ?_
  intro n hn
  obtain ⟨e, he, rfl⟩ := List.mem_map.mp hn
  obtain ⟨d, hmem, _, _, hsq⟩ := hl.entry t w hw e he
  exact .inl (hd _ (.inr ⟨d, hmem, hsq⟩))

end Subscription

end RuststreamKinesis
