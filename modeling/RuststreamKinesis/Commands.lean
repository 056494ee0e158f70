import RuststreamKinesis.Gates

/-!
# The command channel of a reader

A seek that was sent waits at the live reader it was sent to, once, until the reader answers it or
is gone; then its sender learns of either.
-/

namespace RuststreamKinesis

set_option autoImplicit false

/-- The calls a reader has been sent and not answered yet. -/
def Reader.waiting (r : Reader) : List Nat :=
  match r.pc with
  | .seeking call _ => call :: r.commands
  | _ => r.commands

namespace Subscription

variable {Owner : Type} [DecidableEq Owner]

structure Commanded (u : Subscription) : Prop where
  nodup : ∀ r, u.reader = some r → r.waiting.Nodup
  sent : ∀ r call, u.reader = some r → call ∈ r.waiting → ∃ c, u.calls[call]? = some c ∧
    c.phase = .sent ∧ c.gate = r.gate
  waiting : ∀ r call c, u.reader = some r → u.calls[call]? = some c → c.phase = .sent →
    c.gate = r.gate → r.exited = false → call ∈ r.waiting
  exited : ∀ r, u.reader = some r → r.exited = true → r.waiting = []
  handle : ∀ gate, u.handle = some gate → gate < u.gates.length
  calls : ∀ c ∈ u.calls, c.phase = .found ∨ c.phase = .bumped ∨ c.phase = .sent →
    c.gate < u.gates.length

/-- What a step of the reader does to the calls it was sent. -/
inductive Attends (u u' : Subscription) (r r' : Reader) : Prop where
  | same (hw : r'.waiting = r.waiting) (hc : u'.calls = u.calls) (hx : r'.exited = false)
      (hx₀ : r.exited = false)
  | gone (hw : r'.waiting = []) (hc : u'.calls = u.calls) (hx : r'.exited = true)
  | answered {call : Nat} {idle : Bool} {c : SeekCall} {outcome : Outcome}
      (hpc : r.pc = .seeking call idle) (hget : u.calls[call]? = some c)
      (hc : u'.calls = u.calls.set call { c with phase := .answered outcome })
      (hw : r'.waiting = r.commands) (hx : r'.exited = false) (hx₀ : r.exited = false)

variable {u u' : Subscription} {owner : Owner} {shard : Shard} {lease lease' : MemoryLease Owner}
variable {r r' : Reader} {act : ReaderAct} {a : SubAct}

theorem ReaderStep.attends (h : ReaderStep u owner shard lease r act lease' u')
    (hr' : u'.reader = some r') : Attends u u' r r' := by
  cases h with
  | @sought call idle c p hpc hc =>
    obtain rfl := Option.some.inj hr'
    refine .answered hpc hc rfl ?_ ?_ (by simp [Reader.exited, hpc])
    · cases idle <;> rfl
    · cases idle <;> rfl
  | @seekFailed call idle c reply hpc hc =>
    obtain rfl := Option.some.inj hr'
    refine .answered hpc hc rfl ?_ ?_ (by simp [Reader.exited, hpc])
    · cases idle <;> rfl
    · cases idle <;> rfl
  | takeDraining hpc hc | takeIdle hpc hc =>
    obtain rfl := Option.some.inj hr'
    exact .same (by simp [Reader.waiting, hpc, hc]) rfl rfl (by simp [Reader.exited, hpc])
  | @batchDone epoch stop idle hpc =>
    obtain rfl := Option.some.inj hr'
    refine .same ?_ rfl ?_ (by simp [Reader.exited, hpc])
    · cases idle <;> simp [Reader.waiting, hpc]
    · cases idle <;> rfl
  | recorded hpc =>
    obtain rfl := Option.some.inj hr'
    exact .same rfl rfl (by simp [Reader.exited, hpc]) (by simp [Reader.exited, hpc])
  | rowEnd | rowFailClosed | rowFail | openNone | openFailClosed | openFail | fenced | renewFails
  | readClosed | notRecorded | handClosedRefused | release | crash =>
    obtain rfl := Option.some.inj hr'
    exact .gone rfl rfl rfl
  | rowCheckpoint hpc | rowBlank hpc | rowRetry hpc | opened hpc | openRetry hpc | sawClosed hpc
  | sawOpen hpc | drained hpc | renewed hpc | notDue hpc | stamp hpc | gotRecords hpc
  | throttled hpc | expired hpc | gaveUpExpired hpc | fatal hpc | gaveUp hpc | retry hpc
  | refusedRecord hpc | handClosed hpc | handedOut hpc | batchEnd hpc | wake hpc
  | markedEnd hpc | leftEnd hpc =>
    obtain rfl := Option.some.inj hr'
    exact .same (by simp [Reader.waiting, hpc]) rfl rfl
      (by simp [Reader.exited, hpc])

theorem Step.reader_old (h : Step u owner shard lease a lease' u') (hr' : u'.reader = some r')
    (hx : r'.exited = false) (hlt : r'.gate < u.gates.length) :
    ∃ r, u.reader = some r ∧ r'.gate = r.gate ∧ r.exited = false := by
  have hsucc := h.succeeds hr'
  cases hsucc with
  | same hr => exact ⟨r', hr, rfl, hx⟩
  | @task r act hr ha hg =>
    refine ⟨r, hr, hg, ?_⟩
    subst ha
    cases h with
    | reader hr₀ h =>
      obtain rfl := Option.some.inj (hr.symm.trans hr₀)
      have hatt := h.attends hr'
      cases hatt with
      | same _ _ _ hx₀ => exact hx₀
      | gone _ _ hx' => exact absurd (hx.symm.trans hx') (by simp)
      | answered _ _ _ _ _ hx₀ => exact hx₀
  | told hr _ he =>
    subst he
    exact ⟨_, hr, rfl, hx⟩
  | spawned _ _ hg => omega

theorem ReaderStep.handle (h : ReaderStep u owner shard lease r act lease' u') :
    u'.handle = u.handle ∨ u'.handle = none := by
  cases h <;> first | exact .inl rfl | exact .inr rfl

theorem Gated.gates_le (h : Gated u u' a) : u.gates.length ≤ u'.gates.length := by
  cases h with
  | quiet hg | found hg | applied _ _ _ hg | turned _ hg => exact le_of_eq (hg ▸ rfl)
  | fresh hg => simp [hg]
  | bumped _ _ _ hg => simp [hg]

theorem Commanded.calls_step (h : Commanded u) (hs : Gated u u' a) : ∀ c ∈ u'.calls,
    c.phase = .found ∨ c.phase = .bumped ∨ c.phase = .sent → c.gate < u'.gates.length := by
  intro c' hc' hp'
  have hle := hs.gates_le
  have old : ∀ c ∈ u.calls, c.phase = .found ∨ c.phase = .bumped ∨ c.phase = .sent →
      c.gate < u'.gates.length := fun c hc hp => Nat.lt_of_lt_of_le (h.calls c hc hp) hle
  cases hs with
  | quiet _ hcs | fresh _ hcs => exact old c' (hcs ▸ hc') hp'
  | found _ hcs _ hp =>
    rw [hcs] at hc'
    rcases Cells.mem_push hc' with hc' | rfl
    · exact old c' hc' hp'
    · rcases hp with ⟨_, hh⟩ | ⟨hp, _⟩
      · exact Nat.lt_of_lt_of_le (h.handle _ hh) hle
      · rw [hp] at hp'
        rcases hp' with hp' | hp' | hp' <;> cases hp'
  | bumped hget hp _ _ hcs =>
    rw [hcs] at hc'
    rcases Cells.mem_set hc' with rfl | hc'
    · exact (old _ (List.mem_of_getElem? hget) (.inl hp) :)
    · exact old c' hc' hp'
  | applied _ _ _ _ hcs =>
    rw [hcs] at hc'
    rcases Cells.mem_set hc' with rfl | hc'
    · rcases hp' with hp' | hp' | hp' <;> cases hp'
    · exact old c' hc' hp'
  | turned hget _ hcs hturn =>
    rw [hcs] at hc'
    rcases Cells.mem_set hc' with rfl | hc'
    · cases hturn with
      | sent hb => exact (old _ (List.mem_of_getElem? hget) (.inr (.inl hb)) :)
      | gone | failed | returned => rcases hp' with hp' | hp' | hp' <;> cases hp'
    · exact old c' hc' hp'

theorem Commanded.init : Commanded {} := by
  constructor <;> simp

theorem Commanded.reader_step (h : Commanded u) (hr : u.reader = some r)
    (hs : ReaderStep u owner shard lease r act lease' u') : Commanded u' := by
  obtain ⟨r', hr'⟩ := hs.reader_isSome
  obtain ⟨hgate, hgates, _⟩ := hs.seat hr'
  have hcalls := h.calls_step (hs.gated hr)
  have hhandle : ∀ gate, u'.handle = some gate → gate < u'.gates.length := by
    intro gate hh
    rw [hgates]
    rcases hs.handle with he | he
    · exact h.handle gate (he ▸ hh)
    · rw [he] at hh
      cases hh
  have hatt := hs.attends hr'
  cases hatt with
  | same hw hc hx hx₀ =>
    refine ⟨?_, ?_, ?_, ?_, hhandle, hcalls⟩
    · intro q hq
      obtain rfl := Option.some.inj (hr'.symm.trans hq)
      exact hw ▸ h.nodup r hr
    · intro q call hq hmem
      obtain rfl := Option.some.inj (hr'.symm.trans hq)
      rw [hgate, hc]
      exact h.sent r call hr (hw ▸ hmem)
    · intro q call c hq hget hp hg _
      obtain rfl := Option.some.inj (hr'.symm.trans hq)
      rw [hw]
      exact h.waiting r call c hr (hc ▸ hget) hp (hg.trans hgate) hx₀
    · intro q hq hx'
      obtain rfl := Option.some.inj (hr'.symm.trans hq)
      exact absurd (hx.symm.trans hx') (by simp)
  | gone hw hc hx =>
    refine ⟨?_, ?_, ?_, ?_, hhandle, hcalls⟩
    · intro q hq
      obtain rfl := Option.some.inj (hr'.symm.trans hq)
      simp [hw]
    · intro q call hq hmem
      obtain rfl := Option.some.inj (hr'.symm.trans hq)
      simp [hw] at hmem
    · intro q call c hq hget hp hg hx'
      obtain rfl := Option.some.inj (hr'.symm.trans hq)
      exact absurd (hx.symm.trans hx') (by simp)
    · intro q hq _
      obtain rfl := Option.some.inj (hr'.symm.trans hq)
      exact hw
  | @answered call idle c outcome hpc hget hc hw hx hx₀ =>
    have hwait : r.waiting = call :: r.commands := by simp [Reader.waiting, hpc]
    have hnodup := h.nodup r hr
    rw [hwait] at hnodup
    obtain ⟨hnot, hrest⟩ := List.nodup_cons.mp hnodup
    refine ⟨?_, ?_, ?_, ?_, hhandle, hcalls⟩
    · intro q hq
      obtain rfl := Option.some.inj (hr'.symm.trans hq)
      exact hw ▸ hrest
    · intro q call' hq hmem
      obtain rfl := Option.some.inj (hr'.symm.trans hq)
      rw [hw] at hmem
      have hne : call' ≠ call := fun he => hnot (he ▸ hmem)
      rw [hgate, hc, Cells.get_set_ne hne]
      exact h.sent r call' hr (hwait ▸ List.mem_cons_of_mem call hmem)
    · intro q call' c' hq hget' hp hg _
      obtain rfl := Option.some.inj (hr'.symm.trans hq)
      rw [hc] at hget'
      rcases Cells.get_set hget' with ⟨_, rfl⟩ | ⟨hne, hget'⟩
      · cases hp
      · have hmem := h.waiting r call' c' hr hget' hp (hg.trans hgate) hx₀
        rw [hwait] at hmem
        rw [hw]
        exact (List.mem_cons.mp hmem).resolve_left hne
    · intro q hq hx'
      obtain rfl := Option.some.inj (hr'.symm.trans hq)
      exact absurd (hx.symm.trans hx') (by simp)

theorem Commanded.aside (h : Commanded u) (hs : Gated u u' a) (hr : u'.reader = u.reader)
    (hh : ∀ gate, u'.handle = some gate → u.handle = some gate)
    (hold : ∀ (call : Nat) (c : SeekCall) (r : Reader), u.calls[call]? = some c →
      c.phase = .sent → u.reader = some r → r.gate = c.gate → r.exited = false →
      u'.calls[call]? = some c)
    (hnew : ∀ (call : Nat) (c : SeekCall), u'.calls[call]? = some c → c.phase = .sent →
      u.calls[call]? = some c) :
    Commanded u' where
  nodup r hr' := h.nodup r (hr ▸ hr')
  sent r call hr' hmem := by
    have hr₀ : u.reader = some r := hr ▸ hr'
    obtain ⟨c, hget, hp, hg⟩ := h.sent r call hr₀ hmem
    refine ⟨c, hold call c r hget hp hr₀ hg.symm ?_, hp, hg⟩
    by_contra hx
    rw [h.exited r hr₀ (by simpa using hx)] at hmem
    cases hmem
  waiting r call c hr' hget hp hg hx := h.waiting r call c (hr ▸ hr') (hnew call c hget hp) hp hg hx
  exited r hr' hx := h.exited r (hr ▸ hr') hx
  handle gate hgate := Nat.lt_of_lt_of_le (h.handle gate (hh gate hgate)) hs.gates_le
  calls := h.calls_step hs

theorem live_eq_false {gate : Nat} (h : u.live gate = false) (hr : u.reader = some r)
    (hg : r.gate = gate) : r.exited = true := by
  simpa [live, hr, hg] using h

theorem Commanded.turn {call : Nat} {old new : SeekCall} (h : Commanded u) (hs : Gated u u' a)
    (hr : u'.reader = u.reader) (hh : u'.handle = u.handle) (hget : u.calls[call]? = some old)
    (hc : u'.calls = u.calls.set call new) (hp : new.phase ≠ .sent)
    (hlive : old.phase = .sent → u.live old.gate = false) : Commanded u' := by
  refine h.aside hs hr (fun gate hgate => hh ▸ hgate) ?_ ?_
  · intro j c r hj hsent hr₀ hg hx
    have hne : j ≠ call := by
      rintro rfl
      obtain rfl : c = old := Option.some.inj (hj.symm.trans hget)
      exact absurd (hx.symm.trans (live_eq_false (hlive hsent) hr₀ hg)) (by simp)
    rw [hc, Cells.get_set_ne hne]
    exact hj
  · intro j c hj hsent
    rw [hc] at hj
    rcases Cells.get_set hj with ⟨_, rfl⟩ | ⟨_, hj⟩
    · exact absurd hsent hp
    · exact hj

theorem Commanded.found {new : SeekCall} (h : Commanded u) (hs : Gated u u' a)
    (hr : u'.reader = u.reader) (hh : u'.handle = u.handle) (hc : u'.calls = u.calls ++ [new])
    (hp : new.phase ≠ .sent) : Commanded u' := by
  refine h.aside hs hr (fun gate hgate => hh ▸ hgate) ?_ ?_
  · intro j c r hj _ _ _ _
    exact hc ▸ Cells.get_push_old hj
  · intro j c hj hsent
    rcases Cells.get_push (hc ▸ hj) with hj | ⟨_, rfl⟩
    · exact hj
    · exact absurd hsent hp

theorem Commanded.told {call : Nat} {c : SeekCall} (h : Commanded u) (hs : Gated u u' a)
    (hr : u.reader = some r) (hr' : u'.reader = some { r with commands := r.commands ++ [call] })
    (hh : u'.handle = u.handle) (hget : u.calls[call]? = some c)
    (hc : u'.calls = u.calls.set call { c with phase := .sent }) (hp : c.phase = .bumped)
    (hg : c.gate = r.gate) (hx : r.exited = false) : Commanded u' := by
  have hnot : call ∉ r.waiting := by
    intro hmem
    obtain ⟨c₀, hget₀, hsent, _⟩ := h.sent r call hr hmem
    obtain rfl : c = c₀ := Option.some.inj (hget.symm.trans hget₀)
    rw [hp] at hsent
    cases hsent
  have hwait : ({ r with commands := r.commands ++ [call] } : Reader).waiting =
      r.waiting ++ [call] := by
    simp only [Reader.waiting]
    split <;> simp_all
  refine ⟨?_, ?_, ?_, ?_, ?_, h.calls_step hs⟩
  · intro q hq
    obtain rfl := Option.some.inj (hr'.symm.trans hq)
    rw [hwait]
    exact List.nodup_append.mpr ⟨h.nodup r hr, by simp, by
      intro x hx y hy
      obtain rfl := List.mem_singleton.mp hy
      exact fun he => hnot (he ▸ hx)⟩
  · intro q j hq hmem
    obtain rfl := Option.some.inj (hr'.symm.trans hq)
    rw [hwait] at hmem
    rcases Cells.mem_push hmem with hmem | rfl
    · have hne : j ≠ call := fun he => hnot (he ▸ hmem)
      rw [hc, Cells.get_set_ne hne]
      exact h.sent r j hr hmem
    · exact ⟨{ c with phase := .sent }, hc ▸ Cells.get_set_self hget, rfl, hg⟩
  · intro q j cj hq hj hsent hgj _
    obtain rfl := Option.some.inj (hr'.symm.trans hq)
    rw [hwait]
    rcases Cells.get_set (hc ▸ hj) with ⟨rfl, _⟩ | ⟨_, hj⟩
    · simp
    · exact List.mem_append_left _ (h.waiting r j cj hr hj hsent hgj hx)
  · intro q hq hx'
    obtain rfl := Option.some.inj (hr'.symm.trans hq)
    exact absurd (hx.symm.trans hx') (by simp)
  · intro gate hgate
    exact Nat.lt_of_lt_of_le (h.handle gate (hh ▸ hgate)) hs.gates_le

theorem Commanded.step (h : Commanded u) (hs : Step u owner shard lease a lease' u') :
    Commanded u' := by
  have hgated := hs.gated
  cases hs with
  | reader hr hs => exact h.reader_step hr hs
  | forgot => exact ⟨by simp, by simp, by simp, by simp, h.handle, h.calls⟩
  | acquired =>
    refine ⟨?_, ?_, ?_, ?_, ?_, h.calls_step hgated⟩
    · intro r hr
      obtain rfl := Option.some.inj hr
      simp [Reader.waiting]
    · intro r call hr hmem
      obtain rfl := Option.some.inj hr
      simp [Reader.waiting] at hmem
    · intro r call c hr hget hp hg _
      obtain rfl := Option.some.inj hr
      have hlt := h.calls c (List.mem_of_getElem? hget) (.inr (.inr hp))
      exact absurd hg (Nat.ne_of_lt hlt)
    · intro r hr _
      obtain rfl := Option.some.inj hr
      simp [Reader.waiting]
    · intro gate hh
      obtain rfl := Option.some.inj hh
      simp [spawn]
  | findLive | findNone => exact h.found hgated rfl rfl rfl (by simp)
  | bump hget hp => exact h.turn hgated rfl rfl hget rfl (by simp) (by simp [hp])
  | sent hget hp hr hg hx => exact h.told hgated hr rfl rfl hget rfl hp hg.symm hx
  | sendGone hget hp => exact h.turn hgated rfl rfl hget rfl (by simp) (by simp [hp])
  | answered hget hp => exact h.turn hgated rfl rfl hget rfl (by simp) (by simp [hp])
  | answerGone hget _ hlive => exact h.turn hgated rfl rfl hget rfl (by simp) (fun _ => hlive)
  | _ => exact ⟨h.nodup, h.sent, h.waiting, h.exited, h.handle, h.calls⟩

end Subscription

end RuststreamKinesis
