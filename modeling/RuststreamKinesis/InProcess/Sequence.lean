import RuststreamKinesis.InProcess.Log
import RuststreamKinesis.Lib.Decimal

/-!
# Sequence numbers of the in-process transport

`sequence_of` spells a log index with 56 digits and `index_of` reads one back (`seek.rs`). It hands
the 54 digits behind the prefix to `str::parse`, which takes a sign in front of the digits, so it
also accepts strings that `sequence_of` never spells.
-/

namespace RuststreamKinesis.InProcess

set_option autoImplicit false

open Decimal

/-- A sequence number with a sign for the first of its 54 digits. -/
def signed (sequence : String) : Bool :=
  match sequence.toList with
  | '4' :: '9' :: '+' :: digits =>
    digits.length == 53 && digits.all Char.isDigit && decide (value digits < 2 ^ 64)
  | _ => false

/-- The position is refused, or it is spelled as this transport spells an index and resolves to the
record there, or to the tip when that lies past it. -/
def Resolves (log : List Record) (stream shard sequence : String) : Prop :=
  (∃ error, planOver log stream (.sequence shard sequence) = .error error) ∨
    ∃ index, sequence = sequenceOf index ∧
      planOver log stream (.sequence shard sequence) =
        .ok ⟨min index log.length, log.length - min index log.length⟩

variable {digits : List Char} {c : Char} {sequence : String} {index n : Nat}

theorem toDigit_eq_some_iff :
    toDigit c = some n ↔ c.isDigit = true ∧ c.toNat - '0'.toNat = n := by
  have hdigit : c.isDigit = true ↔ '0' ≤ c ∧ c ≤ '9' := by
    simp only [Char.isDigit, Bool.and_eq_true, decide_eq_true_eq]
    exact Iff.rfl
  simp only [toDigit, hdigit, Option.ite_none_right_eq_some, Option.some.injEq]

theorem foldlM_toDigit_iff {start : Nat} :
    digits.foldlM (fun n c => (toDigit c).map fun d => 10 * n + d) start = some n ↔
      Digits digits ∧ Nat.ofDigitChars 10 digits start = n := by
  induction digits generalizing start with
  | nil => simp [Digits]
  | cons c digits ih =>
    rw [List.foldlM_cons, Nat.ofDigitChars_cons]
    constructor
    · intro h
      obtain ⟨m, hm, hrest⟩ := Option.bind_eq_some_iff.mp h
      obtain ⟨d, hd, rfl⟩ := Option.map_eq_some_iff.mp hm
      obtain ⟨hdigit, rfl⟩ := toDigit_eq_some_iff.mp hd
      obtain ⟨hdigits, hvalue⟩ := ih.mp hrest
      exact ⟨List.forall_mem_cons.mpr ⟨hdigit, hdigits⟩, hvalue⟩
    · rintro ⟨hdigits, hvalue⟩
      have hd := toDigit_eq_some_iff.mpr ⟨hdigits.head, rfl⟩
      rw [hd]
      exact ih.mpr ⟨hdigits.tail, hvalue⟩

/-- What `str::parse` makes of the digits behind a sign, if there is one. -/
theorem parse_body_iff :
    (digits.foldlM (fun n c => (toDigit c).map fun d => 10 * n + d) 0).filter (· < 2 ^ 64) =
        some index ↔ Digits digits ∧ value digits = index ∧ index < 2 ^ 64 := by
  rw [Option.filter_eq_some_iff, foldlM_toDigit_iff, decide_eq_true_eq, and_assoc]
  rfl

theorem parseUsize_plain (hne : digits ≠ []) (hplain : digits.head? ≠ some '+') :
    parseUsize digits = some index ↔
      Digits digits ∧ value digits = index ∧ index < 2 ^ 64 := by
  have hbody : parseUsize digits =
      (digits.foldlM (fun n c => (toDigit c).map fun d => 10 * n + d) 0).filter (· < 2 ^ 64) := by
    unfold parseUsize
    split
    · exact absurd rfl hplain
    · exact if_neg hne
  rw [hbody, parse_body_iff]

theorem parseUsize_signed (hne : digits ≠ []) :
    parseUsize ('+' :: digits) = some index ↔
      Digits digits ∧ value digits = index ∧ index < 2 ^ 64 := by
  cases digits with
  | nil => exact absurd rfl hne
  | cons c digits => exact parse_body_iff

theorem length_asBytes_ofList (h : ∀ c ∈ digits, c.utf8Size = 1) :
    (asBytes (String.ofList digits)).length = digits.length := by
  induction digits with
  | nil => rfl
  | cons c digits ih =>
    have hrest := ih fun d hd => h d (List.mem_cons_of_mem c hd)
    have hc := h c List.mem_cons_self
    simp only [asBytes, String.toByteArray_ofList, Array.length_toList] at hrest ⊢
    rw [List.utf8Encode_cons]
    simp [List.utf8Encode_singleton, hc, hrest]
    omega

theorem utf8Size_digit (h : c.isDigit = true) : c.utf8Size = 1 := by
  have := digit_bounds h
  have hlow : '0'.toNat = 48 := rfl
  rw [Char.utf8Size_eq_one_iff]
  change c.toNat ≤ 127
  omega

theorem indexOf_eq_some_iff : indexOf sequence = some index ↔
    ∃ digits, sequence.toList = sequencePrefix ++ digits ∧
      (asBytes (String.ofList digits)).length = 54 ∧ parseUsize digits = some index := by
  unfold indexOf
  constructor
  · intro h
    split at h
    · rename_i hprefix
      obtain ⟨digits, hdigits⟩ := hprefix
      rw [← hdigits, List.drop_left] at h
      simp only at h
      split at h
      · exact ⟨digits, hdigits.symm, ‹_›, h⟩
      · cases h
    · cases h
  · rintro ⟨digits, hdigits, hlen, hparse⟩
    rw [hdigits, if_pos (List.prefix_append _ _), List.drop_left]
    exact (if_pos hlen).trans hparse

theorem toList_sequenceOf : (sequenceOf index).toList = sequencePrefix ++ pad 54 index := by
  simp only [sequenceOf, String.toList_ofList, List.append_assoc]
  rfl

theorem eq_sequenceOf_iff (hlt : index < 2 ^ 64) : sequence = sequenceOf index ↔
    ∃ digits, sequence.toList = sequencePrefix ++ digits ∧ digits.length = 54 ∧ Digits digits ∧
      value digits = index := by
  have hfits : index < 10 ^ 54 := hlt.trans (by decide)
  constructor
  · rintro rfl
    exact ⟨pad 54 index, toList_sequenceOf, length_pad (by decide) hfits, digits_pad, value_pad⟩
  · rintro ⟨digits, hdigits, hlen, hall, hvalue⟩
    apply String.toList_injective
    rw [hdigits, toList_sequenceOf, (eq_pad_iff hlen (by decide) hall hfits).mpr hvalue]

theorem signed_iff : signed sequence = true ↔
    ∃ digits, sequence.toList = sequencePrefix ++ '+' :: digits ∧ digits.length = 53 ∧
      Digits digits ∧ value digits < 2 ^ 64 := by
  unfold signed
  constructor
  · intro h
    split at h
    · rename_i digits hdigits
      simp only [Bool.and_eq_true, beq_iff_eq, List.all_eq_true, decide_eq_true_eq] at h
      exact ⟨digits, hdigits, h.1.1, h.1.2, h.2⟩
    · cases h
  · rintro ⟨digits, hdigits, hlen, hall, hlt⟩
    simp only [hdigits, sequencePrefix, List.cons_append, List.nil_append, Bool.and_eq_true,
      beq_iff_eq, List.all_eq_true, decide_eq_true_eq]
    exact ⟨⟨hlen, hall⟩, hlt⟩

/-- What `index_of` reads: the index itself as it is spelled, or a sign in its first place. -/
theorem indexOf_iff : indexOf sequence = some index ↔ index < 2 ^ 64 ∧
    (sequence = sequenceOf index ∨
      ∃ digits, sequence.toList = sequencePrefix ++ '+' :: digits ∧ digits.length = 53 ∧
        Digits digits ∧ value digits = index) := by
  rw [indexOf_eq_some_iff]
  constructor
  · rintro ⟨digits, hdigits, hlen, hparse⟩
    have hne : digits ≠ [] := by
      rintro rfl
      cases hlen
    by_cases hsign : digits.head? = some '+'
    · obtain ⟨rest, rfl⟩ : ∃ rest, digits = '+' :: rest := by
        cases digits with
        | nil => cases hsign
        | cons c rest => exact ⟨rest, by rw [Option.some.inj hsign]⟩
      have hrest : rest ≠ [] := by
        rintro rfl
        cases hlen
      obtain ⟨hall, hvalue, hlt⟩ := (parseUsize_signed hrest).mp hparse
      refine ⟨hlt, .inr ⟨rest, hdigits, ?_, hall, hvalue⟩⟩
      rw [length_asBytes_ofList] at hlen
      · exact Nat.succ.inj hlen
      · intro c hc
        rcases List.mem_cons.mp hc with rfl | hc
        · rfl
        · exact utf8Size_digit (hall c hc)
    · obtain ⟨hall, hvalue, hlt⟩ := (parseUsize_plain hne hsign).mp hparse
      rw [length_asBytes_ofList fun c hc => utf8Size_digit (hall c hc)] at hlen
      exact ⟨hlt, .inl ((eq_sequenceOf_iff hlt).mpr ⟨digits, hdigits, hlen, hall, hvalue⟩)⟩
  · rintro ⟨hlt, hspelled | ⟨digits, hdigits, hlen, hall, hvalue⟩⟩
    · obtain ⟨digits, hdigits, hlen, hall, hvalue⟩ := (eq_sequenceOf_iff hlt).mp hspelled
      have hne : digits ≠ [] := by
        rintro rfl
        cases hlen
      have hplain : digits.head? ≠ some '+' := by
        intro hsign
        have := hall '+' (List.mem_of_mem_head? hsign)
        cases this
      refine ⟨digits, hdigits, ?_, (parseUsize_plain hne hplain).mpr ⟨hall, hvalue, hlt⟩⟩
      rw [length_asBytes_ofList fun c hc => utf8Size_digit (hall c hc), hlen]
    · have hne : digits ≠ [] := by
        rintro rfl
        cases hlen
      refine ⟨'+' :: digits, hdigits, ?_, (parseUsize_signed hne).mpr ⟨hall, hvalue, hlt⟩⟩
      rw [length_asBytes_ofList, List.length_cons, hlen]
      intro c hc
      rcases List.mem_cons.mp hc with rfl | hc
      · rfl
      · exact utf8Size_digit (hall c hc)

theorem not_signed_sequenceOf : signed (sequenceOf index) = false := by
  rw [← Bool.not_eq_true, signed_iff]
  rintro ⟨digits, hdigits, -⟩
  rw [toList_sequenceOf] at hdigits
  have hsign : '+' ∈ pad 54 index := by
    rw [List.append_cancel_left hdigits]
    exact List.mem_cons_self
  cases digits_pad '+' hsign

/-- A string without a sign is read as an index exactly where it spells one. -/
theorem indexOf_iff_of_not_signed (hsigned : signed sequence = false) (hlt : index < 2 ^ 64) :
    indexOf sequence = some index ↔ sequence = sequenceOf index := by
  rw [indexOf_iff]
  constructor
  · rintro ⟨-, hspelled | ⟨digits, hdigits, hlen, hall, rfl⟩⟩
    · exact hspelled
    · have := signed_iff.mpr ⟨digits, hdigits, hlen, hall, hlt⟩
      cases hsigned.symm.trans this
  · intro hspelled
    exact ⟨hlt, .inl hspelled⟩

theorem indexOf_signed (h : signed sequence = true) :
    ∃ index < 2 ^ 64, indexOf sequence = some index ∧ ∀ n, sequence ≠ sequenceOf n := by
  obtain ⟨digits, hdigits, hlen, hall, hlt⟩ := signed_iff.mp h
  refine ⟨value digits, hlt, indexOf_iff.mpr ⟨hlt, .inr ⟨digits, hdigits, hlen, hall, rfl⟩⟩, ?_⟩
  rintro n rfl
  cases not_signed_sequenceOf.symm.trans h

/-- The index 1 with a sign in the place of its first digit. -/
def plusOne : String := String.ofList (sequencePrefix ++ '+' :: pad 53 1)

/-- `index_of` reads a string as the index that `sequence_of` spells so, and a position resolves to
the record it names, exactly where the string has no sign; and sequence numbers sort as text in the
order of the log. -/
theorem sequence_codes_iff (sequence : String) :
    ((∀ index < 2 ^ 64, indexOf sequence = some index ↔ sequence = sequenceOf index) ↔
        signed sequence = false) ∧
      (∀ i < 2 ^ 64, ∀ j < 2 ^ 64, sequenceOf i < sequenceOf j ↔ i < j) ∧
      ((∀ (log : List Record) (stream shard : String), Resolves log stream shard sequence) ↔
        signed sequence = false) := by
  refine ⟨?_, ?_, ?_⟩
  · constructor
    · intro h
      by_contra hsigned
      obtain ⟨index, hlt, hread, hnone⟩ := indexOf_signed (by simpa using hsigned)
      exact hnone index ((h index hlt).mp hread)
    · intro hsigned index hlt
      exact indexOf_iff_of_not_signed hsigned hlt
  · intro i hi j hj
    rw [String.lt_iff_toList_lt, toList_sequenceOf, toList_sequenceOf]
    simp only [sequencePrefix, List.cons_append, List.nil_append, List.cons_lt_cons_iff,
      lt_self_iff_false, false_or, true_and]
    exact pad_lt_pad_iff (by decide) (hi.trans (by decide)) (hj.trans (by decide))
  · constructor
    · intro h
      by_contra hsigned
      obtain ⟨index, hlt, hread, hnone⟩ := indexOf_signed (by simpa using hsigned)
      rcases h [] "s" inProcessShard with ⟨error, herror⟩ | ⟨n, hspelled, -⟩
      · simp only [planOver, hread] at herror
        cases herror
      · exact hnone n hspelled
    · intro hsigned log stream shard
      by_cases hshard : shard = inProcessShard
      · cases hread : indexOf sequence with
        | none =>
          left
          exact ⟨_, by simp only [planOver, hshard, hread]; rfl⟩
        | some index =>
          right
          have hlt := (indexOf_iff.mp hread).1
          refine ⟨index, (indexOf_iff_of_not_signed hsigned hlt).mp hread, ?_⟩
          simp only [planOver, hshard, hread]
          rfl
      · left
        exact ⟨_, if_pos hshard⟩

theorem plus_sign_read : indexOf plusOne = some 1 ∧ plusOne ≠ sequenceOf 1 ∧
    planOver [] "s" (.sequence inProcessShard plusOne) = .ok ⟨0, 0⟩ := by
  have hlen : (pad 53 1).length = 53 := length_pad (by decide) (by decide)
  have hread : indexOf plusOne = some 1 :=
    indexOf_iff.mpr ⟨by decide, .inr ⟨pad 53 1, String.toList_ofList, hlen, digits_pad, value_pad⟩⟩
  have hsigned : signed plusOne = true :=
    signed_iff.mpr ⟨pad 53 1, String.toList_ofList, hlen, digits_pad, by rw [value_pad]; decide⟩
  refine ⟨hread, ?_, ?_⟩
  · intro hspelled
    rw [hspelled, not_signed_sequenceOf] at hsigned
    cases hsigned
  · simp only [planOver, hread]
    rfl

end RuststreamKinesis.InProcess
