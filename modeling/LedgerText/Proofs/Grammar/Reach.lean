import LedgerText.Proofs.Grammar.Word
import LedgerText.Proofs.Lexeme.Boundary

/-!
# How far the patterns reach

The lengths of `Pattern` are greatest: the bytes of that length are a word of the grammar, and no
other word at the front of the bytes is longer (`Reaches`). Each pattern is taken apart into runs of
classes, and a run ends where a byte of another class follows. That byte is what settles the length
of every part but the last: the full stop after the whole part of a number, the separator after a
field of a date, the colon after a component of an account. The last part may be longer in the
bytes than in the word.
-/

namespace LedgerText.Grammar

open Byte Pattern
open scoped Computability

variable {p q : UInt8 → Bool} {bytes w after : Bytes}

/-- The greatest length of a word of `L` at the front of the bytes, if there is one. -/
structure Reaches (L : Language UInt8) (bytes : Bytes) (n? : Option Nat) : Prop where
  /-- The bytes of that length are a word. -/
  mem : ∀ {n}, n? = some n → n ≤ bytes.length ∧ bytes.take n ∈ L
  /-- Every word is at most as long. -/
  most : ∀ {w after}, w ++ after = bytes → w ∈ L → ∃ n, n? = some n ∧ w.length ≤ n

/-- A word is no longer than the greatest length. -/
theorem Reaches.length_le {L : Language UInt8} {n : Nat} (h : Reaches L bytes (some n))
    (hs : w ++ after = bytes) (hw : w ∈ L) : w.length ≤ n := by
  obtain ⟨_, ⟨⟩, hle⟩ := h.most hs hw
  exact hle

/-- Where there is no greatest length there is no word. -/
theorem Reaches.notMem {L : Language UInt8} (h : Reaches L bytes none) (hs : w ++ after = bytes) :
    w ∉ L := by
  intro hw
  obtain ⟨_, hn, -⟩ := h.most hs hw
  simp at hn

/-! ## Runs -/

/-- A run of a class ends at a byte that is not of it. -/
theorem run_append_stop (hw : ∀ b ∈ w, p b = true) (h : after = [] ∨ p (after.headD 0) = false) :
    run p (w ++ after) = w.length := by
  rw [run_append hw, run_eq_zero h, Nat.add_zero]

/-- A byte of one class and a run of another. -/
theorem reaches_cons_run {b : UInt8} (hb : p b = true) (bytes : Bytes) :
    Reaches (ofClass p * (ofClass q)∗) (b :: bytes) (some (1 + run q bytes)) := by
  constructor
  · rintro n ⟨⟩
    have hl := run_le q bytes
    refine ⟨by rw [List.length_cons]; omega, ?_⟩
    rw [Nat.add_comm, List.take_succ_cons, mem_ofClass_mul]
    exact ⟨b, _, rfl, hb, mem_kstar_ofClass.2 fun c hc => of_mem_take_run hc⟩
  · intro w after h hw
    obtain ⟨c, v, rfl, -, hv⟩ := mem_ofClass_mul.1 hw
    rw [List.cons_append, List.cons.injEq] at h
    obtain ⟨rfl, rfl⟩ := h
    have hl := le_run (mem_kstar_ofClass.1 hv) after
    exact ⟨_, rfl, by rw [List.length_cons]; omega⟩

/-! ## Numbers -/

theorem ne_comma_of_isDigit {b : UInt8} (h : isDigit b = true) : (b == comma) = false := by
  rw [beq_eq_false_iff_ne]
  rintro rfl
  exact absurd h (by decide)

/-- The whole part of a number: digits and commas, the first and the last of them digits. -/
theorem mem_whole_iff : w ∈ whole ↔ (∀ b ∈ w, (isDigit b || b == comma) = true) ∧
    isDigit (w.headD 0) = true ∧ ∃ front z, w = front ++ [z] ∧ isDigit z = true := by
  have hclass : digit + byte ',' = ofClass fun b => isDigit b || b == comma := by
    rw [digit_eq, byte_eq, ofClass_add]
    rfl
  unfold whole
  rw [hclass, digit_eq, Language.mem_add, mem_plus_ofClass, mem_mul_ofClass]
  constructor
  · rintro (⟨hw, h⟩ | ⟨front, z, rfl, hf, hz⟩)
    · refine ⟨fun b hb => by rw [h b hb, Bool.true_or], ?_, ?_⟩
      · obtain ⟨b, v, rfl⟩ := List.exists_cons_of_ne_nil hw
        exact h b List.mem_cons_self
      · obtain ⟨front, z, rfl⟩ := (List.eq_nil_or_concat w).resolve_left hw
        rw [List.concat_eq_append] at h ⊢
        exact ⟨front, z, rfl, h z (by simp)⟩
    · obtain ⟨b, v, rfl, hb, hv⟩ := mem_ofClass_mul.1 hf
      obtain ⟨-, hv⟩ := mem_plus_ofClass.1 hv
      refine ⟨?_, hb, _, z, rfl, hz⟩
      intro c hc
      simp only [List.cons_append, List.mem_cons, List.mem_append, List.not_mem_nil, or_false] at hc
      rcases hc with rfl | hc | rfl
      · rw [hb, Bool.true_or]
      · exact hv c hc
      · rw [hz, Bool.true_or]
  · rintro ⟨hall, hhead, front, z, rfl, hz⟩
    rcases front with - | ⟨b, v⟩
    · exact .inl ⟨List.cons_ne_nil _ _, fun c hc => by rwa [List.mem_singleton.1 hc]⟩
    have hb : isDigit b = true := hhead
    -- Two digits are a word of the first form; only what stands between digits may be a comma.
    by_cases hv : v = []
    · subst hv
      refine .inl ⟨List.cons_ne_nil _ _, fun c hc => ?_⟩
      simp only [List.cons_append, List.nil_append, List.mem_cons, List.not_mem_nil,
        or_false] at hc
      rcases hc with rfl | rfl
      · exact hb
      · exact hz
    · refine .inr ⟨b :: v, z, rfl, mem_ofClass_mul.2 ⟨b, v, rfl, hb, ?_⟩, hz⟩
      exact mem_plus_ofClass.2 ⟨hv, fun c hc => hall c (by simp [hc])⟩

/-- The whole part of a number is as long as it can be. -/
theorem reaches_whole (h : isDigit (bytes.headD 0) = true) :
    Reaches whole bytes (some (wholeLength bytes)) := by
  constructor
  · -- What is read is a word of the rule.
    rintro n ⟨⟩
    have hpos := wholeLength_pos h
    refine ⟨wholeLength_le bytes, mem_whole_iff.2 ⟨?_, ?_, ?_⟩⟩
    · intro b hb
      rw [take_wholeLength] at hb
      have hmem := List.mem_takeWhile_imp ((trimEnd_isPrefix _ _).subset hb)
      exact hmem
    · rwa [headD_take (Nat.ne_of_gt hpos)]
    · have hne := take_ne_nil (Nat.ne_of_gt hpos) (wholeLength_le bytes)
      rw [take_wholeLength] at hne ⊢
      have hlast := getLast_trimEnd hne
      have hmem := List.mem_takeWhile_imp ((trimEnd_isPrefix _ _).subset (List.getLast_mem hne))
      refine ⟨_, _, (List.dropLast_append_getLast hne).symm, ?_⟩
      rwa [hlast, Bool.or_false] at hmem
  · -- A word ends with a digit, so nothing of it is trimmed.
    rintro w after rfl hw
    obtain ⟨hall, -, front, z, rfl, hz⟩ := mem_whole_iff.1 hw
    refine ⟨_, rfl, ?_⟩
    unfold wholeLength
    rw [List.takeWhile_append_of_pos hall]
    apply le_length_trimEnd
    exact ne_comma_of_isDigit hz

/-- Before a full stop the whole part of a number ends. -/
theorem wholeLength_append_dot (hw : w ∈ whole) (fraction : Bytes) :
    wholeLength (w ++ dot :: fraction) = w.length := by
  obtain ⟨hall, -, front, z, rfl, hz⟩ := mem_whole_iff.1 hw
  unfold wholeLength
  rw [List.takeWhile_append_of_pos hall, List.takeWhile_cons_of_neg (by decide), List.append_nil]
  exact congrArg List.length
    (List.rdropWhile_concat_neg _ front z (Bool.eq_false_iff.1 (ne_comma_of_isDigit hz)))

/-- A number has a whole part, which a full stop and digits may follow, or is a full stop and
digits. -/
theorem mem_number_iff : w ∈ number ↔
    (∃ u v, w = u ++ v ∧ u ∈ whole ∧ (v = [] ∨ ∃ ds, v = dot :: ds ∧ ∀ b ∈ ds, isDigit b = true)) ∨
      ∃ ds, w = dot :: ds ∧ ds ≠ [] ∧ ∀ b ∈ ds, isDigit b = true := by
  have hdot : byte '.' = ofClass (· == dot) := rfl
  unfold number
  rw [hdot, digit_eq, Language.mem_add, Language.mem_mul, mem_ofClass_mul]
  refine or_congr ⟨?_, ?_⟩ ⟨?_, ?_⟩
  · rintro ⟨u, hu, v, hv, rfl⟩
    refine ⟨u, v, rfl, hu, ?_⟩
    rw [Language.mem_add, Language.mem_one, mem_ofClass_mul] at hv
    rcases hv with rfl | ⟨b, ds, rfl, hb, hds⟩
    · exact .inl rfl
    · rw [eq_of_beq hb]
      exact .inr ⟨ds, rfl, mem_kstar_ofClass.1 hds⟩
  · rintro ⟨u, v, rfl, hu, hv⟩
    refine ⟨u, hu, v, ?_, rfl⟩
    rw [Language.mem_add, Language.mem_one, mem_ofClass_mul]
    rcases hv with rfl | ⟨ds, rfl, hds⟩
    · exact .inl rfl
    · exact .inr ⟨dot, ds, rfl, by decide, mem_kstar_ofClass.2 hds⟩
  · rintro ⟨b, ds, rfl, hb, hds⟩
    rw [eq_of_beq hb]
    exact ⟨ds, rfl, mem_plus_ofClass.1 hds⟩
  · rintro ⟨ds, rfl, hds⟩
    exact ⟨dot, ds, rfl, by decide, mem_plus_ofClass.2 hds⟩

/-- A number that starts with a digit is as long as it can be. -/
theorem reaches_number_of_isDigit (h : isDigit (bytes.headD 0) = true) :
    Reaches number bytes (some (numberLength bytes)) := by
  obtain ⟨hle, hmem⟩ := (reaches_whole h).mem rfl
  constructor
  · rintro n ⟨⟩
    have hwhole : bytes.take (wholeLength bytes) ∈ number :=
      mem_number_iff.2 (.inl ⟨_, [], (List.append_nil _).symm, hmem, .inl rfl⟩)
    unfold numberLength
    dsimp only
    -- The fraction is read only behind a full stop.
    split
    · next b fraction hdrop =>
      have hl := congrArg List.length hdrop
      rw [List.length_drop, List.length_cons] at hl
      split
      · next hb =>
        subst hb
        have hr := run_le isDigit fraction
        refine ⟨by omega, ?_⟩
        rw [Nat.add_assoc, List.take_add, hdrop, Nat.add_comm 1, List.take_succ_cons]
        refine mem_number_iff.2 (.inl ⟨_, _, rfl, hmem, .inr ⟨_, rfl, ?_⟩⟩)
        exact fun b hb => of_mem_take_run hb
      · exact ⟨hle, hwhole⟩
    · exact ⟨hle, hwhole⟩
  · rintro w after rfl hw
    rcases mem_number_iff.1 hw with ⟨u, v, rfl, hu, rfl | ⟨ds, rfl, hds⟩⟩ | ⟨ds, rfl, -, -⟩
    · -- A number without a fraction may be read on, with the fraction that follows.
      rw [List.append_nil] at h ⊢
      have hmost := (reaches_whole h).length_le rfl hu
      exact ⟨_, rfl, hmost.trans (wholeLength_le_numberLength _)⟩
    · refine ⟨_, rfl, ?_⟩
      rw [List.append_assoc, List.cons_append, numberLength, wholeLength_append_dot hu,
        List.drop_left, List.length_append, List.length_cons]
      have hr := le_run hds after
      simp only [↓reduceIte]
      omega
    · -- A number without a whole part does not start with a digit.
      have hd : isDigit dot = true := h
      exact absurd hd (by decide)

/-- A number without a whole part is as long as it can be. -/
theorem reaches_number_of_dot {b : UInt8} (hb : isDigit b = true) (bytes : Bytes) :
    Reaches number (dot :: b :: bytes) (some (numberLength (dot :: b :: bytes))) := by
  have hlen : numberLength (dot :: b :: bytes) = 0 + 1 + run isDigit (b :: bytes) := rfl
  rw [hlen, Nat.zero_add]
  constructor
  · rintro n ⟨⟩
    have hl := run_le isDigit (b :: bytes)
    have hpos : 0 < run isDigit (b :: bytes) := run_pos hb (List.cons_ne_nil _ _)
    refine ⟨by rw [List.length_cons]; omega, ?_⟩
    rw [Nat.add_comm, List.take_succ_cons]
    refine mem_number_iff.2 (.inr ⟨_, rfl, ?_, fun c hc => of_mem_take_run hc⟩)
    exact take_ne_nil (Nat.ne_of_gt hpos) hl
  · rintro w after h hw
    rcases mem_number_iff.1 hw with ⟨u, v, rfl, hu, -⟩ | ⟨ds, rfl, -, hds⟩
    · -- A whole part starts with a digit, and the full stop is none.
      obtain ⟨-, hhead, -⟩ := mem_whole_iff.1 hu
      rcases u with - | ⟨c, u⟩
      · exact absurd hhead (by decide)
      · rw [List.cons_append, List.cons_append, List.cons.injEq] at h
        have hd : isDigit dot = true := h.1 ▸ hhead
        exact absurd hd (by decide)
    · rw [List.cons_append, List.cons.injEq] at h
      have hr := le_run hds after
      rw [h.2] at hr
      exact ⟨_, rfl, by rw [List.length_cons]; omega⟩

/-! ## Dates -/

/-- A separator and digits. -/
def field : Language UInt8 := ofClass isDateSeparator * plus (ofClass isDigit)

theorem mem_field_iff : w ∈ field ↔
    ∃ s ds, w = s :: ds ∧ isDateSeparator s = true ∧ ds ≠ [] ∧ ∀ b ∈ ds, isDigit b = true := by
  unfold field
  simp only [mem_ofClass_mul, mem_plus_ofClass]

/-- A date is a year and two fields. -/
theorem mem_date_iff : w ∈ date ↔ ∃ year month day, w = year ++ (month ++ day) ∧ 4 ≤ year.length ∧
    (∀ b ∈ year, isDigit b = true) ∧ month ∈ field ∧ day ∈ field := by
  have hdate : date = (ofClass isDigit ^ 4 * (ofClass isDigit)∗) * (field * field) := by
    unfold date field
    rw [separator_eq, digit_eq]
    simp only [mul_assoc]
  rw [hdate, Language.mem_mul]
  constructor
  · rintro ⟨_, ⟨y, hy, z, hz, rfl⟩, _, ⟨month, hm, day, hd, rfl⟩, rfl⟩
    replace hy := mem_pow_ofClass.1 hy
    replace hz := mem_kstar_ofClass.1 hz
    refine ⟨y ++ z, month, day, rfl, ?_, List.forall_mem_append.2 ⟨hy.2, hz⟩, hm, hd⟩
    rw [List.length_append]
    omega
  · rintro ⟨year, month, day, rfl, hlen, hyear, hm, hd⟩
    refine ⟨year, ?_, _, Language.append_mem_mul hm hd, rfl⟩
    rw [← List.take_append_drop 4 year]
    refine Language.append_mem_mul (mem_pow_ofClass.2 ⟨?_, ?_⟩) (mem_kstar_ofClass.2 ?_)
    · rw [List.length_take]
      omega
    · exact fun b hb => hyear b (List.mem_of_mem_take hb)
    · exact fun b hb => hyear b (List.mem_of_mem_drop hb)

theorem isDigit_eq_false_of_isDateSeparator {b : UInt8} (h : isDateSeparator b = true) :
    isDigit b = false := by
  simp only [isDateSeparator, Bool.or_eq_true, beq_iff_eq] at h
  rcases h with rfl | rfl
  · rfl
  · rfl

/-- A field of a date is as long as it can be. -/
theorem reaches_field (bytes : Bytes) : Reaches field bytes (dateFieldLength? bytes) := by
  constructor
  · intro n h
    refine ⟨dateFieldLength?_le h, mem_field_iff.2 ?_⟩
    rcases bytes with - | ⟨s, bytes⟩
    · simp [dateFieldLength?] at h
    · rw [dateFieldLength?] at h
      split at h
      · next hc =>
        simp only [Bool.and_eq_true, decide_eq_true_eq] at hc
        rw [Option.some.injEq] at h
        rw [← h, Nat.add_comm, List.take_succ_cons]
        refine ⟨s, _, rfl, hc.1, ?_, fun b hb => of_mem_take_run hb⟩
        exact take_ne_nil (Nat.ne_of_gt hc.2) (run_le _ _)
      · simp at h
  · rintro w after rfl hw
    obtain ⟨s, ds, rfl, hs, hne, hds⟩ := mem_field_iff.1 hw
    have hr := le_run hds after
    have hpos := List.length_pos_iff.2 hne
    refine ⟨1 + run isDigit (ds ++ after), ?_, by rw [List.length_cons]; omega⟩
    rw [List.cons_append, dateFieldLength?, hs, Bool.true_and, if_pos]
    exact decide_eq_true (by omega)

/-- Before another separator a field of a date ends. -/
theorem dateFieldLength?_append {month day : Bytes} (hm : month ∈ field) (hd : day ∈ field)
    (after : Bytes) : dateFieldLength? (month ++ (day ++ after)) = some month.length := by
  obtain ⟨s, ds, rfl, hs, hne, hds⟩ := mem_field_iff.1 hm
  obtain ⟨t, es, rfl, ht, -, -⟩ := mem_field_iff.1 hd
  have hrun : run isDigit (ds ++ (t :: es ++ after)) = ds.length :=
    run_append_stop hds (.inr (isDigit_eq_false_of_isDateSeparator ht))
  have hpos := List.length_pos_iff.2 hne
  rw [List.cons_append, dateFieldLength?, hrun, hs, Bool.true_and, if_pos (decide_eq_true hpos),
    List.length_cons, Nat.add_comm]

/-- A date is as long as it can be. -/
theorem reaches_date (bytes : Bytes) : Reaches date bytes (dateLength? bytes) := by
  constructor
  · intro n h
    unfold dateLength? at h
    dsimp only at h
    split at h
    · simp at h
    · next hyear =>
      -- The year is long enough, and both fields behind it were read.
      simp only [Option.bind_eq_bind, Option.bind_eq_some_iff, Option.pure_def,
        Option.some.injEq] at h
      obtain ⟨month, hm, day, hd, rfl⟩ := h
      obtain ⟨hml, hmm⟩ := (reaches_field _).mem hm
      obtain ⟨hdl, hdm⟩ := (reaches_field _).mem hd
      have hyl := run_le isDigit bytes
      rw [List.length_drop] at hml hdl
      refine ⟨by omega, mem_date_iff.2 ⟨bytes.take (run isDigit bytes), _, _, ?_, ?_, ?_, hmm, hdm⟩⟩
      · rw [← List.append_assoc, ← List.take_add, ← List.take_add]
      · rw [List.length_take]
        omega
      · exact fun b hb => of_mem_take_run hb
  · rintro w after rfl hw
    obtain ⟨year, month, day, rfl, hlen, hyear, hm, hd⟩ := mem_date_iff.1 hw
    -- The year and the month end where the next separator stands; only the day may go on.
    obtain ⟨n, hn, hle⟩ := (reaches_field (day ++ after)).most rfl hd
    have hrun : run isDigit (year ++ (month ++ (day ++ after))) = year.length := by
      obtain ⟨s, ds, rfl, hs, -, -⟩ := mem_field_iff.1 hm
      exact run_append_stop hyear (.inr (isDigit_eq_false_of_isDateSeparator hs))
    refine ⟨year.length + month.length + n, ?_, ?_⟩
    · simp only [List.append_assoc, dateLength?, hrun]
      have hdrop : (year ++ (month ++ (day ++ after))).drop (year.length + month.length) =
          day ++ after := by
        rw [← List.append_assoc, ← List.length_append, List.drop_left]
      rw [if_neg (by omega), List.drop_left, dateFieldLength?_append hm hd]
      simp only [Option.bind_eq_bind, Option.bind_some, hdrop, hn, Option.pure_def]
    · rw [List.length_append, List.length_append]
      omega

/-! ## Accounts -/

/-- A component that stands behind a colon. -/
theorem mem_component_iff : w ∈ component ↔ ∃ b v, w = colon :: b :: v ∧
    isComponentStart b = true ∧ ∀ c ∈ v, isAccountPart c = true := by
  have hcomponent : component =
      ofClass (· == colon) * (ofClass isComponentStart * (ofClass isAccountPart)∗) := by
    unfold component
    rw [upper_eq, digit_eq, foreign_eq, accountPart_eq, ofClass_add, ofClass_add, mul_assoc]
    rfl
  rw [hcomponent, mem_ofClass_mul]
  constructor
  · rintro ⟨a, u, rfl, ha, hu⟩
    obtain ⟨b, v, rfl, hb, hv⟩ := mem_ofClass_mul.1 hu
    rw [eq_of_beq ha]
    exact ⟨b, v, rfl, hb, mem_kstar_ofClass.1 hv⟩
  · rintro ⟨b, v, rfl, hb, hv⟩
    have hu := mem_ofClass_mul.2 ⟨b, v, rfl, hb, mem_kstar_ofClass.2 hv⟩
    exact ⟨colon, _, rfl, by decide, hu⟩

/-- The later components of an account are as long as they can be. -/
theorem mem_components (bytes : Bytes) : componentsLength bytes ≤ bytes.length ∧
    bytes.take (componentsLength bytes) ∈ component∗ := by
  fun_induction componentsLength bytes with
  | case1 a b bytes hc n ih =>
    simp only [Bool.and_eq_true, decide_eq_true_eq] at hc
    obtain ⟨hle, hmem⟩ := ih
    have hl : n ≤ bytes.length := run_le isAccountPart bytes
    rw [List.length_drop] at hle
    refine ⟨by rw [List.length_cons, List.length_cons]; omega, mem_kstar_iff.2 (.inr ?_)⟩
    refine ⟨a :: b :: bytes.take n, (bytes.drop n).take (componentsLength (bytes.drop n)), ?_, ?_,
      hmem⟩
    · rw [Nat.add_assoc, Nat.add_comm 2, List.take_succ_cons, List.take_succ_cons, List.take_add]
      rfl
    · rw [hc.1]
      exact mem_component_iff.2 ⟨b, _, rfl, hc.2, fun c hc => of_mem_take_run hc⟩
  | case2 a b bytes hc =>
    exact ⟨Nat.zero_le _, mem_kstar_iff.2 (.inl rfl)⟩
  | case3 bytes hc =>
    exact ⟨Nat.zero_le _, mem_kstar_iff.2 (.inl rfl)⟩

/-- Later components, and what follows them, start with a colon or are nothing. -/
theorem mem_components_iff : w ∈ component∗ ↔ w = [] ∨ ∃ b u v, w = colon :: b :: (u ++ v) ∧
    isComponentStart b = true ∧ (∀ c ∈ u, isAccountPart c = true) ∧ v ∈ component∗ := by
  rw [mem_kstar_iff]
  refine or_congr_right ⟨?_, ?_⟩
  · rintro ⟨x, v, rfl, hx, hv⟩
    obtain ⟨b, u, rfl, hb, hu⟩ := mem_component_iff.1 hx
    exact ⟨b, u, v, rfl, hb, hu, hv⟩
  · rintro ⟨b, u, v, rfl, hb, hu, hv⟩
    exact ⟨colon :: b :: u, v, rfl, mem_component_iff.2 ⟨b, u, rfl, hb, hu⟩, hv⟩

/-- No later components at the front of the bytes are longer. -/
theorem length_le_componentsLength (hw : w ∈ component∗) (after : Bytes) :
    w.length ≤ componentsLength (w ++ after) := by
  induction hl : w.length using Nat.strongRecOn generalizing w with
  | _ l ih =>
    subst hl
    rcases mem_components_iff.1 hw with rfl | ⟨b, u, v, rfl, hb, hu, hv⟩
    · exact Nat.zero_le _
    · simp only [List.cons_append, List.length_cons, List.length_append, List.append_assoc]
      rw [componentsLength]
      simp only [hb, Bool.and_true, decide_true, ↓reduceIte]
      -- The run goes on behind this component only if no other follows.
      rcases mem_components_iff.1 hv with rfl | ⟨c, _, _, hvc, -⟩
      · have hr := le_run hu after
        rw [List.nil_append, List.length_nil]
        omega
      · have hr : run isAccountPart (u ++ (v ++ after)) = u.length := by
          refine run_append_stop hu (.inr ?_)
          rw [hvc]
          rfl
        rw [hr, List.drop_left]
        have hi := ih v.length (by simp; omega) hv rfl
        omega

/-- An account has a first component and later ones. -/
theorem mem_account_iff : w ∈ account ↔ ∃ b u v, w = b :: (u ++ v) ∧ isAccountStart b = true ∧
    (∀ c ∈ u, isAccountPart c = true) ∧ v ≠ [] ∧ v ∈ component∗ := by
  have haccount : account =
      ofClass isAccountStart * ((ofClass isAccountPart)∗ * (component * component∗)) := by
    unfold account plus
    rw [upper_eq, foreign_eq, accountPart_eq, ofClass_add, mul_assoc]
    rfl
  rw [haccount, mem_ofClass_mul]
  constructor
  · rintro ⟨b, x, rfl, hb, hx⟩
    obtain ⟨u, hu, _, ⟨y, hy, v, hv, rfl⟩, rfl⟩ := Language.mem_mul.1 hx
    refine ⟨b, u, _, rfl, hb, mem_kstar_ofClass.1 hu, ?_,
      mem_kstar_iff.2 (.inr ⟨y, v, rfl, hy, hv⟩)⟩
    obtain ⟨c, z, rfl, -⟩ := mem_component_iff.1 hy
    exact List.cons_ne_nil _ _
  · rintro ⟨b, u, v, rfl, hb, hu, hne, hv⟩
    refine ⟨b, _, rfl, hb, Language.append_mem_mul (mem_kstar_ofClass.2 hu) ?_⟩
    obtain ⟨x, y, rfl, hx, hy⟩ := (mem_kstar_iff.1 hv).resolve_left hne
    exact Language.append_mem_mul hx hy

/-- An account is as long as it can be. -/
theorem reaches_account (bytes : Bytes) : Reaches account bytes (accountLength? bytes) := by
  constructor
  · intro n h
    rcases bytes with - | ⟨b, bytes⟩
    · simp [accountLength?] at h
    · simp only [accountLength?] at h
      split at h
      · next hc =>
        simp only [Bool.and_eq_true, decide_eq_true_eq] at hc
        rw [Option.some.injEq] at h
        subst h
        obtain ⟨hle, hmem⟩ := mem_components (bytes.drop (run isAccountPart bytes))
        have hr := run_le isAccountPart bytes
        have hle' := hle
        rw [List.length_drop] at hle'
        refine ⟨by rw [List.length_cons]; omega, mem_account_iff.2 ?_⟩
        rw [Nat.add_assoc, Nat.add_comm 1, List.take_succ_cons, List.take_add]
        refine ⟨b, _, _, rfl, hc.1, fun c hc => of_mem_take_run hc, ?_, hmem⟩
        exact take_ne_nil (Nat.ne_of_gt hc.2) hle
      · simp at h
  · rintro w after rfl hw
    obtain ⟨b, u, v, rfl, hb, hu, hne, hv⟩ := mem_account_iff.1 hw
    have hl := length_le_componentsLength hv after
    have hpos := List.length_pos_iff.2 hne
    -- The first component ends before the colon of the next.
    have hrun : run isAccountPart (u ++ (v ++ after)) = u.length := by
      obtain ⟨c, x, y, rfl, -⟩ := (mem_components_iff.1 hv).resolve_left hne
      exact run_append_stop hu (.inr rfl)
    refine ⟨1 + u.length + componentsLength (v ++ after), ?_, ?_⟩
    · rw [List.cons_append, List.append_assoc, accountLength?]
      simp only [hrun, List.drop_left]
      rw [if_pos]
      rw [hb, Bool.true_and]
      exact decide_eq_true (by omega)
    · rw [List.length_cons, List.length_append]
      omega

/-! ## Currencies -/

theorem isCurrencyPart_of_isCurrencyEnd {b : UInt8} (h : isCurrencyEnd b = true) :
    isCurrencyPart b = true := by
  simp only [isCurrencyPart, h, Bool.true_or]

/-- A currency has a first byte and at most 23 more, and the last of them ends it. -/
theorem mem_currency_iff : w ∈ currency ↔ ∃ b v z, w = b :: (v ++ [z]) ∧ isUpper b = true ∧
    v.length ≤ 22 ∧ (∀ c ∈ v, isCurrencyPart c = true) ∧ isCurrencyEnd z = true := by
  have hcurrency : currency = ofClass isUpper * ((1 + ofClass isCurrencyPart) ^ 22 *
      ofClass isCurrencyEnd) := by
    unfold currency
    rw [currencyPart_eq, upper_eq, digit_eq, ofClass_add, mul_assoc]
    rfl
  rw [hcurrency, mem_ofClass_mul]
  constructor
  · rintro ⟨b, x, rfl, hb, hx⟩
    obtain ⟨v, z, rfl, hv, hz⟩ := mem_mul_ofClass.1 hx
    obtain ⟨hlen, hv⟩ := mem_pow_one_add_ofClass.1 hv
    exact ⟨b, v, z, rfl, hb, hlen, hv, hz⟩
  · rintro ⟨b, v, z, rfl, hb, hlen, hv, hz⟩
    have hx := mem_mul_ofClass.2 ⟨v, z, rfl, mem_pow_one_add_ofClass.2 ⟨hlen, hv⟩, hz⟩
    exact ⟨b, _, rfl, hb, hx⟩

/-- A currency is as long as it can be. -/
theorem reaches_currency (bytes : Bytes) : Reaches currency bytes (currencyLength? bytes) := by
  constructor
  · intro n h
    rcases bytes with - | ⟨b, bytes⟩
    · simp [currencyLength?] at h
    · simp only [currencyLength?] at h
      split at h
      · next hc =>
        simp only [Bool.and_eq_true, decide_eq_true_eq] at hc
        rw [Option.some.injEq] at h
        subst h
        -- What is read is trimmed from the part bytes among the next 23.
        have hpre := trimEnd_isPrefix (!isCurrencyEnd ·)
          ((bytes.take (currencyLimit - 1)).takeWhile isCurrencyPart)
        have hpart := fun c hc => List.mem_takeWhile_imp (hpre.subset (a := c) hc)
        have hprefix := (hpre.trans (List.takeWhile_prefix _)).trans (List.take_prefix _ _)
        have hshort := ((hpre.trans (List.takeWhile_prefix _))).length_le
        have hne := List.length_pos_iff.1 hc.2
        have hlast := getLast_trimEnd hne
        have htake := List.prefix_iff_eq_take.1 hprefix
        have hle := hprefix.length_le
        have hlimit : currencyLimit = 24 := rfl
        rw [List.length_take] at hshort
        refine ⟨by rw [List.length_cons]; omega, mem_currency_iff.2 ?_⟩
        rw [Nat.add_comm, List.take_succ_cons, ← htake]
        refine ⟨b, _, _, congrArg (b :: ·) (List.dropLast_append_getLast hne).symm, hc.1, ?_, ?_,
          ?_⟩
        · rw [List.length_dropLast]
          omega
        · exact fun c hc => hpart c (List.mem_of_mem_dropLast hc)
        · simpa using hlast
      · simp at h
  · rintro w after rfl hw
    obtain ⟨b, v, z, rfl, hb, hlen, hv, hz⟩ := mem_currency_iff.1 hw
    have hall : ∀ c ∈ v ++ [z], isCurrencyPart c = true := by
      intro c hc
      rcases List.mem_append.1 hc with hc | hc
      · exact hv c hc
      · rw [List.mem_singleton.1 hc]
        exact isCurrencyPart_of_isCurrencyEnd hz
    -- All of a currency is within the next 23 bytes, and its last byte is not trimmed.
    have hsplit : ((v ++ [z] ++ after).take 23).takeWhile isCurrencyPart =
        v ++ [z] ++ (after.take (23 - (v ++ [z]).length)).takeWhile isCurrencyPart := by
      rw [List.take_append, List.take_of_length_le (by simp; omega),
        List.takeWhile_append_of_pos hall]
    have hle : (v ++ [z]).length ≤ (trimEnd (!isCurrencyEnd ·)
        (((v ++ [z] ++ after).take 23).takeWhile isCurrencyPart)).length := by
      rw [hsplit]
      exact le_length_trimEnd (by simp [hz]) _
    have hpos : 0 < (v ++ [z]).length := by simp
    refine ⟨_, if_pos ?_, ?_⟩
    · rw [hb, Bool.true_and]
      exact decide_eq_true (Nat.lt_of_lt_of_le hpos hle)
    · rw [List.length_cons, Nat.add_comm]
      exact Nat.add_le_add_left hle 1

end LedgerText.Grammar
