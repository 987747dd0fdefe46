import HybridSE.Vm.KeyGenerator

/-!
# HybridSE.Vm.KeyEncoders

Which tuples have the same key string in a lookup, in a constant lookup and in the
stored segment.

Where the three formats of a value agree, so do the strings. Where they do not, the
strings differ whatever follows: a boolean, or a floating point number behind
another column, already separates `Gen` from the stored key at that column
(`trailing_gen_ne_stored`); a leading floating point number separates `GenConst` from
it; and if only long strings disagree, the constant key is too short
(`length_const_lt_stored`).
-/

namespace HybridSE.Vm

open HybridSE.Lib HybridSE.Codec List

/-- A value that all three encoders format alike. -/
def AgreeingKey : Value → Prop
  | .bool _ => False
  | .float _ => False
  | .double _ => False
  | .varchar bytes => bytes.length ≤ 4096
  | _ => True

/-- A value that `Gen` and `DecodeKeysAndTs` format alike. -/
def IntegerOrString : Value → Prop
  | .bool _ => False
  | .float _ => False
  | .double _ => False
  | _ => True

theorem nonEmptyText_ne_nil (bytes : List Byte) : nonEmptyText bytes ≠ [] := by
  unfold nonEmptyText
  split
  · decide
  · assumption

theorem nonEmptyText_of_ne {bytes} (h : bytes ≠ []) : nonEmptyText bytes = bytes :=
  if_neg h

theorem storedText_ne_nil (val : Value) : storedText val ≠ [] := by
  cases val with
  | null => decide
  | varchar bytes => exact nonEmptyText_ne_nil bytes
  | _ => exact intText_ne_nil _

theorem constText_ne_nil (val : Value) : constText val ≠ [] := by
  cases val with
  | null => decide
  | _ => exact nonEmptyText_ne_nil _

/-! ### Values -/

variable {val : Value} {vals : List Value}

theorem genText_eq_storedText (h : IntegerOrString val) : genText val = storedText val := by
  cases val <;> first | rfl | exact h.elim

/-- An integer of `GenConst`. -/
theorem nonEmptyText_intText (v : Int) : nonEmptyText (intText v) = intText v :=
  nonEmptyText_of_ne (intText_ne_nil v)

/-- `GenConst` cuts strings off. -/
theorem constText_varchar (bytes : List Byte) :
    constText (.varchar bytes) = nonEmptyText (bytes.take 4096) := rfl

theorem constText_eq_storedText (h : AgreeingKey val) : constText val = storedText val := by
  cases val with
  | null => rfl
  | varchar bytes => rw [constText_varchar, take_of_length_le h]; rfl
  | bool b => exact h.elim
  | float bits => exact h.elim
  | double bits => exact h.elim
  | int16 v | int32 v | int64 v | timestamp v | date v => exact nonEmptyText_intText _

theorem AgreeingKey.integerOrString (h : AgreeingKey val) : IntegerOrString val := by
  cases val <;> first | exact trivial | exact h.elim

/-- Of the values without floating point numbers and booleans only long strings
disagree, and their constant texts are shorter. -/
theorem length_constText_le (h : IntegerOrString val) :
    (constText val).length ≤ (storedText val).length ∧
      (¬ AgreeingKey val → (constText val).length < (storedText val).length) := by
  by_cases hagree : AgreeingKey val
  · rw [constText_eq_storedText hagree]
    exact ⟨Nat.le_refl _, fun hnot => absurd hagree hnot⟩
  · cases val with
    | varchar bytes =>
      have hlong : 4096 < bytes.length := Nat.lt_of_not_le hagree
      have hlt : (constText (.varchar bytes)).length < (storedText (.varchar bytes)).length := by
        have hne : bytes.take 4096 ≠ [] := by
          intro hnil
          have := congrArg List.length hnil
          rw [length_take, length_nil] at this
          omega
        have hbytes : bytes ≠ [] := by
          rintro rfl
          exact absurd hlong (by decide)
        rw [constText_varchar, nonEmptyText_of_ne hne, storedText, nonEmptyText_of_ne hbytes,
          length_take]
        omega
      exact ⟨Nat.le_of_lt hlt, fun _ => hlt⟩
    | bool b => exact h.elim
    | float bits => exact h.elim
    | double bits => exact h.elim
    | null | int16 v | int32 v | int64 v | timestamp v | date v => exact absurd trivial hagree

/-! ### Tuples with a boolean or a floating point number -/

/-- Zero is stored for them. -/
theorem storedText_of_not (h : ¬ IntegerOrString val) : storedText val = [digitByte 0] := by
  cases val <;> first | exact absurd trivial h | rfl

/-- `Gen` writes a word or nothing for them. -/
theorem genText_of_not (h : ¬ IntegerOrString val) :
    genText val = [] ∨ ∃ c cs, genText val = c :: cs ∧ c ≠ digitByte 0 := by
  cases val with
  | bool b =>
    cases b
    · exact .inr ⟨_, _, rfl, by decide⟩
    · exact .inr ⟨_, _, rfl, by decide⟩
  | float bits => exact .inl rfl
  | double bits => exact .inl rfl
  | _ => exact absurd trivial h

/-- Behind other columns, the first such value separates the strings. -/
theorem trailing_gen_ne_stored (h : ∃ val ∈ vals, ¬ IntegerOrString val) :
    trailing keySep (vals.map genText) ≠ trailing keySep (vals.map storedText) := by
  induction vals with
  | nil =>
    obtain ⟨val, hmem, -⟩ := h
    cases hmem
  | cons val vals ih =>
    intro heq
    rw [map_cons, map_cons, trailing_cons, trailing_cons, List.cons.injEq] at heq
    by_cases hval : IntegerOrString val
    · rw [genText_eq_storedText hval, append_cancel_left_eq] at heq
      refine ih ?_ heq.2
      obtain ⟨v, hmem, hv⟩ := h
      rcases mem_cons.mp hmem with rfl | hmem
      · exact absurd hval hv
      · exact ⟨v, hmem, hv⟩
    · rw [storedText_of_not hval] at heq
      rcases genText_of_not hval with hnil | ⟨c, cs, hcons, hne⟩
      · rw [hnil] at heq
        -- what follows a column begins with the separator, not with a digit
        rcases trailing_eq_nil_or keySep (vals.map genText) with h0 | ⟨rest, h0⟩
        · rw [h0] at heq
          cases heq.2
        · rw [h0] at heq
          exact absurd (List.cons.inj heq.2).1 (by decide)
      · rw [hcons] at heq
        exact hne (List.cons.inj heq.2).1

/-- The constant text of a floating point number is not the stored zero. -/
theorem constText_ne_zero (hval : ¬ IntegerOrString val) (hgen : genText val = []) :
    keySep ∉ constText val ∧ constText val ≠ [digitByte 0] := by
  have hfloat : ∀ expBits manBits bits : Nat,
      keySep ∉ nonEmptyText (floatingText expBits manBits bits) ∧
        nonEmptyText (floatingText expBits manBits bits) ≠ [digitByte 0] := by
    intro expBits manBits bits
    unfold nonEmptyText
    split
    · decide
    · refine ⟨fun hmem => ?_, floatingText_ne_intText expBits manBits bits 0⟩
      rcases isNumeric_of_mem_floatingText hmem with h | h
      · exact absurd h (by decide)
      · exact absurd h.2 (by decide)
  cases val with
  | float bits => exact hfloat 8 23 bits.toNat
  | double bits => exact hfloat 11 52 bits.toNat
  | bool b => cases b <;> cases hgen
  | _ => exact absurd trivial hval

/-- A boolean or a floating point number anywhere, and two of the strings differ. -/
theorem strings_ne_of_not (h : ∃ val ∈ vals, ¬ IntegerOrString val) :
    gen (some vals) ≠ decodeKeys vals ∨ genConst vals ≠ decodeKeys vals := by
  cases vals with
  | nil =>
    obtain ⟨val, hmem, -⟩ := h
    cases hmem
  | cons val vals =>
    unfold genConst decodeKeys
    rw [gen_some, map_cons, map_cons, map_cons,
      joinFields_cons (constText_ne_nil val), joinFields_cons (storedText_ne_nil val)]
    by_cases hval : IntegerOrString val
    · refine .inl fun heq => ?_
      rw [joinFields_cons (genText_eq_storedText hval ▸ storedText_ne_nil val),
        genText_eq_storedText hval, append_cancel_left_eq] at heq
      refine trailing_gen_ne_stored ?_ heq
      obtain ⟨v, hmem, hv⟩ := h
      rcases mem_cons.mp hmem with rfl | hmem
      · exact absurd hval hv
      · exact ⟨v, hmem, hv⟩
    · rcases genText_of_not hval with hnil | ⟨c, cs, hcons, hne⟩
      · refine .inr fun heq => ?_
        obtain ⟨hsep, hzero⟩ := constText_ne_zero hval hnil
        rw [storedText_of_not hval] at heq
        exact hzero (eq_of_append_trailing_eq hsep (by decide) heq)
      · refine .inl fun heq => ?_
        rw [joinFields_cons (by rw [hcons]; exact cons_ne_nil _ _), hcons,
          storedText_of_not hval] at heq
        exact hne (List.cons.inj heq).1

/-! ### Tuples with long strings -/

theorem length_trailing_const_le (h : ∀ val ∈ vals, IntegerOrString val) :
    (trailing keySep (vals.map constText)).length ≤
        (trailing keySep (vals.map storedText)).length ∧
      ((∃ val ∈ vals, ¬ AgreeingKey val) →
        (trailing keySep (vals.map constText)).length <
          (trailing keySep (vals.map storedText)).length) := by
  induction vals with
  | nil => exact ⟨Nat.le_refl _, fun ⟨val, hmem, _⟩ => nomatch hmem⟩
  | cons val vals ih =>
    obtain ⟨hle, hlt⟩ := length_constText_le (h val mem_cons_self)
    obtain ⟨ihle, ihlt⟩ := ih fun v hv => h v (mem_cons_of_mem _ hv)
    simp only [map_cons, trailing_cons, length_cons, length_append]
    refine ⟨by omega, fun ⟨v, hmem, hv⟩ => ?_⟩
    rcases mem_cons.mp hmem with rfl | hmem
    · have := hlt hv
      omega
    · have := ihlt ⟨v, hmem, hv⟩
      omega

/-- Only long strings disagree: the constant string is too short. -/
theorem length_const_lt_stored (h : ∀ val ∈ vals, IntegerOrString val)
    (hlong : ∃ val ∈ vals, ¬ AgreeingKey val) :
    (genConst vals).length < (decodeKeys vals).length := by
  cases vals with
  | nil =>
    obtain ⟨val, hmem, -⟩ := hlong
    cases hmem
  | cons val vals =>
    have hlt := (length_trailing_const_le h).2 hlong
    unfold genConst decodeKeys
    rw [if_neg (cons_ne_nil _ _), map_cons, map_cons,
      joinFields_cons (constText_ne_nil val), joinFields_cons (storedText_ne_nil val)]
    simp only [map_cons, trailing_cons, length_cons] at hlt
    omega

/-! ### The three strings -/

/-- The strings of a lookup, of a constant lookup and of the stored segment agree
exactly for tuples of integers, dates, timestamps, NULLs and strings of at most 4096
bytes. -/
theorem key_encoders_agree_iff (vals : List Value) :
    gen (some vals) = decodeKeys vals ∧ genConst vals = decodeKeys vals ↔
      vals ≠ [] ∧ ∀ val ∈ vals, AgreeingKey val := by
  constructor
  · rintro ⟨hgen, hconst⟩
    have hne : vals ≠ [] := by
      rintro rfl
      exact absurd hconst (by decide)
    refine ⟨hne, ?_⟩
    have hint : ∀ val ∈ vals, IntegerOrString val := by
      by_contra hnot
      push Not at hnot
      exact (strings_ne_of_not hnot).elim (· hgen) (· hconst)
    by_contra hnot
    push Not at hnot
    exact absurd (congrArg List.length hconst) (Nat.ne_of_lt (length_const_lt_stored hint hnot))
  · rintro ⟨hne, hagree⟩
    have hmap : vals.map genText = vals.map storedText := map_congr_left fun val hval =>
      genText_eq_storedText (hagree val hval).integerOrString
    have hmapConst : vals.map constText = vals.map storedText :=
      map_congr_left fun val hval => constText_eq_storedText (hagree val hval)
    simp [genConst, decodeKeys, gen_some, hmap, hmapConst, hne]

/-- A boolean key is looked up as `true` and stored as `0`. -/
theorem key_encoders_bool :
    gen (some [.bool true]) = ascii ['t', 'r', 'u', 'e'] ∧
      decodeKeys [.bool true] = ascii ['0'] ∧
      gen (some [.bool true]) ≠ decodeKeys [.bool true] := by
  decide

end HybridSE.Vm
