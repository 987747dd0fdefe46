import Mathlib.Algebra.Ring.Nat
import Mathlib.Data.List.Basic
import Mathlib.Data.List.Induction

/-!
# HybridSE.Lib.SeparatedText

Texts built field by field with a separator in between.

`appendField` puts the separator only if something was written before, so leading
empty fields leave no trace. With non-empty fields the result is the separated list
(`joinFields_cons`, `joinFields_eq_intercalate`), and then it determines its fields as
soon as none of them contains the separator (`joinFields_inj`). Fields that follow other
text are found from the back (`append_trailing_inj`).
-/

namespace HybridSE.Lib

open List

variable {α : Type*}

/-- Append a field, after a separator unless the text is still empty. -/
def appendField (sep : α) (text field : List α) : List α :=
  match text with
  | [] => field
  | c :: cs => c :: cs ++ sep :: field

/-- The text of some fields. -/
def joinFields (sep : α) (fields : List (List α)) : List α := fields.foldl (appendField sep) []

/-- Fields that follow some text: each one after a separator. -/
def trailing (sep : α) (fields : List (List α)) : List α := fields.flatMap (sep :: ·)

@[simp] theorem trailing_nil (sep : α) : trailing sep [] = [] := rfl

@[simp] theorem trailing_cons (sep : α) (field : List α) (fields : List (List α)) :
    trailing sep (field :: fields) = sep :: (field ++ trailing sep fields) := by
  simp [trailing]

variable {sep a : α} {text field : List α} {fields : List (List α)}

theorem appendField_of_ne (h : text ≠ []) (field : List α) :
    appendField sep text field = text ++ sep :: field := by
  cases text with
  | nil => exact absurd rfl h
  | cons c cs => rfl

/-- Once something is written, every field comes with its separator. -/
theorem foldl_appendField (h : text ≠ []) (fields : List (List α)) :
    fields.foldl (appendField sep) text = text ++ trailing sep fields := by
  induction fields generalizing text with
  | nil => simp
  | cons field fields ih =>
    rw [foldl_cons, appendField_of_ne h, ih (by simp)]
    simp

theorem joinFields_cons (h : field ≠ []) (fields : List (List α)) :
    joinFields sep (field :: fields) = field ++ trailing sep fields :=
  foldl_appendField h fields

theorem mem_appendField :
    a ∈ appendField sep text field ↔ a ∈ text ∨ text ≠ [] ∧ a = sep ∨ a ∈ field := by
  cases text with
  | nil => simp [appendField]
  | cons c cs => simp [appendField, or_assoc]

theorem mem_foldl_appendField (h : a ∈ fields.foldl (appendField sep) text) :
    a ∈ text ∨ a = sep ∨ ∃ field ∈ fields, a ∈ field := by
  induction fields generalizing text with
  | nil => exact .inl h
  | cons field fields ih =>
    rcases ih h with htext | hsep | ⟨other, hother, hmem⟩
    · rcases mem_appendField.mp htext with htext | ⟨-, hsep⟩ | hmem
      · exact .inl htext
      · exact .inr (.inl hsep)
      · exact .inr (.inr ⟨field, mem_cons_self, hmem⟩)
    · exact .inr (.inl hsep)
    · exact .inr (.inr ⟨other, mem_cons_of_mem _ hother, hmem⟩)

/-- What a text holds comes from its fields. -/
theorem mem_joinFields (h : a ∈ joinFields sep fields) : a = sep ∨ ∃ field ∈ fields, a ∈ field := by
  rcases mem_foldl_appendField h with hnil | hor
  · cases hnil
  · exact hor

theorem mem_foldl_of_mem_text (fields : List (List α)) (h : a ∈ text) :
    a ∈ fields.foldl (appendField sep) text := by
  induction fields generalizing text with
  | nil => exact h
  | cons field fields ih => exact ih (mem_appendField.mpr (.inl h))

/-- The text holds its fields. -/
theorem mem_joinFields_of_mem (hfield : field ∈ fields) (h : a ∈ field) :
    a ∈ joinFields sep fields := by
  obtain ⟨before, after, rfl⟩ := append_of_mem hfield
  unfold joinFields
  rw [foldl_append]
  exact mem_foldl_of_mem_text after (mem_appendField.mpr (.inr (.inr h)))

/-- What follows a field is empty or begins with the separator. -/
theorem trailing_eq_nil_or (sep : α) (fields : List (List α)) :
    trailing sep fields = [] ∨ ∃ rest, trailing sep fields = sep :: rest := by
  cases fields with
  | nil => exact .inl rfl
  | cons field fields => exact .inr ⟨_, trailing_cons sep field fields⟩

theorem intercalate_cons (sep : α) (field : List α) (fields : List (List α)) :
    [sep].intercalate (field :: fields) = field ++ trailing sep fields := by
  induction fields generalizing field with
  | nil => simp
  | cons next fields ih => rw [intercalate_cons_cons, ih, trailing_cons]; simp

theorem joinFields_eq_intercalate (h : ∀ field ∈ fields, field ≠ []) :
    joinFields sep fields = [sep].intercalate fields := by
  cases fields with
  | nil => rfl
  | cons field fields => rw [joinFields_cons (h _ mem_cons_self), intercalate_cons]

/-- A field that the separator may stand next to without being mistaken for text. -/
def IsField (sep : α) (field : List α) : Prop := field ≠ [] ∧ sep ∉ field

instance [DecidableEq α] (sep : α) (field : List α) : Decidable (IsField sep field) :=
  inferInstanceAs (Decidable (_ ∧ _))

/-- The text determines its fields. -/
theorem joinFields_inj [DecidableEq α] {xs ys} (hxs : ∀ field ∈ xs, IsField sep field)
    (hys : ∀ field ∈ ys, IsField sep field) (h : joinFields sep xs = joinFields sep ys) :
    xs = ys := by
  have hnil : ∀ {zs : List (List α)}, (∀ field ∈ zs, IsField sep field) →
      joinFields sep zs = [] → zs = [] := by
    intro zs hzs hz
    cases zs with
    | nil => rfl
    | cons z zs =>
      have hne := (hzs z mem_cons_self).1
      rw [joinFields_cons hne] at hz
      exact absurd (append_eq_nil_iff.mp hz).1 hne
  by_cases hx : xs = []
  · subst hx
    exact (hnil hys h.symm).symm
  by_cases hy : ys = []
  · subst hy
    exact hnil hxs h
  rw [joinFields_eq_intercalate fun f hf => (hxs f hf).1,
    joinFields_eq_intercalate fun f hf => (hys f hf).1] at h
  rw [← splitOn_intercalate sep (fun f hf => (hxs f hf).2) hx,
    ← splitOn_intercalate sep (fun f hf => (hys f hf).2) hy, h]

/-- The text in front of the first separator is the first field. -/
theorem eq_of_append_trailing_eq [DecidableEq α] {x y xs ys} (hx : sep ∉ x) (hy : sep ∉ y)
    (h : x ++ trailing sep xs = y ++ trailing sep ys) : x = y := by
  have htake : ∀ {z : List α} (zs : List (List α)), sep ∉ z →
      (z ++ trailing sep zs).takeWhile (· ≠ sep) = z := by
    intro z zs hz
    rw [takeWhile_append_of_pos (by simpa using fun a ha (e : a = sep) => hz (e ▸ ha))]
    rcases trailing_eq_nil_or sep zs with h0 | ⟨rest, h0⟩ <;> simp [h0]
  rw [← htake xs hx, ← htake ys hy, h]

/-- The text behind the last separator is the last field. -/
theorem append_sep_inj {u v x y} (hx : sep ∉ x) (hy : sep ∉ y)
    (h : u ++ sep :: x = v ++ sep :: y) : u = v ∧ x = y := by
  rcases append_eq_append_iff.mp h with ⟨mid, hv, hmid⟩ | ⟨mid, hu, hmid⟩
  · cases mid with
    | nil => exact ⟨by rw [hv, append_nil], (cons.inj hmid).2⟩
    | cons c mid => exact absurd ((cons.inj hmid).2 ▸ by simp) hx
  · cases mid with
    | nil => exact ⟨by rw [hu, append_nil], (cons.inj hmid).2.symm⟩
    | cons c mid => exact absurd ((cons.inj hmid).2 ▸ by simp) hy

/-- Fields that follow some text determine it, if their number is known. -/
theorem append_trailing_inj {u v} {xs ys : List (List α)} (hlen : xs.length = ys.length)
    (hxs : ∀ field ∈ xs, sep ∉ field) (hys : ∀ field ∈ ys, sep ∉ field)
    (h : u ++ trailing sep xs = v ++ trailing sep ys) : u = v ∧ xs = ys := by
  have hconcat : ∀ (zs : List (List α)) (z : List α),
      trailing sep (zs ++ [z]) = trailing sep zs ++ sep :: z := by
    simp [trailing]
  induction xs using reverseRecOn generalizing ys with
  | nil =>
    cases length_eq_zero_iff.mp hlen.symm
    exact ⟨by simpa using h, rfl⟩
  | append_singleton xs x ih =>
    rcases eq_nil_or_concat ys with rfl | ⟨ys, y, rfl⟩
    · simp at hlen
    · rw [concat_eq_append] at *
      rw [hconcat, hconcat, ← append_assoc, ← append_assoc] at h
      obtain ⟨hrest, hlast⟩ := append_sep_inj (hxs x (by simp)) (hys y (by simp)) h
      obtain ⟨huv, hfields⟩ := ih (by simpa using hlen)
        (fun f hf => hxs f (mem_append_left _ hf)) (fun f hf => hys f (mem_append_left _ hf)) hrest
      exact ⟨huv, by rw [hfields, hlast]⟩

end HybridSE.Lib
