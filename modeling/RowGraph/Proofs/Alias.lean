import RowGraph.Graph.Path
import RowGraph.Text.Split

/-!
# Tokens and labels

Aliases have different tokens, and since a token holds no dot, a label splits into the token of
its alias and its field (`splitOnce_label`).
-/

namespace RowGraph.Alias

theorem token_injective : Function.Injective token := by
  rintro ⟨i⟩ ⟨j⟩ h
  have hdigits : (toString i).toList = (toString j).toList := by
    have := congrArg String.toList h
    simpa [token] using this
  rw [Nat.toString_eq_ofList_toDigits, Nat.toString_eq_ofList_toDigits, String.toList_ofList,
    String.toList_ofList] at hdigits
  have := congrArg (Nat.ofDigitChars 10 · 0) hdigits
  simp only [Nat.ofDigitChars_ten_toDigits] at this
  rw [this]

theorem not_dot_mem_token (a : Alias) : '.' ∉ a.token.toList := by
  intro hm
  rw [token, String.toList_append, List.mem_append] at hm
  rcases hm with hm | hm
  · simp at hm
  · rw [Nat.toString_eq_ofList_toDigits, String.toList_ofList] at hm
    have := Nat.isDigit_of_mem_toDigits (by decide) (by decide) hm
    simp at this

theorem cutOnce_append {separator : Char} {front : List Char} (h : separator ∉ front)
    (back : List Char) :
    Text.cutOnce separator (front ++ separator :: back) = some (front, back) := by
  induction front with
  | nil => simp [Text.cutOnce]
  | cons c cs ih =>
      rw [List.mem_cons, not_or] at h
      rw [List.cons_append, Text.cutOnce, if_neg (Ne.symm h.1), ih h.2]
      rfl

theorem splitOnce_label (a : Alias) (field : String) :
    Text.splitOnce '.' (a.label field) = some (a.token, field) := by
  have chars : (a.label field).toList = a.token.toList ++ '.' :: field.toList := by
    simp [label]
  rw [Text.splitOnce, chars, cutOnce_append a.not_dot_mem_token]
  simp

theorem label_injective {a b : Alias} {field other : String} (h : a.label field = b.label other) :
    a = b ∧ field = other := by
  have := splitOnce_label a field
  rw [h, splitOnce_label, Option.some.injEq, Prod.mk.injEq] at this
  exact ⟨token_injective this.1.symm, this.2.symm⟩

end RowGraph.Alias
