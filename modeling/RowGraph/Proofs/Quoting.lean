import Mathlib.Logic.Function.Basic
import RowGraph.Proofs.Numbering

/-!
# Quoted identifiers are read back

A scanner takes a text for a quoted identifier exactly if the text is one with something behind it
that is no further quote (`unescapeChars_eq_some_iff`). So no name ends its quoting early, and none
takes anything along from behind (`EscapeStyle.escape_exact`). The scan for placeholders does not
know of doubled quotes and still comes to the same end, with no placeholder on the way.
-/

namespace RowGraph.Sql

/-! ## Scanning -/

theorem undouble_cons_of_ne {quote c : Char} (h : c ≠ quote) (text : List Char) :
    undouble quote (c :: text) = (undouble quote text).map fun (name, rest) => (c :: name, rest) := by
  cases text with
  | nil => simp [undouble, h]
  | cons d text => rw [undouble, if_neg h]

theorem undouble_cons_self (quote : Char) {text : List Char} (h : text.head? ≠ some quote) :
    undouble quote (quote :: text) = some ([], text) := by
  cases text with
  | nil => simp [undouble]
  | cons d text =>
      have hd : d ≠ quote := by simpa using h
      rw [undouble, if_pos rfl, if_neg hd]

theorem undouble_cons_cons (quote : Char) (text : List Char) :
    undouble quote (quote :: quote :: text) =
      (undouble quote text).map fun (name, rest) => (quote :: name, rest) := by
  rw [undouble, if_pos rfl, if_pos rfl]

theorem eq_of_undouble {quote : Char} {text name rest : List Char}
    (h : undouble quote text = some (name, rest)) :
    text = doubled quote name ++ quote :: rest ∧ rest.head? ≠ some quote := by
  -- by the size of the text, as a doubled quote takes two characters at once
  match text with
  | [] => cases h
  | c :: text =>
      by_cases hc : c = quote
      · subst hc
        by_cases again : text.head? = some c
        · obtain ⟨more, rfl⟩ : ∃ more, text = c :: more := List.head?_eq_some_iff.mp again
          rw [undouble_cons_cons, Option.map_eq_some_iff] at h
          obtain ⟨⟨inner, _⟩, read, pair⟩ := h
          cases pair
          obtain ⟨written, ends⟩ := eq_of_undouble read
          exact ⟨by simp [doubled, written], ends⟩
        · rw [undouble_cons_self c again] at h
          cases h
          exact ⟨rfl, again⟩
      · rw [undouble_cons_of_ne hc, Option.map_eq_some_iff] at h
        obtain ⟨⟨inner, _⟩, read, pair⟩ := h
        cases pair
        obtain ⟨written, ends⟩ := eq_of_undouble read
        exact ⟨by simp [doubled, hc, written], ends⟩
termination_by text.length

theorem unescapeChars_eq_some_iff {quote : Char} {text name rest : List Char} :
    unescapeChars quote text = some (name, rest) ↔
      text = escapeChars quote name ++ rest ∧ rest.head? ≠ some quote := by
  constructor
  · intro h
    cases text with
    | nil => cases h
    | cons c text =>
        rw [unescapeChars] at h
        split at h
        · next hc =>
          obtain ⟨written, ends⟩ := eq_of_undouble h
          exact ⟨by simp [escapeChars, hc, written], ends⟩
        · cases h
  · rintro ⟨rfl, ends⟩
    exact unescapeChars_escapeChars quote name rest ends

/-! ## Names -/

namespace EscapeStyle

variable (style : EscapeStyle)

theorem toList_escape (name : String) :
    (style.escape name).toList = escapeChars style.quote name.toList := by
  rw [escape, String.toList_ofList]

theorem unescapeChars_escape (name : String) (rest : List Char)
    (ends : rest.head? ≠ some style.quote) :
    unescapeChars style.quote ((style.escape name).toList ++ rest) = some (name.toList, rest) := by
  rw [toList_escape]
  exact unescapeChars_escapeChars _ _ _ ends

theorem escape_injective : Function.Injective style.escape := by
  intro name other same
  have read := style.unescapeChars_escape name [] (by simp)
  rw [same, style.unescapeChars_escape other [] (by simp), Option.some.injEq, Prod.mk.injEq] at read
  exact String.toList_inj.mp read.1.symm

/-- Of the identifiers that a text begins with, none is longer than one that no quote follows. -/
theorem escape_longest {name other : String} {rest : List Char}
    (ends : rest.head? ≠ some style.quote)
    (begins : (style.escape other).toList <+: (style.escape name).toList ++ rest) :
    (style.escape other).toList <+: (style.escape name).toList := by
  rcases List.prefix_or_prefix_of_prefix begins (List.prefix_append _ rest) with short | long
  · exact short
  · obtain ⟨more, longer⟩ := long
    have front : more <+: rest := by
      rwa [← longer, List.prefix_append_right_inj] at begins
    have next : more.head? ≠ some style.quote := by
      cases more with
      | nil => simp
      | cons c more =>
          obtain ⟨back, rfl⟩ := front
          exact ends
    have read := style.unescapeChars_escape name more next
    have whole := style.unescapeChars_escape other [] (by simp)
    rw [longer] at read
    rw [List.append_nil, read, Option.some.injEq, Prod.mk.injEq] at whole
    rw [whole.2, List.append_nil] at longer
    exact longer ▸ List.prefix_rfl

theorem positions_escape (name : String) : positions (style.escape name) = [] := by
  rw [← List.length_eq_zero_iff]
  exact (neat_escape style name).count

theorem unquoted_escape (name : String) : Unquoted (style.escape name).toList :=
  unquoted_iff.mpr (neat_escape style name).closed

theorem positions_around {front : String} (closed : Unquoted front.toList) (name back : String) :
    positions (front ++ style.escape name ++ back) = positions front ++
      (positions back).map (· + (front ++ style.escape name).utf8ByteSize) := by
  have behind : Unquoted (front ++ style.escape name).toList := by
    rw [unquoted_iff, String.toList_append, quoteAfterAll_append, unquoted_iff.mp closed]
    exact (neat_escape style name).closed
  rw [positions_append behind, positions_append closed, positions_escape, List.map_nil,
    List.append_nil]

theorem escape_exact (name : String) :
    (∀ text rest, unescapeChars style.quote text = some (name.toList, rest) ↔
      text = (style.escape name).toList ++ rest ∧ rest.head? ≠ some style.quote) ∧
    (∀ other rest, rest.head? ≠ some style.quote →
      (style.escape other).toList <+: (style.escape name).toList ++ rest →
      (style.escape other).toList <+: (style.escape name).toList) ∧
    (∀ other, style.escape other = style.escape name ↔ other = name) ∧
    positions (style.escape name) = [] ∧
    Unquoted (style.escape name).toList ∧
    ∀ front back, Unquoted front.toList → positions (front ++ style.escape name ++ back) =
      positions front ++ (positions back).map (· + (front ++ style.escape name).utf8ByteSize) := by
  refine ⟨fun text rest => ?_, fun other rest => style.escape_longest,
    fun other => style.escape_injective.eq_iff, style.positions_escape name,
    style.unquoted_escape name, fun front back closed => style.positions_around closed name back⟩
  rw [toList_escape]
  exact unescapeChars_eq_some_iff

theorem escape_exact_mixed :
    unescapeChars '"' ((doubleQuote.escape "a\"?'\x60").toList ++ " = ?".toList) =
      some ("a\"?'\x60".toList, " = ?".toList) ∧
    ¬ (doubleQuote.escape "a\"?'\x60\" = ").toList <+:
      (doubleQuote.escape "a\"?'\x60").toList ++ " = ?".toList ∧
    positions ("? = " ++ doubleQuote.escape "a\"?'\x60" ++ " = ?") = [0, 15] := by
  obtain ⟨read, longest, -, -, -, around⟩ := doubleQuote.escape_exact "a\"?'\x60"
  refine ⟨(read _ _).mpr ⟨rfl, by decide⟩, fun begins => ?_, ?_⟩
  · have short := longest _ " = ?".toList (by decide) begins
    exact absurd short (by decide)
  · exact around "? = " " = ?" (unquoted_iff.mpr (by decide))

end EscapeStyle
end RowGraph.Sql
