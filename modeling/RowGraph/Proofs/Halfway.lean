import RowGraph.Proofs.Levels
import RowGraph.Proofs.Unbuilt

/-!
# Paths that fail halfway

A toMany path is followed part by part, and the children on the way are opened as they are passed.
If a later part fails, the call fails, but what was opened stays: the query is left as the call
with the path up to the last toMany property would have left it (`Query.toMany_fails`). Only a path
that fails before its first toMany property leaves the query as it was.
-/

namespace RowGraph

/-! ## Cutting texts -/

theorem Text.exists_of_pieces_eq_append {separator : Char} {cs : List Char}
    {front back : List (List Char)} (h : pieces separator cs = front ++ back) (hf : front ≠ [])
    (hb : back ≠ []) : ∃ before after, cs = before ++ separator :: after ∧
      pieces separator before = front ∧ pieces separator after = back := by
  obtain ⟨first, others, rfl⟩ := List.exists_cons_of_ne_nil hf
  clear hf
  induction cs generalizing first others with
  | nil =>
      rw [pieces, List.cons_append, List.cons.injEq] at h
      exact absurd (List.append_eq_nil_iff.mp h.2.symm).2 hb
  | cons c rest ih =>
      rw [pieces] at h
      by_cases cut : c = separator
      · rw [if_pos cut, List.cons_append, List.cons.injEq] at h
        obtain ⟨rfl, h⟩ := h
        cases others with
        | nil => exact ⟨[], rest, by rw [cut]; rfl, rfl, h⟩
        | cons second others =>
            obtain ⟨before, after, rfl, hbefore, hafter⟩ := ih second others h
            exact ⟨c :: before, after, rfl, by rw [pieces, if_pos cut, hbefore], hafter⟩
      · obtain ⟨piece, more, hp⟩ := List.exists_cons_of_ne_nil (pieces_ne_nil separator rest)
        rw [if_neg cut, hp, List.cons_append, List.cons.injEq] at h
        obtain ⟨rfl, rfl⟩ := h
        obtain ⟨before, after, rfl, hbefore, hafter⟩ := ih piece others hp
        exact ⟨c :: before, after, rfl, by rw [pieces, if_neg cut, hbefore], hafter⟩

theorem exists_of_pathParts_eq_append {path : String} {front back : List String}
    (h : pathParts path = front ++ back) (hf : front ≠ []) (hb : back ≠ []) :
    ∃ before after, path = before ++ "." ++ after ∧ pathParts before = front := by
  rw [pathParts_eq] at h
  obtain ⟨trimmed, _, split, rfl, hback⟩ := List.map_eq_append_iff.mp h
  obtain ⟨fronts, backs, hpieces, rfl, rfl⟩ := List.map_eq_append_iff.mp split
  obtain ⟨before, after, hpath, hbefore, -⟩ := Text.exists_of_pieces_eq_append hpieces
    (by simpa using hf) (by rintro rfl; exact hb hback.symm)
  refine ⟨String.ofList before, String.ofList after, ?_, ?_⟩
  · apply String.toList_injective
    rw [toList_dotted, String.toList_ofList, String.toList_ofList, hpath]
  · rw [pathParts_eq, String.toList_ofList, hbefore]

/-! ## Levels passed -/

theorem Settings.levels_of_failure {s : Settings} {expression last : String} {e : Entity}
    {owner : Path} {parts : List String} {levels : List Level} {f : Failure}
    (h : s.levels expression last e owner parts = (levels, some f)) (passed : levels ≠ []) :
    ∃ front back, parts = front ++ back ∧ front ≠ [] ∧ back ≠ [] ∧
      ∀ other name, s.levels other name e owner front = (levels, none) := by
  induction parts generalizing e owner levels with
  | nil =>
      obtain ⟨rfl, -⟩ := Prod.mk.inj h
      exact absurd rfl passed
  | cons part rest ih =>
      unfold Settings.levels at h
      split at h
      · obtain ⟨rfl, -⟩ := Prod.mk.inj h
        exact absurd rfl passed
      · obtain ⟨rfl, -⟩ := Prod.mk.inj h
        exact absurd rfl passed
      · next boundKey target property =>
        split at h
        · obtain ⟨rfl, -⟩ := Prod.mk.inj h
          exact absurd rfl passed
        · next next found =>
          obtain ⟨front, back, rfl, -, hb, follows⟩ := ih h passed
          refine ⟨part :: front, back, rfl, by simp, hb, fun other name => ?_⟩
          simp only [Settings.levels, property, found, follows]
      · next target foreignKey property =>
        have alone (other name : String) : s.levels other name e owner [part] =
            ([{ mount := ⟨owner, part⟩, target, foreignKey }], none) := by
          simp only [Settings.levels, property, if_true]
        split at h
        · cases h
        · next goesOn =>
          split at h
          · obtain ⟨rfl, -⟩ := Prod.mk.inj h
            exact ⟨[part], rest, rfl, by simp, goesOn, alone⟩
          · next next found =>
            cases hl : s.levels expression last next .root rest with
            | mk below failure =>
                rw [hl] at h
                obtain ⟨rfl, rfl⟩ := Prod.mk.inj h
                by_cases none : below = []
                · subst none
                  exact ⟨[part], rest, rfl, by simp, goesOn, alone⟩
                · obtain ⟨front, back, rfl, hf, hb, follows⟩ := ih hl none
                  refine ⟨part :: front, back, rfl, by simp, hb, fun other name => ?_⟩
                  simp only [Settings.levels, property, if_neg hf, found, follows]

namespace Query

variable {s : Settings} {q next : Query} {path : String} {f : Failure}

/-- What a failing call leaves behind: the query as it was, if the path fails before its first
toMany property; else what the call with the path up to the last one passed leaves behind. -/
theorem toMany_fails (h : q.toMany s path = (.error f, next)) :
    ((q.levels s path).1 = [] → next = q) ∧
    ((q.levels s path).1 ≠ [] → ∃ front back, path = front ++ "." ++ back ∧
      q.toMany s front = (.ok ((q.levels s path).1.map (·.mount)), next)) := by
  cases hl : q.levels s path with
  | mk levels failure =>
      cases failure with
      | none =>
          rw [toMany, hl] at h
          cases h
      | some failure =>
          rw [toMany, hl] at h
          obtain ⟨-, rfl⟩ := Prod.mk.inj h
          refine ⟨fun none => by rw [show levels = [] from none]; rfl, fun passed => ?_⟩
          unfold Query.levels at hl
          dsimp only at hl
          split at hl
          · cases hl
            exact absurd rfl passed
          · next source hsource =>
            split at hl
            · cases hl
              exact absurd rfl passed
            · next base hbase =>
              obtain ⟨front, back, parts, hf, hb, follows⟩ := Settings.levels_of_failure hl passed
              obtain ⟨before, after, rfl, hbefore⟩ := exists_of_pathParts_eq_append parts hf hb
              refine ⟨before, after, rfl, ?_⟩
              have levels : q.levels s before = (levels, none) := by
                simp only [Query.levels, hsource, hbase]
                rw [← follows before ((pathParts before).getLastD ""), ← hbefore]
                rfl
              rw [toMany, levels]

end Query

namespace Sample

def names : Query := (({} : Query).setSource schema "Customer").select "name"

def astray : Query := (names.toMany settings "orders.nme").2

end Sample

/-- A call that fails behind a toMany property is not as if it had not been made: a second
statement is sent, more columns are selected, and the query cannot be streamed any more. -/
theorem Query.toMany_fails_halfway :
    Sample.names.toMany Sample.settings "orders.nme" =
        (.error (.resolution (.unresolvedField "nme" "Order")), Sample.astray) ∧
      (Sample.names.exec Sample.settings {} Sample.arrival).database.calls.length = 1 ∧
      (Sample.astray.exec Sample.settings {} Sample.arrival).database.calls.length = 2 ∧
      ((Sample.names.build Sample.settings).1.map fun c => c.select.columns.map (·.label)) =
        .ok ["#0.name"] ∧
      ((Sample.astray.build Sample.settings).1.map fun c => c.select.columns.map (·.label)) =
        .ok ["#0.name", "#0.id"] ∧
      (∃ output, ((Sample.names.listen ({ · with finish := true })).exec Sample.settings {}
        {}).result = .ok output) ∧
      ((Sample.astray.listen ({ · with finish := true })).exec Sample.settings {} {}).result =
        .error (.misuse .streamingToMany) := by
  refine ⟨rfl, by decide +kernel, by decide +kernel, by decide +kernel, by decide +kernel,
    ⟨_, rfl⟩, rfl⟩

theorem Query.toMany_fails_names :
    (∃ f, Sample.names.toMany Sample.settings "orders.nme" = (.error f, Sample.astray)) ∧
      ∃ front back, "orders.nme" = front ++ "." ++ back ∧
        Sample.names.toMany Sample.settings front = (.ok [⟨.root, "orders"⟩], Sample.astray) := by
  have fails : Sample.names.toMany Sample.settings "orders.nme" =
      (.error (.resolution (.unresolvedField "nme" "Order")), Sample.astray) := rfl
  exact ⟨⟨_, fails⟩, (toMany_fails fails).2 (by decide +kernel)⟩

end RowGraph
