import RowGraph.Fault

/-!
# Checks that report every fault

A `Checked` result is a value or the faults that prevent it. `all` puts many results together and
keeps every fault in order: it succeeds exactly when each result does (`all_eq_ok_iff`), and its
faults are those of the results one after another (`faults_all`).
-/

namespace RowGraph

abbrev Checked (α : Type) := Except (List Fault) α

namespace Checked

variable {α : Type}

def ofExcept : Except Fault α → Checked α
  | .ok a => .ok a
  | .error fault => .error [fault]

def faults : Checked α → List Fault
  | .ok _ => []
  | .error faults => faults

def all : List (Checked α) → Checked (List α)
  | [] => .ok []
  | .ok a :: rest => match all rest with
    | .ok as => .ok (a :: as)
    | .error faults => .error faults
  | .error found :: rest => .error (found ++ (all rest).faults)

theorem all_eq_ok_iff (results : List (Checked α)) (values : List α) :
    all results = .ok values ↔ results = values.map .ok := by
  induction results generalizing values with
  | nil => cases values <;> simp [all]
  | cons result rest ih =>
      cases result with
      | error found => cases values <;> simp [all]
      | ok a =>
          cases h : all rest with
          | error found =>
              cases values with
              | nil => simp [all, h]
              | cons v vs =>
                  have := (ih vs).mpr
                  simp only [all, h, List.map_cons, List.cons.injEq]
                  constructor
                  · simp
                  · rintro ⟨-, hr⟩
                    simp [h] at this
                    exact absurd hr this
          | ok as =>
              cases values with
              | nil => simp [all, h]
              | cons v vs =>
                  have := ih vs
                  rw [h] at this
                  simp only [all, h, List.map_cons, List.cons.injEq, Except.ok.injEq]
                  rw [← this]
                  simp

theorem faults_all (results : List (Checked α)) :
    (all results).faults = results.flatMap faults := by
  induction results with
  | nil => rfl
  | cons result rest ih =>
      cases result with
      | error found => simp only [all, List.flatMap_cons, ← ih]; rfl
      | ok a =>
          simp only [all, List.flatMap_cons, ← ih]
          cases all rest <;> rfl

end Checked
end RowGraph
