import Mathlib.Data.List.Forall2
import Mathlib.Data.List.Pairwise
import Mathlib.Data.List.Perm.Subperm
import RowGraph.Value.Basic

/-!
# Equality of values

A proper value has no two equal keys in a map and no two fields of one name in an object
(`Value.Proper`). Among proper values `Value.same` is an equivalence (`Proper.same_symm`,
`Proper.same_trans`), although it looks entries up in one direction only.
-/

namespace RowGraph

/-! ## Relations that are fair to an item -/

structure Fair {α : Type} (R : α → α → Prop) (P : α → Prop) (a : α) : Prop where
  refl : R a a
  symm : ∀ {b}, P b → (R a b ↔ R b a)
  left : ∀ {b c}, P b → P c → R a b → R b c → R a c
  middle : ∀ {b c}, P b → P c → R b a → R a c → R b c

namespace Fair

variable {α β κ : Type}

theorem of_equivalence {R : α → α → Prop} (h : Equivalence R) (P : α → Prop) (a : α) :
    Fair R P a :=
  ⟨h.refl a, fun _ => ⟨h.symm, h.symm⟩, fun _ _ => h.trans, fun _ _ => h.trans⟩

theorem lift {R : β → β → Prop} {S : α → α → Prop} {P : α → Prop} {Q : β → Prop} (build : β → α)
    (forth : ∀ x a, S (build x) a ↔ ∃ y, a = build y ∧ R x y)
    (back : ∀ x a, S a (build x) ↔ ∃ y, a = build y ∧ R y x)
    (proper : ∀ {y}, P (build y) → Q y) {x : β} (h : Fair R Q x) : Fair S P (build x) := by
  constructor
  · exact (forth x _).mpr ⟨x, rfl, h.refl⟩
  · intro b hb
    rw [forth, back]
    refine exists_congr fun y => and_congr_right ?_
    rintro rfl
    exact h.symm (proper hb)
  · intro b c hb hc hab hbc
    obtain ⟨y, rfl, hxy⟩ := (forth x b).mp hab
    obtain ⟨z, rfl, hyz⟩ := (forth y c).mp hbc
    exact (forth x _).mpr ⟨z, rfl, h.left (proper hb) (proper hc) hxy hyz⟩
  · intro b c hb hc hba hac
    obtain ⟨y, rfl, hyx⟩ := (back x b).mp hba
    obtain ⟨z, rfl, hxz⟩ := (forth x c).mp hac
    exact (forth y _).mpr ⟨z, rfl, h.middle (proper hb) (proper hc) hyx hxz⟩

theorem tagged {τ : Type} {R : α → α → Prop} {P : α → Prop} {a : α} (h : Fair R P a) (t : τ) :
    Fair (fun p q : τ × α => p.1 = q.1 ∧ R p.2 q.2) (fun p => P p.2) (t, a) :=
  ⟨⟨rfl, h.refl⟩, fun hb => and_congr eq_comm (h.symm hb),
    fun hb hc hab hbc => ⟨hab.1.trans hbc.1, h.left hb hc hab.2 hbc.2⟩,
    fun hb hc hba hac => ⟨hba.1.trans hac.1, h.middle hb hc hba.2 hac.2⟩⟩

/-! ## Lists -/

theorem items {R : α → α → Prop} {P : α → Prop} {as : List α} (h : ∀ a ∈ as, Fair R P a) :
    Fair (List.Forall₂ R) (fun bs => ∀ b ∈ bs, P b) as := by
  constructor
  · exact List.forall₂_same.mpr fun a ha => (h a ha).refl
  · intro bs hbs
    induction as generalizing bs with
    | nil => simp [List.forall₂_nil_left_iff, List.forall₂_nil_right_iff]
    | cons a as ih =>
        rw [List.forall_mem_cons] at h
        cases bs with
        | nil => simp
        | cons b bs =>
            rw [List.forall_mem_cons] at hbs
            rw [List.forall₂_cons, List.forall₂_cons, h.1.symm hbs.1, ih h.2 hbs.2]
  · intro bs cs hbs hcs hab hbc
    induction hab generalizing cs with
    | nil => exact hbc
    | cons hr _ ih =>
        cases hbc with
        | cons hs rest =>
            rw [List.forall_mem_cons] at h hbs hcs
            exact .cons (h.1.left hbs.1 hcs.1 hr hs) (ih h.2 hbs.2 hcs.2 rest)
  · intro bs cs hbs hcs hba hac
    induction hba generalizing cs with
    | nil => exact hac
    | cons hr _ ih =>
        cases hac with
        | cons hs rest =>
            rw [List.forall_mem_cons] at h hbs hcs
            exact .cons (h.1.middle hbs.1 hcs.1 hr hs) (ih h.2 hbs.2 hcs.2 rest)

end Fair

/-! ## Entries -/

section entries

variable {α κ : Type} {r : κ → κ → Bool} {V : α → α → Prop} {P : κ → Prop} {Q : α → Prop}
  {xs ys zs : List (κ × α)}

/-- Entries of which each has one with an equal key among the others, with an equal value. -/
def Covers (r : κ → κ → Bool) (V : α → α → Prop) (xs ys : List (κ × α)) : Prop :=
  ∀ x ∈ xs, ∃ y, ys.find? (fun y => r x.1 y.1) = some y ∧ V x.2 y.2

/-- Entries that are equal but for their order. -/
def Agree (r : κ → κ → Bool) (V : α → α → Prop) (xs ys : List (κ × α)) : Prop :=
  xs.length = ys.length ∧ Covers r V xs ys

structure ProperEntries (r : κ → κ → Bool) (P : κ → Prop) (Q : α → Prop) (xs : List (κ × α)) :
    Prop where
  distinct : xs.Pairwise fun x y => r x.1 y.1 = false
  keys : ∀ x ∈ xs, P x.1
  values : ∀ x ∈ xs, Q x.2

theorem ProperEntries.eq_of_both (h : ProperEntries r P Q zs) {y z : κ × α} (hy : y ∈ zs)
    (hz : z ∈ zs) (forth : r y.1 z.1 = true) (back : r z.1 y.1 = true) : y = z := by
  have distinct : zs.Pairwise fun x y => ¬ (r x.1 y.1 = true ∧ r y.1 x.1 = true) :=
    h.distinct.imp fun hne both => by simp [hne] at both
  have symmetric : Std.Symm fun x y : κ × α => ¬ (r x.1 y.1 = true ∧ r y.1 x.1 = true) :=
    ⟨fun _ _ hnot both => hnot both.symm⟩
  by_contra hne
  exact distinct.forall hy hz hne ⟨forth, back⟩

theorem ProperEntries.eq_of_key (h : ProperEntries r P Q zs) {k : κ}
    (fair : Fair (fun a b => r a b = true) P k) {y z : κ × α} (hy : y ∈ zs) (hz : z ∈ zs)
    (hky : r k y.1 = true) (hkz : r k z.1 = true) : y = z := by
  have py := h.keys y hy
  have pz := h.keys z hz
  apply h.eq_of_both hy hz
  · exact fair.middle py pz ((fair.symm py).mp hky) hkz
  · exact fair.middle pz py ((fair.symm pz).mp hkz) hky

theorem ProperEntries.eq_of_entries (h : ProperEntries r P Q zs)
    (fair : ∀ z ∈ zs, Fair (fun a b => r a b = true) P z.1) {k : κ} (pk : P k) {y z : κ × α}
    (hy : y ∈ zs) (hz : z ∈ zs) (hky : r k y.1 = true) (hkz : r k z.1 = true) : y = z := by
  apply h.eq_of_both hy hz
  · exact (fair y hy).left pk (h.keys z hz) (((fair y hy).symm pk).mpr hky) hkz
  · exact (fair z hz).left pk (h.keys y hy) (((fair z hz).symm pk).mpr hkz) hky

/-- Different items of a list that have different counterparts in a list of the same length
are matched with all of it. -/
theorem exists_matching {T : α → κ → Prop} {as : List α} {bs : List κ}
    (length : as.length = bs.length) (total : ∀ a ∈ as, ∃ b, b ∈ bs ∧ T a b)
    (apart : as.Pairwise fun a a' => ∀ b ∈ bs, T a b → ¬ T a' b) :
    ∃ others, others.Perm bs ∧ List.Forall₂ T as others := by
  cases bs with
  | nil =>
      obtain rfl := List.length_eq_zero_iff.mp length
      exact ⟨[], .nil, .nil⟩
  | cons b rest =>
      have : Nonempty κ := ⟨b⟩
      choose! f hf using total
      have nodup : (as.map f).Nodup := by
        rw [List.Nodup, List.pairwise_map]
        refine apart.imp_of_mem ?_
        intro a a' ha ha' hne heq
        exact hne (f a) (hf a ha).1 (hf a ha).2 (heq ▸ (hf a' ha').2)
      have subset : as.map f ⊆ b :: rest := by
        intro b hm
        obtain ⟨a, ha, rfl⟩ := List.mem_map.mp hm
        exact (hf a ha).1
      refine ⟨as.map f, ?_, ?_⟩
      · exact (List.subperm_of_subset nodup subset).perm_of_length_le (by simp [length])
      · rw [List.forall₂_map_right_iff, List.forall₂_same]
        exact fun a ha => (hf a ha).2

theorem exists_of_matching {T : α → κ → Prop} {as : List α} {bs others : List κ}
    (perm : others.Perm bs) (matched : List.Forall₂ T as others) {b : κ} (hb : b ∈ bs) :
    ∃ a ∈ as, T a b := by
  obtain ⟨i, hi, rfl⟩ := List.getElem_of_mem (perm.mem_iff.mpr hb)
  have ha : i < as.length := matched.length_eq ▸ hi
  exact ⟨as[i], List.getElem_mem ha, matched.get ha hi⟩

theorem mem_and_of_find? {ys : List (κ × α)} {k : κ} {y : κ × α}
    (h : ys.find? (fun y => r k y.1) = some y) : y ∈ ys ∧ r k y.1 = true :=
  ⟨List.mem_of_find?_eq_some h, List.find?_some (p := fun y : κ × α => r k y.1) h⟩

theorem exists_find? {ys : List (κ × α)} {k : κ} {y : κ × α} (hy : y ∈ ys) (hk : r k y.1 = true) :
    ∃ z, ys.find? (fun y => r k y.1) = some z ∧ z ∈ ys ∧ r k z.1 = true := by
  cases hf : ys.find? (fun y => r k y.1) with
  | none => exact absurd hk (List.find?_eq_none.mp hf y hy)
  | some z => exact ⟨z, rfl, mem_and_of_find? hf⟩

variable (proper : ProperEntries r P Q xs)
  (keys : ∀ x ∈ xs, Fair (fun a b => r a b = true) P x.1) (values : ∀ x ∈ xs, Fair V Q x.2)

include proper keys values

omit values in
theorem Agree.rearranged (hys : ProperEntries r P Q ys) (h : Agree r V xs ys) :
    ∃ others, others.Perm ys ∧ List.Forall₂ (fun x y => r x.1 y.1 = true ∧ V x.2 y.2) xs others := by
  refine exists_matching h.1 ?_ ?_
  · intro x hx
    obtain ⟨y, hf, hv⟩ := h.2 x hx
    obtain ⟨hy, hk⟩ := mem_and_of_find? hf
    exact ⟨y, hy, hk, hv⟩
  · refine proper.distinct.imp_of_mem ?_
    intro x x' hx hx' hne y hy hxy hxy'
    have back := ((keys x' hx').symm (hys.keys y hy)).mp hxy'.1
    have same := (keys x hx).left (hys.keys y hy) (proper.keys x' hx') hxy.1 back
    simp [hne] at same

omit proper values in
theorem Agree.of_rearranged (hys : ProperEntries r P Q ys)
    (h : ∃ others, others.Perm ys ∧
      List.Forall₂ (fun x y => r x.1 y.1 = true ∧ V x.2 y.2) xs others) : Agree r V xs ys := by
  obtain ⟨others, perm, matched⟩ := h
  refine ⟨matched.length_eq.trans perm.length_eq, fun x hx => ?_⟩
  obtain ⟨y, hy, hk, hv⟩ := exists_of_matching (.refl xs) matched.flip hx
  obtain ⟨z, hf, hz, hxz⟩ := exists_find? (perm.mem_iff.mp hy) hk
  obtain rfl := hys.eq_of_key (keys x hx) hz (perm.mem_iff.mp hy) hxz hk
  exact ⟨z, hf, hv⟩

theorem Agree.symm_of_fair (hys : ProperEntries r P Q ys) (h : Agree r V xs ys) : Agree r V ys xs := by
  refine ⟨h.1.symm, fun y hy => ?_⟩
  obtain ⟨others, perm, matched⟩ := Agree.rearranged proper keys hys h
  obtain ⟨x, hx, hk, hv⟩ := exists_of_matching perm matched hy
  have back := ((keys x hx).symm (hys.keys y hy)).mp hk
  obtain ⟨z, hf, hz, hyz⟩ := exists_find? hx back
  obtain rfl := proper.eq_of_entries keys (hys.keys y hy) hz hx hyz back
  exact ⟨z, hf, ((values z hx).symm (hys.values y hy)).mp hv⟩

omit proper in
theorem Agree.of_symm_of_fair (hys : ProperEntries r P Q ys) (h : Agree r V ys xs) :
    Agree r V xs ys := by
  refine ⟨h.1.symm, fun x hx => ?_⟩
  have matching : ∃ others, others.Perm xs ∧
      List.Forall₂ (fun y x => r y.1 x.1 = true ∧ V y.2 x.2) ys others := by
    refine exists_matching h.1 ?_ ?_
    · intro y hy
      obtain ⟨x, hf, hv⟩ := h.2 y hy
      obtain ⟨hx, hk⟩ := mem_and_of_find? hf
      exact ⟨x, hx, hk, hv⟩
    · refine hys.distinct.imp_of_mem ?_
      intro y y' hy hy' hne x hx hyx hyx'
      have back := ((keys x hx).symm (hys.keys y' hy')).mpr hyx'.1
      have same := (keys x hx).middle (hys.keys y hy) (hys.keys y' hy') hyx.1 back
      simp [hne] at same
  obtain ⟨others, perm, matched⟩ := matching
  obtain ⟨y, hy, hk, hv⟩ := exists_of_matching perm matched hx
  have back := ((keys x hx).symm (hys.keys y hy)).mpr hk
  obtain ⟨z, hf, hz, hxz⟩ := exists_find? hy back
  obtain rfl := hys.eq_of_key (keys x hx) hz hy hxz back
  exact ⟨z, hf, ((values x hx).symm (hys.values z hy)).mpr hv⟩

theorem Fair.entries : Fair (Agree r V) (ProperEntries r P Q) xs := by
  constructor
  · refine ⟨rfl, fun x hx => ?_⟩
    obtain ⟨y, hf, hy, hxy⟩ := exists_find? hx (keys x hx).refl
    obtain rfl := proper.eq_of_key (keys x hx) hy hx hxy (keys x hx).refl
    exact ⟨y, hf, (values y hx).refl⟩
  · exact fun hys => ⟨Agree.symm_of_fair proper keys values hys,
      Agree.of_symm_of_fair keys values hys⟩
  · intro ys zs hys hzs hxy hyz
    refine ⟨hxy.1.trans hyz.1, fun x hx => ?_⟩
    obtain ⟨y, hf, hv⟩ := hxy.2 x hx
    obtain ⟨hy, hk⟩ := mem_and_of_find? hf
    obtain ⟨z, hg, hw⟩ := hyz.2 y hy
    obtain ⟨hz, hl⟩ := mem_and_of_find? hg
    have through := (keys x hx).left (hys.keys y hy) (hzs.keys z hz) hk hl
    obtain ⟨z', hf', hz', hxz'⟩ := exists_find? hz through
    obtain rfl := hzs.eq_of_key (keys x hx) hz' hz hxz' through
    exact ⟨z', hf', (values x hx).left (hys.values y hy) (hzs.values z' hz) hv hw⟩
  · intro ys zs hys hzs hyx hxz
    refine ⟨hyx.1.trans hxz.1, fun y hy => ?_⟩
    obtain ⟨x, hf, hv⟩ := hyx.2 y hy
    obtain ⟨hx, hk⟩ := mem_and_of_find? hf
    obtain ⟨z, hg, hw⟩ := hxz.2 x hx
    obtain ⟨hz, hl⟩ := mem_and_of_find? hg
    have fair := keys x hx
    have through := fair.middle (hys.keys y hy) (hzs.keys z hz) hk hl
    obtain ⟨z', hf', hz', hyz'⟩ := exists_find? hz through
    have back := (fair.symm (hys.keys y hy)).mpr hk
    obtain rfl := hzs.eq_of_key fair hz' hz
      (fair.left (hys.keys y hy) (hzs.keys z' hz') back hyz') hl
    exact ⟨z', hf', (values x hx).middle (hys.values y hy) (hzs.values z' hz) hv hw⟩

end entries

/-! ## Values -/

namespace Value

/-- A value without equal keys in a map or equal names in an object, at any depth. -/
inductive Proper : Value → Prop where
  | null : Proper .null
  | bool (b : Bool) : Proper (.bool b)
  | number (n : Number) : Proper (.number n)
  | text (s : String) : Proper (.text s)
  | bytes (data : List UInt8) : Proper (.bytes data)
  | list {items : List Value} (all : ∀ item ∈ items, Proper item) : Proper (.list items)
  | map {entries : List (Value × Value)}
      (distinct : entries.Pairwise fun x y => x.1.same y.1 = false)
      (keys : ∀ entry ∈ entries, Proper entry.1) (values : ∀ entry ∈ entries, Proper entry.2) :
      Proper (.map entries)
  | object {entity : String} {fields : List (String × Value)}
      (distinct : (fields.map Prod.fst).Nodup) (values : ∀ field ∈ fields, Proper field.2) :
      Proper (.object entity fields)

theorem sameItems_iff {xs ys : List Value} :
    sameItems xs ys = true ↔ List.Forall₂ (fun a b => same a b = true) xs ys := by
  induction xs generalizing ys with
  | nil => cases ys <;> simp [sameItems]
  | cons x xs ih => cases ys <;> simp [sameItems, ih]

theorem sameEntries_iff {xs ys : List (Value × Value)} :
    sameEntries xs ys = true ↔ Covers same (fun a b => same a b = true) xs ys := by
  induction xs with
  | nil => simp [sameEntries, Covers]
  | cons x xs ih =>
      obtain ⟨key, value⟩ := x
      rw [sameEntries, Bool.and_eq_true, ih, Covers, Covers, List.forall_mem_cons]
      refine and_congr_left fun _ => ?_
      cases ys.find? fun other => same key other.1 <;> simp

theorem lookup_eq_find? {κ α : Type} [BEq κ] (key : κ) (entries : List (κ × α)) :
    entries.lookup key = (entries.find? fun entry => key == entry.1).map Prod.snd := by
  induction entries with
  | nil => rfl
  | cons entry rest ih =>
      rw [List.lookup_cons, List.find?_cons, ih]
      cases key == entry.1 <;> rfl

theorem sameFields_iff {xs ys : List (String × Value)} :
    sameFields xs ys = true ↔ Covers (· == ·) (fun a b => same a b = true) xs ys := by
  induction xs with
  | nil => simp [sameFields, Covers]
  | cons x xs ih =>
      obtain ⟨name, value⟩ := x
      rw [sameFields, Bool.and_eq_true, ih, Covers, Covers, List.forall_mem_cons, lookup_eq_find?]
      refine and_congr_left fun _ => ?_
      cases ys.find? fun other => name == other.1 <;> simp

theorem fair_atom {β : Type} {R : β → β → Prop} (h : Equivalence R) (build : β → Value)
    (forth : ∀ x a, same (build x) a = true ↔ ∃ y, a = build y ∧ R x y)
    (back : ∀ x a, same a (build x) = true ↔ ∃ y, a = build y ∧ R y x) (x : β) :
    Fair (fun a b => same a b = true) Proper (build x) :=
  .lift build forth back (fun _ => trivial) (.of_equivalence h (fun _ => True) x)

theorem Proper.entries {entries : List (Value × Value)} (h : (Value.map entries).Proper) :
    ProperEntries same Proper Proper entries := by
  cases h with
  | map distinct keys values => exact ⟨distinct, keys, values⟩

theorem properFields {fields : List (String × Value)} (distinct : (fields.map Prod.fst).Nodup)
    (values : ∀ field ∈ fields, Proper field.2) :
    ProperEntries (· == ·) (fun _ => True) Proper fields :=
  ⟨(List.pairwise_map.mp distinct).imp fun hne => by simpa using hne, fun _ _ => trivial, values⟩

theorem Proper.fields {entity : String} {fields : List (String × Value)}
    (h : (Value.object entity fields).Proper) :
    ProperEntries (· == ·) (fun _ => True) Proper fields := by
  cases h with
  | object distinct values => exact properFields distinct values

theorem fair_name (name : String) :
    Fair (fun a b : String => (a == b) = true) (fun _ => True) name := by
  have names : Equivalence fun a b : String => (a == b) = true :=
    ⟨fun _ => ReflBEq.rfl, BEq.symm, BEq.trans⟩
  exact .of_equivalence names _ name

theorem Proper.fair {a : Value} (h : a.Proper) : Fair (fun a b => same a b = true) Proper a := by
  induction h with
  | null =>
      have all : Equivalence fun _ _ : Unit => True := by constructor <;> simp
      refine fair_atom all (fun _ => .null) ?_ ?_ ()
      · intro x a
        cases a <;> simp [same]
      · intro x a
        cases a <;> simp [same]
  | bool b =>
      apply fair_atom eq_equivalence .bool
      · intro x a
        cases a <;> simp [same]
        exact eq_comm
      · intro x a
        cases a <;> simp [same]
  | number n =>
      have equiv : Equivalence fun a b : Number => (a == b) = true :=
        ⟨fun a => ReflBEq.rfl, BEq.symm, BEq.trans⟩
      apply fair_atom equiv .number
      · intro x a
        cases a <;> simp [same]
      · intro x a
        cases a <;> simp [same]
  | text s =>
      apply fair_atom eq_equivalence .text
      · intro x a
        cases a <;> simp [same]
        exact eq_comm
      · intro x a
        cases a <;> simp [same]
  | bytes data =>
      apply fair_atom eq_equivalence .bytes
      · intro x a
        cases a <;> simp [same]
        exact eq_comm
      · intro x a
        cases a <;> simp [same]
  | list all ih =>
      refine .lift Value.list ?_ ?_ ?_ (.items ih)
      · intro x a
        cases a <;> simp [same, sameItems_iff]
      · intro x a
        cases a <;> simp [same, sameItems_iff]
      · intro y hy
        cases hy with
        | list all => exact all
  | map distinct keys values ihk ihv =>
      refine .lift Value.map ?_ ?_ ?_ (.entries ⟨distinct, keys, values⟩ ihk ihv)
      · intro x a
        cases a <;> simp [same, sameEntries_iff, Agree]
      · intro x a
        cases a <;> simp [same, sameEntries_iff, Agree]
      · exact Proper.entries
  | @object entity fields distinct values ih =>
      have fair := Fair.entries (properFields distinct values) (fun x _ => fair_name x.1) ih
      refine .lift (fun p : String × List (String × Value) => Value.object p.1 p.2) ?_ ?_ ?_
        (fair.tagged entity)
      · rintro ⟨x, xs⟩ a
        cases a <;> simp [same, sameFields_iff, Agree, and_assoc]
      · rintro ⟨x, xs⟩ a
        cases a <;> simp [same, sameFields_iff, Agree, and_assoc]
      · exact Proper.fields

theorem Proper.same_symm {a b : Value} (ha : a.Proper) (hb : b.Proper) : (a == b) = (b == a) := by
  rw [Bool.eq_iff_iff]
  exact ha.fair.symm hb

theorem Proper.same_trans {a b c : Value} (ha : a.Proper) (hb : b.Proper) (hc : c.Proper)
    (hab : (a == b) = true) (hbc : (b == c) = true) : (a == c) = true :=
  ha.fair.left hb hc hab hbc

end Value
end RowGraph
