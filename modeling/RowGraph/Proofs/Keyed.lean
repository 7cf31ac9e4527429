import Mathlib.Data.List.Induction
import Mathlib.Data.List.Nodup
import RowGraph.Keyed

/-!
# Keys of keyed entries

How the keys and the look-ups of a keyed list change. Putting new entries one after another leaves
the distinct keys in order of first use (`keys_foldl_putNew`); changing and erasing an entry do not
touch the others.
-/

namespace RowGraph.Keyed

variable {κ α β : Type}

/-! ## Distinct items -/

section scan

variable [BEq κ]

theorem distinct_sublist (items : List κ) : (distinct items).Sublist items := by
  induction items with
  | nil => exact .slnil
  | cons item rest ih => exact (List.filter_sublist.trans ih).cons_cons _

theorem distinct_concat_of_any (items : List κ) (x : κ) : distinct (items ++ [x]) =
    if items.any (· == x) then distinct items else distinct items ++ [x] := by
  induction items with
  | nil => rfl
  | cons item rest ih =>
      simp only [List.cons_append, distinct, ih, List.any_cons, Bool.or_eq_true]
      by_cases hr : rest.any (· == x) = true
      · simp [hr]
      · cases hx : item == x <;> simp [hr, hx]

/-- The items without those equal to one that a scan from the left has found. -/
inductive Firsts : List κ → List κ → Prop where
  | nil : Firsts [] []
  | seen {items found : List κ} {x : κ} (scan : Firsts items found)
      (held : ∃ y ∈ found, (y == x) = true) : Firsts (items ++ [x]) found
  | new {items found : List κ} {x : κ} (scan : Firsts items found)
      (fresh : ∀ y ∈ found, (y == x) = false) : Firsts (items ++ [x]) (found ++ [x])

namespace Firsts

variable {items found : List κ}

theorem pairwise (h : Firsts items found) : found.Pairwise fun x y => (x == y) = false := by
  induction h with
  | nil => exact .nil
  | seen _ _ ih => exact ih
  | new _ fresh ih =>
      rw [List.pairwise_append]
      exact ⟨ih, List.pairwise_singleton .., fun y hy x hx => List.mem_singleton.mp hx ▸ fresh y hy⟩

theorem subset (h : Firsts items found) : found ⊆ items := by
  induction h with
  | nil => exact List.Subset.refl _
  | seen _ _ ih => exact List.subset_append_of_subset_left _ ih
  | new _ _ ih =>
      exact List.append_subset.mpr
        ⟨List.subset_append_of_subset_left _ ih, List.subset_append_right ..⟩

end Firsts

section equivalence

variable {P : κ → Prop} (refl : ∀ {a : κ}, P a → (a == a) = true)
  (trans : ∀ {a b c : κ}, P a → P b → P c → (a == b) = true → (b == c) = true → (a == c) = true)

include refl trans

theorem exists_mem_distinct {items : List κ} (proper : ∀ item ∈ items, P item) {x : κ}
    (hx : x ∈ items) : ∃ y ∈ distinct items, (y == x) = true := by
  induction items with
  | nil => cases hx
  | cons item rest ih =>
      rw [List.forall_mem_cons] at proper
      rcases List.mem_cons.mp hx with rfl | hr
      · exact ⟨x, List.mem_cons_self .., refl proper.1⟩
      · obtain ⟨y, hy, hyx⟩ := ih proper.2 hr
        have held := (distinct_sublist rest).subset hy
        cases hi : item == y with
        | true =>
            have same := trans proper.1 (proper.2 y held) (proper.2 x hr) hi hyx
            exact ⟨item, List.mem_cons_self .., same⟩
        | false => exact ⟨y, List.mem_cons_of_mem _ (List.mem_filter.mpr ⟨hy, by simp [hi]⟩), hyx⟩

theorem firsts_distinct {items : List κ} (proper : ∀ item ∈ items, P item) :
    Firsts items (distinct items) := by
  induction items using List.reverseRecOn with
  | nil => exact .nil
  | append_singleton items x ih =>
      have before : ∀ item ∈ items, P item :=
        fun item hi => proper item (List.mem_append_left _ hi)
      have last : P x := proper x (by simp)
      rw [distinct_concat_of_any]
      split
      · next held =>
        obtain ⟨y, hy, hyx⟩ := List.any_eq_true.mp held
        obtain ⟨first, hf, hfy⟩ := exists_mem_distinct refl trans before hy
        have proper := before first ((distinct_sublist items).subset hf)
        exact .seen (ih before) ⟨first, hf, trans proper (before y hy) last hfy hyx⟩
      · next fresh =>
        refine .new (ih before) fun y hy => ?_
        rw [Bool.eq_false_iff]
        intro hyx
        exact fresh (List.any_eq_true.mpr ⟨y, (distinct_sublist items).subset hy, hyx⟩)

end equivalence

end scan

section distinct

variable [BEq κ] [LawfulBEq κ]

theorem mem_distinct {x : κ} {items : List κ} : x ∈ distinct items ↔ x ∈ items := by
  induction items with
  | nil => simp [distinct]
  | cons item rest ih =>
      simp only [distinct, List.mem_cons, List.mem_filter, ih]
      by_cases h : x = item
      · simp [h]
      · have hne : (item == x) = false := by simpa using Ne.symm h
        simp [h, hne]

theorem nodup_distinct (items : List κ) : (distinct items).Nodup := by
  induction items with
  | nil => simp [distinct]
  | cons item rest ih =>
      rw [distinct, List.nodup_cons]
      exact ⟨by simp, ih.filter _⟩

theorem distinct_of_nodup {items : List κ} (h : items.Nodup) : distinct items = items := by
  induction items with
  | nil => rfl
  | cons item rest ih =>
      obtain ⟨hm, hr⟩ := List.nodup_cons.mp h
      rw [distinct, ih hr, List.filter_eq_self.mpr]
      intro x hx
      have : item ≠ x := fun he => hm (he ▸ hx)
      simpa using this

theorem distinct_concat {κ : Type} [DecidableEq κ] (items : List κ) (x : κ) :
    distinct (items ++ [x]) = if x ∈ items then distinct items else distinct items ++ [x] := by
  rw [distinct_concat_of_any]
  have same : (items.any (· == x)) = true ↔ x ∈ items := by simp
  simp only [same]

theorem distinct_cons_of_not_mem {x : κ} {items : List κ} (h : x ∉ items) :
    distinct (x :: items) = x :: distinct items := by
  rw [distinct, List.filter_eq_self.mpr]
  intro y hy
  have : x ≠ y := fun he => h (he ▸ mem_distinct.mp hy)
  simpa using this

theorem distinct_map {μ : Type} [BEq μ] [LawfulBEq μ] {f : κ → μ} (hf : Function.Injective f)
    (items : List κ) : distinct (items.map f) = (distinct items).map f := by
  induction items with
  | nil => rfl
  | cons item rest ih =>
      have same : ∀ other, (f item == f other) = (item == other) := by
        intro other
        rw [Bool.eq_iff_iff, beq_iff_eq, beq_iff_eq]
        exact hf.eq_iff
      simp only [List.map_cons, distinct, ih, List.filter_map, Function.comp_def, same]

theorem distinct_filter (p : κ → Bool) (items : List κ) :
    distinct (items.filter p) = (distinct items).filter p := by
  induction items with
  | nil => rfl
  | cons item rest ih =>
      cases hp : p item with
      | true =>
          simp only [List.filter_cons_of_pos hp, distinct, ih, List.filter_filter, Bool.and_comm]
      | false =>
          have skip : p item ≠ true := by simp [hp]
          rw [List.filter_cons_of_neg skip, ih, distinct, List.filter_cons_of_neg skip,
            List.filter_filter]
          refine List.filter_congr fun other _ => ?_
          cases same : item == other with
          | false => simp
          | true => rw [← eq_of_beq same, hp]; rfl

end distinct

section congr

variable [DecidableEq κ] [DecidableEq β] {items others : List κ}

theorem distinct_append (front back : List κ) : distinct (front ++ back) =
    distinct front ++ (distinct back).filter fun item => !decide (item ∈ front) := by
  induction front with
  | nil => simp [distinct]
  | cons item rest ih =>
      rw [List.cons_append, distinct, distinct, ih, List.filter_append, List.cons_append,
        List.filter_filter]
      refine congrArg (item :: _ ++ ·) (List.filter_congr fun other _ => ?_)
      by_cases same : other = item
      · simp [same]
      · simp [same, Ne.symm same]

theorem distinct_append_of_subset {front back : List κ} (h : back ⊆ front) :
    distinct (front ++ back) = distinct front := by
  have none : (distinct back).filter (fun item => !decide (item ∈ front)) = [] := by
    refine List.filter_eq_nil_iff.mpr fun item hm => ?_
    simpa using h (mem_distinct.mp hm)
  rw [distinct_append, none, List.append_nil]

theorem mem_congr (h : distinct items = distinct others) {x : κ} : x ∈ items ↔ x ∈ others := by
  rw [← mem_distinct, h, mem_distinct]

theorem distinct_append_congr (h : distinct items = distinct others) {back more : List κ}
    (hb : distinct back = distinct more) :
    distinct (items ++ back) = distinct (others ++ more) := by
  rw [distinct_append, distinct_append, h, hb]
  simp only [mem_congr h]

theorem distinct_flatMap (f : κ → List β) (items : List κ) :
    distinct (items.flatMap f) = distinct ((distinct items).flatMap f) := by
  induction items using List.reverseRecOn with
  | nil => rfl
  | append_singleton items item ih =>
      rw [List.flatMap_append, distinct_concat]
      split
      · next held =>
        rw [List.flatMap_singleton, distinct_append_of_subset, ih]
        exact fun x hx => List.mem_flatMap.mpr ⟨item, held, hx⟩
      · rw [List.flatMap_append]
        exact distinct_append_congr ih rfl

theorem distinct_flatMap_congr (h : distinct items = distinct others) (f : κ → List β) :
    distinct (items.flatMap f) = distinct (others.flatMap f) := by
  rw [distinct_flatMap, h, ← distinct_flatMap]

theorem distinct_filterMap_congr (h : distinct items = distinct others) (f : κ → Option β) :
    distinct (items.filterMap f) = distinct (others.filterMap f) := by
  simp only [List.filterMap_eq_flatMap_toList]
  exact distinct_flatMap_congr h _

theorem distinct_filter_congr (h : distinct items = distinct others) (p : κ → Bool) :
    distinct (items.filter p) = distinct (others.filter p) := by
  rw [distinct_filter, h, distinct_filter]

/-- A fold that ignores what it has done already goes through the distinct items only. -/
theorem foldl_distinct {σ : Type} {f : σ → κ → σ} (Done : κ → σ → Prop)
    (does : ∀ state item, Done item (f state item))
    (keeps : ∀ state item other, Done item state → Done item (f state other))
    (ignores : ∀ state item, Done item state → f state item = state) (items : List κ) (start : σ) :
    items.foldl f start = (distinct items).foldl f start := by
  have done : ∀ (items : List κ) (start : σ), ∀ item ∈ items, Done item (items.foldl f start) := by
    intro items
    induction items using List.reverseRecOn with
    | nil => simp
    | append_singleton items last ih =>
        intro start item hm
        rw [List.foldl_append]
        rcases List.mem_append.mp hm with hm | hm
        · exact keeps _ item last (ih start item hm)
        · rw [List.mem_singleton.mp hm]
          exact does _ last
  induction items using List.reverseRecOn with
  | nil => rfl
  | append_singleton items last ih =>
      rw [List.foldl_append, distinct_concat]
      split
      · next held => rw [← ih]; exact ignores _ last (done items start last held)
      · rw [List.foldl_append, ih]

end congr

/-! ## Values under any keys -/

section values

variable [BEq κ] {P : α → Prop} {key : κ} {value : α} {entries : List (κ × α)}

theorem of_lookup (all : ∀ entry ∈ entries, P entry.2) (h : entries.lookup key = some value) :
    P value := by
  induction entries with
  | nil => cases h
  | cons entry rest ih =>
      obtain ⟨k, held⟩ := entry
      rw [List.forall_mem_cons] at all
      rw [List.lookup_cons] at h
      split at h
      · cases h
        exact all.1
      · exact ih all.2 h

theorem forall_put (all : ∀ entry ∈ entries, P entry.2) (key : κ) (hv : P value) :
    ∀ entry ∈ put key value entries, P entry.2 := by
  induction entries with
  | nil => simpa [put] using hv
  | cons entry rest ih =>
      obtain ⟨k, held⟩ := entry
      rw [List.forall_mem_cons] at all
      rw [put]
      split
      · exact List.forall_mem_cons.mpr ⟨hv, all.2⟩
      · exact List.forall_mem_cons.mpr ⟨all.1, ih all.2⟩

theorem lookup_map_snd (f : α → β) (key : κ) (entries : List (κ × α)) :
    (entries.map fun entry => (entry.1, f entry.2)).lookup key = (entries.lookup key).map f := by
  induction entries with
  | nil => rfl
  | cons entry rest ih =>
      obtain ⟨k, v⟩ := entry
      simp only [List.map_cons, List.lookup_cons, ih]
      cases key == k <;> rfl

theorem put_map_snd (f : α → β) (key : κ) (value : α) (entries : List (κ × α)) :
    put key (f value) (entries.map fun entry => (entry.1, f entry.2)) =
      (put key value entries).map fun entry => (entry.1, f entry.2) := by
  induction entries with
  | nil => rfl
  | cons entry rest ih =>
      obtain ⟨k, v⟩ := entry
      simp only [List.map_cons, put, ih]
      split <;> rfl

theorem ofPairs_concat (pairs : List (κ × α)) (pair : κ × α) :
    ofPairs (pairs ++ [pair]) = put pair.1 pair.2 (ofPairs pairs) := by
  rw [ofPairs, List.foldl_append]
  rfl

theorem firsts_ofPairs {Q : κ → Prop}
    (symm : ∀ {a b : κ}, Q a → Q b → (a == b) = (b == a)) {pairs : List (κ × α)}
    (keys : ∀ pair ∈ pairs, Q pair.1) :
    Firsts (pairs.map Prod.fst) ((ofPairs pairs).map Prod.fst) := by
  induction pairs using List.reverseRecOn with
  | nil => exact .nil
  | append_singleton pairs pair ih =>
      rw [List.forall_mem_append, List.forall_mem_singleton] at keys
      have scan := ih keys.1
      -- a new key is compared with the keys held, the scan compares the other way
      have turned : ∀ y ∈ (ofPairs pairs).map Prod.fst, (pair.1 == y) = (y == pair.1) := by
        intro y hy
        obtain ⟨other, ho, rfl⟩ := List.mem_map.mp (scan.subset hy)
        exact symm keys.2 (keys.1 other ho)
      rw [List.map_append, List.map_singleton, ofPairs_concat, keys_put]
      split
      · next found =>
        obtain ⟨entry, he, same⟩ := List.any_eq_true.mp found
        have hm := List.mem_map_of_mem (f := Prod.fst) he
        exact .seen scan ⟨entry.1, hm, turned entry.1 hm ▸ same⟩
      · next fresh =>
        refine .new scan fun y hy => ?_
        obtain ⟨entry, he, rfl⟩ := List.mem_map.mp hy
        rw [← turned entry.1 hy, Bool.eq_false_iff]
        exact fun same => fresh (List.any_eq_true.mpr ⟨entry, he, same⟩)

theorem forall_ofPairs {pairs : List (κ × α)} (all : ∀ pair ∈ pairs, P pair.2) :
    ∀ entry ∈ ofPairs pairs, P entry.2 := by
  induction pairs using List.reverseRecOn with
  | nil => exact fun _ he => nomatch he
  | append_singleton pairs pair ih =>
      rw [List.forall_mem_append, List.forall_mem_singleton] at all
      rw [ofPairs_concat]
      exact forall_put (ih all.1) pair.1 all.2

theorem ofPairs_map_snd (f : α → β) (pairs : List (κ × α)) :
    ofPairs (pairs.map fun entry => (entry.1, f entry.2)) =
      (ofPairs pairs).map fun entry => (entry.1, f entry.2) := by
  induction pairs using List.reverseRecOn with
  | nil => rfl
  | append_singleton pairs pair ih =>
      rw [List.map_append, List.map_singleton, ofPairs_concat, ofPairs_concat, ih]
      exact put_map_snd f pair.1 pair.2 _

end values

/-! ## Look-up and membership -/

theorem lookup_isSome_iff_mem [DecidableEq κ] {key : κ} {entries : List (κ × α)} :
    (entries.lookup key).isSome ↔ key ∈ entries.map Prod.fst := by
  simp only [List.lookup_isSome_iff, List.mem_map, beq_iff_eq]
  constructor
  · rintro ⟨entry, hm, rfl⟩
    exact ⟨entry, hm, rfl⟩
  · rintro ⟨entry, hm, rfl⟩
    exact ⟨entry, hm, rfl⟩

theorem exists_lookup_of_keys [DecidableEq κ] {entries others : List (κ × α)}
    (keys : others.map Prod.fst = entries.map Prod.fst) {key : κ} {v : α}
    (found : entries.lookup key = some v) : ∃ other, others.lookup key = some other := by
  rw [← Option.isSome_iff_exists, lookup_isSome_iff_mem, keys, ← lookup_isSome_iff_mem, found]
  rfl

theorem mem_of_lookup [DecidableEq κ] {key : κ} {value : α} {entries : List (κ × α)}
    (h : entries.lookup key = some value) : (key, value) ∈ entries := by
  obtain ⟨front, back, rfl, -⟩ := List.lookup_eq_some_iff.mp h
  simp

theorem lookup_of_mem [DecidableEq κ] {key : κ} {value : α} {entries : List (κ × α)}
    (hn : (entries.map Prod.fst).Nodup) (hm : (key, value) ∈ entries) :
    entries.lookup key = some value := by
  induction entries with
  | nil => cases hm
  | cons entry rest ih =>
      obtain ⟨k, v⟩ := entry
      simp only [List.map_cons, List.nodup_cons] at hn
      rcases List.mem_cons.mp hm with he | hr
      · simp only [Prod.mk.injEq] at he
        obtain ⟨rfl, rfl⟩ := he
        exact List.lookup_cons_self
      · have hk : (key == k) = false := by
          rw [beq_eq_false_iff_ne]
          rintro rfl
          exact hn.1 (List.mem_map_of_mem hr)
        rw [List.lookup_cons, hk]
        exact ih hn.2 hr

theorem put_of_fresh [BEq κ] {key : κ} {entries : List (κ × α)} (value : α)
    (h : ∀ entry ∈ entries, (key == entry.1) = false) :
    put key value entries = entries ++ [(key, value)] := by
  induction entries with
  | nil => rfl
  | cons entry rest ih =>
      obtain ⟨k, held⟩ := entry
      rw [List.forall_mem_cons] at h
      rw [put, h.1, if_neg Bool.false_ne_true, ih h.2, List.cons_append]

theorem ofPairs_of_pairwise [BEq κ] {pairs : List (κ × α)}
    (h : pairs.Pairwise fun x y => (y.1 == x.1) = false) : ofPairs pairs = pairs := by
  induction pairs using List.reverseRecOn with
  | nil => rfl
  | append_singleton pairs pair ih =>
      rw [List.pairwise_append] at h
      have fresh : ∀ entry ∈ pairs, (pair.1 == entry.1) = false :=
        fun entry he => h.2.2 entry he pair (List.mem_singleton_self pair)
      rw [ofPairs_concat, ih h.1, put_of_fresh pair.2 fresh]

theorem put_of_not_mem [DecidableEq κ] {key : κ} {entries : List (κ × α)} (value : α)
    (h : key ∉ entries.map Prod.fst) : put key value entries = entries ++ [(key, value)] := by
  refine put_of_fresh value fun entry he => ?_
  rw [beq_eq_false_iff_ne]
  exact fun same => h (same ▸ List.mem_map_of_mem he)

theorem ofPairs_of_nodup [DecidableEq κ] {pairs : List (κ × α)} (h : (pairs.map Prod.fst).Nodup) :
    ofPairs pairs = pairs := by
  refine ofPairs_of_pairwise ((List.pairwise_map.mp h).imp fun apart => ?_)
  simpa using Ne.symm apart

/-! ## Putting new entries -/

section putNew

variable [DecidableEq κ]

theorem putNew_of_mem {key : κ} {entries : List (κ × α)} (value : α)
    (h : key ∈ entries.map Prod.fst) : putNew key value entries = entries := by
  rw [putNew, if_pos (lookup_isSome_iff_mem.mpr h)]

theorem putNew_of_not_mem {key : κ} {entries : List (κ × α)} (value : α)
    (h : key ∉ entries.map Prod.fst) : putNew key value entries = entries ++ [(key, value)] := by
  rw [putNew, if_neg (fun hs => h (lookup_isSome_iff_mem.mp hs))]

theorem keys_putNew (key : κ) (value : α) (entries : List (κ × α)) :
    (putNew key value entries).map Prod.fst =
      if key ∈ entries.map Prod.fst then entries.map Prod.fst
      else entries.map Prod.fst ++ [key] := by
  by_cases h : key ∈ entries.map Prod.fst
  · rw [putNew_of_mem value h, if_pos h]
  · rw [putNew_of_not_mem value h, if_neg h]
    simp

theorem mem_putNew {entry : κ × α} {key : κ} {value : α} {entries : List (κ × α)}
    (h : entry ∈ putNew key value entries) : entry ∈ entries ∨ entry = (key, value) := by
  rw [putNew] at h
  split at h
  · exact .inl h
  · simpa using h

theorem keys_foldl_putNew (f : β → κ) (g : β → α) (items : List β) (entries : List (κ × α))
    (hn : (entries.map Prod.fst).Nodup) :
    (items.foldl (fun held item => putNew (f item) (g item) held) entries).map Prod.fst =
      distinct (entries.map Prod.fst ++ items.map f) := by
  induction items using List.reverseRecOn with
  | nil => simp [distinct_of_nodup hn]
  | append_singleton items item ih =>
      rw [List.foldl_append, List.foldl_cons, List.foldl_nil, keys_putNew, ih, List.map_append,
        List.map_singleton, ← List.append_assoc, distinct_concat]
      simp only [mem_distinct]

end putNew

/-! ## Changing and erasing entries -/

section change

variable [DecidableEq κ]

theorem keys_modify (key : κ) (change : α → α) (entries : List (κ × α)) :
    (modify key change entries).map Prod.fst = entries.map Prod.fst := by
  induction entries with
  | nil => rfl
  | cons entry rest ih =>
      obtain ⟨k, v⟩ := entry
      simp only [modify]
      split
      · simp
      · simp [ih]

theorem lookup_modify (key other : κ) (change : α → α) (entries : List (κ × α)) :
    (modify key change entries).lookup other =
      if other = key then (entries.lookup key).map change else entries.lookup other := by
  induction entries with
  | nil => simp [modify]
  | cons entry rest ih =>
      obtain ⟨k, v⟩ := entry
      simp only [modify]
      by_cases hk : key = k
      · subst hk
        by_cases ho : other = key
        · simp [ho]
        · have hne : (other == key) = false := by simpa using ho
          simp [List.lookup_cons, ho, hne]
      · have hne : (key == k) = false := by simpa using hk
        simp only [hne, Bool.false_eq_true, if_false, List.lookup_cons, ih]
        by_cases ho : other = key
        · subst ho
          simp [hne]
        · simp [ho]

theorem mem_modify {entry : κ × α} {key : κ} {change : α → α} {entries : List (κ × α)}
    (h : entry ∈ modify key change entries) :
    entry ∈ entries ∨ ∃ value, entries.lookup key = some value ∧ entry = (key, change value) := by
  induction entries with
  | nil => cases h
  | cons other rest ih =>
      obtain ⟨k, v⟩ := other
      simp only [modify] at h
      by_cases hk : key = k
      · subst hk
        simp only [beq_self_eq_true, if_true] at h
        rcases List.mem_cons.mp h with rfl | hr
        · exact .inr ⟨v, List.lookup_cons_self, rfl⟩
        · exact .inl (List.mem_cons_of_mem _ hr)
      · have hne : (key == k) = false := by simpa using hk
        simp only [hne, Bool.false_eq_true, if_false] at h
        rcases List.mem_cons.mp h with rfl | hr
        · exact .inl (List.mem_cons_self ..)
        · rcases ih hr with hm | ⟨value, hv, rfl⟩
          · exact .inl (List.mem_cons_of_mem _ hm)
          · refine .inr ⟨value, ?_, rfl⟩
            rw [List.lookup_cons, hne, hv]

theorem modify_of_lookup_none {key : κ} {entries : List (κ × α)} (change : α → α)
    (h : entries.lookup key = none) : modify key change entries = entries := by
  induction entries with
  | nil => rfl
  | cons entry rest ih =>
      obtain ⟨k, v⟩ := entry
      by_cases hk : key = k
      · subst hk
        rw [List.lookup_cons_self] at h
        cases h
      · have hne : (key == k) = false := by simpa using hk
        rw [List.lookup_cons, hne] at h
        simp only [modify, hne, Bool.false_eq_true, if_false, ih h]

theorem modify_congr {key : κ} {value : α} {entries : List (κ × α)} {change other : α → α}
    (h : entries.lookup key = some value) (same : change value = other value) :
    modify key change entries = modify key other entries := by
  induction entries with
  | nil => rfl
  | cons entry rest ih =>
      obtain ⟨k, v⟩ := entry
      by_cases hk : key = k
      · subst hk
        rw [List.lookup_cons_self, Option.some.injEq] at h
        simp [modify, h, same]
      · have hne : (key == k) = false := by simpa using hk
        rw [List.lookup_cons, hne] at h
        simp only [modify, hne, Bool.false_eq_true, if_false, ih h]

theorem modify_modify (key : κ) (change other : α → α) (entries : List (κ × α)) :
    modify key other (modify key change entries) = modify key (fun v => other (change v)) entries := by
  induction entries with
  | nil => rfl
  | cons entry rest ih =>
      obtain ⟨k, v⟩ := entry
      by_cases hk : key = k
      · simp [modify, hk]
      · have hne : (key == k) = false := by simpa using hk
        simp only [modify, hne, Bool.false_eq_true, if_false, ih]

theorem modify_id (key : κ) (entries : List (κ × α)) : modify key (fun v => v) entries = entries := by
  induction entries with
  | nil => rfl
  | cons entry rest ih =>
      obtain ⟨k, v⟩ := entry
      simp only [modify, ih, ite_self]

theorem keys_erase_sublist (key : κ) (entries : List (κ × α)) :
    ((erase key entries).map Prod.fst).Sublist (entries.map Prod.fst) := by
  induction entries with
  | nil => exact .slnil
  | cons entry rest ih =>
      obtain ⟨k, v⟩ := entry
      simp only [erase]
      split
      · exact .cons _ (List.Sublist.refl _)
      · exact ih.cons_cons _

theorem lookup_erase_of_ne {key other : κ} (h : other ≠ key)
    (entries : List (κ × α)) : (erase key entries).lookup other = entries.lookup other := by
  induction entries with
  | nil => rfl
  | cons entry rest ih =>
      obtain ⟨k, v⟩ := entry
      simp only [erase]
      split
      · next hk =>
        have hne : (other == k) = false := by
          rw [beq_eq_false_iff_ne, ← beq_iff_eq.mp hk]
          exact h
        simp [List.lookup_cons, hne]
      · simp [List.lookup_cons, ih]

theorem lookup_erase_self {key : κ} {entries : List (κ × α)}
    (hn : (entries.map Prod.fst).Nodup) : (erase key entries).lookup key = none := by
  induction entries with
  | nil => rfl
  | cons entry rest ih =>
      obtain ⟨k, v⟩ := entry
      simp only [List.map_cons, List.nodup_cons] at hn
      simp only [erase]
      split
      · next hk =>
        rw [← Option.not_isSome_iff_eq_none, lookup_isSome_iff_mem, beq_iff_eq.mp hk]
        exact hn.1
      · next hk => simp [List.lookup_cons, hk, ih hn.2]

end change

end RowGraph.Keyed
