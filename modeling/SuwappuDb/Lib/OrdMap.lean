import Mathlib.Data.List.Induction
import Mathlib.Data.List.Sort
import Mathlib.Data.List.Perm.Basic
import Mathlib.Order.Defs.LinearOrder

/-!
# Ordered finite maps

A finite map kept as a list of entries with strictly increasing keys. The list is determined by
the map, so two maps that look up alike are *equal* (`OrdMap.ext_get?`); that is what lets a
theorem speak of "the same entries" as an equation.

* `insertEntry` works on a bare entry list. A nested inductive type can only hold the bare list,
  so its lemmas are stated for lists, with `SortedKeys` where the order matters.
* `OrdMap` bundles the list with its order. `get?`, `insert` and `erase` have one lookup lemma
  each, and `insertAll` one for any list of entries without repeated keys, and one for any list at
  all (`get?_insertAll_lastAt`).
* `embed` carries a map over to other keys in the same order and to other values; it commutes with
  `insert` and `erase`.
* `lastBelow` is the entry with the largest key below a bound.
-/

/-! ## Looking up a key -/

section Lookup

variable {κ ν μ : Type*} [BEq κ] [LawfulBEq κ]

theorem lookup_cons_ite (k k' : κ) (v : ν) (l : List (κ × ν)) [Decidable (k = k')] :
    ((k', v) :: l).lookup k = if k = k' then some v else l.lookup k := by
  by_cases h : k = k'
  · simp [h]
  · rw [List.lookup_cons, beq_false_of_ne h, if_neg h]

/-- With distinct keys, an entry is in the list exactly when its key looks it up. -/
theorem lookup_eq_some_iff {l : List (κ × ν)} (h : (l.map Prod.fst).Nodup) {k : κ} {v : ν} :
    l.lookup k = some v ↔ (k, v) ∈ l := by
  classical
  induction l with
  | nil => simp
  | cons p rest ih =>
      obtain ⟨k', v'⟩ := p
      obtain ⟨hnot, hrest⟩ := List.nodup_cons.1 h
      rw [lookup_cons_ite]
      by_cases hk : k = k'
      · subst hk
        have hmem : (k, v) ∉ rest := fun hm => hnot (List.mem_map.2 ⟨_, hm, rfl⟩)
        simp [hmem, eq_comm]
      · simp [hk, ih hrest]

theorem lookup_eq_none_iff {l : List (κ × ν)} {k : κ} :
    l.lookup k = none ↔ k ∉ l.map Prod.fst := by
  classical
  induction l with
  | nil => simp
  | cons p rest ih =>
      obtain ⟨k', v'⟩ := p
      rw [lookup_cons_ite]
      by_cases hk : k = k' <;> simp [hk, ih]

theorem lookup_perm {l l' : List (κ × ν)} (h : (l.map Prod.fst).Nodup) (hp : l.Perm l') (k : κ) :
    l.lookup k = l'.lookup k := by
  have h' : (l'.map Prod.fst).Nodup := (hp.map Prod.fst).nodup_iff.1 h
  refine Option.ext fun v => ?_
  rw [lookup_eq_some_iff h, lookup_eq_some_iff h', hp.mem_iff]

theorem lookup_map_snd (f : ν → μ) (l : List (κ × ν)) (k : κ) :
    (l.map fun p => (p.1, f p.2)).lookup k = (l.lookup k).map f := by
  classical
  induction l with
  | nil => rfl
  | cons p rest ih =>
      rw [List.map_cons, lookup_cons_ite, lookup_cons_ite, ih]
      split_ifs <;> rfl

end Lookup

/-! ## Entry lists in key order -/

section Entries

variable {κ ν μ : Type*} [LinearOrder κ]

/-- Keys strictly increase along the list. -/
def SortedKeys (l : List (κ × ν)) : Prop := l.Pairwise fun p q => p.1 < q.1

/-- Insert into an entry list kept in key order, replacing the entry already there. -/
def insertEntry (k : κ) (v : ν) : List (κ × ν) → List (κ × ν)
  | [] => [(k, v)]
  | (k', v') :: rest =>
      if k < k' then (k, v) :: (k', v') :: rest
      else if k = k' then (k, v) :: rest
      else (k', v') :: insertEntry k v rest

theorem SortedKeys.nodup_keys {l : List (κ × ν)} (h : SortedKeys l) : (l.map Prod.fst).Nodup :=
  (List.pairwise_map.2 h).imp ne_of_lt

theorem lookup_insertEntry (k k' : κ) (v : ν) (l : List (κ × ν)) :
    (insertEntry k v l).lookup k' = if k' = k then some v else l.lookup k' := by
  induction l with
  | nil => simp [insertEntry, lookup_cons_ite]
  | cons p rest ih =>
      obtain ⟨k'', v''⟩ := p
      rw [insertEntry]
      by_cases hlt : k < k''
      · rw [if_pos hlt, lookup_cons_ite]
      · by_cases heq : k = k''
        · subst heq
          rw [if_neg hlt, if_pos rfl, lookup_cons_ite, lookup_cons_ite]
          by_cases hk : k' = k <;> simp [hk]
        · rw [if_neg hlt, if_neg heq, lookup_cons_ite, lookup_cons_ite, ih]
          by_cases hk : k' = k
          · subst hk
            simp [heq]
          · simp [hk]

theorem mem_insertEntry {k : κ} {v : ν} {p : κ × ν} {l : List (κ × ν)}
    (h : p ∈ insertEntry k v l) : p = (k, v) ∨ p ∈ l := by
  induction l with
  | nil => simpa [insertEntry] using h
  | cons q rest ih =>
      obtain ⟨k', v'⟩ := q
      rw [insertEntry] at h
      split_ifs at h with hlt heq
      · simpa using h
      · rcases List.mem_cons.1 h with h | h
        · exact Or.inl h
        · exact Or.inr (List.mem_cons_of_mem _ h)
      · rcases List.mem_cons.1 h with h | h
        · exact Or.inr (h ▸ List.mem_cons_self)
        · exact (ih h).imp_right (List.mem_cons_of_mem _)

theorem sortedKeys_insertEntry {l : List (κ × ν)} (h : SortedKeys l) (k : κ) (v : ν) :
    SortedKeys (insertEntry k v l) := by
  induction l with
  | nil => exact List.pairwise_singleton _ _
  | cons q rest ih =>
      obtain ⟨k', v'⟩ := q
      obtain ⟨hhead, htail⟩ := List.pairwise_cons.1 h
      rw [insertEntry]
      split_ifs with hlt heq
      · refine List.pairwise_cons.2 ⟨fun p hp => ?_, h⟩
        rcases List.mem_cons.1 hp with rfl | hp
        · exact hlt
        · exact hlt.trans (hhead p hp)
      · subst heq
        exact List.pairwise_cons.2 ⟨hhead, htail⟩
      · refine List.pairwise_cons.2 ⟨fun p hp => ?_, ih htail⟩
        rcases mem_insertEntry hp with rfl | hp
        · exact lt_of_le_of_ne (not_lt.1 hlt) (Ne.symm heq)
        · exact hhead p hp

theorem SortedKeys.map_snd {l : List (κ × ν)} (h : SortedKeys l) (f : ν → μ) :
    SortedKeys (l.map fun p => (p.1, f p.2)) :=
  List.pairwise_map.2 h

/-- Sorted entry lists that look up alike are equal. -/
theorem SortedKeys.ext {l l' : List (κ × ν)} (h : SortedKeys l) (h' : SortedKeys l')
    (heq : ∀ k, l.lookup k = l'.lookup k) : l = l' := by
  have hmem : ∀ p, p ∈ l ↔ p ∈ l' := by
    rintro ⟨k, v⟩
    rw [← lookup_eq_some_iff h.nodup_keys, ← lookup_eq_some_iff h'.nodup_keys, heq]
  have hperm : l.Perm l' :=
    (List.perm_ext_iff_of_nodup h.nodup_keys.of_map h'.nodup_keys.of_map).2 hmem
  exact hperm.eq_of_pairwise (fun a b _ _ hab hba => absurd hab (not_lt.2 hba.le)) h h'

end Entries

/-! ## The bundled map -/

/-- A finite map from `κ` to `ν`, as its entries in key order. -/
structure OrdMap (κ ν : Type*) [LinearOrder κ] where
  /-- The entries, in key order. -/
  entries : List (κ × ν)
  sorted : SortedKeys entries

namespace OrdMap

variable {κ ν : Type*} [LinearOrder κ]

instance [DecidableEq ν] : DecidableEq (OrdMap κ ν) := fun m m' =>
  decidable_of_iff (m.entries = m'.entries) (by cases m; cases m'; simp)

instance : EmptyCollection (OrdMap κ ν) := ⟨⟨[], List.Pairwise.nil⟩⟩

instance : Inhabited (OrdMap κ ν) := ⟨∅⟩

/-- The value at `k`, if there is one. -/
def get? (m : OrdMap κ ν) (k : κ) : Option ν := m.entries.lookup k

/-- Set the value at `k`. -/
def insert (m : OrdMap κ ν) (k : κ) (v : ν) : OrdMap κ ν :=
  ⟨insertEntry k v m.entries, sortedKeys_insertEntry m.sorted k v⟩

/-- Drop the entry at `k`. -/
def erase (m : OrdMap κ ν) (k : κ) : OrdMap κ ν :=
  ⟨m.entries.filter fun p => p.1 ≠ k, m.sorted.filter _⟩

/-- Set every entry of a list, from left to right. -/
def insertAll (m : OrdMap κ ν) (l : List (κ × ν)) : OrdMap κ ν :=
  l.foldl (fun m p => m.insert p.1 p.2) m

/-- Keep and change entries by key and value. -/
def filterMap {μ : Type*} (m : OrdMap κ ν) (f : κ → ν → Option μ) : OrdMap κ μ :=
  ⟨m.entries.filterMap fun p => (f p.1 p.2).map fun w => (p.1, w),
    m.sorted.filterMap _ (by
      rintro ⟨k, v⟩ ⟨k', v'⟩ hlt p hp p' hp'
      obtain ⟨w, -, rfl⟩ := Option.map_eq_some_iff.1 hp
      obtain ⟨w', -, rfl⟩ := Option.map_eq_some_iff.1 hp'
      exact hlt)⟩

/-- Change the value at `k`, if there is one. -/
def modify (m : OrdMap κ ν) (k : κ) (f : ν → ν) : OrdMap κ ν :=
  m.filterMap fun k' v => some (if k' = k then f v else v)

/-- The entry with the largest key below `k`. -/
def lastBelow (m : OrdMap κ ν) (k : κ) : Option (κ × ν) :=
  (m.entries.filter fun p => p.1 < k).getLast?

@[simp] theorem get?_empty (k : κ) : (∅ : OrdMap κ ν).get? k = none := rfl

theorem get?_insert (m : OrdMap κ ν) (k k' : κ) (v : ν) [Decidable (k' = k)] :
    (m.insert k v).get? k' = if k' = k then some v else m.get? k' := by
  rw [get?, insert, lookup_insertEntry]
  split_ifs <;> rfl

@[simp] theorem get?_insert_self (m : OrdMap κ ν) (k : κ) (v : ν) :
    (m.insert k v).get? k = some v := by
  rw [get?_insert, if_pos rfl]

theorem mem_entries {m : OrdMap κ ν} {k : κ} {v : ν} : (k, v) ∈ m.entries ↔ m.get? k = some v :=
  (lookup_eq_some_iff m.sorted.nodup_keys).symm

theorem mem_keys {m : OrdMap κ ν} {k : κ} : k ∈ m.entries.map Prod.fst ↔ (m.get? k).isSome := by
  rw [List.mem_map, Option.isSome_iff_exists]
  constructor
  · rintro ⟨⟨k, v⟩, hmem, rfl⟩
    exact ⟨v, mem_entries.1 hmem⟩
  · rintro ⟨v, hv⟩
    exact ⟨(k, v), mem_entries.2 hv, rfl⟩

/-- Maps with the same keys have the same number of entries. -/
theorem length_entries_congr {μ : Type*} {m : OrdMap κ ν} {m' : OrdMap κ μ}
    (h : ∀ k, (m.get? k).isSome = (m'.get? k).isSome) :
    m.entries.length = m'.entries.length := by
  have hperm : (m.entries.map Prod.fst).Perm (m'.entries.map Prod.fst) :=
    (List.perm_ext_iff_of_nodup m.sorted.nodup_keys m'.sorted.nodup_keys).2 fun k => by
      rw [mem_keys, mem_keys, h k]
  simpa using hperm.length_eq

/-- The keys up to the first that fails a test are those below which, themselves included, none
fails it. -/
theorem mem_takeWhile_keys {m : OrdMap κ ν} {p : κ → Bool} {k : κ} :
    k ∈ (m.entries.map Prod.fst).takeWhile p ↔
      (m.get? k).isSome ∧ ∀ j ≤ k, (m.get? j).isSome → p j = true := by
  have hsorted : (m.entries.map Prod.fst).Pairwise (· < ·) := List.pairwise_map.2 m.sorted
  simp only [← mem_keys]
  generalize m.entries.map Prod.fst = l at hsorted
  induction l with
  | nil => simp
  | cons a l ih =>
      obtain ⟨hbelow, hsorted⟩ := List.pairwise_cons.1 hsorted
      have hrest : k ∈ l.takeWhile p ↔ k ∈ l ∧ ∀ j ≤ k, j ∈ l → p j = true := ih hsorted
      cases hp : p a with
      | true =>
          rw [List.takeWhile_cons, if_pos hp, List.mem_cons, hrest]
          constructor
          · rintro (rfl | ⟨hmem, hall⟩)
            · refine ⟨List.mem_cons_self, fun j hj hmem => ?_⟩
              rcases List.mem_cons.1 hmem with rfl | hmem
              · exact hp
              · exact absurd (hbelow j hmem) (not_lt.2 hj)
            · refine ⟨List.mem_cons_of_mem a hmem, fun j hj hmem' => ?_⟩
              rcases List.mem_cons.1 hmem' with rfl | hmem'
              · exact hp
              · exact hall j hj hmem'
          · rintro ⟨hmem, hall⟩
            refine (List.mem_cons.1 hmem).imp id fun hmem => ⟨hmem, fun j hj hmem' => ?_⟩
            exact hall j hj (List.mem_cons_of_mem a hmem')
      | false =>
          rw [List.takeWhile_cons, if_neg (by simp [hp])]
          simp only [List.not_mem_nil, false_iff, not_and]
          intro hmem hall
          have hle : a ≤ k := by
            rcases List.mem_cons.1 hmem with rfl | hmem
            · exact le_refl k
            · exact (hbelow k hmem).le
          rw [hall a hle List.mem_cons_self] at hp
          cases hp

/-- Maps that look up alike are equal. -/
theorem ext_get? {m m' : OrdMap κ ν} (h : ∀ k, m.get? k = m'.get? k) : m = m' := by
  have hentries : m.entries = m'.entries := m.sorted.ext m'.sorted h
  cases m
  cases m'
  cases hentries
  rfl

theorem get?_erase (m : OrdMap κ ν) (k k' : κ) [Decidable (k' = k)] :
    (m.erase k).get? k' = if k' = k then none else m.get? k' := by
  refine Option.ext fun v => ?_
  rw [← mem_entries, erase, List.mem_filter]
  by_cases h : k' = k
  · simp [h]
  · simp [h, mem_entries]

theorem get?_filterMap {μ : Type*} (m : OrdMap κ ν) (f : κ → ν → Option μ) (k : κ) :
    (m.filterMap f).get? k = (m.get? k).bind (f k) := by
  refine Option.ext fun w => ?_
  rw [← mem_entries, filterMap, List.mem_filterMap]
  constructor
  · rintro ⟨⟨k', v⟩, hmem, hf⟩
    obtain ⟨w', hw', heq⟩ := Option.map_eq_some_iff.1 hf
    obtain ⟨rfl, rfl⟩ := Prod.mk.inj heq
    rw [mem_entries.1 hmem]
    exact hw'
  · intro h
    obtain ⟨v, hv, hf⟩ := Option.bind_eq_some_iff.1 h
    exact ⟨(k, v), mem_entries.2 hv, by simp [hf]⟩

theorem get?_modify (m : OrdMap κ ν) (k k' : κ) (f : ν → ν) :
    (m.modify k f).get? k' = if k' = k then (m.get? k').map f else m.get? k' := by
  rw [modify, get?_filterMap]
  split_ifs with h
  · rw [Option.map_eq_bind]
    rfl
  · exact Option.bind_fun_some _

theorem entries_eq_nil {m : OrdMap κ ν} : m.entries = [] ↔ ∀ k, m.get? k = none := by
  constructor
  · intro h k
    rw [get?, h, List.lookup_nil]
  · intro h
    have hempty : m = ∅ := ext_get? h
    rw [hempty]
    rfl

theorem insertAll_append (m : OrdMap κ ν) (l l' : List (κ × ν)) :
    m.insertAll (l ++ l') = (m.insertAll l).insertAll l' :=
  List.foldl_append

theorem get?_insertAll {l : List (κ × ν)} (h : (l.map Prod.fst).Nodup) (m : OrdMap κ ν) (k : κ) :
    (m.insertAll l).get? k = (l.lookup k).or (m.get? k) := by
  induction l generalizing m with
  | nil => simp [insertAll]
  | cons p rest ih =>
      obtain ⟨k', v⟩ := p
      obtain ⟨hnot, hrest⟩ := List.nodup_cons.1 h
      have hcons : m.insertAll ((k', v) :: rest) = (m.insert k' v).insertAll rest := rfl
      rw [hcons, ih hrest, get?_insert, lookup_cons_ite]
      by_cases hk : k = k'
      · subst hk
        simp [lookup_eq_none_iff.2 hnot]
      · simp [hk]

/-- A lookup among a map's entries in any order, whatever equality test it uses. -/
theorem lookup_arranged {m : OrdMap κ ν} {l : List (κ × ν)} (h : l.Perm m.entries) (k : κ)
    [BEq κ] [LawfulBEq κ] : l.lookup k = m.get? k := by
  have hnodup : (l.map Prod.fst).Nodup := (h.map Prod.fst).nodup_iff.2 m.sorted.nodup_keys
  refine Option.ext fun v => ?_
  rw [lookup_eq_some_iff hnodup, h.mem_iff, mem_entries]

theorem get?_insertAll_eq_some {l : List (κ × ν)} (h : (l.map Prod.fst).Nodup) {m : OrdMap κ ν}
    {k : κ} {v : ν} : (m.insertAll l).get? k = some v ↔
      (k, v) ∈ l ∨ k ∉ l.map Prod.fst ∧ m.get? k = some v := by
  rw [get?_insertAll h, Option.or_eq_some_iff, lookup_eq_some_iff h, lookup_eq_none_iff]

/-- Inserting the entries of one map into another, in any order. -/
theorem get?_insertAll_perm {w : OrdMap κ ν} {l : List (κ × ν)} (h : l.Perm w.entries)
    (m : OrdMap κ ν) (k : κ) : (m.insertAll l).get? k = (w.get? k).or (m.get? k) := by
  have hnodup : (l.map Prod.fst).Nodup := (h.map Prod.fst).nodup_iff.2 w.sorted.nodup_keys
  rw [get?_insertAll hnodup, lookup_perm hnodup h]
  rfl

/-- Inserting the entries of a map makes the map. -/
theorem insertAll_entries (m : OrdMap κ ν) : (∅ : OrdMap κ ν).insertAll m.entries = m :=
  ext_get? fun k => (get?_insertAll_perm (List.Perm.refl _) ∅ k).trans Option.or_none

/-- Sorting the entries by their keys undoes any arrangement of them. -/
theorem mergeSort_arranged {m : OrdMap κ ν} {l : List (κ × ν)} (h : l.Perm m.entries) :
    l.mergeSort (fun p q => p.1 ≤ q.1) = m.entries := by
  have hperm := (List.mergeSort_perm l fun p q => decide (p.1 ≤ q.1)).trans h
  have hsorted : (l.mergeSort fun p q => decide (p.1 ≤ q.1)).Pairwise fun p q => p.1 ≤ q.1 := by
    refine (List.pairwise_mergeSort ?_ ?_ l).imp fun hle => of_decide_eq_true hle
    · intro a b c hab hbc
      exact decide_eq_true ((of_decide_eq_true hab).trans (of_decide_eq_true hbc))
    · intro a b
      simpa using le_total a.1 b.1
  refine hperm.eq_of_pairwise (fun p q hp hq hle hge => ?_) hsorted (m.sorted.imp fun hlt => hlt.le)
  have hkey : p.1 = q.1 := le_antisymm hle hge
  have hp' := mem_entries.1 (hperm.subset hp)
  rw [hkey, mem_entries.1 hq] at hp'
  exact Prod.ext hkey (Option.some.inj hp').symm

/-! ## Entries set one after another -/

/-- The value of the last entry at `k`. -/
def lastAt (k : κ) (l : List (κ × ν)) : Option ν :=
  (l.filter fun p => p.1 = k).getLast?.map Prod.snd

theorem lastAt_concat (k : κ) (l : List (κ × ν)) (p : κ × ν) :
    lastAt k (l ++ [p]) = if p.1 = k then some p.2 else lastAt k l := by
  rw [lastAt, List.filter_append]
  split_ifs with h
  · rw [List.filter_cons_of_pos (by simpa using h), List.filter_nil, List.getLast?_concat,
      Option.map_some]
  · rw [List.filter_cons_of_neg (by simpa using h), List.filter_nil, List.append_nil, lastAt]

theorem mem_of_lastAt {k : κ} {l : List (κ × ν)} {v : ν} (h : lastAt k l = some v) :
    (k, v) ∈ l := by
  obtain ⟨p, hp, rfl⟩ := Option.map_eq_some_iff.1 h
  obtain ⟨hmem, hkey⟩ := List.mem_filter.1 (List.mem_of_getLast? hp)
  rwa [← of_decide_eq_true hkey]

theorem exists_lastAt {k : κ} {l : List (κ × ν)} {v : ν} (h : (k, v) ∈ l) :
    ∃ w, lastAt k l = some w := by
  have hne : (l.filter fun p => p.1 = k) ≠ [] :=
    List.ne_nil_of_mem (List.mem_filter.2 ⟨h, by simp⟩)
  exact ⟨_, by rw [lastAt, List.getLast?_eq_some_getLast hne, Option.map_some]⟩

/-- After entries have been set from left to right, a key has the value of its last entry. -/
theorem get?_insertAll_lastAt (m : OrdMap κ ν) (l : List (κ × ν)) (k : κ) :
    (m.insertAll l).get? k = (lastAt k l).or (m.get? k) := by
  induction l using List.reverseRecOn with
  | nil => rfl
  | append_singleton l p ih =>
      have hconcat : m.insertAll (l ++ [p]) = (m.insertAll l).insert p.1 p.2 :=
        insertAll_append m l [p]
      rw [hconcat, get?_insert, lastAt_concat, ih]
      by_cases hk : k = p.1
      · rw [if_pos hk, if_pos hk.symm, Option.some_or]
      · rw [if_neg hk, if_neg (Ne.symm hk)]

/-! ## Other keys and values -/

section Embed

variable {κ' μ : Type*} [LinearOrder κ'] (e : κ ↪o κ') (f : ν → μ)

theorem sortedKeys_embed {l : List (κ × ν)} (h : SortedKeys l) :
    SortedKeys (l.map fun p => (e p.1, f p.2)) :=
  List.pairwise_map.2 (h.imp fun hlt => e.lt_iff_lt.2 hlt)

/-- The same entries under other keys in the same order, with other values. -/
def embed (m : OrdMap κ ν) : OrdMap κ' μ :=
  ⟨m.entries.map fun p => (e p.1, f p.2), sortedKeys_embed e f m.sorted⟩

theorem get?_embed_eq_some {m : OrdMap κ ν} {k' : κ'} {w : μ} :
    (m.embed e f).get? k' = some w ↔ ∃ k v, m.get? k = some v ∧ e k = k' ∧ f v = w := by
  rw [← mem_entries, embed, List.mem_map]
  simp only [Prod.exists, mem_entries, Prod.mk.injEq]

theorem get?_embed (m : OrdMap κ ν) (k : κ) : (m.embed e f).get? (e k) = (m.get? k).map f := by
  ext w
  rw [get?_embed_eq_some, Option.map_eq_some_iff]
  constructor
  · rintro ⟨k', v, hget, hk, hw⟩
    rw [e.injective hk] at hget
    exact ⟨v, hget, hw⟩
  · rintro ⟨v, hget, hw⟩
    exact ⟨k, v, hget, rfl, hw⟩

theorem get?_embed_eq_none (m : OrdMap κ ν) {k' : κ'} (h : ∀ k, e k ≠ k') :
    (m.embed e f).get? k' = none := by
  rw [Option.eq_none_iff_forall_ne_some]
  intro w hw
  obtain ⟨k, -, -, hk, -⟩ := (get?_embed_eq_some e f).1 hw
  exact h k hk

theorem embed_insert (m : OrdMap κ ν) (k : κ) (v : ν) :
    (m.insert k v).embed e f = (m.embed e f).insert (e k) (f v) := by
  refine ext_get? fun k' => ?_
  by_cases hk' : ∃ j, e j = k'
  · obtain ⟨j, rfl⟩ := hk'
    rw [get?_insert, get?_embed, get?_embed, get?_insert]
    by_cases hj : j = k
    · rw [if_pos hj, if_pos (congrArg e hj), Option.map_some]
    · rw [if_neg hj, if_neg (e.injective.ne hj)]
  · have hne : ∀ j, e j ≠ k' := fun j hj => hk' ⟨j, hj⟩
    rw [get?_insert, if_neg (hne k).symm, get?_embed_eq_none e f _ hne,
      get?_embed_eq_none e f _ hne]

theorem embed_erase (m : OrdMap κ ν) (k : κ) :
    (m.erase k).embed e f = (m.embed e f).erase (e k) := by
  refine ext_get? fun k' => ?_
  by_cases hk' : ∃ j, e j = k'
  · obtain ⟨j, rfl⟩ := hk'
    rw [get?_erase, get?_embed, get?_embed, get?_erase]
    by_cases hj : j = k
    · rw [if_pos hj, if_pos (congrArg e hj), Option.map_none]
    · rw [if_neg hj, if_neg (e.injective.ne hj)]
  · have hne : ∀ j, e j ≠ k' := fun j hj => hk' ⟨j, hj⟩
    rw [get?_erase, if_neg (hne k).symm, get?_embed_eq_none e f _ hne,
      get?_embed_eq_none e f _ hne]

end Embed

/-! ## The last entry below a bound -/

theorem lastBelow_eq_none {m : OrdMap κ ν} {k : κ} :
    m.lastBelow k = none ↔ ∀ j < k, m.get? j = none := by
  rw [lastBelow, List.getLast?_eq_none_iff, List.filter_eq_nil_iff]
  constructor
  · intro h j hj
    by_contra hne
    obtain ⟨v, hv⟩ := Option.ne_none_iff_exists'.1 hne
    exact h (j, v) (mem_entries.2 hv) (by simpa using hj)
  · rintro h ⟨j, v⟩ hmem hlt
    have hj : j < k := by simpa using hlt
    rw [mem_entries, h j hj] at hmem
    cases hmem

/-- The last element of a sorted list bounds every key of the list. -/
theorem le_of_getLast?_sorted {l : List (κ × ν)} (h : SortedKeys l) {p q : κ × ν}
    (hlast : l.getLast? = some p) (hq : q ∈ l) : q.1 ≤ p.1 := by
  obtain ⟨init, rfl⟩ := List.getLast?_eq_some_iff.1 hlast
  rcases List.mem_append.1 hq with hq | hq
  · exact ((List.pairwise_append.1 h).2.2 q hq p List.mem_cons_self).le
  · rw [List.mem_singleton.1 hq]

theorem lastBelow_eq_some {m : OrdMap κ ν} {k j : κ} {v : ν} :
    m.lastBelow k = some (j, v) ↔
      j < k ∧ m.get? j = some v ∧ ∀ i, j < i → i < k → m.get? i = none := by
  have hsorted : SortedKeys (m.entries.filter fun p => p.1 < k) := m.sorted.filter _
  constructor
  · intro h
    have hmem := List.mem_of_getLast? h
    obtain ⟨hj, hlt⟩ := List.mem_filter.1 hmem
    refine ⟨by simpa using hlt, mem_entries.1 hj, fun i hji hik => ?_⟩
    by_contra hne
    obtain ⟨w, hw⟩ := Option.ne_none_iff_exists'.1 hne
    have hi : (i, w) ∈ m.entries.filter fun p => p.1 < k :=
      List.mem_filter.2 ⟨mem_entries.2 hw, by simpa using hik⟩
    exact absurd (le_of_getLast?_sorted hsorted h hi) (not_le.2 hji)
  · rintro ⟨hlt, hget, hnone⟩
    have hmem : (j, v) ∈ m.entries.filter fun p => p.1 < k :=
      List.mem_filter.2 ⟨mem_entries.2 hget, by simpa using hlt⟩
    cases hlast : m.lastBelow k with
    | none => rw [lastBelow_eq_none.1 hlast j hlt] at hget; cases hget
    | some p =>
        obtain ⟨i, w⟩ := p
        obtain ⟨hi, hik⟩ := List.mem_filter.1 (List.mem_of_getLast? hlast)
        have hji : j ≤ i := le_of_getLast?_sorted hsorted hlast hmem
        rcases hji.eq_or_lt with rfl | hji
        · rw [mem_entries.1 hi] at hget
          rw [Option.some.inj hget]
        · rw [mem_entries, hnone i hji (by simpa using hik)] at hi
          cases hi

/-- `lastBelow` only looks at the keys below its bound. -/
theorem lastBelow_congr {m m' : OrdMap κ ν} {k : κ} (h : ∀ j < k, m.get? j = m'.get? j) :
    m.lastBelow k = m'.lastBelow k := by
  refine Option.ext fun p => ?_
  obtain ⟨j, v⟩ := p
  rw [lastBelow_eq_some, lastBelow_eq_some]
  refine and_congr_right fun hj => ?_
  rw [h j hj]
  refine and_congr_right fun _ => forall_congr' fun i => imp_congr_right fun _ => ?_
  exact imp_congr_right fun hi => by rw [h i hi]

end OrdMap

/-! ## Iteration order

An unordered map is modelled by an `OrdMap` together with the order in which some run happens to
visit its entries, which is any permutation of them. -/

/-- An order in which to visit the elements of any list. -/
structure IterOrder where
  /-- The elements in the order of the visit. -/
  arrange : {α : Type} → List α → List α
  perm : ∀ {α : Type} (l : List α), (arrange l).Perm l

namespace IterOrder

/-- Visit in the order given. -/
def inOrder : IterOrder := ⟨id, fun _ => List.Perm.refl _⟩

instance : Inhabited IterOrder := ⟨inOrder⟩

end IterOrder
