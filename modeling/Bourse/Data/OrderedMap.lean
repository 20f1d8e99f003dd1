import Mathlib.Algebra.Ring.Nat
import Mathlib.Data.List.Sort
import Mathlib.Order.Monotone.Basic
import Mathlib.Algebra.BigOperators.Group.List.Basic

/-!
# Finite maps with ordered keys

A finite map is the list of its entries in strictly ascending key order.  The
order is a field of the structure, so two maps are equal exactly when they agree
at every key, and ascending and descending iteration are the entry list and its
reverse.  The module is independent of what is stored in the map.
-/

namespace Bourse

universe u v

/-- A finite map from `κ` to `ν`, kept as its entries in ascending key order. -/
structure OrderedMap (κ : Type u) (ν : Type v) [LinearOrder κ] where
  entries : List (κ × ν)
  ascending : entries.Pairwise fun left right => left.1 < right.1
  deriving DecidableEq

namespace OrderedMap

variable {κ : Type u} {ν : Type v} [LinearOrder κ]

/-! ## Operations on entry lists -/

/-- The value of the first entry at `key`. -/
def lookup (key : κ) : List (κ × ν) → Option ν
  | [] => none
  | (head, value) :: rest => if key = head then some value else lookup key rest

/-- Put `value` at `key` in an ascending entry list, replacing an old value. -/
def insertEntry (key : κ) (value : ν) : List (κ × ν) → List (κ × ν)
  | [] => [(key, value)]
  | (head, old) :: rest =>
      if key < head then (key, value) :: (head, old) :: rest
      else if key = head then (key, value) :: rest
      else (head, old) :: insertEntry key value rest

/-- Remove every entry at `key`. -/
def removeEntry (key : κ) (entries : List (κ × ν)) : List (κ × ν) :=
  entries.filter fun entry => entry.1 ≠ key

theorem lookup_insertEntry (key other : κ) (value : ν) (entries : List (κ × ν)) :
    lookup other (insertEntry key value entries) =
      if other = key then some value else lookup other entries := by
  induction entries with
  | nil => simp [insertEntry, lookup]
  | cons entry rest ih =>
      rcases entry with ⟨head, old⟩
      simp only [insertEntry]
      split
      · simp only [lookup]
      · split
        next equal =>
          subst equal
          simp only [lookup]
          split <;> rfl
        next distinct =>
          simp only [lookup, ih]
          by_cases same : other = head
          · subst same
            simp [Ne.symm distinct]
          · simp [same]

theorem lookup_removeEntry (key other : κ) (entries : List (κ × ν)) :
    lookup other (removeEntry key entries) =
      if other = key then none else lookup other entries := by
  induction entries with
  | nil => simp [removeEntry, lookup]
  | cons entry rest ih =>
      rcases entry with ⟨head, value⟩
      simp only [removeEntry] at ih ⊢
      by_cases equal : head = key
      · subst equal
        simp only [List.filter_cons, ne_eq, not_true_eq_false, decide_false,
          Bool.false_eq_true, if_false, ih, lookup]
        split <;> rfl
      · simp only [List.filter_cons, ne_eq, equal, not_false_eq_true,
          decide_true, if_true, lookup, ih]
        by_cases same : other = head
        · subst same
          simp [equal]
        · simp [same]

theorem key_of_mem_insertEntry {key : κ} {value : ν} {entries : List (κ × ν)}
    {entry : κ × ν} (member : entry ∈ insertEntry key value entries) :
    entry.1 = key ∨ entry ∈ entries := by
  induction entries with
  | nil =>
      simp only [insertEntry, List.mem_singleton] at member
      exact Or.inl (by rw [member])
  | cons head rest ih =>
      simp only [insertEntry] at member
      split at member
      · rcases List.mem_cons.mp member with equal | member
        · exact Or.inl (by rw [equal])
        · exact Or.inr member
      · split at member
        · rcases List.mem_cons.mp member with equal | member
          · exact Or.inl (by rw [equal])
          · exact Or.inr (List.mem_cons_of_mem _ member)
        · rcases List.mem_cons.mp member with equal | member
          · exact Or.inr (by rw [equal]; exact List.mem_cons_self)
          · exact (ih member).imp_right (List.mem_cons_of_mem _)

theorem insertEntry_ascending (key : κ) (value : ν) {entries : List (κ × ν)}
    (ascending : entries.Pairwise fun left right => left.1 < right.1) :
    (insertEntry key value entries).Pairwise fun left right =>
      left.1 < right.1 := by
  induction entries with
  | nil => simp [insertEntry]
  | cons head rest ih =>
      rcases List.pairwise_cons.mp ascending with ⟨below, restAscending⟩
      simp only [insertEntry]
      split
      next less =>
        refine List.pairwise_cons.mpr ⟨?_, ascending⟩
        intro entry member
        rcases List.mem_cons.mp member with equal | member
        · rw [equal]; exact less
        · exact less.trans (below entry member)
      next notLess =>
        split
        next equal =>
          subst equal
          exact List.pairwise_cons.mpr ⟨below, restAscending⟩
        next distinct =>
          refine List.pairwise_cons.mpr ⟨?_, ih restAscending⟩
          intro entry member
          rcases key_of_mem_insertEntry member with equal | member
          · rw [equal]
            exact lt_of_le_of_ne (not_lt.mp notLess) (Ne.symm distinct)
          · exact below entry member

/-! ## The map operations -/

/-- The map without entries. -/
def empty : OrderedMap κ ν := ⟨[], List.Pairwise.nil⟩

/-- The value stored at `key`, if any. -/
def get? (map : OrderedMap κ ν) (key : κ) : Option ν :=
  lookup key map.entries

/-- Whether `key` has a value. -/
def containsKey (map : OrderedMap κ ν) (key : κ) : Bool :=
  (map.get? key).isSome

/-- Set the value at `key`. -/
def insert (map : OrderedMap κ ν) (key : κ) (value : ν) : OrderedMap κ ν where
  entries := insertEntry key value map.entries
  ascending := insertEntry_ascending key value map.ascending

/-- Remove the value at `key`. -/
def remove (map : OrderedMap κ ν) (key : κ) : OrderedMap κ ν where
  entries := removeEntry key map.entries
  ascending := map.ascending.filter _

/-- Number of keys. -/
def len (map : OrderedMap κ ν) : Nat := map.entries.length

/-- The entry with the least key. -/
def firstKeyValue (map : OrderedMap κ ν) : Option (κ × ν) := map.entries.head?

/-- The entry with the greatest key. -/
def lastKeyValue (map : OrderedMap κ ν) : Option (κ × ν) :=
  map.entries.getLast?

/-! ## Lookup laws -/

@[simp] theorem get?_empty (key : κ) :
    (empty : OrderedMap κ ν).get? key = none := rfl

theorem get?_insert (map : OrderedMap κ ν) (key other : κ) (value : ν) :
    (map.insert key value).get? other =
      if other = key then some value else map.get? other :=
  lookup_insertEntry key other value map.entries

theorem get?_remove (map : OrderedMap κ ν) (key other : κ) :
    (map.remove key).get? other =
      if other = key then none else map.get? other :=
  lookup_removeEntry key other map.entries

@[simp] theorem containsKey_eq_true {map : OrderedMap κ ν} {key : κ} :
    map.containsKey key = true ↔ ∃ value, map.get? key = some value :=
  Option.isSome_iff_exists

@[simp] theorem containsKey_eq_false {map : OrderedMap κ ν} {key : κ} :
    map.containsKey key = false ↔ map.get? key = none := by
  simp [containsKey]

theorem containsKey_insert {map : OrderedMap κ ν} {key other : κ} {value : ν} :
    (map.insert key value).containsKey other ↔ other = key ∨ map.containsKey other := by
  simp only [containsKey_eq_true, get?_insert]
  by_cases same : other = key
  · simp [same]
  · simp [same]

theorem containsKey_remove {map : OrderedMap κ ν} {key other : κ} :
    (map.remove key).containsKey other ↔ other ≠ key ∧ map.containsKey other := by
  simp only [containsKey_eq_true, get?_remove]
  by_cases same : other = key
  · simp [same]
  · simp [same]

theorem lookup_eq_some_iff {key : κ} {value : ν} {entries : List (κ × ν)}
    (ascending : entries.Pairwise fun left right => left.1 < right.1) :
    lookup key entries = some value ↔ (key, value) ∈ entries := by
  induction entries with
  | nil => simp [lookup]
  | cons entry rest ih =>
      rcases entry with ⟨head, old⟩
      rcases List.pairwise_cons.mp ascending with ⟨below, restAscending⟩
      simp only [lookup, List.mem_cons, Prod.mk.injEq]
      split
      next equal =>
        subst equal
        have absent : (key, value) ∉ rest := fun member =>
          lt_irrefl key (below _ member)
        simp [absent, eq_comm]
      next distinct => simp [distinct, ih restAscending]

/-- Lookup reads off the entry list. -/
theorem mem_entries {map : OrderedMap κ ν} {key : κ} {value : ν} :
    (key, value) ∈ map.entries ↔ map.get? key = some value :=
  (lookup_eq_some_iff map.ascending).symm

/-- The keys of a map are pairwise distinct. -/
theorem keys_nodup (map : OrderedMap κ ν) : (map.entries.map Prod.fst).Nodup := by
  refine List.pairwise_map.mpr (map.ascending.imp ?_)
  intro left right less
  exact less.ne

/-- Maps that agree at every key are equal. -/
theorem ext_get? {left right : OrderedMap κ ν}
    (agree : ∀ key, left.get? key = right.get? key) : left = right := by
  have entriesEq : left.entries = right.entries := by
    have irrefl : Std.Irrefl fun a b : κ × ν => a.1 < b.1 :=
      ⟨fun a => lt_irrefl a.1⟩
    have antisymm : Std.Antisymm fun a b : κ × ν => a.1 < b.1 :=
      ⟨fun a b less greater => absurd greater (not_lt_of_gt less)⟩
    refine List.Pairwise.eq_of_mem_iff left.ascending right.ascending ?_
    intro entry
    rcases entry with ⟨key, value⟩
    rw [mem_entries, mem_entries, agree key]
  cases left
  cases right
  simpa using entriesEq

/-! ## Number of keys -/

/-- A new key is one more. -/
theorem length_insertEntry_of_absent {key : κ} {entries : List (κ × ν)}
    (absent : lookup key entries = none) (value : ν) :
    (insertEntry key value entries).length = entries.length + 1 := by
  induction entries with
  | nil => rfl
  | cons entry rest ih =>
      rcases entry with ⟨head, old⟩
      simp only [lookup] at absent
      split at absent
      next => cases absent
      next distinct =>
        rw [insertEntry, if_neg distinct]
        split
        · rfl
        · rw [List.length_cons, ih absent, List.length_cons]

theorem len_insert_of_absent {map : OrderedMap κ ν} {key : κ} (absent : map.get? key = none)
    (value : ν) : (map.insert key value).len = map.len + 1 :=
  length_insertEntry_of_absent absent value

theorem len_remove_le (map : OrderedMap κ ν) (key : κ) : (map.remove key).len ≤ map.len :=
  List.length_filter_le _ _

/-! ## Least and greatest keys -/

theorem firstKeyValue_eq_none {map : OrderedMap κ ν} :
    map.firstKeyValue = none ↔ map.entries = [] := by
  simp [firstKeyValue]

theorem lastKeyValue_eq_none {map : OrderedMap κ ν} :
    map.lastKeyValue = none ↔ map.entries = [] := by
  simp [lastKeyValue]

/-- The first entry carries the least key of the map. -/
theorem firstKeyValue_eq_some {map : OrderedMap κ ν} {key : κ} {value : ν} :
    map.firstKeyValue = some (key, value) ↔
      map.get? key = some value ∧
        ∀ other found, map.get? other = some found → key ≤ other := by
  constructor
  · intro first
    rcases List.head?_eq_some_iff.mp first with ⟨rest, split⟩
    refine ⟨mem_entries.mp (by rw [split]; exact List.mem_cons_self), ?_⟩
    intro other found present
    have member := mem_entries.mpr present
    rw [split] at member
    rcases List.mem_cons.mp member with equal | member
    · exact le_of_eq (Prod.mk.inj equal).1.symm
    · have ascending := map.ascending
      rw [split] at ascending
      exact (List.rel_of_pairwise_cons ascending member).le
  · intro first
    rcases first with ⟨present, least⟩
    have member := mem_entries.mpr present
    cases split : map.entries with
    | nil => rw [split] at member; exact absurd member List.not_mem_nil
    | cons head rest =>
        have headPresent : map.get? head.1 = some head.2 :=
          mem_entries.mp (by rw [split]; exact List.mem_cons_self)
        have le := least head.1 head.2 headPresent
        have ascending := map.ascending
        rw [split] at ascending member
        rcases List.mem_cons.mp member with equal | member
        · simp [firstKeyValue, split, equal]
        · exact absurd (List.rel_of_pairwise_cons ascending member) le.not_gt

/-- The last entry carries the greatest key of the map. -/
theorem lastKeyValue_eq_some {map : OrderedMap κ ν} {key : κ} {value : ν} :
    map.lastKeyValue = some (key, value) ↔
      map.get? key = some value ∧
        ∀ other found, map.get? other = some found → other ≤ key := by
  constructor
  · intro last
    rcases List.getLast?_eq_some_iff.mp last with ⟨rest, split⟩
    refine ⟨mem_entries.mp (by simp [split]), ?_⟩
    intro other found present
    have member := mem_entries.mpr present
    have ascending := map.ascending
    rw [split] at member ascending
    rcases List.mem_append.mp member with member | member
    · exact ((List.pairwise_append.mp ascending).2.2 _ member _
        List.mem_cons_self).le
    · rw [List.mem_singleton] at member
      exact le_of_eq (Prod.mk.inj member).1
  · intro last
    rcases last with ⟨present, greatest⟩
    have member := mem_entries.mpr present
    rcases List.eq_nil_or_concat map.entries with split | ⟨rest, last, split⟩
    · rw [split] at member
      exact absurd member List.not_mem_nil
    · have lastPresent : map.get? last.1 = some last.2 :=
        mem_entries.mp (by simp [split])
      have le := greatest last.1 last.2 lastPresent
      have ascending := map.ascending
      rw [split, List.concat_eq_append] at ascending member
      rcases List.mem_append.mp member with member | member
      · exact absurd ((List.pairwise_append.mp ascending).2.2 _ member _
          List.mem_cons_self) le.not_gt
      · rw [List.mem_singleton] at member
        simp [lastKeyValue, split, member]

/-! ## Updates at the two ends -/

section Ends

variable {map : OrderedMap κ ν} {key : κ} {value : ν} (new : ν) {rest : List (κ × ν)}

theorem entries_insert_first (split : map.entries = (key, value) :: rest) :
    (map.insert key new).entries = (key, new) :: rest := by
  simp [insert, insertEntry, split]

theorem entries_remove_first (split : map.entries = (key, value) :: rest) :
    (map.remove key).entries = rest := by
  have ascending := map.ascending
  rw [split] at ascending
  have kept : ∀ entry ∈ rest, entry.1 ≠ key := fun entry member =>
    (List.rel_of_pairwise_cons ascending member).ne'
  simp only [remove, removeEntry, split, List.filter_cons, ne_eq,
    not_true_eq_false, decide_false, Bool.false_eq_true, if_false]
  exact List.filter_eq_self.mpr (by simpa using kept)

theorem insertEntry_append {entries : List (κ × ν)}
    (below : ∀ entry ∈ entries, entry.1 < key) (tail : List (κ × ν)) :
    insertEntry key new (entries ++ tail) =
      entries ++ insertEntry key new tail := by
  induction entries with
  | nil => rfl
  | cons head entries ih =>
      have less := below head List.mem_cons_self
      have restBelow : ∀ entry ∈ entries, entry.1 < key := fun entry member =>
        below entry (List.mem_cons_of_mem _ member)
      simp [insertEntry, not_lt_of_gt less, less.ne', ih restBelow]

theorem below_of_last (split : map.entries = rest ++ [(key, value)]) :
    ∀ entry ∈ rest, entry.1 < key := by
  intro entry member
  have ascending := map.ascending
  rw [split] at ascending
  exact (List.pairwise_append.mp ascending).2.2 entry member _
    List.mem_cons_self

theorem entries_insert_last (split : map.entries = rest ++ [(key, value)]) :
    (map.insert key new).entries = rest ++ [(key, new)] := by
  simp only [insert, split, insertEntry_append new (below_of_last split)]
  simp [insertEntry]

theorem entries_remove_last (split : map.entries = rest ++ [(key, value)]) :
    (map.remove key).entries = rest := by
  have kept : ∀ entry ∈ rest, entry.1 ≠ key := fun entry member =>
    (below_of_last split entry member).ne
  simp only [remove, removeEntry, split, List.filter_append]
  simpa using kept

end Ends

/-! ## Sums over the entries -/

/-- A stored entry stands between those that insertion and removal at its key leave alone. -/
theorem exists_split {map : OrderedMap κ ν} {key : κ} {old : ν}
    (present : map.get? key = some old) :
    ∃ front back, map.entries = front ++ (key, old) :: back ∧
      (∀ new, (map.insert key new).entries = front ++ (key, new) :: back) ∧
      (map.remove key).entries = front ++ back := by
  rcases map with ⟨entries, ascending⟩
  simp only [get?] at present
  simp only [insert, remove, removeEntry]
  induction entries with
  | nil => cases present
  | cons entry rest ih =>
      rcases entry with ⟨head, value⟩
      rcases List.pairwise_cons.mp ascending with ⟨below, restAscending⟩
      rw [lookup] at present
      split at present
      next equal =>
        subst equal
        cases present
        have kept : rest.filter (fun entry => entry.1 ≠ key) = rest :=
          List.filter_eq_self.mpr fun entry member => by
            simpa using (below entry member).ne'
        refine ⟨[], rest, rfl, ?_, ?_⟩
        · intro new
          simp [insertEntry]
        · rw [List.filter_cons_of_neg (by simp), kept]
          rfl
      next distinct =>
        have less : head < key := below _ ((lookup_eq_some_iff restAscending).mp present)
        rcases ih restAscending present with ⟨front, back, split, inserted, removed⟩
        refine ⟨(head, value) :: front, back, by rw [split, List.cons_append], ?_, ?_⟩
        · intro new
          rw [insertEntry, if_neg (not_lt_of_gt less), if_neg distinct, inserted,
            List.cons_append]
        · rw [List.filter_cons_of_pos (by simpa using Ne.symm distinct), removed,
            List.cons_append]

/-- Total weight of the stored values. -/
def weight (size : ν → Nat) (map : OrderedMap κ ν) : Nat :=
  (map.entries.map fun entry => size entry.2).sum

theorem weight_insert {map : OrderedMap κ ν} {key : κ} {old : ν} (new : ν)
    (size : ν → Nat) (present : map.get? key = some old) :
    (map.insert key new).weight size + size old = map.weight size + size new := by
  rcases exists_split present with ⟨front, back, split, inserted, -⟩
  simp only [weight, split, inserted, List.map_append, List.map_cons, List.sum_append,
    List.sum_cons]
  omega

theorem weight_remove {map : OrderedMap κ ν} {key : κ} {old : ν}
    (size : ν → Nat) (present : map.get? key = some old) :
    (map.remove key).weight size + size old = map.weight size := by
  rcases exists_split present with ⟨front, back, split, -, removed⟩
  simp only [weight, split, removed, List.map_append, List.map_cons, List.sum_append,
    List.sum_cons]
  omega

/-! ## Reversing the key order -/

section Reflect

variable {reflection : κ → κ}

/-- The map seen through an order-reversing change of keys. -/
def reflect (reflection : κ → κ) (reversing : StrictAnti reflection)
    (map : OrderedMap κ ν) : OrderedMap κ ν where
  entries := (map.entries.map fun entry => (reflection entry.1, entry.2)).reverse
  ascending := by
    rw [List.pairwise_reverse, List.pairwise_map]
    exact map.ascending.imp fun less => reversing less

variable (reversing : StrictAnti reflection) (map : OrderedMap κ ν)

theorem get?_reflect (key : κ) :
    (map.reflect reflection reversing).get? (reflection key) = map.get? key := by
  have agree : ∀ value, (map.reflect reflection reversing).get? (reflection key) =
      some value ↔ map.get? key = some value := by
    intro value
    rw [← mem_entries, ← mem_entries]
    simp only [reflect, List.mem_reverse, List.mem_map, Prod.mk.injEq]
    constructor
    · intro image
      rcases image with ⟨entry, member, keyEq, rfl⟩
      rw [← reversing.injective keyEq]
      exact member
    · intro member
      exact ⟨(key, value), member, rfl, rfl⟩
  exact Option.ext agree

theorem reflect_insert (onto : Function.Surjective reflection) (key : κ) (value : ν) :
    (map.insert key value).reflect reflection reversing =
      (map.reflect reflection reversing).insert (reflection key) value := by
  apply ext_get?
  intro other
  rcases onto other with ⟨other, rfl⟩
  rw [get?_reflect, get?_insert, get?_insert, get?_reflect]
  simp only [reversing.injective.eq_iff]

theorem reflect_remove (onto : Function.Surjective reflection) (key : κ) :
    (map.remove key).reflect reflection reversing =
      (map.reflect reflection reversing).remove (reflection key) := by
  apply ext_get?
  intro other
  rcases onto other with ⟨other, rfl⟩
  rw [get?_reflect, get?_remove, get?_remove, get?_reflect]
  simp only [reversing.injective.eq_iff]

theorem firstKeyValue_reflect :
    (map.reflect reflection reversing).firstKeyValue =
      map.lastKeyValue.map fun entry => (reflection entry.1, entry.2) := by
  simp [firstKeyValue, lastKeyValue, reflect]

theorem lastKeyValue_reflect :
    (map.reflect reflection reversing).lastKeyValue =
      map.firstKeyValue.map fun entry => (reflection entry.1, entry.2) := by
  simp [firstKeyValue, lastKeyValue, reflect]

end Reflect

/-! ## Mapping values -/

section MapValues

variable {μ : Type*} (change : ν → μ) (map : OrderedMap κ ν)

/-- The map with every value changed. -/
def mapValues : OrderedMap κ μ where
  entries := map.entries.map fun entry => (entry.1, change entry.2)
  ascending := List.pairwise_map.mpr map.ascending

@[simp] theorem get?_mapValues (key : κ) :
    (map.mapValues change).get? key = (map.get? key).map change := by
  rcases map with ⟨entries, ascending⟩
  simp only [get?, mapValues]
  clear ascending
  induction entries with
  | nil => rfl
  | cons entry rest ih =>
      simp only [List.map_cons, lookup, ih]
      split <;> rfl

theorem mapValues_insert (key : κ) (value : ν) :
    (map.insert key value).mapValues change =
      (map.mapValues change).insert key (change value) := by
  apply ext_get?
  intro other
  simp only [get?_mapValues, get?_insert]
  split <;> rfl

theorem mapValues_remove (key : κ) :
    (map.remove key).mapValues change = (map.mapValues change).remove key := by
  apply ext_get?
  intro other
  simp only [get?_mapValues, get?_remove]
  split <;> rfl

end MapValues

/-! ## Dropping entries by their values -/

section FilterMapValues

variable (keep : ν → Option ν) (map : OrderedMap κ ν)

/-- The map with every value changed, less the entries whose value is given up. -/
def filterMapValues : OrderedMap κ ν where
  entries := map.entries.filterMap fun entry => (keep entry.2).map (Prod.mk entry.1)
  ascending := by
    refine map.ascending.filterMap _ ?_
    intro left right less keptLeft leftEq keptRight rightEq
    rcases Option.map_eq_some_iff.mp leftEq with ⟨leftValue, -, rfl⟩
    rcases Option.map_eq_some_iff.mp rightEq with ⟨rightValue, -, rfl⟩
    exact less

theorem get?_filterMapValues (key : κ) :
    (map.filterMapValues keep).get? key = (map.get? key).bind keep := by
  apply Option.ext
  intro value
  rw [← mem_entries, filterMapValues, List.mem_filterMap, Option.bind_eq_some_iff]
  constructor
  · intro kept
    rcases kept with ⟨⟨_, old⟩, entry, keptEq⟩
    rcases Option.map_eq_some_iff.mp keptEq with ⟨_, keptOld, pairEq⟩
    rcases Prod.mk.inj pairEq with ⟨rfl, rfl⟩
    exact ⟨old, mem_entries.mp entry, keptOld⟩
  · intro kept
    rcases kept with ⟨old, found, keptOld⟩
    exact ⟨(key, old), mem_entries.mpr found, by rw [keptOld]; rfl⟩

end FilterMapValues

end OrderedMap

end Bourse
