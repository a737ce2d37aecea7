import Mathlib.Data.List.Nodup
import TypeGraph.Registry

/-!
# The registry as an injective table

A registry that holds each type once and each key once is a one-to-one table between types and
keys. In such a registry `lookup` finds the type of a key in whatever table it is, and `promote`
always succeeds.
-/

namespace TypeGraph.Registry

/-- No type is registered twice, and no key. -/
structure Injective (r : Registry) : Prop where
  handles : (r.entries.map Entry.handle).Nodup
  keys : (r.entries.map Entry.key).Nodup

/-- The type has an entry. -/
def Holds (r : Registry) (h : Handle) : Prop := ∃ e ∈ r.entries, e.handle = h

variable {r : Registry} {e e' : Entry} {h : Handle} {k : Key} {t : Table}

theorem Injective.eq_of_handle (hr : r.Injective) (he : e ∈ r.entries) (he' : e' ∈ r.entries)
    (hh : e.handle = e'.handle) : e = e' :=
  List.inj_on_of_nodup_map hr.handles he he' hh

theorem Injective.eq_of_key (hr : r.Injective) (he : e ∈ r.entries) (he' : e' ∈ r.entries)
    (hk : e.key = e'.key) : e = e' :=
  List.inj_on_of_nodup_map hr.keys he he' hk

theorem injective_empty : empty.Injective := ⟨List.nodup_nil, List.nodup_nil⟩

/-! ## Looking up -/

theorem lookupIn_eq_none_iff :
    r.lookupIn t k = none ↔ ∀ e ∈ r.entries, ¬ (e.table = t ∧ e.key = k) := by
  unfold lookupIn
  rw [Option.map_eq_none_iff, List.find?_eq_none]
  simp

theorem exists_mem_of_lookupIn (hl : r.lookupIn t k = some h) :
    ∃ e ∈ r.entries, e.table = t ∧ e.key = k ∧ e.handle = h := by
  unfold lookupIn at hl
  obtain ⟨e, hf, rfl⟩ := Option.map_eq_some_iff.1 hl
  have hp := List.find?_some hf
  rw [decide_eq_true_eq] at hp
  exact ⟨e, List.mem_of_find?_eq_some hf, hp.1, hp.2, rfl⟩

theorem lookup_eq : r.lookup k = (r.lookupIn .canonical k).or (r.lookupIn .provisional k) := by
  unfold lookup
  rw [Option.orElse_eq_orElse, Option.orElse_eq_or]

/-- A key that is not found is in no entry. -/
theorem lookup_eq_none_iff : r.lookup k = none ↔ ∀ e ∈ r.entries, e.key ≠ k := by
  rw [lookup_eq, Option.or_eq_none_iff, lookupIn_eq_none_iff, lookupIn_eq_none_iff]
  constructor
  · rintro ⟨hc, hp⟩ e he hk
    cases ht : e.table with
    | canonical => exact hc e he ⟨ht, hk⟩
    | provisional => exact hp e he ⟨ht, hk⟩
  · exact fun hn => ⟨fun e he h => hn e he h.2, fun e he h => hn e he h.2⟩

theorem exists_mem_of_lookup (hl : r.lookup k = some h) :
    ∃ e ∈ r.entries, e.key = k ∧ e.handle = h := by
  rw [lookup_eq] at hl
  rcases Option.or_eq_some_iff.1 hl with hl | ⟨-, hl⟩
  · obtain ⟨e, he, -, hk, hh⟩ := exists_mem_of_lookupIn hl
    exact ⟨e, he, hk, hh⟩
  · obtain ⟨e, he, -, hk, hh⟩ := exists_mem_of_lookupIn hl
    exact ⟨e, he, hk, hh⟩

/-- The type under a key is found, in whatever table it is. -/
theorem Injective.lookup_eq_some_iff (hr : r.Injective) :
    r.lookup k = some h ↔ ∃ e ∈ r.entries, e.key = k ∧ e.handle = h := by
  refine ⟨exists_mem_of_lookup, ?_⟩
  rintro ⟨e, he, hk, rfl⟩
  cases hl : r.lookup k with
  | none => exact absurd hk (lookup_eq_none_iff.1 hl e he)
  | some h' =>
    obtain ⟨e', he', hk', rfl⟩ := exists_mem_of_lookup hl
    rw [hr.eq_of_key he he' (hk.trans hk'.symm)]

/-- The type under a key in a table is found there. -/
theorem Injective.lookupIn_eq_some_iff (hr : r.Injective) :
    r.lookupIn t k = some h ↔ ∃ e ∈ r.entries, e.table = t ∧ e.key = k ∧ e.handle = h := by
  refine ⟨exists_mem_of_lookupIn, ?_⟩
  rintro ⟨e, he, ht, hk, rfl⟩
  cases hl : r.lookupIn t k with
  | none => exact absurd ⟨ht, hk⟩ (lookupIn_eq_none_iff.1 hl e he)
  | some h' =>
    obtain ⟨e', he', -, hk', rfl⟩ := exists_mem_of_lookupIn hl
    rw [hr.eq_of_key he he' (hk.trans hk'.symm)]

theorem entry?_eq_none_iff : r.entry? h = none ↔ ¬ r.Holds h := by
  unfold entry? Holds
  rw [List.find?_eq_none]
  simp

theorem Injective.entry?_eq_some_iff (hr : r.Injective) :
    r.entry? h = some e ↔ e ∈ r.entries ∧ e.handle = h := by
  unfold entry?
  constructor
  · intro hf
    exact ⟨List.mem_of_find?_eq_some hf, by simpa using List.find?_some hf⟩
  · rintro ⟨he, rfl⟩
    cases hf : r.entries.find? (·.handle = e.handle) with
    | none =>
      have hne := List.find?_eq_none.1 hf e he
      simp at hne
    | some e' =>
      have hh : e'.handle = e.handle := by simpa using List.find?_some hf
      rw [hr.eq_of_handle (List.mem_of_find?_eq_some hf) he hh]

/-- The candidates of an outline are the types with a key of that outline. -/
theorem mem_candidates {o : Shape × Nat} :
    h ∈ r.candidates o ↔ ∃ e ∈ r.entries, e.key.outline = o ∧ e.handle = h := by
  unfold candidates
  simp [and_assoc]

/-! ## Registering -/

theorem mem_insert : e ∈ (r.insert h k t).entries ↔ e ∈ r.entries ∨ e = ⟨h, k, t⟩ := by
  unfold insert
  simp

theorem Injective.insert (hr : r.Injective) (hh : ¬ r.Holds h) (hk : r.lookup k = none)
    (t : Table) : (r.insert h k t).Injective := by
  constructor
  · unfold Registry.insert
    rw [List.map_append, List.nodup_append]
    refine ⟨hr.handles, by simp, fun a ha b hb => ?_⟩
    obtain ⟨e, he, rfl⟩ := List.mem_map.1 ha
    obtain rfl : b = h := by simpa using hb
    exact fun heq => hh ⟨e, he, heq⟩
  · unfold Registry.insert
    rw [List.map_append, List.nodup_append]
    refine ⟨hr.keys, by simp, fun a ha b hb => ?_⟩
    obtain ⟨e, he, rfl⟩ := List.mem_map.1 ha
    obtain rfl : b = k := by simpa using hb
    exact lookup_eq_none_iff.1 hk e he

theorem mem_remove : e ∈ (r.remove h).entries ↔ e ∈ r.entries ∧ e.handle ≠ h := by
  unfold remove
  simp

theorem Injective.remove (hr : r.Injective) (h : Handle) : (r.remove h).Injective :=
  ⟨hr.handles.sublist (List.filter_sublist.map _), hr.keys.sublist (List.filter_sublist.map _)⟩

/-! ## Promoting -/

/-- The entry, final if its type is in the group. -/
def finalIn (group : List Handle) (e : Entry) : Entry :=
  if e.handle ∈ group then { e with table := .canonical } else e

@[simp] theorem handle_finalIn (group : List Handle) (e : Entry) :
    (finalIn group e).handle = e.handle := by
  unfold finalIn
  split <;> rfl

@[simp] theorem key_finalIn (group : List Handle) (e : Entry) : (finalIn group e).key = e.key := by
  unfold finalIn
  split <;> rfl

theorem finalIn_nil (e : Entry) : finalIn [] e = e := if_neg List.not_mem_nil

theorem finalIn_cons (h : Handle) (group : List Handle) (e : Entry) :
    finalIn (h :: group) e = finalIn group (finalIn [h] e) := by
  unfold finalIn
  by_cases hh : e.handle = h <;> by_cases hm : e.handle ∈ group <;> simp [hh, hm]

/-- The registry with the entries of a group final. -/
def finalize (r : Registry) (group : List Handle) : Registry := ⟨r.entries.map (finalIn group)⟩

theorem Injective.finalize (hr : r.Injective) (group : List Handle) :
    (r.finalize group).Injective := by
  constructor
  · unfold Registry.finalize
    rw [List.map_map, show Entry.handle ∘ finalIn group = Entry.handle from
      funext (handle_finalIn group)]
    exact hr.handles
  · unfold Registry.finalize
    rw [List.map_map, show Entry.key ∘ finalIn group = Entry.key from funext (key_finalIn group)]
    exact hr.keys

theorem holds_finalize {group : List Handle} : (r.finalize group).Holds h ↔ r.Holds h := by
  unfold Holds finalize
  simp

/-- A promotion succeeds, and makes the entry of the type final where it stands. -/
theorem Injective.promote (hr : r.Injective) (h : Handle) : r.promote h = .ok (r.finalize [h]) := by
  have hid : (∀ e ∈ r.entries, e.handle = h → e.table = .canonical) → r.finalize [h] = r := by
    intro hall
    unfold Registry.finalize
    rw [(List.map_congr_left fun e he => ?_).trans (List.map_id _)]
    unfold finalIn
    split
    · next hh =>
      rw [← hall e he (List.mem_singleton.1 hh)]
      rfl
    · rfl
  unfold Registry.promote
  split
  · next e₀ k hf =>
    obtain ⟨he, hh⟩ := hr.entry?_eq_some_iff.1 hf
    split
    · next other hl =>
      -- the key stands in one entry only, and that one is provisional
      obtain ⟨e', he', ht, hk, -⟩ := exists_mem_of_lookupIn hl
      rw [hr.eq_of_key he' he hk] at ht
      cases ht
    · unfold Registry.finalize finalIn
      simp only [List.mem_singleton]
  · next hne =>
    rw [hid]
    intro e he hh
    cases ht : e.table with
    | canonical => rfl
    | provisional =>
      refine absurd ?_ (hne e.handle e.key)
      rw [← ht]
      exact hr.entry?_eq_some_iff.2 ⟨he, hh⟩

/-! ## Entries of other types -/

theorem entry?_remove_of_ne {other : Handle} (hne : other ≠ h) :
    entry? (r.remove h) other = r.entry? other := by
  unfold remove entry?
  rw [List.find?_filter]
  congr 1
  funext e
  by_cases he : e.handle = other
  · simp [he, hne]
  · simp [he]

theorem entry?_insert_of_ne {other : Handle} (hne : other ≠ h) :
    entry? (r.insert h k t) other = r.entry? other := by
  unfold insert entry?
  rw [List.find?_append, List.find?_singleton, if_neg (by simpa using hne.symm), Option.or_none]

theorem entry?_finalize_of_not_mem {group : List Handle} (hn : h ∉ group) :
    entry? (r.finalize group) h = r.entry? h := by
  have hfind : (fun e => decide (Entry.handle e = h)) ∘ finalIn group =
      fun e => decide (Entry.handle e = h) := by
    funext e
    rw [Function.comp_apply, handle_finalIn]
  unfold finalize entry?
  rw [List.find?_map, hfind]
  cases hf : r.entries.find? (fun e => decide (e.handle = h)) with
  | none => rfl
  | some e =>
    have hh : e.handle = h := by simpa using List.find?_some hf
    rw [Option.map_some, finalIn, if_neg (hh ▸ hn)]

end TypeGraph.Registry
