import TypeGraph.Indexes
import TypeGraph.Proofs.Registry

/-!
# The maps behind the registry as one table

The four maps of a registry say the same thing at any time. The entries in order of registration,
as `Registry` has them, are what they say: each map holds exactly what the entries put there
(`Describes`). Every change of the maps keeps this when the entries are changed alike, and so every
run of changes does (`Describes.after`).

1. Two structural keys agree outside the components exactly if they have one outline, and keys of
   one outline are hashed alike (`sameShape_iff`, `fed_congr`). So the bucket of a key holds every
   type of its outline, and the test on shapes drops what else the hash brought there.
2. Unregistering and promoting change no map but where the type stands (`Removed`, `Promoted`).
-/

namespace TypeGraph

/-! ## Shapes and hashes of keys -/

namespace Key

variable {a b : Key}

/-- Agreement outside the components is agreement in everything but their identity. -/
theorem sameShape_iff (ha : a.Structural) (hb : b.Structural) :
    a.sameShape b ↔ a.outline = b.outline := by
  cases ha <;> cases hb <;>
    simp [sameShape, outline, integer, function, struct, array, vector, pointer, and_comm,
      and_assoc, and_left_comm]

/-- Keys of one outline are hashed alike. -/
theorem fed_congr (h : a.outline = b.outline) : a.fed = b.fed := by
  obtain ⟨shape, parts⟩ := a
  obtain ⟨shape', parts'⟩ := b
  obtain ⟨rfl, hlen⟩ := Prod.mk.inj h
  have htail : parts.tail.length = parts'.tail.length := by
    rw [List.length_tail, List.length_tail]
    exact congrArg (· - 1) hlen
  unfold fed
  cases shape <;> simp_all [kind]

end Key

namespace Registry

variable {r : Registry} {h o : Handle} {k : Key} {t : Table}

/-- The registered types whose key has a hash, in order of registration. -/
def bucket (hash : List Datum → UInt64) (r : Registry) (code : UInt64) : List Handle :=
  (r.entries.filter (hash ·.key.fed = code)).map Entry.handle

variable {hash : List Datum → UInt64} {code : UInt64}

theorem mem_bucket :
    h ∈ r.bucket hash code ↔ ∃ e ∈ r.entries, hash e.key.fed = code ∧ e.handle = h := by
  unfold bucket
  simp [and_assoc]

theorem bucket_insert : bucket hash (r.insert h k t) code =
    if hash k.fed = code then r.bucket hash code ++ [h] else r.bucket hash code := by
  unfold bucket insert
  split <;> simp_all

theorem bucket_remove :
    bucket hash (r.remove h) code = (r.bucket hash code).filter (· ≠ h) := by
  unfold bucket remove
  rw [List.filter_map, List.filter_filter, List.filter_filter]
  simp only [Function.comp_def, Bool.and_comm]

theorem bucket_finalize {group : List Handle} :
    bucket hash (r.finalize group) code = r.bucket hash code := by
  unfold bucket finalize
  rw [List.filter_map, List.map_map]
  simp only [Function.comp_def, key_finalIn, handle_finalIn]

theorem mem_finalize_singleton : ⟨o, k, t⟩ ∈ (r.finalize [h]).entries ↔
    if o = h then t = .canonical ∧ ∃ t₀, ⟨o, k, t₀⟩ ∈ r.entries else ⟨o, k, t⟩ ∈ r.entries := by
  unfold finalize
  rw [List.mem_map]
  constructor
  · rintro ⟨e, he, heq⟩
    obtain rfl : e.handle = o := by rw [← handle_finalIn [h], heq]
    unfold finalIn at heq
    split
    · next hh =>
      rw [if_pos (List.mem_singleton.2 hh), Entry.mk.injEq] at heq
      obtain ⟨-, rfl, rfl⟩ := heq
      exact ⟨rfl, e.table, he⟩
    · next hh =>
      rw [if_neg fun hm => hh (List.mem_singleton.1 hm)] at heq
      rwa [← heq]
  · intro hmem
    split at hmem
    · next hh =>
      obtain ⟨rfl, t₀, he⟩ := hmem
      exact ⟨_, he, if_pos (List.mem_singleton.2 hh)⟩
    · next hh => exact ⟨_, hmem, if_neg fun hm => hh (List.mem_singleton.1 hm)⟩

end Registry

namespace Indexes

variable {hash : List Datum → UInt64} {code : UInt64}
variable {x x' : Indexes} {r : Registry} {h o : Handle} {k k' : Key} {t t' : Table}

theorem table_canonical : x.table .canonical = x.canonical := rfl

theorem table_provisional : x.table .provisional = x.provisional := rfl

/-- To take out a type that was not found changes nothing. -/
theorem filter_ne_eq_self {found : Option Handle} (hne : found ≠ some h) :
    found.filter (· ≠ h) = found := by
  cases found with
  | none => rfl
  | some o => exact Option.filter_some_pos (decide_eq_true fun ho => hne (congrArg some ho))

/-! ## What one change writes -/

theorem table_insert : (x.insert hash h k t).table t' =
    if t = t' then (x.table t).insert k h else x.table t' := by
  cases t <;> cases t' <;> rfl

theorem entries_insert : (x.insert hash h k t).entries = x.entries.insert h (k, t) := rfl

theorem getElem?_table_insert : ((x.insert hash h k t).table t')[k']? =
    if t = t' ∧ k = k' then some h else (x.table t')[k']? := by
  rw [table_insert]
  by_cases ht : t = t'
  · subst ht
    simp [Std.HashMap.getElem?_insert]
  · simp [ht]

theorem byShape_insert : (x.insert hash h k t).byShape[code]? =
    if hash k.fed = code then some (x.candidates code ++ [h]) else x.byShape[code]? := by
  unfold insert candidates
  rw [Std.HashMap.getElem?_alter]
  by_cases hc : hash k.fed = code <;> simp [hc]

/-! ## What the maps say

An entry `⟨h, k, t⟩` is said twice: the table `t` holds `h` for `k`, and the entries hold `(k, t)`
for `h`. Both are put as membership of the triple, so that each is the inverse of the other. -/

/-- Every map holds exactly what the entries put there. -/
structure Describes (hash : List Datum → UInt64) (x : Indexes) (r : Registry) : Prop where
  table : ∀ {t : Table} {k : Key} {h : Handle},
    (x.table t)[k]? = some h ↔ ⟨h, k, t⟩ ∈ r.entries
  entries : ∀ {h : Handle} {k : Key} {t : Table},
    x.entries[h]? = some (k, t) ↔ ⟨h, k, t⟩ ∈ r.entries
  candidates : ∀ {code : UInt64}, x.candidates code = r.bucket hash code
  occupied : ∀ {code : UInt64}, x.byShape[code]? ≠ some []
  injective : r.Injective
  structural : ∀ {e}, e ∈ r.entries → e.key.Structural

namespace Describes

theorem empty : Describes hash empty .empty where
  table := by
    intro t k h
    cases t <;> simp [Indexes.empty, Indexes.table, Registry.empty]
  entries := by simp [Indexes.empty, Registry.empty]
  candidates := by simp [Indexes.empty, Indexes.candidates, Registry.empty, Registry.bucket]
  occupied := by simp [Indexes.empty]
  injective := Registry.injective_empty
  structural := by simp [Registry.empty]

variable (hd : Describes hash x r)

include hd

theorem canonical : x.canonical[k]? = some h ↔ ⟨h, k, .canonical⟩ ∈ r.entries := by
  rw [← table_canonical, hd.table]

theorem provisional : x.provisional[k]? = some h ↔ ⟨h, k, .provisional⟩ ∈ r.entries := by
  rw [← table_provisional, hd.table]

theorem keyOf?_eq_some_iff : x.keyOf? h = some k ↔ ∃ t, ⟨h, k, t⟩ ∈ r.entries := by
  unfold keyOf?
  simp [Option.map_eq_some_iff, hd.entries]

theorem entries_eq_entry? (h : Handle) :
    x.entries[h]? = (r.entry? h).map fun e => (e.key, e.table) := by
  refine Option.ext fun ⟨k, t⟩ => ?_
  rw [hd.entries, Option.map_eq_some_iff]
  constructor
  · exact fun he => ⟨_, hd.injective.entry?_eq_some_iff.2 ⟨he, rfl⟩, rfl⟩
  · rintro ⟨e, he, heq⟩
    obtain ⟨hmem, rfl⟩ := hd.injective.entry?_eq_some_iff.1 he
    obtain ⟨rfl, rfl⟩ := Prod.mk.inj heq
    exact hmem

theorem table_eq_lookupIn (t : Table) (k : Key) : (x.table t)[k]? = r.lookupIn t k := by
  refine Option.ext fun h => ?_
  rw [hd.table, hd.injective.lookupIn_eq_some_iff]
  constructor
  · exact fun he => ⟨_, he, rfl, rfl, rfl⟩
  · rintro ⟨e, he, rfl, rfl, rfl⟩
    exact he

theorem lookup_eq (k : Key) : x.lookup k = r.lookup k := by
  rw [Registry.lookup_eq, ← hd.table_eq_lookupIn, ← hd.table_eq_lookupIn, lookup,
    Option.orElse_eq_orElse, Option.orElse_eq_or]
  rfl

theorem keyOf?_eq (h : Handle) : x.keyOf? h = r.keyOf? h := by
  rw [keyOf?, hd.entries_eq_entry?, Option.map_map]
  rfl

theorem tableOf?_eq (h : Handle) : x.tableOf? h = r.tableOf? h := by
  rw [tableOf?, hd.entries_eq_entry?, Option.map_map]
  rfl

theorem count_eq (t : Table) : x.count t = r.count t := by
  have hperm : (x.table t).keys.Perm ((r.entries.filter (·.table = t)).map Entry.key) := by
    rw [List.perm_ext_iff_of_nodup Std.HashMap.nodup_keys
      (hd.injective.keys.sublist (List.filter_sublist.map _))]
    intro k
    rw [Std.HashMap.mem_keys, Std.HashMap.mem_iff_isSome_getElem?, Option.isSome_iff_exists,
      List.mem_map]
    constructor
    · rintro ⟨h, hh⟩
      exact ⟨_, List.mem_filter.2 ⟨hd.table.1 hh, decide_eq_true rfl⟩, rfl⟩
    · rintro ⟨e, he, rfl⟩
      obtain ⟨hmem, ht⟩ := List.mem_filter.1 he
      obtain rfl := of_decide_eq_true ht
      exact ⟨e.handle, hd.table.2 hmem⟩
  rw [count, ← Std.HashMap.length_keys, hperm.length_eq, List.length_map, Registry.count,
    List.countP_eq_length_filter]

theorem holds_iff : r.Holds h ↔ h ∈ x.entries := by
  rw [← not_iff_not, ← Registry.entry?_eq_none_iff, Std.HashMap.mem_iff_isSome_getElem?,
    hd.entries_eq_entry?, Option.isSome_map, Option.not_isSome_iff_eq_none]

/-- A type stands in one place: what is not its own does not hold it. -/
theorem filter_table (he : x.entries[h]? = some (k, t)) (hne : ¬ (t = t' ∧ k = k')) :
    (x.table t')[k']?.filter (· ≠ h) = (x.table t')[k']? := by
  refine filter_ne_eq_self fun hh => hne ?_
  have heq := hd.injective.eq_of_handle (hd.entries.1 he) (hd.table.1 hh) rfl
  exact ⟨congrArg Entry.table heq, congrArg Entry.key heq⟩

/-- No table holds a type without an entry. -/
theorem filter_table_of_none (he : x.entries[h]? = none) :
    (x.table t)[k]?.filter (· ≠ h) = (x.table t)[k]? := by
  refine filter_ne_eq_self fun hh => ?_
  rw [hd.entries.2 (hd.table.1 hh)] at he
  cases he

/-- A bucket that is not that of its key does not hold a type. -/
theorem filter_candidates (hne : ∀ k, x.keyOf? h = some k → hash k.fed ≠ code) :
    (x.candidates code).filter (· ≠ h) = x.candidates code := by
  rw [List.filter_eq_self]
  intro o ho
  rw [decide_eq_true_eq]
  rintro rfl
  rw [hd.candidates, Registry.mem_bucket] at ho
  obtain ⟨e, he, hcode, rfl⟩ := ho
  exact hne e.key (hd.keyOf?_eq_some_iff.2 ⟨e.table, he⟩) hcode

/-! ## Registering -/

theorem insert (hlookup : x.lookup k = none) (hnew : h ∉ x.entries) (hk : k.Structural)
    (t : Table) : Describes hash (x.insert hash h k t) (r.insert h k t) := by
  have hkey : ∀ e ∈ r.entries, e.key ≠ k :=
    Registry.lookup_eq_none_iff.1 (hd.lookup_eq k ▸ hlookup)
  have hholds : ¬ r.Holds h := fun hh => hnew (hd.holds_iff.1 hh)
  constructor
  case table =>
    intro t' k' h'
    rw [getElem?_table_insert, Registry.mem_insert, ← hd.table]
    split
    · next heq =>
      obtain ⟨rfl, rfl⟩ := heq
      rw [or_iff_right fun he => hkey _ (hd.table.1 he) rfl, Option.some.injEq, Entry.mk.injEq]
      simp only [and_true]
      exact eq_comm
    · next hne =>
      refine (or_iff_left fun heq => hne ?_).symm
      exact ⟨(congrArg Entry.table heq).symm, (congrArg Entry.key heq).symm⟩
  case entries =>
    intro h' k' t'
    rw [entries_insert, Std.HashMap.getElem?_insert, Registry.mem_insert, ← hd.entries]
    by_cases hh : h = h'
    · subst hh
      rw [or_iff_right fun he => hholds ⟨_, hd.entries.1 he, rfl⟩, if_pos BEq.rfl,
        Option.some.injEq, Prod.mk.injEq, Entry.mk.injEq]
      simp only [true_and]
      exact and_congr eq_comm eq_comm
    · rw [if_neg (by simpa using hh)]
      exact (or_iff_left fun heq => hh (congrArg Entry.handle heq).symm).symm
  case candidates =>
    intro code
    rw [Registry.bucket_insert, ← hd.candidates, Indexes.candidates, byShape_insert]
    split <;> rfl
  case occupied =>
    intro code
    rw [byShape_insert]
    split
    · simp
    · exact hd.occupied
  case injective => exact hd.injective.insert hholds (hd.lookup_eq k ▸ hlookup) t
  case structural =>
    intro e he
    rcases Registry.mem_insert.1 he with he | rfl
    · exact hd.structural he
    · exact hk

end Describes

/-! ## Unregistering -/

/-- What is left of the maps when a type is gone: all but the type, everywhere. -/
structure Removed (x : Indexes) (h : Handle) (x' : Indexes) : Prop where
  entries : ∀ o : Handle, x'.entries[o]? = if h = o then none else x.entries[o]?
  table : ∀ (t : Table) (k : Key), (x'.table t)[k]? = (x.table t)[k]?.filter (· ≠ h)
  candidates : ∀ code, x'.candidates code = (x.candidates code).filter (· ≠ h)
  occupied : ∀ code : UInt64, x'.byShape[code]? ≠ some []

theorem remove_of_none (he : x.entries[h]? = none) : x.remove hash h = (x, none) := by
  unfold remove
  rw [he]

theorem remove_snd : (x.remove hash h).2 = x.keyOf? h := by
  unfold remove keyOf?
  cases x.entries[h]? <;> rfl

theorem entries_remove (he : x.entries[h]? = some (k, t)) :
    (x.remove hash h).1.entries = x.entries.erase h := by
  unfold remove
  rw [he]

theorem byShape_remove (he : x.entries[h]? = some (k, t)) :
    (x.remove hash h).1.byShape[code]? =
      if hash k.fed = code then
        (x.byShape[code]?.map (·.filter (· ≠ h))).filter (· ≠ [])
      else x.byShape[code]? := by
  unfold remove
  rw [he]
  dsimp only
  rw [Std.HashMap.getElem?_alter]
  by_cases hc : hash k.fed = code <;> simp [hc]

theorem candidates_remove (he : x.entries[h]? = some (k, t)) :
    (x.remove hash h).1.candidates code =
      if hash k.fed = code then (x.candidates code).filter (· ≠ h) else x.candidates code := by
  unfold candidates
  rw [byShape_remove he]
  split
  · cases x.byShape[code]? with
    | none => rfl
    | some bucket =>
      rw [Option.map_some, Option.filter_some]
      split
      · rfl
      · next hnil => simpa using hnil
  · rfl

/-- A key that is taken out only if it is that of the type. -/
theorem getElem?_guarded_erase (m : Std.HashMap Key Handle) :
    (if m[k]? = some h then m.erase k else m)[k']? =
      if k = k' then m[k]?.filter (· ≠ h) else m[k']? := by
  by_cases hk : k = k'
  · subst hk
    rw [if_pos rfl]
    split
    · next hheld =>
      rw [Std.HashMap.getElem?_erase, if_pos BEq.rfl, hheld, Option.filter_some_neg (by simp)]
    · next hheld => exact (filter_ne_eq_self hheld).symm
  · rw [if_neg hk]
    split
    · rw [Std.HashMap.getElem?_erase, if_neg (by simpa using hk)]
    · rfl

theorem getElem?_table_remove (he : x.entries[h]? = some (k, t)) :
    ((x.remove hash h).1.table t')[k']? =
      if t = t' ∧ k = k' then (x.table t)[k]?.filter (· ≠ h) else (x.table t')[k']? := by
  have htable : (x.remove hash h).1.table t' =
      if t = t' then if (x.table t)[k]? = some h then (x.table t).erase k else x.table t
      else x.table t' := by
    unfold remove
    rw [he]
    cases t <;> cases t' <;> rfl
  rw [htable]
  by_cases ht : t = t'
  · subst ht
    rw [if_pos rfl, getElem?_guarded_erase]
    simp
  · rw [if_neg ht, if_neg fun heq => ht heq.1]

namespace Describes

variable (hd : Describes hash x r)

include hd

/-- The type leaves its table, its bucket and its entry, and was nowhere else. -/
theorem removed (h : Handle) : Removed x h (x.remove hash h).1 := by
  cases he : x.entries[h]? with
  | none =>
    rw [remove_of_none he]
    refine ⟨fun o => ?_, fun t k => (hd.filter_table_of_none he).symm, fun code => ?_,
      fun code => hd.occupied⟩
    · split
      · next ho => rw [← ho, he]
      · rfl
    · refine (hd.filter_candidates fun k hk => ?_).symm
      rw [keyOf?, he] at hk
      cases hk
  | some entry =>
    obtain ⟨k, t⟩ := entry
    refine ⟨fun o => ?_, fun t' k' => ?_, fun code => ?_, fun code => ?_⟩
    · rw [entries_remove he, Std.HashMap.getElem?_erase]
      simp
    · rw [getElem?_table_remove he]
      split
      · next heq => rw [heq.1, heq.2]
      · next hne => exact (hd.filter_table he hne).symm
    · rw [candidates_remove he]
      split
      · rfl
      · next hne =>
        refine (hd.filter_candidates fun k' hk' => ?_).symm
        rw [keyOf?, he] at hk'
        obtain rfl : k = k' := Option.some.inj hk'
        exact hne
    · rw [byShape_remove he]
      split
      · rw [Ne, Option.filter_eq_some_iff]
        simp
      · exact hd.occupied

theorem remove (h : Handle) : Describes hash (x.remove hash h).1 (r.remove h) := by
  have hgone := hd.removed h
  constructor
  case table =>
    intro t k o
    rw [hgone.table, Option.filter_eq_some_iff, decide_eq_true_eq, Registry.mem_remove, hd.table]
  case entries =>
    intro o k t
    rw [hgone.entries, Registry.mem_remove, ← hd.entries]
    by_cases ho : h = o
    · simp [ho]
    · simp [ho, Ne.symm ho]
  case candidates =>
    intro code
    rw [hgone.candidates, Registry.bucket_remove, hd.candidates]
  case occupied => exact hgone.occupied _
  case injective => exact hd.injective.remove h
  case structural => exact fun he => hd.structural (Registry.mem_remove.1 he).1

end Describes

/-! ## Promoting -/

/-- The maps with the entry of a type, if it has one, moved to the canonical table. -/
structure Promoted (x : Indexes) (h : Handle) (x' : Indexes) : Prop where
  entries : ∀ o : Handle,
    x'.entries[o]? = if h = o then (x.keyOf? h).map (·, .canonical) else x.entries[o]?
  canonical : ∀ k : Key,
    x'.canonical[k]? = if x.keyOf? h = some k then some h else x.canonical[k]?
  provisional : ∀ k : Key, x'.provisional[k]? = x.provisional[k]?.filter (· ≠ h)
  byShape : x'.byShape = x.byShape

namespace Describes

variable (hd : Describes hash x r)

include hd

/-- What is not provisional stays where it is. -/
theorem promoted_self (hne : ∀ k, x.entries[h]? ≠ some (k, .provisional)) : Promoted x h x where
  entries := by
    intro o
    split
    · next ho =>
      subst ho
      unfold keyOf?
      match he : x.entries[h]? with
      | none => rfl
      | some (k, .canonical) => rfl
      | some (k, .provisional) => exact absurd he (hne k)
    · rfl
  canonical := by
    intro k
    split
    · next hk =>
      obtain ⟨t, he⟩ := hd.keyOf?_eq_some_iff.1 hk
      cases t with
      | canonical => exact hd.canonical.2 he
      | provisional => exact absurd (hd.entries.2 he) (hne k)
    · rfl
  provisional := fun k =>
    (filter_ne_eq_self fun hh => hne k (hd.entries.2 (hd.provisional.1 hh))).symm
  byShape := rfl

/-- A promotion succeeds, and only moves the entry. -/
theorem promote_eq_ok (h : Handle) : ∃ x', x.promote h = .ok x' ∧ Promoted x h x' := by
  unfold promote
  split
  · next k he =>
    have hfree : x.canonical[k]? = none := by
      rw [Option.eq_none_iff_forall_ne_some]
      intro o ho
      -- the key stands in one entry only, and that one is provisional
      have heq := hd.injective.eq_of_key (hd.canonical.1 ho) (hd.entries.1 he) rfl
      cases congrArg Entry.table heq
    have hkey : x.keyOf? h = some k := by
      rw [keyOf?, he]
      rfl
    rw [hfree]
    refine ⟨_, rfl, fun o => ?_, fun k' => ?_, fun k' => ?_, rfl⟩
    · rw [Std.HashMap.getElem?_insert, hkey]
      simp
    · rw [Std.HashMap.getElem?_insert, hkey]
      simp
    · rw [Std.HashMap.getElem?_erase]
      by_cases hk : k = k'
      · subst hk
        have hheld : x.provisional[k]? = some h := hd.provisional.2 (hd.entries.1 he)
        rw [if_pos BEq.rfl, hheld, Option.filter_some_neg (by simp)]
      · rw [if_neg (by simpa using hk), ← table_provisional]
        exact (hd.filter_table he fun heq => hk heq.2).symm
  · next hne => exact ⟨x, rfl, hd.promoted_self hne⟩

theorem mem_finalize : ⟨o, k, t⟩ ∈ (r.finalize [h]).entries ↔
    if o = h then t = .canonical ∧ x.keyOf? h = some k else ⟨o, k, t⟩ ∈ r.entries := by
  rw [Registry.mem_finalize_singleton, hd.keyOf?_eq_some_iff]
  split
  · next ho => rw [ho]
  · rfl

theorem table_promoted (hp : Promoted x h x') : (x'.table t)[k]? = some o ↔
    if o = h then t = .canonical ∧ x.keyOf? h = some k else ⟨o, k, t⟩ ∈ r.entries := by
  cases t with
  | canonical =>
    rw [table_canonical, hp.canonical]
    by_cases hk : x.keyOf? h = some k
    · rw [if_pos hk, Option.some.injEq]
      obtain ⟨t, he⟩ := hd.keyOf?_eq_some_iff.1 hk
      split
      · next ho => exact iff_of_true ho.symm ⟨rfl, hk⟩
      · next ho =>
        -- another type would share the key
        refine iff_of_false (Ne.symm ho) fun hc => ho ?_
        exact congrArg Entry.handle (hd.injective.eq_of_key hc he rfl)
    · rw [if_neg hk, hd.canonical]
      split
      · next ho =>
        subst ho
        exact iff_of_false (fun hc => hk (hd.keyOf?_eq_some_iff.2 ⟨_, hc⟩)) fun hc => hk hc.2
      · rfl
  | provisional =>
    rw [table_provisional, hp.provisional, Option.filter_eq_some_iff, decide_eq_true_eq,
      hd.provisional]
    split
    · next ho => exact iff_of_false (fun hc => hc.2 ho) fun hc => nomatch hc.1
    · next ho => exact and_iff_left ho

theorem entries_promoted (hp : Promoted x h x') : x'.entries[o]? = some (k, t) ↔
    if o = h then t = .canonical ∧ x.keyOf? h = some k else ⟨o, k, t⟩ ∈ r.entries := by
  rw [hp.entries]
  by_cases ho : h = o
  · rw [if_pos ho, if_pos ho.symm, Option.map_eq_some_iff]
    constructor
    · rintro ⟨k', hk, heq⟩
      obtain ⟨rfl, rfl⟩ := Prod.mk.inj heq
      exact ⟨rfl, hk⟩
    · rintro ⟨rfl, hk⟩
      exact ⟨k, hk, rfl⟩
  · rw [if_neg ho, if_neg (Ne.symm ho), hd.entries]

theorem finalize (hp : Promoted x h x') : Describes hash x' (r.finalize [h]) := by
  constructor
  case table =>
    intro t k o
    rw [hd.table_promoted hp, hd.mem_finalize]
  case entries =>
    intro o k t
    rw [hd.entries_promoted hp, hd.mem_finalize]
  case candidates =>
    intro code
    rw [Indexes.candidates, hp.byShape, Registry.bucket_finalize, ← hd.candidates]
    rfl
  case occupied =>
    rw [hp.byShape]
    exact hd.occupied
  case injective => exact hd.injective.finalize [h]
  case structural =>
    intro e he
    obtain ⟨e₀, he₀, rfl⟩ := List.mem_map.1 he
    rw [Registry.key_finalIn]
    exact hd.structural he₀

/-! ## Runs -/

/-- A change that fails no assertion is made alike in the entries. -/
theorem change {c : Change} (hc : x.change? hash c = some x') :
    Describes hash x' (r.change c) := by
  cases c with
  | insert h k t hk =>
    dsimp only [change?] at hc
    split at hc
    · next hnew =>
      obtain rfl := Option.some.inj hc
      exact hd.insert hnew.1 hnew.2 hk t
    · cases hc
  | remove h =>
    obtain rfl := Option.some.inj hc
    exact hd.remove h
  | promote h =>
    obtain ⟨x₁, hok, hp⟩ := hd.promote_eq_ok h
    dsimp only [change?] at hc
    rw [hok] at hc
    obtain rfl := Option.some.inj hc
    dsimp only [Registry.change]
    rw [hd.injective.promote]
    exact hd.finalize hp

/-- An assertion fails just if the entries already have the key or the type. -/
theorem isSome_change? (c : Change) : (x.change? hash c).isSome = r.admits c := by
  cases c with
  | insert h k t hk =>
    have hnew : h ∉ x.entries ↔ r.entry? h = none := by
      rw [Registry.entry?_eq_none_iff, hd.holds_iff]
    dsimp only [change?, Registry.admits]
    simp only [hd.lookup_eq, hnew]
    split
    · next hfree => exact (decide_eq_true hfree).symm
    · next htaken => exact (decide_eq_false htaken).symm
  | remove h => rfl
  | promote h =>
    obtain ⟨x₁, hok, -⟩ := hd.promote_eq_ok h
    dsimp only [change?]
    rw [hok]
    rfl

omit hd in
theorem foldlM {changes : List Change} (hd : Describes hash x r)
    (hrun : changes.foldlM (change? hash) x = some x') :
    Describes hash x' (changes.foldl Registry.change r) := by
  induction changes generalizing x r with
  | nil =>
    obtain rfl := Option.some.inj hrun
    exact hd
  | cons c rest ih =>
    rw [List.foldlM_cons] at hrun
    obtain ⟨x₁, hc, hrest⟩ := Option.bind_eq_some_iff.1 hrun
    exact ih (hd.change hc) hrest

omit hd in
/-- **Lockstep.** Whatever the hash, any run of changes leaves the maps saying what the entries
say. -/
theorem after {changes : List Change} (hrun : after? hash changes = some x) :
    Describes hash x (.after changes) :=
  empty.foldlM hrun

omit hd in
theorem isSome_foldlM (changes : List Change) (hd : Describes hash x r) :
    (changes.foldlM (change? hash) x).isSome = r.admitsAll changes := by
  induction changes generalizing x r with
  | nil => rfl
  | cons c rest ih =>
    rw [List.foldlM_cons, Registry.admitsAll, ← hd.isSome_change? c]
    cases hc : x.change? hash c with
    | none => rfl
    | some x₁ => exact ih (hd.change hc)

omit hd in
/-- A run goes through just if it registers nothing twice. -/
theorem isSome_after? (changes : List Change) :
    (after? hash changes).isSome = Registry.empty.admitsAll changes :=
  empty.isSome_foldlM changes

/-! ## What follows -/

/-- No key is in both tables. -/
theorem disjoint (hk : k ∈ x.canonical) : k ∉ x.provisional := by
  intro hk'
  obtain ⟨h, hc⟩ := Option.isSome_iff_exists.1 (Std.HashMap.mem_iff_isSome_getElem?.1 hk)
  obtain ⟨h', hp⟩ := Option.isSome_iff_exists.1 (Std.HashMap.mem_iff_isSome_getElem?.1 hk')
  have heq := hd.injective.eq_of_key (hd.canonical.1 hc) (hd.provisional.1 hp) rfl
  cases congrArg Entry.table heq

/-- No two types have one key. -/
theorem eq_of_keyOf? (hh : x.keyOf? h = some k) (ho : x.keyOf? o = some k) : h = o := by
  obtain ⟨t, he⟩ := hd.keyOf?_eq_some_iff.1 hh
  obtain ⟨t', he'⟩ := hd.keyOf?_eq_some_iff.1 ho
  exact congrArg Entry.handle (hd.injective.eq_of_key he he' rfl)

/-- The types that a key can be compared with are those of its outline. -/
theorem alike_eq (hk : k.Structural) : x.alike hash k = r.candidates k.outline := by
  unfold alike Registry.candidates
  rw [hd.candidates, Registry.bucket, List.filter_map, List.filter_filter]
  congr 1
  refine List.filter_congr fun e he => ?_
  have hkey : x.keyOf? e.handle = some e.key := hd.keyOf?_eq_some_iff.2 ⟨e.table, he⟩
  rw [Function.comp_apply, hkey, Option.any_some, Bool.eq_iff_iff, Bool.and_eq_true,
    Key.sameShape_iff (hd.structural he) hk, decide_eq_true_eq, decide_eq_true_eq]
  -- a key of the outline has the hash, so the bucket leaves none out
  exact and_iff_left_of_imp fun ho => congrArg hash (Key.fed_congr ho)

theorem nodup_alike (hk : k.Structural) : (x.alike hash k).Nodup := by
  rw [hd.alike_eq hk]
  exact hd.injective.handles.sublist (List.filter_sublist.map _)

theorem mem_alike (hk : k.Structural) :
    h ∈ x.alike hash k ↔ ∃ k', x.keyOf? h = some k' ∧ k'.outline = k.outline := by
  rw [hd.alike_eq hk, Registry.mem_candidates]
  constructor
  · rintro ⟨e, he, ho, rfl⟩
    exact ⟨e.key, hd.keyOf?_eq_some_iff.2 ⟨e.table, he⟩, ho⟩
  · rintro ⟨k', hk', ho⟩
    obtain ⟨t, he⟩ := hd.keyOf?_eq_some_iff.1 hk'
    exact ⟨_, he, ho, rfl⟩

end Describes

/-! ## The theorem -/

/-- The four maps are one injective table, that of the entries in order of registration. -/
structure OneTable (hash : List Datum → UInt64) (x : Indexes) (r : Registry) : Prop where
  /-- No key is in both tables. -/
  disjoint : ∀ k ∈ x.canonical, k ∉ x.provisional
  /-- The tables are the entries turned round, and each entry is in the table of its mark. -/
  inverse : ∀ (t : Table) (k : Key) (h : Handle),
    (x.table t)[k]? = some h ↔ x.entries[h]? = some (k, t)
  /-- No two types have one key. -/
  eq_of_key : ∀ {h o : Handle} {k : Key}, x.keyOf? h = some k → x.keyOf? o = some k → h = o
  entries : ∀ h : Handle, x.entries[h]? = (r.entry? h).map fun e => (e.key, e.table)
  keyOf? : ∀ h, x.keyOf? h = r.keyOf? h
  tableOf? : ∀ h, x.tableOf? h = r.tableOf? h
  lookup : ∀ k, x.lookup k = r.lookup k
  count : ∀ t, x.count t = r.count t
  candidates : ∀ code, x.candidates code = r.bucket hash code
  occupied : ∀ code : UInt64, x.byShape[code]? ≠ some []
  /-- A promotion is never refused, and only moves the entry to the canonical table. -/
  promote : ∀ h, ∃ x', x.promote h = .ok x' ∧ Promoted x h x'
  /-- Unregistering gives the key, and takes the type and nothing else out of every map. -/
  remove : ∀ h, (x.remove hash h).2 = x.keyOf? h ∧ Removed x h (x.remove hash h).1
  /-- The types that a key can be compared with are those of its outline, in order of
  registration. -/
  alike : ∀ {k : Key}, k.Structural → x.alike hash k = r.candidates k.outline
  nodup_alike : ∀ {k : Key}, k.Structural → (x.alike hash k).Nodup
  mem_alike : ∀ {k : Key} {h : Handle}, k.Structural →
    (h ∈ x.alike hash k ↔ ∃ k', x.keyOf? h = some k' ∧ k'.outline = k.outline)

theorem Describes.oneTable (hd : Describes hash x r) : OneTable hash x r where
  disjoint := fun _ => hd.disjoint
  inverse := fun _ _ _ => hd.table.trans hd.entries.symm
  eq_of_key := hd.eq_of_keyOf?
  entries := hd.entries_eq_entry?
  keyOf? := hd.keyOf?_eq
  tableOf? := hd.tableOf?_eq
  lookup := hd.lookup_eq
  count := hd.count_eq
  candidates := fun _ => hd.candidates
  occupied := fun _ => hd.occupied
  promote := hd.promote_eq_ok
  remove := fun h => ⟨remove_snd, hd.removed h⟩
  alike := hd.alike_eq
  nodup_alike := hd.nodup_alike
  mem_alike := hd.mem_alike

/-- **One table.** Whatever the hash, after any run of changes in which no key and no type is
registered twice, the four maps are one injective table. -/
theorem oneTable_after {changes : List Change} (hrun : after? hash changes = some x) :
    OneTable hash x (.after changes) :=
  (Describes.after hrun).oneTable

/-- Three pointers and an integer: one pointer is promoted and one unregistered. -/
def fourTypes : List Change :=
  [.insert ⟨9⟩ (.pointer .i8) .canonical (.pointer _),
    .insert ⟨10⟩ (.pointer ⟨13⟩) .provisional (.pointer _),
    .insert ⟨11⟩ (.integer 17) .canonical (.integer _),
    .promote ⟨10⟩, .remove ⟨9⟩,
    .insert ⟨12⟩ (.pointer .i16) .canonical (.pointer _)]

/-- Under one hash for all keys, a pointer can be compared with the two that are left, and not with
the integer that stands between them in its bucket. -/
theorem oneTable_after_fourTypes : ∃ x, after? (fun _ => 0) fourTypes = some x ∧
    OneTable (fun _ => 0) x (.after fourTypes) ∧
    x.candidates 0 = [⟨10⟩, ⟨11⟩, ⟨12⟩] ∧
    x.alike (fun _ => 0) (.pointer .i32) = [⟨10⟩, ⟨12⟩] ∧
    x.canonical[Key.pointer ⟨13⟩]? = some ⟨10⟩ ∧ x.keyOf? ⟨9⟩ = none := by
  have hadmits : (after? (fun _ => 0) fourTypes).isSome := by
    rw [Describes.isSome_after?]
    decide
  obtain ⟨x, hrun⟩ := Option.isSome_iff_exists.1 hadmits
  have hx := oneTable_after hrun
  refine ⟨x, hrun, hx, ?_, ?_, ?_, ?_⟩
  · rw [hx.candidates]
    decide
  · rw [hx.alike (.pointer _)]
    decide
  · rw [← table_canonical, hx.inverse, hx.entries]
    decide
  · rw [hx.keyOf?]
    decide

end Indexes
end TypeGraph
