import TypeGraph.Graph.Lemmas
import TypeGraph.Graph.Refinement

/-!
# What a refinement changes in a node

The bare node is what is left of a node without its observers. Counting observers leaves all bare
nodes alone, retiring a type and moving slots change one of them, and promotion changes its group.
The owners of a node are told by their counts.
-/

namespace TypeGraph

namespace Node

/-- The node without its observers. -/
def bare (n : Node) : Node := { n with owners := [], watchers := [] }

variable {n m : Node}

theorem shape_of_bare (h : n.bare = m.bare) : n.shape = m.shape := by
  simpa [bare] using congrArg shape h

theorem slots_of_bare (h : n.bare = m.bare) : n.slots = m.slots := by
  simpa [bare] using congrArg slots h

theorem isAbstract_of_bare (h : n.bare = m.bare) : n.isAbstract = m.isAbstract := by
  simpa [bare] using congrArg isAbstract h

theorem forward_of_bare (h : n.bare = m.bare) : n.forward = m.forward := by
  simpa [bare] using congrArg forward h

theorem key_of_bare (h : n.bare = m.bare) : n.key = m.key := by
  simpa [bare, key] using congrArg key h

theorem owner_mem_observers {o : Handle} : .owner o ∈ n.observers ↔ o ∈ n.owners := by
  unfold observers
  simp

theorem isObservedBy_owner {o : Handle} : n.isObservedBy (.owner o) ↔ o ∈ n.owners :=
  List.contains_iff_mem

theorem isObservedBy_listener {id : ListenerId} :
    n.isObservedBy (.listener id) ↔ id ∈ n.watchers :=
  List.contains_iff_mem

theorem mem_observers {o : Observer} : o ∈ n.observers ↔ n.isObservedBy o := by
  unfold observers isObservedBy
  cases o <;> simp

end Node

namespace Graph

/-- What every step keeps of each node, the steps together keep. -/
theorem node_foldl_proj {α β : Type} {f : Graph → α → Graph} {p : Node → β} {k : Handle}
    (hp : ∀ g a, p ((f g a).node k) = p (g.node k)) (l : List α) (g : Graph) :
    p ((l.foldl f g).node k) = p (g.node k) := by
  induction l generalizing g with
  | nil => rfl
  | cons a l ih => exact (ih _).trans (hp g a)

theorem foldl_proj {α β : Type} {f : Graph → α → Graph} {p : Graph → β}
    (hp : ∀ g a, p (f g a) = p g) (l : List α) (g : Graph) : p (l.foldl f g) = p g := by
  induction l generalizing g with
  | nil => rfl
  | cons a l ih => exact (ih _).trans (hp g a)

section Observers

variable (g : Graph) (owner target k : Handle) (id : ListenerId)

@[simp] theorem bare_acquire : ((g.acquire owner target).node k).bare = (g.node k).bare :=
  node_update_proj g target k _ Node.bare fun n => by split <;> rfl

@[simp] theorem bare_release : ((g.release owner target).node k).bare = (g.node k).bare :=
  node_update_proj g target k _ Node.bare fun _ => rfl

@[simp] theorem bare_watch : ((g.watch id target).node k).bare = (g.node k).bare :=
  node_update_proj g target k _ Node.bare fun n => by split <;> rfl

@[simp] theorem bare_unwatch : ((g.unwatch id target).node k).bare = (g.node k).bare :=
  node_update_proj g target k _ Node.bare fun _ => rfl

@[simp] theorem owners_watch : ((g.watch id target).node k).owners = (g.node k).owners :=
  node_update_proj g target k _ Node.owners fun n => by split <;> rfl

@[simp] theorem owners_unwatch : ((g.unwatch id target).node k).owners = (g.node k).owners :=
  node_update_proj g target k _ Node.owners fun _ => rfl

@[simp] theorem watchers_acquire :
    ((g.acquire owner target).node k).watchers = (g.node k).watchers :=
  node_update_proj g target k _ Node.watchers fun n => by split <;> rfl

@[simp] theorem watchers_release :
    ((g.release owner target).node k).watchers = (g.node k).watchers :=
  node_update_proj g target k _ Node.watchers fun _ => rfl

/-- One more count of an observer if the target counts its observers. -/
theorem count_update_cons {α : Type} [DecidableEq α] {p : Node → List α} {f : Node → Node} {b : α}
    (hf : ∀ n, p (f n) = b :: p n) (a : α) :
    (p ((g.update target fun n => if n.isObservable then f n else n).node k)).count a =
      (p (g.node k)).count a + if target = k ∧ b = a ∧ (g.node k).isObservable then 1 else 0 := by
  rw [node_update]
  by_cases hb : k.index < g.size
  · by_cases hk : target = k <;> by_cases ho : (g.node k).isObservable <;>
      by_cases ha : b = a <;> simp [hk, hb, ho, ha, hf]
  · rw [if_neg fun h => hb h.2, node_of_size_le (Nat.le_of_not_lt hb)]
    rw [if_neg fun h => absurd h.2.2 (by decide), Nat.add_zero]

/-- One count less of an observer. -/
theorem count_update_erase {α : Type} [DecidableEq α] {p : Node → List α} {f : Node → Node} {b : α}
    (hf : ∀ n, p (f n) = (p n).erase b) (hd : p default = []) (a : α) :
    (p ((g.update target f).node k)).count a =
      (p (g.node k)).count a - if target = k ∧ b = a then 1 else 0 := by
  rw [node_update]
  by_cases hb : k.index < g.size
  · by_cases hk : target = k <;> by_cases ha : b = a <;>
      simp [hk, hb, ha, hf, List.count_erase]
  · rw [if_neg fun h => hb h.2, node_of_size_le (Nat.le_of_not_lt hb), hd]
    exact (Nat.zero_sub _).symm

theorem count_owners_acquire (a : Handle) :
    ((g.acquire owner target).node k).owners.count a =
      (g.node k).owners.count a +
        if target = k ∧ owner = a ∧ (g.node k).isObservable then 1 else 0 :=
  count_update_cons g target k (fun _ => rfl) a

theorem count_owners_release (a : Handle) :
    ((g.release owner target).node k).owners.count a =
      (g.node k).owners.count a - if target = k ∧ owner = a then 1 else 0 :=
  count_update_erase g target k (fun _ => rfl) rfl a

theorem count_watchers_watch (a : ListenerId) :
    ((g.watch id target).node k).watchers.count a =
      (g.node k).watchers.count a +
        if target = k ∧ id = a ∧ (g.node k).isObservable then 1 else 0 :=
  count_update_cons g target k (fun _ => rfl) a

theorem count_watchers_unwatch (a : ListenerId) :
    ((g.unwatch id target).node k).watchers.count a =
      (g.node k).watchers.count a - if target = k ∧ id = a then 1 else 0 :=
  count_update_erase g target k (fun _ => rfl) rfl a

/-- Leaving the slots of a list takes one count for each. -/
theorem count_owners_foldl_release (a : Handle) (l : List Handle) :
    ((l.foldl (fun g s => g.release owner s) g).node k).owners.count a =
      (g.node k).owners.count a - if owner = a then l.count k else 0 := by
  induction l generalizing g with
  | nil => simp
  | cons s l ih =>
    rw [List.foldl_cons, ih, count_owners_release, List.count_cons]
    by_cases ho : owner = a <;> by_cases hs : s = k <;> simp [ho, hs]
    omega

end Observers

/-! ## Retiring -/

section Retire

variable {g : Graph} {old : Handle} (new k : Handle)

@[simp] theorem size_retire : (g.retire old new).size = g.size := by
  unfold retire
  exact (foldl_proj (p := size) (fun g s => g.size_release old s) _ _).trans (size_update _ _ _)

@[simp] theorem registry_retire : (g.retire old new).registry = g.registry.remove old := by
  unfold retire
  exact foldl_proj (f := fun g s => g.release old s) (p := registry) (fun _ _ => rfl) _ _

theorem bare_retire (hb : old.index < g.size) :
    ((g.retire old new).node k).bare =
      if k = old then
        { (g.node old).bare with slots := [], isAbstract := false, forward := some new }
      else (g.node k).bare := by
  unfold retire
  refine (node_foldl_proj (p := Node.bare) (fun g s => g.bare_release old s k) _ _).trans ?_
  show ((g.update old _).node k).bare = _
  by_cases hk : k = old
  · subst hk
    rw [if_pos rfl, node_update_self _ hb]
    rfl
  · rw [if_neg hk, node_update_of_ne _ fun h => hk h.symm]

theorem shape_retire (hb : old.index < g.size) :
    ((g.retire old new).node k).shape = (g.node k).shape := by
  have h := congrArg Node.shape (bare_retire new k hb)
  by_cases hk : k = old <;> simpa [Node.bare, hk] using h

theorem slots_retire (hb : old.index < g.size) :
    ((g.retire old new).node k).slots = if k = old then [] else (g.node k).slots := by
  have h := congrArg Node.slots (bare_retire new k hb)
  by_cases hk : k = old <;> simpa [Node.bare, hk] using h

theorem isAbstract_retire (hb : old.index < g.size) :
    ((g.retire old new).node k).isAbstract = if k = old then false else (g.node k).isAbstract := by
  have h := congrArg Node.isAbstract (bare_retire new k hb)
  by_cases hk : k = old <;> simpa [Node.bare, hk] using h

theorem forward_retire (hb : old.index < g.size) :
    ((g.retire old new).node k).forward = if k = old then some new else (g.node k).forward := by
  have h := congrArg Node.forward (bare_retire new k hb)
  by_cases hk : k = old <;> simpa [Node.bare, hk] using h

theorem watchers_retire (g : Graph) (old new k : Handle) :
    ((g.retire old new).node k).watchers = (g.node k).watchers := by
  unfold retire
  apply (node_foldl_proj (p := Node.watchers) (fun g s => g.watchers_release old s k) _ _).trans
  exact node_update_proj _ _ _ _ Node.watchers fun _ => rfl

@[simp] theorem subscriptions_retire (g : Graph) (old new : Handle) :
    (g.retire old new).subscriptions = g.subscriptions := by
  unfold retire
  exact foldl_proj (f := fun g s => g.release old s) (p := subscriptions) (fun _ _ => rfl) _ _

theorem count_owners_retire (g : Graph) (old new k a : Handle) :
    ((g.retire old new).node k).owners.count a =
      (g.node k).owners.count a - if old = a then (g.node old).slots.count k else 0 := by
  unfold retire
  apply (count_owners_foldl_release _ _ _ _ _).trans
  have ho : ((g.update old fun n =>
      { n with slots := [], isAbstract := false, forward := some new }).node k).owners =
        (g.node k).owners := node_update_proj _ _ _ _ Node.owners fun _ => rfl
  exact congrArg (fun os => os.count a - if old = a then (g.node old).slots.count k else 0) ho

end Retire

/-! ## Moving slots -/

section Retarget

variable (g : Graph) (owner old new k : Handle)

@[simp] theorem size_retarget : (g.retarget owner old new).size = g.size := by
  unfold retarget
  refine (foldl_proj (p := size) (fun g s => ?_) _ _).trans (size_update _ _ _)
  split
  · rw [size_acquire, size_release]
  · rfl

@[simp] theorem registry_retarget : (g.retarget owner old new).registry = g.registry := by
  unfold retarget
  refine (foldl_proj (p := registry) (fun g s => ?_) _ _).trans (registry_update _ _ _)
  split <;> rfl

@[simp] theorem subscriptions_retarget :
    (g.retarget owner old new).subscriptions = g.subscriptions := by
  unfold retarget
  refine (foldl_proj (p := subscriptions) (fun g s => ?_) _ _).trans (subscriptions_update _ _ _)
  split <;> rfl

theorem watchers_retarget :
    ((g.retarget owner old new).node k).watchers = (g.node k).watchers := by
  unfold retarget
  refine (node_foldl_proj (p := Node.watchers) (fun g s => ?_) _ _).trans
    (node_update_proj _ _ _ _ Node.watchers fun _ => rfl)
  split
  · rw [watchers_acquire, watchers_release]
  · rfl

theorem bare_moveSlot (s : Handle) :
    ((if s = old then (g.release owner old).acquire owner new else g).node k).bare =
      (g.node k).bare := by
  split
  · rw [bare_acquire, bare_release]
  · rfl

theorem bare_retarget :
    ((g.retarget owner old new).node k).bare =
      if k = owner then
        { (g.node k).bare with slots := (g.node k).slots.map fun s => if s = old then new else s }
      else (g.node k).bare := by
  unfold retarget
  refine (node_foldl_proj (p := Node.bare)
    (fun g s => g.bare_moveSlot owner old new k s) _ _).trans ?_
  rw [node_update]
  by_cases hk : k = owner
  · subst hk
    by_cases hb : k.index < g.size
    · rw [if_pos ⟨rfl, hb⟩, if_pos rfl]
      rfl
    · rw [if_neg fun h => hb h.2, if_pos rfl, node_of_size_le (Nat.le_of_not_lt hb)]
      rfl
  · rw [if_neg fun h => hk h.1.symm, if_neg hk]

@[simp] theorem shape_retarget :
    ((g.retarget owner old new).node k).shape = (g.node k).shape := by
  have h := congrArg Node.shape (g.bare_retarget owner old new k)
  by_cases hk : k = owner <;> simpa [Node.bare, hk] using h

theorem slots_retarget :
    ((g.retarget owner old new).node k).slots =
      if k = owner then (g.node k).slots.map fun s => if s = old then new else s
      else (g.node k).slots := by
  have h := congrArg Node.slots (g.bare_retarget owner old new k)
  by_cases hk : k = owner <;> simpa [Node.bare, hk] using h

@[simp] theorem isAbstract_retarget :
    ((g.retarget owner old new).node k).isAbstract = (g.node k).isAbstract := by
  have h := congrArg Node.isAbstract (g.bare_retarget owner old new k)
  by_cases hk : k = owner <;> simpa [Node.bare, hk] using h

@[simp] theorem forward_retarget :
    ((g.retarget owner old new).node k).forward = (g.node k).forward := by
  have h := congrArg Node.forward (g.bare_retarget owner old new k)
  by_cases hk : k = owner <;> simpa [Node.bare, hk] using h

theorem count_owners_foldl_moveSlot {old new : Handle} (hne : old ≠ new) (a : Handle)
    (l : List Handle) :
    ((l.foldl (fun g s => if s = old then (g.release owner old).acquire owner new else g)
        g).node k).owners.count a =
      (g.node k).owners.count a + (if new = k ∧ owner = a ∧ (g.node k).isObservable then
        l.count old else 0) - if old = k ∧ owner = a then l.count old else 0 := by
  induction l generalizing g with
  | nil => simp
  | cons s l ih =>
    rw [List.foldl_cons, ih, List.count_cons]
    by_cases hs : s = old
    · have hobs : (((g.release owner old).acquire owner new).node k).isObservable =
          (g.node k).isObservable := by
        unfold Node.isObservable Node.isRetired
        simp
      have hobs' : ((g.release owner old).node k).isObservable = (g.node k).isObservable := by
        unfold Node.isObservable Node.isRetired
        simp
      rw [if_pos hs, hobs, count_owners_acquire, count_owners_release, hobs']
      by_cases hk : old = k
      · have hn : ¬ new = k := fun h => hne (hk.trans h.symm)
        by_cases ho : owner = a <;> simp [hk, hn, ho, hs]
        omega
      · by_cases hn : new = k <;> by_cases ho : owner = a <;>
          by_cases hb : (g.node k).isObservable <;> simp [hk, hn, ho, hb, hs]
        omega
    · rw [if_neg hs]
      simp [hs]

theorem count_owners_retarget {old new : Handle} (hne : old ≠ new) (a : Handle) :
    ((g.retarget owner old new).node k).owners.count a =
      (g.node k).owners.count a + (if new = k ∧ owner = a ∧ (g.node k).isObservable then
        (g.node owner).slots.count old else 0) -
          if old = k ∧ owner = a then (g.node owner).slots.count old else 0 := by
  unfold retarget
  rw [count_owners_foldl_moveSlot _ _ _ hne]
  have ho : ((g.update owner fun n =>
      { n with slots := n.slots.map fun s => if s = old then new else s }).node k).owners =
        (g.node k).owners := node_update_proj _ _ _ _ Node.owners fun _ => rfl
  have hobs : ((g.update owner fun n =>
      { n with slots := n.slots.map fun s => if s = old then new else s }).node k).isObservable =
        (g.node k).isObservable := node_update_proj _ _ _ _ Node.isObservable fun _ => rfl
  rw [ho, hobs]

end Retarget

/-! ## Moving a listener -/

section MoveListener

variable (g : Graph) (old new k : Handle) (id : ListenerId)

theorem size_moveListener : (g.moveListener id old new).1.size = g.size := by
  unfold moveListener
  simp only
  split
  · exact size_update _ _ _
  · exact (size_update _ _ _).trans (size_update _ _ _)

theorem registry_moveListener : (g.moveListener id old new).1.registry = g.registry := by
  unfold moveListener
  simp only
  split <;> rfl

theorem bare_moveListener :
    ((g.moveListener id old new).1.node k).bare = (g.node k).bare := by
  unfold moveListener
  simp only
  split
  · exact g.bare_unwatch old k id
  · exact (bare_watch _ new k id).trans (g.bare_unwatch old k id)

theorem owners_moveListener :
    ((g.moveListener id old new).1.node k).owners = (g.node k).owners := by
  unfold moveListener
  simp only
  split
  · exact g.owners_unwatch old k id
  · exact (owners_watch _ new k id).trans (g.owners_unwatch old k id)

end MoveListener

/-! ## Promotion -/

section Concretize

variable (g : Graph) (h k : Handle)

@[simp] theorem size_concretize : (g.concretize h).size = g.size := by
  unfold concretize
  simp only
  split <;> exact size_update _ _ _

theorem node_concretize :
    (g.concretize h).node k =
      if k = h then { g.node k with isAbstract := false, owners := [], watchers := [] }
      else g.node k := by
  have hn : (g.concretize h).node k =
      (g.update h fun n => { n with isAbstract := false, owners := [], watchers := [] }).node k := by
    unfold concretize
    simp only
    split <;> rfl
  rw [hn, node_update]
  by_cases hk : k = h
  · subst hk
    by_cases hb : k.index < g.size
    · rw [if_pos ⟨rfl, hb⟩, if_pos rfl]
    · rw [if_neg fun h => hb h.2, if_pos rfl, node_of_size_le (Nat.le_of_not_lt hb)]
      rfl
  · rw [if_neg fun h => hk h.1.symm, if_neg hk]

@[simp] theorem subscriptions_concretize : (g.concretize h).subscriptions = g.subscriptions := by
  unfold concretize
  simp only
  split <;> rfl

@[simp] theorem subscriptions_concretizeAll (group : List Handle) :
    (g.concretizeAll group).subscriptions = g.subscriptions :=
  foldl_proj (p := subscriptions) subscriptions_concretize group g

@[simp] theorem size_concretizeAll (group : List Handle) : (g.concretizeAll group).size = g.size :=
  foldl_proj (p := size) size_concretize group g

theorem node_concretizeAll (group : List Handle) :
    (g.concretizeAll group).node k =
      if k ∈ group then { g.node k with isAbstract := false, owners := [], watchers := [] }
      else g.node k := by
  unfold concretizeAll
  induction group generalizing g with
  | nil => simp
  | cons a group ih =>
    rw [List.foldl_cons, ih, node_concretize]
    by_cases hk : k = a <;> by_cases hm : k ∈ group <;> simp [hk, hm]

theorem shape_concretizeAll (group : List Handle) :
    ((g.concretizeAll group).node k).shape = (g.node k).shape := by
  rw [node_concretizeAll]
  split <;> rfl

theorem slots_concretizeAll (group : List Handle) :
    ((g.concretizeAll group).node k).slots = (g.node k).slots := by
  rw [node_concretizeAll]
  split <;> rfl

theorem forward_concretizeAll (group : List Handle) :
    ((g.concretizeAll group).node k).forward = (g.node k).forward := by
  rw [node_concretizeAll]
  split <;> rfl

theorem isAbstract_concretizeAll (group : List Handle) :
    ((g.concretizeAll group).node k).isAbstract =
      if k ∈ group then false else (g.node k).isAbstract := by
  rw [node_concretizeAll]
  split <;> rfl

end Concretize

end Graph

end TypeGraph
