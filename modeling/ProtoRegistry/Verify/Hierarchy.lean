import ProtoRegistry.Model.Sample
import Mathlib.Data.List.Induction

/-!
# The namespace hierarchy

The recursive query behind `SetNamespaceParent` looks at the proposed parent and 63 rows above it. A
hierarchy built by calls that run one after another stays a forest exactly as long as no namespace is
moved below one of its descendants 64 or more levels down (`parents_acyclic_iff`).
-/

namespace ProtoRegistry

open Relation RegistryM

namespace Store

/-- The parent column refers to existing rows, and climbing it ends. -/
structure Forest (s : Store) : Prop where
  parentsExist : ∀ n p, s.parentOf n = some p → (s.namespaces.get p).isSome
  grounded : ∀ id, Grounded (ParentLink s.parentOf) id

/-- `n` is `p` or one of the ancestors of `p`, at any distance. -/
def AncestorOrSelf (s : Store) (n p : String) : Prop := ReflTransGen (ParentLink s.parentOf) p n

/-- `n` lies above `p` so far up that the query does not see it. -/
def OutOfSight (s : Store) (n p : String) : Prop :=
  ∃ d, maxDepth ≤ d ∧ climb s.parentOf d p = some n

/-- Following the parents from `id` reaches a namespace without parent. -/
def Rooted (s : Store) (id : String) : Prop :=
  ∃ root, s.AncestorOrSelf root id ∧ s.parentOf root = none

variable {s : Store} {n p : String}

theorem Forest.rooted (h : s.Forest) (id : String) : s.Rooted id := (h.grounded id).exists_root

theorem isSome_of_parentOf (h : s.parentOf n = some p) : (s.namespaces.get n).isSome := by
  obtain ⟨row, hrow, -⟩ := Option.bind_eq_some_iff.mp h
  simp [hrow]

theorem Forest.not_ancestor_of_missing (h : s.Forest) (hn : s.namespaces.get n = none)
    (hp : (s.namespaces.get p).isSome) : ¬ s.AncestorOrSelf n p := by
  intro hanc
  rcases hanc.cases_tail with rfl | ⟨z, -, hz⟩
  · simp [hn] at hp
  · simpa [hn] using h.parentsExist z n hz

/-! ## The query -/

theorem ancestors_eq_walk (hexist : ∀ n p, s.parentOf n = some p → (s.namespaces.get p).isSome)
    (k : Nat) {id : String} (hid : (s.namespaces.get id).isSome) :
    s.ancestors k id = walk s.parentOf k id := by
  induction k generalizing id with
  | zero => rfl
  | succ k ih =>
    obtain ⟨row, hrow⟩ := Option.isSome_iff_exists.mp hid
    have hparent : s.parentOf id = row.parentNamespaceID := by simp [parentOf, hrow]
    cases hp : row.parentNamespaceID with
    | none => simp [ancestors, walk, hrow, hparent, hp]
    | some p =>
      have htail := ih (hexist id p (hparent.trans hp))
      simp [ancestors, walk, hrow, hparent, hp, htail]

theorem acceptsParent_iff (h : s.Forest) (hn : (s.namespaces.get n).isSome)
    (hp : (s.namespaces.get p).isSome) :
    s.AcceptsParent n p ↔ ∀ d < maxDepth, climb s.parentOf d p ≠ some n := by
  have hwalk : n ∈ s.ancestors maxDepth p ↔ ∃ d < maxDepth, climb s.parentOf d p = some n := by
    rw [ancestors_eq_walk h.parentsExist maxDepth hp, mem_walk]
  rw [AcceptsParent, AcceptsUpdate, hwalk]
  constructor
  · rintro ⟨-, -, -, hnot⟩ d hd hclimb
    exact hnot ⟨d, hd, hclimb⟩
  · intro hall
    refine ⟨hn, ?_, hp, fun ⟨d, hd, hclimb⟩ => hall d hd hclimb⟩
    rintro rfl
    exact hall 0 (by decide) rfl

/-! ## What the operations do to the parents -/

theorem parentOf_writeParent (hn : (s.namespaces.get n).isSome) (q : Option String) :
    (s.writeParent n q).parentOf = Function.update s.parentOf n q := by
  obtain ⟨row, hrow⟩ := Option.isSome_iff_exists.mp hn
  funext id
  rw [Function.update_apply]
  split
  · next hid => simp [hid, parentOf, writeParent, hrow]
  · next hid => simp [parentOf, writeParent, hrow, Dict.get_set_of_ne _ _ hid]

theorem isSome_writeParent (q : Option String) (id : String) :
    ((s.writeParent n q).namespaces.get id).isSome = (s.namespaces.get id).isSome := by
  unfold writeParent
  split
  · rfl
  · next row hrow =>
    rcases eq_or_ne id n with rfl | hne
    · simp [hrow]
    · simp [Dict.get_set_of_ne _ _ hne]

/-- `setNamespaceParent` in full: it succeeds and writes the parent, or it fails, names the reason and
changes nothing. -/
theorem setNamespaceParent_cases (s : Store) (n : String) (q : Option String) (actor : String) :
    (∃ row, s.namespaces.get n = some row ∧ (∀ p, q = some p → s.AcceptsParent n p) ∧
      s.setNamespaceParent n q actor = (.ok (), (s.writeParent n q).recordNamespaceParentEvent
        ⟨n, row.parentNamespaceID, q, actor⟩)) ∨
    ((s.namespaces.get n = none ∨ ∃ p, q = some p ∧ s.namespaces.get p = none) ∧
      s.setNamespaceParent n q actor = (.error errNamespaceNotFound, s)) ∨
    (∃ p, q = some p ∧ (s.namespaces.get n).isSome ∧ (s.namespaces.get p).isSome ∧
      ¬ s.AcceptsParent n p ∧ s.setNamespaceParent n q actor = (.error errParentCycle, s)) := by
  unfold setNamespaceParent
  cases hn : s.namespaces.get n with
  | none => exact .inr (.inl ⟨.inl rfl, rfl⟩)
  | some row =>
    cases q with
    | none => exact .inl ⟨row, rfl, by simp, rfl⟩
    | some p =>
      by_cases hp : s.namespaces.get p = none
      · exact .inr (.inl ⟨.inr ⟨p, rfl, hp⟩, by simp [hp]⟩)
      · by_cases hacc : s.AcceptsParent n p
        · exact .inl ⟨row, rfl, by simpa using hacc, by simp [hp, hacc]⟩
        · refine .inr (.inr ⟨p, rfl, rfl, ?_, hacc, by simp [hp, hacc]⟩)
          exact Option.isSome_iff_ne_none.mpr hp

theorem setNamespaceParent_of_accepts (hacc : s.AcceptsParent n p) (actor : String) :
    ∃ ev, s.setNamespaceParent n (some p) actor =
      (.ok (), (s.writeParent n (some p)).recordNamespaceParentEvent ev) := by
  rcases s.setNamespaceParent_cases n (some p) actor with
    ⟨row, -, -, heq⟩ | ⟨hn | ⟨p', hp', hp⟩, -⟩ | ⟨p', hp', -, -, hnot, -⟩
  · exact ⟨_, heq⟩
  · simp [AcceptsParent, AcceptsUpdate, hn] at hacc
  · cases hp'
    simp [AcceptsParent, AcceptsUpdate, hp] at hacc
  · cases hp'
    exact absurd hacc hnot

theorem setNamespaceParent_eq_cycle_iff (h : s.Forest) (hn : (s.namespaces.get n).isSome)
    (hp : (s.namespaces.get p).isSome) (actor : String) :
    (s.setNamespaceParent n (some p) actor).1 = .error errParentCycle ↔
      ∃ d < maxDepth, climb s.parentOf d p = some n := by
  have hacc := acceptsParent_iff h hn hp
  rcases s.setNamespaceParent_cases n (some p) actor with
    ⟨row, -, hok, heq⟩ | ⟨hmiss, -⟩ | ⟨p', hp', -, -, hnot, heq⟩
  · rw [heq]
    refine iff_of_false (by simp) ?_
    rintro ⟨d, hd, hclimb⟩
    exact hacc.mp (hok p rfl) d hd hclimb
  · rcases hmiss with hmiss | ⟨p', hp', hmiss⟩
    · simp [hmiss] at hn
    · cases hp'
      simp [hmiss] at hp
  · cases hp'
    rw [heq]
    refine iff_of_true rfl ?_
    by_contra hnone
    exact hnot (hacc.mpr fun d hd hclimb => hnone ⟨d, hd, hclimb⟩)

theorem Forest.isSome_of_outOfSight (h : s.Forest) (hfar : s.OutOfSight n p) :
    (s.namespaces.get n).isSome ∧ (s.namespaces.get p).isSome := by
  obtain ⟨d, hd, hclimb⟩ := hfar
  obtain ⟨d, rfl⟩ := Nat.exists_eq_succ_of_ne_zero (show d ≠ 0 by rintro rfl; cases hd)
  constructor
  · rw [climb_succ] at hclimb
    obtain ⟨z, -, hz⟩ := Option.bind_eq_some_iff.mp hclimb
    exact h.parentsExist z n hz
  · obtain ⟨z, hz, -⟩ := Option.bind_eq_some_iff.mp hclimb
    exact isSome_of_parentOf hz

theorem Forest.accepts_of_outOfSight (h : s.Forest) (hfar : s.OutOfSight n p) :
    s.AcceptsParent n p := by
  obtain ⟨hn, hp⟩ := h.isSome_of_outOfSight hfar
  obtain ⟨d, hd, hclimb⟩ := hfar
  refine (acceptsParent_iff h hn hp).mpr fun d' hd' hclimb' => ?_
  have := (h.grounded p).climb_inj hclimb hclimb'
  omega

theorem Forest.not_rejected (h : s.Forest) (hfar : s.OutOfSight n p) (actor : String) :
    (s.setNamespaceParent n (some p) actor).1 ≠ .error errParentCycle := by
  obtain ⟨ev, heq⟩ := setNamespaceParent_of_accepts (h.accepts_of_outOfSight hfar) actor
  simp [heq]

theorem Forest.writeParent (h : s.Forest) (hn : (s.namespaces.get n).isSome)
    (hq : ∀ p, q = some p → (s.namespaces.get p).isSome ∧ ¬ s.AncestorOrSelf n p)
    (ev : NamespaceParentEvent) :
    ((s.writeParent n q).recordNamespaceParentEvent ev).Forest where
  parentsExist m p hmp := by
    change (s.writeParent n q).parentOf m = some p at hmp
    change ((s.writeParent n q).namespaces.get p).isSome
    rw [parentOf_writeParent hn, Function.update_apply] at hmp
    rw [isSome_writeParent]
    split at hmp
    · exact (hq p hmp).1
    · exact h.parentsExist m p hmp
  grounded id := by
    change Grounded (ParentLink (s.writeParent n q).parentOf) id
    rw [parentOf_writeParent hn]
    exact grounded_setParent h.grounded (fun p hp => (hq p hp).2) id

theorem Forest.setNamespaceParent (h : s.Forest) (actor : String)
    (hsight : ∀ p, q = some p → ¬ s.OutOfSight n p) :
    (s.setNamespaceParent n q actor).2.Forest := by
  rcases s.setNamespaceParent_cases n q actor with
    ⟨row, hrow, hacc, heq⟩ | ⟨-, heq⟩ | ⟨p, -, -, -, -, heq⟩
  · have hn : (s.namespaces.get n).isSome := by simp [hrow]
    rw [heq]
    refine h.writeParent hn (fun p hp => ⟨(hacc p hp).2.2.1, fun hanc => ?_⟩) _
    obtain ⟨d, hd⟩ := reach_iff_climb.mp hanc
    rcases Nat.lt_or_ge d maxDepth with hlt | hge
    · exact (acceptsParent_iff h hn (hacc p hp).2.2.1).mp (hacc p hp) d hlt hd
    · exact hsight p hp ⟨d, hge, hd⟩
  · rw [heq]; exact h
  · rw [heq]; exact h

def insertRoot (s : Store) (n : String) : Store :=
  { s with namespaces := s.namespaces.set n ⟨none⟩ }

theorem createNamespace_of_missing (hn : s.namespaces.get n = none) :
    s.createNamespace n none = (.ok (), s.insertRoot n) := by
  simp [createNamespace, hn, insertRoot]

theorem createNamespace_of_exists (hn : (s.namespaces.get n).isSome) :
    s.createNamespace n none = (.error (duplicateKey "namespaces_pkey"), s) := by
  simp [createNamespace, hn]

theorem parentOf_insertRoot (hn : s.namespaces.get n = none) :
    (s.insertRoot n).parentOf = s.parentOf := by
  funext id
  rcases eq_or_ne id n with rfl | hne
  · simp [parentOf, insertRoot, hn]
  · simp [parentOf, insertRoot, Dict.get_set_of_ne _ _ hne]

theorem Forest.insertRoot (h : s.Forest) (hn : s.namespaces.get n = none) :
    (s.insertRoot n).Forest where
  parentsExist m p hmp := by
    rw [parentOf_insertRoot hn] at hmp
    have hp := h.parentsExist m p hmp
    rcases eq_or_ne p n with rfl | hne
    · simp [Store.insertRoot]
    · rwa [Store.insertRoot, Dict.get_set_of_ne _ _ hne]
  grounded id := by
    rw [parentOf_insertRoot hn]
    exact h.grounded id

theorem forest_empty : Store.empty.Forest where
  parentsExist n p h := by simp [parentOf, Store.empty] at h
  grounded id := grounded_iff.mpr fun y h => by simp [ParentLink, parentOf, Store.empty] at h

end Store

/-! ## Runs of the registry -/

inductive HierarchyCall where
  | createNamespace (namespaceID : String) (parentID : Option String) (actorID : String)
  | setNamespaceParent (namespaceID : String) (parentID : Option String) (actorID : String)

def HierarchyCall.toCall : HierarchyCall → Call
  | .createNamespace n q actor => .createNamespace n q actor
  | .setNamespaceParent n q actor => .setNamespaceParent n q actor

namespace Registry

variable (r : Registry)

/-- The store after hierarchy calls executed one after another from an empty store. -/
def hierarchyAfter (calls : List HierarchyCall) : World :=
  r.runAll (calls.map HierarchyCall.toCall) .empty

theorem hierarchyAfter_append (calls : List HierarchyCall) (c : HierarchyCall) :
    r.hierarchyAfter (calls ++ [c]) = (r.exec c.toCall (r.hierarchyAfter calls)).2 := by
  simp [hierarchyAfter]

theorem exec_setNamespaceParent (n : String) (q : Option String) (actor : String) (w : World)
    (hauth : r.authz.canSetNamespaceParent n q = .ok ()) :
    (r.exec (.setNamespaceParent n q actor) w).1 =
        (w.store.setNamespaceParent n q actor).1.map (fun _ => .done) ∧
      (r.exec (.setNamespaceParent n q actor) w).2.store =
        (w.store.setNamespaceParent n q actor).2 := by
  simp only [exec, run, setNamespaceParent, execute_bind, execute_liftExcept, hauth, exec_store,
    Store.perform, exec_mem]
  rcases w.store.setNamespaceParent n q actor with ⟨_ | _, s'⟩
  · exact ⟨rfl, rfl⟩
  · cases q with
    | none => exact ⟨rfl, rfl⟩
    | some p => exact ⟨rfl, rfl⟩

theorem exec_setNamespaceParent_denied (n : String) (q : Option String) (actor : String) (w : World)
    (hauth : r.authz.canSetNamespaceParent n q = .error e) :
    r.exec (.setNamespaceParent n q actor) w = (.error e, w) := by
  simp [exec, run, setNamespaceParent, execute_bind, hauth]

/-- What creating a namespace does to the store: nothing when it is denied or the row exists, an
insertion otherwise, followed by `setNamespaceParent` when a parent is given. -/
theorem exec_createNamespace_store (n : String) (q : Option String) (actor : String) (w : World) :
    (r.exec (.createNamespace n q actor) w).2.store =
      match r.authz.canCreateNamespace n q, w.store.namespaces.get n, q with
      | .ok _, none, none => w.store.insertRoot n
      | .ok _, none, some _ => ((w.store.insertRoot n).setNamespaceParent n q actor).2
      | _, _, _ => w.store := by
  simp only [exec, run, createNamespace, execute_bind, execute_liftExcept]
  cases r.authz.canCreateNamespace n q with
  | error e => rfl
  | ok =>
    cases hn : w.store.namespaces.get n with
    | some row =>
      have heq := Store.createNamespace_of_exists (s := w.store) (n := n) (by rw [hn]; rfl)
      simp [Store.perform, heq, Except.mapError]
    | none =>
      have heq := Store.createNamespace_of_missing hn
      cases q with
      | none => simp [Store.perform, heq, Except.mapError]
      | some p =>
        simp only [exec_wrap, exec_store, Store.perform, heq, Except.mapError, exec_mem, execute_bind]
        rcases (w.store.insertRoot n).setNamespaceParent n (some p) actor with ⟨_ | _, s'⟩
        · rfl
        · by_cases hmem : ((w.memory.getOrCreate n).namespaces.get p).isSome = true
          · simp [Namespaces.perform, hmem]
          · simp [Namespaces.perform, hmem, execute_bind]

theorem forest_createNamespace {w : World} (h : w.store.Forest) (n : String) (q : Option String)
    (actor : String) : (r.exec (.createNamespace n q actor) w).2.store.Forest := by
  rw [exec_createNamespace_store]
  split
  · next _ hn _ => exact h.insertRoot hn
  · next _ hn _ =>
    refine (h.insertRoot hn).setNamespaceParent actor fun p _ hfar => ?_
    -- no row refers to the new one, so no climb that makes a step reaches it
    obtain ⟨d, hd, hclimb⟩ := hfar
    rw [Store.parentOf_insertRoot hn] at hclimb
    obtain ⟨hn', -⟩ := h.isSome_of_outOfSight ⟨d, hd, hclimb⟩
    simp [hn] at hn'
  · exact h

theorem forest_setNamespaceParent {w : World} (h : w.store.Forest) (n : String) (q : Option String)
    (actor : String)
    (hsight : ∀ p, q = some p → r.authz.canSetNamespaceParent n q = .ok () →
      ¬ w.store.OutOfSight n p) :
    (r.exec (.setNamespaceParent n q actor) w).2.store.Forest := by
  cases hauth : r.authz.canSetNamespaceParent n q with
  | error e =>
    rw [r.exec_setNamespaceParent_denied n q actor w hauth]
    exact h
  | ok =>
    rw [(r.exec_setNamespaceParent n q actor w hauth).2]
    exact h.setNamespaceParent actor fun p hp => hsight p hp hauth

theorem forest_hierarchyAfter {calls : List HierarchyCall}
    (hsight : ∀ done n p actor rest, calls = done ++ .setNamespaceParent n (some p) actor :: rest →
      (r.hierarchyAfter done).store.Forest → r.authz.canSetNamespaceParent n (some p) = .ok () →
      ¬ (r.hierarchyAfter done).store.OutOfSight n p) :
    (r.hierarchyAfter calls).store.Forest := by
  induction calls using List.reverseRecOn with
  | nil => exact Store.forest_empty
  | append_singleton calls c ih =>
    have hforest := ih fun done n p actor rest hcalls =>
      hsight done n p actor (rest ++ [c]) (by rw [hcalls, List.append_assoc]; rfl)
    rw [hierarchyAfter_append]
    cases c with
    | createNamespace n q actor => exact r.forest_createNamespace hforest n q actor
    | setNamespaceParent n q actor =>
      refine r.forest_setNamespaceParent hforest n q actor fun p hq hauth => ?_
      subst hq
      exact hsight calls n p actor [] rfl hforest hauth

/-- **The hierarchy stays acyclic, and every call that would close a cycle is rejected as one, exactly
in the runs that never move a namespace below a descendant out of the query's sight.** -/
theorem parents_acyclic_iff (calls : List HierarchyCall) :
    ((∀ done rest, calls = done ++ rest → ∀ id, (r.hierarchyAfter done).store.Rooted id) ∧
      (∀ done n p actor rest, calls = done ++ .setNamespaceParent n (some p) actor :: rest →
        r.authz.canSetNamespaceParent n (some p) = .ok () →
        ((r.hierarchyAfter done).store.namespaces.get n).isSome →
        (r.hierarchyAfter done).store.AncestorOrSelf n p →
        (r.exec (.setNamespaceParent n (some p) actor) (r.hierarchyAfter done)).1 =
          .error errParentCycle)) ↔
    ∀ done n p actor rest, calls = done ++ .setNamespaceParent n (some p) actor :: rest →
      r.authz.canSetNamespaceParent n (some p) = .ok () →
      ¬ (r.hierarchyAfter done).store.OutOfSight n p := by
  have hreply : ∀ (w : World) n p actor, r.authz.canSetNamespaceParent n (some p) = .ok () →
      ((r.exec (.setNamespaceParent n (some p) actor) w).1 = .error errParentCycle ↔
        (w.store.setNamespaceParent n (some p) actor).1 = .error errParentCycle) := by
    intro w n p actor hauth
    rw [(r.exec_setNamespaceParent n (some p) actor w hauth).1]
    cases (w.store.setNamespaceParent n (some p) actor).1 <;> simp [Except.map]
  constructor
  · rintro ⟨-, hreject⟩
    -- a cycle out of sight is not rejected, so the assumption leaves no such call
    have hsight (done n p actor rest) (h : (r.hierarchyAfter done).store.Forest)
        (hcalls : calls = done ++ .setNamespaceParent n (some p) actor :: rest)
        (hauth : r.authz.canSetNamespaceParent n (some p) = .ok ()) :
        ¬ (r.hierarchyAfter done).store.OutOfSight n p := by
      intro hfar
      have hn := (h.isSome_of_outOfSight hfar).1
      have hanc : (r.hierarchyAfter done).store.AncestorOrSelf n p :=
        reach_iff_climb.mpr ⟨_, hfar.choose_spec.2⟩
      have hcycle := hreject done n p actor rest hcalls hauth hn hanc
      exact h.not_rejected hfar actor ((hreply _ n p actor hauth).mp hcycle)
    intro done n p actor rest hcalls hauth
    refine hsight done n p actor rest (r.forest_hierarchyAfter ?_) hcalls hauth
    intro done' n' p' actor' rest' hdone h hauth'
    refine hsight done' n' p' actor' (rest' ++ .setNamespaceParent n (some p) actor :: rest) h ?_ hauth'
    rw [hcalls, hdone, List.append_assoc]
    rfl
  · intro hsight
    have hforest : ∀ done rest, calls = done ++ rest → (r.hierarchyAfter done).store.Forest := by
      rintro done rest rfl
      refine r.forest_hierarchyAfter fun done' n p actor rest' hdone _ => ?_
      exact hsight done' n p actor (rest' ++ rest) (by rw [hdone, List.append_assoc]; rfl)
    refine ⟨fun done rest hcalls id => (hforest done rest hcalls).rooted id, ?_⟩
    intro done n p actor rest hcalls hauth hn hanc
    have h := hforest done _ hcalls
    obtain ⟨d, hd⟩ := reach_iff_climb.mp hanc
    have hlt : d < Store.maxDepth := by
      by_contra hge
      exact hsight done n p actor rest hcalls hauth ⟨d, by omega, hd⟩
    have hp : ((r.hierarchyAfter done).store.namespaces.get p).isSome := by
      rcases hanc.cases_head with rfl | ⟨z, hz, -⟩
      · exact hn
      · exact Store.isSome_of_parentOf hz
    exact (hreply _ n p actor hauth).mpr
      ((Store.setNamespaceParent_eq_cycle_iff h hn hp actor).mpr ⟨d, hlt, hd⟩)

end Registry

/-! ## A cycle the query does not see -/

def levelName (k : Nat) : String := String.ofList (List.replicate (k + 1) 'n')

theorem levelName_inj : levelName i = levelName j ↔ i = j := by
  refine ⟨fun h => ?_, congrArg levelName⟩
  have hlen := congrArg List.length (String.ofList_injective h)
  simpa using hlen

/-- Build a chain of `k + 1` namespaces, each below the one before. -/
def deepCalls : Nat → List HierarchyCall
  | 0 => [.createNamespace (levelName 0) none "system"]
  | k + 1 => deepCalls k ++ [.createNamespace (levelName (k + 1)) (some (levelName k)) "system"]

def levelParent : Nat → Option String
  | 0 => none
  | i + 1 => some (levelName i)

theorem deepCalls_spec (k : Nat) :
    (Sample.registry.hierarchyAfter (deepCalls k)).store.Forest ∧
      ∀ i, (Sample.registry.hierarchyAfter (deepCalls k)).store.namespaces.get (levelName i) =
        if i ≤ k then some ⟨levelParent i⟩ else none := by
  induction k with
  | zero =>
    refine ⟨Sample.registry.forest_createNamespace (w := .empty) Store.forest_empty _ _ _, fun i => ?_⟩
    change (Store.insertRoot .empty (levelName 0)).namespaces.get (levelName i) = _
    cases i with
    | zero => simp [Store.insertRoot, levelParent]
    | succ i => simp [Store.insertRoot, Dict.get_set, levelName_inj, Store.empty]
  | succ k ih =>
    obtain ⟨hforest, hget⟩ := ih
    rw [deepCalls, Registry.hierarchyAfter_append]
    refine ⟨Sample.registry.forest_createNamespace hforest _ _ _, fun i => ?_⟩
    generalize Sample.registry.hierarchyAfter (deepCalls k) = w at hforest hget
    have hnew : w.store.namespaces.get (levelName (k + 1)) = none := by rw [hget, if_neg (by omega)]
    have hold : (w.store.namespaces.get (levelName k)).isSome := by simp [hget k]
    have hacc : (w.store.insertRoot (levelName (k + 1))).AcceptsParent
        (levelName (k + 1)) (levelName k) := by
      refine (Store.acceptsParent_iff (hforest.insertRoot hnew) ?_ ?_).mpr fun d _ hclimb => ?_
      · simp [Store.insertRoot]
      · rwa [Store.insertRoot, Dict.get_set_of_ne _ _ (by simp [levelName_inj])]
      · rw [Store.parentOf_insertRoot hnew] at hclimb
        exact hforest.not_ancestor_of_missing hnew hold (reach_iff_climb.mpr ⟨d, hclimb⟩)
    obtain ⟨ev, heq⟩ := Store.setNamespaceParent_of_accepts hacc "system"
    have hauth : Sample.registry.authz.canCreateNamespace (levelName (k + 1)) (some (levelName k)) =
        .ok () := rfl
    have hrow : (w.store.insertRoot (levelName (k + 1))).namespaces.get (levelName (k + 1)) =
        some ⟨none⟩ := by simp [Store.insertRoot]
    simp only [HierarchyCall.toCall, Registry.exec_createNamespace_store, hauth, hnew, heq,
      Store.recordNamespaceParentEvent, Store.writeParent, hrow]
    rcases eq_or_ne i (k + 1) with rfl | hne
    · simp [levelParent]
    · have hname : levelName i ≠ levelName (k + 1) := by simpa [levelName_inj] using hne
      rw [Dict.get_set_of_ne _ _ hname, Store.insertRoot, Dict.get_set_of_ne _ _ hname, hget]
      simp only [show i ≤ k + 1 ↔ i ≤ k by omega]

theorem deepCalls_climb (k d : Nat) (hd : d ≤ k) :
    climb (Sample.registry.hierarchyAfter (deepCalls k)).store.parentOf d (levelName k) =
      some (levelName (k - d)) := by
  induction d with
  | zero => rfl
  | succ d ih =>
    rw [climb_succ, ih (by omega)]
    obtain ⟨j, hj⟩ : ∃ j, k - d = j + 1 := ⟨k - d - 1, by omega⟩
    have hget := (deepCalls_spec k).2 (j + 1)
    rw [if_pos (by omega)] at hget
    have hlevel : k - (d + 1) = j := by omega
    simp [Store.parentOf, hj, hget, levelParent, hlevel]

theorem cycle_of_outOfSight {w : World} (hforest : w.store.Forest) (hfar : w.store.OutOfSight n p) :
    (Sample.registry.exec (.setNamespaceParent n (some p) "system") w).1 = .ok .done ∧
      ¬ (Sample.registry.exec (.setNamespaceParent n (some p) "system") w).2.store.Rooted n := by
  obtain ⟨hreply, hstore⟩ := Sample.registry.exec_setNamespaceParent n (some p) "system" w rfl
  have hacc := hforest.accepts_of_outOfSight hfar
  obtain ⟨ev, heq⟩ := Store.setNamespaceParent_of_accepts hacc "system"
  rw [hreply, hstore, heq]
  refine ⟨rfl, fun ⟨root, hroot, hnone⟩ => ?_⟩
  have hground := grounded_of_root hroot hnone
  change Grounded (ParentLink (w.store.writeParent _ _).parentOf) _ at hground
  rw [Store.parentOf_writeParent (hforest.isSome_of_outOfSight hfar).1] at hground
  obtain ⟨d, -, hclimb⟩ := hfar
  exact not_grounded_setParent (reach_iff_climb.mpr ⟨d, hclimb⟩) hground

theorem deep_cycle :
    (Sample.registry.exec (.setNamespaceParent (levelName 0) (some (levelName 64)) "system")
      (Sample.registry.hierarchyAfter (deepCalls 64))).1 = .ok .done ∧
    ¬ (Sample.registry.hierarchyAfter
      (deepCalls 64 ++ [.setNamespaceParent (levelName 0) (some (levelName 64)) "system"])).store.Rooted
        (levelName 0) := by
  have hfar : (Sample.registry.hierarchyAfter (deepCalls 64)).store.OutOfSight
      (levelName 0) (levelName 64) := ⟨64, le_rfl, deepCalls_climb 64 64 le_rfl⟩
  rw [Registry.hierarchyAfter_append, HierarchyCall.toCall]
  exact cycle_of_outOfSight (deepCalls_spec 64).1 hfar

end ProtoRegistry
