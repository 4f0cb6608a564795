import ProtoRegistry.Verify.Gate
import ProtoRegistry.Verify.Restore

/-!
# The compatibility gate over sequential runs with restarts

A session is a run of calls and restarts. `Restore` rebuilds the current snapshots and not the staged
ones, so `Promote` checks the staged versions only as far as they were staged since the last restart.
As long as no version is promoted that memory does not know of, the current snapshots stay those of the
store, and every promotion is compatible or follows a forced rollback.
-/

namespace ProtoRegistry

/-! ## Sessions -/

/-- A registry over time: its world, and the call that last staged a version of each schema. -/
structure Session where
  world : World
  stagedBy : String → String → Option Call

def Call.stagedSchema : Call → Except Err Reply → Option (String × String)
  | .publish req, .ok (.published res) =>
    if res.noChange then none else some (req.namespaceID, req.schemaID)
  | .rebase ns sc, .ok (.published res) => if res.noChange then none else some (ns, sc)
  | .rollback ns sc _ _, .ok _ => some (ns, sc)
  | _, _ => none

namespace Session

def start : Session := ⟨.empty, fun _ _ => none⟩

def call (s : Session) (r : Registry) (c : Call) : Session where
  world := (r.exec c s.world).2
  stagedBy ns sc :=
    if c.stagedSchema (r.exec c s.world).1 = some (ns, sc) then some c else s.stagedBy ns sc

/-- The sessions reached by successful restarts and calls that meet the condition `ok`. -/
inductive Reached (r : Registry) (ok : World → Call → Prop) : Session → Prop
  | start : Reached r ok .start
  | call (c : Call) : Reached r ok s → ok s.world c → Reached r ok (s.call r c)
  | restart : Reached r ok s → (r.restart s.world).1 = .ok () →
      Reached r ok { s with world := (r.restart s.world).2 }

end Session

/-- Before a promotion, memory has the two snapshots of each schema whose current version is to be replaced. A
first version may be missing: its promotion has nothing to compare, but memory does not have the version as current
then, and the promotion of a second one meets the condition only after a restart. -/
def NoneLost (w : World) : Call → Prop
  | .promote ns => ∀ sc cur v, w.store.pointers ns sc = ⟨some cur, some v⟩ →
      (w.memory.current ns sc).isSome ∧ (w.memory.staged ns sc).isSome
  | _ => True

/-! ## What a call is told before it moves pointers -/

/-- No pointer and no slot has been written. -/
structure World.Unmoved (w w' : World) : Prop where
  pointers : ∀ ns sc, w'.store.pointers ns sc = w.store.pointers ns sc
  slot : ∀ ns sc, w'.memory.slot ns sc = w.memory.slot ns sc

/-- What the results of a call's reads say about pointers and slots. -/
def World.Told (w : World) : (op : Op) → op.Res → Prop
  | .mem (.staged ns sc), snap => snap = w.memory.staged ns sc
  | .mem (.current ns sc), snap => snap = w.memory.current ns sc
  | .mem (.get ns), false => ∀ sc, w.memory.slot ns sc = none
  | .mem (.schemaIDs ns), ids => ∀ sc, (w.memory.slot ns sc).isSome → sc ∈ ids
  | .store (.listVersions ns sc), .ok versions =>
    ∀ cur, (w.store.pointers ns sc).currentVersion = some cur → cur < Registry.nextVersion versions
  | _, _ => True

/-- Slots are only written after pointers. -/
def SlotGuard (h : CallHistory) : Op → Prop
  | .store _ => True
  | .mem op => ∀ ns sc, Op.Touches ns sc (.mem op) → mirror h ≠ .before

theorem slotGuard_of_callGuard {op : Op} (hG : CallGuard r c h op) : SlotGuard h op := by
  cases op with
  | store op => trivial
  | mem op =>
    intro ns sc ht hbefore
    exact pending_of_mem_touches hG ht (by rw [hbefore]; rfl)

theorem next_ne_before_of_store_touches {op : StoreOp} (ht : Op.Touches ns sc (.store op)) (m : Mirror) :
    m.next (.store op) (World.perform (.store op) w).1 ≠ .before := by
  cases op with
  | setStaged | promote | discardStaging => simp [Mirror.next, World.perform, Store.perform]
  | _ => exact ht.elim

theorem Store.mem_listVersions {s : Store} :
    v ∈ s.listVersions ns sc ↔ (s.versions.get (ns, sc, v)).isSome := by
  rw [listVersions, List.mem_insertionSort, List.mem_filterMap, ← s.versions.mem_keys]
  constructor
  · rintro ⟨⟨ns', sc', v'⟩, hmem, heq⟩
    simp only [Option.ite_none_right_eq_some, Option.some.injEq] at heq
    obtain ⟨⟨rfl, rfl⟩, rfl⟩ := heq
    exact hmem
  · intro hmem
    exact ⟨_, hmem, by simp⟩

theorem Store.lt_nextVersion {s : Store} (hv : (s.versions.get (ns, sc, v)).isSome) :
    v < Registry.nextVersion (s.listVersions ns sc) := by
  have hmem := mem_listVersions.mpr hv
  have hsorted : (s.listVersions ns sc).Pairwise (· ≤ ·) := List.pairwise_insertionSort _ _
  unfold Registry.nextVersion
  split
  · next hnone =>
    rw [List.getLast?_eq_none_iff.mp hnone] at hmem
    cases hmem
  · next last hlast =>
    obtain ⟨init, hinit⟩ := List.getLast?_eq_some_iff.mp hlast
    rw [hinit] at hmem hsorted
    obtain hmem | hmem := List.mem_append.mp hmem
    · have := (List.pairwise_append.mp hsorted).2.2 v hmem last (List.mem_singleton_self _)
      omega
    · cases List.mem_singleton.mp hmem
      omega

namespace World

variable {r : Registry} {c : Call} {w w₀ : World} {h : CallHistory} {op : Op} {ns sc : String} {v : Nat}

theorem Unmoved.refl (w : World) : w.Unmoved w := ⟨fun _ _ => rfl, fun _ _ => rfl⟩

theorem Unmoved.current (hu : w₀.Unmoved w) : w.memory.current ns sc = w₀.memory.current ns sc := by
  rw [Namespaces.current, hu.slot, Namespaces.current]

theorem Unmoved.staged (hu : w₀.Unmoved w) : w.memory.staged ns sc = w₀.memory.staged ns sc := by
  rw [Namespaces.staged, hu.slot, Namespaces.staged]

theorem Unmoved.perform (hu : w₀.Unmoved w) (hG : SlotGuard h op) (hbefore : mirror h = .before)
    (hafter : (mirror h).next op (perform op w).1 = .before) : w₀.Unmoved (perform op w).2 := by
  have ht : ∀ ns sc, ¬ op.Touches ns sc := by
    intro ns sc ht
    cases op with
    | store op => exact next_ne_before_of_store_touches ht _ hafter
    | mem op => exact hG ns sc ht hbefore
  exact ⟨fun ns sc => (pointers_perform (ht ns sc)).1.trans (hu.pointers ns sc),
    fun ns sc => (pointers_perform (ht ns sc)).2.trans (hu.slot ns sc)⟩

theorem Unmoved.told {env : External} (hu : w₀.Unmoved w) (hw : w.Sound env) (op : Op) :
    w₀.Told op (World.perform op w).1 := by
  unfold Told
  split
  · exact hu.staged
  · exact hu.current
  · next ns hget =>
    intro sc
    rw [← hu.slot]
    refine Namespaces.slot_of_missing ?_
    simpa [World.perform, Namespaces.perform] using hget
  · intro sc hsc
    rw [← hu.slot] at hsc
    exact Namespaces.mem_schemaIDs.mpr hsc
  · next ns sc versions hlist =>
    intro cur hcur
    rw [← hu.pointers] at hcur
    cases hlist
    exact Store.lt_nextVersion (hw.pointer (.inl hcur))
  · trivial

theorem unmoved_cons {env : External} (hw : w.Sound env) (hG : CallGuard r c h op)
    (hi : mirror h = .before → w₀.Unmoved w ∧ ∀ e ∈ h, w₀.Told e.1 e.2)
    (hafter : mirror (⟨op, (perform op w).1⟩ :: h) = .before) :
    w₀.Unmoved (perform op w).2 ∧
      ∀ e ∈ (⟨op, (perform op w).1⟩ :: h : CallHistory), w₀.Told e.1 e.2 := by
  rw [mirror_cons rfl] at hafter
  have hbefore := Mirror.of_next_eq_before hafter
  obtain ⟨hu, htold⟩ := hi hbefore
  refine ⟨hu.perform (slotGuard_of_callGuard hG) hbefore hafter, fun e he => ?_⟩
  obtain rfl | he := List.mem_cons.mp he
  · exact hu.told hw op
  · exact htold e he

/-! ## Who staged a version -/

/-- What the call that staged version `v` of a schema has made sure of. A rollback has compared it with the
current snapshot, if it was in memory. -/
def StagedBy (w : World) (m : Mirror) (c : Call) (ns sc : String) (v : Nat) : Prop :=
  (c.Publishes ns sc ∧ ∀ cur, (w.store.pointers ns sc).currentVersion = some cur → cur < v) ∨
  ∃ force, c = .rollback ns sc v force ∧ (force = false → (w.row m ns sc).currentVersion ≠ none →
    (w.row m ns sc).stagedVersion ≠ none →
    ∀ cur, (w.store.pointers ns sc).currentVersion = some cur → w.store.Compatible ns sc cur v)

theorem Grows.compatible (hw : w₀.Grows w) (hc : w₀.store.Compatible ns sc cur v) :
    w.store.Compatible ns sc cur v := by
  obtain ⟨old, new, hold, hnew, hok⟩ := hc
  exact ⟨old, new, hw.versions hold, hw.versions hnew, hok⟩

theorem Grows.of_compatible {env : External} (hw : w₀.Grows w) (hsound : w₀.Sound env)
    (hpointers : w₀.store.pointers ns sc = ⟨some cur, some v⟩)
    (hc : w.store.Compatible ns sc cur v) : w₀.store.Compatible ns sc cur v := by
  obtain ⟨old, new, hold, hnew, hok⟩ := hc
  have hcur : (w₀.store.versions.get (ns, sc, cur)).isSome := hsound.pointer (.inl (by rw [hpointers]))
  have hv : (w₀.store.versions.get (ns, sc, v)).isSome := hsound.pointer (.inr (by rw [hpointers]))
  obtain ⟨old', hold'⟩ := Option.isSome_iff_exists.mp hcur
  obtain ⟨new', hnew'⟩ := Option.isSome_iff_exists.mp hv
  cases hold.symm.trans (hw.versions hold')
  cases hnew.symm.trans (hw.versions hnew')
  exact ⟨old, new, hold', hnew', hok⟩

theorem StagedBy.mono {m m' : Mirror} (hw : w₀.Grows w)
    (hcur : (w.store.pointers ns sc).currentVersion = (w₀.store.pointers ns sc).currentVersion)
    (hrow : w.row m' ns sc = w₀.row m ns sc) (hs : w₀.StagedBy m c ns sc v) : w.StagedBy m' c ns sc v := by
  unfold StagedBy
  rw [hcur, hrow]
  exact hs.imp_right fun ⟨force, heq, hcompat⟩ =>
    ⟨force, heq, fun hforce hc hv cur hcur => hw.compatible (hcompat hforce hc hv cur hcur)⟩

/-- The versions of the snapshots that memory has are those of the store. -/
theorem Agrees.versions {lost : Prop} (ha : w.Agrees lost .before ns sc) :
    (∀ snap, w.memory.current ns sc = some snap → (w.store.pointers ns sc).currentVersion = some snap.version) ∧
      ∀ snap, w.memory.staged ns sc = some snap → (w.store.pointers ns sc).stagedVersion = some snap.version := by
  obtain ⟨hcurrent, hstaged⟩ := (agrees_iff_of_pending rfl).mp ha
  exact ⟨fun snap hsnap => by simpa [Namespaces.pointers, hsnap] using hcurrent,
    fun snap hsnap => by simpa [Namespaces.pointers, hsnap] using hstaged⟩

theorem stagedBy_of_stages (hw : w.Sound r.env) (hk : w.Knows h) (hu : w₀.Unmoved w)
    (htold : ∀ e ∈ h, w₀.Told e.1 e.2) (ha : w.Agrees True .before ns sc)
    (hstages : Stages c h ns sc v) : w.StagedBy (.stage ns sc v) c ns sc v := by
  obtain ⟨hpub, ⟨versions, hmem, rfl⟩, -⟩ | ⟨force, row, snap, rfl, hrow, rfl, hperm, hchecked⟩ := hstages
  · refine .inl ⟨hpub, fun cur hcur => htold _ hmem cur ?_⟩
    rw [← hu.pointers]
    exact hcur
  · refine .inr ⟨force, rfl, fun hforce hkept _ cur hcur => ?_⟩
    obtain ⟨cursnap, hcurrent⟩ : ∃ snap, w.memory.current ns sc = some snap := by
      rw [← Option.ne_none_iff_exists']
      rintro hnone
      simp [World.row, Mirror.pending, Pending.write, Namespaces.pointers, hnone] at hkept
    cases hcur.symm.trans (ha.versions.1 _ hcurrent)
    have hholds := hw.slot (.inl hcurrent)
    rw [hu.current] at hcurrent
    have hok : Compat.Ok (some cursnap) snap := by
      obtain ⟨hread, hchecked⟩ := hchecked hforce
      obtain hmissing | ⟨current, hmem⟩ := hread
      · have hslot := htold _ hmissing sc
        rw [Namespaces.current, hslot] at hcurrent
        cases hcurrent
      · have hread : current = some cursnap := (htold _ hmem).trans hcurrent
        exact hread ▸ hchecked _ hmem
    exact hw.compatible hholds ⟨row, hk.facts _ hrow, hperm⟩ hok

/-- A promotion that a call makes after its checks, as long as both snapshots are in memory. -/
theorem compatible_or_forced (hw : w.Sound r.env) (hk : w.Knows h) (hu : w₀.Unmoved w)
    (htold : ∀ e ∈ h, w₀.Told e.1 e.2) (ha : w.Agrees True .before ns sc)
    (hnone : NoneLost w₀ (.promote ns)) (hchecked : Checked h ns)
    (hpointers : w.store.pointers ns sc = ⟨some cur, some v⟩) (hs : w.StagedBy .before c ns sc v) :
    w.store.Compatible ns sc cur v ∨ c = .rollback ns sc v true := by
  obtain ⟨hsome, hsome'⟩ := hnone sc cur v ((hu.pointers ns sc).symm.trans hpointers)
  rw [← hu.current] at hsome
  obtain ⟨cursnap, hcurrent⟩ := Option.isSome_iff_exists.mp hsome
  obtain ⟨snap, hsnap⟩ := Option.isSome_iff_exists.mp hsome'
  have hcur := ha.versions.1 _ hcurrent
  have hstaged := ha.versions.2 _ (hu.staged.trans hsnap)
  rw [hpointers] at hcur hstaged
  cases hcur
  cases hstaged
  have hcur : (w.store.pointers ns sc).currentVersion = some cursnap.version := by rw [hpointers]
  obtain ⟨-, hlt⟩ | ⟨force, rfl, hcompat⟩ := hs
  · left
    -- the slot is among those the call has looked at, and it has found these two snapshots there
    have hcompared : Compared h ns sc snap (some cursnap) := by
      obtain ⟨⟨ids, hids, hvisited⟩, -⟩ := hchecked
      have hslot : (w₀.memory.slot ns sc).isSome := by
        obtain ⟨slot, hslot, -⟩ := Option.bind_eq_some_iff.mp hsnap
        exact Option.isSome_iff_exists.mpr ⟨slot, hslot⟩
      obtain hmem | ⟨staged, current, hcompared⟩ := hvisited sc (htold _ hids sc hslot)
      · cases (htold _ hmem).trans hsnap
      · cases (htold _ hcompared.mem_staged).trans hsnap
        cases (htold _ hcompared.mem_current).trans (hu.current ▸ hcurrent)
        exact hcompared
    exact compatible_of_compared hw hk.facts hchecked hcompared (hlt _ hcur)
  · cases force with
    | true => exact .inr rfl
    | false =>
      refine .inl (hcompat rfl ?_ ?_ _ hcur)
      · simp [row, Mirror.pending, Pending.write, Namespaces.pointers, hcurrent]
      · simp [row, Mirror.pending, Pending.write, Namespaces.pointers, hu.staged, hsnap]

end World

/-! ## One call -/

/-- The call that last staged a version of a schema, while call `c` is under way. -/
def Mirror.stager (c : Call) (stagedBy : String → String → Option Call) (ns sc : String) :
    Mirror → Option Call
  | .stage ns' sc' _ | .staged ns' sc' _ => if ns' = ns ∧ sc' = sc then some c else stagedBy ns sc
  | _ => stagedBy ns sc

/-- The namespace whose promotion is under way. -/
def Mirror.promoting : Mirror → Option String
  | .promote ns | .promoteSlots ns _ | .promoteHalf ns _ _ _ => some ns
  | _ => none

/-- What holds of a session between calls. -/
structure Session.Inv (r : Registry) (s : Session) : Prop where
  sound : s.world.Sound r.env
  agrees : ∀ ns sc, s.world.Agrees True .before ns sc
  staged : ∀ {ns sc v}, (s.world.store.pointers ns sc).stagedVersion = some v →
    ∃ c, s.stagedBy ns sc = some c ∧ s.world.StagedBy .before c ns sc v

/-- Promoting the namespace replaces no current version by an incompatible one, unless a forced rollback
asked for it. -/
def Session.Gate (s : Session) (ns : String) : Prop :=
  ∀ {sc cur v}, s.world.store.pointers ns sc = ⟨some cur, some v⟩ →
    s.world.store.Compatible ns sc cur v ∨ s.stagedBy ns sc = some (.rollback ns sc v true)

/-- What holds of the world `w` after call `c` of session `s` has performed `h`. -/
structure Session.CallInv (r : Registry) (s : Session) (c : Call) (w : World) (h : CallHistory) :
    Prop where
  sound : w.Sound r.env
  knows : w.Knows h
  grows : s.world.Grows w
  agrees : ∀ ns sc, w.Agrees True (mirror h) ns sc
  staged : ∀ {ns sc v}, (w.store.pointers ns sc).stagedVersion = some v →
    ∃ c', (mirror h).stager c s.stagedBy ns sc = some c' ∧ w.StagedBy (mirror h) c' ns sc v
  unmoved : mirror h = .before → s.world.Unmoved w ∧ ∀ e ∈ h, s.world.Told e.1 e.2
  promoted : ∀ {ns}, (mirror h).promoting = some ns → s.Gate ns ∧
    ∀ sc, w.store.pointers ns sc = (s.world.store.pointers ns sc).promote

namespace Session

variable {r : Registry} {s : Session} {c : Call} {w : World} {h : CallHistory} {op : Op}

theorem Inv.callInv (hs : s.Inv r) (c : Call) : s.CallInv r c s.world [] where
  sound := hs.sound
  knows := s.world.knows_nil
  grows := .refl _
  agrees := hs.agrees
  staged := hs.staged
  unmoved _ := ⟨.refl _, by simp⟩
  promoted hns := by cases hns

theorem of_promoting_next {m : Mirror} {res : op.Res} (hm : (m.next op res).promoting = some ns) :
    m.promoting = some ns ∨ op = .store (.promote ns) := by
  unfold Mirror.next at hm
  split at hm
  case h_2 =>
    cases hm
    exact .inr rfl
  all_goals first | exact .inl hm | cases hm

theorem stager_next {stagedBy : String → String → Option Call} (hG : CallGuard r c h op)
    (hop : ∀ v, op ≠ .store (.setStaged ns sc v)) (res : op.Res) :
    ((mirror h).next op res).stager c stagedBy ns sc = (mirror h).stager c stagedBy ns sc := by
  unfold Mirror.next
  split
  · next m ns' sc' v u =>
    rw [hG.1]
    refine if_neg ?_
    rintro ⟨rfl, rfl⟩
    exact hop v rfl
  · rw [hG.1]
    rfl
  · rw [hG.1]
    rfl
  case h_12 => rfl
  all_goals
    next hm =>
      rw [hm]
      rfl

/-- An operation other than `setStaged` leaves the pointers of a schema alone, or clears the staged one. What is in
memory when the call has made its writes stays, too. -/
theorem pointers_of_staged {ns sc : String} (hk : w.Knows h) (hG : CallGuard r c h op)
    (ha : w.Agrees True (mirror h) ns sc) (hop : ∀ v, op ≠ .store (.setStaged ns sc v))
    (hv : ((World.perform op w).2.store.pointers ns sc).stagedVersion = some v) :
    (World.perform op w).2.store.pointers ns sc = w.store.pointers ns sc ∧
      (World.perform op w).2.row ((mirror h).next op (World.perform op w).1) ns sc = w.row (mirror h) ns sc := by
  by_cases ht : op.Touches ns sc
  · cases op with
    | mem op => exact ⟨rfl, (World.agrees_of_mem_touches hk hG ht ha).2⟩
    | store op =>
      cases op with
      | setStaged ns' sc' v' =>
        obtain ⟨rfl, rfl⟩ := ht
        exact (hop v' rfl).elim
      | promote ns' =>
        cases ht
        simp [World.perform, Store.perform, Store.pointers_promote] at hv
      | discardStaging ns' =>
        cases ht
        simp [World.perform, Store.perform, Store.pointers_discardStaging] at hv
      | _ => exact ht.elim
  · exact ⟨(World.pointers_perform ht).1, World.row_of_not_touches hG ht (World.executes_perform op w)⟩

section
variable (hi : s.CallInv r c w h) (hG : CallGuard r c h op)
include hi hG

theorem CallInv.agrees_step (hok : NoneLost s.world c) (ns sc : String) :
    (World.perform op w).2.Agrees True (mirror (⟨op, (World.perform op w).1⟩ :: h)) ns sc := by
  refine World.agrees_executes hi.sound hi.knows hG (World.executes_perform op w) (hi.agrees ns sc) ?_
  rintro rfl
  obtain ⟨hbefore, rfl, -⟩ := hG
  obtain ⟨hu, -⟩ := hi.unmoved hbefore
  have ha := hi.agrees ns sc
  rw [hbefore, World.agrees_iff_of_pending rfl] at ha
  refine ha.promote fun cur v hpointers => ?_
  obtain ⟨-, hsome⟩ := hok sc cur v ((hu.pointers ns sc).symm.trans hpointers)
  rw [← hu.staged] at hsome
  simpa [Namespaces.pointers, Option.isSome_iff_ne_none] using hsome

theorem CallInv.staged_step (hv : ((World.perform op w).2.store.pointers ns sc).stagedVersion = some v) :
    ∃ c', (mirror (⟨op, (World.perform op w).1⟩ :: h)).stager c s.stagedBy ns sc = some c' ∧
      (World.perform op w).2.StagedBy (mirror (⟨op, (World.perform op w).1⟩ :: h)) c' ns sc v := by
  rw [mirror_cons rfl]
  by_cases hop : ∀ v, op ≠ .store (.setStaged ns sc v)
  · obtain ⟨heq, hrow⟩ := pointers_of_staged hi.knows hG (hi.agrees ns sc) hop hv
    rw [heq] at hv
    obtain ⟨c', hc', hstaged⟩ := hi.staged hv
    exact ⟨c', (stager_next hG hop _).trans hc', hstaged.mono (World.grows_perform op w) (by rw [heq]) hrow⟩
  · push Not at hop
    obtain ⟨v', rfl⟩ := hop
    obtain ⟨hbefore, hstages⟩ := hG
    obtain ⟨row, hrow⟩ := Option.isSome_iff_exists.mp (hi.knows.stages hstages)
    have heq : (World.perform (.store (.setStaged ns sc v')) w).2.store.pointers ns sc =
        ⟨(w.store.pointers ns sc).currentVersion, some v'⟩ :=
      Store.pointers_setStaged (hi.sound.schema hrow) (hi.sound.version hrow).1
    rw [heq] at hv
    cases hv
    obtain ⟨hu, htold⟩ := hi.unmoved hbefore
    have hstaged := World.stagedBy_of_stages hi.sound hi.knows hu htold (hbefore ▸ hi.agrees ns sc)
      hstages
    rw [hbefore]
    exact ⟨c, if_pos ⟨rfl, rfl⟩, hstaged.mono (World.grows_perform _ w) (by rw [heq]) rfl⟩

theorem CallInv.promoted_step (hs : s.Inv r) (hok : NoneLost s.world c)
    (hns : (mirror (⟨op, (World.perform op w).1⟩ :: h)).promoting = some ns) : s.Gate ns ∧
      ∀ sc, (World.perform op w).2.store.pointers ns sc = (s.world.store.pointers ns sc).promote := by
  rw [mirror_cons rfl] at hns
  obtain hold | rfl := of_promoting_next hns
  · obtain ⟨hgate, hpointers⟩ := hi.promoted hold
    refine ⟨hgate, fun sc => ?_⟩
    rw [← hpointers sc]
    cases op with
    | mem op => rfl
    | store op =>
      refine Store.pointers_perform fun ht => ?_
      rw [before_of_store_touches hG ht] at hold
      cases hold
  · obtain ⟨hbefore, rfl, -, hchecked⟩ := hG
    obtain ⟨hu, htold⟩ := hi.unmoved hbefore
    refine ⟨fun {sc cur v} hpointers => ?_, fun sc => ?_⟩
    · have hpointers' := (hu.pointers ns sc).trans hpointers
      have hv : (w.store.pointers ns sc).stagedVersion = some v := by rw [hpointers']
      obtain ⟨c', hc', hstaged⟩ := hi.staged hv
      rw [hbefore] at hc' hstaged
      refine (World.compatible_or_forced hi.sound hi.knows hu htold (hbefore ▸ hi.agrees ns sc) hok
        hchecked hpointers' hstaged).imp (hi.grows.of_compatible hs.sound hpointers) ?_
      rintro rfl
      exact hc'
    · rw [← hu.pointers]
      exact Store.pointers_promote

end

theorem CallInv.step (hs : s.Inv r) (hok : NoneLost s.world c) (hi : s.CallInv r c w h)
    (hG : CallGuard r c h op) :
    s.CallInv r c (World.perform op w).2 (⟨op, (World.perform op w).1⟩ :: h) where
  sound := World.sound_perform hi.sound hi.knows hG
  knows := World.knows_perform hi.sound hi.knows hG
  grows := hi.grows.trans (World.grows_perform op w)
  agrees := hi.agrees_step hG hok
  staged := hi.staged_step hG
  unmoved := World.unmoved_cons hi.sound hG hi.unmoved
  promoted := hi.promoted_step hG hs hok

theorem stager_outcome (c : Call) (res : Except Err Reply)
    (stagedBy : String → String → Option Call) (ns sc : String) :
    (orBefore c.outcome res).stager c stagedBy ns sc =
      if c.stagedSchema res = some (ns, sc) then some c else stagedBy ns sc := by
  have hpublished : ∀ (ns' sc' : String) (res : PublishResult),
      (res.outcome ns' sc').stager c stagedBy ns sc =
        if (if res.noChange then none else some (ns', sc')) = some (ns, sc) then some c
        else stagedBy ns sc := by
    intro ns' sc' res
    unfold PublishResult.outcome
    cases res.noChange <;> simp [Mirror.stager]
  cases res with
  | error e => cases c <;> rfl
  | ok reply =>
    cases c with
    | publish req =>
      cases reply with
      | published res => exact hpublished _ _ res
      | _ => rfl
    | rebase ns' sc' =>
      cases reply with
      | published res => exact hpublished _ _ res
      | _ => rfl
    | rollback ns' sc' v force => simp [orBefore, Call.outcome, Call.stagedSchema, Mirror.stager]
    | _ => rfl

theorem Inv.exec (hlaw : r.env.Lawful) (hs : s.Inv r) (hok : NoneLost s.world c) :
    ∃ h, mirror h = orBefore c.outcome (r.exec c s.world).1 ∧
      s.CallInv r c (r.exec c s.world).2 h := by
  have hexec := Prog.Guarded.exec World.perform (J := s.CallInv r c)
    (fun _ _ _ hi hG => hi.step hs hok hG) (run_spec c fun _ => hlaw) (hs.callInv c)
  exact hexec

theorem Inv.call (hlaw : r.env.Lawful) (hs : s.Inv r) (hok : NoneLost s.world c) :
    (s.call r c).Inv r := by
  obtain ⟨h, hm, hi⟩ := hs.exec hlaw hok
  refine ⟨hi.sound, fun ns sc => ?_, fun {ns sc v} hv => ?_⟩
  · have hp : (mirror h).pending ns sc = none := by rw [hm, pending_outcome]
    exact (World.agrees_iff_of_pending rfl).mpr ((World.agrees_iff_of_pending hp).mp (hi.agrees ns sc))
  · obtain ⟨c', hc', hstaged⟩ := hi.staged hv
    rw [hm, stager_outcome] at hc'
    refine ⟨c', hc', hstaged.mono (.refl _) rfl ?_⟩
    rw [hm, World.row, World.row, pending_outcome]
    rfl

theorem Inv.restart (hs : s.Inv r) (hw : s.world.Restored r w) : ({ s with world := w } : Session).Inv r := by
  refine ⟨hw.sound, fun ns sc => ?_, fun {ns sc v} hv => ?_⟩
  · rw [World.agrees_iff_of_pending rfl, hw.pointers, hw.memory]
    exact ⟨.inl rfl, .inr ⟨trivial, rfl⟩⟩
  · change (w.store.pointers ns sc).stagedVersion = some v at hv
    rw [hw.pointers] at hv
    obtain ⟨c, hc, hstaged⟩ := hs.staged hv
    refine ⟨c, hc, ?_⟩
    have hlost : (w.memory.pointers ns sc).stagedVersion = none := by rw [hw.memory]
    unfold World.StagedBy at hstaged ⊢
    change _ ∧ (∀ cur, (w.store.pointers ns sc).currentVersion = _ → _) ∨ _
    rw [hw.pointers]
    refine hstaged.imp_right fun ⟨force, heq, _⟩ => ⟨force, heq, fun _ _ hne => absurd hlost hne⟩

theorem inv_of_reached (hlaw : r.env.Lawful) (h : Reached r NoneLost s) : s.Inv r := by
  induction h with
  | start =>
    refine ⟨World.sound_empty _, fun ns sc => (World.agrees_iff_of_pending rfl).mpr (.refl _), fun {ns sc v} hv => ?_⟩
    cases hv
  | call c _ hok ih => exact ih.call hlaw hok
  | restart _ hok ih => exact ih.restart (Registry.restored hlaw ih.sound hok)

end Session

/-- **The compatibility gate over sequential runs.** In every run of calls and restarts in which no
current version is replaced while memory lacks one of the two, a promotion that moves a schema from `cur`
to `v` is compatible, unless `v` was staged by a forced rollback. -/
theorem Session.promotion_checked {r : Registry} (hlaw : r.env.Lawful) {s : Session}
    (h : Reached r NoneLost s) (hok : NoneLost s.world (.promote ns))
    (hbefore : (s.world.store.pointers ns sc).currentVersion = some cur)
    (hafter : ((s.call r (.promote ns)).world.store.pointers ns sc).currentVersion = some v)
    (hne : cur ≠ v) :
    s.world.store.Compatible ns sc cur v ∨ s.stagedBy ns sc = some (.rollback ns sc v true) := by
  have hs := inv_of_reached hlaw h
  obtain ⟨history, hm, hi⟩ := hs.exec hlaw hok
  change ((r.exec (.promote ns) s.world).2.store.pointers ns sc).currentVersion = some v at hafter
  cases hres : (r.exec (.promote ns) s.world).1 with
  | error e =>
    rw [hres] at hm
    rw [(hi.unmoved hm).1.pointers, hbefore] at hafter
    exact absurd (Option.some.inj hafter) hne
  | ok reply =>
    rw [hres] at hm
    have hpromoting : (mirror history).promoting = some ns := by
      rw [hm]
      cases reply <;> rfl
    obtain ⟨hgate, hpointers⟩ := hi.promoted hpromoting
    rw [hpointers, SchemaRow.currentVersion_promote, SchemaRow.proposed_eq_some] at hafter
    obtain hstaged | ⟨-, hcur⟩ := hafter
    · exact hgate (SchemaRow.ext hbefore hstaged)
    · exact absurd (Option.some.inj (hbefore.symm.trans hcur)) hne

theorem noneLost_of_keys {w : World} (hkeys : w.store.schemas.keys = [(ns, sc)])
    (hkept : (w.store.pointers ns sc).currentVersion = none ∨
      (w.memory.current ns sc).isSome ∧ (w.memory.staged ns sc).isSome) : NoneLost w (.promote ns) := by
  intro sc' cur v hpointers
  by_cases hsc : sc' = sc
  · subst hsc
    exact hkept.resolve_left (by rw [hpointers]; nofun)
  · rw [Store.pointers, Dict.get_eq_none (by simp [hkeys, hsc])] at hpointers
    cases hpointers

/-- A first version is promoted after a restart that has lost its snapshot. A second restart brings it back, and the
next version is compared with it. -/
theorem promotion_checked_restart : ∃ s, Session.Reached Sample.registry NoneLost s ∧
    (s.world.store.pointers "n" "s").currentVersion = some 1 ∧
    ((s.call Sample.registry (.promote "n")).world.store.pointers "n" "s").currentVersion = some 2 ∧
    (s.world.store.Compatible "n" "s" 1 2 ∨
      s.stagedBy "n" "s" = some (.rollback "n" "s" 2 true)) := by
  have hstaged : Session.Reached Sample.registry NoneLost (Session.start.call Sample.registry (Sample.publish [1])) :=
    .call _ .start trivial
  have hpromoted := (hstaged.restart rfl).call (.promote "n") (noneLost_of_keys rfl (.inl rfl))
  have hnext := (hpromoted.restart rfl).call (Sample.publish [1, 2]) trivial
  exact ⟨_, hnext, rfl, rfl,
    Session.promotion_checked Sample.lawful_env hnext (noneLost_of_keys rfl (.inr ⟨rfl, rfl⟩)) rfl rfl (by decide)⟩

/-- Version 2 drops a message of version 1 and is staged when the process restarts. The restored registry
has no snapshot of it, and promotes it without a check. -/
theorem promoted_after_restart : ∃ s, Session.Reached Sample.registry (fun _ _ => True) s ∧
    s.stagedBy "n" "s" = some (Sample.publish [2]) ∧
    s.world.store.pointers "n" "s" = ⟨some 1, some 2⟩ ∧
    (s.call Sample.registry (.promote "n")).world.store.pointers "n" "s" = ⟨some 2, none⟩ ∧
    ¬ s.world.store.Compatible "n" "s" 1 2 := by
  have hreached : Session.Reached Sample.registry (fun _ _ => True)
      (((Session.start.call Sample.registry (Sample.publish [1])).call Sample.registry (.promote "n")).call
        Sample.registry (Sample.publish [2])) :=
    .call _ (.call _ (.call _ .start trivial) trivial) trivial
  refine ⟨_, hreached.restart rfl, rfl, rfl, rfl, ?_⟩
  rintro ⟨old, new, hold, hnew, hok⟩
  cases hold
  cases hnew
  revert hok
  decide

end ProtoRegistry
