import ProtoRegistry.Verify.Pointers
import ProtoRegistry.Model.Sample

/-!
# Memory mirrors the store

A call writes the pointers of the store first and the slots in memory afterwards. What it still has to
write to a slot is its `Pending` write, and the two sides agree up to pending writes (`World.Agrees`). A step
of a call keeps this agreement, whatever the operation (`agrees_executes`), as long as no other call has
a pending write to a slot whose pointers the operation writes. A `Range` that has begun has a write
pending to every slot it still comes to, also to one that another call makes meanwhile.
-/

namespace ProtoRegistry

/-! ## Pending writes -/

/-- What a call still has to write to the slot of a schema whose pointers it has written. -/
inductive Pending where
  | stage (version : Nat)
  | promote
  /-- The staged snapshot has been taken out of its slot and becomes current next. -/
  | finish (version : Nat)
  | discard

/-- What is pending for a schema in a call that stands at the given point. -/
def Mirror.pending (ns sc : String) : Mirror → Option Pending
  | .stage ns' sc' v => if ns' = ns ∧ sc' = sc then some (.stage v) else none
  | .promote ns' => if ns' = ns then some .promote else none
  | .promoteSlots ns' rest => if ns' = ns ∧ sc ∈ rest then some .promote else none
  | .promoteHalf ns' sc' snap rest =>
    if ns' = ns ∧ sc' = sc then some (.finish snap.version)
    else if ns' = ns ∧ sc ∈ rest then some .promote
    else none
  | .discard ns' => if ns' = ns then some .discard else none
  | .discardSlots ns' rest => if ns' = ns ∧ sc ∈ rest then some .discard else none
  | .before | .staged .. => none

/-- A slot after the pending write. -/
def Pending.write : Option Pending → SchemaRow → SchemaRow
  | none, slot => slot
  | some (.stage v), slot => ⟨slot.currentVersion, some v⟩
  | some .promote, slot => slot.promote
  | some (.finish v), _ => ⟨some v, none⟩
  | some .discard, slot => ⟨slot.currentVersion, none⟩

theorem Pending.write_cleared (q : Prop) [Decidable q] (c : Option Nat) :
    write (if q then some .promote else none) ⟨c, none⟩ = ⟨c, none⟩ ∧
      write (if q then some .discard else none) ⟨c, none⟩ = ⟨c, none⟩ := by
  split <;> exact ⟨rfl, rfl⟩

/-- The versions in the slot of a schema after what a call has pending for it. -/
def World.row (w : World) (m : Mirror) (ns sc : String) : SchemaRow :=
  Pending.write (m.pending ns sc) (w.memory.pointers ns sc)

/-- The pointers of a schema are the versions in its slot. `lost` allows a snapshot to be missing, as the staged
one is after a restart. -/
structure Covers (lost : Prop) (pointers slot : SchemaRow) : Prop where
  current : pointers.currentVersion = slot.currentVersion ∨ lost ∧ slot.currentVersion = none
  staged : pointers.stagedVersion = slot.stagedVersion ∨ lost ∧ slot.stagedVersion = none

theorem Covers.refl {lost : Prop} (row : SchemaRow) : Covers lost row row := ⟨.inl rfl, .inl rfl⟩

theorem Covers.eq {pointers slot : SchemaRow} (h : Covers False pointers slot) : pointers = slot :=
  SchemaRow.ext (h.current.resolve_right And.left) (h.staged.resolve_right And.left)

/-- A promotion keeps the two together, unless a staged snapshot that replaces a current one is missing. -/
theorem Covers.promote {lost : Prop} {pointers slot : SchemaRow} (h : Covers lost pointers slot)
    (hkept : ∀ cur v, pointers = ⟨some cur, some v⟩ → slot.stagedVersion ≠ none) :
    Covers lost pointers.promote slot.promote := by
  obtain ⟨cur, _ | v⟩ := pointers <;> obtain ⟨cur', _ | v'⟩ := slot
  · exact h
  · obtain h | ⟨-, h⟩ := h.staged <;> cases h
  · cases cur with
    | some cur => exact absurd rfl (hkept cur v rfl)
    | none =>
      have hnone : cur' = none := h.current.elim Eq.symm And.right
      obtain heq | ⟨hlost, -⟩ := h.staged
      · cases heq
      · exact ⟨.inr ⟨hlost, hnone⟩, .inl rfl⟩
  · obtain h | ⟨-, h⟩ := h.staged <;> cases h
    exact .refl _

/-- The pointers of a schema agree with its slot in the given world, up to the write that is pending. -/
structure World.Agrees (w : World) (lost : Prop) (m : Mirror) (ns sc : String) : Prop where
  covers : Covers lost (w.store.pointers ns sc) (w.row m ns sc)
  half : ∀ {v}, m.pending ns sc = some (.finish v) → (w.memory.pointers ns sc).stagedVersion = none

theorem World.agrees_iff_of_pending {w : World} {lost : Prop} {m : Mirror} {ns sc : String}
    (h : m.pending ns sc = none) :
    w.Agrees lost m ns sc ↔ Covers lost (w.store.pointers ns sc) (w.memory.pointers ns sc) := by
  have hrow : w.row m ns sc = w.memory.pointers ns sc := by
    rw [row, h]
    rfl
  refine ⟨fun ha => hrow ▸ ha.covers, fun hc => ⟨by rwa [hrow], fun hfinish => ?_⟩⟩
  cases h.symm.trans hfinish

/-! ## One step -/

/-- The operations after which a call stands where it stood. -/
def Op.Idle : Op → Prop
  | .store (.setStaged ..) | .store (.promote _) | .store (.discardStaging _) | .mem (.setStaged ..)
  | .mem (.schemaIDs _) | .mem (.get _) | .mem (.swapStaged ..) | .mem (.storeCurrent ..)
  | .mem (.clearStaged ..) => False
  | _ => True

theorem Mirror.next_of_idle {op : Op} (hop : op.Idle) (m : Mirror) (res : op.Res) :
    m.next op res = m := by
  unfold Mirror.next
  split <;> first | rfl | contradiction

section
variable {r : Registry} {c : Call} {w w' : World} {h : CallHistory} {op : Op} {res : op.Res} {ns sc : String}

theorem and_mem_cons_of_ne {ns' sc' : String} {rest : List String} (ht : ¬ (ns' = ns ∧ sc' = sc)) :
    (ns' = ns ∧ sc ∈ sc' :: rest) = (ns' = ns ∧ sc ∈ rest) := by
  refine propext (and_congr_right fun hns => ⟨fun hmem => ?_, List.mem_cons_of_mem _⟩)
  exact (List.mem_cons.mp hmem).resolve_left fun hsc => ht ⟨hns, hsc.symm⟩

/-- Once the `Range` over the slots has begun, a schema that it does not come to drops out. It has no slot
then. -/
theorem Namespaces.Visits.pending {m : Namespaces} {ns' : String} {visited : List String}
    (hvisits : m.Visits ns' visited) (p : Pending) :
    (if ns' = ns ∧ sc ∈ visited then some p else none) = (if ns' = ns then some p else none) ∨
      m.slot ns sc = none ∧ (if ns' = ns ∧ sc ∈ visited then some p else none) = none ∧
        (if ns' = ns then some p else none) = some p := by
  by_cases hns : ns' = ns
  · subst hns
    by_cases hmem : sc ∈ visited
    · simp [hmem]
    · have hslot := mt (hvisits.2 sc) hmem
      exact .inr ⟨by simpa [Namespaces.mem_schemaIDs] using hslot, by simp [hmem], by simp⟩
  · simp [hns]

/-- What is pending for a schema only changes with an operation that touches it, or when the call begins
a `Range` that does not come to the schema, which has no slot. -/
theorem World.pending_next_of_not_touches (hG : CallGuard r c h op) (ht : ¬ op.Touches ns sc)
    (hstep : Executes op w res w') :
    ((mirror h).next op res).pending ns sc = (mirror h).pending ns sc ∨
      w.memory.slot ns sc = none ∧ ((mirror h).next op res).pending ns sc = none ∧
        ((mirror h).pending ns sc = some .promote ∨ (mirror h).pending ns sc = some .discard) := by
  by_cases hidle : op.Idle
  · rw [Mirror.next_of_idle hidle]
    exact .inl rfl
  unfold Op.Idle at hidle
  split at hidle
  · next ns' sc' v =>
    cases hstep
    rw [hG.1]
    exact .inl (if_neg ht)
  · next ns' =>
    cases hstep
    rw [hG.1]
    exact .inl (if_neg ht)
  · next ns' =>
    cases hstep
    rw [hG.1]
    exact .inl (if_neg ht)
  · next ns' sc' snap =>
    rw [hG.1]
    exact .inl (if_neg ht).symm
  · next ns' =>
    cases hm : mirror h with
    | promote ns'' =>
      cases hG ns'' (.inl hm)
      exact (hstep.1.pending .promote).imp_right fun hp => ⟨hp.1, hp.2.1, .inl hp.2.2⟩
    | discard ns'' =>
      cases hG ns'' (.inr hm)
      exact (hstep.1.pending .discard).imp_right fun hp => ⟨hp.1, hp.2.1, .inr hp.2.2⟩
    | _ => exact .inl rfl
  · next ns' =>
    cases hstep
    cases hm : mirror h with
    | discard ns'' =>
      cases hG ns'' hm
      cases hfound : w.memory.namespaces.get ns' with
      | some n =>
        left
        simp [Namespaces.perform, hfound, Mirror.next]
      | none =>
        by_cases hns : ns' = ns
        · subst hns
          refine .inr ⟨Namespaces.slot_of_missing hfound, ?_, .inr (if_pos rfl)⟩
          simp [Namespaces.perform, hfound, Mirror.next, Mirror.pending]
        · left
          simp [Namespaces.perform, hfound, Mirror.next, Mirror.pending, hns]
    | _ => exact .inl rfl
  · next ns' sc' =>
    obtain ⟨rest, hm⟩ := hG
    rw [hm]
    left
    cases res with
    | none => simp only [Mirror.next, Mirror.pending, and_mem_cons_of_ne ht]
    | some snap =>
      simp only [Mirror.next, Mirror.pending, and_mem_cons_of_ne ht]
      exact if_neg ht
  · next ns' sc' snap =>
    obtain ⟨rest, hm⟩ := hG
    rw [hm]
    exact .inl (if_neg ht).symm
  · next ns' sc' =>
    obtain ⟨rest, hm⟩ := hG
    rw [hm]
    left
    simp only [Mirror.next, Mirror.pending, and_mem_cons_of_ne ht]
  · exact (hidle trivial).elim

/-- A write to the slot is the one that was pending. -/
theorem World.agrees_of_mem_touches {lost : Prop} {op : MemOp} (hk : w.Knows h) (hG : CallGuard r c h (.mem op))
    (ht : Op.Touches ns sc (.mem op)) (ha : w.Agrees lost (mirror h) ns sc) :
    (perform (.mem op) w).2.Agrees lost ((mirror h).next (.mem op) (perform (.mem op) w).1) ns sc ∧
      (perform (.mem op) w).2.row ((mirror h).next (.mem op) (perform (.mem op) w).1) ns sc =
        w.row (mirror h) ns sc := by
  have hrest : ∀ {w' : World} {m : Mirror}, w'.store = w.store → w'.row m ns sc = w.row (mirror h) ns sc →
      (∀ {v}, m.pending ns sc = some (.finish v) → (w'.memory.pointers ns sc).stagedVersion = none) →
      w'.Agrees lost m ns sc ∧ w'.row m ns sc = w.row (mirror h) ns sc := by
    intro w' m hstore hrow hhalf
    exact ⟨⟨by rw [hstore, hrow]; exact ha.covers, hhalf⟩, hrow⟩
  cases op with
  | setCurrent => exact hG.elim
  | setStaged ns' sc' snap =>
    obtain ⟨rfl, rfl⟩ := ht
    obtain ⟨hm, hns, -⟩ := hG
    refine hrest rfl ?_ fun hv => ?_
    · simp only [row, hm, perform, Namespaces.perform, Mirror.next, Mirror.pending, and_self, if_true, Pending.write,
        Namespaces.pointers_setStaged (hk.facts _ hns)]
    · simp [hm, Mirror.next, Mirror.pending] at hv
  | swapStaged ns' sc' =>
    obtain ⟨rfl, rfl⟩ := ht
    obtain ⟨rest, hm⟩ := hG
    refine hrest rfl ?_ fun _ => by simp [perform, Namespaces.perform, Namespaces.pointers_clearStaged]
    cases hstaged : w.memory.staged ns' sc' with
    | none =>
      simp only [row, hm, perform, Namespaces.perform, hstaged, Mirror.next, Mirror.pending, List.mem_cons, true_or,
        and_self, if_true, Namespaces.pointers_clearStaged, (Pending.write_cleared _ _).1]
      simp [Namespaces.pointers, hstaged, Pending.write, SchemaRow.promote]
    | some snap =>
      simp only [row, hm, perform, Namespaces.perform, hstaged, Mirror.next, Mirror.pending, List.mem_cons, true_or,
        and_self, if_true, Namespaces.pointers_clearStaged]
      simp [Namespaces.pointers, hstaged, Pending.write, SchemaRow.promote]
  | storeCurrent ns' sc' snap =>
    obtain ⟨rfl, rfl⟩ := ht
    obtain ⟨rest, hm⟩ := hG
    have hhalf := ha.half (v := snap.version) (by simp [hm, Mirror.pending])
    refine hrest rfl ?_ fun hv => ?_
    · simp only [row, hm, perform, Namespaces.perform, Mirror.next, Mirror.pending, and_self, if_true, hhalf,
        Namespaces.pointers_setCurrent (hk.half hm).1, (Pending.write_cleared _ _).1]
      rfl
    · simp only [hm, Mirror.next, Mirror.pending] at hv
      split at hv <;> cases hv
  | clearStaged ns' sc' =>
    obtain ⟨rfl, rfl⟩ := ht
    obtain ⟨rest, hm⟩ := hG
    refine hrest rfl ?_ fun _ => by simp [perform, Namespaces.perform, Namespaces.pointers_clearStaged]
    simp only [row, hm, perform, Namespaces.perform, Mirror.next, Mirror.pending, List.mem_cons, true_or, and_self,
      if_true, Namespaces.pointers_clearStaged, (Pending.write_cleared _ _).2]
    rfl
  | _ => exact ht.elim

/-- A write to the pointers leaves the same write to the slot pending. -/
theorem World.agrees_of_store_touches {lost : Prop} {op : StoreOp} (hw : w.Sound r.env) (hk : w.Knows h)
    (hG : CallGuard r c h (.store op)) (ht : Op.Touches ns sc (.store op)) (ha : w.Agrees lost (mirror h) ns sc)
    (hpromote : op = .promote ns → Covers lost (w.store.pointers ns sc).promote (w.memory.pointers ns sc).promote) :
    (perform (.store op) w).2.Agrees lost ((mirror h).next (.store op) (perform (.store op) w).1) ns sc := by
  cases op with
  | setStaged ns' sc' v =>
    obtain ⟨rfl, rfl⟩ := ht
    obtain ⟨row, hrow⟩ := Option.isSome_iff_exists.mp (hk.stages hG.2)
    rw [hG.1] at ha ⊢
    refine ⟨?_, fun hv => ?_⟩
    · simp only [World.row, perform, Store.perform, Mirror.next, Mirror.pending, and_self, if_true, Pending.write,
        Store.pointers_setStaged (hw.schema hrow) (hw.version hrow).1]
      exact ⟨ha.covers.current, .inl rfl⟩
    · simp [perform, Store.perform, Mirror.next, Mirror.pending] at hv
  | promote ns' =>
    cases ht
    rw [hG.1] at ha ⊢
    refine ⟨?_, fun hv => ?_⟩
    · simp only [World.row, perform, Store.perform, Mirror.next, Mirror.pending, if_true, Store.pointers_promote]
      exact hpromote rfl
    · simp [perform, Store.perform, Mirror.next, Mirror.pending] at hv
  | discardStaging ns' =>
    cases ht
    rw [hG.1] at ha ⊢
    refine ⟨?_, fun hv => ?_⟩
    · simp only [World.row, perform, Store.perform, Mirror.next, Mirror.pending, if_true, Pending.write,
        Store.pointers_discardStaging]
      exact ⟨ha.covers.current, .inl rfl⟩
    · simp [perform, Store.perform, Mirror.next, Mirror.pending] at hv
  | _ => exact ht.elim

theorem World.memory_of_not_touches (ht : ¬ op.Touches ns sc) (hstep : Executes op w res w') :
    w'.store.pointers ns sc = w.store.pointers ns sc ∧ w'.memory.pointers ns sc = w.memory.pointers ns sc := by
  obtain ⟨hpointers, hslot⟩ := pointers_perform (w := w) ht
  rw [← hstep.state] at hpointers hslot
  refine ⟨hpointers, ?_⟩
  simp only [Namespaces.pointers, Namespaces.current, Namespaces.staged, hslot]

theorem World.row_of_not_touches (hG : CallGuard r c h op) (ht : ¬ op.Touches ns sc) (hstep : Executes op w res w') :
    w'.row ((mirror h).next op res) ns sc = w.row (mirror h) ns sc := by
  rw [row, row, (memory_of_not_touches ht hstep).2]
  obtain hp | ⟨hnone, hp, hp'⟩ := pending_next_of_not_touches hG ht hstep
  · rw [hp]
  · rw [Namespaces.pointers_of_missing hnone, hp]
    obtain hp' | hp' := hp' <;> (rw [hp']; rfl)

/-- **One step of a call keeps the agreement.** A promotion needs the staged snapshots that count to be there. -/
theorem World.agrees_executes {lost : Prop} (hw : w.Sound r.env) (hk : w.Knows h)
    (hG : CallGuard r c h op) (hstep : Executes op w res w') (ha : w.Agrees lost (mirror h) ns sc)
    (hpromote : op = .store (.promote ns) →
      Covers lost (w.store.pointers ns sc).promote (w.memory.pointers ns sc).promote) :
    w'.Agrees lost (mirror (⟨op, res⟩ :: h)) ns sc := by
  rw [mirror_cons rfl]
  by_cases ht : op.Touches ns sc
  · obtain heq | ⟨-, _, _, -, heq⟩ := hstep.cases
    · obtain ⟨rfl, rfl⟩ := Prod.mk.inj heq
      cases op with
      | store op => exact agrees_of_store_touches hw hk hG ht ha fun hop => hpromote (by rw [hop])
      | mem op => exact (agrees_of_mem_touches hk hG ht ha).1
    · cases heq
      exact ht.elim
  · obtain ⟨hpointers, hmemory⟩ := memory_of_not_touches ht hstep
    refine ⟨?_, fun hv => ?_⟩
    · rw [hpointers, row_of_not_touches hG ht hstep]
      exact ha.covers
    · rw [hmemory]
      obtain hp | ⟨-, hp, -⟩ := pending_next_of_not_touches hG ht hstep
      · exact ha.half (hp.symm.trans hv)
      · cases hp.symm.trans hv

theorem pending_of_mem_touches {op : MemOp} (hG : CallGuard r c h (.mem op))
    (ht : Op.Touches ns sc (.mem op)) : (mirror h).pending ns sc ≠ none := by
  cases op with
  | setCurrent => exact hG.elim
  | setStaged => simp [hG.1, Mirror.pending, ht.1, ht.2]
  | swapStaged | storeCurrent | clearStaged =>
    obtain ⟨rest, hm⟩ := hG
    simp [hm, Mirror.pending, ht.1, ht.2]
  | _ => exact ht.elim

theorem before_of_store_touches {op : StoreOp} (hG : CallGuard r c h (.store op))
    (ht : Op.Touches ns sc (.store op)) : mirror h = .before := by
  cases op with
  | setStaged | promote | discardStaging => exact hG.1
  | _ => exact ht.elim

theorem pending_of_store_touches {op : StoreOp} {res : Except Err op.Val} (hG : CallGuard r c h (.store op))
    (ht : Op.Touches ns sc (.store op)) (hstep : World.Executes (.store op) w res w') :
    ((mirror h).next (.store op) res).pending ns sc ≠ none := by
  obtain ⟨rfl, -⟩ := Prod.mk.inj hstep
  cases op with
  | setStaged => simp [hG.1, Store.perform, Mirror.next, Mirror.pending, ht.1, ht.2]
  | promote | discardStaging =>
    cases ht
    simp [hG.1, Store.perform, Mirror.next, Mirror.pending]
  | _ => exact ht.elim

end

/-! ## Interleavings -/

/-- The calls of one registry, executed concurrently on a world. -/
def Registry.pool (r : Registry) (calls : List Call) (w : World) :
    Pool registryInterface (Except Err Reply) World :=
  ⟨w, calls.map fun c => (r.run c).run, []⟩

abbrev mirrorOf (tr : List (Event registryInterface)) (i : Nat) : Mirror := mirror (ownHistory tr i)

/-- When the operation writes pointers of the store, no other call has a write pending to a slot they
belong to: no `Publish`, `Rebase` or `Rollback` of the schema, and no `Promote` or `DiscardStaging` of
its namespace whose `Range` has not begun or still comes to its slot. -/
def NoOtherPending (_ : World) (tr : List (Event registryInterface)) (i : Nat) : Op → Prop
  | .store op => ∀ ns sc, Op.Touches ns sc (.store op) → ∀ j, j ≠ i →
      (mirrorOf tr j).pending ns sc = none
  | .mem _ => True

section
variable {r : Registry} {calls : List Call} {w w' : World} {tr : List (Event registryInterface)}
  {i : Nat} {op : Op} {res : op.Res} {ns sc : String}

def Registry.poolGuard (r : Registry) (calls : List Call) (i : Nat) (h : CallHistory) (op : Op) : Prop :=
  ∃ c, calls[i]? = some c ∧ CallGuard r c h op

theorem Registry.guarded_pool (calls : List Call) (w : World)
    (hlaw : ∀ c ∈ calls, c.IsRollback → r.env.Lawful) :
    (r.pool calls w).Guarded (r.poolGuard calls) fun i res h => ∃ c, calls[i]? = some c ∧
      mirror h = orBefore c.outcome res := by
  intro i t ht
  obtain ⟨c, hc, rfl⟩ : ∃ c, calls[i]? = some c ∧ (r.run c).run = t := by
    simpa [pool, List.getElem?_map, Option.map_eq_some_iff] using ht
  refine Prog.Contract.weaken (fun h op hG => ⟨c, hc, hG⟩) ?_
  exact (run_spec c (hlaw c (List.mem_of_getElem? hc))).mono fun res h hres => ⟨c, hc, hres⟩

/-- What holds under every interleaving. -/
structure World.Consistent (r : Registry) (w : World) (tr : List (Event registryInterface)) : Prop where
  sound : w.Sound r.env
  knows : ∀ i, w.Knows (ownHistory tr i)

theorem World.Consistent.step (hw : w.Consistent r tr) (hG : r.poolGuard calls i (ownHistory tr i) op)
    (hstep : Executes op w res w') : w'.Consistent r (⟨i, op, res⟩ :: tr) := by
  obtain ⟨c, -, hG⟩ := hG
  refine ⟨hstep.state ▸ sound_perform hw.sound (hw.knows i) hG, fun j => ?_⟩
  by_cases hij : i = j
  · subst hij
    rw [ownHistory_cons_self]
    exact knows_executes hw.sound (hw.knows i) hG hstep
  · rw [ownHistory_cons_of_ne _ _ hij]
    exact hstep.state ▸ (grows_perform op w).knows (hw.knows j)

/-- At most one call has a write pending for a schema, and up to that write memory agrees with the
store. -/
structure World.MirrorsBut (w : World) (tr : List (Event registryInterface)) (ns sc : String) :
    Prop where
  unique : ∀ {i j}, (mirrorOf tr i).pending ns sc ≠ none → (mirrorOf tr j).pending ns sc ≠ none → i = j
  agrees : ∀ {i}, (∀ j, j ≠ i → (mirrorOf tr j).pending ns sc = none) →
    w.Agrees False (mirrorOf tr i) ns sc

theorem mirrorOf_cons_self (tr : List (Event registryInterface)) (i : Nat) (op : Op) (res : op.Res) :
    mirrorOf (⟨i, op, res⟩ :: tr) i = (mirrorOf tr i).next op res := by
  rw [mirrorOf, ownHistory_cons_self, mirror_cons rfl]

theorem mirrorOf_cons_of_ne (tr : List (Event registryInterface)) (op : Op) (res : op.Res) {j : Nat} (hj : j ≠ i) :
    mirrorOf (⟨i, op, res⟩ :: tr) j = mirrorOf tr j := by
  rw [mirrorOf, ownHistory_cons_of_ne _ _ hj.symm]

/-- A call that has a write pending after a step of its own is the only one. -/
theorem World.MirrorsBut.alone (hm : w.MirrorsBut tr ns sc) (hG : CallGuard r c (ownHistory tr i) op)
    (hstep : Executes op w res w') (hok : NoOtherPending w tr i op)
    (hpending : ((mirrorOf tr i).next op res).pending ns sc ≠ none) :
    ∀ j, j ≠ i → (mirrorOf tr j).pending ns sc = none := by
  intro j hj
  by_contra hne
  by_cases hi : (mirrorOf tr i).pending ns sc = none
  · have ht : op.Touches ns sc := by
      by_contra ht
      obtain heq | ⟨-, heq, -⟩ := pending_next_of_not_touches hG ht hstep
      · exact hpending (heq.trans hi)
      · exact hpending heq
    cases op with
    | store op => exact hne (hok ns sc ht j hj)
    | mem op => exact pending_of_mem_touches hG ht hi
  · exact hj (hm.unique hne hi)

theorem World.MirrorsBut.agrees_self (hw : w.Consistent r tr) (hm : w.MirrorsBut tr ns sc)
    (hG : CallGuard r c (ownHistory tr i) op) (hstep : Executes op w res w')
    (hnone : ∀ j, j ≠ i → (mirrorOf tr j).pending ns sc = none) :
    w'.Agrees False (mirrorOf (⟨i, op, res⟩ :: tr) i) ns sc := by
  rw [mirrorOf, ownHistory_cons_self]
  refine agrees_executes hw.sound (hw.knows i) hG hstep (hm.agrees hnone) ?_
  rintro rfl
  have hagrees := hm.agrees hnone
  rw [mirrorOf, hG.1, agrees_iff_of_pending rfl] at hagrees
  rw [hagrees.eq]
  exact .refl _

/-- So does every other call, if the step leaves no write pending. -/
theorem World.MirrorsBut.agrees_other (hw : w.Consistent r tr) (hm : w.MirrorsBut tr ns sc)
    (hG : CallGuard r c (ownHistory tr i) op) (hstep : Executes op w res w') (hki : k ≠ i)
    (hafter : ((mirrorOf tr i).next op res).pending ns sc = none)
    (hnone : ∀ j, j ≠ k → j ≠ i → (mirrorOf tr j).pending ns sc = none) :
    w'.Agrees False (mirrorOf tr k) ns sc := by
  by_cases hi : (mirrorOf tr i).pending ns sc = none
  · -- the step does not touch the schema
    have ht : ¬ op.Touches ns sc := by
      intro ht
      cases op with
      | store op => exact pending_of_store_touches hG ht hstep hafter
      | mem op => exact pending_of_mem_touches hG ht hi
    have hagrees : w.Agrees False (mirrorOf tr k) ns sc := by
      refine hm.agrees fun j hj => ?_
      by_cases hji : j = i
      · rw [hji, hi]
      · exact hnone j hj hji
    obtain ⟨hpointers, hmemory⟩ := memory_of_not_touches ht hstep
    refine ⟨?_, fun hv => hmemory ▸ hagrees.half hv⟩
    rw [hpointers, row, hmemory]
    exact hagrees.covers
  · -- it completes the write that was pending
    have hnone' : ∀ j, j ≠ i → (mirrorOf tr j).pending ns sc = none := by
      intro j hj
      by_contra hne
      exact hj (hm.unique hne hi)
    have hagrees := hm.agrees_self hw hG hstep hnone'
    rw [mirrorOf_cons_self, agrees_iff_of_pending hafter] at hagrees
    exact (agrees_iff_of_pending (hnone' k hki)).mpr hagrees

theorem World.MirrorsBut.step (hw : w.Consistent r tr) (hm : w.MirrorsBut tr ns sc)
    (hG : r.poolGuard calls i (ownHistory tr i) op) (hstep : Executes op w res w')
    (hok : NoOtherPending w tr i op) : w'.MirrorsBut (⟨i, op, res⟩ :: tr) ns sc := by
  obtain ⟨c, -, hG⟩ := hG
  have hother := fun j (hj : j ≠ i) => mirrorOf_cons_of_ne tr op res hj
  refine ⟨fun {j k} hj hk => ?_, fun {k} hnone => ?_⟩
  · by_cases hji : j = i
    · subst hji
      by_contra hkj
      rw [mirrorOf_cons_self] at hj
      rw [hother k (Ne.symm hkj)] at hk
      exact hk (hm.alone hG hstep hok hj k (Ne.symm hkj))
    · by_cases hki : k = i
      · subst hki
        rw [mirrorOf_cons_self] at hk
        rw [hother j hji] at hj
        exact (hj (hm.alone hG hstep hok hk j hji)).elim
      · rw [hother j hji] at hj
        rw [hother k hki] at hk
        exact hm.unique hj hk
  · by_cases hki : k = i
    · subst hki
      exact hm.agrees_self hw hG hstep fun j hj => hother j hj ▸ hnone j hj
    · have hafter := hnone i (Ne.symm hki)
      rw [mirrorOf_cons_self] at hafter
      rw [hother k hki]
      exact hm.agrees_other hw hG hstep hki hafter fun j hjk hji => hother j hji ▸ hnone j hjk

end

theorem pending_outcome (c : Call) (res : Except Err Reply) (ns sc : String) :
    (orBefore c.outcome res).pending ns sc = none := by
  cases res with
  | error e => rfl
  | ok reply =>
    cases c <;> cases reply <;> simp only [orBefore, Call.outcome, PublishResult.outcome] <;>
      first | rfl | (split <;> rfl) | simp [Mirror.pending]

/-- **Memory mirrors the store** once all calls have returned, for every interleaving in which no call
writes pointers while another one has a write pending to one of their slots. -/
theorem Registry.memory_mirrors_store {r : Registry} (hlaw : r.env.Lawful) {calls : List Call}
    {w : World} (hw : w.Sound r.env)
    (hmirror : ∀ ns sc, w.store.pointers ns sc = w.memory.pointers ns sc)
    {p : Pool registryInterface (Except Err Reply) World}
    (h : Pool.Reach World.Executes NoOtherPending (r.pool calls w) p) (hfin : p.Finished)
    (ns sc : String) : p.state.store.pointers ns sc = p.state.memory.pointers ns sc := by
  have hinit : w.Consistent r [] ∧ w.MirrorsBut [] ns sc := by
    refine ⟨⟨hw, fun _ => w.knows_nil⟩, fun hi => (hi rfl).elim, fun _ => ?_⟩
    rw [World.agrees_iff_of_pending rfl, hmirror]
    exact .refl _
  obtain ⟨hguarded, -, hm⟩ := Pool.Reach.invariant
    (J := fun w tr => w.Consistent r tr ∧ w.MirrorsBut tr ns sc) (r.guarded_pool calls w fun _ _ _ => hlaw) hinit
    (by
      rintro w tr i op res w' ⟨hw, hm⟩ hG hstep hok
      exact ⟨hw.step hG hstep, hm.step hw hG hstep hok⟩) h
  have hnone : ∀ i, (mirrorOf p.trace i).pending ns sc = none := by
    intro i
    cases hi : p.threads[i]? with
    | none => rw [mirrorOf, h.ownHistory_eq_nil rfl hi]; rfl
    | some t =>
      obtain ⟨a, rfl⟩ := hfin t (List.mem_of_getElem? hi)
      obtain ⟨c, -, hc⟩ := hguarded i _ hi
      rw [mirrorOf, hc]
      exact pending_outcome c a ns sc
  have hagrees := hm.agrees (i := 0) fun j _ => hnone j
  exact ((World.agrees_iff_of_pending (hnone 0)).mp hagrees).eq

/-- The call has no write pending to a slot of the namespace. -/
def Mirror.spares (ns : String) : Mirror → Bool
  | .before | .staged .. => true
  | .stage ns' .. | .promote ns' | .promoteHalf ns' .. | .discard ns' => ns' ≠ ns
  | .promoteSlots ns' rest | .discardSlots ns' rest => ns' ≠ ns ∨ rest = []

theorem Mirror.pending_of_spares {m : Mirror} (h : m.spares ns = true) : m.pending ns sc = none := by
  cases m with
  | promoteSlots ns' rest | discardSlots ns' rest =>
    simp only [spares, decide_eq_true_eq] at h
    exact if_neg fun hmem => h.elim (· hmem.1) fun hrest => by simp [hrest] at hmem
  | _ => simp_all [spares, pending]

/-- `NoOtherPending` for the operations of the first `n` calls, as a computation. -/
def othersSpare (n : Nat) (tr : List (Event registryInterface)) (i : Nat) : Op → Bool
  | .store (.setStaged ns sc _) => tr.all (·.tid < n) ∧ (List.range n).all fun j =>
      j = i ∨ ((mirrorOf tr j).pending ns sc).isNone
  | .store (.promote ns) | .store (.discardStaging ns) => tr.all (·.tid < n) ∧ (List.range n).all fun j =>
      j = i ∨ (mirrorOf tr j).spares ns
  | _ => true

theorem noOtherPending_of_othersSpare (h : othersSpare n tr i op = true) : NoOtherPending w tr i op := by
  have hnone : ∀ j, ¬ j < n → tr.all (·.tid < n) = true → ∀ ns sc, (mirrorOf tr j).pending ns sc = none := by
    intro j hj htid ns sc
    simp only [List.all_eq_true, decide_eq_true_eq] at htid
    rw [mirrorOf, ownHistory_eq_nil fun e he => by have := htid e he; omega]
    rfl
  cases op with
  | mem op => trivial
  | store op =>
    intro ns sc ht j hj
    by_cases hlt : j < n
    · cases op with
      | setStaged ns' sc' v =>
        obtain ⟨rfl, rfl⟩ := ht
        simp only [othersSpare, Bool.decide_and, Bool.and_eq_true, decide_eq_true_eq, List.all_eq_true] at h
        simpa [hj] using h.2 j (List.mem_range.mpr hlt)
      | promote ns' | discardStaging ns' =>
        cases ht
        simp only [othersSpare, Bool.decide_and, Bool.and_eq_true, decide_eq_true_eq, List.all_eq_true] at h
        exact Mirror.pending_of_spares (by simpa [hj] using h.2 j (List.mem_range.mpr hlt))
      | _ => exact ht.elim
    · cases op with
      | setStaged | promote | discardStaging =>
        simp only [othersSpare, Bool.decide_and, Bool.and_eq_true, decide_eq_true_eq] at h
        exact hnone j hlt h.1 ns sc
      | _ => exact ht.elim

/-- While the `Range` of a `Promote` goes on, a `Publish` makes the slot of another schema of the namespace,
and the `Range` does not come to it. -/
theorem memory_mirrors_publish_during_promote : ∃ p,
    Pool.Reach World.Executes NoOtherPending (Sample.registry.pool [Sample.publish [1], Sample.publishShared [2],
      .promote "n"] .empty) p ∧
      p.Finished ∧ p.state.store.pointers "n" "s" = ⟨some 1, none⟩ ∧
      p.state.memory.pointers "n" "s" = ⟨some 1, none⟩ ∧ p.state.store.pointers "n" "t" = ⟨none, some 1⟩ ∧
      p.state.memory.pointers "n" "t" = ⟨none, some 1⟩ := by
  have hrun : ∃ p, Pool.Reach World.Executes NoOtherPending
      (Sample.registry.pool [Sample.publish [1], Sample.publishShared [2], .promote "n"] .empty) p ∧ p.Finished ∧
      p.state.store.pointers "n" "s" = ⟨some 1, none⟩ ∧ p.state.store.pointers "n" "t" = ⟨none, some 1⟩ :=
    World.exists_reach (List.replicate 14 0 ++ List.replicate 13 1 ++ [0] ++ List.replicate 6 2 ++ [1, 1] ++ [2, 2])
      (.mono (noOtherPending_of_othersSpare (n := 3)) (by decide +kernel)) ⟨_, rfl, Pool.finished_iff.mpr rfl, rfl, rfl⟩
  obtain ⟨p, hreach, hfin, hs, ht⟩ := hrun
  have hmirrors := Registry.memory_mirrors_store Sample.lawful_env (World.sound_empty _) (fun _ _ => rfl) hreach hfin
  exact ⟨p, hreach, hfin, hs, hmirrors "n" "s" ▸ hs, ht, hmirrors "n" "t" ▸ ht⟩

/-- A `Rollback` stages its version in the store, a `DiscardStaging` clears the staged versions of the
store and of memory, and the `Rollback` goes on to stage its snapshot in memory. -/
theorem staged_after_discard : ∃ p,
    Pool.Reach World.Executes (fun _ _ _ _ => True)
      (Sample.registry.pool [Sample.publish [1], .promote "n", .rollback "n" "s" 1 false,
        .discardStaging "n"] .empty) p ∧
      p.Finished ∧ p.state.store.pointers "n" "s" = ⟨some 1, none⟩ ∧
      p.state.memory.pointers "n" "s" = ⟨some 1, some 1⟩ :=
  World.exists_reach
    (List.replicate 15 0 ++ List.replicate 8 1 ++ List.replicate 4 2 ++ List.replicate 4 3 ++ [2, 2])
    (Pool.along_true _ _ _) ⟨_, rfl, Pool.finished_iff.mpr rfl, rfl, rfl⟩

end ProtoRegistry
