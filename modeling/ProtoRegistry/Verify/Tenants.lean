import ProtoRegistry.Verify.Families
import ProtoRegistry.Verify.Scopes

/-!
# Tenants do not disturb each other

A call writes the namespaces it names, and reads these, the namespaces above them and the builtins. So the calls
on a family of namespaces that holds the builtins return the same as if nobody else used the registry, whatever
other calls are interleaved with them, also when these compile against the family, and whichever calls of the
store fail.
-/

namespace ProtoRegistry
open RegistryM

/-! ## What a call is about -/

section
variable {P D : String → Prop} {C : (op : Op) → op.Res → Prop}

/-- The operation is about namespaces of `P`, and writes only those of `D`. -/
def Op.About (P D : String → Prop) (op : Op) : Prop := op.Names P ∧ op.Writes D

theorem Op.ReadsIn.about {op : Op} (h : op.ReadsIn P) : op.About P D := by
  unfold Op.ReadsIn at h
  split at h
  all_goals first | exact ⟨h, trivial⟩ | exact h.elim

/-- Every namespace that the call names has `D`. -/
def Call.On (D : String → Prop) : Call → Prop
  | .publish req => D req.namespaceID
  | .rebase ns _ | .rollback ns .. | .discardStaging ns | .promote ns => D ns
  | .createNamespace ns p _ | .setNamespaceParent ns p _ => D ns ∧ ∀ q ∈ p, D q

instance [DecidablePred D] : (c : Call) → Decidable (c.On D)
  | .publish _ | .rebase .. | .rollback .. | .discardStaging _ | .promote _ => inferInstanceAs (Decidable (D _))
  | .createNamespace .. | .setNamespaceParent .. => inferInstanceAs (Decidable (D _ ∧ ∀ q ∈ _, D q))

theorem Registry.publishInternal_about (hC : Climbs P C) (hbuiltins : P builtinsNamespace) (hDP : ∀ n, D n → P n)
    (r : Registry) {req : PublishRequest} (hns : D req.namespaceID) (opts : PublishOpts) :
    Scoped (Op.About P D) C (r.publishInternal req opts) fun _ => True := by
  have hP := hDP _ hns
  refine publishInternal_scoped (fun _ => Op.ReadsIn.about) r hC hbuiltins hP ⟨⟨hP, by simp⟩, hns⟩ ⟨hP, hns⟩ ⟨hP, hns⟩
    (fun _ hdeps => ?_) opts
  exact storeVersion_scoped r (fun _ _ => ⟨hP, hns⟩) ⟨⟨hP, hdeps⟩, hns⟩ ⟨hP, hns⟩ (fun _ => ⟨hP, hns⟩) _

/-- **What a call is about**: it writes what it names, and reads that, the namespaces above and the builtins. -/
theorem Registry.run_about (hC : Climbs P C) (hbuiltins : P builtinsNamespace) (hDP : ∀ n, D n → P n) (r : Registry)
    {c : Call} (hc : c.On D) : Scoped (Op.About P D) C (r.run c) fun _ => True := by
  have hread : ∀ op : Op, op.ReadsIn P → op.About P D := fun _ => Op.ReadsIn.about
  have hmem : ∀ op : MemOp, Op.ReadsIn P (.mem op) → Op.About P D (.mem op) := fun op => hread (.mem op)
  cases c with
  | publish req =>
    exact Within.reply (Within.bind scoped_check fun _ _ => publishInternal_about hC hbuiltins hDP r hc _)
  | rebase ns sc =>
    refine Within.reply (rebase_scoped hread r (hDP ns hc) fun _ _ => ?_)
    exact publishInternal_about hC hbuiltins hDP r (by exact hc) _
  | rollback ns sc v force =>
    have hP := hDP ns hc
    exact Within.reply (rollback_scoped hmem r hP ⟨hP, trivial⟩ ⟨hP, hc⟩ ⟨hP, hc⟩ (fun _ => ⟨hP, hc⟩) force)
  | discardStaging ns =>
    have hP := hDP ns hc
    exact Within.reply (discardStaging_scoped hmem hP ⟨hP, hc⟩ fun _ => ⟨hP, hc⟩)
  | promote ns =>
    have hP := hDP ns hc
    exact Within.reply (promote_scoped hmem r hP ⟨hP, hc⟩ (fun _ => ⟨hP, hc⟩) fun _ _ => ⟨hP, hc⟩)
  | createNamespace ns p actor =>
    have hP := hDP ns hc.1
    have hset : (P ns ∧ ∀ q, p = some q → P q) ∧ D ns := ⟨⟨hP, fun q hq => hDP q (hc.2 q hq)⟩, hc.1⟩
    refine Within.reply (createNamespace_scoped r ⟨⟨hP, by simp⟩, hc.1⟩ (fun _ => hset) (fun _ => hset)
      ⟨hP, hc.1⟩ fun q hq => ?_)
    exact ⟨⟨hDP q (hc.2 q hq), trivial⟩, hDP q (hc.2 q hq), hc.2 q hq⟩
  | setNamespaceParent ns p actor =>
    have hP := hDP ns hc.1
    have hset : (P ns ∧ ∀ q, p = some q → P q) ∧ D ns := ⟨⟨hP, fun q hq => hDP q (hc.2 q hq)⟩, hc.1⟩
    refine Within.reply (setNamespaceParent_scoped r hset hset ⟨hP, hc.1⟩ fun q hq => ?_)
    exact ⟨hDP q (hc.2 q hq), hc.2 q hq⟩

end

/-! ## Isolation -/

/-- The calls of a family. Those of others have returned before they started. -/
def Registry.familyPool (r : Registry) (F : String → Bool) (calls : List Call) (w : World) :
    Pool registryInterface (Except Err Reply) World :=
  ⟨w, calls.map fun c => if c.On (F · = true) then (r.run c).run else .ret (.ok .done), []⟩

/-- **Tenants are isolated**: under every interleaving, and whichever calls of the store fail, the calls of a
family proceed and return as they do without the calls of others, also on a registry that holds other data of
others. -/
theorem Registry.family_isolated {r : Registry} {F : String → Bool} (hbuiltins : F builtinsNamespace = true)
    {calls : List Call} (hcalls : ∀ c ∈ calls, c.On (F · = true) ∨ c.On (F · = false))
    {w w' : World} (hw : w.Closed F) (hpart : w'.restrict F = w.restrict F)
    {p : Pool registryInterface (Except Err Reply) World}
    (h : Pool.Reach World.MayFail (fun _ _ _ _ => True) (r.pool calls w) p) :
    ∃ q, Pool.Reach World.MayFail (fun _ _ _ _ => True) (r.familyPool F calls w') q ∧
      q.state.restrict F = p.state.restrict F ∧
      ∀ (i : Nat) (c : Call), calls[i]? = some c → c.On (F · = true) → q.threads[i]? = p.threads[i]? := by
  -- the calls of the family, by their numbers
  let inside : Nat → Prop := fun i => ∃ c : Call, calls[i]? = some c ∧ c.On (F · = true)
  have hsep : (r.pool calls w).Separated (Op.Names (F · = true)) (Op.Writes (F · = false))
      (ReturnsFamily F) inside := by
    have hthread : ∀ {i : Nat} {t}, (r.pool calls w).threads[i]? = some t →
        ∃ c : Call, calls[i]? = some c ∧ (r.run c).run = t := by
      intro i t ht
      simpa [pool, List.getElem?_map, Option.map_eq_some_iff] using ht
    constructor
    · intro i t ht hi
      obtain ⟨c, hc, rfl⟩ := hthread ht
      obtain ⟨c', hc', hon⟩ := hi
      cases hc.symm.trans hc'
      have habout := run_about (P := (F · = true)) (C := ReturnsFamily F) (fun n p hp hn => hp hn) hbuiltins
        (fun _ hn => hn) r hon
      exact (Prog.Relies.weaken (fun _ hop => hop.1) habout).mono fun _ _ => trivial
    · intro i t ht hi
      obtain ⟨c, hc, rfl⟩ := hthread ht
      have hon : c.On (F · = false) := by
        refine (hcalls c (List.mem_of_getElem? hc)).resolve_left fun hon => hi ⟨c, hc, hon⟩
      have habout := run_about (P := fun _ => True) (C := fun _ _ => True) (fun _ _ _ _ => trivial) trivial
        (fun _ _ => trivial) r hon
      exact Prog.Relies.weaken (fun _ hop => hop.2) (Prog.Relies.mono habout fun _ _ => trivial)
  have hsame : ∀ i, inside i → (r.familyPool F calls w').threads[i]? = (r.pool calls w).threads[i]? := by
    rintro i ⟨c, hc, hon⟩
    simp [familyPool, pool, hc, hon]
  obtain ⟨q, hq, hview, hthreads⟩ :=
    Pool.Reach.isolate (R := World.MayFail) (J := fun v => v.Closed F) (World.restrict F)
    (fun hop hw hstep => ⟨(World.Closed.of_restrict hw).returnsFamily hstep,
      ((World.Closed.of_restrict hw).mayFail hop hstep).restrict⟩)
    (fun hop hw hv hstep => hstep.act hop (.of_restrict hw) hv) (fun hop hstep => hstep.spare hop)
    hsep hw.restrict hpart hsame h
  exact ⟨q, hq, hview, fun i c hc hon => hthreads i ⟨c, hc, hon⟩⟩

/-- A publish to `n` with one to `p` in its middle returns as it does alone. -/
theorem family_isolated_publish : ∃ p q,
    Pool.Reach World.MayFail (fun _ _ _ _ => True)
      (Sample.registry.pool [Sample.publish [1], Sample.publishParent [2]] .empty) p ∧ p.Finished ∧
      Pool.Reach World.MayFail (fun _ _ _ _ => True)
        (Sample.registry.familyPool (· ≠ "p") [Sample.publish [1], Sample.publishParent [2]] .empty) q ∧
      q.threads[0]? = p.threads[0]? := by
  have hrun : ∃ p, Pool.Reach World.Executes (fun _ _ _ _ => True)
      (Sample.registry.pool [Sample.publish [1], Sample.publishParent [2]] .empty) p ∧ p.Finished :=
    World.exists_reach (List.replicate 8 0 ++ List.replicate 15 1 ++ List.replicate 7 0) (Pool.along_true _ _ _)
      ⟨_, rfl, Pool.finished_iff.mpr rfl⟩
  obtain ⟨p, hexecutes, hfin⟩ := hrun
  have hreach := hexecutes.mono World.Executes.mayFail
  have hcalls : ∀ c ∈ [Sample.publish [1], Sample.publishParent [2]],
      c.On (fun n => decide (n ≠ "p") = true) ∨ c.On (fun n => decide (n ≠ "p") = false) := by
    intro c hc
    rcases List.mem_pair.mp hc with rfl | rfl
    · exact .inl (by decide)
    · exact .inr (by decide)
  have hclosed : World.empty.Closed fun n => decide (n ≠ "p") := by
    constructor
    · rintro n p - ⟨⟩
    · rintro n p - ⟨⟩
  obtain ⟨q, hq, -, hsame⟩ := Registry.family_isolated (F := (· ≠ "p")) (by decide) hcalls hclosed rfl hreach
  exact ⟨p, q, hreach, hfin, hq, hsame 0 _ rfl (by decide)⟩

end ProtoRegistry
