import ProtoRegistry.Model.Transaction
import ProtoRegistry.Verify.Hierarchy

/-!
# Concurrent re-parenting

Transactions in flight add links that no other transaction reads, so two updates that are each
acceptable can close a cycle together (`crossed_updates`). The committed hierarchy stays acyclic in
every interleaving in which each update's query sees the cycles that the committed and the in-flight
links close together (`committed_acyclic`). A transaction that runs alone is the atomic operation of
the store (`execute_setNamespaceParent_eq`).
-/

namespace ProtoRegistry

open Relation

namespace Database

variable {d : Database} {t : Nat} {x : Tx} {a b n p : String}

@[simp] theorem tx_setTx_self : (d.setTx t x).tx t = x := by simp [tx, setTx]

theorem tx_setTx_of_ne (h : t' ≠ t) : (d.setTx t x).tx t' = d.tx t' := by
  simp [tx, setTx, Dict.get_set_of_ne _ _ h]

/-- A parent link of the hierarchy as it is, or as a transaction in flight has written it. -/
def Link (d : Database) (a b : String) : Prop :=
  ParentLink d.committed.parentOf a b ∨ ∃ t, (d.tx t).write = some (a, some b)

theorem Link.of_setTx (h : (d.setTx t x).Link a b) : d.Link a b ∨ x.write = some (a, some b) := by
  rcases h with h | ⟨t', h⟩
  · exact .inl (.inl h)
  · rcases eq_or_ne t' t with rfl | hne
    · exact .inr (by simpa using h)
    · exact .inl (.inr ⟨t', by rwa [tx_setTx_of_ne hne] at h⟩)

theorem parentLink_view (h : ParentLink (d.view t).parentOf a b) : d.Link a b := by
  unfold view at h
  split at h
  · exact .inl h
  · next n q hwrite =>
    cases hn : d.committed.namespaces.get n with
    | none =>
      simp only [Store.writeParent, hn] at h
      exact .inl h
    | some row =>
      rw [ParentLink, Store.parentOf_writeParent (by simp [hn]), Function.update_apply] at h
      split at h
      · next ha => exact .inr ⟨t, by rw [hwrite, ha, h]⟩
      · exact .inl h

theorem Link.of_end {s : Store} (hs : s.parentOf = d.committed.parentOf ∨ s.parentOf = (d.view t).parentOf)
    (h : Link { d with committed := s, inFlight := d.inFlight.delete t } a b) : d.Link a b := by
  rcases h with h | ⟨t', h⟩
  · rcases hs with hs | hs
    · exact .inl (by rwa [← hs])
    · exact parentLink_view (t := t) (by rwa [← hs])
  · rcases eq_or_ne t' t with rfl | hne
    · simp [tx] at h
    · exact .inr ⟨t', by simpa [tx, Dict.get_delete_of_ne _ hne] using h⟩

/-- The walk of an update has met each cycle that its link would close with the links of the hierarchy
and of the transactions in flight. -/
def SeesCycle (d : Database) : TxOp → Prop
  | .setNamespaceParent _ n p ancestors => n ≠ p → ReflTransGen d.Link p n → n ∈ ancestors
  | _ => True

theorem link_perform (op : TxOp) (h : (d.perform op).2.Link a b) :
    d.Link a b ∨ ∃ t n p ancestors, op = .setNamespaceParent t n p ancestors ∧
      (d.view t).AcceptsUpdate n p ancestors ∧ a = n ∧ b = p := by
  cases op with
  | begin =>
    have h' : (d.setTx d.nextTx {}).Link a b := h
    exact .inl ((Link.of_setTx h').resolve_right (by simp))
  | getNamespace t id | walkAncestors t p => exact .inl h
  | clearNamespaceParent t n =>
    simp only [perform] at h
    split at h
    · exact .inl ((Link.of_setTx h).resolve_right (by simp))
    · exact .inl h
  | setNamespaceParent t n p ancestors =>
    simp only [perform] at h
    split at h
    · next hacc =>
      rcases Link.of_setTx h with h | h
      · exact .inl h
      · simp only [Option.some.injEq, Prod.mk.injEq] at h
        exact .inr ⟨t, n, p, ancestors, rfl, hacc, h.1.symm, h.2.symm⟩
    · exact .inl h
  | recordNamespaceParentEvent t ev =>
    rcases Link.of_setTx h with h | h
    · exact .inl h
    · exact .inl (.inr ⟨t, h⟩)
  | commit t =>
    refine .inl (Link.of_end (t := t) (.inr ?_) h)
    split <;> rfl
  | rollback t => exact .inl (Link.of_end (.inl rfl) h)

theorem grounded_perform (hground : ∀ id, Grounded d.Link id) (op : TxOp) (hsee : d.SeesCycle op)
    (id : String) : Grounded (d.perform op).2.Link id := by
  by_cases hset : ∃ t n p ancestors, op = .setNamespaceParent t n p ancestors ∧
      (d.view t).AcceptsUpdate n p ancestors
  · obtain ⟨t, n, p, ancestors, rfl, hacc⟩ := hset
    -- the update was accepted, so its walk has not met `n`, and it would have met `n` on a cycle
    have hnot : ¬ ReflTransGen d.Link p n := fun hreach => hacc.2.2.2 (hsee hacc.2.1 hreach)
    refine (grounded_addLink hground hnot id).mono fun a b h => ?_
    rcases link_perform _ h with h | ⟨t', n', p', ancestors', heq, -, rfl, rfl⟩
    · exact .inl h
    · cases heq
      exact .inr ⟨rfl, rfl⟩
  · refine (hground id).mono fun a b h => (link_perform op h).resolve_right ?_
    rintro ⟨t, n, p, ancestors, rfl, hacc, -⟩
    exact hset ⟨t, n, p, ancestors, rfl, hacc⟩

end Database

/-! ## A transaction alone -/

/-- After `begin` the new transaction reads the committed rows and has written nothing. -/
theorem Database.perform_begin (d : Database) : ∃ d', d.perform .begin = (d.nextTx, d') ∧
    d'.committed = d.committed ∧ d'.tx d.nextTx = {} := by
  exact ⟨_, rfl, rfl, tx_setTx_self (d := d)⟩

theorem Database.view_setTx (d : Database) (t : Nat) (n : String) (q : Option String)
    (ev : Option NamespaceParentEvent) :
    (d.setTx t ⟨some (n, q), ev⟩).view t = d.committed.writeParent n q := by
  simp [Database.view, Database.setTx, Database.tx]

theorem execute_abort (d : Database) (t : Nat) (e : Err) :
    ∃ d', execute Database.perform (TxM.abort t e : TxM Unit) d = (.error e, d') ∧
      d'.committed = d.committed :=
  ⟨_, rfl, rfl⟩

/-- The update decides as the atomic operation does, and writes to the transaction only. -/
theorem execute_updateParent {d : Database} {t : Nat} {n : String} (hview : d.view t = d.committed)
    (hn : (d.committed.namespaces.get n).isSome) (q : Option String) (actor : String) :
    ∃ d', execute Database.perform (TxM.updateParent t n q) d =
        ((d.committed.setNamespaceParent n q actor).1, d') ∧ d'.committed = d.committed ∧
      ((d.committed.setNamespaceParent n q actor).1 = .ok () →
        d'.view t = d.committed.writeParent n q) := by
  cases q with
  | none =>
    have hok : (d.committed.setNamespaceParent n none actor).1 = .ok () := by
      obtain ⟨row, hrow⟩ := Option.isSome_iff_exists.mp hn
      simp [Store.setNamespaceParent, hrow]
    refine ⟨d.setTx t { d.tx t with write := some (n, none) }, ?_, rfl, fun _ => d.view_setTx ..⟩
    rw [TxM.updateParent, execute_bind, TxM.execute_statement]
    simp [Database.perform, hview, hn, hok]
  | some p =>
    rcases d.committed.setNamespaceParent_cases n (some p) actor with
      ⟨row, -, hacc, heq⟩ | ⟨hmiss, heq⟩ | ⟨p', hp', -, hp, hnot, heq⟩
    · have hacc : d.committed.AcceptsUpdate n p (d.committed.ancestors Store.maxDepth p) := hacc p rfl
      obtain ⟨row, hrow⟩ := Option.isSome_iff_exists.mp hacc.2.2.1
      refine ⟨d.setTx t { d.tx t with write := some (n, some p) }, ?_, rfl, fun _ => d.view_setTx ..⟩
      simp [TxM.updateParent, execute_bind, Database.perform, hview, hrow, hacc, heq]
    · rcases hmiss with hmiss | ⟨p', hp', hmiss⟩
      · simp [hmiss] at hn
      · cases hp'
        obtain ⟨d', habort, hd'⟩ := execute_abort d t errNamespaceNotFound
        refine ⟨d', ?_, hd', by simp [heq]⟩
        simp [TxM.updateParent, execute_bind, Database.perform, hview, hmiss, heq, habort]
    · cases hp'
      rw [Store.AcceptsParent] at hnot
      obtain ⟨row, hrow⟩ := Option.isSome_iff_exists.mp hp
      obtain ⟨d', habort, hd'⟩ := execute_abort d t errParentCycle
      refine ⟨d', ?_, hd', by simp [heq]⟩
      simp [TxM.updateParent, execute_bind, Database.perform, hview, hrow, hnot, heq, habort]

theorem execute_record_commit (d : Database) (t : Nat) (ev : NamespaceParentEvent) :
    ∃ d', execute Database.perform (do
      TxM.statement (.recordNamespaceParentEvent t ev)
      TxM.statement (.commit t)) d = (.ok (), d') ∧
      d'.committed = (d.view t).recordNamespaceParentEvent ev := by
  refine ⟨(d.setTx t { d.tx t with event := some ev }).commit t, ?_, ?_⟩
  · simp [execute_bind, Database.perform]
  · simp [Database.commit, Database.view]
    rfl

/-- **Run alone, the transaction is the atomic operation of the store.** -/
theorem execute_setNamespaceParent_eq (d : Database) (n : String) (q : Option String)
    (actor : String) :
    ∃ d', execute Database.perform (TxM.setNamespaceParent n q actor) d =
      ((d.committed.setNamespaceParent n q actor).1, d') ∧
      d'.committed = (d.committed.setNamespaceParent n q actor).2 := by
  obtain ⟨d₁, hbegin, hcommitted, htx⟩ := d.perform_begin
  have hview : d₁.view d.nextTx = d₁.committed := by simp [Database.view, htx]
  rw [TxM.setNamespaceParent, execute_bind, TxM.execute_statement, hbegin]
  simp only [execute_bind, TxM.execute_statement, Database.perform, hview, hcommitted]
  cases hn : d.committed.namespaces.get n with
  | none =>
    obtain ⟨d', habort, hd'⟩ := execute_abort d₁ d.nextTx errNamespaceNotFound
    have heq : d.committed.setNamespaceParent n q actor = (.error errNamespaceNotFound, d.committed) := by
      simp [Store.setNamespaceParent, hn]
    exact ⟨d', by simp [habort, heq], by rw [hd', heq, hcommitted]⟩
  | some row =>
    obtain ⟨d₂, hupdate, hd₂, hwrite⟩ := execute_updateParent hview
      (by rw [hcommitted, hn]; rfl) q actor
    rw [hcommitted] at hupdate hwrite hd₂
    simp only [execute_bind, hupdate]
    rcases d.committed.setNamespaceParent_cases n q actor with
      ⟨row', hrow', -, heq⟩ | ⟨-, heq⟩ | ⟨p, -, -, -, -, heq⟩
    · rw [hn, Option.some.injEq] at hrow'
      subst hrow'
      obtain ⟨d', hcommit, hd'⟩ := execute_record_commit d₂ d.nextTx
        ⟨n, row.parentNamespaceID, q, actor⟩
      rw [execute_bind] at hcommit
      refine ⟨d', by simpa [heq] using hcommit, ?_⟩
      rw [hd', hwrite (by rw [heq]), heq]
    · exact ⟨d₂, by simp [heq], by rw [hd₂, heq]⟩
    · exact ⟨d₂, by simp [heq], by rw [hd₂, heq]⟩

/-- A request to set a parent: the namespace, the parent and the actor. -/
abbrev Reparenting := String × Option String × String

/-- Transactions that start together on a database. -/
def reparentingPool (d : Database) (calls : List Reparenting) :
    Pool txInterface (Except Err Unit) Database :=
  ⟨d, calls.map fun c => (TxM.setNamespaceParent c.1 c.2.1 c.2.2).run, []⟩

/-- **The committed hierarchy stays acyclic** under every interleaving of re-parenting transactions
whose updates see the cycles they would close. -/
theorem committed_acyclic {d : Database} {calls : List Reparenting}
    {p : Pool txInterface (Except Err Unit) Database} (hroot : ∀ id, d.committed.Rooted id)
    (hidle : d.inFlight.keys = [])
    (h : Pool.Reach (Pool.Executes TxOp.enabled Database.perform) (fun d _ _ op => d.SeesCycle op)
      (reparentingPool d calls) p) :
    ∀ id, p.state.committed.Rooted id := by
  have hinit : ∀ id, Grounded d.Link id := by
    intro id
    refine (grounded_iff_root.mpr (hroot id)).mono fun a b hlink => ?_
    rcases hlink with hlink | ⟨t, ht⟩
    · exact hlink
    · have hnone : d.inFlight.get t = none := Dict.get_eq_none (by simp [hidle])
      simp [Database.tx, hnone] at ht
  have hground : ∀ id, Grounded p.state.Link id := by
    refine Pool.Reach.induct (J := fun d _ => ∀ id, Grounded d.Link id) hinit ?_ h
    rintro d tr i op r d' hd ⟨-, heq⟩ hsee
    have := Database.grounded_perform hd op hsee
    rwa [heq] at this
  exact fun id => ((hground id).mono fun _ _ => .inl).exists_root

def Database.linkless (d : Database) (n : String) : Bool :=
  d.committed.parentOf n = none ∧ d.inFlight.keys.all fun t => (d.tx t).write.map (·.1) ≠ some n

theorem Database.not_link_of_linkless {d : Database} (h : d.linkless a = true) : ¬ d.Link a b := by
  simp only [linkless, decide_eq_true_eq, List.all_eq_true] at h
  rintro (hlink | ⟨t, ht⟩)
  · exact absurd (hlink.symm.trans h.1) (by simp)
  · by_cases hmem : t ∈ d.inFlight.keys
    · exact h.2 t hmem (by simp [ht])
    · simp [tx, Dict.get_eq_none hmem] at ht

/-- `SeesCycle` as a computation, for an update whose walk has met the namespace or whose new parent has no
parent itself. -/
def Database.sees (d : Database) : TxOp → Bool
  | .setNamespaceParent _ n p ancestors => n ∈ ancestors ∨ d.linkless p
  | _ => true

theorem Database.seesCycle_of_sees {d : Database} {op : TxOp} (h : d.sees op = true) : d.SeesCycle op := by
  cases op with
  | setNamespaceParent t n p ancestors =>
    intro hne hcycle
    obtain hmem | hlinkless : n ∈ ancestors ∨ d.linkless p = true := by simpa [sees] using h
    · exact hmem
    · rcases hcycle.cases_head with heq | ⟨z, hz, -⟩
      · exact absurd heq.symm hne
      · exact absurd hz (not_link_of_linkless hlinkless)
  | _ => trivial

/-- Namespaces without parents and no transaction in flight. -/
def roots (ids : List String) : Database := ⟨ids.foldl Store.insertRoot .empty, .empty, 0⟩

theorem parentOf_roots (ids : List String) (id : String) : (roots ids).committed.parentOf id = none := by
  suffices H : ∀ s : Store, s.parentOf id = none → (ids.foldl Store.insertRoot s).parentOf id = none from H _ rfl
  induction ids with
  | nil => exact fun s hs => hs
  | cons n ids ih =>
    refine fun s hs => ih _ ?_
    rw [Store.parentOf, Store.insertRoot, Dict.get_set]
    split
    · rfl
    · exact hs

theorem rooted_roots (ids : List String) (id : String) : (roots ids).committed.Rooted id :=
  ⟨id, .refl, parentOf_roots ids id⟩

/-- Two transactions update their rows before either of them commits, and both commit. A third one that was
begun before them is refused, since its walk meets the cycle. -/
theorem committed_acyclic_overlapping :
    ∃ p, Pool.Reach (Pool.Executes TxOp.enabled Database.perform) (fun d _ _ op => d.SeesCycle op)
      (reparentingPool (roots ["a", "b", "c"]) [("a", some "b", "x"), ("b", some "c", "y"), ("c", some "a", "z")]) p ∧
      p.threads = [.ret (.ok ()), .ret (.ok ()), .ret (.error errParentCycle)] ∧
      p.state.committed.parentOf "a" = some "b" ∧ p.state.committed.parentOf "b" = some "c" ∧
      ∀ id, p.state.committed.Rooted id := by
  have hrun : ∃ p, Pool.Reach (Pool.Executes TxOp.enabled Database.perform) (fun d _ _ op => d.SeesCycle op)
      (reparentingPool (roots ["a", "b", "c"]) [("a", some "b", "x"), ("b", some "c", "y"), ("c", some "a", "z")]) p ∧
      p.threads = [.ret (.ok ()), .ret (.ok ()), .ret (.error errParentCycle)] ∧
      p.state.committed.parentOf "a" = some "b" ∧ p.state.committed.parentOf "b" = some "c" :=
    Pool.exists_reach ([2, 2, 2] ++ List.replicate 5 0 ++ List.replicate 5 1 ++ [0, 0, 1, 1] ++ [2, 2, 2])
      (.mono Database.seesCycle_of_sees (by decide +kernel)) ⟨_, rfl, rfl, rfl, rfl⟩
  obtain ⟨p, hreach, hthreads, ha, hb⟩ := hrun
  exact ⟨p, hreach, hthreads, ha, hb, committed_acyclic (rooted_roots _) rfl hreach⟩

/-- Two transactions that each look acceptable commit a cycle together. -/
theorem crossed_updates : (∀ id, (roots ["a", "b"]).committed.parentOf id = none) ∧
    ∃ p, Pool.Reach (Pool.Executes TxOp.enabled Database.perform) (fun _ _ _ _ => True)
      (reparentingPool (roots ["a", "b"]) [("a", some "b", "x"), ("b", some "a", "y")]) p ∧
      p.Finished ∧ ¬ p.state.committed.Rooted "a" := by
  refine ⟨parentOf_roots _, Pool.exists_reach [0, 0, 0, 0, 0, 1, 1, 1, 1, 1, 0, 0, 1, 1] (Pool.along_true _ _ _)
    ⟨_, rfl, Pool.finished_iff.mpr rfl, fun hroot => ?_⟩⟩
  exact (grounded_iff_root.mpr hroot).not_cycle (.tail (b := "b") (.single rfl) rfl)

end ProtoRegistry
