import ProtoRegistry.Verify.Reparenting

/-!
# The log of re-parentings

A re-parenting transaction records the parent that it replaces as it has read it, and it reads the row
before its update locks it. From the update to the commit no other transaction writes the row
(`Database.Tracks`), so the rows of one namespace stand in the log in the order in which they were
inserted. When every update finds the parent that its transaction has read, the log of a namespace
replays to its stored parent in every interleaving (`auditLog_replays`). A transaction that commits
between the read and the update of another one breaks the log (`auditLog_stale`).
-/

namespace ProtoRegistry

/-- The audit row that a request inserts after it has read the row of its namespace. -/
def Reparenting.event (c : Reparenting) (row : NamespaceRow) : NamespaceParentEvent :=
  ⟨c.1, row.parentNamespaceID, c.2.1, c.2.2⟩

def Store.auditLog (s : Store) (n : String) : List NamespaceParentEvent :=
  s.parentEvents.filter (·.namespaceID = n)

/-- From the parent `q`, the rows of a log lead to `q'`, each from the parent that the row before has
set. -/
def Replays (q : Option String) : List NamespaceParentEvent → Option String → Prop
  | [], q' => q = q'
  | ev :: evs, q' => ev.previousParentID = q ∧ Replays ev.newParentID evs q'

theorem Replays.concat {evs : List NamespaceParentEvent} {q q' : Option String} (h : Replays q evs q')
    (ev : NamespaceParentEvent) (hev : ev.previousParentID = q') : Replays q (evs ++ [ev]) ev.newParentID := by
  induction evs generalizing q with
  | nil => exact ⟨hev.trans h.symm, rfl⟩
  | cons ev' evs ih => exact ⟨h.1, ih h.2⟩

theorem Store.auditLog_record_writeParent (s : Store) (n m : String) (q : Option String)
    (ev : NamespaceParentEvent) : ((s.writeParent n q).recordNamespaceParentEvent ev).auditLog m =
      s.auditLog m ++ if ev.namespaceID = m then [ev] else [] := by
  have hevents : (s.writeParent n q).parentEvents = s.parentEvents := by
    unfold writeParent
    split <;> rfl
  split <;> simp_all [auditLog, recordNamespaceParentEvent]

/-! ## How far a transaction is -/

/-- Where a transaction stands, with the row of its namespace that it has read. -/
inductive Progress where
  | start
  | begun (t : Nat)
  | read (t : Nat) (row : NamespaceRow)
  | written (t : Nat) (row : NamespaceRow)
  | recorded (t : Nat) (row : NamespaceRow)
  | done

namespace Progress

/-- How a statement and its result move a transaction on. -/
def next : Progress → (op : TxOp) → op.Res → Progress
  | .start, .begin, t => .begun t
  | .begun t, .getNamespace .., some row => .read t row
  | .read t row, .clearNamespaceParent .., _ => .written t row
  | .read t row, .setNamespaceParent .., true => .written t row
  | .written t row, .recordNamespaceParentEvent .., _ => .recorded t row
  | _, .commit _, _ | _, .rollback _, _ => .done
  | pr, _, _ => pr

def tx : Progress → Option Nat
  | .begun t | .read t _ | .written t _ | .recorded t _ => some t
  | .start | .done => none

/-- The row that was read by a transaction that has updated it since. -/
def replaced : Progress → Option NamespaceRow
  | .written _ row | .recorded _ row => some row
  | _ => none

/-- The row that was read by a transaction that has inserted its audit row since. -/
def logged : Progress → Option NamespaceRow
  | .recorded _ row => some row
  | _ => none

/-- What the database holds of a transaction for the request `c` that stands at the given point. -/
def Agrees (c : Reparenting) (d : Database) : Progress → Prop
  | .start | .done => True
  | .begun t => d.inFlight.get t = some {}
  | .read t _ => d.inFlight.get t = some {} ∧ (d.committed.namespaces.get c.1).isSome
  | .written t _ => d.inFlight.get t = some ⟨some (c.1, c.2.1), none⟩ ∧
      (d.committed.namespaces.get c.1).isSome
  | .recorded t row => d.inFlight.get t = some ⟨some (c.1, c.2.1), some (c.event row)⟩ ∧
      (d.committed.namespaces.get c.1).isSome

variable {pr : Progress} {c : Reparenting} {d d' : Database}

theorem replaced_of_logged (h : pr.logged = some row) : pr.replaced = some row := by
  cases pr <;> first | exact h | cases h

theorem Agrees.frame (h : pr.Agrees c d) (htx : ∀ t, pr.tx = some t → d'.inFlight.get t = d.inFlight.get t)
    (hrows : ∀ n, (d.committed.namespaces.get n).isSome → (d'.committed.namespaces.get n).isSome) :
    pr.Agrees c d' := by
  cases pr with
  | start | done => trivial
  | begun t => exact (htx t rfl).trans h
  | read t _ | written t _ | recorded t _ => exact ⟨(htx t rfl).trans h.1, hrows _ h.2⟩

/-- A transaction that has updated the row of its namespace holds the lock on it. -/
theorem Agrees.holds (h : pr.Agrees c d) (hpr : pr.replaced = some row) :
    ∃ t, pr.tx = some t ∧ t ∈ d.inFlight.keys ∧ (d.tx t).write.map (·.1) = some c.1 := by
  cases pr with
  | written t _ | recorded t _ => exact ⟨t, rfl, Dict.mem_keys_of_get h.1, by simp [Database.tx, h.1]⟩
  | _ => cases hpr

end Progress

/-- Where the transaction with history `h` stands. -/
def progress (h : Prog.History txInterface) : Progress := h.foldr (fun e pr => pr.next e.1 e.2) .start

theorem progress_cons (op : TxOp) (res : op.Res) {h : Prog.History txInterface} (hpr : progress h = pr) :
    progress (⟨op, res⟩ :: h) = pr.next op res := by
  rw [← hpr]
  rfl

/-- What a transaction has done when it performs a statement. -/
def Reparenting.Guard (c : Reparenting) (h : Prog.History txInterface) : TxOp → Prop
  | .begin => progress h = .start
  | .getNamespace t id => progress h = .begun t ∧ id = c.1 ∨ ∃ row, progress h = .read t row
  | .walkAncestors t _ => ∃ row, progress h = .read t row
  | .clearNamespaceParent t n => n = c.1 ∧ c.2.1 = none ∧
      ∃ row, progress h = .read t row ∧ ⟨.getNamespace t n, some row⟩ ∈ h
  | .setNamespaceParent t n p _ => n = c.1 ∧ c.2.1 = some p ∧
      ∃ row, progress h = .read t row ∧ ⟨.getNamespace t n, some row⟩ ∈ h
  | .recordNamespaceParentEvent t ev => ∃ row, progress h = .written t row ∧ ev = c.event row
  | .commit t => ∃ row, progress h = .recorded t row
  | .rollback t => progress h = .begun t ∨ ∃ row, progress h = .read t row

section
variable {c : Reparenting} {h : Prog.History txInterface} {t : Nat} {row : NamespaceRow}

theorem spec_statement_bind {G : Prog.History txInterface → TxOp → Prop} {op : TxOp} {f : op.Res → TxM α}
    {Q : Except Err α → Prog.History txInterface → Prop} (hG : G h op)
    (hok : ∀ res, Spec G (f res) (⟨op, res⟩ :: h) Q) : Spec G (TxM.statement op >>= f) h Q :=
  ⟨hG, fun res _ => hok res⟩

theorem Progress.next_rollback (pr : Progress) (res : TxOp.Res (.rollback t)) :
    pr.next (.rollback t) res = .done := by
  cases pr <;> rfl

theorem spec_abort {e : Err} (hpr : progress h = .begun t ∨ ∃ row, progress h = .read t row) :
    Spec c.Guard (TxM.abort t e : TxM Unit) h fun _ h' => progress h' = .done :=
  spec_statement_bind hpr fun res => Progress.next_rollback (progress h) res

theorem spec_record_commit (hpr : progress h = .written t row) :
    Spec c.Guard (do
      TxM.statement (.recordNamespaceParentEvent t (c.event row))
      TxM.statement (.commit t)) h fun _ h' => progress h' = .done := by
  refine spec_statement_bind ⟨row, hpr, rfl⟩ fun res => ?_
  have hrecorded : progress (⟨.recordNamespaceParentEvent t (c.event row), res⟩ :: h) = .recorded t row :=
    progress_cons _ _ hpr
  exact ⟨⟨row, hrecorded⟩, fun res' _ => progress_cons (.commit t) res' hrecorded⟩

/-- **Every statement of a re-parenting transaction is performed under its guard**, whatever the
database answers. -/
theorem spec_setNamespaceParent (c : Reparenting) :
    Spec c.Guard (TxM.setNamespaceParent c.1 c.2.1 c.2.2) [] fun _ h => progress h = .done := by
  refine spec_statement_bind rfl fun t => ?_
  have hbegun : progress [⟨.begin, t⟩] = .begun t := rfl
  refine spec_statement_bind (.inl ⟨hbegun, rfl⟩) fun existing => ?_
  cases existing with
  | none => exact spec_abort (.inl (progress_cons _ _ hbegun))
  | some row =>
    have hread : progress [⟨.getNamespace t c.1, some row⟩, ⟨.begin, t⟩] = .read t row := rfl
    cases hq : c.2.1 with
    | none =>
      refine spec_statement_bind ⟨rfl, hq, row, hread, .head _⟩ fun res => ?_
      have hend := spec_record_commit (c := c)
        (progress_cons (.clearNamespaceParent t c.1) res hread)
      rwa [Reparenting.event, hq] at hend
    | some p =>
      refine spec_statement_bind (.inr ⟨row, hread⟩) fun parent => ?_
      have hread' : progress [⟨.getNamespace t p, parent⟩, ⟨.getNamespace t c.1, some row⟩, ⟨.begin, t⟩] =
          .read t row := progress_cons _ _ hread
      cases parent with
      | none => exact spec_abort (.inr ⟨row, hread'⟩)
      | some parent =>
        refine spec_statement_bind ⟨row, hread'⟩ fun ancestors => ?_
        have hwalked := progress_cons (.walkAncestors t p) ancestors hread'
        refine spec_statement_bind ⟨rfl, hq, row, hwalked, .tail _ (.tail _ (.head _))⟩ fun res => ?_
        cases res with
        | false => exact spec_abort (.inr ⟨row, progress_cons _ _ hwalked⟩)
        | true =>
          have hend := spec_record_commit (c := c)
            (progress_cons (.setNamespaceParent t c.1 p ancestors) true hwalked)
          rwa [Reparenting.event, hq] at hend

end

/-! ## Transactions in flight -/

def progressOf (tr : List (Event txInterface)) (i : Nat) : Progress := progress (ownHistory tr i)

section
variable {calls : List Reparenting} {d d' : Database} {tr : List (Event txInterface)} {i j : Nat}
  {c c' : Reparenting} {op : TxOp} {res : op.Res} {n : String} {t : Nat} {pr : Progress}

theorem progressOf_cons_self : progressOf (⟨i, op, res⟩ :: tr) i = (progressOf tr i).next op res := by
  rw [progressOf, ownHistory_cons_self]
  rfl

theorem progressOf_cons_of_ne (h : j ≠ i) : progressOf (⟨i, op, res⟩ :: tr) j = progressOf tr j := by
  rw [progressOf, ownHistory_cons_of_ne _ _ h.symm, progressOf]

/-- A statement of thread `i` keeps a property that at most one thread has, when the thread only gets it
while no other one has it. -/
theorem unique_progressOf_cons {P : Nat → Progress → Prop}
    (h : ∀ j k, P j (progressOf tr j) → P k (progressOf tr k) → j = k)
    (hnew : P i ((progressOf tr i).next op res) → ∀ j, j ≠ i → ¬ P j (progressOf tr j)) (j k : Nat)
    (hj : P j (progressOf (⟨i, op, res⟩ :: tr) j)) (hk : P k (progressOf (⟨i, op, res⟩ :: tr) k)) : j = k := by
  rcases eq_or_ne j i with rfl | hji
  · rcases eq_or_ne k j with rfl | hkj
    · rfl
    · rw [progressOf_cons_self] at hj
      rw [progressOf_cons_of_ne hkj] at hk
      exact absurd hk (hnew hj k hkj)
  · rw [progressOf_cons_of_ne hji] at hj
    rcases eq_or_ne k i with rfl | hki
    · rw [progressOf_cons_self] at hk
      exact absurd hj (hnew hk j hji)
    · rw [progressOf_cons_of_ne hki] at hk
      exact h j k hj hk

/-- Thread `i` has updated the row of the namespace and has not committed. -/
def Updates (calls : List Reparenting) (n : String) (i : Nat) (pr : Progress) : Prop :=
  (∃ c, calls[i]? = some c ∧ c.1 = n) ∧ pr.replaced.isSome

/-- The database and the transactions in flight: each one has the identifier and the writes that its
progress says, and at most one of them has updated the row of a namespace. -/
structure Database.Tracks (d : Database) (calls : List Reparenting) (tr : List (Event txInterface)) :
    Prop where
  agrees : ∀ i c, calls[i]? = some c → (progressOf tr i).Agrees c d
  lt_nextTx : ∀ i t, (progressOf tr i).tx = some t → t < d.nextTx
  distinct : ∀ t i j, (progressOf tr i).tx = some t → (progressOf tr j).tx = some t → i = j
  locks : ∀ n i j, Updates calls n i (progressOf tr i) → Updates calls n j (progressOf tr j) → i = j

namespace Database.Tracks

/-- No transaction has begun. -/
theorem nil (d : Database) (calls : List Reparenting) : d.Tracks calls [] where
  agrees _ _ _ := trivial
  lt_nextTx _ _ ht := by cases ht
  distinct _ _ _ ht := by cases ht
  locks _ _ _ hi := by cases hi.2

/-- A statement that only changes what the database holds of its own transaction. -/
theorem step (h : d.Tracks calls tr) (hc : calls[i]? = some c) (hpr : progressOf tr i = pr)
    (hagrees : (pr.next op res).Agrees c d')
    (hframe : ∀ t, t < d.nextTx → pr.tx ≠ some t → d'.inFlight.get t = d.inFlight.get t)
    (hrows : ∀ n, (d.committed.namespaces.get n).isSome → (d'.committed.namespaces.get n).isSome)
    (hnext : d.nextTx ≤ d'.nextTx)
    (htx : ∀ t, (pr.next op res).tx = some t → pr.tx = some t ∨ d.nextTx ≤ t ∧ t < d'.nextTx)
    (hlocks : (pr.next op res).replaced.isSome →
      pr.replaced.isSome ∨ ∀ j, j ≠ i → ¬ Updates calls c.1 j (progressOf tr j)) :
    d'.Tracks calls (⟨i, op, res⟩ :: tr) where
  agrees j c' hc' := by
    rcases eq_or_ne j i with rfl | hj
    · cases hc.symm.trans hc'
      rwa [progressOf_cons_self, hpr]
    · rw [progressOf_cons_of_ne hj]
      refine (h.agrees j c' hc').frame (fun t ht => hframe t (h.lt_nextTx j t ht) fun hi => ?_) hrows
      exact hj (h.distinct t j i ht (hpr ▸ hi))
  lt_nextTx j t ht := by
    rcases eq_or_ne j i with rfl | hj
    · rw [progressOf_cons_self, hpr] at ht
      rcases htx t ht with hold | ⟨-, hlt⟩
      · exact (h.lt_nextTx j t (hpr ▸ hold)).trans_le hnext
      · exact hlt
    · rw [progressOf_cons_of_ne hj] at ht
      exact (h.lt_nextTx j t ht).trans_le hnext
  distinct t := by
    refine unique_progressOf_cons (P := fun _ pr => pr.tx = some t) (h.distinct t) fun ht j hj hjt => ?_
    rw [hpr] at ht
    rcases htx t ht with hold | ⟨hle, -⟩
    · exact hj (h.distinct t j i hjt (hpr ▸ hold))
    · exact absurd (h.lt_nextTx j t hjt) hle.not_gt
  locks n := by
    refine unique_progressOf_cons (P := Updates calls n) (h.locks n) ?_
    rintro ⟨⟨c', hc', rfl⟩, hreplaced⟩ j hj hupd
    cases hc.symm.trans hc'
    rw [hpr] at hreplaced
    rcases hlocks hreplaced with hold | hfree
    · exact hj (h.locks c.1 j i hupd ⟨⟨c, hc, rfl⟩, hpr ▸ hold⟩)
    · exact hfree j hj hupd

theorem step_setTx (h : d.Tracks calls tr) (hc : calls[i]? = some c) (hpr : progressOf tr i = pr)
    (htx : pr.tx = some t) (hd : d' = d ∨ ∃ x, d' = d.setTx t x) (hagrees : (pr.next op res).Agrees c d')
    (hnext : (pr.next op res).tx = pr.tx) (hlocks : (pr.next op res).replaced.isSome →
      pr.replaced.isSome ∨ ∀ j, j ≠ i → ¬ Updates calls c.1 j (progressOf tr j)) :
    d'.Tracks calls (⟨i, op, res⟩ :: tr) := by
  have hcommitted : d'.committed = d.committed ∧ d'.nextTx = d.nextTx := by
    rcases hd with rfl | ⟨x, rfl⟩ <;> exact ⟨rfl, rfl⟩
  refine h.step hc hpr hagrees (fun t' _ ht' => ?_) (fun n => hcommitted.1 ▸ id) hcommitted.2.ge
    (fun t' ht' => .inl (hnext ▸ ht')) hlocks
  rcases hd with rfl | ⟨x, rfl⟩
  · rfl
  · exact Dict.get_set_of_ne _ _ fun heq => ht' (heq ▸ htx)

theorem step_read (h : d.Tracks calls tr) (hc : calls[i]? = some c) (hpr : progressOf tr i = pr)
    (htx : pr.tx = some t) (hagrees : (pr.next op res).Agrees c d) (hnext : (pr.next op res).tx = pr.tx)
    (hnone : (pr.next op res).replaced = none) : d.Tracks calls (⟨i, op, res⟩ :: tr) := by
  refine h.step_setTx hc hpr htx (.inl rfl) hagrees hnext fun hsome => ?_
  rw [hnone] at hsome
  cases hsome

theorem step_end {s : Store} (h : d.Tracks calls tr) (hc : calls[i]? = some c) (hpr : progressOf tr i = pr)
    (htx : pr.tx = some t) (hend : pr.next op res = .done)
    (hrows : ∀ n, (d.committed.namespaces.get n).isSome → (s.namespaces.get n).isSome) :
    Tracks ⟨s, d.inFlight.delete t, d.nextTx⟩ calls (⟨i, op, res⟩ :: tr) := by
  refine h.step hc hpr ?_ (fun t' _ ht' => ?_) hrows le_rfl ?_ ?_
  · rw [hend]
    trivial
  · exact Dict.get_delete_of_ne _ fun heq => ht' (heq ▸ htx)
  · simp [hend, Progress.tx]
  · simp [hend, Progress.replaced]

theorem not_updates (h : d.Tracks calls tr) (htx : (progressOf tr i).tx = some t) (hlock : ¬ d.Locked t n) :
    ∀ j, j ≠ i → ¬ Updates calls n j (progressOf tr j) := by
  rintro j hj ⟨⟨c', hc', rfl⟩, hreplaced⟩
  obtain ⟨row, hrow⟩ := Option.isSome_iff_exists.mp hreplaced
  obtain ⟨t', ht', hmem, hwrite⟩ := (h.agrees j c' hc').holds hrow
  refine hlock ⟨t', hmem, ?_, hwrite⟩
  rintro rfl
  exact hj (h.distinct t' j i ht' htx)

/-- While a transaction has its audit row still to insert, no other one has inserted a row for the
namespace that is not committed. -/
theorem logged_eq_none (h : d.Tracks calls tr) (hc : calls[i]? = some c) (hpr : progressOf tr i = .written t row)
    (hc' : calls[j]? = some c') (hn : c'.1 = c.1) : (progressOf tr j).logged = none := by
  rw [Option.eq_none_iff_forall_ne_some]
  intro row' hrow'
  have hj : Updates calls c.1 j (progressOf tr j) :=
    ⟨⟨c', hc', hn⟩, by simp [Progress.replaced_of_logged hrow']⟩
  obtain rfl := h.locks c.1 j i hj ⟨⟨c, hc, rfl⟩, by simp [hpr, Progress.replaced]⟩
  simp [hpr, Progress.logged] at hrow'

end Database.Tracks

theorem Database.view_of_unwritten (h : d.inFlight.get t = some {}) : d.view t = d.committed := by
  simp [view, tx, h]

theorem Database.commit_eq {row : NamespaceRow}
    (h : d.inFlight.get t = some ⟨some (c.1, c.2.1), some (c.event row)⟩) :
    d.commit t = ⟨(d.committed.writeParent c.1 c.2.1).recordNamespaceParentEvent (c.event row),
      d.inFlight.delete t, d.nextTx⟩ := by
  simp [commit, view, tx, h]

/-- **What one statement keeps**, under its guard and when it does not have to wait. -/
theorem Database.Tracks.perform (h : d.Tracks calls tr) (hc : calls[i]? = some c)
    (hG : c.Guard (ownHistory tr i) op) (henabled : op.enabled d = true) :
    (d.perform op).2.Tracks calls (⟨i, op, (d.perform op).1⟩ :: tr) := by
  have hagrees := h.agrees i c hc
  cases op with
  | begin =>
    have hpr : progressOf tr i = .start := hG
    refine h.step hc hpr (Dict.get_set_self ..) (fun t ht _ => ?_) (fun _ => id) (Nat.le_succ _) ?_ ?_
    · exact Dict.get_set_of_ne _ _ ht.ne
    · rintro t ht
      cases ht
      exact .inr ⟨le_rfl, Nat.lt_succ_self _⟩
    · intro hlocks
      cases hlocks
  | getNamespace t id =>
    rcases hG with ⟨hpr, rfl⟩ | ⟨row, hpr⟩
    · change progressOf tr i = _ at hpr
      rw [hpr] at hagrees
      have hview : d.view t = d.committed := view_of_unwritten hagrees
      cases hget : d.committed.namespaces.get c.1 with
      | none =>
        simp only [Database.perform, hview, hget]
        exact h.step_read hc hpr rfl hagrees rfl rfl
      | some row =>
        simp only [Database.perform, hview, hget]
        exact h.step_read hc hpr rfl ⟨hagrees, by simp [hget]⟩ rfl rfl
    · change progressOf tr i = _ at hpr
      rw [hpr] at hagrees
      exact h.step_read hc hpr rfl hagrees rfl rfl
  | clearNamespaceParent t n =>
    obtain ⟨rfl, hq, row, hpr, -⟩ := hG
    change progressOf tr i = _ at hpr
    rw [hpr] at hagrees
    have hfree := h.not_updates (congrArg Progress.tx hpr) (by simpa [TxOp.enabled] using henabled)
    have htx : d.tx t = {} := by simp [tx, hagrees.1]
    simp only [Database.perform, view_of_unwritten hagrees.1, hagrees.2, if_true, htx]
    exact h.step_setTx hc hpr rfl (.inr ⟨_, rfl⟩) ⟨by simp [setTx, hq], hagrees.2⟩ rfl fun _ => .inr hfree
  | walkAncestors t p =>
    obtain ⟨row, hpr⟩ := hG
    change progressOf tr i = _ at hpr
    rw [hpr] at hagrees
    exact h.step_read hc hpr rfl hagrees rfl rfl
  | setNamespaceParent t n p ancestors =>
    obtain ⟨rfl, hq, row, hpr, -⟩ := hG
    change progressOf tr i = _ at hpr
    rw [hpr] at hagrees
    have hfree := h.not_updates (congrArg Progress.tx hpr) (by simpa [TxOp.enabled] using henabled)
    have htx : d.tx t = {} := by simp [tx, hagrees.1]
    by_cases hacc : (d.view t).AcceptsUpdate c.1 p ancestors
    · simp only [Database.perform, hacc, if_true, htx]
      exact h.step_setTx hc hpr rfl (.inr ⟨_, rfl⟩) ⟨by simp [setTx, hq], hagrees.2⟩ rfl fun _ => .inr hfree
    · simp only [Database.perform, hacc, if_false]
      exact h.step_read hc hpr rfl hagrees rfl rfl
  | recordNamespaceParentEvent t ev =>
    obtain ⟨row, hpr, rfl⟩ := hG
    change progressOf tr i = _ at hpr
    rw [hpr] at hagrees
    have htx : d.tx t = ⟨some (c.1, c.2.1), none⟩ := by simp [tx, hagrees.1]
    simp only [Database.perform, htx]
    exact h.step_setTx hc hpr rfl (.inr ⟨_, rfl⟩) ⟨by simp [setTx], hagrees.2⟩ rfl fun _ => .inl rfl
  | commit t =>
    obtain ⟨row, hpr⟩ := hG
    change progressOf tr i = _ at hpr
    rw [hpr] at hagrees
    simp only [Database.perform, commit_eq hagrees.1]
    exact h.step_end hc hpr rfl rfl fun n hn => by
      change ((d.committed.writeParent _ _).namespaces.get n).isSome
      rwa [Store.isSome_writeParent]
  | rollback t =>
    have htx : (progressOf tr i).tx = some t := by
      rcases hG with hpr | ⟨row, hpr⟩
      · exact congrArg Progress.tx hpr
      · exact congrArg Progress.tx hpr
    exact h.step_end hc rfl htx (Progress.next_rollback _ _) fun _ => id

/-! ## The log of one namespace -/

/-- The audit row of the namespace that a statement inserts. -/
def inserted (n : String) : Event txInterface → Option NamespaceParentEvent
  | ⟨_, .recordNamespaceParentEvent _ ev, _⟩ => if ev.namespaceID = n then some ev else none
  | _ => none

/-- The audit rows of the namespace ordered by their ids, which grow in the order of the insertions. -/
def insertedRows (n : String) (tr : List (Event txInterface)) : List NamespaceParentEvent :=
  (tr.filterMap (inserted n)).reverse

theorem insertedRows_cons (e : Event txInterface) :
    insertedRows n (e :: tr) = insertedRows n tr ++ (inserted n e).toList := by
  cases he : inserted n e <;> simp [insertedRows, he]

/-- An update that changes the row of the namespace finds in it the parent that its transaction has
read. -/
def Database.FindsParent (n : String) (d : Database) (tr : List (Event txInterface)) (i : Nat) :
    TxOp → Prop
  | .clearNamespaceParent t n' => n' = n → ∀ row, ⟨i, .getNamespace t n, some row⟩ ∈ tr →
      row.parentNamespaceID = d.committed.parentOf n
  | .setNamespaceParent t n' p ancestors => n' = n → (d.view t).AcceptsUpdate n p ancestors →
      ∀ row, ⟨i, .getNamespace t n, some row⟩ ∈ tr → row.parentNamespaceID = d.committed.parentOf n
  | _ => True

/-- The log of a namespace leads to its parent, the row that a transaction in flight has replaced is the
stored one, and all audit rows are in the log apart from the one of a transaction in flight. -/
structure Database.Logs (n : String) (d : Database) (calls : List Reparenting)
    (tr : List (Event txInterface)) : Prop where
  replays : Replays none (d.committed.auditLog n) (d.committed.parentOf n)
  replaced : ∀ i c row, calls[i]? = some c → c.1 = n → (progressOf tr i).replaced = some row →
    row.parentNamespaceID = d.committed.parentOf n
  pending : ∀ i c row, calls[i]? = some c → c.1 = n → (progressOf tr i).logged = some row →
    insertedRows n tr = d.committed.auditLog n ++ [c.event row]
  settled : (∀ i c, calls[i]? = some c → c.1 = n → (progressOf tr i).logged = none) →
    insertedRows n tr = d.committed.auditLog n

namespace Database.Logs

/-- No transaction has begun, and the namespace has just been created. -/
theorem nil (hcreated : d.committed.parentOf n = none) (hlog : d.committed.auditLog n = []) (calls : List Reparenting) :
    d.Logs n calls [] where
  replays := by
    rw [hlog]
    exact hcreated.symm
  replaced _ _ _ _ _ hrow := by cases hrow
  pending _ _ _ _ _ hrow := by cases hrow
  settled _ := hlog.symm

/-- A statement that leaves the log, the parent and the audit rows of the namespace alone. -/
theorem step (h : d.Logs n calls tr) (hc : calls[i]? = some c) (hpr : progressOf tr i = pr)
    (hlog : d'.committed.auditLog n = d.committed.auditLog n)
    (hparent : d'.committed.parentOf n = d.committed.parentOf n) (hrow : inserted n ⟨i, op, res⟩ = none)
    (hreplaced : c.1 = n → ∀ row, (pr.next op res).replaced = some row →
      pr.replaced = some row ∨ row.parentNamespaceID = d.committed.parentOf n)
    (hlogged : c.1 = n → (pr.next op res).logged = pr.logged) :
    d'.Logs n calls (⟨i, op, res⟩ :: tr) := by
  have hrows : insertedRows n (⟨i, op, res⟩ :: tr) = insertedRows n tr := by
    simp [insertedRows_cons, hrow]
  have hlogged' : ∀ j c', calls[j]? = some c' → c'.1 = n →
      (progressOf (⟨i, op, res⟩ :: tr) j).logged = (progressOf tr j).logged := by
    intro j c' hc' hn
    rcases eq_or_ne j i with rfl | hj
    · cases hc.symm.trans hc'
      rw [progressOf_cons_self, hpr, hlogged hn]
    · rw [progressOf_cons_of_ne hj]
  refine ⟨?_, fun j c' row hc' hn hj => ?_, fun j c' row hc' hn hj => ?_, fun hnone => ?_⟩
  · rw [hlog, hparent]
    exact h.replays
  · rw [hparent]
    rcases eq_or_ne j i with rfl | hji
    · cases hc.symm.trans hc'
      rw [progressOf_cons_self, hpr] at hj
      exact (hreplaced hn row hj).elim (fun hold => h.replaced j c row hc hn (hpr ▸ hold)) id
    · rw [progressOf_cons_of_ne hji] at hj
      exact h.replaced j c' row hc' hn hj
  · rw [hlogged' j c' hc' hn] at hj
    rw [hrows, hlog]
    exact h.pending j c' row hc' hn hj
  · rw [hrows, hlog]
    exact h.settled fun j c' hc' hn => (hlogged' j c' hc' hn) ▸ hnone j c' hc' hn

theorem step_read (h : d.Logs n calls tr) (hc : calls[i]? = some c) (hpr : progressOf tr i = pr)
    (hcommitted : d'.committed = d.committed) (hrow : inserted n ⟨i, op, res⟩ = none)
    (hnone : (pr.next op res).replaced = none) (hlogged : (pr.next op res).logged = pr.logged) :
    d'.Logs n calls (⟨i, op, res⟩ :: tr) := by
  refine h.step hc hpr (by rw [hcommitted]) (by rw [hcommitted]) hrow (fun _ row hsome => ?_) fun _ => hlogged
  rw [hnone] at hsome
  cases hsome

/-- A statement of the transaction that has updated the row: no other one has anything to say. -/
theorem step_holder (hd : d.Tracks calls tr) (hc : calls[i]? = some c) (hn : c.1 = n)
    (hpr : progressOf tr i = pr) (hholds : pr.replaced.isSome)
    (hreplays : Replays none (d'.committed.auditLog n) (d'.committed.parentOf n))
    (hreplaced : ∀ row, (pr.next op res).replaced = some row → row.parentNamespaceID = d'.committed.parentOf n)
    (hpending : ∀ row, (pr.next op res).logged = some row →
      insertedRows n (⟨i, op, res⟩ :: tr) = d'.committed.auditLog n ++ [c.event row])
    (hsettled : (pr.next op res).logged = none →
      insertedRows n (⟨i, op, res⟩ :: tr) = d'.committed.auditLog n) :
    d'.Logs n calls (⟨i, op, res⟩ :: tr) := by
  have honly : ∀ j c' row, calls[j]? = some c' → c'.1 = n →
      (progressOf (⟨i, op, res⟩ :: tr) j).replaced = some row → j = i := by
    intro j c' row hc' hn' hj
    by_contra hji
    rw [progressOf_cons_of_ne hji] at hj
    exact hji (hd.locks n j i ⟨⟨c', hc', hn'⟩, by simp [hj]⟩ ⟨⟨c, hc, hn⟩, hpr ▸ hholds⟩)
  have hself : progressOf (⟨i, op, res⟩ :: tr) i = pr.next op res := hpr ▸ progressOf_cons_self
  refine ⟨hreplays, fun j c' row hc' hn' hj => ?_, fun j c' row hc' hn' hj => ?_, fun hnone => ?_⟩
  · obtain rfl := honly j c' row hc' hn' hj
    exact hreplaced row (hself ▸ hj)
  · obtain rfl := honly j c' row hc' hn' (Progress.replaced_of_logged hj)
    cases hc.symm.trans hc'
    exact hpending row (hself ▸ hj)
  · exact hsettled (hself ▸ hnone i c hc hn)

/-- The insertion of the audit row of a transaction that has updated the row of its namespace. -/
theorem record (h : d.Logs n calls tr) (hd : d.Tracks calls tr) (hc : calls[i]? = some c)
    (hpr : progressOf tr i = .written t row) :
    (d.perform (.recordNamespaceParentEvent t (c.event row))).2.Logs n calls
      (⟨i, .recordNamespaceParentEvent t (c.event row), ()⟩ :: tr) := by
  by_cases hn : c.1 = n
  · have hrows : insertedRows n (⟨i, .recordNamespaceParentEvent t (c.event row), ()⟩ :: tr) =
        d.committed.auditLog n ++ [c.event row] := by
      rw [insertedRows_cons, h.settled fun j c' hc' hn' => hd.logged_eq_none hc hpr hc' (hn'.trans hn.symm)]
      simp [inserted, Reparenting.event, hn]
    refine step_holder hd hc hn hpr rfl h.replays (fun row' hrow' => ?_) (fun row' hrow' => ?_) ?_
    · cases hrow'
      exact h.replaced i c row hc hn (hpr ▸ rfl)
    · cases hrow'
      exact hrows
    · intro hnone
      cases hnone
  · exact h.step hc hpr rfl rfl (if_neg hn) (fun hn' => absurd hn' hn) fun hn' => absurd hn' hn

/-- The commit of a transaction that has inserted its audit row. -/
theorem commit (h : d.Logs n calls tr) (hd : d.Tracks calls tr) (hc : calls[i]? = some c)
    (hpr : progressOf tr i = .recorded t row) : (d.commit t).Logs n calls (⟨i, .commit t, ()⟩ :: tr) := by
  have hagrees := hd.agrees i c hc
  rw [hpr] at hagrees
  rw [commit_eq hagrees.1]
  have hparent : ∀ m, (d.committed.writeParent c.1 c.2.1).parentOf m =
      Function.update d.committed.parentOf c.1 c.2.1 m :=
    fun m => congrFun (Store.parentOf_writeParent hagrees.2 _) m
  have hlog := d.committed.auditLog_record_writeParent c.1 n c.2.1 (c.event row)
  rw [show (c.event row).namespaceID = c.1 from rfl] at hlog
  by_cases hn : c.1 = n
  · subst hn
    rw [if_pos rfl] at hlog
    have hself := (hparent c.1).trans (Function.update_self ..)
    refine step_holder hd hc rfl hpr rfl ?_ (fun _ hrow => by cases hrow) (fun _ hrow => by cases hrow) fun _ => ?_
    · -- the row records the parent that was read, and the update has found it
      have hreplays := h.replays.concat (c.event row) (h.replaced i c row hc rfl (hpr ▸ rfl))
      rw [hlog]
      exact hself.symm ▸ hreplays
    · rw [hlog, insertedRows_cons]
      exact (List.append_nil _).trans (h.pending i c row hc rfl (hpr ▸ rfl))
  · rw [if_neg hn, List.append_nil] at hlog
    refine h.step hc hpr hlog ((hparent n).trans ?_) rfl (fun hn' => absurd hn' hn) fun hn' => absurd hn' hn
    exact Function.update_of_ne (Ne.symm hn) _ _

/-- **What one statement keeps of the log**, when an update finds the parent that was read. -/
theorem perform (h : d.Logs n calls tr) (hd : d.Tracks calls tr) (hc : calls[i]? = some c)
    (hG : c.Guard (ownHistory tr i) op) (hfinds : d.FindsParent n tr i op) :
    (d.perform op).2.Logs n calls (⟨i, op, (d.perform op).1⟩ :: tr) := by
  have hagrees := hd.agrees i c hc
  cases op with
  | begin =>
    have hpr : progressOf tr i = .start := hG
    exact h.step_read hc hpr rfl rfl rfl rfl
  | getNamespace t id =>
    rcases hG with ⟨hpr, rfl⟩ | ⟨row, hpr⟩
    · change progressOf tr i = _ at hpr
      cases hget : (d.view t).namespaces.get c.1 with
      | none =>
        simp only [Database.perform, hget]
        exact h.step_read hc hpr rfl rfl rfl rfl
      | some row =>
        simp only [Database.perform, hget]
        exact h.step_read hc hpr rfl rfl rfl rfl
    · change progressOf tr i = _ at hpr
      exact h.step_read hc hpr rfl rfl rfl rfl
  | clearNamespaceParent t n' =>
    obtain ⟨rfl, hq, row, hpr, hread⟩ := hG
    change progressOf tr i = _ at hpr
    rw [hpr] at hagrees
    simp only [Database.perform, view_of_unwritten hagrees.1, hagrees.2, if_true]
    refine h.step hc hpr rfl rfl rfl (fun hn row' hrow' => .inr ?_) fun _ => rfl
    cases hrow'
    exact hfinds hn row (hn ▸ mem_ownHistory.mp hread)
  | walkAncestors t p =>
    obtain ⟨row, hpr⟩ := hG
    exact h.step_read hc hpr rfl rfl rfl rfl
  | setNamespaceParent t n' p ancestors =>
    obtain ⟨rfl, hq, row, hpr, hread⟩ := hG
    change progressOf tr i = _ at hpr
    by_cases hacc : (d.view t).AcceptsUpdate c.1 p ancestors
    · simp only [Database.perform, hacc, if_true]
      refine h.step hc hpr rfl rfl rfl (fun hn row' hrow' => .inr ?_) fun _ => rfl
      cases hrow'
      exact hfinds hn (hn ▸ hacc) row (hn ▸ mem_ownHistory.mp hread)
    · simp only [Database.perform, hacc, if_false]
      exact h.step_read hc hpr rfl rfl rfl rfl
  | recordNamespaceParentEvent t ev =>
    obtain ⟨row, hpr, rfl⟩ := hG
    exact h.record hd hc hpr
  | commit t =>
    obtain ⟨row, hpr⟩ := hG
    exact h.commit hd hc hpr
  | rollback t =>
    have hnone : (progressOf tr i).logged = none := by
      rcases hG with hpr | ⟨row, hpr⟩
      · exact congrArg Progress.logged hpr
      · exact congrArg Progress.logged hpr
    refine h.step hc rfl rfl rfl rfl (fun _ row hrow => ?_) fun _ => ?_
    · rw [Progress.next_rollback] at hrow
      cases hrow
    · rw [Progress.next_rollback, hnone]
      rfl

end Database.Logs

theorem reparentingPool_guarded (d : Database) (calls : List Reparenting) :
    (reparentingPool d calls).Guarded (fun i h op => ∃ c, calls[i]? = some c ∧ c.Guard h op)
      fun _ _ h => progress h = .done := by
  intro i x hx
  rw [reparentingPool, List.getElem?_map, Option.map_eq_some_iff] at hx
  obtain ⟨c, hc, rfl⟩ := hx
  exact Prog.Contract.weaken (fun h op hG => ⟨c, hc, hG⟩) (spec_setNamespaceParent c)

end

/-- **The log of a namespace replays to its stored parent**: for every interleaving of re-parenting
transactions in which each update of the namespace finds the parent that its transaction has read, after
all of them have ended. The audit rows are ordered by their ids, and they are the committed ones. -/
theorem auditLog_replays {d : Database} {calls : List Reparenting} {n : String}
    {p : Pool txInterface (Except Err Unit) Database} (hcreated : d.committed.parentOf n = none)
    (hlog : d.committed.auditLog n = [])
    (h : Pool.Reach (Pool.Executes TxOp.enabled Database.perform) (Database.FindsParent n)
      (reparentingPool d calls) p) (hfin : p.Finished) :
    p.state.committed.auditLog n = insertedRows n p.trace ∧
      Replays none (insertedRows n p.trace) (p.state.committed.parentOf n) := by
  have hinit : d.Tracks calls [] ∧ d.Logs n calls [] := ⟨.nil d calls, .nil hcreated hlog calls⟩
  obtain ⟨hguarded, htracks, hlogs⟩ := Pool.Reach.invariant
    (J := fun d tr => d.Tracks calls tr ∧ d.Logs n calls tr) (reparentingPool_guarded d calls) hinit
    (fun {d tr i op r d'} hJ hG hR hok => by
      obtain ⟨hd, hl⟩ := hJ
      obtain ⟨c, hc, hG⟩ := hG
      obtain ⟨henabled, heq⟩ := hR
      have hd' := hd.perform hc hG henabled
      have hl' := hl.perform hd hc hG hok
      rw [heq] at hd' hl'
      exact ⟨hd', hl'⟩) h
  have hended : ∀ i, (progressOf p.trace i).logged = none := by
    intro i
    cases hthread : p.threads[i]? with
    | none => rw [progressOf, h.ownHistory_eq_nil rfl hthread]; rfl
    | some x =>
      obtain ⟨a, rfl⟩ := hfin x (List.mem_of_getElem? hthread)
      have hdone : progressOf p.trace i = .done := hguarded i _ hthread
      rw [hdone]
      rfl
  have hrows := hlogs.settled fun i _ _ _ => hended i
  exact ⟨hrows.symm, hrows ▸ hlogs.replays⟩

/-- `FindsParent` as a computation. -/
def Database.finds (n : String) (d : Database) (tr : List (Event txInterface)) (i : Nat) : TxOp → Bool
  | .clearNamespaceParent t _ | .setNamespaceParent t .. => tr.all fun
    | ⟨j, .getNamespace t' n', some row⟩ =>
      (j = i ∧ t' = t ∧ n' = n) → row.parentNamespaceID = d.committed.parentOf n
    | _ => true
  | _ => true

theorem Database.findsParent_of_finds {d : Database} (h : d.finds n tr i op = true) : d.FindsParent n tr i op := by
  cases op with
  | clearNamespaceParent t n' =>
    intro _ row hrow
    have hfound := List.all_eq_true.mp h _ hrow
    simpa using hfound
  | setNamespaceParent t n' p ancestors =>
    intro _ _ row hrow
    have hfound := List.all_eq_true.mp h _ hrow
    simpa using hfound
  | _ => trivial

/-- Three transactions are in flight at once. Two of them set and clear the parent of `a`, and the second one
reads the row after the first one has committed. -/
theorem auditLog_replays_overlapping :
    ∃ p, Pool.Reach (Pool.Executes TxOp.enabled Database.perform) (Database.FindsParent "a")
      (reparentingPool (roots ["a", "b"]) [("a", some "b", "x"), ("a", none, "y"), ("b", none, "z")]) p ∧
      p.Finished ∧ insertedRows "a" p.trace = [⟨"a", none, some "b", "x"⟩, ⟨"a", some "b", none, "y"⟩] ∧
      p.state.committed.auditLog "a" = insertedRows "a" p.trace ∧
      Replays none (insertedRows "a" p.trace) (p.state.committed.parentOf "a") := by
  have hrun : ∃ p, Pool.Reach (Pool.Executes TxOp.enabled Database.perform) (Database.FindsParent "a")
      (reparentingPool (roots ["a", "b"]) [("a", some "b", "x"), ("a", none, "y"), ("b", none, "z")]) p ∧ p.Finished ∧
      insertedRows "a" p.trace = [⟨"a", none, some "b", "x"⟩, ⟨"a", some "b", none, "y"⟩] :=
    Pool.exists_reach [1, 2, 0, 0, 0, 0, 2, 2, 0, 2, 0, 0, 1, 1, 1, 2, 1]
      (.mono Database.findsParent_of_finds (by decide +kernel)) ⟨_, rfl, Pool.finished_iff.mpr rfl, rfl⟩
  obtain ⟨p, hreach, hfin, hrows⟩ := hrun
  obtain ⟨hlog, hreplays⟩ := auditLog_replays (parentOf_roots ..) rfl hreach hfin
  exact ⟨p, hreach, hfin, hrows, hlog, hreplays⟩

/-- A transaction reads the row, another one replaces the parent and commits, and the first one records
the parent that it has read. -/
theorem auditLog_stale :
    (roots ["a", "b"]).committed.parentOf "a" = none ∧ (roots ["a", "b"]).committed.auditLog "a" = [] ∧
    ∃ p, Pool.Reach (Pool.Executes TxOp.enabled Database.perform) (fun _ _ _ _ => True)
      (reparentingPool (roots ["a", "b"]) [("a", some "b", "x"), ("a", none, "y")]) p ∧
      p.Finished ∧ insertedRows "a" p.trace = [⟨"a", none, some "b", "x"⟩, ⟨"a", none, none, "y"⟩] ∧
      p.state.committed.auditLog "a" = insertedRows "a" p.trace ∧
      ¬ Replays none (insertedRows "a" p.trace) (p.state.committed.parentOf "a") := by
  refine ⟨rfl, rfl, Pool.exists_reach [1, 1, 0, 0, 0, 0, 0, 0, 0, 1, 1, 1] (Pool.along_true _ _ _)
    ⟨_, rfl, Pool.finished_iff.mpr rfl, rfl, rfl, ?_⟩⟩
  change ¬ Replays none [⟨"a", none, some "b", "x"⟩, ⟨"a", none, none, "y"⟩] _
  simp [Replays]

end ProtoRegistry
