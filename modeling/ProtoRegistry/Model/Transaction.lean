import ProtoRegistry.Model.Store
import ProtoRegistry.Theory.Fallible

/-!
# Re-parenting, statement by statement

`Store.SetNamespaceParent` of the PostgreSQL store as its sequence of SQL statements in one
transaction, under READ COMMITTED: a statement reads the rows that are committed when it starts and the
transaction's own write, and an update of a row waits while another transaction in flight has written
it. The update of the parent is therefore two steps: it walks the ancestors when it starts, and it
checks and writes the row when it has the lock. What it has waited for is in the row and not in the walk.
-/

namespace ProtoRegistry

/-- A transaction in flight: the row it has updated and the audit row it has inserted. -/
structure Tx where
  write : Option (String × Option String) := none
  event : Option NamespaceParentEvent := none

structure Database where
  committed : Store
  inFlight : Dict Nat Tx
  nextTx : Nat

namespace Database

def tx (d : Database) (t : Nat) : Tx := (d.inFlight.get t).getD {}

def view (d : Database) (t : Nat) : Store :=
  match (d.tx t).write with
  | none => d.committed
  | some (n, q) => d.committed.writeParent n q

def setTx (d : Database) (t : Nat) (x : Tx) : Database := { d with inFlight := d.inFlight.set t x }

/-- A transaction in flight other than `t` has written the row. -/
def Locked (d : Database) (t : Nat) (n : String) : Prop :=
  ∃ t' ∈ d.inFlight.keys, t' ≠ t ∧ (d.tx t').write.map (·.1) = some n

instance : Decidable (Locked d t n) :=
  inferInstanceAs (Decidable (∃ t' ∈ d.inFlight.keys, _ ∧ _))

/-- The effects of a transaction become visible together. -/
def commit (d : Database) (t : Nat) : Database :=
  let s := d.view t
  { d with
    committed := match (d.tx t).event with
      | none => s
      | some ev => s.recordNamespaceParentEvent ev
    inFlight := d.inFlight.delete t }

end Database

/-- The statements of the transaction. -/
inductive TxOp where
  | begin
  | getNamespace (t : Nat) (id : String)
  | clearNamespaceParent (t : Nat) (namespaceID : String)
  /-- The recursive part of the query `SetNamespaceParent`. -/
  | walkAncestors (t : Nat) (newParentID : String)
  /-- Its update, with the ancestors found. -/
  | setNamespaceParent (t : Nat) (namespaceID newParentID : String) (ancestors : List String)
  | recordNamespaceParentEvent (t : Nat) (ev : NamespaceParentEvent)
  | commit (t : Nat)
  | rollback (t : Nat)

/-- An update returns whether it has changed a row. -/
abbrev TxOp.Res : TxOp → Type
  | .begin => Nat
  | .getNamespace .. => Option NamespaceRow
  | .walkAncestors .. => List String
  | .clearNamespaceParent .. | .setNamespaceParent .. => Bool
  | .recordNamespaceParentEvent .. | .commit _ | .rollback _ => Unit

abbrev txInterface : Interface := ⟨TxOp, TxOp.Res⟩

/-- An update waits for the lock on its row. -/
def TxOp.enabled : TxOp → Database → Bool
  | .clearNamespaceParent t n, d | .setNamespaceParent t n .., d => ¬ d.Locked t n
  | _, _ => true

def Database.perform : (op : TxOp) → Database → op.Res × Database
  | .begin, d => (d.nextTx, { d.setTx d.nextTx {} with nextTx := d.nextTx + 1 })
  | .getNamespace t id, d => ((d.view t).namespaces.get id, d)
  | .clearNamespaceParent t n, d =>
    if ((d.view t).namespaces.get n).isSome then
      (true, d.setTx t { d.tx t with write := some (n, none) })
    else (false, d)
  | .walkAncestors t p, d => ((d.view t).ancestors Store.maxDepth p, d)
  | .setNamespaceParent t n p ancestors, d =>
    if (d.view t).AcceptsUpdate n p ancestors then
      (true, d.setTx t { d.tx t with write := some (n, some p) })
    else (false, d)
  | .recordNamespaceParentEvent t ev, d => ((), d.setTx t { d.tx t with event := some ev })
  | .commit t, d => ((), d.commit t)
  | .rollback t, d => ((), { d with inFlight := d.inFlight.delete t })

abbrev TxM := ExceptT Err (Prog txInterface)

namespace TxM

def statement (op : TxOp) : TxM op.Res := ExceptT.lift (Prog.perform (I := txInterface) op)

@[simp] theorem execute_statement (op : TxOp) (d : Database) :
    @execute _ _ (no_index op.Res) _ Database.perform (statement op) d =
      (.ok (d.perform op).1, (d.perform op).2) := rfl

/-- Return an error; the deferred `Rollback` runs before. -/
def abort (t : Nat) (e : Err) : TxM α := do
  statement (.rollback t)
  throw e

/-- The update of the parent column, or the error that ends the transaction. -/
def updateParent (t : Nat) (namespaceID : String) : Option String → TxM Unit
  | none => do
    let _ ← statement (.clearNamespaceParent t namespaceID)
  | some p => do
    let some _ ← statement (.getNamespace t p) | abort t errNamespaceNotFound
    let ancestors ← statement (.walkAncestors t p)
    unless ← statement (.setNamespaceParent t namespaceID p ancestors) do abort t errParentCycle

def setNamespaceParent (namespaceID : String) (parentID : Option String) (actorID : String) :
    TxM Unit := do
  let t ← statement .begin
  let some existing ← statement (.getNamespace t namespaceID) | abort t errNamespaceNotFound
  updateParent t namespaceID parentID
  statement (.recordNamespaceParentEvent t
    ⟨namespaceID, existing.parentNamespaceID, parentID, actorID⟩)
  statement (.commit t)

end TxM

end ProtoRegistry
