import ProtoRegistry.Model.Snapshot
import ProtoRegistry.Theory.Dict

/-!
# The in-memory namespaces

`namespace.Registry` holds one `Namespace` object for each ID and never drops one, so the ID stands for
the object. A read or a write of one atomic pointer is one operation; `Promote` and `DiscardStaging`,
which visit the slots one after another, are programs over these operations. Beside other calls a
`Range` over the slots may also come to slots that are made after it has begun: `Namespaces.Visits` says
which keys it can visit.
-/

namespace ProtoRegistry

/-- `schemaSlot`. -/
structure SchemaSlot where
  current : Option Snapshot
  staged : Option Snapshot

structure Namespace where
  parent : Option String
  schemas : Dict String SchemaSlot

/-- `namespace.Registry`. -/
structure Namespaces where
  namespaces : Dict String Namespace

namespace Namespaces

def empty : Namespaces := ⟨.empty⟩

def slot (m : Namespaces) (id schemaID : String) : Option SchemaSlot :=
  (m.namespaces.get id).bind (·.schemas.get schemaID)

def current (m : Namespaces) (id schemaID : String) : Option Snapshot :=
  (m.slot id schemaID).bind (·.current)

def staged (m : Namespaces) (id schemaID : String) : Option Snapshot :=
  (m.slot id schemaID).bind (·.staged)

def parent (m : Namespaces) (id : String) : Option String :=
  (m.namespaces.get id).bind (·.parent)

/-- The keys of the slots of a namespace, which a `Range` visits when no other call makes a slot. -/
def schemaIDs (m : Namespaces) (id : String) : List String :=
  match m.namespaces.get id with
  | none => []
  | some ns => ns.schemas.keys

/-- The keys a `Range` over the slots of a namespace can visit: each slot that is there when it begins,
none of them twice, and in any place slots that are made while it goes on. -/
def Visits (m : Namespaces) (id : String) (visited : List String) : Prop :=
  visited.Nodup ∧ ∀ schemaID ∈ m.schemaIDs id, schemaID ∈ visited

def getOrCreate (m : Namespaces) (id : String) : Namespaces :=
  match m.namespaces.get id with
  | none => ⟨m.namespaces.set id ⟨none, .empty⟩⟩
  | some _ => m

/-- Write to the object of a namespace. The callers hold a pointer to it, so it exists. -/
def modify (m : Namespaces) (id : String) (f : Namespace → Namespace) : Namespaces :=
  match m.namespaces.get id with
  | none => m
  | some ns => ⟨m.namespaces.set id (f ns)⟩

def setParent (m : Namespaces) (id : String) (parent : Option String) : Namespaces :=
  m.modify id fun ns => { ns with parent }

/-- Write to a slot, created empty by `getOrCreateSlot` when it is missing. -/
def modifySlot (m : Namespaces) (id schemaID : String) (f : SchemaSlot → SchemaSlot) : Namespaces :=
  m.modify id fun ns =>
    { ns with schemas := ns.schemas.set schemaID (f ((ns.schemas.get schemaID).getD ⟨none, none⟩)) }

def setCurrent (m : Namespaces) (id schemaID : String) (snap : Option Snapshot) : Namespaces :=
  m.modifySlot id schemaID fun slot => { slot with current := snap }

def setStaged (m : Namespaces) (id schemaID : String) (snap : Option Snapshot) : Namespaces :=
  m.modifySlot id schemaID fun slot => { slot with staged := snap }

/-- Clear the staged snapshot of the slot that a `Range` has come to. A key that has no slot when its turn
comes is not visited. -/
def clearStaged (m : Namespaces) (id schemaID : String) : Namespaces :=
  m.modify id fun ns =>
    match ns.schemas.get schemaID with
    | none => ns
    | some slot => { ns with schemas := ns.schemas.set schemaID { slot with staged := none } }

end Namespaces

/-- The operations on the in-memory namespaces. -/
inductive MemOp where
  /-- `Registry.Get(id) != nil`. -/
  | get (id : String)
  | getOrCreate (id : String)
  /-- `parent.Load()`. -/
  | parent (id : String)
  | setParent (id : String) (parent : Option String)
  /-- The keys that a `Range` over the slots visits. -/
  | schemaIDs (id : String)
  | current (id schemaID : String)
  | staged (id schemaID : String)
  | setCurrent (id schemaID : String) (snap : Snapshot)
  | setStaged (id schemaID : String) (snap : Snapshot)
  /-- `slot.staged.Swap(nil)` on the slot a `Range` has come to. -/
  | swapStaged (id schemaID : String)
  /-- `slot.current.Store(staged)`. -/
  | storeCurrent (id schemaID : String) (snap : Snapshot)
  /-- `slot.staged.Store(nil)` on the slot a `Range` has come to. -/
  | clearStaged (id schemaID : String)

abbrev MemOp.Val : MemOp → Type
  | .get _ => Bool
  | .parent _ => Option String
  | .schemaIDs _ => List String
  | .current .. | .staged .. | .swapStaged .. | .setCurrent .. => Option Snapshot
  | .getOrCreate _ | .setParent .. | .setStaged .. | .storeCurrent .. | .clearStaged .. => Unit

def Namespaces.perform : (op : MemOp) → Namespaces → op.Val × Namespaces
  | .get id, m => ((m.namespaces.get id).isSome, m)
  | .getOrCreate id, m => ((), m.getOrCreate id)
  | .parent id, m => (m.parent id, m)
  | .setParent id p, m => ((), m.setParent id p)
  | .schemaIDs id, m => (m.schemaIDs id, m)
  | .current id sc, m => (m.current id sc, m)
  | .staged id sc, m => (m.staged id sc, m)
  | .setCurrent id sc snap, m => (m.current id sc, m.setCurrent id sc snap)
  | .setStaged id sc snap, m => ((), m.setStaged id sc snap)
  | .swapStaged id sc, m => (m.staged id sc, m.clearStaged id sc)
  | .storeCurrent id sc snap, m => ((), m.setCurrent id sc snap)
  | .clearStaged id sc, m => ((), m.clearStaged id sc)

end ProtoRegistry
