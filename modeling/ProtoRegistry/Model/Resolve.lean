import ProtoRegistry.Model.NsRegistry
import ProtoRegistry.Model.Registry

/-!
# Reading the current snapshots of a namespace

`Namespace.AllCurrent`, and `resolve.Resolver`, which looks files, descriptors and message types up in the
current snapshots of the namespaces of a chain. Go leaves open in which order a `sync.Map` is visited and a
map is iterated. Both orders are parameters.
-/

namespace ProtoRegistry
open RegistryM

/-! ## Lookups in one snapshot -/

namespace Snapshot

/-- `Files().FindDescriptorByName`. -/
def findDescriptorByName (s : Snapshot) (name : FullName) : Option Descriptor :=
  (s.fileList.flatMap (·.descriptors)).find? (·.fullName = name)

/-- `Types().FindMessageByName`. -/
def findMessageByName (s : Snapshot) (name : FullName) : Option MessageDescriptor :=
  (s.fileList.flatMap (·.types)).findSome? fun
    | .message m => if m.fullName = name then some m else none
    | _ => none

end Snapshot

/-! ## Lookups in a namespace chain -/

/-- `Namespace.AllCurrent`, whose `Range` visits the slots in the given order. -/
def allCurrent (namespaceID : String) (order : List String) : RegistryM (Dict String Snapshot) := do
  let entries ← order.mapM fun schemaID => do
    return (← mem (.current namespaceID schemaID)).map (schemaID, ·)
  return .ofAssignments (entries.filterMap id)

/-- The two loops of the `Find…WithOrigin` methods. The map of the namespace `a` is iterated in the order
`order a`. -/
def findInTiers (find : Snapshot → Option α) (order : String → List String) :
    List String → RegistryM (Except LookupErr (α × String))
  | [] => return .error .notFound
  | namespaceID :: rest => do
    let snaps ← allCurrent namespaceID (← mem (.schemaIDs namespaceID))
    match (order namespaceID).findSome? fun schemaID => (snaps.get schemaID).bind find with
    | some a => return .ok (a, namespaceID)
    | none => findInTiers find order rest

def findWithOrigin (find : Snapshot → Option α) (order : String → List String) (namespaceID : String) :
    RegistryM (Except LookupErr (α × String)) := do
  findInTiers find order (← chain namespaceID)

namespace Resolver

variable (order : String → List String) (namespaceID : String)

def findFileByPathWithOrigin (path : String) : RegistryM (Except LookupErr (FileDescriptor × String)) :=
  findWithOrigin (·.findFileByPath path) order namespaceID

def findDescriptorByNameWithOrigin (name : FullName) : RegistryM (Except LookupErr (Descriptor × String)) :=
  findWithOrigin (·.findDescriptorByName name) order namespaceID

def findMessageByNameWithOrigin (name : FullName) : RegistryM (Except LookupErr (MessageDescriptor × String)) :=
  findWithOrigin (·.findMessageByName name) order namespaceID

def findFileByPath (path : String) : RegistryM (Except LookupErr FileDescriptor) := do
  return (← findFileByPathWithOrigin order namespaceID path).map Prod.fst

def findDescriptorByName (name : FullName) : RegistryM (Except LookupErr Descriptor) := do
  return (← findDescriptorByNameWithOrigin order namespaceID name).map Prod.fst

def findMessageByName (name : FullName) : RegistryM (Except LookupErr MessageDescriptor) := do
  return (← findMessageByNameWithOrigin order namespaceID name).map Prod.fst

end Resolver

end ProtoRegistry
