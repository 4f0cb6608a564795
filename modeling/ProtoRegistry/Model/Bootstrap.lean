import ProtoRegistry.Model.Load

/-!
# The built-ins bootstrap

On startup `serve` publishes the files of a directory to the namespace of the built-ins, one after the other, and
promotes the namespace.
-/

namespace ProtoRegistry
open RegistryM

/-- The function that `LoadBuiltIns` calls for each entry. -/
def loadBuiltIn (entry : Except String Ctl.DirEntry) : Except String (Option DepSource) := do
  let d ← entry
  if d.isDir ∨ ¬ ".proto".toList <:+ d.path.toList then return none
  let content ← d.content.mapError fun e => "reading " ++ d.path ++ ": " ++ e
  let rel ← d.rel.mapError fun e => "computing relative path for " ++ d.path ++ ": " ++ e
  return some ⟨"", "", 0, rel, content⟩

def loadBuiltIns (ext : Ctl.LoadExternal) (dir : String) : Except String (List DepSource) :=
  match (ext.walkDir dir).mapM loadBuiltIn with
  | .error e => .error ("walking builtins directory " ++ dir ++ ": " ++ e)
  | .ok found => .ok found.reduceOption

def builtinsSchema : String := "builtins"

/-- The request that publishes a built-in. -/
def builtInRequest (b : DepSource) : PublishRequest where
  namespaceID := builtinsNamespace
  schemaID := builtinsSchema
  sources := Dict.empty.set b.filename b.source

namespace Registry

/-- One round of the loop over the built-ins. -/
def publishBuiltIn (r : Registry) (b : DepSource) : RegistryM Unit := do
  let _ ← (r.publish (builtInRequest b)).wrap ("publishing built-in " ++ b.filename)

/-- The bootstrap of `serve` from a directory. -/
def bootstrap (r : Registry) (ext : Ctl.LoadExternal) (builtInsDir : String) : RegistryM Unit := do
  if builtInsDir ≠ "" then
    let builtins ← liftExcept <| (loadBuiltIns ext builtInsDir).mapError fun e =>
      ({ text := "loading built-ins from " ++ builtInsDir ++ ": " ++ e } : Err)
    builtins.forM r.publishBuiltIn
    let _ ← (r.promote builtinsNamespace).wrap "promoting built-ins"

end Registry

end ProtoRegistry
