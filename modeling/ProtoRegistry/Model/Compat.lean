import ProtoRegistry.Model.Snapshot

/-!
# Backward compatibility

`compat.Check` walks the descriptors of an old snapshot and looks each of them up in a new one. The
result is the list of violations; `Result.OK` is its emptiness. Whether it is empty does not depend on
the order in which the files are listed (`Compat.ok_perm`).
-/

namespace ProtoRegistry.Compat

/-- A single backward compatibility violation. -/
structure Violation where
  file : String
  path : String
  rule : String
  message : String
  deriving DecidableEq, Repr

/-- `Violation.Error`. -/
def Violation.error (v : Violation) : String :=
  v.rule ++ ": " ++ v.message ++ " at " ++ v.path ++ " (" ++ v.file ++ ")"

/-- `Result.Error`: all violations as one text. -/
def errorText (vs : List Violation) : String :=
  if vs.isEmpty then "" else
    vs.foldl (fun s v => s ++ "\n  - " ++ v.error)
      (toString vs.length ++ " compatibility violation(s):")

def checkField (file : FileDescriptor) (msg : FullName) (oldField : FieldDescriptor)
    (newFields : List FieldDescriptor) : List Violation :=
  match newFields.find? (·.number = oldField.number) with
  | none => [{
      file := file.path
      path := oldField.fullName.toText
      rule := "FIELD_NO_DELETE"
      message := "field " ++ oldField.fullName.name ++ " (number " ++ toString oldField.number ++
        ") was removed from " ++ msg.toText }]
  | some newField =>
    (if oldField.kind ≠ newField.kind then [{
      file := file.path
      path := oldField.fullName.toText
      rule := "FIELD_SAME_TYPE"
      message := "field " ++ oldField.fullName.name ++ " changed type from " ++
        oldField.kind.toText ++ " to " ++ newField.kind.toText }] else []) ++
    (if oldField.fullName.name ≠ newField.fullName.name then [{
      file := file.path
      path := oldField.fullName.toText
      rule := "FIELD_SAME_NAME"
      message := "field number " ++ toString oldField.number ++ " renamed from " ++
        oldField.fullName.name ++ " to " ++ newField.fullName.name }] else []) ++
    (if oldField.cardinality ≠ newField.cardinality then [{
      file := file.path
      path := oldField.fullName.toText
      rule := "FIELD_SAME_CARDINALITY"
      message := "field " ++ oldField.fullName.name ++ " changed cardinality from " ++
        oldField.cardinality.toText ++ " to " ++ newField.cardinality.toText }] else []) ++
    (if oldField.kind = .message ∧ newField.kind = .message ∧
        oldField.message ≠ newField.message then [{
      file := file.path
      path := oldField.fullName.toText
      rule := "FIELD_SAME_MESSAGE_TYPE"
      message := "field " ++ oldField.fullName.name ++ " changed message type from " ++
        oldField.message.toText ++ " to " ++ newField.message.toText }] else []) ++
    (if oldField.kind = .enum ∧ newField.kind = .enum ∧ oldField.enum ≠ newField.enum then [{
      file := file.path
      path := oldField.fullName.toText
      rule := "FIELD_SAME_ENUM_TYPE"
      message := "field " ++ oldField.fullName.name ++ " changed enum type from " ++
        oldField.enum.toText ++ " to " ++ newField.enum.toText }] else [])

def checkEnum (file : FileDescriptor) (oldEnum : EnumDescriptor) (newEnums : List EnumDescriptor) :
    List Violation :=
  match newEnums.find? (·.fullName.name = oldEnum.fullName.name) with
  | none => [{
      file := file.path
      path := oldEnum.fullName.toText
      rule := "ENUM_NO_DELETE"
      message := "enum " ++ oldEnum.fullName.name ++ " was removed" }]
  | some newEnum => oldEnum.values.flatMap fun oldVal =>
    match newEnum.values.find? (·.number = oldVal.number) with
    | none => [{
        file := file.path
        path := oldVal.fullName.toText
        rule := "ENUM_VALUE_NO_DELETE"
        message := "enum value " ++ oldVal.fullName.name ++ " (number " ++ toString oldVal.number ++
          ") was removed from " ++ oldEnum.fullName.toText }]
    | some _ => []

def checkMethod (file : FileDescriptor) (oldSvc : ServiceDescriptor) (oldMethod : MethodDescriptor)
    (newMethods : List MethodDescriptor) : List Violation :=
  match newMethods.find? (·.fullName.name = oldMethod.fullName.name) with
  | none => [{
      file := file.path
      path := oldMethod.fullName.toText
      rule := "METHOD_NO_DELETE"
      message := "method " ++ oldMethod.fullName.name ++ " was removed from " ++
        oldSvc.fullName.toText }]
  | some newMethod =>
    (if oldMethod.input ≠ newMethod.input then [{
      file := file.path
      path := oldMethod.fullName.toText
      rule := "METHOD_SAME_INPUT_TYPE"
      message := "method " ++ oldMethod.fullName.name ++ " changed input type from " ++
        oldMethod.input.toText ++ " to " ++ newMethod.input.toText }] else []) ++
    (if oldMethod.output ≠ newMethod.output then [{
      file := file.path
      path := oldMethod.fullName.toText
      rule := "METHOD_SAME_OUTPUT_TYPE"
      message := "method " ++ oldMethod.fullName.name ++ " changed output type from " ++
        oldMethod.output.toText ++ " to " ++ newMethod.output.toText }] else [])

def checkService (file : FileDescriptor) (oldSvc : ServiceDescriptor)
    (newSvcs : List ServiceDescriptor) : List Violation :=
  match newSvcs.find? (·.fullName.name = oldSvc.fullName.name) with
  | none => [{
      file := file.path
      path := oldSvc.fullName.toText
      rule := "SERVICE_NO_DELETE"
      message := "service " ++ oldSvc.fullName.name ++ " was removed" }]
  | some newSvc => oldSvc.methods.flatMap fun m => checkMethod file oldSvc m newSvc.methods

def checkOneof (file : FileDescriptor) (oldOneof : OneofDescriptor)
    (newOneofs : List OneofDescriptor) : List Violation :=
  match newOneofs.find? (·.fullName.name = oldOneof.fullName.name) with
  | none => [{
      file := file.path
      path := oldOneof.fullName.toText
      rule := "ONEOF_NO_DELETE"
      message := "oneof " ++ oldOneof.fullName.name ++ " was removed" }]
  | some _ => []

mutual
def checkMessage (file : FileDescriptor) :
    MessageDescriptor → List MessageDescriptor → List Violation
  | ⟨n, fs, os, ms, es, _⟩, newMsgs =>
    match newMsgs.find? (·.fullName.name = n.name) with
    | none => [{
        file := file.path
        path := n.toText
        rule := "MESSAGE_NO_DELETE"
        message := "message " ++ n.name ++ " was removed" }]
    | some newMsg =>
      fs.flatMap (fun f => checkField file n f newMsg.fields) ++
        checkMessages file ms newMsg.messages ++
        es.flatMap (fun e => checkEnum file e newMsg.enums) ++
        os.flatMap fun o => checkOneof file o newMsg.oneofs
def checkMessages (file : FileDescriptor) :
    List MessageDescriptor → List MessageDescriptor → List Violation
  | [], _ => []
  | m :: ms, newMsgs => checkMessage file m newMsgs ++ checkMessages file ms newMsgs
end

def checkFile (oldFile newFile : FileDescriptor) : List Violation :=
  checkMessages oldFile oldFile.messages newFile.messages ++
    oldFile.enums.flatMap (fun e => checkEnum oldFile e newFile.enums) ++
    oldFile.services.flatMap fun s => checkService oldFile s newFile.services

def checkAgainst (new : Snapshot) (oldFile : FileDescriptor) : List Violation :=
  match new.findFileByPath oldFile.path with
  | none => [{
      file := oldFile.path
      path := oldFile.path
      rule := "FILE_NO_DELETE"
      message := "file was removed" }]
  | some newFile => checkFile oldFile newFile

/-- `compat.Check`. There is nothing to break when there is no old snapshot. -/
def check (old : Option Snapshot) (new : Snapshot) : List Violation :=
  match old with
  | none => []
  | some old => old.fileList.flatMap (checkAgainst new)

/-- `Result.OK`: no violation is reported. -/
def Ok (old : Option Snapshot) (new : Snapshot) : Prop := check old new = []

instance : Decidable (Ok old new) := decidable_of_iff ((check old new).isEmpty = true) (by simp [Ok])

@[simp] theorem ok_none : Ok none new := rfl

theorem ok_some_iff : Ok (some old) new ↔ ∀ f ∈ old.fileList, checkAgainst new f = [] := by
  simp [Ok, check, List.flatMap_eq_nil_iff]

/-- **The verdict does not depend on the order of the files.** -/
theorem ok_perm {old old' new new' : Snapshot} (hold : old.fileList.Perm old'.fileList)
    (hnew : new.fileList.Perm new'.fileList) (hnd : (new.fileList.map (·.path)).Nodup) :
    Ok (some old) new ↔ Ok (some old') new' := by
  have hfile : checkAgainst new = checkAgainst new' := by
    funext f
    simp only [checkAgainst, Snapshot.findFileByPath, findFileByPath_perm hnew hnd]
  rw [ok_some_iff, ok_some_iff, hfile]
  exact forall_congr' fun f => imp_congr_left hold.mem_iff

end ProtoRegistry.Compat
