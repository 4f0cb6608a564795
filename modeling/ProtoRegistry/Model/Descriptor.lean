import Mathlib.Data.List.Nodup
import Mathlib.Data.List.Perm.Subperm

/-!
# Protobuf descriptors

The part of `protoreflect` that the repository reads. A full name is the list of its dot-separated
segments, so that `Parent` is `dropLast` and the empty name is the root package. References between
descriptors (a field's message or enum, a method's input, an extension's extendee, a file's imports)
are by name, which is all the code compares.
-/

namespace ProtoRegistry

/-! ## Texts -/

/-- A character as `%q` prints it. Go also escapes those beyond ASCII that are not printable. -/
def quoteChar (c : Char) : String :=
  match c.toNat with
  | 7 => "\\a" | 8 => "\\b" | 9 => "\\t" | 10 => "\\n" | 11 => "\\v" | 12 => "\\f" | 13 => "\\r"
  | 34 => "\\\"" | 92 => "\\\\"
  | n => if n < 32 ∨ n = 127 then "\\x" ++ (Nat.digitChar (n / 16)).toString ++ (Nat.digitChar (n % 16)).toString
    else c.toString

/-- `%q`. -/
def quote (s : String) : String := "\"" ++ String.join (s.toList.map quoteChar) ++ "\""

example : quote "a\"\t\x7f" = "\"a\\\"\\t\\x7f\"" := by decide +kernel

/-! ## Names -/

/-- `protoreflect.FullName`, as its segments. -/
abbrev FullName := List String

instance : LawfulBEq FullName := inferInstance

/-- `FullName.Parent`. -/
def FullName.parent (n : FullName) : FullName := n.dropLast

/-- `FullName.Name`: the last segment. -/
def FullName.name (n : FullName) : String := n.getLastD ""

def FullName.toText (n : FullName) : String := ".".intercalate n

/-- The name itself and every name it is nested in, innermost first, without the root package: the
values of `for name := n; name != ""; name = name.Parent()`. -/
def FullName.chain (n : FullName) : List FullName :=
  (List.range n.length).map fun i => n.take (n.length - i)

@[simp] theorem FullName.chain_nil : FullName.chain [] = [] := rfl

theorem FullName.chain_concat (n : FullName) (s : String) :
    FullName.chain (n ++ [s]) = (n ++ [s]) :: FullName.chain n := by
  rw [chain, List.length_append, List.length_singleton, List.range_succ_eq_map, List.map_cons, List.map_map]
  congr 1
  · rw [Nat.sub_zero, ← List.length_singleton (a := s), ← List.length_append, List.take_length]
  · apply List.map_congr_left
    intro i _
    have hi : n.length + 1 - (i + 1) = n.length - i := by omega
    simp only [Function.comp_apply, Nat.succ_eq_add_one, hi]
    exact List.take_append_of_le_length (by omega)

/-- `protoreflect.Kind`. -/
inductive Kind where
  | bool | enum | int32 | sint32 | uint32 | int64 | sint64 | uint64 | sfixed32 | fixed32 | float
  | sfixed64 | fixed64 | double | string | bytes | message | group
  deriving DecidableEq, Repr

/-- `Kind.String`. -/
def Kind.toText : Kind → String
  | .bool => "bool" | .enum => "enum" | .int32 => "int32" | .sint32 => "sint32"
  | .uint32 => "uint32" | .int64 => "int64" | .sint64 => "sint64" | .uint64 => "uint64"
  | .sfixed32 => "sfixed32" | .fixed32 => "fixed32" | .float => "float"
  | .sfixed64 => "sfixed64" | .fixed64 => "fixed64" | .double => "double"
  | .string => "string" | .bytes => "bytes" | .message => "message" | .group => "group"

/-- `protoreflect.Cardinality`. -/
inductive Cardinality where
  | «optional» | required | repeated
  deriving DecidableEq, Repr

/-- `Cardinality.String`. -/
def Cardinality.toText : Cardinality → String
  | .optional => "optional" | .required => "required" | .repeated => "repeated"

/-- A field of a message, or an extension field. -/
structure FieldDescriptor where
  fullName : FullName
  number : Nat
  kind : Kind
  cardinality : Cardinality
  /-- `Message().FullName()`, for message and group fields. -/
  message : FullName
  /-- `Enum().FullName()`, for enum fields. -/
  enum : FullName
  /-- `ContainingMessage().FullName()`: the extendee of an extension. -/
  containingMessage : FullName
  deriving DecidableEq, Repr

structure EnumValueDescriptor where
  fullName : FullName
  number : Int
  deriving DecidableEq, Repr

structure EnumDescriptor where
  fullName : FullName
  values : List EnumValueDescriptor
  deriving DecidableEq, Repr

structure OneofDescriptor where
  fullName : FullName
  deriving DecidableEq, Repr

structure MessageDescriptor where
  fullName : FullName
  fields : List FieldDescriptor
  oneofs : List OneofDescriptor
  messages : List MessageDescriptor
  enums : List EnumDescriptor
  extensions : List FieldDescriptor
  deriving Repr

structure MethodDescriptor where
  fullName : FullName
  input : FullName
  output : FullName
  isStreamingClient : Bool
  isStreamingServer : Bool
  deriving DecidableEq, Repr

structure ServiceDescriptor where
  fullName : FullName
  methods : List MethodDescriptor
  deriving DecidableEq, Repr

/-- A file with the declarations at its top level. Imports are paths. -/
structure FileDescriptor where
  path : String
  package : FullName
  imports : List String
  messages : List MessageDescriptor
  enums : List EnumDescriptor
  extensions : List FieldDescriptor
  services : List ServiceDescriptor
  deriving Repr

/-! ## Traversals -/

mutual
theorem MessageDescriptor.nested_induction {P : MessageDescriptor → Prop}
    (h : ∀ m : MessageDescriptor, (∀ c ∈ m.messages, P c) → P m) : ∀ m, P m
  | ⟨n, fs, os, ms, es, xs⟩ => h ⟨n, fs, os, ms, es, xs⟩ (messages_nested_induction h ms)
theorem messages_nested_induction {P : MessageDescriptor → Prop}
    (h : ∀ m : MessageDescriptor, (∀ c ∈ m.messages, P c) → P m) : ∀ ms : List MessageDescriptor, ∀ c ∈ ms, P c
  | [] => List.forall_mem_nil _
  | m :: ms => List.forall_mem_cons.mpr ⟨m.nested_induction h, messages_nested_induction h ms⟩
end

/-- The declarations with a runtime type: `protoreflect.MessageType`, `EnumType`, `ExtensionType`. -/
inductive TypeDescriptor where
  | message (m : MessageDescriptor)
  | enum (e : EnumDescriptor)
  | extension (x : FieldDescriptor)

/-- The full name the descriptor is registered under. -/
def TypeDescriptor.fullName : TypeDescriptor → FullName
  | .message m => m.fullName
  | .enum e => e.fullName
  | .extension x => x.fullName

mutual
/-- A message and the types nested in it, in the order of the source's recursive walks: the message,
its nested messages, its enums, its extensions. -/
def MessageDescriptor.types : MessageDescriptor → List TypeDescriptor
  | ⟨n, fs, os, ms, es, xs⟩ =>
    .message ⟨n, fs, os, ms, es, xs⟩ :: (messagesTypes ms ++ es.map .enum ++ xs.map .extension)
def messagesTypes : List MessageDescriptor → List TypeDescriptor
  | [] => []
  | m :: ms => m.types ++ messagesTypes ms
end

theorem mem_messagesTypes {ms : List MessageDescriptor} : t ∈ messagesTypes ms ↔ ∃ m ∈ ms, t ∈ m.types := by
  induction ms with
  | nil => simp [messagesTypes]
  | cons m ms ih => simp [messagesTypes, ih]

def FileDescriptor.types (fd : FileDescriptor) : List TypeDescriptor :=
  messagesTypes fd.messages ++ fd.enums.map .enum ++ fd.extensions.map .extension

mutual
/-- Every full name declared in a message: its own, its fields, oneofs and extensions, its enums with
their values, and those of its nested messages. -/
def MessageDescriptor.declared : MessageDescriptor → List FullName
  | ⟨n, fs, os, ms, es, xs⟩ =>
    n :: (fs.map (·.fullName) ++ os.map (·.fullName) ++ messagesDeclared ms ++
      es.flatMap (fun e => e.fullName :: e.values.map (·.fullName)) ++ xs.map (·.fullName))
def messagesDeclared : List MessageDescriptor → List FullName
  | [] => []
  | m :: ms => m.declared ++ messagesDeclared ms
end

/-- Every full name a file declares: messages, fields, oneofs, enums, enum values and extensions at
any depth, services and methods. -/
def FileDescriptor.declared (fd : FileDescriptor) : List FullName :=
  messagesDeclared fd.messages ++
    fd.enums.flatMap (fun e => e.fullName :: e.values.map (·.fullName)) ++
    fd.extensions.map (·.fullName) ++
    fd.services.flatMap fun s => s.fullName :: s.methods.map (·.fullName)

theorem map_sublist_flatMap_cons (f : α → β) (g : α → List β) (l : List α) :
    List.Sublist (l.map f) (l.flatMap fun a => f a :: g a) := by
  induction l with
  | nil => exact List.Sublist.refl _
  | cons a l ih =>
    rw [List.map_cons, List.flatMap_cons, List.cons_append]
    exact (ih.trans (List.sublist_append_right _ _)).cons_cons _

theorem enumNames_sublist (es : List EnumDescriptor) :
    List.Sublist (es.map (TypeDescriptor.fullName ∘ .enum))
      (es.flatMap fun e => e.fullName :: e.values.map (·.fullName)) :=
  map_sublist_flatMap_cons _ _ _

mutual
theorem MessageDescriptor.types_sublist_declared :
    ∀ (m : MessageDescriptor), List.Sublist (m.types.map (·.fullName)) m.declared
  | ⟨n, fs, os, ms, es, xs⟩ => by
    have hms := messagesTypes_sublist ms
    rw [MessageDescriptor.types, MessageDescriptor.declared, List.map_cons, List.map_append,
      List.map_append, List.map_map, List.map_map]
    apply List.Sublist.cons_cons
    apply List.Sublist.append _ (List.Sublist.refl _)
    apply List.Sublist.append _ (enumNames_sublist es)
    exact hms.trans (List.sublist_append_right _ _)
theorem messagesTypes_sublist :
    ∀ (ms : List MessageDescriptor),
      List.Sublist ((messagesTypes ms).map (·.fullName)) (messagesDeclared ms)
  | [] => List.Sublist.refl _
  | m :: ms => by
    rw [messagesTypes, messagesDeclared, List.map_append]
    exact m.types_sublist_declared.append (messagesTypes_sublist ms)
end

/-- The full names of the messages, enums, extensions and services of a file. -/
def FileDescriptor.typeNames (fd : FileDescriptor) : List FullName :=
  fd.types.map (·.fullName) ++ fd.services.map (·.fullName)

theorem FileDescriptor.typeNames_sublist_declared (fd : FileDescriptor) :
    List.Sublist fd.typeNames fd.declared := by
  rw [FileDescriptor.typeNames, FileDescriptor.types, FileDescriptor.declared, List.map_append,
    List.map_append, List.map_map, List.map_map]
  apply List.Sublist.append
  · apply List.Sublist.append _ (List.Sublist.refl _)
    exact (messagesTypes_sublist _).append (enumNames_sublist _)
  · exact map_sublist_flatMap_cons _ _ _

/-- `protoreflect.Descriptor`, for the kinds a registry hands out. -/
inductive Descriptor where
  | message (m : MessageDescriptor)
  | enum (e : EnumDescriptor)
  | enumValue (v : EnumValueDescriptor)
  | extension (x : FieldDescriptor)
  | service (s : ServiceDescriptor)
  | field (f : FieldDescriptor)
  | oneof (o : OneofDescriptor)
  | method (m : MethodDescriptor)

/-- `Descriptor.FullName`. -/
def Descriptor.fullName : Descriptor → FullName
  | .message m => m.fullName
  | .enum e => e.fullName
  | .enumValue v => v.fullName
  | .extension x => x.fullName
  | .service s => s.fullName
  | .field f => f.fullName
  | .oneof o => o.fullName
  | .method m => m.fullName

def EnumDescriptor.descriptors (e : EnumDescriptor) : List Descriptor := .enum e :: e.values.map .enumValue

def ServiceDescriptor.descriptors (s : ServiceDescriptor) : List Descriptor := .service s :: s.methods.map .method

mutual
/-- Every descriptor declared in a message, at any depth. -/
def MessageDescriptor.descriptors : MessageDescriptor → List Descriptor
  | ⟨n, fs, os, ms, es, xs⟩ =>
    .message ⟨n, fs, os, ms, es, xs⟩ :: (fs.map .field ++ os.map .oneof ++ messagesDescriptors ms ++
      es.flatMap (·.descriptors) ++ xs.map .extension)
def messagesDescriptors : List MessageDescriptor → List Descriptor
  | [] => []
  | m :: ms => m.descriptors ++ messagesDescriptors ms
end

/-- Every descriptor that a file declares. -/
def FileDescriptor.descriptors (fd : FileDescriptor) : List Descriptor :=
  messagesDescriptors fd.messages ++ fd.enums.flatMap (·.descriptors) ++ fd.extensions.map .extension ++
    fd.services.flatMap (·.descriptors)

theorem mem_messagesDescriptors {ms : List MessageDescriptor} :
    d ∈ messagesDescriptors ms ↔ ∃ m ∈ ms, d ∈ m.descriptors := by
  induction ms with
  | nil => simp [messagesDescriptors]
  | cons m ms ih => simp [messagesDescriptors, ih]

theorem map_enumDescriptors (es : List EnumDescriptor) : (es.flatMap (·.descriptors)).map (·.fullName) =
    es.flatMap fun e => e.fullName :: e.values.map (·.fullName) := by
  rw [List.map_flatMap]
  congr 1
  funext e
  rw [EnumDescriptor.descriptors, List.map_cons, List.map_map]
  rfl

mutual
theorem MessageDescriptor.map_descriptors :
    ∀ m : MessageDescriptor, m.descriptors.map (·.fullName) = m.declared
  | ⟨n, fs, os, ms, es, xs⟩ => by
    rw [MessageDescriptor.descriptors, MessageDescriptor.declared, List.map_cons]
    simp only [List.map_append, List.map_map, map_enumDescriptors, map_messagesDescriptors ms]
    rfl
theorem map_messagesDescriptors :
    ∀ ms : List MessageDescriptor, (messagesDescriptors ms).map (·.fullName) = messagesDeclared ms
  | [] => rfl
  | m :: ms => by
    rw [messagesDescriptors, messagesDeclared, List.map_append, m.map_descriptors, map_messagesDescriptors ms]
end

theorem FileDescriptor.map_descriptors (fd : FileDescriptor) : fd.descriptors.map (·.fullName) = fd.declared := by
  have hservices : (fd.services.flatMap (·.descriptors)).map (·.fullName) =
      fd.services.flatMap fun s => s.fullName :: s.methods.map (·.fullName) := by
    rw [List.map_flatMap]
    congr 1
    funext s
    rw [ServiceDescriptor.descriptors, List.map_cons, List.map_map]
    rfl
  simp only [descriptors, declared, List.map_append, List.map_map, map_messagesDescriptors,
    map_enumDescriptors, hservices]
  rfl

/-- The top-level descriptors of a file, in the order of `rangeTopLevelDescriptors`. -/
def FileDescriptor.topLevel (fd : FileDescriptor) : List Descriptor :=
  fd.enums.reverse.flatMap (fun e => .enum e :: e.values.reverse.map .enumValue) ++
    fd.messages.reverse.map .message ++ fd.extensions.reverse.map .extension ++
    fd.services.reverse.map .service

def FileDescriptor.topLevelNames (fd : FileDescriptor) : List FullName :=
  fd.topLevel.map (·.fullName)

theorem messageNames_sublist (ms : List MessageDescriptor) :
    List.Sublist (ms.map (·.fullName)) (messagesDeclared ms) := by
  induction ms with
  | nil => exact List.Sublist.refl _
  | cons m ms ih =>
    obtain ⟨n, fs, os, nested, es, xs⟩ := m
    rw [List.map_cons, messagesDeclared, MessageDescriptor.declared, List.cons_append]
    exact (ih.trans (List.sublist_append_right _ _)).cons_cons _

/-- The top-level names, in another order, are among the names a file declares. -/
theorem FileDescriptor.topLevelNames_subperm_declared (fd : FileDescriptor) :
    List.Subperm fd.topLevelNames fd.declared := by
  let enumNames (e : EnumDescriptor) := e.fullName :: e.values.map (·.fullName)
  refine ⟨fd.messages.map (·.fullName) ++ fd.enums.flatMap enumNames ++ fd.extensions.map (·.fullName) ++
    fd.services.map (·.fullName), ?_, ?_⟩
  · have henums : (fd.enums.flatMap enumNames).Perm
        (fd.enums.reverse.flatMap fun e => e.fullName :: e.values.reverse.map (·.fullName)) := by
      apply (fd.enums.reverse_perm.flatMap_right _).symm.trans
      apply List.Perm.flatMap_left
      intro e _
      exact (e.values.reverse_perm.map _).symm.cons _
    have hnames : fd.topLevelNames =
        (fd.enums.reverse.flatMap fun e => e.fullName :: e.values.reverse.map (·.fullName)) ++
          fd.messages.reverse.map (·.fullName) ++ fd.extensions.reverse.map (·.fullName) ++
          fd.services.reverse.map (·.fullName) := by
      simp only [topLevelNames, topLevel, List.map_append, List.map_flatMap, List.map_cons, List.map_map]
      rfl
    rw [hnames]
    apply List.Perm.append _ (fd.services.reverse_perm.map _).symm
    apply List.Perm.append _ (fd.extensions.reverse_perm.map _).symm
    exact List.perm_append_comm.trans (henums.append (fd.messages.reverse_perm.map _).symm)
  · apply List.Sublist.append _ (map_sublist_flatMap_cons _ _ _)
    apply List.Sublist.append _ (List.Sublist.refl _)
    exact (messageNames_sublist _).append (List.Sublist.refl _)

/-- What an extension is stored under besides its name: its extendee and its number. -/
def TypeDescriptor.extensionKey : TypeDescriptor → Option (FullName × Nat)
  | .extension x => some (x.containingMessage, x.number)
  | _ => none

/-- A file is found by its path: the first of the list. -/
def findFileByPath (files : List FileDescriptor) (path : String) : Option FileDescriptor :=
  files.find? (·.path = path)

theorem findFileByPath_eq_some_iff {files : List FileDescriptor}
    (hnd : (files.map (·.path)).Nodup) :
    findFileByPath files path = some f ↔ f ∈ files ∧ f.path = path := by
  constructor
  · intro h
    exact ⟨List.mem_of_find?_eq_some h, by simpa using List.find?_some h⟩
  · rintro ⟨hf, rfl⟩
    cases hg : findFileByPath files f.path with
    | none => simpa using List.find?_eq_none.mp hg f hf
    | some g =>
      have hpath : g.path = f.path := by simpa using List.find?_some hg
      exact congrArg some (List.inj_on_of_nodup_map hnd (List.mem_of_find?_eq_some hg) hf hpath)

theorem findFileByPath_perm {files files' : List FileDescriptor} (h : files.Perm files')
    (hnd : (files.map (·.path)).Nodup) (path : String) :
    findFileByPath files path = findFileByPath files' path := by
  have hnd' : (files'.map (·.path)).Nodup := (h.map _).nodup_iff.mp hnd
  ext f
  rw [findFileByPath_eq_some_iff hnd, findFileByPath_eq_some_iff hnd', h.mem_iff]

end ProtoRegistry
