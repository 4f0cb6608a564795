import ProtoRegistry.Model.Sample
import ProtoRegistry.Model.Compat
import ProtoRegistry.Theory.Matched

/-!
# What the compatibility check guarantees

Each function of `compat` is a comparison of two lists of declarations, matched by name or by number. The
comparison as a whole is a preorder. It says nothing about extensions, the messages of groups, the
streaming modes of methods and the packages of files, and it takes the files that a schema imports for
its own.
-/

namespace ProtoRegistry

namespace Compat

/-! ## The check as a relation -/

structure FieldOk (x y : FieldDescriptor) : Prop where
  kind : x.kind = y.kind
  name : x.fullName.name = y.fullName.name
  cardinality : x.cardinality = y.cardinality
  message : x.kind = .message → x.message = y.message
  enum : x.kind = .enum → x.enum = y.enum

def EnumOk (e e' : EnumDescriptor) : Prop := Matched (·.number) (fun _ _ => True) e.values e'.values

structure MethodOk (m m' : MethodDescriptor) : Prop where
  input : m.input = m'.input
  output : m.output = m'.output

def ServiceOk (s s' : ServiceDescriptor) : Prop := Matched (·.fullName.name) MethodOk s.methods s'.methods

mutual
def MessageOk : MessageDescriptor → MessageDescriptor → Prop
  | ⟨_, fs, os, ms, es, _⟩, m' =>
    Matched (·.number) FieldOk fs m'.fields ∧ MessagesOk ms m'.messages ∧
      Matched (·.fullName.name) EnumOk es m'.enums ∧
      Matched (·.fullName.name) (fun _ _ => True) os m'.oneofs
def MessagesOk : List MessageDescriptor → List MessageDescriptor → Prop
  | [], _ => True
  | m :: ms, ms' =>
    (∃ m', ms'.find? (·.fullName.name = m.fullName.name) = some m' ∧ MessageOk m m') ∧ MessagesOk ms ms'
end

structure FileOk (f g : FileDescriptor) : Prop where
  messages : Matched (·.fullName.name) MessageOk f.messages g.messages
  enums : Matched (·.fullName.name) EnumOk f.enums g.enums
  services : Matched (·.fullName.name) ServiceOk f.services g.services

theorem messagesOk_iff : MessagesOk ms ms' ↔ Matched (·.fullName.name) MessageOk ms ms' := by
  induction ms with
  | nil => simp [MessagesOk, Matched]
  | cons m ms ih =>
    rw [MessagesOk, ih]
    simp only [Matched, List.forall_mem_cons]

theorem messageOk_iff : MessageOk m m' ↔
    Matched (·.number) FieldOk m.fields m'.fields ∧
      Matched (·.fullName.name) MessageOk m.messages m'.messages ∧
      Matched (·.fullName.name) EnumOk m.enums m'.enums ∧
      Matched (·.fullName.name) (fun _ _ => True) m.oneofs m'.oneofs := by
  obtain ⟨n, fs, os, ms, es, xs⟩ := m
  rw [MessageOk, messagesOk_iff]

theorem checkField_eq_nil {file : FileDescriptor} : checkField file msg x ys = [] ↔
    ∃ y, ys.find? (·.number = x.number) = some y ∧ FieldOk x y := by
  rw [checkField]
  cases hfind : ys.find? (·.number = x.number) with
  | none => simp
  | some y =>
    simp only [List.append_eq_nil_iff, ite_eq_right_iff, reduceCtorEq, imp_false, not_not, not_and]
    constructor
    · intro ⟨⟨⟨⟨hkind, hname⟩, hcard⟩, hmsg⟩, henum⟩
      exact ⟨y, rfl, hkind, hname, hcard, fun h => hmsg h (hkind ▸ h), fun h => henum h (hkind ▸ h)⟩
    · intro ⟨_, heq, hok⟩
      cases heq
      exact ⟨⟨⟨⟨hok.kind, hok.name⟩, hok.cardinality⟩, fun h _ => hok.message h⟩, fun h _ => hok.enum h⟩

theorem checkEnum_eq_nil {file : FileDescriptor} : checkEnum file e es = [] ↔
    ∃ e', es.find? (·.fullName.name = e.fullName.name) = some e' ∧ EnumOk e e' := by
  rw [checkEnum]
  cases hfind : es.find? (·.fullName.name = e.fullName.name) with
  | none => simp
  | some e' =>
    simp only [Option.some.injEq, exists_eq_left', EnumOk]
    refine flatMap_eq_nil_iff_matched fun v => ?_
    cases e'.values.find? (·.number = v.number) <;> simp

theorem checkOneof_eq_nil {file : FileDescriptor} : checkOneof file o os = [] ↔
    ∃ o', os.find? (·.fullName.name = o.fullName.name) = some o' ∧ True := by
  rw [checkOneof]
  cases os.find? (·.fullName.name = o.fullName.name) <;> simp

theorem checkMethod_eq_nil {file : FileDescriptor} : checkMethod file s m ms = [] ↔
    ∃ m', ms.find? (·.fullName.name = m.fullName.name) = some m' ∧ MethodOk m m' := by
  rw [checkMethod]
  cases hfind : ms.find? (·.fullName.name = m.fullName.name) with
  | none => simp
  | some m' =>
    simp only [List.append_eq_nil_iff, ite_eq_right_iff, reduceCtorEq, imp_false, not_not]
    constructor
    · intro ⟨hin, hout⟩
      exact ⟨m', rfl, hin, hout⟩
    · intro ⟨_, heq, hok⟩
      cases heq
      exact ⟨hok.input, hok.output⟩

theorem checkService_eq_nil {file : FileDescriptor} : checkService file s ss = [] ↔
    ∃ s', ss.find? (·.fullName.name = s.fullName.name) = some s' ∧ ServiceOk s s' := by
  rw [checkService]
  cases hfind : ss.find? (·.fullName.name = s.fullName.name) with
  | none => simp
  | some s' =>
    simp only [Option.some.injEq, exists_eq_left', ServiceOk]
    exact flatMap_eq_nil_iff_matched fun m => checkMethod_eq_nil

mutual
theorem checkMessage_eq_nil {file : FileDescriptor} : ∀ (m : MessageDescriptor) (ms : List MessageDescriptor),
    checkMessage file m ms = [] ↔
      ∃ m', ms.find? (·.fullName.name = m.fullName.name) = some m' ∧ MessageOk m m'
  | ⟨n, fs, os, nested, es, xs⟩, ms => by
    rw [checkMessage]
    cases hfind : ms.find? (·.fullName.name = n.name) with
    | none => simp
    | some m' =>
      simp only [List.append_eq_nil_iff, Option.some.injEq, exists_eq_left', MessageOk,
        checkMessages_eq_nil nested, and_assoc]
      rw [flatMap_eq_nil_iff_matched fun f => checkField_eq_nil,
        flatMap_eq_nil_iff_matched fun e => checkEnum_eq_nil, flatMap_eq_nil_iff_matched fun o => checkOneof_eq_nil]
theorem checkMessages_eq_nil {file : FileDescriptor} : ∀ ms ms' : List MessageDescriptor,
    checkMessages file ms ms' = [] ↔ MessagesOk ms ms'
  | [], _ => by simp [checkMessages, MessagesOk]
  | m :: ms, ms' => by
    rw [checkMessages, List.append_eq_nil_iff, checkMessage_eq_nil m ms', checkMessages_eq_nil ms ms', MessagesOk]
end

theorem checkFile_eq_nil : checkFile f g = [] ↔ FileOk f g := by
  rw [checkFile, List.append_eq_nil_iff, List.append_eq_nil_iff, checkMessages_eq_nil, messagesOk_iff,
    flatMap_eq_nil_iff_matched fun e => checkEnum_eq_nil, flatMap_eq_nil_iff_matched fun s => checkService_eq_nil]
  exact ⟨fun ⟨⟨hms, hes⟩, hss⟩ => ⟨hms, hes, hss⟩, fun h => ⟨⟨h.messages, h.enums⟩, h.services⟩⟩

theorem ok_iff {old new : Snapshot} : Ok (some old) new ↔ Matched (·.path) FileOk old.fileList new.fileList := by
  refine flatMap_eq_nil_iff_matched fun f => ?_
  rw [checkAgainst, Snapshot.findFileByPath, findFileByPath]
  cases new.fileList.find? (·.path = f.path) with
  | none => simp
  | some g => simp only [Option.some.injEq, exists_eq_left', checkFile_eq_nil]

/-! ## A preorder -/

theorem FieldOk.trans (h : FieldOk x y) (h' : FieldOk y z) : FieldOk x z where
  kind := h.kind.trans h'.kind
  name := h.name.trans h'.name
  cardinality := h.cardinality.trans h'.cardinality
  message hx := (h.message hx).trans (h'.message (h.kind ▸ hx))
  enum hx := (h.enum hx).trans (h'.enum (h.kind ▸ hx))

theorem EnumOk.trans (h : EnumOk e₁ e₂) (h' : EnumOk e₂ e₃) : EnumOk e₁ e₃ :=
  Matched.trans (fun _ _ _ _ _ _ => trivial) h h'

theorem MethodOk.trans (h : MethodOk m₁ m₂) (h' : MethodOk m₂ m₃) : MethodOk m₁ m₃ :=
  ⟨h.input.trans h'.input, h.output.trans h'.output⟩

theorem ServiceOk.trans (h : ServiceOk s₁ s₂) (h' : ServiceOk s₂ s₃) : ServiceOk s₁ s₃ :=
  Matched.trans (fun _ _ _ _ => MethodOk.trans) h h'

theorem MessageOk.trans (m₁ : MessageDescriptor) : ∀ m₂ m₃, MessageOk m₁ m₂ → MessageOk m₂ m₃ → MessageOk m₁ m₃ := by
  induction m₁ using MessageDescriptor.nested_induction with
  | h m₁ ih =>
    intro m₂ m₃ h h'
    obtain ⟨hfs, hms, hes, hos⟩ := messageOk_iff.mp h
    obtain ⟨hfs', hms', hes', hos'⟩ := messageOk_iff.mp h'
    refine messageOk_iff.mpr ⟨?_, ?_, ?_, ?_⟩
    · exact hfs.trans (fun _ _ _ _ => FieldOk.trans) hfs'
    · exact hms.trans ih hms'
    · exact hes.trans (fun _ _ _ _ => EnumOk.trans) hes'
    · exact hos.trans (fun _ _ _ _ _ _ => trivial) hos'

theorem FileOk.trans (h : FileOk f₁ f₂) (h' : FileOk f₂ f₃) : FileOk f₁ f₃ where
  messages := h.messages.trans (fun m _ => MessageOk.trans m) h'.messages
  enums := h.enums.trans (fun _ _ _ _ => EnumOk.trans) h'.enums
  services := h.services.trans (fun _ _ _ _ => ServiceOk.trans) h'.services

theorem Ok.trans (h : Ok (some a) b) (h' : Ok (some b) c) : Ok (some a) c :=
  ok_iff.mpr ((ok_iff.mp h).trans (fun _ _ _ _ => FileOk.trans) (ok_iff.mp h'))

end Compat

/-! ## Valid descriptors -/

/-- A message of the list, or one nested in them, with its name and those of the messages around it. -/
inductive MessageAt : List MessageDescriptor → List String → MessageDescriptor → Prop where
  | top : m ∈ ms → MessageAt ms [m.fullName.name] m
  | nested : c ∈ ms → MessageAt c.messages names m → MessageAt ms (c.fullName.name :: names) m

/-- Field numbers are unique, and so are the names of each kind. -/
structure MessageDescriptor.Valid (m : MessageDescriptor) : Prop where
  fields : (m.fields.map (·.number)).Nodup
  messages : (m.messages.map (·.fullName.name)).Nodup
  enums : (m.enums.map (·.fullName.name)).Nodup
  oneofs : (m.oneofs.map (·.fullName.name)).Nodup

structure FileDescriptor.Valid (f : FileDescriptor) : Prop where
  messages : (f.messages.map (·.fullName.name)).Nodup
  enums : (f.enums.map (·.fullName.name)).Nodup
  services : (f.services.map (·.fullName.name)).Nodup
  methods : ∀ s ∈ f.services, (s.methods.map (·.fullName.name)).Nodup
  nested : ∀ {names m}, MessageAt f.messages names m → m.Valid

/-- Names are unique in each scope, and field numbers in each message. -/
structure Snapshot.Valid (s : Snapshot) : Prop where
  paths : (s.fileList.map (·.path)).Nodup
  files : ∀ f ∈ s.fileList, f.Valid

namespace Compat

theorem EnumOk.refl (e : EnumDescriptor) : EnumOk e e := by
  intro v hv
  cases hfind : e.values.find? (·.number = v.number) with
  | none => simpa using List.find?_eq_none.mp hfind v hv
  | some v' => exact ⟨v', rfl, trivial⟩

theorem MessageOk.refl (m : MessageDescriptor) : m.Valid →
    (∀ {names c}, MessageAt m.messages names c → c.Valid) → MessageOk m m := by
  induction m using MessageDescriptor.nested_induction with
  | h m ih =>
    intro hm hnested
    refine messageOk_iff.mpr ⟨?_, ?_, ?_, ?_⟩
    · exact Matched.refl hm.fields fun x _ => ⟨rfl, rfl, rfl, fun _ => rfl, fun _ => rfl⟩
    · exact Matched.refl hm.messages fun c hc => ih c hc (hnested (.top hc)) fun h => hnested (.nested hc h)
    · exact Matched.refl hm.enums fun e _ => EnumOk.refl e
    · exact Matched.refl hm.oneofs fun _ _ => trivial

theorem FileOk.refl (h : f.Valid) : FileOk f f where
  messages := Matched.refl h.messages fun m hm => MessageOk.refl m (h.nested (.top hm)) fun hc =>
    h.nested (.nested hm hc)
  enums := Matched.refl h.enums fun e _ => EnumOk.refl e
  services := Matched.refl h.services fun s hs => Matched.refl (h.methods s hs) fun _ _ => ⟨rfl, rfl⟩

theorem Ok.refl {a : Snapshot} (h : a.Valid) : Ok (some a) a :=
  ok_iff.mpr (Matched.refl h.paths fun f hf => FileOk.refl (h.files f hf))

/-- Compatibility is a preorder: along a chain of versions the first is compatible with the last. -/
theorem ok_preorder {a : Snapshot} (ha : a.Valid) :
    Ok (some a) a ∧ (∀ b c, Ok (some a) b → Ok (some b) c → Ok (some a) c) ∧
      ∀ l, List.IsChain (fun s t => Ok (some s) t) (a :: l) →
        Ok (some a) ((a :: l).getLast (List.cons_ne_nil a l)) := by
  refine ⟨Ok.refl ha, fun b c => Ok.trans, fun l => ?_⟩
  suffices H : ∀ s, Ok (some a) s → List.IsChain (fun s t => Ok (some s) t) (s :: l) →
      Ok (some a) ((s :: l).getLast (List.cons_ne_nil s l)) from H a (Ok.refl ha)
  induction l with
  | nil => exact fun s hs _ => hs
  | cons t l ih =>
    intro s hs hchain
    rw [List.isChain_cons_cons] at hchain
    rw [List.getLast_cons_cons]
    exact ih t (hs.trans hchain.1) hchain.2

end Compat

theorem messageAt_rpcFile (h : MessageAt (Sample.rpcFile b xs).messages names m) :
    m ∈ (Sample.rpcFile b xs).messages ∧ names = ["M"] := by
  cases h with
  | top hm =>
    cases List.mem_singleton.mp hm
    exact ⟨hm, rfl⟩
  | nested hc hm =>
    cases List.mem_singleton.mp hc
    cases hm with
    | top hm => cases hm
    | nested hc _ => cases hc

theorem valid_rpcFile (v : Nat) (b : Bool) (xs : List FieldDescriptor) : Snapshot.Valid ⟨v, [Sample.rpcFile b xs]⟩ := by
  refine ⟨by simp, fun f hf => ?_⟩
  cases List.mem_singleton.mp hf
  refine ⟨by simp [Sample.rpcFile], by simp [Sample.rpcFile], by simp [Sample.rpcFile], fun s hs => ?_, fun hm => ?_⟩
  · cases List.mem_singleton.mp hs
    simp
  · cases List.mem_singleton.mp (messageAt_rpcFile hm).1
    exact ⟨by simp, by simp, by simp, by simp⟩

theorem Compat.ok_preorder_two_versions : Compat.Ok (some ⟨1, [Sample.rpcFile false []]⟩)
    ⟨3, [Sample.rpcFile false [Sample.extension]]⟩ :=
  (Compat.ok_preorder (valid_rpcFile 1 false [])).2.2
    [⟨2, [Sample.rpcFile false []]⟩, ⟨3, [Sample.rpcFile false [Sample.extension]]⟩]
    (.cons_cons (by decide +kernel) (.cons_cons (by decide +kernel) (.singleton _)))

/-! ## Soundness -/

/-- The full names in a file are made of its package and the names around a declaration. -/
structure FileDescriptor.Scoped (f : FileDescriptor) : Prop where
  messages : ∀ {names m}, MessageAt f.messages names m → m.fullName = f.package ++ names
  services : ∀ s ∈ f.services, s.fullName = f.package ++ [s.fullName.name]
  methods : ∀ s ∈ f.services, ∀ m ∈ s.methods, m.fullName = s.fullName ++ [m.fullName.name]

def Snapshot.Scoped (s : Snapshot) : Prop := ∀ f ∈ s.fileList, f.Scoped

theorem MessageAt.names_ne_nil (h : MessageAt ms names m) : names ≠ [] := by
  cases h <;> exact List.cons_ne_nil _ _

/-- With unique names there is one message at a place. -/
theorem MessageAt.unique (h : MessageAt ms names m) (h' : MessageAt ms names m')
    (hnd : (ms.map (·.fullName.name)).Nodup) (hvalid : ∀ {names c}, MessageAt ms names c → c.Valid) : m = m' := by
  induction h with
  | top hm =>
    generalize hnames : [_] = names at h'
    cases h' with
    | top hm' => exact List.inj_on_of_nodup_map hnd hm hm' (List.cons.inj hnames).1
    | nested _ hc => exact absurd (List.cons.inj hnames).2.symm hc.names_ne_nil
  | @nested ms c names m hc hm ih =>
    generalize hnames : c.fullName.name :: names = names' at h'
    cases h' with
    | top hm' => exact absurd (List.cons.inj hnames).2 hm.names_ne_nil
    | nested hc' hm' =>
      obtain ⟨hname, rfl⟩ := List.cons.inj hnames
      cases List.inj_on_of_nodup_map hnd hc hc' hname
      exact ih hm' (hvalid (.top hc)).messages fun h => hvalid (.nested hc h)

namespace Compat

theorem messageAt_of_matched (h : MessageAt ms names m) :
    ∀ {ms'}, Matched (·.fullName.name) MessageOk ms ms' → ∃ m', MessageAt ms' names m' ∧ MessageOk m m' := by
  induction h with
  | top hm =>
    intro ms' hmatched
    obtain ⟨m', hm', hname, hok⟩ := hmatched.of_mem hm
    exact ⟨m', hname ▸ .top hm', hok⟩
  | nested hc _ ih =>
    intro ms' hmatched
    obtain ⟨c', hc', hname, hok⟩ := hmatched.of_mem hc
    obtain ⟨m', hm', hok'⟩ := ih (messageOk_iff.mp hok).2.1
    exact ⟨m', hname ▸ .nested hc' hm', hok'⟩

structure SameField (x y : FieldDescriptor) : Prop where
  number : y.number = x.number
  kind : y.kind = x.kind
  cardinality : y.cardinality = x.cardinality
  message : x.kind = .message ∨ x.kind = .group → y.message = x.message
  enum : x.kind = .enum → y.enum = x.enum

structure SameMethod (m m' : MethodDescriptor) : Prop where
  fullName : m'.fullName = m.fullName
  input : m'.input = m.input
  output : m'.output = m.output
  streamingClient : m'.isStreamingClient = m.isStreamingClient
  streamingServer : m'.isStreamingServer = m.isStreamingServer

/-- Every extension of the file is in the other one, for the same message. -/
def KeepsExtensions (f g : FileDescriptor) : Prop :=
  ∀ x, .extension x ∈ f.types →
    ∃ y, .extension y ∈ g.types ∧ y.containingMessage = x.containingMessage ∧ SameField x y

/-- Every field, extension and method of the file is in the other one. -/
structure KeepsFile (f g : FileDescriptor) : Prop where
  fields : ∀ names m, MessageAt f.messages names m → ∀ x ∈ m.fields,
    ∃ m', MessageAt g.messages names m' ∧ m'.fullName = m.fullName ∧ ∃ y ∈ m'.fields, SameField x y
  extensions : KeepsExtensions f g
  methods : ∀ s ∈ f.services, ∀ m ∈ s.methods,
    ∃ s' ∈ g.services, s'.fullName = s.fullName ∧ ∃ m' ∈ s'.methods, SameMethod m m'

/-- Nothing that was in the old snapshot is lost or changed in the new one. -/
def Keeps (old new : Snapshot) : Prop :=
  ∀ f ∈ old.fileList, ∃ g ∈ new.fileList, g.path = f.path ∧ KeepsFile f g

def HasMembers (f : FileDescriptor) : Prop :=
  (∃ names m, MessageAt f.messages names m ∧ m.fields ≠ []) ∨ ∃ s ∈ f.services, s.methods ≠ []

/-- What the check does not look at is the same in the two files. -/
structure SameUnchecked (f g : FileDescriptor) : Prop where
  package : HasMembers f → g.package = f.package
  groups : ∀ names m m', MessageAt f.messages names m → MessageAt g.messages names m' →
    ∀ x ∈ m.fields, ∀ y ∈ m'.fields, x.number = y.number → x.kind = .group → x.message = y.message
  streaming : ∀ s ∈ f.services, ∀ s' ∈ g.services, s.fullName = s'.fullName → ∀ m ∈ s.methods, ∀ m' ∈ s'.methods,
    m.fullName = m'.fullName →
      m.isStreamingClient = m'.isStreamingClient ∧ m.isStreamingServer = m'.isStreamingServer
  extensions : KeepsExtensions f g

theorem keepsFile_of_ok (hf : f.Scoped) (hg : g.Scoped) (hok : FileOk f g) (h : SameUnchecked f g) : KeepsFile f g := by
  refine ⟨fun names m hm x hx => ?_, h.extensions, fun s hs m hm => ?_⟩
  · have hpackage := h.package (.inl ⟨names, m, hm, List.ne_nil_of_mem hx⟩)
    obtain ⟨m', hm', hmok⟩ := messageAt_of_matched hm hok.messages
    obtain ⟨y, hy, hnumber, hfield⟩ := (messageOk_iff.mp hmok).1.of_mem hx
    refine ⟨m', hm', by rw [hg.messages hm', hf.messages hm, hpackage], y, hy, hnumber, hfield.kind.symm,
      hfield.cardinality.symm, ?_, fun hk => (hfield.enum hk).symm⟩
    intro hk
    rcases hk with hk | hk
    · exact (hfield.message hk).symm
    · exact (h.groups names m m' hm hm' x hx y hy hnumber.symm hk).symm
  · have hpackage := h.package (.inr ⟨s, hs, List.ne_nil_of_mem hm⟩)
    obtain ⟨s', hs', hsname, hsok⟩ := hok.services.of_mem hs
    obtain ⟨m', hm', hmname, hmok⟩ := Matched.of_mem hsok hm
    have hs'' : s'.fullName = s.fullName := by rw [hg.services s' hs', hf.services s hs, hpackage, hsname]
    have hm'' : m'.fullName = m.fullName := by
      rw [hg.methods s' hs' m' hm', hf.methods s hs m hm, hs'', hmname]
    have hstream := h.streaming s hs s' hs' hs''.symm m hm m' hm' hm''.symm
    exact ⟨s', hs', hs'', m', hm', hm'', hmok.input.symm, hmok.output.symm, hstream.1.symm, hstream.2.symm⟩

/-- In valid files nothing else is at the place of what was kept. -/
theorem sameUnchecked_of_keepsFile (hf : f.Scoped) (hg : g.Scoped) (hvalid : g.Valid) (h : KeepsFile f g) :
    SameUnchecked f g := by
  refine ⟨fun hmem => ?_, fun names m m' hm hm' x hx y hy hnumber hk => ?_, fun s hs s' hs' hsn m hm m' hm' hmn => ?_,
    h.extensions⟩
  · rcases hmem with ⟨names, m, hm, hne⟩ | ⟨s, hs, hne⟩
    · obtain ⟨x, hx⟩ := List.exists_mem_of_ne_nil _ hne
      obtain ⟨m', hm', hname, _⟩ := h.fields names m hm x hx
      rw [hg.messages hm', hf.messages hm] at hname
      exact List.append_cancel_right hname
    · obtain ⟨m, hm⟩ := List.exists_mem_of_ne_nil _ hne
      obtain ⟨s', hs', hname, _⟩ := h.methods s hs m hm
      have hlast := congrArg FullName.name hname
      rw [hg.services s' hs', hf.services s hs, hlast] at hname
      exact List.append_cancel_right hname
  · obtain ⟨m'', hm'', _, y', hy', hsame⟩ := h.fields names m hm x hx
    cases hm'.unique hm'' hvalid.messages hvalid.nested
    have hyy := List.inj_on_of_nodup_map (hvalid.nested hm').fields hy hy' (hnumber.symm.trans hsame.number.symm)
    rw [hyy, hsame.message (.inr hk)]
  · obtain ⟨s'', hs'', hsn', m'', hm'', hsame⟩ := h.methods s hs m hm
    have hss := List.inj_on_of_nodup_map hvalid.services hs' hs'' (congrArg FullName.name (hsn.symm.trans hsn'.symm))
    subst hss
    have hmm := List.inj_on_of_nodup_map (hvalid.methods s' hs') hm' hm''
      (congrArg FullName.name (hmn.symm.trans hsame.fullName.symm))
    subst hmm
    exact ⟨hsame.streamingClient.symm, hsame.streamingServer.symm⟩

/-- When the check reports nothing, everything is kept exactly when the packages, the messages of groups, the
streaming modes and the extensions are: the check does not look at these. -/
theorem ok_keeps_iff {old new : Snapshot} (hold : old.Scoped) (hnew : new.Scoped) (hvalid : new.Valid) :
    (Ok (some old) new → Keeps old new) ↔
      (Ok (some old) new → ∀ f ∈ old.fileList, ∀ g ∈ new.fileList, g.path = f.path → SameUnchecked f g) := by
  refine imp_congr_right fun hok => ⟨fun h f hf g hg hpath => ?_, fun h f hf => ?_⟩
  · obtain ⟨g', hg', hpath', hkeeps⟩ := h f hf
    cases List.inj_on_of_nodup_map hvalid.paths hg hg' (hpath.trans hpath'.symm)
    exact sameUnchecked_of_keepsFile (hold f hf) (hnew g hg) (hvalid.files g hg) hkeeps
  · obtain ⟨g, hg, hpath, hfile⟩ := (ok_iff.mp hok).of_mem hf
    exact ⟨g, hg, hpath, keepsFile_of_ok (hold f hf) (hnew g hg) hfile (h f hf g hg hpath)⟩

theorem scoped_rpcFile (v : Nat) (b : Bool) (xs : List FieldDescriptor) :
    Snapshot.Scoped ⟨v, [Sample.rpcFile b xs]⟩ := by
  intro f hf
  cases List.mem_singleton.mp hf
  refine ⟨fun hm => ?_, fun s hs => ?_, fun s hs m hm => ?_⟩
  · obtain ⟨hmem, rfl⟩ := messageAt_rpcFile hm
    cases List.mem_singleton.mp hmem
    rfl
  · cases List.mem_singleton.mp hs
    rfl
  · cases List.mem_singleton.mp hs
    cases List.mem_singleton.mp hm
    rfl

/-- The new version adds an extension. -/
theorem ok_keeps_extended : Keeps ⟨1, [Sample.rpcFile true [Sample.extension]]⟩
    ⟨2, [Sample.rpcFile true [{ Sample.extension with fullName := ["p", "f"], number := 101 }, Sample.extension]]⟩ := by
  refine (ok_keeps_iff (scoped_rpcFile _ _ _) (scoped_rpcFile _ _ _) (valid_rpcFile _ _ _)).mpr ?_ (by decide +kernel)
  intro _ f hf g hg _
  cases List.mem_singleton.mp hf
  cases List.mem_singleton.mp hg
  refine ⟨fun _ => rfl, fun names m m' hm _ x hx y _ _ hk => ?_, fun s hs s' hs' _ m hm m' hm' _ => ?_, fun x hx => ?_⟩
  · cases List.mem_singleton.mp (messageAt_rpcFile hm).1
    cases List.mem_singleton.mp hx
    cases hk
  · cases List.mem_singleton.mp hs
    cases List.mem_singleton.mp hs'
    cases List.mem_singleton.mp hm
    cases List.mem_singleton.mp hm'
    exact ⟨rfl, rfl⟩
  · refine ⟨x, ?_, rfl, rfl, rfl, rfl, fun _ => rfl, fun _ => rfl⟩
    simp_all [FileDescriptor.types, Sample.rpcFile, messagesTypes, MessageDescriptor.types]

/-- The new version has lost an extension and made a method streaming, and the check reports nothing. -/
theorem extension_lost : Ok (some ⟨1, [Sample.rpcFile false [Sample.extension]]⟩) ⟨2, [Sample.rpcFile true []]⟩ ∧
    ¬ Keeps ⟨1, [Sample.rpcFile false [Sample.extension]]⟩ ⟨2, [Sample.rpcFile true []]⟩ := by
  refine ⟨by decide +kernel, fun h => ?_⟩
  obtain ⟨g, hg, _, hkeeps⟩ := h _ (List.mem_singleton_self _)
  cases List.mem_singleton.mp hg
  obtain ⟨y, hy, _⟩ := hkeeps.extensions Sample.extension (by simp [FileDescriptor.types, Sample.rpcFile])
  simp [FileDescriptor.types, Sample.rpcFile, messagesTypes, MessageDescriptor.types] at hy

/-! ## Dropped imports -/

/-- The files of the schema are in the new version with fewer imports at most, and the files that they import
are the same in both where both have them. -/
structure DropsImports (paths : List String) (old new : Snapshot) : Prop where
  own : ∀ f ∈ old.fileList, f.path ∈ paths → ∃ imports, List.Sublist imports f.imports ∧
    { f with imports } ∈ new.fileList
  imported : ∀ f ∈ old.fileList, f.path ∉ paths → ∀ g ∈ new.fileList, g.path = f.path → g = f

/-- protocompile refuses a file in which a name or the number of a field is taken twice. -/
def LinksValid (env : External) : Prop := ∀ files, env.Compiles files → ∀ f ∈ files, f.Valid

/-- **Dropping an import** is compatible exactly when the imported files are still there for another reason: the
check takes every file of the old snapshot for one that must stay. -/
theorem ok_dropsImports_iff {c c' : Compiler} {env env' : External} (hvalid : LinksValid env)
    (hold : c.compile env v sources deps parentChain builtins = .ok old)
    (hnew : c'.compile env' v' sources' deps' parentChain' builtins' = .ok new)
    (hdrops : DropsImports sources.keys old.snapshot new.snapshot) :
    Ok (some old.snapshot) new.snapshot ↔
      ∀ f ∈ old.snapshot.fileList, f.path ∉ sources.keys → ∃ g ∈ new.snapshot.fileList, g.path = f.path := by
  have hold := Compiler.compile_spec hold
  have hnew := Compiler.compile_spec hnew
  have hfiles : ∀ f ∈ old.snapshot.fileList, f.Valid := by
    rw [hold.snapshot]
    exact hvalid _ hold.compiles
  have hpaths : (new.snapshot.fileList.map (·.path)).Nodup := by
    rw [hnew.snapshot]
    exact hnew.paths
  rw [ok_iff]
  refine ⟨fun hok f hf _ => ?_, fun hstays f hf => ?_⟩
  · obtain ⟨g, hg, hpath, -⟩ := hok.of_mem hf
    exact ⟨g, hg, hpath⟩
  · by_cases hown : f.path ∈ sources.keys
    · obtain ⟨imports, -, hg⟩ := hdrops.own f hf hown
      have hfind : findFileByPath new.snapshot.fileList f.path = some { f with imports } := find_key_eq_some hpaths hg
      have hsame := FileOk.refl (hfiles f hf)
      exact ⟨_, hfind, ⟨hsame.messages, hsame.enums, hsame.services⟩⟩
    · obtain ⟨g, hg, hpath⟩ := hstays f hf hown
      cases hdrops.imported f hf hown g hg hpath
      exact ⟨f, find_key_eq_some hpaths hg, FileOk.refl (hfiles f hf)⟩

end Compat

namespace Sample

/-- A file of messages without members, each declared once. -/
def isPlain (f : FileDescriptor) : Bool :=
  f.enums.isEmpty && f.services.isEmpty && decide (f.messages.map (·.fullName.name)).Nodup &&
    f.messages.all fun m => m.fields.isEmpty && m.messages.isEmpty && m.enums.isEmpty && m.oneofs.isEmpty

def linkingPlain (env : External) : External :=
  { env with
    protocompile := fun resolver names => (env.protocompile resolver names).bind fun linked =>
      if (transitiveFiles linked).all isPlain then .ok linked else .error "already defined" }

theorem valid_of_isPlain (h : isPlain f = true) : f.Valid := by
  simp only [isPlain, Bool.and_eq_true, List.isEmpty_iff, decide_eq_true_eq, List.all_eq_true] at h
  obtain ⟨⟨⟨henums, hservices⟩, hnames⟩, hmessages⟩ := h
  refine ⟨hnames, by simp [henums], by simp [hservices], by simp [hservices], fun hm => ?_⟩
  cases hm with
  | top hm =>
    obtain ⟨⟨⟨hfields, hnested⟩, henums⟩, honeofs⟩ := hmessages _ hm
    exact ⟨by simp [hfields], by simp [hnested], by simp [henums], by simp [honeofs]⟩
  | nested hc hm =>
    obtain ⟨⟨⟨-, hnested⟩, -⟩, -⟩ := hmessages _ hc
    rw [hnested] at hm
    cases hm with
    | top hm => cases hm
    | nested hc _ => cases hc

theorem linksValid_linkingPlain (env : External) : Compat.LinksValid (linkingPlain env) := by
  rintro files ⟨resolver, names, linked, hlinked, rfl⟩ f hf
  obtain ⟨linked', -, hplain⟩ := except_bind_eq_ok.mp hlinked
  split at hplain
  · next hall =>
    cases hplain
    exact valid_of_isPlain (List.all_eq_true.mp hall f hf)
  · cases hplain

/-- A file whose source begins with the byte 0 imports `b.proto`. -/
def importingShared : External :=
  { env with
    protocompile := fun resolver names => names.mapM fun name =>
      match resolver name, resolver "b.proto" with
      | some (0 :: source), some shared =>
        .ok ⟨{ file name source with imports := ["b.proto"] }, [⟨file "b.proto" shared, []⟩]⟩
      | some source, _ => .ok ⟨file name source, []⟩
      | none, _ => .error ("file not found: " ++ name) }

/-- Compile `a.proto` and `c.proto`. The file `b.proto` belongs to another schema. -/
def compileImporting (v : Nat) (a c : Bytes) : Except String CompileResult :=
  ({} : Compiler).compile (linkingPlain importingShared) v ((Dict.empty.set "a.proto" a).set "c.proto" c)
    [⟨"n", "t", 1, "b.proto", [2]⟩] [] []

end Sample

namespace Compat

theorem dropsImports_first {old new : Snapshot} {c : FileDescriptor} (hpath : c.path = "c.proto")
    (hold : old.fileList = [Sample.file "b.proto" [2], { Sample.file "a.proto" [1] with imports := ["b.proto"] }, c])
    (ha : Sample.file "a.proto" [1] ∈ new.fileList) (hc : c ∈ new.fileList)
    (hb : ∀ g ∈ new.fileList, g.path = "b.proto" → g = Sample.file "b.proto" [2]) :
    DropsImports ["a.proto", "c.proto"] old new := by
  refine ⟨fun f hf hown => ?_, fun f hf hown g hg hpath' => ?_⟩ <;>
    simp only [hold, List.mem_cons, List.not_mem_nil, or_false] at hf <;> rcases hf with rfl | rfl | rfl
  · exact absurd hown (by decide)
  · exact ⟨[], List.nil_sublist _, ha⟩
  · exact ⟨f.imports, List.Sublist.refl _, hc⟩
  · exact hb g hg hpath'
  · exact absurd (List.mem_cons_self ..) hown
  · exact absurd (by simp [hpath]) hown

/-- The new version of `a.proto` does not import `b.proto`, which stays for the import of `c.proto`. -/
theorem ok_dropsImports_iff_shared : ∃ old new, Sample.compileImporting 1 [0, 1] [0, 3] = .ok old ∧
    Sample.compileImporting 2 [1] [0, 3] = .ok new ∧
    { Sample.file "a.proto" [1] with imports := ["b.proto"] } ∈ old.snapshot.fileList ∧
    Sample.file "a.proto" [1] ∈ new.snapshot.fileList ∧ Ok (some old.snapshot) new.snapshot := by
  have hcompile : ∃ old new, Sample.compileImporting 1 [0, 1] [0, 3] = .ok old ∧
      Sample.compileImporting 2 [1] [0, 3] = .ok new ∧
      old.snapshot.fileList = [Sample.file "b.proto" [2], { Sample.file "a.proto" [1] with imports := ["b.proto"] },
        { Sample.file "c.proto" [3] with imports := ["b.proto"] }] ∧
      new.snapshot.fileList = [Sample.file "a.proto" [1], Sample.file "b.proto" [2],
        { Sample.file "c.proto" [3] with imports := ["b.proto"] }] := ⟨_, _, rfl, rfl, rfl, rfl⟩
  obtain ⟨old, new, hold, hnew, hfiles, hfiles'⟩ := hcompile
  have hdrops : DropsImports ["a.proto", "c.proto"] old.snapshot new.snapshot :=
    dropsImports_first rfl hfiles (by simp [hfiles']) (by simp [hfiles']) (by simp [hfiles', Sample.file])
  refine ⟨old, new, hold, hnew, by simp [hfiles], by simp [hfiles'],
    (ok_dropsImports_iff (Sample.linksValid_linkingPlain _) hold hnew hdrops).mpr fun f hf hown => ?_⟩
  simp only [hfiles, List.mem_cons, List.not_mem_nil, or_false] at hf
  rcases hf with rfl | rfl | rfl
  · exact ⟨_, by simp [hfiles'], rfl⟩
  · exact absurd (by decide) hown
  · exact absurd (by decide) hown

/-- The only import is dropped. Nothing in `a.proto` refers to it. -/
theorem dropped_import_refused : ∃ old new, Sample.compileImporting 1 [0, 1] [3] = .ok old ∧
    Sample.compileImporting 2 [1] [3] = .ok new ∧ DropsImports ["a.proto", "c.proto"] old.snapshot new.snapshot ∧
    check (some old.snapshot) new.snapshot =
      [{ file := "b.proto", path := "b.proto", rule := "FILE_NO_DELETE", message := "file was removed" }] := by
  refine ⟨_, _, rfl, rfl, dropsImports_first (c := Sample.file "c.proto" [3]) rfl rfl ?_ ?_ ?_, by decide +kernel⟩
  · exact List.mem_cons_self ..
  · exact List.mem_cons_of_mem _ (List.mem_cons_self ..)
  · intro g hg hpath
    rcases List.mem_pair.mp hg with rfl | rfl
    · exact absurd hpath (by decide)
    · exact absurd hpath (by decide)

end Compat

end ProtoRegistry
