import ProtoRegistry.Verify.Registering

/-!
# What a registry of files finds

Only the names at the top level of a file are indexed. A lookup shortens the name until it meets an entry and
descends from there by the segments it has cut off. `RegisterFile` keeps every package, and every top-level
name of another file, out of the names below a top-level name, so the entry it meets is the right one.
-/

namespace ProtoRegistry

/-! ## Valid files -/

/-- The members of a scope: their names continue its name by one segment, and are all different. -/
structure Scope (outer : FullName) (names : List FullName) : Prop where
  nested : ∀ n ∈ names, n ≠ [] ∧ n.parent = outer
  nodup : names.Nodup

instance : Decidable (Scope outer names) :=
  decidable_of_iff ((∀ n ∈ names, n ≠ [] ∧ n.parent = outer) ∧ names.Nodup)
    ⟨fun h => ⟨h.1, h.2⟩, fun h => ⟨h.nested, h.nodup⟩⟩

/-- The members of a message. The values of an enum are members of the scope that the enum is in. -/
def MessageDescriptor.members (m : MessageDescriptor) : List Descriptor :=
  m.fields.map .field ++ m.oneofs.map .oneof ++ m.messages.map .message ++ m.enums.flatMap (·.descriptors) ++
    m.extensions.map .extension

/-- The members of the scope that a declaration opens. -/
def Descriptor.members : Descriptor → List Descriptor
  | .message m => m.members
  | .service s => s.methods.map .method
  | _ => []

/-- Names are unique within each scope of the file. -/
structure FileDescriptor.WellScoped (fd : FileDescriptor) : Prop where
  topLevel : Scope fd.package fd.topLevelNames
  nested : ∀ d ∈ fd.descriptors, Scope d.fullName (d.members.map (·.fullName))

instance (fd : FileDescriptor) : Decidable fd.WellScoped :=
  decidable_of_iff (Scope fd.package fd.topLevelNames ∧
      ∀ d ∈ fd.descriptors, Scope d.fullName (d.members.map (·.fullName)))
    ⟨fun h => ⟨h.1, h.2⟩, fun h => ⟨h.topLevel, h.nested⟩⟩

theorem Scope.eq {outer n : FullName} {names : List FullName} (h : Scope outer names) (hn : n ∈ names) :
    n = outer ++ [n.name] := by
  obtain ⟨hne, rfl⟩ := h.nested n hn
  obtain rfl | ⟨l, s, rfl⟩ := List.eq_nil_or_concat n
  · exact absurd rfl hne
  · simp [FullName.parent, FullName.name]

theorem Scope.inj {outer : FullName} {ds : List Descriptor} (h : Scope outer (ds.map (·.fullName))) (hd : d ∈ ds)
    (he : e ∈ ds) (hname : d.fullName.name = e.fullName.name) : d = e := by
  refine List.inj_on_of_nodup_map h.nodup hd he ?_
  rw [h.eq (List.mem_map_of_mem hd), h.eq (List.mem_map_of_mem he), hname]

/-! ## The declarations of a message -/

section
variable {m m' : MessageDescriptor} {d e : Descriptor}

namespace MessageDescriptor

theorem self_mem_descriptors (m : MessageDescriptor) : .message m ∈ m.descriptors := by
  obtain ⟨n, fs, os, ms, es, xs⟩ := m
  rw [descriptors]
  exact List.mem_cons_self ..

theorem mem_descriptors :
    d ∈ m.descriptors ↔ d = .message m ∨ d ∈ m.members ∨ ∃ m' ∈ m.messages, d ∈ m'.descriptors := by
  have hself : d ∈ m.messages.map .message → ∃ m' ∈ m.messages, d ∈ m'.descriptors := by
    intro hd
    obtain ⟨m', hm', rfl⟩ := List.mem_map.mp hd
    exact ⟨m', hm', m'.self_mem_descriptors⟩
  obtain ⟨n, fs, os, ms, es, xs⟩ := m
  rw [descriptors, members]
  simp only [List.mem_cons, List.mem_append, mem_messagesDescriptors] at hself ⊢
  generalize (∃ m' ∈ ms, d ∈ m'.descriptors) = nested at hself ⊢
  tauto

theorem descriptors_subset (hm' : m' ∈ m.messages) : m'.descriptors ⊆ m.descriptors :=
  fun _ hd => mem_descriptors.mpr (.inr (.inr ⟨m', hm', hd⟩))

theorem message_mem_members (hm' : m' ∈ m.messages) : .message m' ∈ m.members := by
  simp [members, hm']

/-- Names are unique within the message and within each of those nested in it. -/
def WellScoped (m : MessageDescriptor) : Prop := ∀ d ∈ m.descriptors, Scope d.fullName (d.members.map (·.fullName))

namespace WellScoped

variable (h : m.WellScoped)
include h

theorem nested (hm' : m' ∈ m.messages) : m'.WellScoped := fun d hd => h d (descriptors_subset hm' hd)

theorem scope : Scope m.fullName (m.members.map (·.fullName)) := h _ m.self_mem_descriptors

theorem member_eq (hd : d ∈ m.members) : d.fullName = m.fullName ++ [d.fullName.name] :=
  h.scope.eq (List.mem_map_of_mem hd)

theorem exists_suffix (hd : d ∈ m.descriptors) : ∃ suffix, d.fullName = m.fullName ++ suffix := by
  induction m using MessageDescriptor.nested_induction generalizing d with
  | h m ih =>
    obtain rfl | hd | ⟨m', hm', hd⟩ := mem_descriptors.mp hd
    · exact ⟨[], (List.append_nil _).symm⟩
    · exact ⟨_, h.member_eq hd⟩
    · obtain ⟨suffix, hsuffix⟩ := ih m' hm' (h.nested hm') hd
      refine ⟨(Descriptor.message m').fullName.name :: suffix, ?_⟩
      rw [hsuffix, List.append_cons, ← h.member_eq (message_mem_members hm')]
      rfl

theorem mem_of_cons (hd : d ∈ m.descriptors) (hname : d.fullName = m.fullName ++ s :: suffix) :
    suffix = [] ∧ d ∈ m.members ∨ ∃ m' ∈ m.messages, d ∈ m'.descriptors ∧ m'.fullName = m.fullName ++ [s] := by
  obtain rfl | hd | ⟨m', hm', hd⟩ := mem_descriptors.mp hd
  · simp [Descriptor.fullName] at hname
  · have hmember := h.member_eq hd
    rw [hname] at hmember
    have hlen := congrArg List.length hmember
    simp only [List.length_append, List.length_cons, List.length_nil] at hlen
    exact .inl ⟨List.length_eq_zero_iff.mp (by omega), hd⟩
  · obtain ⟨rest, hrest⟩ := (h.nested hm').exists_suffix hd
    have hmember := h.member_eq (message_mem_members hm')
    change m'.fullName = m.fullName ++ [m'.fullName.name] at hmember
    rw [hname, hmember, List.append_assoc, List.append_cancel_left_eq, List.singleton_append, List.cons.injEq] at hrest
    exact .inr ⟨m', hm', hd, hrest.1 ▸ hmember⟩

theorem eq_self (hd : d ∈ m.descriptors) (hname : d.fullName = m.fullName) : d = .message m := by
  obtain rfl | hd | ⟨m', hm', hd⟩ := mem_descriptors.mp hd
  · rfl
  · have hmember := h.member_eq hd
    rw [hname] at hmember
    simp at hmember
  · obtain ⟨suffix, hsuffix⟩ := (h.nested hm').exists_suffix hd
    have hmember := h.member_eq (message_mem_members hm')
    change m'.fullName = m.fullName ++ [m'.fullName.name] at hmember
    rw [hname, hmember, List.append_assoc] at hsuffix
    simp at hsuffix

end WellScoped

end MessageDescriptor

end

/-! ## Descending from an entry -/

theorem byName_eq_some {fullName : α → FullName} {ds : List α} (h : byName fullName ds name = some x) :
    x ∈ ds ∧ (fullName x).name = name :=
  ⟨List.mem_of_find?_eq_some h, by simpa using List.find?_some h⟩

theorem byName_ne_none {fullName : α → FullName} {ds : List α} (hx : x ∈ ds) :
    byName fullName ds (fullName x).name ≠ none := by
  intro hnone
  simpa using List.find?_eq_none.mp hnone x hx

/-- The member of a message with the given name, whatever its kind. -/
def findMember (md : MessageDescriptor) (name : String) : Option Descriptor :=
  (findLeafInMessage md name).or ((byName (·.fullName) md.messages name).map .message)

theorem mem_of_findMember {md : MessageDescriptor} (h : findMember md name = some d) :
    d ∈ md.members ∧ d.fullName.name = name := by
  have hpart : ∀ {α : Type} {fullName : α → FullName} {ctor : α → Descriptor} {ds : List α},
      (∀ x, (ctor x).fullName = fullName x) → (byName fullName ds name).map ctor = some d →
        d ∈ ds.map ctor ∧ d.fullName.name = name := by
    intro α fullName ctor ds hctor hd
    obtain ⟨x, hx, rfl⟩ := Option.map_eq_some_iff.mp hd
    obtain ⟨hmem, hname⟩ := byName_eq_some hx
    exact ⟨List.mem_map_of_mem hmem, hctor x ▸ hname⟩
  simp only [findMember, findLeafInMessage, Option.or_eq_some_iff] at h
  simp only [MessageDescriptor.members, List.mem_append]
  obtain (henum | ⟨-, hvalue | ⟨-, hext | ⟨-, hfield | ⟨-, honeof⟩⟩⟩⟩) | ⟨-, hmessage⟩ := h
  · obtain ⟨e, he, rfl⟩ := Option.map_eq_some_iff.mp henum
    obtain ⟨he, hname⟩ := byName_eq_some he
    exact ⟨.inl (.inr (List.mem_flatMap.mpr ⟨e, he, List.mem_cons_self ..⟩)), hname⟩
  · obtain ⟨e, he, hvalue⟩ := List.exists_of_findSome?_eq_some hvalue
    obtain ⟨hmem, hname⟩ := hpart (fun _ => rfl) hvalue
    exact ⟨.inl (.inr (List.mem_flatMap.mpr ⟨e, List.mem_reverse.mp he, List.mem_cons_of_mem _ hmem⟩)), hname⟩
  · exact (hpart (fun _ => rfl) hext).imp_left .inr
  · exact (hpart (fun _ => rfl) hfield).imp_left fun hmem => .inl (.inl (.inl (.inl hmem)))
  · exact (hpart (fun _ => rfl) honeof).imp_left fun hmem => .inl (.inl (.inl (.inr hmem)))
  · exact (hpart (fun _ => rfl) hmessage).imp_left fun hmem => .inl (.inl (.inr hmem))

theorem findMember_ne_none {md : MessageDescriptor} (hd : d ∈ md.members) : findMember md d.fullName.name ≠ none := by
  intro hnone
  simp only [findMember, findLeafInMessage, Option.or_eq_none_iff, Option.map_eq_none_iff,
    List.findSome?_eq_none_iff, List.mem_reverse] at hnone
  obtain ⟨⟨henum, hvalue, hext, hfield, honeof⟩, hmessage⟩ := hnone
  simp only [MessageDescriptor.members, List.mem_append] at hd
  obtain (((hd | hd) | hd) | hd) | hd := hd
  · obtain ⟨x, hx, rfl⟩ := List.mem_map.mp hd
    exact byName_ne_none hx hfield
  · obtain ⟨x, hx, rfl⟩ := List.mem_map.mp hd
    exact byName_ne_none hx honeof
  · obtain ⟨x, hx, rfl⟩ := List.mem_map.mp hd
    exact byName_ne_none hx hmessage
  · obtain ⟨e, he, hd⟩ := List.mem_flatMap.mp hd
    obtain rfl | hd := List.mem_cons.mp hd
    · exact byName_ne_none he henum
    · obtain ⟨x, hx, rfl⟩ := List.mem_map.mp hd
      exact byName_ne_none hx (hvalue e he)
  · obtain ⟨x, hx, rfl⟩ := List.mem_map.mp hd
    exact byName_ne_none hx hext

section
variable {m : MessageDescriptor} {d : Descriptor}

theorem findMember_eq_some_iff (h : m.WellScoped) :
    findMember m name = some d ↔ d ∈ m.members ∧ d.fullName.name = name := by
  refine ⟨mem_of_findMember, ?_⟩
  rintro ⟨hd, rfl⟩
  obtain ⟨e, he⟩ := Option.ne_none_iff_exists'.mp (findMember_ne_none hd)
  obtain ⟨hmem, hname⟩ := mem_of_findMember he
  rw [he, h.scope.inj hmem hd hname]

theorem byName_messages (h : m.WellScoped) (hm' : m' ∈ m.messages) :
    byName (·.fullName) m.messages m'.fullName.name = some m' := by
  have hne : byName (·.fullName) m.messages m'.fullName.name ≠ none := byName_ne_none hm'
  obtain ⟨m'', hbyName⟩ := Option.ne_none_iff_exists'.mp hne
  obtain ⟨hm'', hname⟩ := byName_eq_some hbyName
  have heq := h.scope.inj (MessageDescriptor.message_mem_members hm'') (MessageDescriptor.message_mem_members hm') hname
  rw [hbyName, Descriptor.message.inj heq]

theorem findDescriptorInMessage_cons (md : MessageDescriptor) (s s' : String) (rest : List String) :
    findDescriptorInMessage md (s :: s' :: rest) =
      (byName (·.fullName) md.messages s).bind (findDescriptorInMessage · (s' :: rest)) := by
  rw [findDescriptorInMessage]
  · cases byName (·.fullName) md.messages s <;> rfl
  · simp

/-- The descent finds exactly what is declared below the name of the message. -/
theorem findDescriptorInMessage_eq_some_iff (h : m.WellScoped) (hne : suffix ≠ []) :
    findDescriptorInMessage m suffix = some d ↔ d ∈ m.descriptors ∧ d.fullName = m.fullName ++ suffix := by
  induction suffix generalizing m with
  | nil => exact absurd rfl hne
  | cons s rest ih =>
    cases rest with
    | nil =>
      refine (findMember_eq_some_iff h).trans ⟨fun ⟨hd, hname⟩ => ⟨?_, ?_⟩, fun ⟨hd, hname⟩ => ?_⟩
      · exact MessageDescriptor.mem_descriptors.mpr (.inr (.inl hd))
      · rw [← hname]
        exact h.member_eq hd
      · obtain ⟨-, hd⟩ | ⟨m', hm', hd, hname'⟩ := h.mem_of_cons hd hname
        · exact ⟨hd, by simp [hname, FullName.name]⟩
        · obtain rfl := (h.nested hm').eq_self hd (hname.trans hname'.symm)
          exact ⟨MessageDescriptor.message_mem_members hm', by simp [hname, FullName.name]⟩
    | cons s' rest =>
      rw [findDescriptorInMessage_cons, Option.bind_eq_some_iff]
      constructor
      · rintro ⟨m', hbyName, hfind⟩
        obtain ⟨hm', hname⟩ := byName_eq_some hbyName
        obtain ⟨hd, hd'⟩ := (ih (h.nested hm') (by simp)).mp hfind
        refine ⟨MessageDescriptor.descriptors_subset hm' hd, ?_⟩
        rw [hd', List.append_cons m.fullName, ← hname]
        exact congrArg (· ++ _) (h.member_eq (MessageDescriptor.message_mem_members hm'))
      · rintro ⟨hd, hname⟩
        obtain ⟨hnil, -⟩ | ⟨m', hm', hd, hname'⟩ := h.mem_of_cons hd hname
        · cases hnil
        · have hs : m'.fullName.name = s := by simp [hname', FullName.name]
          refine ⟨m', hs ▸ byName_messages h hm', (ih (h.nested hm') (by simp)).mpr ⟨hd, ?_⟩⟩
          rw [hname, hname', ← List.append_cons]

end

/-- A declaration with everything that is declared in it. -/
def Descriptor.descriptors : Descriptor → List Descriptor
  | .message m => m.descriptors
  | .service s => s.descriptors
  | d => [d]

/-- What a file declares is declared at its top level or in a declaration there. -/
theorem FileDescriptor.mem_descriptors {fd : FileDescriptor} :
    d ∈ fd.descriptors ↔ ∃ t ∈ fd.topLevel, d ∈ t.descriptors := by
  simp only [descriptors, topLevel, List.mem_append, mem_messagesDescriptors, List.mem_flatMap, List.mem_map,
    List.mem_reverse, List.mem_cons]
  constructor
  · rintro (((⟨m, hm, hd⟩ | ⟨e, he, hd⟩) | ⟨x, hx, rfl⟩) | ⟨s, hs, hd⟩)
    · exact ⟨.message m, .inl (.inl (.inr ⟨m, hm, rfl⟩)), hd⟩
    · refine ⟨d, .inl (.inl (.inl ⟨e, he, ?_⟩)), ?_⟩
      · exact (List.mem_cons.mp hd).imp_right fun hd => by simpa using hd
      · obtain rfl | hd := List.mem_cons.mp hd
        · exact List.mem_singleton_self _
        · obtain ⟨v, -, rfl⟩ := List.mem_map.mp hd
          exact List.mem_singleton_self _
    · exact ⟨.extension x, .inl (.inr ⟨x, hx, rfl⟩), List.mem_singleton_self _⟩
    · exact ⟨.service s, .inr ⟨s, hs, rfl⟩, hd⟩
  · rintro ⟨t, ((⟨e, he, rfl | ⟨v, hv, rfl⟩⟩ | ⟨m, hm, rfl⟩) | ⟨x, hx, rfl⟩) | ⟨s, hs, rfl⟩, hd⟩
    · obtain rfl := List.mem_singleton.mp hd
      exact .inl (.inl (.inr ⟨e, he, List.mem_cons_self ..⟩))
    · obtain rfl := List.mem_singleton.mp hd
      exact .inl (.inl (.inr ⟨e, he, List.mem_cons_of_mem _ (List.mem_map_of_mem hv)⟩))
    · exact .inl (.inl (.inl ⟨m, hm, hd⟩))
    · obtain rfl := List.mem_singleton.mp hd
      exact .inl (.inr ⟨x, hx, rfl⟩)
    · exact .inr ⟨s, hs, hd⟩

namespace Descriptor

theorem self_mem_descriptors (t : Descriptor) : t ∈ t.descriptors := by
  cases t with
  | message m => exact m.self_mem_descriptors
  | service s => exact List.mem_cons_self ..
  | _ => exact List.mem_singleton_self _

/-- Names are unique within the declaration. -/
def WellScoped (t : Descriptor) : Prop := ∀ d ∈ t.descriptors, Scope d.fullName (d.members.map (·.fullName))

variable {t d : Descriptor}

theorem WellScoped.method_eq {s : ServiceDescriptor} (h : (Descriptor.service s).WellScoped) (hx : x ∈ s.methods) :
    x.fullName = s.fullName ++ [x.fullName.name] := by
  have hscope := h _ (self_mem_descriptors _)
  exact hscope.eq (List.mem_map_of_mem (List.mem_map_of_mem hx))

theorem WellScoped.byName_methods {s : ServiceDescriptor} (h : (Descriptor.service s).WellScoped) (hx : x ∈ s.methods) :
    byName (·.fullName) s.methods x.fullName.name = some x := by
  have hne : byName (·.fullName) s.methods x.fullName.name ≠ none := byName_ne_none hx
  obtain ⟨y, hbyName⟩ := Option.ne_none_iff_exists'.mp hne
  obtain ⟨hy, hname⟩ := byName_eq_some hbyName
  have hscope := h _ (self_mem_descriptors _)
  have heq : Descriptor.method y = .method x := hscope.inj (List.mem_map_of_mem hy) (List.mem_map_of_mem hx) hname
  rw [hbyName, Descriptor.method.inj heq]

theorem WellScoped.eq_self (h : t.WellScoped) (hd : d ∈ t.descriptors) (hname : d.fullName = t.fullName) : d = t := by
  cases t with
  | message m => exact MessageDescriptor.WellScoped.eq_self h hd hname
  | service s =>
    obtain rfl | hd := List.mem_cons.mp hd
    · rfl
    · obtain ⟨x, hx, rfl⟩ := List.mem_map.mp hd
      have hmethod := h.method_eq hx
      change x.fullName = s.fullName at hname
      simp [hname] at hmethod
  | _ => exact List.mem_singleton.mp hd

theorem WellScoped.exists_suffix (h : t.WellScoped) (hd : d ∈ t.descriptors) :
    ∃ suffix, d.fullName = t.fullName ++ suffix := by
  cases t with
  | message m => exact MessageDescriptor.WellScoped.exists_suffix h hd
  | service s =>
    obtain rfl | hd := List.mem_cons.mp hd
    · exact ⟨[], (List.append_nil _).symm⟩
    · obtain ⟨x, hx, rfl⟩ := List.mem_map.mp hd
      exact ⟨_, h.method_eq hx⟩
  | _ => exact ⟨[], by rw [List.mem_singleton.mp hd, List.append_nil]⟩

theorem WellScoped.method_eq_some_iff {s : ServiceDescriptor} (h : (Descriptor.service s).WellScoped)
    (hnil : suffix ≠ []) :
    ((byName (·.fullName) s.methods (suffix.headD "")).map Descriptor.method = some d ∧
        d.fullName = s.fullName ++ suffix) ↔
      d ∈ (Descriptor.service s).descriptors ∧ d.fullName = s.fullName ++ suffix := by
  refine and_congr_left fun hname => ⟨fun hfind => ?_, fun hd => ?_⟩
  · obtain ⟨x, hx, rfl⟩ := Option.map_eq_some_iff.mp hfind
    exact List.mem_cons_of_mem _ (List.mem_map_of_mem (byName_eq_some hx).1)
  · obtain rfl | hd := List.mem_cons.mp hd
    · exact absurd (List.self_eq_append_right.mp hname) hnil
    · obtain ⟨x, hx, rfl⟩ := List.mem_map.mp hd
      have hsuffix : suffix = [x.fullName.name] := List.append_cancel_left (hname.symm.trans (h.method_eq hx))
      rw [hsuffix, List.headD_cons, h.byName_methods hx, Option.map_some]

theorem WellScoped.resolve_eq_some_iff (h : t.WellScoped) (suffix : List String) :
    (NamedEntry.descriptor t).resolve (t.fullName ++ suffix) suffix = some d ↔
      d ∈ t.descriptors ∧ d.fullName = t.fullName ++ suffix := by
  unfold NamedEntry.resolve
  dsimp only
  by_cases hnil : suffix = []
  · subst hnil
    rw [if_pos (List.append_nil _).symm, List.append_nil, Option.some.injEq]
    constructor
    · rintro rfl
      exact ⟨self_mem_descriptors _, rfl⟩
    · exact fun hd => (h.eq_self hd.1 hd.2).symm
  · rw [if_neg (by simpa using hnil)]
    cases t with
    | message m =>
      simp only [Option.filter_eq_some_iff, decide_eq_true_eq]
      rw [findDescriptorInMessage_eq_some_iff h hnil]
      exact ⟨And.left, fun hd => ⟨hd, hd.2⟩⟩
    | service s =>
      simp only [Option.filter_eq_some_iff, decide_eq_true_eq]
      exact h.method_eq_some_iff hnil
    | _ =>
      constructor
      · intro hfind
        cases hfind
      · rintro ⟨hd, hname⟩
        obtain rfl := List.mem_singleton.mp hd
        exact absurd hname (by simpa using hnil)

end Descriptor

theorem FileDescriptor.WellScoped.entry {fd : FileDescriptor} (h : fd.WellScoped) (ht : t ∈ fd.topLevel) :
    t.WellScoped :=
  fun d hd => h.nested d (mem_descriptors.mpr ⟨t, ht, hd⟩)

theorem FileDescriptor.WellScoped.name_eq {fd : FileDescriptor} (h : fd.WellScoped) (hn : n ∈ fd.topLevelNames) :
    n = fd.package ++ [n.name] :=
  h.topLevel.eq hn

theorem FileDescriptor.WellScoped.wellNamed {fd : FileDescriptor} (h : fd.WellScoped) : fd.WellNamed := by
  refine ⟨h.topLevel.nodup, fun n hn hpkg => ?_⟩
  obtain hchain | rfl := mem_packageNames.mp hpkg
  · obtain ⟨-, t, ht⟩ := FullName.mem_chain.mp hchain
    have hlen := congrArg List.length (ht.trans rfl)
    rw [h.name_eq hn] at hlen
    simp only [List.length_append, List.length_cons, List.length_nil] at hlen
    omega
  · exact (h.topLevel.nested [] hn).1 rfl

/-! ## Registering files -/

namespace NamespacedFiles

variable {r r' : NamespacedFiles} {files : List FileDescriptor} {f g : FileDescriptor}

/-- A registry to which valid files were added one by one. -/
structure Accepted (r : NamespacedFiles) (files : List FileDescriptor) : Prop extends Gathered r files where
  wellScoped : ∀ f ∈ files, f.WellScoped

theorem Accepted.new : Accepted .new [] := ⟨.new, fun f hf => by cases hf⟩

/-- A valid file that passes the checks is added to those that were accepted. -/
theorem Accepted.register (h : Accepted r files) (hscoped : f.WellScoped) (hreg : r.registerFile f = .ok r') :
    Accepted r' (files ++ [f]) := by
  refine ⟨h.toGathered.register hscoped.wellNamed hreg, fun g hg => ?_⟩
  obtain hg | hg := List.mem_append.mp hg
  · exact h.wellScoped g hg
  · exact List.mem_singleton.mp hg ▸ hscoped

/-! ## Lookups -/

theorem findSome?_chain {look : FullName → Option β} {outer : FullName} (suffix : List String)
    (hne : outer ≠ []) (hlook : look outer = some x)
    (hnone : ∀ below ≠ [], below <+: suffix → look (outer ++ below) = none) :
    (FullName.chain (outer ++ suffix)).findSome? look = some x := by
  induction suffix using List.reverseRecOn with
  | nil =>
    rw [List.append_nil]
    cases outer using List.reverseRecOn with
    | nil => exact absurd rfl hne
    | append_singleton l s => rw [FullName.chain_concat, List.findSome?_cons, hlook]
  | append_singleton suffix s ih =>
    rw [← List.append_assoc, FullName.chain_concat, List.findSome?_cons, List.append_assoc,
      hnone (suffix ++ [s]) (by simp) (List.prefix_refl _)]
    exact ih fun below hbelow hpre => hnone below hbelow (hpre.trans (List.prefix_append ..))

theorem Accepted.get_below (h : Accepted r files) (hf : f ∈ files) (ht : t ∈ f.topLevel) (hbelow : below ≠ []) :
    r.descsByName.get (t.fullName ++ below) = none := by
  have hname : t.fullName ∈ f.topLevelNames := List.mem_map_of_mem ht
  have hne : t.fullName ≠ [] := ((h.wellScoped f hf).topLevel.nested _ hname).1
  rw [get_eq_none_iff, ← Option.not_isSome_iff_eq_none, ← Option.not_isSome_iff_eq_none]
  constructor
  · -- a name at the top level of another file has all names above it as packages
    intro hsome
    obtain ⟨t', ht'⟩ := Option.isSome_iff_exists.mp hsome
    obtain ⟨hmem, hname'⟩ := (h.descriptors _ _).mp ht'
    obtain ⟨g, hg, htg⟩ := List.mem_flatMap.mp hmem
    have hparent := ((h.wellScoped g hg).topLevel.nested _ (List.mem_map_of_mem htg)).2
    change t'.fullName = _ at hname'
    rw [hname', FullName.parent, List.dropLast_append_of_ne_nil hbelow] at hparent
    exact h.apart hg (FullName.mem_chain.mpr ⟨hne, _, hparent⟩) hf hname
  · intro hsome
    obtain hnil | ⟨g, hg, hchain⟩ := h.package_iff.mp hsome
    · exact hne (List.append_eq_nil_iff.mp hnil).1
    · refine h.apart hg (FullName.chain_trans ?_ hchain) hf hname
      exact FullName.mem_chain.mpr ⟨hne, below, rfl⟩

theorem findDescriptorByNameLocal_eq_ok : r.findDescriptorByNameLocal n = .ok d ↔
    (n.chain.findSome? fun outer =>
      (r.descsByName.get outer).map fun entry => entry.resolve n (n.drop outer.length)) = some (some d) := by
  unfold findDescriptorByNameLocal
  generalize n.chain.findSome? (fun outer =>
    (r.descsByName.get outer).map fun entry => entry.resolve n (n.drop outer.length)) = found
  obtain _ | _ | e := found <;> simp

/-- A lookup finds exactly what the files declare. -/
theorem Accepted.find_iff (h : Accepted r files) :
    r.findDescriptorByNameLocal n = .ok d ↔ ∃ f ∈ files, d ∈ f.descriptors ∧ d.fullName = n := by
  rw [findDescriptorByNameLocal_eq_ok]
  constructor
  · intro hfind
    obtain ⟨outer, houter, hentry⟩ := List.exists_of_findSome?_eq_some hfind
    obtain ⟨-, suffix, rfl⟩ := FullName.mem_chain.mp houter
    obtain ⟨entry, hget, hentry⟩ := Option.map_eq_some_iff.mp hentry
    rw [List.drop_left] at hentry
    cases entry with
    | package fs => cases hentry
    | descriptor t =>
      obtain ⟨hmem, rfl⟩ := (h.descriptors _ _).mp (descriptorAt_eq_some.mpr hget)
      obtain ⟨f, hf, ht⟩ := List.mem_flatMap.mp hmem
      obtain ⟨hd, hname⟩ := (((h.wellScoped f hf).entry ht).resolve_eq_some_iff suffix).mp hentry
      exact ⟨f, hf, FileDescriptor.mem_descriptors.mpr ⟨t, ht, hd⟩, hname⟩
  · rintro ⟨f, hf, hd, rfl⟩
    obtain ⟨t, ht, hd⟩ := FileDescriptor.mem_descriptors.mp hd
    have hscoped := (h.wellScoped f hf).entry ht
    obtain ⟨suffix, hsuffix⟩ := hscoped.exists_suffix hd
    have hname : t.fullName ∈ f.topLevelNames := List.mem_map_of_mem ht
    have hget : r.descsByName.get t.fullName = some (.descriptor t) :=
      descriptorAt_eq_some.mp (h.descriptors.get (List.mem_flatMap.mpr ⟨f, hf, ht⟩))
    rw [hsuffix]
    refine findSome?_chain suffix ((h.wellScoped f hf).topLevel.nested _ hname).1 ?_ fun below hbelow _ => ?_
    · rw [hget, Option.map_some, List.drop_left, (hscoped.resolve_eq_some_iff suffix).mpr ⟨hd, hsuffix⟩]
    · rw [h.get_below hf ht hbelow, Option.map_none]

/-- `RegisterFile` for the files of a list, one after another: the registry, and the files it accepted. A file
that is rejected changes nothing. -/
def registerAll (files : List FileDescriptor) : NamespacedFiles × List FileDescriptor :=
  files.foldl
    (fun s f =>
      match s.1.registerFile f with
      | .ok r => (r, s.2 ++ [f])
      | .error _ => s)
    (.new, [])

theorem accepted_registerAll (hscoped : ∀ f ∈ files, f.WellScoped) :
    Accepted (registerAll files).1 (registerAll files).2 := by
  induction files using List.reverseRecOn with
  | nil => exact .new
  | append_singleton files f ih =>
    have ih := ih fun g hg => hscoped g (List.mem_append_left _ hg)
    rw [registerAll, List.foldl_append, List.foldl_cons, List.foldl_nil, ← registerAll]
    split
    · next r hreg => exact ih.register (hscoped f (List.mem_append_right _ (List.mem_singleton_self f))) hreg
    · exact ih

/-- **Lookups are sound and complete**: whatever valid files are registered, accepted or not, a name is found
exactly when an accepted file declares it, and what is found is its declaration. -/
theorem findDescriptorByName_iff {files : List FileDescriptor} (hscoped : ∀ f ∈ files, f.WellScoped) (n : FullName) :
    (∀ d, (FilesChain.node (registerAll files).1 .nil).findDescriptorByName n = .ok d ↔
        ∃ f ∈ (registerAll files).2, d ∈ f.descriptors ∧ d.fullName = n) ∧
      ((¬ ∃ d, ∃ f ∈ (registerAll files).2, d ∈ f.descriptors ∧ d.fullName = n) →
        (FilesChain.node (registerAll files).1 .nil).findDescriptorByName n = .error .notFound) := by
  have haccepted := accepted_registerAll hscoped
  have hlocal : (FilesChain.node (registerAll files).1 .nil).findDescriptorByName n =
      (registerAll files).1.findDescriptorByNameLocal n := by
    unfold FilesChain.findDescriptorByName
    split
    · next heq => exact heq.symm
    · rfl
  rw [hlocal]
  refine ⟨fun d => haccepted.find_iff, fun hnone => ?_⟩
  cases hfind : (registerAll files).1.findDescriptorByNameLocal n with
  | ok d => exact absurd ⟨d, haccepted.find_iff.mp hfind⟩ hnone
  | error e =>
    unfold findDescriptorByNameLocal at hfind
    dsimp only at hfind
    split at hfind
    · cases hfind
    · exact hfind.symm

/-- A field is found, and a value of an enum in a file that was rejected is not. -/
theorem findDescriptorByName_rejected :
    let files := [Sample.rpcFile false [Sample.extension], Sample.enumFile "e.proto" "M"]
    (FilesChain.node (registerAll files).1 .nil).findDescriptorByName ["p", "M", "x"] =
        .ok (.field ⟨["p", "M", "x"], 1, .int32, .optional, [], [], ["p", "M"]⟩) ∧
      (FilesChain.node (registerAll files).1 .nil).findDescriptorByName ["p", "X"] = .error .notFound := by
  intro files
  have hscoped : ∀ f ∈ files, f.WellScoped := by decide
  have haccepted : (registerAll files).2 = [Sample.rpcFile false [Sample.extension]] := rfl
  refine ⟨((findDescriptorByName_iff hscoped _).1 _).mpr ⟨_,
    by rw [haccepted]; exact List.mem_singleton_self _, ?_, rfl⟩,
    (findDescriptorByName_iff hscoped _).2 ?_⟩
  · exact .tail _ (.head _)
  · rintro ⟨d, f, hf, hd, hname⟩
    rw [haccepted, List.mem_singleton] at hf
    have hdeclared : d.fullName ∈ f.declared := f.map_descriptors ▸ List.mem_map_of_mem hd
    rw [hname, hf] at hdeclared
    revert hdeclared
    decide

end NamespacedFiles

end ProtoRegistry
