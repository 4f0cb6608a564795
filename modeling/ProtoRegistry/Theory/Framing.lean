import Mathlib.Data.List.Basic
import Mathlib.Data.List.Flatten

/-!
# Records in a text

A record is written as a name, a mark, a body of fixed width and a stop. A body has neither the mark nor the
stop in it, but a name may have both. So a text of records is cut in one way at each end of a record, and what
it determines is the list of the records it is cut into. That can be more records than the text was written
from: a name that holds a mark, a body and a stop hides a record.
-/

namespace ProtoRegistry

structure Framing (α : Type) where
  mark : α
  stop : α
  width : Nat
  inBody : α → Bool
  mark_ne_stop : mark ≠ stop
  inBody_mark : inBody mark = false
  inBody_stop : inBody stop = false

namespace Framing

variable {α : Type} (F : Framing α)

/-- The bodies that a record may have. -/
def Body (body : List α) : Prop := body.length = F.width ∧ ∀ c ∈ body, F.inBody c = true

def text (r : List α × List α) : List α := r.1 ++ F.mark :: (r.2 ++ [F.stop])

/-- What has been read since the last record, the last character first, ends with a mark and a body. -/
def Complete (read : List α) : Prop :=
  F.Body (read.take F.width) ∧ read.drop F.width = F.mark :: read.drop (F.width + 1)

variable {F}

theorem Body.stop_notMem {body : List α} (h : F.Body body) : F.stop ∉ body := by
  intro hstop
  have := h.2 F.stop hstop
  rw [F.inBody_stop] at this
  cases this

theorem Body.complete {body : List α} (h : F.Body body) (read : List α) :
    F.Complete (body.reverse ++ F.mark :: read) := by
  have hlength : body.reverse.length = F.width := by rw [List.length_reverse, h.1]
  refine ⟨?_, ?_⟩
  · rw [List.take_left' hlength]
    exact ⟨hlength, fun c hc => h.2 c (List.mem_reverse.mp hc)⟩
  · rw [List.drop_left' hlength, ← List.drop_drop, List.drop_left' hlength]
    rfl

theorem Complete.text_eq {read : List α} (h : F.Complete read) :
    F.text ((read.drop (F.width + 1)).reverse, (read.take F.width).reverse) = read.reverse ++ [F.stop] := by
  conv_rhs => rw [← List.take_append_drop F.width read, h.2]
  simp [text]

theorem text_injective {r r' : List α × List α} (h : F.Body r.2) (h' : F.Body r'.2)
    (htext : F.text r = F.text r') : r = r' := by
  obtain ⟨name, body⟩ := r
  obtain ⟨name', body'⟩ := r'
  have hlength : (F.mark :: (body ++ [F.stop])).length = (F.mark :: (body' ++ [F.stop])).length := by
    simp [h.1, h'.1]
  obtain ⟨hname, htail⟩ := List.append_inj' htext hlength
  exact Prod.ext hname (List.append_cancel_right (List.cons.inj htail).2)

/-! ## Cutting a text -/

variable [DecidableEq α]

instance (read : List α) : Decidable (F.Complete read) :=
  inferInstanceAs (Decidable ((_ ∧ ∀ c ∈ read.take F.width, F.inBody c = true) ∧ _))

variable (F) in
/-- The records of a text: each stop after a mark and a body ends one. -/
def cut (read : List α) : List α → List (List α × List α)
  | [] => []
  | c :: rest =>
    if c = F.stop ∧ F.Complete read then
      ((read.drop (F.width + 1)).reverse, (read.take F.width).reverse) :: cut [] rest
    else
      cut (c :: read) rest

variable (F) in
/-- The records that are written in one. -/
def records (r : List α × List α) : List (List α × List α) := F.cut [] (F.text r)

theorem cut_append_of_notMem {u : List α} (h : F.stop ∉ u) (read rest : List α) :
    F.cut read (u ++ rest) = F.cut (u.reverse ++ read) rest := by
  induction u generalizing read with
  | nil => rfl
  | cons c u ih =>
    obtain ⟨hc, hu⟩ := List.ne_and_not_mem_of_not_mem_cons h
    rw [List.cons_append, cut, if_neg fun hstop => hc hstop.1.symm, ih hu, List.reverse_cons,
      List.append_assoc, List.singleton_append]

theorem cut_mark {body : List α} (h : F.Body body) (read rest : List α) :
    F.cut read (F.mark :: (body ++ F.stop :: rest)) = (read.reverse, body) :: F.cut [] rest := by
  have hlength : body.reverse.length = F.width := by rw [List.length_reverse, h.1]
  rw [cut, if_neg fun hstop => F.mark_ne_stop hstop.1, cut_append_of_notMem h.stop_notMem, cut,
    if_pos ⟨rfl, h.complete read⟩, List.take_left' hlength, ← List.drop_drop, List.drop_left' hlength,
    List.reverse_reverse]
  rfl

theorem cut_text_append {name body : List α} (h : F.Body body) (read rest : List α) :
    F.cut read (F.text (name, body) ++ rest) = F.cut read (F.text (name, body)) ++ F.cut [] rest := by
  simp only [text, List.append_assoc, List.cons_append, List.nil_append]
  induction name generalizing read with
  | nil =>
    rw [List.nil_append, List.nil_append, cut_mark h, cut_mark h]
    rfl
  | cons c name ih =>
    rw [List.cons_append, List.cons_append, cut, cut]
    split
    · rw [ih, List.cons_append]
    · exact ih (c :: read)

theorem flatMap_cut_text {name body : List α} (h : F.Body body) (read : List α) :
    (F.cut read (F.text (name, body))).flatMap F.text = read.reverse ++ F.text (name, body) := by
  induction name generalizing read with
  | nil =>
    rw [text, List.nil_append, cut_mark h]
    simp [cut, text]
  | cons c name ih =>
    have htext : F.text (c :: name, body) = c :: F.text (name, body) := rfl
    rw [htext, cut]
    split
    next hstop => rw [List.flatMap_cons, hstop.2.text_eq, ih, hstop.1, List.append_assoc]; rfl
    next => rw [ih, List.reverse_cons, List.append_assoc]; rfl

theorem records_injective {r r' : List α × List α} (h : F.Body r.2) (h' : F.Body r'.2)
    (hrecords : F.records r = F.records r') : r = r' := by
  apply text_injective h h'
  calc F.text r
    _ = (F.records r).flatMap F.text := (flatMap_cut_text h []).symm
    _ = (F.records r').flatMap F.text := by rw [hrecords]
    _ = F.text r' := flatMap_cut_text h' []

theorem records_of_notMem {name body : List α} (h : F.Body body) (hname : F.stop ∉ name) :
    F.records (name, body) = [(name, body)] := by
  rw [records, text, cut_append_of_notMem hname, cut_mark h]
  simp [cut]

/-! ## Lists of records -/

section
variable {rs rs' : List (List α × List α)} (hrs : ∀ r ∈ rs, F.Body r.2) (hrs' : ∀ r ∈ rs', F.Body r.2)
include hrs

theorem cut_flatMap_text : F.cut [] (rs.flatMap F.text) = rs.flatMap F.records := by
  induction rs with
  | nil => rfl
  | cons r rs ih =>
    obtain ⟨hr, hrs⟩ := List.forall_mem_cons.mp hrs
    rw [List.flatMap_cons, cut_text_append hr, ih hrs]
    rfl

theorem flatMap_records_text : (rs.flatMap F.records).flatMap F.text = rs.flatMap F.text := by
  induction rs with
  | nil => rfl
  | cons r rs ih =>
    obtain ⟨hr, hrs⟩ := List.forall_mem_cons.mp hrs
    rw [List.flatMap_cons, List.flatMap_append, ih hrs, List.flatMap_cons, records, flatMap_cut_text hr]
    rfl

include hrs'

theorem flatMap_text_eq_iff :
    rs.flatMap F.text = rs'.flatMap F.text ↔ rs.flatMap F.records = rs'.flatMap F.records := by
  constructor
  · intro h
    rw [← cut_flatMap_text hrs, h, cut_flatMap_text hrs']
  · intro h
    rw [← flatMap_records_text hrs, h, flatMap_records_text hrs']

theorem eq_of_records_eq (h : rs.flatMap F.records = rs'.flatMap F.records)
    (hcuts : rs.map (fun r => (F.records r).length) = rs'.map fun r => (F.records r).length) : rs = rs' := by
  have hmap : rs.map F.records = rs'.map F.records := by
    apply List.eq_iff_flatten_eq.mpr
    refine ⟨h, ?_⟩
    rw [List.map_map, List.map_map]
    exact hcuts
  clear h hcuts
  induction rs generalizing rs' with
  | nil => exact (List.map_eq_nil_iff.mp hmap.symm).symm
  | cons r rs ih =>
    cases rs' with
    | nil => simp at hmap
    | cons r' rs' =>
      obtain ⟨hr, hrs⟩ := List.forall_mem_cons.mp hrs
      obtain ⟨hr', hrs'⟩ := List.forall_mem_cons.mp hrs'
      obtain ⟨hrecords, hmap⟩ := List.cons.inj hmap
      rw [records_injective hr hr' hrecords, ih hrs hrs' hmap]

end

end Framing
end ProtoRegistry
