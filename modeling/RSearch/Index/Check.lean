import RSearch.Index.Document

/-!
# The check before a write

A document-mode write is checked before it is logged: the first mapped value its column cannot parse
refuses the document.  The check and the conversion walk the same paths; they part where only the
conversion reads a date.
-/

namespace RSearch.Index

open List

open Json (Value Members)

variable {value : Value} {P : Platform} {schema : MappedSchema} {members : Members}
  {identity : DocIdentity} {fallback : ℤ}

theorem firstError_eq_ok_iff {xs : List (Unwind (Except IndexError Unit))} :
    firstError xs = .ok (.ok ()) ↔ ∀ x ∈ xs, x = .ok (.ok ()) := by
  induction xs with
  | nil => simp [firstError]
  | cons x xs ih =>
    rw [forall_mem_cons, ← ih]
    rcases x with p | e | ⟨⟨⟩⟩ <;> simp [firstError, bind, Except.bind, pure, Except.pure]

theorem Added.all_keeps_iff {xs : List (Unwind Added)} :
    (∃ a, all xs = .ok a ∧ a.dropped = 0) ↔ ∀ x ∈ xs, ∃ a, x = .ok a ∧ a.dropped = 0 := by
  induction xs with
  | nil => simp [all, empty]
  | cons x xs ih =>
    rw [forall_mem_cons, ← ih]
    cases x with
    | error p => simp [all, bind, Except.bind]
    | ok a =>
      cases hall : all xs <;>
        simp [all, hall, bind, Except.bind, pure, Except.pure, append]

mutual

theorem validateMapped_eq_ok_iff (P : Platform) (schema : MappedSchema) (path : String)
    (value : Value) : ∀ d : FieldDef, validateMapped P schema path value d = .ok (.ok ()) ↔
      ∀ p ∈ walk path d, validatePath P schema value p = .ok (.ok ())
  | ⟨_, _, _, _, fields⟩ => by
    rw [walk, forall_mem_cons, ← validateFields_eq_ok_iff P schema path value fields, validateMapped]
    rcases validatePath P schema value path with p | e | ⟨⟨⟩⟩ <;>
      simp [bind, Except.bind, pure, Except.pure]

theorem validateFields_eq_ok_iff (P : Platform) (schema : MappedSchema) (path : String)
    (value : Value) : ∀ fields : List (String × FieldDef),
      validateFields P schema path value fields = .ok (.ok ()) ↔
        ∀ p ∈ walkFields path fields, validatePath P schema value p = .ok (.ok ())
  | [] => by simp [validateFields, walkFields]
  | (name, sub) :: subs => by
    rw [walkFields, forall_mem_append, ← validateFields_eq_ok_iff P schema path value subs,
      ← validateMapped_eq_ok_iff P schema (path ++ "." ++ name) value sub, validateFields]
    rcases validateMapped P schema (path ++ "." ++ name) value sub with p | e | ⟨⟨⟩⟩ <;>
      simp [bind, Except.bind, pure, Except.pure]

end

/-- **A value the check refuses**: a column that does not ignore malformed values reads it, and
cannot parse it. -/
def Malformed (P : Platform) (schema : MappedSchema) (members : Members) : Prop :=
  ∃ mapped item, Reads schema members mapped item ∧ mapped.ignoreMalformed = false ∧
    ∀ x, parseFor P mapped item ≠ .ok (.ok x)

theorem validatePath_eq_ok_iff {path : String} :
    validatePath P schema value path = .ok (.ok ()) ↔
      ∀ mapped, schema.field path = some mapped → mapped.ignoreMalformed = false →
        ∀ item ∈ flatten value, ∃ x, parseFor P mapped item = .ok (.ok x) := by
  unfold validatePath
  cases schema.field path with
  | none => simp
  | some mapped =>
    cases hm : mapped.ignoreMalformed with
    | true => simp [hm]
    | false =>
      simp only [firstError_eq_ok_iff, forall_mem_map, Bool.false_eq_true, if_false,
        Option.some.injEq, forall_eq', hm, forall_const, validateItem]
      refine forall₂_congr fun item _ => ?_
      rcases parseFor P mapped item with p | e | x <;> simp [Except.map]

theorem indexPath_keeps_iff {path : String} :
    (∃ a, indexPath P schema value path = .ok a ∧ a.dropped = 0) ↔
      ∀ mapped, schema.field path = some mapped → ∀ item ∈ flatten value,
        ¬(mapped.ty = .date ∧ CutsText item) ∧
          (mapped.ignoreMalformed = false → ∃ x, parseFor P mapped item = .ok (.ok x)) := by
  unfold indexPath
  cases schema.field path with
  | none => simp [Added.empty]
  | some mapped =>
    simp only [Added.all_keeps_iff, forall_mem_map, Option.some.injEq, forall_eq']
    refine forall₂_congr fun item _ => ?_
    rw [← parseFor_eq_error_iff (P := P) (p := .notCharBoundary), indexItem]
    rcases parseFor P mapped item with ⟨⟨⟩⟩ | e | _ | x <;> simp [Except.map, Added.empty]

theorem forall_reads_iff {Q : MappedField → Value → Prop} :
    (∀ mapped item, Reads schema members mapped item → Q mapped item) ↔
      ∀ m ∈ members, ∀ d, schema.property m.1 = some d → ∀ path ∈ walk m.1 d,
        ∀ mapped, schema.field path = some mapped → ∀ item ∈ flatten m.2, Q mapped item := by
  constructor
  · intro h m hm d hd path hpath mapped hfield item hitem
    exact h mapped item ⟨m, hm, d, hd, hitem, path, hpath, hfield⟩
  · rintro h mapped item ⟨m, hm, d, hd, hitem, path, hpath, hfield⟩
    exact h m hm d hd path hpath mapped hfield item hitem

theorem validateDocument_eq_ok_iff :
    validateDocument P schema (.object members) = .ok (.ok ()) ↔ ¬Malformed P schema members := by
  have hreads : ¬Malformed P schema members ↔ ∀ mapped item, Reads schema members mapped item →
      mapped.ignoreMalformed = false → ∃ x, parseFor P mapped item = .ok (.ok x) := by
    simp [Malformed]
  rw [hreads, forall_reads_iff, validateDocument]
  split
  case isTrue hnone =>
    refine iff_of_true rfl fun m _ d hd => ?_
    rw [MappedSchema.property, isEmpty_iff.mp hnone] at hd
    cases hd
  case isFalse =>
    simp only [firstError_eq_ok_iff, mem_filterMap, Option.map_eq_some_iff]
    constructor
    · intro h m hm d hd path hpath mapped hfield item hitem hnot
      have hvalid := (validateMapped_eq_ok_iff P schema m.1 m.2 d).mp (h _ ⟨m, hm, d, hd, rfl⟩)
      exact validatePath_eq_ok_iff.mp (hvalid path hpath) mapped hfield hnot item hitem
    · rintro h _ ⟨m, hm, d, hd, rfl⟩
      refine (validateMapped_eq_ok_iff P schema m.1 m.2 d).mpr fun path hpath => ?_
      exact validatePath_eq_ok_iff.mpr fun mapped hfield hnot item hitem =>
        h m hm d hd path hpath mapped hfield item hitem hnot

theorem indexMembers_keeps_iff :
    (∃ a, indexMembers P schema members = .ok a ∧ a.dropped = 0) ↔
      ∀ mapped item, Reads schema members mapped item → ¬(mapped.ty = .date ∧ CutsText item) ∧
        (mapped.ignoreMalformed = false → ∃ x, parseFor P mapped item = .ok (.ok x)) := by
  rw [indexMembers, Added.all_keeps_iff, forall_reads_iff]
  simp only [mem_filterMap, Option.map_eq_some_iff, forall_exists_index, and_imp]
  constructor
  · intro h m hm d hd path hpath
    have hkeeps := h _ m hm d hd rfl
    rw [indexMapped_eq, Added.all_keeps_iff] at hkeeps
    exact indexPath_keeps_iff.mp (hkeeps _ (mem_map_of_mem hpath))
  · rintro h _ m hm d hd rfl
    rw [indexMapped_eq, Added.all_keeps_iff, forall_mem_map]
    exact fun path hpath => indexPath_keeps_iff.mpr (h m hm d hd path hpath)

theorem convertWithSource_keeps_iff {source : Option String} :
    (∃ c, convertWithSource P schema (.object members) source identity fallback = .ok (.ok c) ∧
      c.dropped = 0) ↔ ¬CutsDate schema members ∧ ¬Malformed P schema members := by
  have hparts : (∃ c, convertWithSource P schema (.object members) source identity fallback
      = .ok (.ok c) ∧ c.dropped = 0) ↔ (∃ t, extractTimestamp (.object members) = .ok t) ∧
        ∃ a, indexMembers P schema members = .ok a ∧ a.dropped = 0 := by
    rw [convertWithSource_object]
    cases extractTimestamp (.object members) <;> cases indexMembers P schema members <;>
      simp [bind, Except.bind, pure, Except.pure]
  have htime : (∃ t, extractTimestamp (.object members) = .ok t) ↔
      ¬∃ value, timestampValue (.object members) = some value ∧ CutsText value := by
    rw [← extractTimestamp_eq_error_iff (p := .notCharBoundary)]
    rcases extractTimestamp (.object members) with ⟨⟨⟩⟩ | t <;> simp
  rw [hparts, htime, indexMembers_keeps_iff]
  simp only [CutsDate, Malformed, not_or, not_exists, not_and, forall_and, not_forall, not_not]
  tauto

/-- **When the check and the conversion agree.**  The check accepts a document exactly when
converting it drops no value as malformed, unless the conversion unwinds at a date and the check
found nothing to refuse. -/
theorem check_agrees_iff (P : Platform) (schema : MappedSchema) (members : Members)
    (source : Option String) (identity : DocIdentity) (fallback : ℤ) :
    (validateDocument P schema (.object members) = .ok (.ok ()) ↔
      ∃ c, convertWithSource P schema (.object members) source identity fallback = .ok (.ok c) ∧
        c.dropped = 0) ↔
      (CutsDate schema members → Malformed P schema members) := by
  rw [validateDocument_eq_ok_iff, convertWithSource_keeps_iff]
  tauto

/-- A date column that ignores malformed values. -/
def lenientSchema : MappedSchema where
  source := 0
  timestamp := 1
  dynamic := 2
  fields := [("at", ⟨3, .date, none, none, true⟩)]
  mapping := ⟨[("at", ⟨.date, none, none, true, []⟩)], []⟩
  id := some 4
  seq := some 5
  dynamicRaw := some 6

/-- **An accepted document that cannot be converted.**  The check skips the lenient column, and the
conversion unwinds where it slices the offset inside a character. -/
theorem accepted_document_unwinds :
    ∃ P : Platform,
      validateDocument P lenientSchema (.object [("at", .string "2026-09-16T00:00:00+1é2")])
        = .ok (.ok ()) ∧
      convertWithSource P lenientSchema (.object [("at", .string "2026-09-16T00:00:00+1é2")]) none
        ⟨"a", 1⟩ 0 = .error .notCharBoundary := by
  refine ⟨⟨fun _ => "", fun _ => "", fun _ s => s, fun _ => none⟩, ?_, ?_⟩
  · rfl
  · refine convertWithSource_eq_error_iff.mpr (.inr ⟨_, _, ⟨_, mem_singleton_self _, _, rfl,
      mem_singleton_self _, _, mem_cons_self, rfl⟩, rfl, _, rfl, ?_⟩)
    exact parseDateString_eq_error_iff.mp
      (show parseDateString _ = .error .notCharBoundary by decide +kernel)

end RSearch.Index
